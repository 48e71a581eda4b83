import QuicSync.Numeral.BigEndian
import QuicSync.Types

/-!
# Elements of distinguished encoding

The program reads and writes certificates with its own encoder and parser of DER elements: a
one-byte tag, a length in the short form below 128 and in the minimal big-endian long form from
there on, and the value.

* `derValue_eq_some_iff` : the parser reads exactly what the encoder writes;
* `der_inverse` : with the form of the length field written out.
-/

namespace QuicSync

/-- `usize::checked_mul`. -/
def checkedMul (a b : ℕ) : Option ℕ := if a * b < 2 ^ 64 then some (a * b) else none

/-- `usize::checked_add`. -/
def checkedAdd (a b : ℕ) : Option ℕ := if a + b < 2 ^ 64 then some (a + b) else none

/-- `split_first` of a byte slice. -/
def splitFirst : Bytes → Option (UInt8 × Bytes)
  | [] => none
  | b :: bs => some (b, bs)

/-- `split_at_checked` of a byte slice. -/
def splitAtChecked (bytes : Bytes) (mid : ℕ) : Option (Bytes × Bytes) :=
  if mid ≤ bytes.length then some (bytes.take mid, bytes.drop mid) else none

/-- The length a long form denotes, with the checked arithmetic of the parser. -/
def foldLength (encodedLength : Bytes) : Option ℕ :=
  encodedLength.foldlM (fun length byte => do
    let length ← checkedMul length 256
    checkedAdd length byte.toNat) 0

/-- The length field of an element and what follows it. -/
def derLengthValue (afterTag : Bytes) : Option (ℕ × Bytes) := do
  let (firstLength, afterFirstLength) ← splitFirst afterTag
  if firstLength &&& 0x80 = 0 then
    some (firstLength.toNat, afterFirstLength)
  else
    let lengthBytes := (firstLength &&& 0x7f).toNat
    if lengthBytes = 0 ∨ lengthBytes > 8 then none
    else
      let (encodedLength, rest) ← splitAtChecked afterFirstLength lengthBytes
      if encodedLength.headD 0 = 0 then none
      else
        let length ← foldLength encodedLength
        if length < 128 then none else some (length, rest)

/-- The tag and the value of the element a byte string starts with, and what follows it. -/
def derValue (input : Bytes) : Option (UInt8 × Bytes × Bytes) := do
  let (tag, afterTag) ← splitFirst input
  let (length, valueAndRemaining) ← derLengthValue afterTag
  let (value, remaining) ← splitAtChecked valueAndRemaining length
  some (tag, value, remaining)

/-- The length field of an element. -/
def derLength (length : ℕ) : Bytes :=
  if length < 128 then [UInt8.ofNat length]
  else
    let bytes := BigEndian.bytes 8 length
    let first := (bytes.findIdx? (· != 0)).getD (bytes.length - 1)
    (0x80 ||| UInt8.ofNat (bytes.length - first)) :: bytes.drop first

/-- An element. -/
def der (tag : UInt8) (value : Bytes) : Bytes := tag :: (derLength value.length ++ value)

/-- A sequence of elements. -/
def derSequence (values : List Bytes) : Bytes := der 0x30 values.flatten

/-! ### The length field -/

theorem splitAtChecked_eq_some_iff {bytes a b : Bytes} {mid : ℕ} :
    splitAtChecked bytes mid = some (a, b) ↔ bytes = a ++ b ∧ a.length = mid := by
  unfold splitAtChecked
  constructor
  · intro h
    split at h
    · rename_i hle
      obtain ⟨rfl, rfl⟩ := Prod.mk.inj (Option.some.inj h)
      exact ⟨(List.take_append_drop mid bytes).symm, by simpa using hle⟩
    · cases h
  · rintro ⟨rfl, rfl⟩
    simp

/-- The checked fold computes the number a byte string denotes as long as it fits. -/
theorem foldLength_eq {bs : Bytes} (h : BigEndian.value bs < 2 ^ 64) :
    foldLength bs = some (BigEndian.value bs) := by
  unfold foldLength
  induction bs using List.reverseRecOn with
  | nil => rfl
  | append_singleton bs b ih =>
    rw [BigEndian.value_concat] at h ⊢
    rw [List.foldlM_append, ih (by omega)]
    have hmul : checkedMul (BigEndian.value bs) 256 = some (BigEndian.value bs * 256) :=
      if_pos (by omega)
    have hadd : checkedAdd (BigEndian.value bs * 256) b.toNat =
        some (256 * BigEndian.value bs + b.toNat) := by
      rw [checkedAdd, if_pos (by omega), Nat.mul_comm]
    simp [hmul, hadd]

/-- The long form of the number a minimal byte string denotes. -/
theorem derLength_value {bs : Bytes} (hmin : BigEndian.Minimal bs) (hlen : bs.length ≤ 8)
    (hbig : 128 ≤ BigEndian.value bs) :
    derLength (BigEndian.value bs) = (0x80 ||| UInt8.ofNat bs.length) :: bs := by
  obtain ⟨b, rest, hb, rfl⟩ := hmin
  have hfirst : (List.replicate (8 - (b :: rest).length) 0 ++ b :: rest).findIdx? (· != 0) =
      some (8 - (b :: rest).length) := by
    rw [List.findIdx?_append, List.findIdx?_cons]
    simp [List.findIdx?_replicate, hb]
  have hdrop : (List.replicate (8 - (b :: rest).length) 0 ++ b :: rest).drop
      (8 - (b :: rest).length) = b :: rest := by
    rw [List.drop_append_of_le_length (by simp)]
    simp
  rw [derLength, if_neg (by omega)]
  simp only [BigEndian.bytes_value hlen, hfirst, Option.getD_some, hdrop]
  congr 2
  simp only [List.length_append, List.length_replicate]
  congr 1
  omega

theorem derLength_short {n : ℕ} (h : n < 128) : derLength n = [UInt8.ofNat n] := if_pos h

/-- The long form of a length, as its minimal numeral behind the number of its bytes. -/
theorem derLength_long {n : ℕ} (h : 128 ≤ n) (hn : n < 2 ^ 64) :
    ∃ bs, BigEndian.Minimal bs ∧ bs.length ≤ 8 ∧ BigEndian.value bs = n ∧
      derLength n = (0x80 ||| UInt8.ofNat bs.length) :: bs := by
  obtain ⟨bs, hmin, hlen, rfl⟩ := BigEndian.exists_minimal (n := 8) (v := n) (by omega) (by omega)
  exact ⟨bs, hmin, hlen, rfl, derLength_value hmin hlen h⟩

/-- The two marks of a first length byte, by its value. -/
theorem lengthMark (b : UInt8) :
    (b &&& 0x80 = 0 ↔ b.toNat < 128) ∧
      (128 ≤ b.toNat → (b &&& 0x7f).toNat = b.toNat - 128 ∧
        b = 0x80 ||| UInt8.ofNat (b.toNat - 128)) := by
  have hall : ∀ n < 256, (UInt8.ofNat n &&& 0x80 = 0 ↔ n < 128) ∧
      (128 ≤ n → (UInt8.ofNat n &&& 0x7f).toNat = n - 128 ∧
        UInt8.ofNat n = 0x80 ||| UInt8.ofNat (n - 128)) := by
    decide +kernel
  simpa using hall b.toNat b.toNat_lt

/-- A long-form mark names the number of length bytes. -/
theorem lengthMark_toNat : ∀ n ≤ 8, (0x80 ||| UInt8.ofNat n : UInt8).toNat = 128 + n := by
  decide

/-- The parser reads a length field exactly where the encoder wrote one. -/
theorem derLengthValue_eq_some_iff {x rest : Bytes} {n : ℕ} :
    derLengthValue x = some (n, rest) ↔ n < 2 ^ 64 ∧ x = derLength n ++ rest := by
  constructor
  · intro h
    cases x with
    | nil => cases h
    | cons b after =>
      obtain ⟨hshort, hlong⟩ := lengthMark b
      simp only [derLengthValue, splitFirst, Option.bind_eq_bind, Option.bind_some] at h
      split at h
      · rename_i hb
        obtain ⟨rfl, rfl⟩ := Prod.mk.inj (Option.some.inj h)
        have hlt := hshort.1 hb
        exact ⟨by omega, by rw [derLength_short hlt]; simp⟩
      · rename_i hb
        have hge : 128 ≤ b.toNat := not_lt.1 fun hlt => hb (hshort.2 hlt)
        obtain ⟨hcount, hmark⟩ := hlong hge
        split at h
        · cases h
        · rename_i hcounts
          obtain ⟨⟨encoded, rest'⟩, hsplit, hrest⟩ := Option.bind_eq_some_iff.1 h
          obtain ⟨rfl, hencoded⟩ := splitAtChecked_eq_some_iff.1 hsplit
          simp only at hrest
          split at hrest
          · cases hrest
          · rename_i hhead
            have hmin : BigEndian.Minimal encoded := by
              cases encoded with
              | nil => exact absurd rfl hhead
              | cons c cs => exact ⟨c, cs, hhead, rfl⟩
            have hle : encoded.length ≤ 8 := by omega
            have hfits : BigEndian.value encoded < 2 ^ 64 :=
              (BigEndian.value_lt encoded).trans_le (Nat.pow_le_pow_right (by omega) hle)
            rw [foldLength_eq hfits, Option.bind_some] at hrest
            split at hrest
            · cases hrest
            · rename_i hbig
              obtain ⟨rfl, rfl⟩ := Prod.mk.inj (Option.some.inj hrest)
              refine ⟨hfits, ?_⟩
              rw [derLength_value hmin hle (not_lt.1 hbig), hencoded, hcount, ← hmark]
              rfl
  · rintro ⟨hn, rfl⟩
    by_cases hlt : n < 128
    · rw [derLength_short hlt]
      have hval : (UInt8.ofNat n).toNat = n := by
        rw [UInt8.toNat_ofNat']
        omega
      have hmark := (lengthMark (UInt8.ofNat n)).1.2 (by omega)
      simp [derLengthValue, splitFirst, hmark, hval]
    · obtain ⟨bs, hmin, hlen, rfl, hfield⟩ := derLength_long (not_lt.1 hlt) hn
      have hpos : bs.length ≠ 0 := by
        obtain ⟨b, cs, -, rfl⟩ := hmin
        simp
      have hmark := lengthMark_toNat _ hlen
      obtain ⟨hshort, hlong⟩ := lengthMark (0x80 ||| UInt8.ofNat bs.length)
      have hnot : ¬ (0x80 ||| UInt8.ofNat bs.length) &&& 0x80 = 0 := fun h => by
        have := hshort.1 h
        omega
      have hcount : ((0x80 ||| UInt8.ofNat bs.length) &&& 0x7f).toNat = bs.length := by
        rw [(hlong (by omega)).1]
        omega
      have hhead : ¬ bs.headD 0 = 0 := by
        obtain ⟨b, cs, hb, rfl⟩ := hmin
        exact hb
      have hsplit : splitAtChecked (bs ++ rest) bs.length = some (bs, rest) :=
        splitAtChecked_eq_some_iff.2 ⟨rfl, rfl⟩
      rw [hfield]
      simp only [derLengthValue, List.cons_append, splitFirst, Option.bind_eq_bind,
        Option.bind_some, if_neg hnot, hcount, hsplit, if_neg hhead, foldLength_eq hn, if_neg hlt]
      rw [if_neg (by omega)]

/-! ### Elements -/

/-- The parser reads an element exactly where the encoder wrote one. -/
theorem derValue_eq_some_iff {x value remaining : Bytes} {tag : UInt8} :
    derValue x = some (tag, value, remaining) ↔
      value.length < 2 ^ 64 ∧ x = der tag value ++ remaining := by
  constructor
  · intro h
    cases x with
    | nil => cases h
    | cons b after =>
      simp only [derValue, splitFirst, Option.bind_eq_bind, Option.bind_some] at h
      obtain ⟨⟨n, rest⟩, hlength, hvalue⟩ := Option.bind_eq_some_iff.1 h
      obtain ⟨⟨v, r⟩, hsplit, hresult⟩ := Option.bind_eq_some_iff.1 hvalue
      obtain ⟨rfl, hpair⟩ := Prod.mk.inj (Option.some.inj hresult)
      obtain ⟨rfl, rfl⟩ := Prod.mk.inj hpair
      obtain ⟨rfl, rfl⟩ := splitAtChecked_eq_some_iff.1 hsplit
      obtain ⟨hn, rfl⟩ := derLengthValue_eq_some_iff.1 hlength
      exact ⟨hn, by simp [der]⟩
  · rintro ⟨hn, rfl⟩
    have hlength : derLengthValue (derLength value.length ++ (value ++ remaining)) =
        some (value.length, value ++ remaining) := derLengthValue_eq_some_iff.2 ⟨hn, rfl⟩
    have hsplit : splitAtChecked (value ++ remaining) value.length = some (value, remaining) :=
      splitAtChecked_eq_some_iff.2 ⟨rfl, rfl⟩
    simp [derValue, splitFirst, der, hlength, hsplit]

/-- The length fields: the short form below 128, and from there on the minimal numeral behind the
number of its bytes. -/
def IsLengthField (n : ℕ) (field : Bytes) : Prop :=
  n < 128 ∧ field = [UInt8.ofNat n] ∨
    128 ≤ n ∧ ∃ bs, BigEndian.Minimal bs ∧ bs.length ≤ 8 ∧ BigEndian.value bs = n ∧
      field = UInt8.ofNat (128 + bs.length) :: bs

/-- The marks of long forms. -/
theorem lengthMark_eq : ∀ n ≤ 8, (0x80 ||| UInt8.ofNat n : UInt8) = UInt8.ofNat (128 + n) := by
  decide

/-- There is one field for each length. -/
theorem isLengthField_iff {n : ℕ} {field : Bytes} (hn : n < 2 ^ 64) :
    IsLengthField n field ↔ field = derLength n := by
  unfold IsLengthField
  by_cases hlt : n < 128
  · simp [hlt, derLength_short hlt]
  · have hge := not_lt.1 hlt
    simp only [hlt, false_and, hge, true_and, false_or]
    constructor
    · rintro ⟨bs, hmin, hlen, rfl, rfl⟩
      rw [derLength_value hmin hlen hge, lengthMark_eq _ hlen]
    · rintro rfl
      obtain ⟨bs, hmin, hlen, hvalue, hfield⟩ := derLength_long hge hn
      exact ⟨bs, hmin, hlen, hvalue, by rw [hfield, lengthMark_eq _ hlen]⟩

/-- **The encoder and the parser are inverse.**  The parser takes exactly the elements with a short
or a minimal long length field, and no length of a field overflows a word. -/
theorem der_inverse (tag : UInt8) :
    (∀ value remaining : Bytes, value.length < 2 ^ 64 →
      derValue (der tag value ++ remaining) = some (tag, value, remaining)) ∧
    (∀ x value remaining, derValue x = some (tag, value, remaining) →
      x = der tag value ++ remaining) ∧
    (∀ x value remaining, derValue x = some (tag, value, remaining) ↔
      value.length < 2 ^ 64 ∧ ∃ field, IsLengthField value.length field ∧
        x = tag :: (field ++ value) ++ remaining) ∧
    ∀ encodedLength : Bytes, encodedLength.length ≤ 8 →
      foldLength encodedLength = some (BigEndian.value encodedLength) := by
  refine ⟨fun value remaining h => derValue_eq_some_iff.2 ⟨h, rfl⟩,
    fun x value remaining h => (derValue_eq_some_iff.1 h).2, fun x value remaining => ?_,
    fun encodedLength hlen => foldLength_eq ?_⟩
  · rw [derValue_eq_some_iff]
    refine and_congr_right fun hn => ?_
    simp only [isLengthField_iff hn, exists_eq_left]
    rfl
  · calc BigEndian.value encodedLength < 256 ^ encodedLength.length := BigEndian.value_lt _
      _ ≤ 256 ^ 8 := Nat.pow_le_pow_right (by omega) hlen
      _ = 2 ^ 64 := by norm_num

/-- An element with a value of 200 bytes, in front of another byte. -/
theorem der_inverse_long : derValue (der 0x04 (List.replicate 200 7) ++ [1]) =
      some (0x04, List.replicate 200 7, [1]) ∧
    (der 0x04 (List.replicate 200 7)).take 3 = [0x04, 0x81, 200] :=
  ⟨(der_inverse 0x04).1 _ _ (by rw [List.length_replicate]; decide), by decide +kernel⟩

end QuicSync
