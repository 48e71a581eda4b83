import QuicSync.Types
import QuicSync.Numeral.Leb128
import QuicSync.Protocol.Messages
import Mathlib.Data.Nat.Bitwise
import Mathlib.Tactic.Linarith
import Mathlib.Tactic.NormNum

/-!
# Length prefixes

`putVarint` and `parseVarint` are the writer and the parser of the length prefixes of the wire
format, over 64-bit words as the program computes them.

* `putVarint_eq` : the writer appends the minimal base-128 numeral of its argument;
* `parseVarint_eq_ok_iff` : the parser accepts exactly the byte strings that start with such a
  numeral, and returns its value and its length;
* `varint_classification` : what the parser makes of every byte string.
-/

namespace QuicSync

/-- A canonical framing or payload violation. -/
inductive CodecError where
  | invalidLimits
  | frameTooLarge (declared : UInt64) (maximum : UInt64)
  | varintOverflow
  | nonCanonicalVarint
  | unexpectedEof
  | trailingBytes
  | unknownMessageKind (kind : UInt8)
  | unsupportedVersion (version : ProtocolVersion)
  | invalidValue (name : String)
  | duplicateValue (name : String)
  | nonCanonicalOrder (name : String)
  | limitExceeded (name : String)
  deriving DecidableEq

/-- How a computation ends without a value: it returns an error, or it panics (an index, a slice
or a subtraction out of range). -/
inductive Abort (ε : Type) where
  | error (error : ε)
  | panic
  deriving DecidableEq

/-- The result of a codec function. -/
abbrev CodecResult := Except (Abort CodecError)

/-- Return a codec error. -/
def codecError {α : Type} (error : CodecError) : CodecResult α := .error (.error error)

/-- Panic. -/
def codecPanic {α : Type} : CodecResult α := .error .panic

/-- Go on if `c` holds, and return `error` otherwise. -/
def ensure (c : Prop) [Decidable c] (error : CodecError) : CodecResult Unit :=
  if c then .ok () else codecError error

/-- Subtraction of machine words; an underflow panics. -/
def checkedSub (a b : ℕ) : CodecResult ℕ := if b ≤ a then .ok (a - b) else codecPanic

theorem ensure_eq_ok_iff {c : Prop} [Decidable c] {error : CodecError} {u : Unit} :
    ensure c error = .ok u ↔ c := by
  unfold ensure codecError
  split <;> simp_all

theorem checkedSub_eq_ok_iff {a b n : ℕ} : checkedSub a b = .ok n ↔ b ≤ a ∧ n = a - b := by
  unfold checkedSub codecPanic
  split
  · simp_all [eq_comm]
  · simp_all

/-- The longest length prefix of a 64-bit length. -/
def maxVarintBytes : ℕ := 10

/-- Append the length prefix of `value` to `output`. -/
def putVarint (value : UInt64) (output : Bytes) : Bytes :=
  let byte := (value &&& 0x7f).toUInt8
  let rest := value >>> 7
  if rest ≠ 0 then putVarint rest (output ++ [byte ||| 0x80]) else output ++ [byte]
termination_by value.toNat
decreasing_by
  have hne : (value >>> 7).toNat ≠ 0 := fun h => ‹rest ≠ 0› (UInt64.toNat_inj.1 h)
  have hshift : (value >>> 7).toNat = value.toNat / 128 := by
    rw [UInt64.toNat_shiftRight]
    simp [Nat.shiftRight_eq_div_pow]
  omega

/-- The loop of `parseVarint` over the bytes that are left of the first `maxVarintBytes`.
`index` bytes have been read, with `value` so far; `short` says whether the whole input is
shorter than the longest prefix. -/
def parseVarintLoop (short : Bool) : ℕ → UInt64 → Bytes → CodecResult (UInt64 × ℕ)
  | _, _, [] => codecError (if short then .unexpectedEof else .varintOverflow)
  | index, value, byte :: rest =>
    if index = 9 ∧ byte > 1 then codecError .varintOverflow
    else
      let value := value ||| (byte &&& 0x7f).toUInt64 <<< (UInt64.ofNat (index * 7))
      if byte &&& 0x80 = 0 then
        if index > 0 ∧ byte = 0 then codecError .nonCanonicalVarint
        else .ok (value, index + 1)
      else parseVarintLoop short (index + 1) value rest

/-- Parse a length prefix: its value and the number of bytes it takes. -/
def parseVarint (input : Bytes) : CodecResult (UInt64 × ℕ) :=
  parseVarintLoop (decide (input.length < maxVarintBytes)) 0 0 (input.take maxVarintBytes)

/-! ### Words as numbers -/

theorem toNat_shiftRight_seven (v : UInt64) : (v >>> 7).toNat = v.toNat / 128 := by
  rw [UInt64.toNat_shiftRight]
  simp [Nat.shiftRight_eq_div_pow]

theorem toNat_low_seven (v : UInt64) : (v &&& 0x7f).toUInt8.toNat = v.toNat % 128 := by
  rw [UInt64.toNat_toUInt8, UInt64.toNat_and, show (0x7f : UInt64).toNat = 2 ^ 7 - 1 from rfl,
    Nat.and_two_pow_sub_one_eq_mod]
  omega

theorem toNat_or_continuation {b : UInt8} (h : b.toNat < 128) :
    (b ||| 0x80).toNat = b.toNat + 128 := by
  rw [UInt8.toNat_or, show (0x80 : UInt8).toNat = 2 ^ 7 * 1 from rfl, Nat.or_comm,
    ← Nat.two_pow_add_eq_or_of_lt h]
  omega

theorem toNat_byte_low_seven (b : UInt8) : (b &&& 0x7f).toNat = b.toNat % 128 := by
  rw [UInt8.toNat_and, show (0x7f : UInt8).toNat = 2 ^ 7 - 1 from rfl,
    Nat.and_two_pow_sub_one_eq_mod]

theorem continuation_eq_zero_iff (b : UInt8) : b &&& 0x80 = 0 ↔ b.toNat < 128 := by
  have hb := b.toNat_lt
  rw [← UInt8.toNat_inj, UInt8.toNat_and, show (0x80 : UInt8).toNat = 2 ^ 7 from rfl,
    Nat.and_two_pow, Nat.testBit_eq_decide_div_mod_eq]
  by_cases h : b.toNat < 128
  · simp [Nat.div_eq_of_lt h, h]
  · simp [show b.toNat / 128 = 1 by omega, h]

/-- Adding seven bits above the `7 * i` bits read so far. -/
theorem toNat_or_shift {value : UInt64} {b : UInt8} {i : ℕ} (hi : i ≤ 9)
    (hv : value.toNat < 128 ^ i) (hb : i = 9 → b.toNat ≤ 1) :
    (value ||| (b &&& 0x7f).toUInt64 <<< (UInt64.ofNat (i * 7))).toNat =
      value.toNat + 128 ^ i * (b.toNat % 128) := by
  have hpow : (128 : ℕ) ^ i = 2 ^ (i * 7) := by
    rw [show (128 : ℕ) = 2 ^ 7 from rfl, ← Nat.pow_mul, Nat.mul_comm]
  have hshift : (UInt64.ofNat (i * 7)).toNat % 64 = i * 7 := by
    rw [UInt64.toNat_ofNat']
    omega
  have hfit : (b.toNat % 128) * 2 ^ (i * 7) < 2 ^ 64 := by
    rcases Nat.lt_or_ge i 9 with h | h
    · have h7 : 2 ^ (i * 7) ≤ 2 ^ 56 := Nat.pow_le_pow_right (by omega) (by omega)
      have : b.toNat % 128 < 128 := Nat.mod_lt _ (by omega)
      calc (b.toNat % 128) * 2 ^ (i * 7) ≤ 127 * 2 ^ 56 :=
            Nat.mul_le_mul (by omega) h7
        _ < 2 ^ 64 := by norm_num
    · have h9 : i = 9 := by omega
      have := hb h9
      subst h9
      have : b.toNat % 128 ≤ 1 := by omega
      calc (b.toNat % 128) * 2 ^ (9 * 7) ≤ 1 * 2 ^ 63 := Nat.mul_le_mul this (by norm_num)
        _ < 2 ^ 64 := by norm_num
  rw [UInt64.toNat_or, UInt64.toNat_shiftLeft, UInt8.toNat_toUInt64, toNat_byte_low_seven, hshift,
    Nat.shiftLeft_eq, Nat.mod_eq_of_lt hfit, Nat.or_comm, Nat.mul_comm, hpow,
    ← Nat.two_pow_add_eq_or_of_lt (hpow ▸ hv)]
  omega

/-! ### The writer -/

/-- **The writer appends the minimal numeral.** -/
theorem putVarint_eq (value : UInt64) (output : Bytes) :
    putVarint value output = output ++ Leb128.encode value.toNat := by
  induction hn : value.toNat using Nat.strongRecOn generalizing value output with
  | ind n ih =>
    subst hn
    have hlow := toNat_low_seven value
    have hbyte : (value &&& 0x7f).toUInt8 = UInt8.ofNat (value.toNat % 128) := by
      rw [← UInt8.toNat_inj, hlow, Leb128.toNat_ofNat_lt (by omega)]
    rw [putVarint]
    by_cases hsmall : value.toNat < 128
    · have hzero : value >>> 7 = 0 := by
        rw [← UInt64.toNat_inj, toNat_shiftRight_seven]
        simp only [UInt64.toNat_zero]
        omega
      rw [if_neg (by simpa using hzero), hbyte, Leb128.encode_of_lt hsmall,
        Nat.mod_eq_of_lt hsmall]
    · have hrest : value >>> 7 ≠ 0 := by
        rw [Ne, ← UInt64.toNat_inj, toNat_shiftRight_seven]
        simp only [UInt64.toNat_zero]
        omega
      have hcont : (value &&& 0x7f).toUInt8 ||| 0x80 = UInt8.ofNat (value.toNat % 128 + 128) := by
        rw [← UInt8.toNat_inj, toNat_or_continuation (by omega), hlow,
          Leb128.toNat_ofNat_lt (by omega)]
      rw [if_pos hrest, ih (value >>> 7).toNat (by rw [toNat_shiftRight_seven]; omega) _ _ rfl,
        toNat_shiftRight_seven, hcont, Leb128.encode_of_le (n := value.toNat) (by omega),
        List.append_assoc, List.singleton_append]

/-! ### The parser -/

/-- Invariant of the parser's loop: with `index` bytes read and their value in `value`, it
accepts the numeral of `u` (non-zero unless it is the first byte) when the whole value fits. -/
theorem parseVarintLoop_eq_ok_iff {short : Bool} {bytes : Bytes} {index : ℕ} {value : UInt64}
    (hlen : index + bytes.length ≤ 10) (hv : value.toNat < 128 ^ index) {v : UInt64} {n : ℕ} :
    parseVarintLoop short index value bytes = .ok (v, n) ↔
      ∃ u, (0 < index → u ≠ 0) ∧ v.toNat = value.toNat + 128 ^ index * u ∧
        n = index + (Leb128.encode u).length ∧ Leb128.encode u <+: bytes := by
  induction bytes generalizing index value with
  | nil =>
    simp only [parseVarintLoop, codecError, reduceCtorEq, false_iff, not_exists, not_and]
    intro u _ _ _ hu
    exact Leb128.encode_ne_nil u (List.prefix_nil.1 hu)
  | cons b rest ih =>
    have hb := b.toNat_lt
    have hindex : index ≤ 9 := by simp only [List.length_cons] at hlen; omega
    have h128 : (0 : ℕ) < 128 ^ index := Nat.pow_pos (by omega)
    unfold parseVarintLoop
    by_cases hover : index = 9 ∧ b > 1
    · -- the tenth byte holds one bit
      rw [if_pos hover]
      obtain ⟨rfl, hgt⟩ := hover
      have hgt' : 1 < b.toNat := by simpa [UInt8.lt_iff_toNat_lt] using hgt
      simp only [codecError, reduceCtorEq, false_iff, not_exists, not_and]
      intro u hu hval _ hpre
      have hvlt := v.toNat_lt
      have hu1 : u ≤ 1 := by omega
      rcases Leb128.encode_prefix_cons.1 hpre with ⟨-, rfl⟩ | ⟨-, m, hm, rfl, -⟩ <;> omega
    · rw [if_neg hover]
      have hlast : index = 9 → b.toNat ≤ 1 := by
        intro h9
        by_contra hlt
        exact hover ⟨h9, by simpa [UInt8.lt_iff_toNat_lt] using hlt⟩
      have hor := toNat_or_shift hindex hv hlast
      by_cases hstop : b &&& 0x80 = 0
      · have hb128 := (continuation_eq_zero_iff b).1 hstop
        rw [if_pos hstop]
        by_cases hzero : index > 0 ∧ b = 0
        · rw [if_pos hzero]
          simp only [codecError, reduceCtorEq, false_iff, not_exists, not_and]
          intro u hu _ _ hpre
          rcases Leb128.encode_prefix_cons.1 hpre with ⟨-, rfl⟩ | ⟨hle, -⟩
          · exact hu hzero.1 (by rw [hzero.2]; rfl)
          · omega
        · rw [if_neg hzero]
          constructor
          · intro h
            simp only [Except.ok.injEq, Prod.mk.injEq] at h
            obtain ⟨rfl, rfl⟩ := h
            refine ⟨b.toNat, fun hpos hb0 => hzero ⟨hpos, ?_⟩, ?_, ?_, ?_⟩
            · exact UInt8.toNat_inj.1 (by simpa using hb0)
            · rw [hor, Nat.mod_eq_of_lt hb128]
            · rw [Leb128.encode_of_lt hb128]; rfl
            · exact Leb128.encode_prefix_cons.2 (Or.inl ⟨hb128, rfl⟩)
          · rintro ⟨u, -, hval, rfl, hpre⟩
            rcases Leb128.encode_prefix_cons.1 hpre with ⟨-, rfl⟩ | ⟨hle, -⟩
            · rw [Leb128.encode_of_lt hb128]
              simp only [List.length_cons, List.length_nil, Except.ok.injEq, Prod.mk.injEq,
                and_true, ← UInt64.toNat_inj]
              rw [hor, hval, Nat.mod_eq_of_lt hb128]
            · omega
      · have hb128 : 128 ≤ b.toNat := by
          by_contra hlt
          exact hstop ((continuation_eq_zero_iff b).2 (by omega))
        rw [if_neg hstop]
        have hmod : b.toNat % 128 = b.toNat - 128 := by omega
        have hv' : (value ||| (b &&& 0x7f).toUInt64 <<< (UInt64.ofNat (index * 7))).toNat <
            128 ^ (index + 1) := by
          rw [hor, Nat.pow_succ]
          have : b.toNat % 128 < 128 := Nat.mod_lt _ (by omega)
          nlinarith
        rw [ih (by simp only [List.length_cons] at hlen; omega) hv', hor, hmod]
        constructor
        · rintro ⟨u, hu, hval, rfl, hpre⟩
          refine ⟨b.toNat - 128 + 128 * u, fun _ => ?_, ?_, ?_, ?_⟩
          · have := hu (by omega); omega
          · rw [hval, Nat.pow_succ]; ring
          · rw [Leb128.encode_digit_add (by omega) (hu (by omega)), List.length_cons]
            omega
          · exact Leb128.encode_prefix_cons.2 (Or.inr ⟨hb128, u, hu (by omega), rfl, hpre⟩)
        · rintro ⟨u, -, hval, rfl, hpre⟩
          rcases Leb128.encode_prefix_cons.1 hpre with ⟨hlt, -⟩ | ⟨-, m, hm, rfl, hpre'⟩
          · omega
          · refine ⟨m, fun _ => hm, ?_, ?_, hpre'⟩
            · rw [hval, Nat.pow_succ]; ring
            · rw [Leb128.encode_digit_add (by omega) hm, List.length_cons]
              omega

theorem length_encode_toNat_le (v : UInt64) : (Leb128.encode v.toNat).length ≤ 10 := by
  refine Leb128.length_encode_le (k := 9) ?_
  have := v.toNat_lt
  omega

/-- **The parser accepts exactly the strings that start with a minimal 64-bit numeral.** -/
theorem parseVarint_eq_ok_iff {input : Bytes} {v : UInt64} {n : ℕ} :
    parseVarint input = .ok (v, n) ↔
      n = (Leb128.encode v.toNat).length ∧ Leb128.encode v.toNat <+: input := by
  have hlen : 0 + (input.take maxVarintBytes).length ≤ 10 := by
    simp [maxVarintBytes]
  rw [parseVarint, parseVarintLoop_eq_ok_iff hlen (by simp)]
  constructor
  · rintro ⟨u, -, hval, rfl, hpre⟩
    have hu : u = v.toNat := by simpa using hval.symm
    subst hu
    exact ⟨by omega, hpre.trans (List.take_prefix _ _)⟩
  · rintro ⟨rfl, hpre⟩
    refine ⟨v.toNat, by omega, by simp, by omega, ?_⟩
    exact List.prefix_take_iff.2 ⟨hpre, length_encode_toNat_le v⟩

/-! ### What the parser rejects -/

/-- The loop ends before the numeral does exactly on continuation bytes. -/
theorem parseVarintLoop_eof_iff {short : Bool} {bytes : Bytes} {index : ℕ} {value : UInt64}
    (hshort : short = true → index + bytes.length < 10) :
    parseVarintLoop short index value bytes = codecError .unexpectedEof ↔
      short = true ∧ ∀ b ∈ bytes, 128 ≤ b.toNat := by
  induction bytes generalizing index value with
  | nil => cases short <;> simp [parseVarintLoop, codecError]
  | cons b rest ih =>
    unfold parseVarintLoop
    by_cases hover : index = 9 ∧ b > 1
    · rw [if_pos hover]
      refine iff_of_false (by simp [codecError]) fun ⟨h, _⟩ => ?_
      have := hshort h
      simp only [List.length_cons] at this
      omega
    · rw [if_neg hover]
      by_cases hstop : b &&& 0x80 = 0
      · have hb := (continuation_eq_zero_iff b).1 hstop
        rw [if_pos hstop]
        refine iff_of_false ?_ fun ⟨_, h⟩ => absurd (h b List.mem_cons_self) (by omega)
        split <;> simp [codecError]
      · have hb : 128 ≤ b.toNat := not_lt.1 fun h => hstop ((continuation_eq_zero_iff b).2 h)
        rw [if_neg hstop, ih fun h => ?_]
        · simp [hb]
        · have := hshort h
          simp only [List.length_cons] at this
          omega

/-- The loop returns, with a value or with one of three errors. -/
theorem parseVarintLoop_cases (short : Bool) (bytes : Bytes) (index : ℕ) (value : UInt64) :
    (∃ v n, parseVarintLoop short index value bytes = .ok (v, n)) ∨
      parseVarintLoop short index value bytes = codecError .unexpectedEof ∨
      parseVarintLoop short index value bytes = codecError .nonCanonicalVarint ∨
      parseVarintLoop short index value bytes = codecError .varintOverflow := by
  induction bytes generalizing index value with
  | nil => cases short <;> simp [parseVarintLoop]
  | cons b rest ih =>
    unfold parseVarintLoop
    split
    · simp
    · dsimp only
      split
      · split
        · simp
        · exact Or.inl ⟨_, _, rfl⟩
      · exact ih _ _

/-- The parser runs out of bytes exactly on continuation bytes, fewer than the longest numeral. -/
theorem parseVarint_eof_iff {input : Bytes} :
    parseVarint input = codecError .unexpectedEof ↔
      input.length < 10 ∧ ∀ b ∈ input, 128 ≤ b.toNat := by
  unfold parseVarint
  rw [parseVarintLoop_eof_iff]
  · rw [decide_eq_true_iff]
    refine and_congr_right fun hlen => ?_
    rw [List.take_of_length_le hlen.le]
  · intro h
    have hlen := of_decide_eq_true h
    simp only [maxVarintBytes] at hlen
    simp only [List.length_take]
    omega

/-- These are the proper prefixes of numerals of 64-bit words. -/
theorem eof_iff_prefix {input : Bytes} :
    (input.length < 10 ∧ ∀ b ∈ input, 128 ≤ b.toNat) ↔
      ∃ v : UInt64, input <+: Leb128.encode v.toNat ∧ input ≠ Leb128.encode v.toNat := by
  constructor
  · rintro ⟨hlen, hcont⟩
    obtain ⟨n, -, hlt, hencode⟩ := Leb128.exists_encode_concat hcont
    have hword : n < 2 ^ 64 := by
      have hpow : 128 ^ input.length ≤ 128 ^ 9 := Nat.pow_le_pow_right (by omega) (by omega)
      omega
    refine ⟨UInt64.ofNat n, ?_⟩
    rw [UInt64.toNat_ofNat_of_lt' hword, hencode]
    exact ⟨List.prefix_append _ _, by simp⟩
  · rintro ⟨v, hpre, hne⟩
    have hlt : input.length < (Leb128.encode v.toNat).length :=
      lt_of_le_of_ne hpre.length_le fun h => hne (hpre.eq_of_length h)
    exact ⟨hlt.trans_le (length_encode_toNat_le v), Leb128.continuation_of_prefix hpre hne⟩

/-- **What the parser makes of every byte string.**  It accepts what the writer has written, asks
for more bytes where the writer could have written the rest, and rejects what nothing behind it
could mend. -/
theorem varint_classification (x : Bytes) :
    (∀ v n, parseVarint x = .ok (v, n) ↔ n ≤ x.length ∧ x.take n = putVarint v []) ∧
    (∀ v n, parseVarint x = .ok (v, n) → 1 ≤ n ∧ n ≤ 10) ∧
    (parseVarint x = codecError .unexpectedEof ↔
      ∃ v, x <+: putVarint v [] ∧ x ≠ putVarint v []) ∧
    ((∀ v n, parseVarint x ≠ .ok (v, n)) → parseVarint x ≠ codecError .unexpectedEof →
      (parseVarint x = codecError .nonCanonicalVarint ∨
        parseVarint x = codecError .varintOverflow) ∧
      ∀ y v n, parseVarint (x ++ y) ≠ .ok (v, n)) ∧
    (∀ v output, ∃ bytes : Bytes, 1 ≤ bytes.length ∧ bytes.length ≤ 10 ∧
      putVarint v output = output ++ bytes) := by
  have hlength (v : UInt64) : 1 ≤ (Leb128.encode v.toNat).length ∧
      (Leb128.encode v.toNat).length ≤ 10 :=
    ⟨List.length_pos_iff.2 (Leb128.encode_ne_nil _), length_encode_toNat_le v⟩
  have heof : parseVarint x = codecError .unexpectedEof ↔
      ∃ v, x <+: putVarint v [] ∧ x ≠ putVarint v [] := by
    simp only [parseVarint_eof_iff, eof_iff_prefix, putVarint_eq, List.nil_append]
  refine ⟨fun v n => ?_, fun v n h => ?_, heof, fun hok hmore => ⟨?_, fun y v n h => ?_⟩,
    fun v output => ⟨_, (hlength v).1, (hlength v).2, putVarint_eq v output⟩⟩
  · rw [parseVarint_eq_ok_iff, putVarint_eq, List.nil_append]
    constructor
    · rintro ⟨rfl, hpre⟩
      exact ⟨hpre.length_le, (List.prefix_iff_eq_take.1 hpre).symm⟩
    · rintro ⟨hn, htake⟩
      have hlen := congrArg List.length htake
      rw [List.length_take_of_le hn] at hlen
      exact ⟨hlen, htake ▸ List.take_prefix n x⟩
  · obtain ⟨rfl, -⟩ := parseVarint_eq_ok_iff.1 h
    exact hlength v
  · obtain ⟨v, n, h⟩ | h | h := parseVarintLoop_cases (decide (x.length < maxVarintBytes))
      (x.take maxVarintBytes) 0 0
    · exact absurd h (hok v n)
    · exact absurd h hmore
    · exact h
  · obtain ⟨-, hpre⟩ := parseVarint_eq_ok_iff.1 h
    obtain hx | hx := List.prefix_or_prefix_of_prefix hpre (List.prefix_append x y)
    · exact hok v _ (parseVarint_eq_ok_iff.2 ⟨rfl, hx⟩)
    · by_cases heq : x = Leb128.encode v.toNat
      · exact hok v _ (parseVarint_eq_ok_iff.2 ⟨rfl, heq ▸ List.prefix_rfl⟩)
      · refine hmore (heof.2 ⟨v, ?_⟩)
        rw [putVarint_eq]
        exact ⟨hx, heq⟩

/-- A second byte of zero is not minimal, whatever follows. -/
theorem varint_zero_byte : parseVarint [0x80, 0] = codecError .nonCanonicalVarint ∧
    ∀ y v n, parseVarint ([0x80, 0] ++ y) ≠ .ok (v, n) := by
  have hparse : parseVarint [0x80, 0] = codecError .nonCanonicalVarint := by decide
  refine ⟨hparse, ((varint_classification [0x80, 0]).2.2.2.1 ?_ ?_).2⟩
  · intro v n h
    rw [hparse] at h
    cases h
  · rw [hparse]
    simp [codecError]

end QuicSync
