import QuicSync.Text.Utf8

/-!
# Hexadecimal numerals

* `HexDigit`, `HexPair` : what the hexadecimal digits and the two-digit numerals of a byte are, in
  either case;
* `toDigit`, `fromStrRadix` : the digit and the number parser of the standard library, which
  takes a leading plus sign, on the bytes of a text;
* `fromStrRadix_pair_iff` : what the number parser makes of two bytes of text.
-/

namespace QuicSync

/-- The digits in lower case, by their value. -/
def lowerDigits : List Char :=
  ['0', '1', '2', '3', '4', '5', '6', '7', '8', '9', 'a', 'b', 'c', 'd', 'e', 'f']

/-- The digits in upper case, by their value. -/
def upperDigits : List Char :=
  ['0', '1', '2', '3', '4', '5', '6', '7', '8', '9', 'A', 'B', 'C', 'D', 'E', 'F']

/-- A character is the hexadecimal digit of a value. -/
def HexDigit (c : Char) (x : ℕ) : Prop := lowerDigits[x]? = some c ∨ upperDigits[x]? = some c

instance (c : Char) (x : ℕ) : Decidable (HexDigit c x) := inferInstanceAs (Decidable (_ ∨ _))

/-- Two hexadecimal digits of a byte. -/
def HexPair (pair : List Char) (byte : UInt8) : Prop :=
  ∃ c d x y, pair = [c, d] ∧ HexDigit c x ∧ HexDigit d y ∧ byte.toNat = 16 * x + y

/-- A plus sign and one hexadecimal digit. -/
def PlusPair (pair : List Char) (byte : UInt8) : Prop :=
  ∃ d y, pair = ['+', d] ∧ HexDigit d y ∧ byte.toNat = y

/-- `char::to_digit` in base sixteen, of a byte. -/
def toDigit (byte : UInt8) : Option ℕ :=
  if 48 ≤ byte.toNat ∧ byte.toNat ≤ 57 then some (byte.toNat - 48)
  else if 97 ≤ byte.toNat ∧ byte.toNat ≤ 102 then some (byte.toNat - 97 + 10)
  else if 65 ≤ byte.toNat ∧ byte.toNat ≤ 70 then some (byte.toNat - 65 + 10)
  else none

/-- One digit more, if the number still fits a byte. -/
def pushDigit (result : ℕ) (byte : UInt8) : Option ℕ := do
  let digit ← toDigit byte
  if result * 16 + digit < 256 then some (result * 16 + digit) else none

/-- `u8::from_str_radix` in base sixteen: digits, behind an optional plus sign. -/
def fromStrRadix (src : List UInt8) : Option UInt8 :=
  match src with
  | [] => none
  | [byte] => (pushDigit 0 byte).map UInt8.ofNat
  | byte :: rest =>
    ((if byte = 43 then rest else byte :: rest).foldlM pushDigit 0).map UInt8.ofNat

/-! ### Digits -/

theorem HexDigit.value_lt {c : Char} {x : ℕ} (h : HexDigit c x) : x < 16 := by
  rcases h with h | h <;> exact (List.getElem?_eq_some_iff.1 h).1

theorem HexDigit.toNat_lt {c : Char} {x : ℕ} (h : HexDigit c x) : c.toNat < 128 := by
  have hall : ∀ d ∈ lowerDigits ++ upperDigits, d.toNat < 128 := by simp [lowerDigits, upperDigits]
  rcases h with h | h
  · exact hall c (List.mem_append_left _ (List.mem_of_getElem? h))
  · exact hall c (List.mem_append_right _ (List.mem_of_getElem? h))

theorem HexDigit.utf8Size_eq {c : Char} {x : ℕ} (h : HexDigit c x) : c.utf8Size = 1 :=
  Utf8.utf8Size_eq_one h.toNat_lt

/-- The characters that no hexadecimal digit is. -/
theorem HexDigit.ne_punctuation {c : Char} {x : ℕ} (h : HexDigit c x) : c ≠ '+' ∧ c ≠ ':' := by
  have hall : ∀ d ∈ lowerDigits ++ upperDigits, d ≠ '+' ∧ d ≠ ':' := by
    simp [lowerDigits, upperDigits]
  rcases h with h | h
  · exact hall c (List.mem_append_left _ (List.mem_of_getElem? h))
  · exact hall c (List.mem_append_right _ (List.mem_of_getElem? h))

theorem toDigit_lt {b : UInt8} {x : ℕ} (h : toDigit b = some x) : x < 16 := by
  unfold toDigit at h
  split at h
  · cases h
    omega
  · split at h
    · cases h
      omega
    · split at h
      · cases h
        omega
      · cases h

/-- No byte of a character of several bytes that starts it is a digit. -/
theorem toDigit_eq_none {b : UInt8} (h : 128 ≤ b.toNat) : toDigit b = none := by
  rw [toDigit, if_neg (by omega), if_neg (by omega), if_neg (by omega)]

/-- The digit of an ASCII character. -/
theorem toDigit_ascii {c : Char} (h : c.toNat < 128) (x : ℕ) :
    toDigit (UInt8.ofNat c.toNat) = some x ↔ HexDigit c x := by
  have hall : ∀ n < 128, ∀ x < 16,
      (toDigit (UInt8.ofNat n) = some x ↔ HexDigit (Char.ofNat n) x) := by
    decide +kernel
  constructor
  · intro hx
    have := (hall _ h x (toDigit_lt hx)).1 hx
    rwa [Char.ofNat_toNat] at this
  · intro hx
    refine (hall _ h x hx.value_lt).2 ?_
    rwa [Char.ofNat_toNat]

/-! ### Two bytes of text -/

theorem pushDigit_zero {b : UInt8} {n : ℕ} : pushDigit 0 b = some n ↔ toDigit b = some n := by
  simp only [pushDigit, Option.bind_eq_bind, Option.bind_eq_some_iff]
  constructor
  · rintro ⟨x, hx, h⟩
    split at h
    · rw [hx, ← Option.some.inj h]
      simp
    · cases h
  · intro h
    have := toDigit_lt h
    exact ⟨n, h, by rw [if_pos (by omega)]; simp⟩

theorem pushDigit_two {a b : UInt8} {n : ℕ} :
    [a, b].foldlM pushDigit 0 = some n ↔
      ∃ x y, toDigit a = some x ∧ toDigit b = some y ∧ n = 16 * x + y := by
  simp only [List.foldlM_cons, List.foldlM_nil, Option.bind_eq_bind, Option.bind_eq_some_iff,
    Option.pure_def, Option.some.injEq, exists_eq_right, pushDigit_zero]
  constructor
  · rintro ⟨x, hx, h⟩
    obtain ⟨y, hy, h⟩ := Option.bind_eq_some_iff.1 h
    have := toDigit_lt hx
    have := toDigit_lt hy
    rw [if_pos (by omega)] at h
    exact ⟨x, y, hx, hy, by rw [← Option.some.inj h]; omega⟩
  · rintro ⟨x, y, hx, hy, rfl⟩
    have := toDigit_lt hx
    have := toDigit_lt hy
    refine ⟨x, hx, Option.bind_eq_some_iff.2 ⟨y, hy, ?_⟩⟩
    rw [if_pos (by omega), Nat.mul_comm]

/-- What the number parser makes of two bytes. -/
theorem fromStrRadix_two {a b : UInt8} {v : UInt8} :
    fromStrRadix [a, b] = some v ↔
      (∃ x y, toDigit a = some x ∧ toDigit b = some y ∧ v.toNat = 16 * x + y) ∨
        (a = 43 ∧ ∃ y, toDigit b = some y ∧ v.toNat = y) := by
  have hofNat {n : ℕ} (hn : n < 256) : UInt8.ofNat n = v ↔ v.toNat = n := by
    rw [← UInt8.toNat_inj, UInt8.toNat_ofNat', Nat.mod_eq_of_lt hn, eq_comm]
  simp only [fromStrRadix, Option.map_eq_some_iff]
  by_cases ha : a = 43
  · subst ha
    rw [if_pos rfl]
    simp only [List.foldlM_cons, List.foldlM_nil, bind_pure, pushDigit_zero]
    have hplus : toDigit 43 = none := rfl
    constructor
    · rintro ⟨y, hy, hv⟩
      have := toDigit_lt hy
      exact Or.inr ⟨trivial, y, hy, (hofNat (by omega)).1 hv⟩
    · rintro (⟨x, y, hx, -⟩ | ⟨-, y, hy, hv⟩)
      · rw [hplus] at hx
        cases hx
      · have := toDigit_lt hy
        exact ⟨y, hy, (hofNat (by omega)).2 hv⟩
  · rw [if_neg ha]
    simp only [pushDigit_two]
    constructor
    · rintro ⟨n, ⟨x, y, hx, hy, rfl⟩, hv⟩
      have := toDigit_lt hx
      have := toDigit_lt hy
      exact Or.inl ⟨x, y, hx, hy, (hofNat (by omega)).1 hv⟩
    · rintro (⟨x, y, hx, hy, hv⟩ | ⟨h, -⟩)
      · have := toDigit_lt hx
        have := toDigit_lt hy
        exact ⟨_, ⟨x, y, hx, hy, rfl⟩, (hofNat (by omega)).2 hv⟩
      · exact absurd h ha

/-- What the number parser makes of two bytes of text: two hexadecimal digits, or a plus sign and
one. -/
theorem fromStrRadix_pair_iff {pair : List Char} (h : Utf8.byteLength pair = 2) {v : UInt8} :
    fromStrRadix (Utf8.bytes pair) = some v ↔ HexPair pair v ∨ PlusPair pair v := by
  rcases pair with _ | ⟨c, _ | ⟨d, pair⟩⟩
  · cases h
  · -- one character of two bytes, none of which is a digit
    have hc : c.utf8Size = 2 := by simpa using h
    obtain ⟨b, rest, hbytes, hb⟩ := Utf8.head_utf8EncodeChar (c := c) (by omega)
    have hlen := String.length_utf8EncodeChar c
    rw [hbytes, hc] at hlen
    obtain ⟨b', rfl⟩ : ∃ b', rest = [b'] := List.length_eq_one_iff.1 (by simpa using hlen)
    refine iff_of_false ?_ ?_
    · rw [Utf8.bytes_cons, hbytes, Utf8.bytes_nil, List.append_nil, fromStrRadix_two,
        toDigit_eq_none hb]
      rintro (⟨x, y, hx, -⟩ | ⟨rfl, -⟩)
      · cases hx
      · revert hb
        decide
    · rintro (⟨_, _, _, _, heq, -⟩ | ⟨_, _, heq, -⟩) <;> cases heq
  · have hcpos := c.utf8Size_pos
    have hdpos := d.utf8Size_pos
    simp only [Utf8.byteLength_cons] at h
    obtain rfl : pair = [] := by
      cases pair with
      | nil => rfl
      | cons e pair =>
        have := e.utf8Size_pos
        simp only [Utf8.byteLength_cons] at h
        omega
    rw [Utf8.byteLength_nil] at h
    have hc : c.toNat < 128 := Utf8.toNat_lt (by omega)
    have hd : d.toNat < 128 := Utf8.toNat_lt (by omega)
    have hplus : UInt8.ofNat c.toNat = 43 ↔ c = '+' := by
      have hall : ∀ n < 128, (UInt8.ofNat n = 43 ↔ Char.ofNat n = '+') := by decide +kernel
      simpa using hall _ hc
    simp only [Utf8.bytes_cons, Utf8.bytes_nil, Utf8.utf8EncodeChar_ascii hc,
      Utf8.utf8EncodeChar_ascii hd, List.append_nil, List.cons_append, List.nil_append,
      fromStrRadix_two, toDigit_ascii hc, toDigit_ascii hd, hplus]
    constructor
    · rintro (⟨x, y, hx, hy, hv⟩ | ⟨rfl, y, hy, hv⟩)
      · exact Or.inl ⟨c, d, x, y, rfl, hx, hy, hv⟩
      · exact Or.inr ⟨d, y, rfl, hy, hv⟩
    · rintro (⟨c', d', x, y, heq, hx, hy, hv⟩ | ⟨d', y, heq, hy, hv⟩)
      · cases heq
        exact Or.inl ⟨x, y, hx, hy, hv⟩
      · cases heq
        exact Or.inr ⟨rfl, y, hy, hv⟩

end QuicSync
