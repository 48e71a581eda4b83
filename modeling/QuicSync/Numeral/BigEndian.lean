import Mathlib.Data.List.Basic
import Mathlib.Data.List.Induction
import QuicSync.Numeral.LittleEndian

/-!
# Big-endian numerals

A natural number as bytes, most significant byte first.

* `BigEndian.bytes n v` : the `n` low bytes of `v`;
* `BigEndian.value` : the number a byte string denotes;
* `BigEndian.Minimal` : a byte string that starts with a non-zero byte;
* `BigEndian.bytes_value` : the fixed-width numeral of what a minimal byte string denotes is that
  byte string behind zero bytes;
* `BigEndian.exists_minimal` : every positive number is denoted by a minimal byte string.
-/

namespace QuicSync

namespace BigEndian

/-- The `n` low bytes of `v`, most significant first. -/
def bytes (n v : ℕ) : List UInt8 := (LittleEndian.bytes n v).reverse

/-- The number a byte string denotes, most significant byte first. -/
def value (bs : List UInt8) : ℕ := LittleEndian.value bs.reverse

/-- A byte string that starts with a non-zero byte. -/
def Minimal (bs : List UInt8) : Prop := ∃ b rest, b ≠ 0 ∧ bs = b :: rest

@[simp] theorem length_bytes (n v : ℕ) : (bytes n v).length = n := by
  simp [bytes]

@[simp] theorem value_nil : value [] = 0 := rfl

theorem value_lt (bs : List UInt8) : value bs < 256 ^ bs.length := by
  simpa [value] using LittleEndian.value_lt bs.reverse

/-- The last byte is the least significant one. -/
theorem value_concat (bs : List UInt8) (b : UInt8) :
    value (bs ++ [b]) = 256 * value bs + b.toNat := by
  simp only [value, List.reverse_append, List.reverse_cons, List.reverse_nil, List.nil_append,
    List.cons_append, LittleEndian.value]
  omega

/-- The first byte is the most significant one. -/
theorem value_cons (b : UInt8) (bs : List UInt8) :
    value (b :: bs) = b.toNat * 256 ^ bs.length + value bs := by
  induction bs using List.reverseRecOn with
  | nil => simp [value, LittleEndian.value]
  | append_singleton bs c ih =>
    rw [← List.cons_append, value_concat, value_concat, ih, List.length_append,
      List.length_singleton, Nat.pow_succ]
    ring

theorem value_zeros_append (n : ℕ) (bs : List UInt8) :
    value (List.replicate n 0 ++ bs) = value bs := by
  induction n with
  | zero => rfl
  | succ n ih =>
    rw [List.replicate_succ, List.cons_append, value_cons, ih]
    simp

/-- Two byte strings of one length that denote the same number are equal. -/
theorem value_inj {bs cs : List UInt8} (hlen : bs.length = cs.length) (h : value bs = value cs) :
    bs = cs := by
  have hrev : bs.reverse = cs.reverse := by
    have hbs : bs.reverse.length = cs.length := by rw [List.length_reverse, hlen]
    have hcs : cs.reverse.length = cs.length := List.length_reverse
    rw [← LittleEndian.bytes_value hbs, ← LittleEndian.bytes_value hcs]
    exact congrArg _ h
  exact List.reverse_injective hrev

theorem value_bytes {n v : ℕ} (h : v < 256 ^ n) : value (bytes n v) = v := by
  simpa [value, bytes] using LittleEndian.value_bytes h

/-- The fixed-width numeral of the number a byte string denotes is that string behind zeros. -/
theorem bytes_value {n : ℕ} {bs : List UInt8} (h : bs.length ≤ n) :
    bytes n (value bs) = List.replicate (n - bs.length) 0 ++ bs := by
  apply value_inj
  · simp
    omega
  · rw [value_zeros_append, value_bytes]
    exact (value_lt bs).trans_le (Nat.pow_le_pow_right (by omega) h)

/-- A byte string is zeros alone, or zeros before a minimal one. -/
theorem zeros_or_minimal (bs : List UInt8) :
    (∃ n, bs = List.replicate n 0) ∨
      ∃ n cs, Minimal cs ∧ bs = List.replicate n 0 ++ cs := by
  induction bs with
  | nil => exact Or.inl ⟨0, rfl⟩
  | cons b bs ih =>
    by_cases hb : b = 0
    · subst hb
      rcases ih with ⟨n, rfl⟩ | ⟨n, cs, hcs, rfl⟩
      · exact Or.inl ⟨n + 1, rfl⟩
      · exact Or.inr ⟨n + 1, cs, hcs, rfl⟩
    · exact Or.inr ⟨0, b :: bs, ⟨b, bs, hb, rfl⟩, rfl⟩

/-- Every positive number that fits `n` bytes is denoted by a minimal byte string of at most
`n` bytes. -/
theorem exists_minimal {n v : ℕ} (hpos : v ≠ 0) (hv : v < 256 ^ n) :
    ∃ bs, Minimal bs ∧ bs.length ≤ n ∧ value bs = v := by
  have hval := value_bytes hv
  have hlen := length_bytes n v
  rcases zeros_or_minimal (bytes n v) with ⟨k, hk⟩ | ⟨k, bs, hbs, hk⟩
  · rw [hk, ← List.append_nil (List.replicate k 0), value_zeros_append, value_nil] at hval
    exact absurd hval.symm hpos
  · rw [hk, value_zeros_append] at hval
    rw [hk, List.length_append] at hlen
    exact ⟨bs, hbs, by omega, hval⟩

end BigEndian

end QuicSync
