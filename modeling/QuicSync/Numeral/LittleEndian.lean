import Mathlib.Tactic.Common
import Mathlib.Tactic.Ring

/-!
# Little-endian numerals

A natural number as a fixed number of bytes, least significant byte first.

* `LittleEndian.bytes n v` : the `n` low bytes of `v`;
* `LittleEndian.value` : the number a byte string denotes;
* `LittleEndian.value_bytes`, `LittleEndian.bytes_value` : the two are inverse on numbers below
  `256 ^ n` and byte strings of length `n`.
-/

namespace QuicSync

namespace LittleEndian

/-- The `n` low bytes of `v`, least significant first. -/
def bytes : ℕ → ℕ → List UInt8
  | 0, _ => []
  | n + 1, v => UInt8.ofNat (v % 256) :: bytes n (v / 256)

/-- The number a byte string denotes, least significant byte first. -/
def value : List UInt8 → ℕ
  | [] => 0
  | b :: bs => b.toNat + 256 * value bs

@[simp] theorem length_bytes (n v : ℕ) : (bytes n v).length = n := by
  induction n generalizing v with
  | zero => rfl
  | succ n ih => simp [bytes, ih]

theorem value_lt (bs : List UInt8) : value bs < 256 ^ bs.length := by
  induction bs with
  | nil => simp [value]
  | cons b bs ih =>
    have hb := b.toNat_lt
    simp only [value, List.length_cons, Nat.pow_succ]
    omega

theorem value_bytes {n v : ℕ} (h : v < 256 ^ n) : value (bytes n v) = v := by
  induction n generalizing v with
  | zero => simp only [Nat.pow_zero, Nat.lt_one_iff] at h; simp [bytes, value, h]
  | succ n ih =>
    have hdiv : v / 256 < 256 ^ n := by
      rw [Nat.pow_succ] at h
      omega
    have hbyte : (UInt8.ofNat (v % 256)).toNat = v % 256 := by
      rw [UInt8.toNat_ofNat']
      omega
    simp only [bytes, value, ih hdiv, hbyte]
    omega

theorem bytes_value {n : ℕ} {bs : List UInt8} (h : bs.length = n) : bytes n (value bs) = bs := by
  induction bs generalizing n with
  | nil => subst h; rfl
  | cons b bs ih =>
    subst h
    have hb := b.toNat_lt
    have hmod : (b.toNat + 256 * value bs) % 256 = b.toNat := by omega
    have hdiv : (b.toNat + 256 * value bs) / 256 = value bs := by omega
    simp only [List.length_cons, bytes, value, hmod, hdiv, ih rfl, UInt8.ofNat_toNat]

end LittleEndian

end QuicSync
