import Mathlib.Tactic.Common
import Mathlib.Tactic.Ring

/-!
# Minimal base-128 numerals

The minimal little-endian base-128 numeral of a natural number: seven bits a byte, the
continuation bit on every byte but the last, and no zero byte at the end of a longer numeral.

* `Leb128.encode` : the numeral of a number;
* `Leb128.encode_prefix_cons` : how a byte string that starts with a numeral continues, by its
  first byte; the rule a parser's induction uses;
* `Leb128.encode_append_inj` : numerals are self-delimiting;
* `Leb128.continuation_of_prefix`, `Leb128.exists_encode_concat` : the proper prefixes of numerals
  are the strings of continuation bytes.
-/

namespace QuicSync

namespace Leb128

/-- The minimal base-128 numeral of `n`. -/
def encode (n : ℕ) : List UInt8 :=
  if n < 128 then [UInt8.ofNat n] else UInt8.ofNat (n % 128 + 128) :: encode (n / 128)

theorem encode_of_lt {n : ℕ} (h : n < 128) : encode n = [UInt8.ofNat n] := by
  rw [encode, if_pos h]

theorem encode_of_le {n : ℕ} (h : 128 ≤ n) :
    encode n = UInt8.ofNat (n % 128 + 128) :: encode (n / 128) := by
  rw [encode, if_neg (by omega)]

/-- The numeral of `r + 128 * m`, for a digit `r` and a non-zero quotient `m`. -/
theorem encode_digit_add {r m : ℕ} (hr : r < 128) (hm : m ≠ 0) :
    encode (r + 128 * m) = UInt8.ofNat (r + 128) :: encode m := by
  rw [encode_of_le (by omega), show (r + 128 * m) % 128 = r by omega,
    show (r + 128 * m) / 128 = m by omega]

theorem encode_ne_nil (n : ℕ) : encode n ≠ [] := by
  rw [encode]
  split <;> simp

/-- A number below `128 ^ k` has at most `k` bytes. -/
theorem length_encode_le {n k : ℕ} (h : n < 128 ^ (k + 1)) : (encode n).length ≤ k + 1 := by
  induction k generalizing n with
  | zero => rw [encode_of_lt (by simpa using h)]; simp
  | succ k ih =>
    by_cases hn : n < 128
    · rw [encode_of_lt hn]; simp
    · have hdiv : n / 128 < 128 ^ (k + 1) := by
        rw [Nat.pow_succ] at h
        omega
      rw [encode_of_le (by omega), List.length_cons]
      have := ih hdiv
      omega

theorem toNat_ofNat_lt {n : ℕ} (h : n < 256) : (UInt8.ofNat n).toNat = n := by
  rw [UInt8.toNat_ofNat']
  omega

/-- A numeral starts with `b` exactly when it is the one byte `b`, or `b` continues and the
rest is the numeral of the quotient. -/
theorem encode_prefix_cons {n : ℕ} {b : UInt8} {bs : List UInt8} :
    encode n <+: b :: bs ↔
      (b.toNat < 128 ∧ n = b.toNat) ∨
        (128 ≤ b.toNat ∧ ∃ m, m ≠ 0 ∧ n = b.toNat - 128 + 128 * m ∧ encode m <+: bs) := by
  have hb := b.toNat_lt
  by_cases hn : n < 128
  · rw [encode_of_lt hn, List.cons_prefix_cons]
    constructor
    · rintro ⟨rfl, -⟩
      rw [toNat_ofNat_lt (by omega)]
      exact Or.inl ⟨hn, rfl⟩
    · rintro (⟨-, rfl⟩ | ⟨-, m, hm, rfl, -⟩)
      · exact ⟨by simp, List.nil_prefix⟩
      · omega
  · rw [encode_of_le (by omega), List.cons_prefix_cons]
    constructor
    · rintro ⟨rfl, h⟩
      have hv := toNat_ofNat_lt (n := n % 128 + 128) (by omega)
      exact Or.inr ⟨by omega, n / 128, by omega, by omega, h⟩
    · rintro (⟨hlt, rfl⟩ | ⟨hle, m, hm, rfl, h⟩)
      · omega
      · have hdiv : (b.toNat - 128 + 128 * m) / 128 = m := by omega
        have hmod : (b.toNat - 128 + 128 * m) % 128 + 128 = b.toNat := by omega
        rw [hdiv, hmod]
        exact ⟨by simp, h⟩

/-- Numerals are self-delimiting: at most one numeral starts a byte string. -/
theorem encode_append_inj {m n : ℕ} {s : List UInt8} (hm : encode m <+: s)
    (hn : encode n <+: s) : m = n := by
  induction s generalizing m n with
  | nil => exact absurd (List.prefix_nil.1 hm) (encode_ne_nil m)
  | cons b bs ih =>
    rcases encode_prefix_cons.1 hm with ⟨h₁, rfl⟩ | ⟨h₁, m', -, rfl, hm'⟩ <;>
      rcases encode_prefix_cons.1 hn with ⟨h₂, rfl⟩ | ⟨h₂, n', -, rfl, hn'⟩
    · rfl
    · omega
    · omega
    · rw [ih hm' hn']

/-- A numeral does not end among continuation bytes. -/
theorem not_encode_of_continuation {n : ℕ} {l : List UInt8} (hl : ∀ b ∈ l, 128 ≤ b.toNat) :
    ¬ encode n <+: l := by
  induction l generalizing n with
  | nil => exact fun h => encode_ne_nil n (List.prefix_nil.1 h)
  | cons b bs ih =>
    intro h
    have hb := hl b List.mem_cons_self
    rcases encode_prefix_cons.1 h with ⟨hlt, -⟩ | ⟨-, m, -, -, hm⟩
    · omega
    · exact ih (fun c hc => hl c (List.mem_cons_of_mem _ hc)) hm

/-- A numeral ends at the first byte that is not a continuation byte. -/
theorem encode_eq_of_stop {n : ℕ} {l s : List UInt8} {b : UInt8}
    (hl : ∀ c ∈ l, 128 ≤ c.toNat) (hb : b.toNat < 128) (h : encode n <+: l ++ b :: s) :
    encode n = l ++ [b] := by
  induction l generalizing n with
  | nil =>
    rcases encode_prefix_cons.1 h with ⟨-, rfl⟩ | ⟨hle, -⟩
    · rw [encode_of_lt hb]
      simp
    · omega
  | cons c cs ih =>
    have hc := hl c List.mem_cons_self
    rcases encode_prefix_cons.1 h with ⟨hlt, -⟩ | ⟨-, m, hm, rfl, hpre⟩
    · omega
    · have hlt := c.toNat_lt
      rw [encode_digit_add (by omega) hm, ih (fun d hd => hl d (List.mem_cons_of_mem _ hd)) hpre]
      have : c.toNat - 128 + 128 = c.toNat := by omega
      simp [this]

/-- Every byte of a numeral but the last is a continuation byte. -/
theorem continuation_of_prefix {n : ℕ} {l : List UInt8} (h : l <+: encode n)
    (hne : l ≠ encode n) : ∀ b ∈ l, 128 ≤ b.toNat := by
  induction l generalizing n with
  | nil => simp
  | cons c cs ih =>
    by_cases hn : n < 128
    · rw [encode_of_lt hn] at h hne
      obtain ⟨rfl, hcs⟩ := List.cons_prefix_cons.1 h
      exact absurd (by rw [List.prefix_nil.1 hcs]) hne
    · rw [encode_of_le (by omega)] at h hne
      obtain ⟨rfl, hcs⟩ := List.cons_prefix_cons.1 h
      intro b hb
      obtain rfl | hb := List.mem_cons.1 hb
      · rw [toNat_ofNat_lt (by omega)]
        omega
      · exact ih hcs (fun heq => hne (by rw [heq])) b hb

/-- Continuation bytes start a numeral: the one that ends behind them with the digit one. -/
theorem exists_encode_concat {l : List UInt8} (hl : ∀ b ∈ l, 128 ≤ b.toNat) :
    ∃ n, n ≠ 0 ∧ n < 2 * 128 ^ l.length ∧ encode n = l ++ [1] := by
  induction l with
  | nil => exact ⟨1, one_ne_zero, by simp, encode_of_lt (by omega)⟩
  | cons c cs ih =>
    obtain ⟨m, hm, hlt, hencode⟩ := ih fun b hb => hl b (List.mem_cons_of_mem _ hb)
    have hc := hl c List.mem_cons_self
    have hc' := c.toNat_lt
    refine ⟨c.toNat - 128 + 128 * m, by omega, ?_, ?_⟩
    · rw [List.length_cons, Nat.pow_succ]
      omega
    · rw [encode_digit_add (by omega) hm, hencode, Nat.sub_add_cancel hc]
      simp

end Leb128

end QuicSync
