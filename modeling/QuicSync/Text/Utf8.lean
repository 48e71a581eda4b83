import Mathlib.Algebra.Order.Ring.Nat
import Mathlib.Data.List.Basic
import Mathlib.Tactic.Common

/-!
# Slices of UTF-8 text

A text is a sequence of characters; its positions are counted in bytes of its UTF-8 encoding, and
only a position between two characters can be the end of a slice.

* `Utf8.bytes`, `Utf8.byteLength` : the encoding and its length;
* `Utf8.splitAt` : the text before and after a byte position, if that is a character boundary;
* `Utf8.slice` : the text between two byte positions;
* `Utf8.pairs_or_inside` : a text of an even number of bytes falls into two-byte texts, or has a
  character over the end of the first that does not.
-/

namespace QuicSync

namespace Utf8

/-- The UTF-8 encoding of a text. -/
def bytes (s : List Char) : List UInt8 := s.flatMap String.utf8EncodeChar

/-- The length of the encoding of a text. -/
def byteLength (s : List Char) : ℕ := (s.map Char.utf8Size).sum

/-- The text before and after a byte position, `none` inside a character or past the end. -/
def splitAt : List Char → ℕ → Option (List Char × List Char)
  | s, 0 => some ([], s)
  | [], _ + 1 => none
  | c :: s, n + 1 =>
    if c.utf8Size ≤ n + 1 then
      (splitAt s (n + 1 - c.utf8Size)).map fun (a, b) => (c :: a, b)
    else none

/-- The text between two byte positions. -/
def slice (s : List Char) (start stop : ℕ) : Option (List Char) :=
  if start ≤ stop then do
    let (_, rest) ← splitAt s start
    let (text, _) ← splitAt rest (stop - start)
    some text
  else none

/-- The second byte of a text is not the last one of a character. -/
def InsideChar (s : List Char) : Prop :=
  (∃ c rest, s = c :: rest ∧ 2 < c.utf8Size) ∨
    ∃ c d rest, s = c :: d :: rest ∧ c.utf8Size = 1 ∧ 1 < d.utf8Size

@[simp] theorem bytes_nil : bytes [] = [] := rfl

@[simp] theorem bytes_cons (c : Char) (s : List Char) :
    bytes (c :: s) = String.utf8EncodeChar c ++ bytes s := rfl

@[simp] theorem byteLength_nil : byteLength [] = 0 := rfl

@[simp] theorem byteLength_cons (c : Char) (s : List Char) :
    byteLength (c :: s) = c.utf8Size + byteLength s := by
  simp [byteLength]

@[simp] theorem byteLength_append (s t : List Char) :
    byteLength (s ++ t) = byteLength s + byteLength t := by
  simp [byteLength]

theorem length_bytes (s : List Char) : (bytes s).length = byteLength s := by
  induction s with
  | nil => rfl
  | cons c s ih => simp [ih]

/-- A text is split exactly after one of its beginnings. -/
theorem splitAt_eq_some_iff {s a b : List Char} {n : ℕ} :
    splitAt s n = some (a, b) ↔ s = a ++ b ∧ byteLength a = n := by
  induction s generalizing a n with
  | nil =>
    cases n with
    | zero =>
      simp only [splitAt, Option.some.injEq, Prod.mk.injEq]
      constructor
      · rintro ⟨rfl, rfl⟩
        exact ⟨rfl, rfl⟩
      · rintro ⟨h, -⟩
        obtain ⟨rfl, rfl⟩ := List.append_eq_nil_iff.1 h.symm
        exact ⟨rfl, rfl⟩
    | succ n =>
      refine iff_of_false (fun h => nomatch h) ?_
      rintro ⟨h, hlen⟩
      obtain ⟨rfl, rfl⟩ := List.append_eq_nil_iff.1 h.symm
      cases hlen
  | cons c s ih =>
    have hpos := c.utf8Size_pos
    cases n with
    | zero =>
      simp only [splitAt, Option.some.injEq, Prod.mk.injEq]
      constructor
      · rintro ⟨rfl, rfl⟩
        exact ⟨rfl, rfl⟩
      · rintro ⟨h, hlen⟩
        cases a with
        | nil => exact ⟨rfl, h⟩
        | cons d a =>
          have := d.utf8Size_pos
          simp only [byteLength_cons] at hlen
          omega
    | succ n =>
      rw [splitAt]
      constructor
      · intro h
        split at h
        · obtain ⟨⟨a', b'⟩, hsplit, hpair⟩ := Option.map_eq_some_iff.1 h
          obtain ⟨rfl, rfl⟩ := Prod.mk.inj hpair
          obtain ⟨rfl, hlen⟩ := ih.1 hsplit
          exact ⟨rfl, by rw [byteLength_cons]; omega⟩
        · cases h
      · rintro ⟨h, hlen⟩
        cases a with
        | nil => cases hlen
        | cons d a =>
          obtain ⟨rfl, rfl⟩ := List.cons.inj h
          rw [byteLength_cons] at hlen
          rw [if_pos (by omega), ih.2 ⟨rfl, by omega⟩]
          rfl

theorem splitAt_append (s t : List Char) : splitAt (s ++ t) (byteLength s) = some (s, t) :=
  splitAt_eq_some_iff.2 ⟨rfl, rfl⟩

/-- The slice behind a beginning of a text is one of the rest. -/
theorem slice_append (s t : List Char) (n : ℕ) :
    slice (s ++ t) (byteLength s) (byteLength s + n) = (splitAt t n).map Prod.fst := by
  rw [slice, if_pos (Nat.le_add_right _ _), splitAt_append, Nat.add_sub_cancel_left]
  show ((splitAt t n).bind fun p => some p.1) = _
  cases splitAt t n <;> rfl

/-- The first two bytes of a text are a slice unless a character lies over their end. -/
theorem splitAt_two {s : List Char} (h : 2 ≤ byteLength s) :
    (∃ a b, s = a ++ b ∧ byteLength a = 2) ∨ InsideChar s := by
  cases s with
  | nil => cases h
  | cons c s =>
    have hpos := c.utf8Size_pos
    rcases Nat.lt_trichotomy c.utf8Size 2 with hc | hc | hc
    · cases s with
      | nil =>
        simp only [byteLength_cons, byteLength_nil] at h
        omega
      | cons d s =>
        have hd := d.utf8Size_pos
        by_cases hone : d.utf8Size = 1
        · exact Or.inl ⟨[c, d], s, rfl, by simp; omega⟩
        · exact Or.inr (Or.inr ⟨c, d, s, rfl, by omega, by omega⟩)
    · exact Or.inl ⟨[c], s, rfl, by simpa using hc⟩
    · exact Or.inr (Or.inl ⟨c, s, rfl, hc⟩)

theorem InsideChar.splitAt_eq_none {s : List Char} (h : InsideChar s) : splitAt s 2 = none := by
  rw [Option.eq_none_iff_forall_ne_some]
  rintro ⟨a, b⟩ hsplit
  obtain ⟨hs, hlen⟩ := splitAt_eq_some_iff.1 hsplit
  rcases h with ⟨c, rest, rfl, hc⟩ | ⟨c, d, rest, rfl, hc, hd⟩
  · cases a with
    | nil => cases hlen
    | cons e a =>
      obtain ⟨rfl, -⟩ := List.cons.inj hs
      rw [byteLength_cons] at hlen
      omega
  · rcases a with _ | ⟨e, _ | ⟨f, a⟩⟩
    · cases hlen
    · obtain ⟨rfl, -⟩ := List.cons.inj hs
      simp only [byteLength_cons, byteLength_nil] at hlen
      omega
    · obtain ⟨rfl, htail⟩ := List.cons.inj hs
      obtain ⟨rfl, -⟩ := List.cons.inj htail
      simp only [byteLength_cons] at hlen
      omega

/-- A text of an even number of bytes falls into two-byte texts, or has a character over the end
of the first that does not. -/
theorem pairs_or_inside (n : ℕ) {s : List Char} (h : byteLength s = 2 * n) :
    (∃ groups : List (List Char), groups.length = n ∧ (∀ g ∈ groups, byteLength g = 2) ∧
        s = groups.flatten) ∨
      ∃ (groups : List (List Char)) (rest : List Char), groups.length < n ∧
        (∀ g ∈ groups, byteLength g = 2) ∧ s = groups.flatten ++ rest ∧ InsideChar rest := by
  induction n generalizing s with
  | zero =>
    cases s with
    | nil => exact Or.inl ⟨[], rfl, (fun g hg => nomatch hg), rfl⟩
    | cons c s =>
      have := c.utf8Size_pos
      rw [byteLength_cons] at h
      omega
  | succ n ih =>
    rcases splitAt_two (s := s) (by omega) with ⟨a, b, rfl, ha⟩ | hinside
    · rw [byteLength_append] at h
      rcases ih (s := b) (by omega) with ⟨groups, hlen, hall, rfl⟩ |
        ⟨groups, rest, hlen, hall, rfl, hrest⟩
      · exact Or.inl ⟨a :: groups, by simp [hlen], List.forall_mem_cons.2 ⟨ha, hall⟩, rfl⟩
      · exact Or.inr ⟨a :: groups, rest, by simp [hlen], List.forall_mem_cons.2 ⟨ha, hall⟩,
          by simp, hrest⟩
    · exact Or.inr ⟨[], s, by simp, (fun g hg => nomatch hg), rfl, hinside⟩

/-! ### Characters of more than one byte -/

/-- A byte with its highest bit set. -/
theorem le_toNat_or (x y : UInt8) (h : 128 ≤ y.toNat) : 128 ≤ (x ||| y).toNat := by
  rw [UInt8.toNat_or]
  exact Nat.le_trans h Nat.right_le_or

/-- The first byte of a character of several bytes is not ASCII. -/
theorem head_utf8EncodeChar {c : Char} (h : c.utf8Size ≠ 1) :
    ∃ b rest, String.utf8EncodeChar c = b :: rest ∧ 128 ≤ b.toNat := by
  rcases c.utf8Size_eq with hc | hc | hc | hc
  · exact absurd hc h
  · exact ⟨_, _, String.utf8EncodeChar_eq_cons_cons hc, le_toNat_or _ _ (by decide)⟩
  · exact ⟨_, _, String.utf8EncodeChar_eq_cons_cons_cons hc, le_toNat_or _ _ (by decide)⟩
  · exact ⟨_, _, String.utf8EncodeChar_eq_cons_cons_cons_cons hc, le_toNat_or _ _ (by decide)⟩

theorem utf8Size_eq_one {c : Char} (h : c.toNat < 128) : c.utf8Size = 1 :=
  Char.utf8Size_eq_one_iff.2 (UInt32.le_iff_toNat_le.2 (Nat.le_of_lt_succ h))

theorem toNat_lt {c : Char} (h : c.utf8Size = 1) : c.toNat < 128 :=
  Nat.lt_succ_of_le (UInt32.le_iff_toNat_le.1 (Char.utf8Size_eq_one_iff.1 h))

/-- An ASCII character is its own encoding. -/
theorem utf8EncodeChar_ascii {c : Char} (h : c.toNat < 128) :
    String.utf8EncodeChar c = [UInt8.ofNat c.toNat] := by
  rw [String.utf8EncodeChar_eq_singleton (utf8Size_eq_one h)]
  congr 1

end Utf8

end QuicSync
