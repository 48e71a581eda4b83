import Mathlib.Data.List.Basic
import Mathlib.Order.MinMax
import Mathlib.Tactic.Common

/-!
# Layered rule files

Rules about the paths of a tree, in files that are in its directories.  The last rule that matches
decides, and a file in a deeper directory comes after those above it.

What a file says about a path may be the word of a rule for the path itself, or, where it has none,
of one for a directory above the path.  The first is what should decide.  Where the path is come to
through directories that are not excluded, the second does not exclude anything
(`Layers.own_of_excludes`); it may keep what a rule of a file further up excludes
(`Layers.kept_iff`).
-/

namespace QuicSync

/-! ### One file -/

section

variable {α R : Type} (hits : R → List α → Bool → Bool)

/-- The last rule that matches the path itself. -/
def lastHit (rules : List R) (names : List α) (isDir : Bool) : Option R :=
  (rules.filter fun rule => hits rule names isDir).getLast?

/-- The last rule that matches the nearest directory above that any rule matches, of at most the
given length. -/
def parentHit (rules : List R) (names : List α) : ℕ → Option R
  | 0 => none
  | k + 1 => (lastHit hits rules (names.take (k + 1)) true).or (parentHit rules names k)

/-- The rule of a file that has the say about a path. -/
def ruleFor (rules : List R) (names : List α) (isDir : Bool) : Option R :=
  (lastHit hits rules names isDir).or (parentHit hits rules names (names.length - 1))

variable {hits} {rules : List R} {names : List α} {isDir : Bool}

theorem parentHit_eq_some {k : ℕ} {rule : R} (h : parentHit hits rules names k = some rule) :
    ∃ j, 0 < j ∧ j ≤ k ∧ lastHit hits rules (names.take j) true = some rule := by
  induction k with
  | zero => cases h
  | succ k ih =>
    rw [parentHit, Option.or_eq_some_iff] at h
    obtain h | ⟨-, h⟩ := h
    · exact ⟨k + 1, Nat.succ_pos k, le_rfl, h⟩
    · obtain ⟨j, hj, hle, hlast⟩ := ih h
      exact ⟨j, hj, Nat.le_succ_of_le hle, hlast⟩

theorem parentHit_ne_none {j k : ℕ} (hj : 0 < j) (hle : j ≤ k)
    (h : lastHit hits rules (names.take j) true ≠ none) : parentHit hits rules names k ≠ none := by
  induction k with
  | zero => omega
  | succ k ih =>
    rw [parentHit, ne_eq, Option.or_eq_none_iff, not_and_or]
    obtain rfl | hlt := eq_or_lt_of_le hle
    · exact Or.inl h
    · exact Or.inr (ih (Nat.le_of_lt_succ hlt))

theorem ruleFor_of_lastHit {rule : R} (h : lastHit hits rules names isDir = some rule) :
    ruleFor hits rules names isDir = some rule := by
  rw [ruleFor, h, Option.some_or]

/-- A rule that has the say about a path and does not match it matches a directory above it. -/
theorem exists_parent_of_ruleFor {rule : R} (h : ruleFor hits rules names isDir = some rule)
    (hlast : lastHit hits rules names isDir = none) :
    ∃ j, 0 < j ∧ j < names.length ∧ lastHit hits rules (names.take j) true = some rule := by
  rw [ruleFor, hlast, Option.none_or] at h
  obtain ⟨j, hj, hle, hparent⟩ := parentHit_eq_some h
  exact ⟨j, hj, by omega, hparent⟩

/-- A file that says something about a directory says something about what is below it. -/
theorem ruleFor_below {j : ℕ} (hj : 0 < j) (hlt : j < names.length)
    (h : ruleFor hits rules (names.take j) true ≠ none) :
    ruleFor hits rules names isDir ≠ none := by
  have hparent : parentHit hits rules names (names.length - 1) ≠ none := by
    obtain ⟨rule, hrule⟩ := Option.ne_none_iff_exists'.1 h
    by_cases hlast : lastHit hits rules (names.take j) true = none
    · obtain ⟨i, hi, hij, hparent⟩ := exists_parent_of_ruleFor hrule hlast
      rw [List.length_take] at hij
      rw [List.take_take, min_eq_left (by omega)] at hparent
      exact parentHit_ne_none hi (by omega) (by simp [hparent])
    · exact parentHit_ne_none hj (by omega) hlast
  rw [ruleFor, ne_eq, Option.or_eq_none_iff]
  exact fun hnone => hparent hnone.2

end

/-! ### The files along a path -/

/-- The rule files in the directories on the way to an entry.  The number `k` stands for the
directory, or the entry, whose path has the length `k`. -/
structure Layers (F R : Type) (n : ℕ) where
  /-- The files in the directories above, in order. -/
  files : ℕ → List F
  /-- The length of the path of the directory that a file is in. -/
  depth : F → ℕ
  /-- The last rule of a file that matches the path itself. -/
  own : F → ℕ → Option R
  /-- The rule of a file that has the say about the path. -/
  rule : F → ℕ → Option R
  /-- The files for a directory come first among those for what is below it, and the others are in
  it or below it. -/
  files_append : ∀ j k, 0 < j → j ≤ k → k ≤ n →
    ∃ fs, files k = files j ++ fs ∧ ∀ f ∈ fs, j ≤ depth f
  depth_lt : ∀ k f, 0 < k → k ≤ n → f ∈ files k → depth f < k
  rule_of_own : ∀ f k r, own f k = some r → rule f k = some r
  /-- A rule that has the say about a path and does not match it matches a directory above it. -/
  exists_parent : ∀ f k r, k ≤ n → rule f k = some r → own f k = none →
    ∃ j, depth f < j ∧ j < k ∧ own f j = some r
  /-- A file that says something about a directory says something about what is below it. -/
  rule_below : ∀ f j k, depth f < j → j < k → k ≤ n → rule f j ≠ none → rule f k ≠ none

/-- The last of a list that has a value has the say. -/
theorem findSome?_reverse_eq_some_iff {α β : Type} {f : α → Option β} {l : List α} {b : β} :
    l.reverse.findSome? f = some b ↔
      ∃ l₁ a l₂, l = l₁ ++ a :: l₂ ∧ f a = some b ∧ ∀ x ∈ l₂, f x = none := by
  rw [List.findSome?_eq_some_iff]
  constructor
  · rintro ⟨l₁, a, l₂, hl, ha, hnone⟩
    refine ⟨l₂.reverse, a, l₁.reverse, ?_, ha, fun x hx => hnone x (List.mem_reverse.1 hx)⟩
    rw [← List.reverse_reverse l, hl]
    simp
  · rintro ⟨l₁, a, l₂, rfl, ha, hnone⟩
    exact ⟨l₂.reverse, a, l₁.reverse, by simp, ha, fun x hx => hnone x (List.mem_reverse.1 hx)⟩

/-- Of two members of a list, one comes at or after the other. -/
theorem mem_of_splits {α : Type} {l₁ l₂ m₁ m₂ : List α} {a b : α}
    (h : l₁ ++ a :: l₂ = m₁ ++ b :: m₂) : a ∈ b :: m₂ ∨ b ∈ l₂ := by
  obtain ⟨mid, -, hlater⟩ | ⟨mid, -, hlater⟩ := List.append_eq_append_iff.1 h
  · cases mid with
    | nil =>
      rw [List.nil_append, List.cons.injEq] at hlater
      exact Or.inl (hlater.1 ▸ List.mem_cons_self)
    | cons c mid =>
      rw [List.cons_append, List.cons.injEq] at hlater
      rw [hlater.2]
      exact Or.inr (List.mem_append_right _ List.mem_cons_self)
  · rw [hlater]
    exact Or.inl (List.mem_append_right _ List.mem_cons_self)

namespace Layers

variable {F R : Type} {n : ℕ} (L : Layers F R n)

/-- The last rule that matches the path itself, in all files for it. -/
def last (k : ℕ) : Option R := (L.files k).reverse.findSome? fun f => L.own f k

/-- The rule that has the say about a path, in all files for it. -/
def word (k : ℕ) : Option R := (L.files k).reverse.findSome? fun f => L.rule f k

/-- A file speaks of a directory above the path, and neither it nor those after it have a rule for
the path itself. -/
def Overridden (k : ℕ) : Prop :=
  ∃ before f after, L.files k = before ++ f :: after ∧ (∀ g ∈ f :: after, L.own g k = none) ∧
    ∃ j, L.depth f < j ∧ j < k ∧ L.own f j ≠ none

/-- The directories above the path are not excluded. -/
def Reached (excludes : R → Prop) (k : ℕ) : Prop :=
  ∀ j, 0 < j → j < k → ∀ r, L.word j = some r → ¬ excludes r

variable {L} {excludes : R → Prop} {k : ℕ} {r : R}

/-- From a file above a directory on, the files for a path begin with those for the directory. -/
theorem files_below {before after : List F} {f : F} {j : ℕ} (h : L.files k = before ++ f :: after)
    (hdepth : L.depth f < j) (hj : j < k) (hk : k ≤ n) :
    ∃ mid rest, L.files j = before ++ f :: mid ∧ after = mid ++ rest := by
  obtain ⟨rest, hfiles, hrest⟩ := L.files_append j k (by omega) hj.le hk
  rw [h] at hfiles
  -- the file is not among those in the directory and below it
  have hnot : f ∉ rest := fun hmem => by
    have := hrest f hmem
    omega
  obtain ⟨mid, hdir, hafter⟩ | ⟨mid, hbefore, hlater⟩ := List.append_eq_append_iff.1 hfiles
  · cases mid with
    | nil =>
      rw [List.nil_append] at hafter
      exact absurd (hafter ▸ List.mem_cons_self) hnot
    | cons g mid =>
      rw [List.cons_append, List.cons.injEq] at hafter
      obtain ⟨rfl, rfl⟩ := hafter
      exact ⟨mid, rest, hdir, rfl⟩
  · rw [hlater] at hnot
    exact absurd (List.mem_append_right _ List.mem_cons_self) hnot

/-- **What excludes a path that is reached is a rule for the path itself.** -/
theorem own_of_excludes {before after : List F} {f : F} (hk : k ≤ n)
    (hreached : L.Reached excludes k) (hfiles : L.files k = before ++ f :: after)
    (hrule : L.rule f k = some r) (hafter : ∀ g ∈ after, L.rule g k = none) (hr : excludes r) :
    L.own f k = some r := by
  cases hown : L.own f k with
  | some r' => rw [← hrule, L.rule_of_own f k r' hown]
  | none =>
    -- the rule is for a directory above the path, which a later file keeps: that file then also
    -- speaks of the path
    obtain ⟨j, hdepth, hj, hparent⟩ := L.exists_parent f k r hk hrule hown
    obtain ⟨mid, rest, hdir, rfl⟩ := files_below hfiles hdepth hj hk
    by_cases hmid : ∀ g ∈ mid, L.rule g j = none
    · have hdirWord : L.word j = some r := findSome?_reverse_eq_some_iff.2
        ⟨before, f, mid, hdir, L.rule_of_own _ _ _ hparent, hmid⟩
      exact absurd hr (hreached j (by omega) hj r hdirWord)
    · push Not at hmid
      obtain ⟨g, hg, hne⟩ := hmid
      have hgmem : g ∈ L.files j := by
        rw [hdir]
        exact List.mem_append_right _ (List.mem_cons_of_mem _ hg)
      have hgdepth : L.depth g < j := L.depth_lt j g (by omega) (by omega) hgmem
      exact absurd (hafter g (List.mem_append_left _ hg)) (L.rule_below g j k hgdepth hj hk hne)

/-- It is the last one of all that match the path. -/
theorem last_of_excludes (hk : k ≤ n) (hreached : L.Reached excludes k) (hword : L.word k = some r)
    (hr : excludes r) : L.last k = some r := by
  obtain ⟨before, f, after, hfiles, hrule, hafter⟩ := findSome?_reverse_eq_some_iff.1 hword
  refine findSome?_reverse_eq_some_iff.2 ⟨before, f, after, hfiles,
    own_of_excludes hk hreached hfiles hrule hafter hr, fun g hg => ?_⟩
  by_contra hown
  obtain ⟨r', hr'⟩ := Option.ne_none_iff_exists'.1 hown
  have hrule' := L.rule_of_own g k r' hr'
  rw [hafter g hg] at hrule'
  cases hrule'

/-- A file that speaks of a directory above the path speaks of the path. -/
theorem rule_ne_none {f : F} {j : ℕ} (hdepth : L.depth f < j) (hj : j < k) (hk : k ≤ n)
    (h : L.own f j ≠ none) : L.rule f k ≠ none := by
  obtain ⟨r, hr⟩ := Option.ne_none_iff_exists'.1 h
  refine L.rule_below f j k hdepth hj hk ?_
  rw [L.rule_of_own _ _ _ hr]
  exact Option.some_ne_none r

/-- A path that is reached is kept where the last rule that matches it does not exclude it, and
where a later file speaks of a directory above it. -/
theorem kept_iff (hk : k ≤ n) (hreached : L.Reached excludes k) :
    (∀ r, L.word k = some r → ¬ excludes r) ↔
      ∀ r, L.last k = some r → excludes r → L.Overridden k := by
  constructor
  · intro hkept r hlast hr
    obtain ⟨before, f, after, hfiles, hown, hafter⟩ := findSome?_reverse_eq_some_iff.1 hlast
    by_cases hnone : ∀ g ∈ after, L.rule g k = none
    · have hword : L.word k = some r := findSome?_reverse_eq_some_iff.2
        ⟨before, f, after, hfiles, L.rule_of_own _ _ _ hown, hnone⟩
      exact absurd hr (hkept r hword)
    · push Not at hnone
      obtain ⟨g, hg, hne⟩ := hnone
      obtain ⟨mid, rest, rfl⟩ := List.append_of_mem hg
      obtain ⟨r', hr'⟩ := Option.ne_none_iff_exists'.1 hne
      obtain ⟨j, hdepth, hj, hparent⟩ := L.exists_parent g k r' hk hr' (hafter g hg)
      refine ⟨before ++ f :: mid, g, rest, by simp [hfiles], fun x hx => ?_, j, hdepth, hj,
        by simp [hparent]⟩
      exact hafter x (List.mem_append_right _ hx)
  · intro hover r hword hr
    obtain ⟨before', g, after', hfiles', hown', j, hdepth, hj, hparent⟩ :=
      hover r (last_of_excludes hk hreached hword hr) hr
    obtain ⟨before, f, after, hfiles, hrule, hafter⟩ := findSome?_reverse_eq_some_iff.1 hword
    have hown := own_of_excludes hk hreached hfiles hrule hafter hr
    obtain hf | hg := mem_of_splits (hfiles.symm.trans hfiles')
    · rw [hown' f hf] at hown
      cases hown
    · exact rule_ne_none hdepth hj hk hparent (hafter g hg)

end Layers

end QuicSync
