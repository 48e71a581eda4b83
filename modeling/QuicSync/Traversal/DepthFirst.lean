import Mathlib.Data.List.Lex
import Mathlib.Order.Lattice
import Mathlib.Logic.Function.Basic
import Mathlib.Tactic.Common

/-!
# Visiting sorted paths with a stack

Keys have paths, which are lists over a linear order and sorted lexicographically, so that what
lies below a path follows it without a gap.  `visits` enters the keys in this order.  A container
stays on a stack after it is entered and is left when the next key does not lie below it, or at
the end.

* `prefix_of_between`: what lies between a path and a path below it lies below it too.
* `Nested`: at every visit the keys above are inside, and a key that is left has nothing below it
  that is not left yet.  Induction on it is the rule for what a program does along the visits.
* `nested_visits`: the visits of sorted keys are nested.
-/

namespace QuicSync

theorem le_of_cons_le_cons {α : Type} [LinearOrder α] {x y : α} {a b : List α}
    (h : x :: a ≤ y :: b) : x < y ∨ x = y ∧ a ≤ b := by
  have hnot := mt List.cons_lt_cons_iff.2 (not_lt.2 h)
  obtain hlt | rfl | hgt := lt_trichotomy x y
  · exact Or.inl hlt
  · exact Or.inr ⟨rfl, not_lt.1 fun hba => hnot (Or.inr ⟨rfl, hba⟩)⟩
  · exact absurd (Or.inl hgt) hnot

/-- A lexicographic interval that starts above its end lies below its start. -/
theorem prefix_of_between {α : Type} [LinearOrder α] {a b c : List α} (hc : a <+: c) (hab : a ≤ b)
    (hbc : b ≤ c) : a <+: b := by
  induction a generalizing b c with
  | nil => exact List.nil_prefix
  | cons x a ih =>
    cases c with
    | nil => exact absurd hc (by simp)
    | cons z c =>
      obtain ⟨rfl, hac⟩ := List.cons_prefix_cons.1 hc
      cases b with
      | nil => exact absurd (List.nil_lt_cons x a) (not_lt.2 hab)
      | cons y b =>
        obtain hxy | ⟨rfl, htail⟩ := le_of_cons_le_cons hab
        · obtain hyx | ⟨rfl, -⟩ := le_of_cons_le_cons hbc
          · exact absurd hyx hxy.asymm
          · exact absurd hxy (lt_irrefl _)
        · obtain hyx | ⟨-, htail'⟩ := le_of_cons_le_cons hbc
          · exact absurd hyx (lt_irrefl _)
          · exact List.cons_prefix_cons.2 ⟨rfl, ih hac htail htail'⟩

/-- One step of a traversal. -/
inductive Visit (κ : Type) where
  | enter (key : κ)
  | leave (key : κ)

/-- How far a traversal is with a key. -/
inductive Stage where
  | before
  | inside
  | after
  deriving DecidableEq

section

variable {α κ : Type} [LinearOrder α] (path : κ → List α) (container : κ → Bool)

/-- Enter the keys in order; leave a container when the next key does not lie below it. -/
def visits : List κ → List κ → List (Visit κ)
  | [], [] => []
  | s :: stack, [] => .leave s :: visits stack []
  | [], k :: keys => .enter k :: visits (if container k then [k] else []) keys
  | s :: stack, k :: keys =>
    if path s <+: path k then
      .enter k :: visits (if container k then k :: s :: stack else s :: stack) keys
    else .leave s :: visits stack (k :: keys)
termination_by stack keys => stack.length + 2 * keys.length
decreasing_by
  · grind
  · grind
  · grind
  · grind

/-- The first key lies strictly above the second. -/
def Above (a k : κ) : Prop := path a <+: path k ∧ path a ≠ path k

variable {path container}

omit [LinearOrder α] in
theorem Above.trans {a b c : κ} (h : Above path a b) (h' : Above path b c) : Above path a c := by
  refine ⟨h.1.trans h'.1, fun heq => h.2 ?_⟩
  exact h.1.eq_of_length_le (heq ▸ h'.1.length_le)

omit [LinearOrder α] in
theorem Above.not_above {a b : κ} (h : Above path a b) : ¬ Above path b a := fun h' =>
  (h.trans h').2 rfl

theorem Above.lt {a b : κ} (h : Above path a b) : path a < path b :=
  lt_of_le_of_ne (not_lt.1 h.1.le) h.2

variable (path container)

/-- The visits are nested, from a given stage of each key on. -/
inductive Nested [DecidableEq κ] (keys : List κ) : (κ → Stage) → List (Visit κ) → Prop where
  | nil {phase : κ → Stage} (hafter : ∀ k ∈ keys, phase k = .after) : Nested keys phase []
  | enter {phase : κ → Stage} {k : κ} {rest : List (Visit κ)} (hk : k ∈ keys)
      (hbefore : phase k = .before) (habove : ∀ a ∈ keys, Above path a k → phase a = .inside)
      (hrest : Nested keys
        (Function.update phase k (if container k then .inside else .after)) rest) :
      Nested keys phase (.enter k :: rest)
  | leave {phase : κ → Stage} {k : κ} {rest : List (Visit κ)} (hk : k ∈ keys)
      (hcontainer : container k = true) (hinside : phase k = .inside)
      (habove : ∀ a ∈ keys, Above path a k → phase a = .inside)
      (hbelow : ∀ d ∈ keys, Above path k d → phase d = .after)
      (hrest : Nested keys (Function.update phase k .after) rest) :
      Nested keys phase (.leave k :: rest)

/-- A traversal between two visits: the containers it is inside, the innermost first, and the keys
it has not entered. -/
structure Position (keys stack todo : List κ) (phase : κ → Stage) : Prop where
  sorted : todo.Pairwise fun a b => path a < path b
  todo_mem : ∀ k ∈ todo, k ∈ keys
  stack_mem : ∀ s ∈ stack, s ∈ keys
  stack_container : ∀ s ∈ stack, container s = true
  chain : stack.Pairwise fun inner outer => Above path outer inner
  lt : ∀ s ∈ stack, ∀ k ∈ todo, path s < path k
  before : ∀ k ∈ todo, phase k = .before
  inside : ∀ s ∈ stack, phase s = .inside
  after : ∀ k ∈ keys, k ∉ todo → k ∉ stack → phase k = .after
  above_todo : ∀ k ∈ todo, ∀ a ∈ keys, Above path a k → a ∈ todo ∨ a ∈ stack
  above_stack : ∀ s ∈ stack, ∀ a ∈ keys, Above path a s → a ∈ stack

variable {path container} {keys stack todo : List κ} {phase : κ → Stage} {s k : κ}

namespace Position

/-- Nothing that is left to enter lies below a container that is left. -/
theorem not_below (h : Position path container keys (s :: stack) todo phase)
    (hnext : ∀ k ∈ todo.head?, ¬ path s <+: path k) : ∀ k ∈ todo, ¬ path s <+: path k := by
  cases todo with
  | nil => simp
  | cons n todo =>
    have hn := hnext n rfl
    intro k hk hsk
    obtain rfl | hk := List.mem_cons.1 hk
    · exact hn hsk
    · have hsn := h.lt s List.mem_cons_self n List.mem_cons_self
      have hnk := (List.pairwise_cons.1 h.sorted).1 k hk
      exact hn (prefix_of_between hsk hsn.le hnk.le)

/-- What lies below the innermost container is left, if it is not to be entered. -/
theorem below_after (h : Position path container keys (s :: stack) todo phase)
    (hnext : ∀ k ∈ todo.head?, ¬ path s <+: path k) :
    ∀ d ∈ keys, Above path s d → phase d = .after := by
  intro d hd hsd
  refine h.after d hd (fun hmem => h.not_below hnext d hmem hsd.1) fun hmem => ?_
  obtain rfl | hmem := List.mem_cons.1 hmem
  · exact hsd.2 rfl
  · exact hsd.not_above ((List.pairwise_cons.1 h.chain).1 d hmem)

theorem above_inside (h : Position path container keys (s :: stack) todo phase) :
    ∀ a ∈ keys, Above path a s → phase a = .inside := fun a ha has =>
  h.inside a (h.above_stack s List.mem_cons_self a ha has)

theorem not_mem_stack (h : Position path container keys (s :: stack) todo phase) : s ∉ stack :=
  fun hs => ((List.pairwise_cons.1 h.chain).1 s hs).2 rfl

/-- Leave the innermost container. -/
theorem leave [DecidableEq κ] (h : Position path container keys (s :: stack) todo phase)
    (hnext : ∀ k ∈ todo.head?, ¬ path s <+: path k) :
    Position path container keys stack todo (Function.update phase s .after) := by
  have hstack {a : κ} (ha : a ∈ stack) : a ∈ s :: stack := List.mem_cons_of_mem _ ha
  refine ⟨h.sorted, h.todo_mem, fun a ha => h.stack_mem a (hstack ha),
    fun a ha => h.stack_container a (hstack ha), (List.pairwise_cons.1 h.chain).2,
    fun a ha => h.lt a (hstack ha), fun k hk => ?_, fun a ha => ?_, fun k hk htodo hout => ?_,
    fun k hk a ha hak => ?_, fun b hb a ha hab => ?_⟩
  · have hne : k ≠ s := by
      rintro rfl
      exact (h.lt k List.mem_cons_self k hk).false
    rw [Function.update_of_ne hne]
    exact h.before k hk
  · have hne : a ≠ s := by
      rintro rfl
      exact h.not_mem_stack ha
    rw [Function.update_of_ne hne]
    exact h.inside a (hstack ha)
  · by_cases hne : k = s
    · rw [hne, Function.update_self]
    · rw [Function.update_of_ne hne]
      exact h.after k hk htodo fun hmem => (List.mem_cons.1 hmem).elim hne hout
  · obtain hmem | hmem := h.above_todo k hk a ha hak
    · exact Or.inl hmem
    · obtain rfl | hmem := List.mem_cons.1 hmem
      · exact absurd hak.1 (h.not_below hnext k hk)
      · exact Or.inr hmem
  · obtain rfl | hmem := List.mem_cons.1 (h.above_stack b (hstack hb) a ha hab)
    · exact absurd hab ((List.pairwise_cons.1 h.chain).1 b hb).not_above
    · exact hmem

/-- What lies above the next key is on the stack. -/
theorem above_next (h : Position path container keys stack (k :: todo) phase) :
    ∀ a ∈ keys, Above path a k → a ∈ stack := by
  intro a ha hak
  obtain hmem | hmem := h.above_todo k List.mem_cons_self a ha hak
  · obtain rfl | hmem := List.mem_cons.1 hmem
    · exact absurd rfl hak.2
    · exact absurd hak.lt ((List.pairwise_cons.1 h.sorted).1 a hmem).asymm
  · exact hmem

/-- The containers on the stack lie above the next key if the innermost does. -/
theorem stack_above (h : Position path container keys stack (k :: todo) phase)
    (hnext : ∀ s ∈ stack.head?, path s <+: path k) : ∀ s ∈ stack, Above path s k := by
  intro s hs
  refine ⟨?_, (h.lt s hs k List.mem_cons_self).ne⟩
  cases stack with
  | nil => cases hs
  | cons t stack =>
    have ht := hnext t rfl
    obtain rfl | hs := List.mem_cons.1 hs
    · exact ht
    · exact ((List.pairwise_cons.1 h.chain).1 s hs).1.trans ht

/-- Enter the next key. -/
theorem enter [DecidableEq κ] (h : Position path container keys stack (k :: todo) phase)
    (hcontainer : ∀ a ∈ keys, ∀ d ∈ keys, Above path a d → container a = true)
    (hnext : ∀ s ∈ stack.head?, path s <+: path k) :
    Position path container keys (if container k then k :: stack else stack) todo
      (Function.update phase k (if container k then .inside else .after)) := by
  obtain ⟨hlt, hsorted⟩ := List.pairwise_cons.1 h.sorted
  have htodo {a : κ} (ha : a ∈ todo) : a ∈ k :: todo := List.mem_cons_of_mem _ ha
  have hk : k ∈ keys := h.todo_mem k List.mem_cons_self
  have hkstack : k ∉ stack := fun hmem => (h.lt k hmem k List.mem_cons_self).false
  have habove := h.stack_above hnext
  have hmem_iff {a : κ} : a ∈ (if container k then k :: stack else stack) ↔
      (container k = true ∧ a = k) ∨ a ∈ stack := by
    split <;> simp [*]
  refine ⟨hsorted, fun a ha => h.todo_mem a (htodo ha), fun a ha => ?_, fun a ha => ?_, ?_,
    fun a ha b hb => ?_, fun a ha => ?_, fun a ha => ?_, fun a ha hout hout' => ?_,
    fun b hb a ha hab => ?_, fun b hb a ha hab => ?_⟩
  · obtain ⟨-, rfl⟩ | ha := hmem_iff.1 ha
    · exact hk
    · exact h.stack_mem a ha
  · obtain ⟨hc, rfl⟩ | ha := hmem_iff.1 ha
    · exact hc
    · exact h.stack_container a ha
  · split
    · exact List.pairwise_cons.2 ⟨habove, h.chain⟩
    · exact h.chain
  · obtain ⟨-, rfl⟩ | ha := hmem_iff.1 ha
    · exact hlt b hb
    · exact h.lt a ha b (htodo hb)
  · have hne : a ≠ k := by
      rintro rfl
      exact (hlt a ha).false
    rw [Function.update_of_ne hne]
    exact h.before a (htodo ha)
  · obtain ⟨hc, rfl⟩ | hmem := hmem_iff.1 ha
    · rw [Function.update_self, if_pos hc]
    · have hne : a ≠ k := by
        rintro rfl
        exact hkstack hmem
      rw [Function.update_of_ne hne]
      exact h.inside a hmem
  · rw [hmem_iff, not_or] at hout'
    by_cases hne : a = k
    · subst hne
      rw [Function.update_self, if_neg fun hc => hout'.1 ⟨hc, rfl⟩]
    · rw [Function.update_of_ne hne]
      exact h.after a ha (fun hmem => (List.mem_cons.1 hmem).elim hne hout) hout'.2
  · obtain hmem | hmem := h.above_todo b (htodo hb) a ha hab
    · obtain rfl | hmem := List.mem_cons.1 hmem
      · exact Or.inr (hmem_iff.2 (Or.inl ⟨hcontainer a ha b (h.todo_mem b (htodo hb)) hab, rfl⟩))
      · exact Or.inl hmem
    · exact Or.inr (hmem_iff.2 (Or.inr hmem))
  · refine hmem_iff.2 (Or.inr ?_)
    obtain ⟨-, rfl⟩ | hb := hmem_iff.1 hb
    · exact h.above_next a ha hab
    · exact h.above_stack b hb a ha hab

end Position

theorem Position.nested [DecidableEq κ]
    (hcontainer : ∀ a ∈ keys, ∀ d ∈ keys, Above path a d → container a = true)
    (h : Position path container keys stack todo phase) :
    Nested path container keys phase (visits path container stack todo) := by
  induction stack, todo using visits.induct path container generalizing phase with
  | case1 =>
    rw [visits]
    exact .nil fun k hk => h.after k hk List.not_mem_nil List.not_mem_nil
  | case2 s stack ih =>
    rw [visits]
    have hnext : ∀ k ∈ ([] : List κ).head?, ¬ path s <+: path k := by simp
    exact .leave (h.stack_mem s List.mem_cons_self) (h.stack_container s List.mem_cons_self)
      (h.inside s List.mem_cons_self) h.above_inside (h.below_after hnext) (ih (h.leave hnext))
  | case3 k todo ih =>
    rw [visits]
    refine .enter (h.todo_mem k List.mem_cons_self) (h.before k List.mem_cons_self)
      (fun a ha hak => h.inside a (h.above_next a ha hak)) (ih ?_)
    exact h.enter hcontainer (by simp)
  | case4 s stack k todo hpre ih =>
    rw [visits, if_pos hpre]
    refine .enter (h.todo_mem k List.mem_cons_self) (h.before k List.mem_cons_self)
      (fun a ha hak => h.inside a (h.above_next a ha hak)) (ih ?_)
    exact h.enter hcontainer (by simpa using hpre)
  | case5 s stack k todo hpre ih =>
    rw [visits, if_neg hpre]
    have hnext : ∀ k' ∈ (k :: todo).head?, ¬ path s <+: path k' := by simpa using hpre
    exact .leave (h.stack_mem s List.mem_cons_self) (h.stack_container s List.mem_cons_self)
      (h.inside s List.mem_cons_self) h.above_inside (h.below_after hnext) (ih (h.leave hnext))

/-- **The visits of sorted keys are nested**, if every key with a key below it is a container. -/
theorem nested_visits [DecidableEq κ] (hsorted : keys.Pairwise fun a b => path a < path b)
    (hcontainer : ∀ a ∈ keys, ∀ d ∈ keys, Above path a d → container a = true) :
    Nested path container keys (fun _ => .before) (visits path container [] keys) := by
  refine Position.nested hcontainer ⟨hsorted, fun _ hk => hk, ?_, ?_, .nil, ?_, fun _ _ => rfl,
    ?_, fun k hk hout => absurd hk hout, fun _ _ a ha _ => Or.inl ha, ?_⟩
  all_goals exact fun a ha => absurd ha List.not_mem_nil

end

end QuicSync
