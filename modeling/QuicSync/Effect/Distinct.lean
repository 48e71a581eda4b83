import Mathlib.Data.List.Nodup
import Mathlib.Data.List.Forall2
import QuicSync.Effect.Fallible

/-!
# Collecting distinct values

A loop that reads values one after the other and fails at the first one that cannot be read or that
has been seen before.

* `collectDistinct_eq_ok_iff`: it returns the values exactly when all of them can be read, they are
  distinct and none of them has been seen.
* `exists_left_of_forall₂`, `exists_right_of_forall₂`: each value comes from an input, and each input
  gives a value.
* `find?_eq_some_iff_of_unique`: where at most one value has a property, a search finds it.
-/

namespace QuicSync

section

variable {ε α β : Type} [DecidableEq β]

/-- Read values that have not been seen and are distinct. -/
def collectDistinct (read : α → Except ε β) (duplicate : ε) :
    (seen : List β) → List α → Except ε (List β)
  | _, [] => .ok []
  | seen, a :: as => do
    let b ← read a
    if b ∈ seen then .error duplicate
    else do
      let bs ← collectDistinct read duplicate (b :: seen) as
      .ok (b :: bs)

/-- What is collected, and when. -/
theorem collectDistinct_eq_ok_iff {read : α → Except ε β} {duplicate : ε} {seen bs : List β}
    {as : List α} :
    collectDistinct read duplicate seen as = .ok bs ↔
      List.Forall₂ (fun a b => read a = .ok b) as bs ∧ bs.Nodup ∧ ∀ b ∈ bs, b ∉ seen := by
  induction as generalizing seen bs with
  | nil =>
    simp only [collectDistinct, Except.ok.injEq, List.forall₂_nil_left_iff]
    constructor
    · rintro rfl
      exact ⟨rfl, List.nodup_nil, fun b hb => absurd hb List.not_mem_nil⟩
    · rintro ⟨rfl, -⟩
      rfl
  | cons a as ih =>
    simp only [collectDistinct, bind_eq_ok_iff, List.forall₂_cons_left_iff]
    constructor
    · rintro ⟨b, hread, hrest⟩
      split at hrest
      · cases hrest
      rename_i hb
      obtain ⟨bs', hcollect, heq⟩ := (bind_eq_ok_iff ..).1 hrest
      obtain rfl := Except.ok.inj heq
      obtain ⟨hall, hnodup, hseen⟩ := ih.1 hcollect
      simp only [List.mem_cons, not_or] at hseen
      refine ⟨⟨b, bs', hread, hall, rfl⟩, List.nodup_cons.2 ⟨fun h => (hseen b h).1 rfl, hnodup⟩, ?_⟩
      rw [List.forall_mem_cons]
      exact ⟨hb, fun c hc => (hseen c hc).2⟩
    · rintro ⟨⟨b, bs', hread, hall, rfl⟩, hnodup, hseen⟩
      rw [List.forall_mem_cons] at hseen
      rw [List.nodup_cons] at hnodup
      refine ⟨b, hread, ?_⟩
      rw [if_neg hseen.1, bind_eq_ok_iff]
      refine ⟨bs', ih.2 ⟨hall, hnodup.2, fun c hc => ?_⟩, rfl⟩
      rw [List.mem_cons, not_or]
      refine ⟨?_, hseen.2 c hc⟩
      rintro rfl
      exact hnodup.1 hc

end

section

variable {α β : Type} {R : α → β → Prop} {as : List α} {bs : List β}

theorem exists_right_of_forall₂ (h : List.Forall₂ R as bs) {a : α} (ha : a ∈ as) :
    ∃ b ∈ bs, R a b := by
  induction h with
  | nil => cases ha
  | cons hab _ ih =>
    rcases List.mem_cons.1 ha with rfl | ha
    · exact ⟨_, List.mem_cons_self, hab⟩
    · obtain ⟨b, hb, hR⟩ := ih ha
      exact ⟨b, List.mem_cons_of_mem _ hb, hR⟩

theorem exists_left_of_forall₂ (h : List.Forall₂ R as bs) {b : β} (hb : b ∈ bs) :
    ∃ a ∈ as, R a b := by
  have hflip : List.Forall₂ (flip R) bs as := List.Forall₂.flip (R := flip R) h
  exact exists_right_of_forall₂ hflip hb

theorem find?_eq_some_iff_of_unique {P : α → Bool} {a : α}
    (h : ∀ b ∈ as, ∀ c ∈ as, P b = true → P c = true → b = c) :
    as.find? P = some a ↔ a ∈ as ∧ P a = true := by
  constructor
  · intro hfind
    exact ⟨List.mem_of_find?_eq_some hfind, List.find?_some hfind⟩
  · rintro ⟨hmem, hP⟩
    rcases hfind : as.find? P with _ | b
    · exact absurd hP (List.find?_eq_none.1 hfind a hmem)
    · rw [h b (List.mem_of_find?_eq_some hfind) a hmem (List.find?_some hfind) hP]

end

end QuicSync
