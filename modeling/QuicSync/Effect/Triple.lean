import QuicSync.Effect.Fallible

/-!
# Pre- and postconditions

`Triple P m Q E` says that the run of `m` from a state of `P` ends in a state of `Q` if it succeeds
and in a state of `E` if it fails.  The two postconditions differ where a success hands something
over that a failure has to clean up: `Triple.onError` is the rule for the clean-up.
-/

namespace QuicSync

/-- From a state of `P`, a success ends in a state of `Q` and a failure in one of `E`. -/
def Triple {ε σ α : Type} (P : σ → Prop) (m : Fallible ε σ α) (Q : α → σ → Prop) (E : σ → Prop) :
    Prop :=
  ∀ s, P s → (∀ a s', m.run s = (.ok a, s') → Q a s') ∧ ∀ e s', m.run s = (.error e, s') → E s'

namespace Triple

variable {ε σ τ α β : Type} {P P' E E' : σ → Prop} {m : Fallible ε σ α} {Q Q' : α → σ → Prop}
  {R : β → σ → Prop}

theorem mono (h : Triple P m Q E) (hP : ∀ s, P' s → P s) (hQ : ∀ a s, Q a s → Q' a s)
    (hE : ∀ s, E s → E' s) : Triple P' m Q' E' := by
  intro s hs
  obtain ⟨hok, herror⟩ := h s (hP s hs)
  exact ⟨fun a s' hrun => hQ a s' (hok a s' hrun), fun e s' hrun => hE s' (herror e s' hrun)⟩

/-- A computation that always succeeds. -/
theorem of_run {f : σ → α × σ} (hm : ∀ s, m.run s = (.ok (f s).1, (f s).2))
    (h : ∀ s, P s → Q (f s).1 (f s).2) : Triple P m Q E := by
  intro s hs
  rw [hm s]
  refine ⟨fun a s' hrun => ?_, fun e s' hrun => ?_⟩
  · cases hrun
    exact h s hs
  · cases hrun

theorem pure {a : α} (h : ∀ s, P s → Q a s) : Triple P (Pure.pure a : Fallible ε σ α) Q E :=
  of_run (f := fun s => (a, s)) (fun _ => rfl) h

theorem modify {f : σ → σ} {Q : Unit → σ → Prop} (h : ∀ s, P s → Q () (f s)) :
    Triple P (Fallible.modify f : Fallible ε σ Unit) Q E :=
  of_run (f := fun s => ((), f s)) (fun _ => rfl) h

theorem fail {e : ε} (h : ∀ s, P s → E s) : Triple P (Fallible.fail e : Fallible ε σ α) Q E := by
  intro s hs
  refine ⟨fun a s' hrun => ?_, fun e s' hrun => ?_⟩
  · cases hrun
  · cases hrun
    exact h s hs

/-- A result that does not depend on the state. -/
theorem lift {x : Except ε α} :
    Triple P (Fallible.lift x : Fallible ε σ α) (fun a s => P s ∧ x = .ok a) P := by
  intro s hs
  refine ⟨fun a s' hrun => ?_, fun e s' hrun => ?_⟩
  · cases hrun
    exact ⟨hs, rfl⟩
  · cases hrun
    exact hs

/-- A computation that leaves the state alone. -/
theorem of_state (h : ∀ s, (m.run s).2 = s) :
    Triple P m (fun a s => P s ∧ m.run s = (.ok a, s)) P := by
  intro s hs
  refine ⟨fun a s' hrun => ?_, fun e s' hrun => ?_⟩
  · obtain rfl : s = s' := by simpa [hrun] using (h s).symm
    exact ⟨hs, hrun⟩
  · obtain rfl : s = s' := by simpa [hrun] using (h s).symm
    exact hs

theorem bind {f : α → Fallible ε σ β} (hm : Triple P m Q E) (hf : ∀ a, Triple (Q a) (f a) R E) :
    Triple P (m >>= f) R E := by
  intro s hs
  obtain ⟨hok, herror⟩ := hm s hs
  refine ⟨fun b s'' hrun => ?_, fun e s'' hrun => ?_⟩
  · obtain ⟨a, s', hrun, hrest⟩ := Fallible.run_bind_ok_iff.1 hrun
    exact (hf a s' (hok a s' hrun)).1 b s'' hrest
  · obtain hrun | ⟨a, s', hrun, hrest⟩ := Fallible.run_bind_error_iff.1 hrun
    · exact herror e s'' hrun
    · exact (hf a s' (hok a s' hrun)).2 e s'' hrest

/-- The rest may use the state that is read. -/
theorem get_bind {f : σ → Fallible ε σ β}
    (h : ∀ t, P t → Triple (fun s => s = t) (f t) R E) :
    Triple P (Fallible.get >>= f) R E := by
  intro s hs
  exact h s hs s rfl

/-- What holds after a success and after a failure holds after the run. -/
theorem final {s : σ} (h : Triple P m (fun _ => E) E) (hs : P s) : E (m.run s).2 := by
  obtain ⟨hok, herror⟩ := h s hs
  cases hrun : m.run s with
  | mk r s' =>
    cases r with
    | ok a => exact hok a s' hrun
    | error e => exact herror e s' hrun

/-- The clean-up starts from where the failure has left off. -/
theorem onError {c : Fallible ε σ Unit} (hm : Triple P m Q E')
    (hc : Triple E' c (fun _ => E) E) : Triple P (m.onError c) Q E := by
  intro s hs
  obtain ⟨hok, herror⟩ := hm s hs
  refine ⟨fun a s' hrun => hok a s' (Fallible.run_onError_ok_iff.1 hrun), fun e s'' hrun => ?_⟩
  rw [Fallible.run_onError] at hrun
  cases hm : m.run s with
  | mk r s' =>
    rw [hm] at hrun
    cases r with
    | ok a => cases hrun
    | error e' =>
      cases hrun
      exact hc.final (herror _ _ hm)

/-- On a part of the state. -/
theorem zoom {part : τ → σ} {set : σ → τ → τ} {P : τ → Prop} {Q : α → τ → Prop} {E : τ → Prop}
    (h : ∀ t, P t → Triple (fun s => s = part t) m (fun a s => Q a (set s t)) fun s => E (set s t)) :
    Triple P (m.zoom part set) Q E := by
  intro t ht
  obtain ⟨hok, herror⟩ := h t ht (part t) rfl
  rw [Fallible.run_zoom]
  cases hrun : m.run (part t) with
  | mk r s' =>
    refine ⟨fun a t' heq => ?_, fun e t' heq => ?_⟩
    · cases heq
      exact hok a s' hrun
    · cases heq
      exact herror e s' hrun

end Triple

end QuicSync
