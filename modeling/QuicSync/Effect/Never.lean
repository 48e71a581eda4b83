import QuicSync.Grammar.Parses

/-!
# Computations that never fail in a given way

A state computation that may fail has errors that its callers handle and errors that no run may
end with.  `Never bad I m Q` says that from a state of `I` the run of `m` does not end with a bad
error, and that a run that succeeds ends in a state of `I` with a value of `Q`.  What `Q` says of a
value is what the next step relies on.
-/

namespace QuicSync

/-- From a state of `I` there is no bad error, and a success keeps `I` and gives a value of `Q`. -/
def Never {σ ε α : Type} (bad : ε → Prop) (I : σ → Prop) (m : StateT σ (Except ε) α)
    (Q : α → Prop) : Prop :=
  ∀ s, I s → (∀ e, m.run s = .error e → ¬ bad e) ∧ ∀ a s', m.run s = .ok (a, s') → Q a ∧ I s'

namespace Never

variable {σ ε α β : Type} {bad : ε → Prop} {I : σ → Prop} {m : StateT σ (Except ε) α}
  {Q : α → Prop} {R : β → Prop}

theorem pure {a : α} (h : Q a) : Never bad I (Pure.pure a : StateT σ (Except ε) α) Q := by
  intro s hs
  refine ⟨(fun e he => nomatch he), fun b s' hb => ?_⟩
  cases hb
  exact ⟨h, hs⟩

theorem bind {f : α → StateT σ (Except ε) β} (hm : Never bad I m Q)
    (hf : ∀ a, Q a → Never bad I (f a) R) : Never bad I (m >>= f) R := by
  intro s hs
  obtain ⟨herror, hok⟩ := hm s hs
  rw [StateT.run_bind]
  cases hrun : m.run s with
  | error e =>
    refine ⟨fun e' he' => ?_, (fun b s' hb => nomatch hb)⟩
    cases he'
    exact herror e hrun
  | ok r =>
    obtain ⟨a, s'⟩ := r
    obtain ⟨ha, hs'⟩ := hok a s' hrun
    exact hf a ha s' hs'

/-- A step that nothing is said about but that it is harmless. -/
theorem mono {Q' : α → Prop} (hm : Never bad I m Q) (h : ∀ a, Q a → Q' a) : Never bad I m Q' := by
  intro s hs
  obtain ⟨herror, hok⟩ := hm s hs
  refine ⟨herror, fun a s' hrun => ?_⟩
  obtain ⟨ha, hs'⟩ := hok a s' hrun
  exact ⟨h a ha, hs'⟩

/-- A result that does not depend on the state. -/
theorem lift {x : Except ε α} (herror : ∀ e, x = .error e → ¬ bad e)
    (hok : ∀ a, x = .ok a → Q a) : Never bad I (liftM x : StateT σ (Except ε) α) Q := by
  intro s hs
  refine ⟨fun e he => ?_, fun a s' hrun => ?_⟩
  · cases x with
    | error e' =>
      cases he
      exact herror e rfl
    | ok a => cases he
  · obtain ⟨hx, rfl⟩ := run_lift_eq_ok_iff.1 hrun
    exact ⟨hok a hx, hs⟩

theorem get : Never bad I (MonadState.get : StateT σ (Except ε) σ) fun _ => True := by
  intro s hs
  refine ⟨(fun e he => nomatch he), fun s₁ s' h => ?_⟩
  cases h
  exact ⟨trivial, hs⟩

end Never

end QuicSync
