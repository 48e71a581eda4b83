import Mathlib.Tactic.Common

/-!
# Computations that may fail and keep the state they reached

`Fallible ε σ α` is a computation over a state `σ` that returns a value or fails with an `ε`.  A
failure keeps the state reached so far, as a program that returns early keeps the effects of what
it has done.

* `Fallible.onError` runs a clean-up when a computation fails.
* `KeepsAt R m s` and `Keeps R m` say that a run of `m` relates the state before it to the state
  after it by `R`, whether it succeeds or fails.  For a reflexive and transitive `R` it goes through
  every way of putting computations together, so an invariant of a program is one of its smallest
  steps.
* `Refuses R m s` says in addition that the run fails.
-/

namespace QuicSync

/-- Inversion of sequencing for results. -/
theorem bind_eq_ok_iff {ε α γ : Type} {x : Except ε α} {f : α → Except ε γ} {c : γ} :
    (x >>= f) = .ok c ↔ ∃ a, x = .ok a ∧ f a = .ok c := by
  cases x <;> simp [bind, Except.bind]

/-- A computation over a state that may fail. -/
def Fallible (ε σ α : Type) : Type := σ → Except ε α × σ

namespace Fallible

variable {ε σ τ α β : Type}

/-- Run a computation. -/
def run (m : Fallible ε σ α) (s : σ) : Except ε α × σ := m s

instance : Monad (Fallible ε σ) where
  pure a := fun s => (.ok a, s)
  bind m f := fun s =>
    match m s with
    | (.ok a, s') => f a s'
    | (.error e, s') => (.error e, s')

/-- Fail. -/
def fail (e : ε) : Fallible ε σ α := fun s => (.error e, s)

/-- A result that does not depend on the state. -/
def lift (x : Except ε α) : Fallible ε σ α := fun s => (x, s)

/-- Read the state. -/
def get : Fallible ε σ σ := fun s => (.ok s, s)

/-- Change the state. -/
def modify (f : σ → σ) : Fallible ε σ Unit := fun s => (.ok (), f s)

/-- Run `m`, and `cleanup` after it if it fails; the failure stays. -/
def onError (m : Fallible ε σ α) (cleanup : Fallible ε σ Unit) : Fallible ε σ α := fun s =>
  match m s with
  | (.ok a, s') => (.ok a, s')
  | (.error e, s') => (.error e, (cleanup s').2)

/-- A computation on a part of the state. -/
def zoom (part : τ → σ) (set : σ → τ → τ) (m : Fallible ε σ α) : Fallible ε τ α := fun t =>
  ((m (part t)).1, set (m (part t)).2 t)

@[simp] theorem run_pure (a : α) (s : σ) : (pure a : Fallible ε σ α).run s = (.ok a, s) := rfl

@[simp] theorem run_fail (e : ε) (s : σ) : (fail e : Fallible ε σ α).run s = (.error e, s) := rfl

@[simp] theorem run_lift (x : Except ε α) (s : σ) : (lift x : Fallible ε σ α).run s = (x, s) := rfl

@[simp] theorem run_get (s : σ) : (get : Fallible ε σ σ).run s = (.ok s, s) := rfl

@[simp] theorem run_modify (f : σ → σ) (s : σ) :
    (modify f : Fallible ε σ Unit).run s = (.ok (), f s) := rfl

theorem run_bind (m : Fallible ε σ α) (f : α → Fallible ε σ β) (s : σ) :
    (m >>= f).run s = match m.run s with
      | (.ok a, s') => (f a).run s'
      | (.error e, s') => (.error e, s') := rfl

theorem run_bind_ok {m : Fallible ε σ α} {f : α → Fallible ε σ β} {s s' : σ} {a : α}
    (h : m.run s = (.ok a, s')) : (m >>= f).run s = (f a).run s' := by
  rw [run_bind, h]

theorem run_bind_error {m : Fallible ε σ α} {f : α → Fallible ε σ β} {s s' : σ} {e : ε}
    (h : m.run s = (.error e, s')) : (m >>= f).run s = (.error e, s') := by
  rw [run_bind, h]

theorem bind_assoc {γ : Type} (m : Fallible ε σ α) (f : α → Fallible ε σ β)
    (g : β → Fallible ε σ γ) : (m >>= f) >>= g = m >>= fun a => f a >>= g := by
  funext s
  change Fallible.run _ s = Fallible.run _ s
  cases h : m.run s with
  | mk r s' =>
    cases r with
    | ok a => rw [run_bind_ok h, run_bind, run_bind_ok h, run_bind]
    | error e => rw [run_bind_error h, run_bind, run_bind_error h]

/-- Inversion of sequencing. -/
theorem run_bind_ok_iff {m : Fallible ε σ α} {f : α → Fallible ε σ β} {s s'' : σ} {b : β} :
    (m >>= f).run s = (.ok b, s'') ↔
      ∃ a s', m.run s = (.ok a, s') ∧ (f a).run s' = (.ok b, s'') := by
  cases h : m.run s with
  | mk r s' =>
    cases r with
    | ok a => simp [run_bind_ok h]
    | error e => simp [run_bind_error h]

theorem run_bind_error_iff {m : Fallible ε σ α} {f : α → Fallible ε σ β} {s s'' : σ} {e : ε} :
    (m >>= f).run s = (.error e, s'') ↔ m.run s = (.error e, s'') ∨
      ∃ a s', m.run s = (.ok a, s') ∧ (f a).run s' = (.error e, s'') := by
  cases h : m.run s with
  | mk r s' =>
    cases r with
    | ok a => simp [run_bind_ok h]
    | error e => simp [run_bind_error h]

/-- A computation that ends well has a value. -/
theorem exists_ok {m : Fallible ε σ α} {s : σ} (h : (m.run s).1.isOk = true) :
    ∃ a, m.run s = (.ok a, (m.run s).2) := by
  cases hrun : m.run s with
  | mk r s' =>
    rw [hrun] at h
    cases r with
    | ok a => exact ⟨a, rfl⟩
    | error e => cases h

theorem run_onError (m : Fallible ε σ α) (c : Fallible ε σ Unit) (s : σ) :
    (m.onError c).run s = match m.run s with
      | (.ok a, s') => (.ok a, s')
      | (.error e, s') => (.error e, (c.run s').2) := rfl

theorem run_onError_ok {m : Fallible ε σ α} {c : Fallible ε σ Unit} {s s' : σ} {a : α}
    (h : m.run s = (.ok a, s')) : (m.onError c).run s = (.ok a, s') := by
  rw [run_onError, h]

theorem run_onError_error {m : Fallible ε σ α} {c : Fallible ε σ Unit} {s s' : σ} {e : ε}
    (h : m.run s = (.error e, s')) : (m.onError c).run s = (.error e, (c.run s').2) := by
  rw [run_onError, h]

/-- A clean-up makes no success. -/
theorem run_onError_ok_iff {m : Fallible ε σ α} {c : Fallible ε σ Unit} {s s' : σ} {a : α} :
    (m.onError c).run s = (.ok a, s') ↔ m.run s = (.ok a, s') := by
  refine ⟨fun h => ?_, run_onError_ok⟩
  cases hm : m.run s with
  | mk r s₁ =>
    cases r with
    | ok b => rwa [run_onError_ok hm] at h
    | error e =>
      rw [run_onError_error hm] at h
      cases h

theorem run_zoom {part : τ → σ} {set : σ → τ → τ} (m : Fallible ε σ α) (t : τ) :
    (m.zoom part set).run t = ((m.run (part t)).1, set (m.run (part t)).2 t) := rfl

end Fallible

/-! ### What a run keeps -/

/-- A run from `s` relates `s` to the state after it. -/
def KeepsAt {ε σ α : Type} (R : σ → σ → Prop) (m : Fallible ε σ α) (s : σ) : Prop :=
  R s (m.run s).2

/-- A run relates the state before it to the state after it. -/
def Keeps {ε σ α : Type} (R : σ → σ → Prop) (m : Fallible ε σ α) : Prop := ∀ s, KeepsAt R m s

section

variable {ε σ τ α β : Type} {R : σ → σ → Prop}

theorem KeepsAt.bind (ht : ∀ s t u, R s t → R t u → R s u) {m : Fallible ε σ α}
    {f : α → Fallible ε σ β} {s : σ} (hm : KeepsAt R m s)
    (hf : ∀ a s', m.run s = (.ok a, s') → KeepsAt R (f a) s') : KeepsAt R (m >>= f) s := by
  unfold KeepsAt at hm ⊢
  cases h : m.run s with
  | mk r s' =>
    rw [h] at hm
    cases r with
    | ok a =>
      rw [Fallible.run_bind_ok h]
      exact ht _ _ _ hm (hf a s' h)
    | error e => rwa [Fallible.run_bind_error h]

theorem KeepsAt.onError (ht : ∀ s t u, R s t → R t u → R s u) {m : Fallible ε σ α}
    {c : Fallible ε σ Unit} {s : σ} (hm : KeepsAt R m s) (hc : Keeps R c) :
    KeepsAt R (m.onError c) s := by
  unfold KeepsAt at hm ⊢
  cases h : m.run s with
  | mk r s' =>
    rw [h] at hm
    cases r with
    | ok a => rwa [Fallible.run_onError_ok h]
    | error e =>
      rw [Fallible.run_onError_error h]
      exact ht _ _ _ hm (hc s')

theorem Keeps.pure (hr : ∀ s, R s s) (a : α) : Keeps R (Pure.pure a : Fallible ε σ α) :=
  fun s => hr s

theorem Keeps.fail (hr : ∀ s, R s s) (e : ε) : Keeps R (Fallible.fail e : Fallible ε σ α) :=
  fun s => hr s

theorem Keeps.lift (hr : ∀ s, R s s) (x : Except ε α) :
    Keeps R (Fallible.lift x : Fallible ε σ α) :=
  fun s => hr s

theorem Keeps.get (hr : ∀ s, R s s) : Keeps R (Fallible.get : Fallible ε σ σ) := fun s => hr s

theorem Keeps.bind (ht : ∀ s t u, R s t → R t u → R s u) {m : Fallible ε σ α}
    {f : α → Fallible ε σ β} (hm : Keeps R m) (hf : ∀ a, Keeps R (f a)) : Keeps R (m >>= f) :=
  fun s => KeepsAt.bind ht (hm s) fun a s' _ => hf a s'

theorem Keeps.onError (ht : ∀ s t u, R s t → R t u → R s u) {m : Fallible ε σ α}
    {c : Fallible ε σ Unit} (hm : Keeps R m) (hc : Keeps R c) : Keeps R (m.onError c) :=
  fun s => KeepsAt.onError ht (hm s) hc

theorem Keeps.zoom {Q : τ → τ → Prop} {part : τ → σ} {set : σ → τ → τ} {m : Fallible ε σ α}
    (hm : Keeps R m) (hset : ∀ t s, R (part t) s → Q t (set s t)) : Keeps Q (m.zoom part set) :=
  fun t => hset t _ (hm (part t))

end

/-! ### Computations that cannot succeed -/

/-- A run from `s` fails, in a state related to `s`. -/
def Refuses {ε σ α : Type} (R : σ → σ → Prop) (m : Fallible ε σ α) (s : σ) : Prop :=
  ∃ e s', m.run s = (.error e, s') ∧ R s s'

section

variable {ε σ α β : Type} {R : σ → σ → Prop} {s : σ}

/-- A step that keeps the relation, before one that fails. -/
theorem Refuses.bind (ht : ∀ s t u, R s t → R t u → R s u) {m : Fallible ε σ α}
    {f : α → Fallible ε σ β} (hm : KeepsAt R m s)
    (hf : ∀ a s', m.run s = (.ok a, s') → Refuses R (f a) s') : Refuses R (m >>= f) s := by
  unfold KeepsAt at hm
  cases h : m.run s with
  | mk r s' =>
    rw [h] at hm
    cases r with
    | ok a =>
      obtain ⟨e, s'', hrun, hR⟩ := hf a s' h
      exact ⟨e, s'', by rw [Fallible.run_bind_ok h, hrun], ht _ _ _ hm hR⟩
    | error e => exact ⟨e, s', Fallible.run_bind_error h, hm⟩

theorem Refuses.left {m : Fallible ε σ α} {f : α → Fallible ε σ β} (h : Refuses R m s) :
    Refuses R (m >>= f) s := by
  obtain ⟨e, s', hrun, hR⟩ := h
  exact ⟨e, s', Fallible.run_bind_error hrun, hR⟩

theorem Refuses.onError (ht : ∀ s t u, R s t → R t u → R s u) {m : Fallible ε σ α}
    {c : Fallible ε σ Unit} (h : Refuses R m s) (hc : Keeps R c) : Refuses R (m.onError c) s := by
  obtain ⟨e, s', hrun, hR⟩ := h
  exact ⟨e, _, Fallible.run_onError_error hrun, ht _ _ _ hR (hc s')⟩

end

end QuicSync
