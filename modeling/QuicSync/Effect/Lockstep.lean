import QuicSync.Effect.Fallible

/-!
# Two runs side by side

`Lockstep Q E m s m' t` says that the run of `m` from `s` and the run of `m'` from `t` have the same
outcome: both succeed, with values and states related by `Q`, or both fail with the same error, in
states related by `E`.  It goes through every way of putting computations together, so two runs of
a program agree if its smallest steps do.

The relation for failures is a different one because a failure may leave more behind than a success
does.
-/

namespace QuicSync

/-- Two runs both succeed, or both fail with one error. -/
def Lockstep {ε σ τ α β : Type} (Q : α → β → σ → τ → Prop) (E : σ → τ → Prop)
    (m : Fallible ε σ α) (s : σ) (m' : Fallible ε τ β) (t : τ) : Prop :=
  (∃ a b s' t', m.run s = (.ok a, s') ∧ m'.run t = (.ok b, t') ∧ Q a b s' t') ∨
    ∃ e s' t', m.run s = (.error e, s') ∧ m'.run t = (.error e, t') ∧ E s' t'

namespace Lockstep

variable {ε σ τ σ₁ τ₁ α β α' β' : Type} {Q : α → β → σ → τ → Prop} {E : σ → τ → Prop}
  {m : Fallible ε σ α} {m' : Fallible ε τ β} {s : σ} {t : τ}

theorem of_ok {a : α} {b : β} {s' : σ} {t' : τ} (h : m.run s = (.ok a, s'))
    (h' : m'.run t = (.ok b, t')) (hQ : Q a b s' t') : Lockstep Q E m s m' t :=
  Or.inl ⟨a, b, s', t', h, h', hQ⟩

theorem of_error {e : ε} {s' : σ} {t' : τ} (h : m.run s = (.error e, s'))
    (h' : m'.run t = (.error e, t')) (hE : E s' t') : Lockstep Q E m s m' t :=
  Or.inr ⟨e, s', t', h, h', hE⟩

theorem pure {a : α} {b : β} (h : Q a b s t) :
    Lockstep Q E (Pure.pure a : Fallible ε σ α) s (Pure.pure b : Fallible ε τ β) t :=
  of_ok rfl rfl h

theorem fail {e : ε} (h : E s t) :
    Lockstep Q E (Fallible.fail e : Fallible ε σ α) s (Fallible.fail e : Fallible ε τ β) t :=
  of_error rfl rfl h

/-- First parts that succeed. -/
theorem after {Q' : α' → β' → σ → τ → Prop} {f : α → Fallible ε σ α'} {f' : β → Fallible ε τ β'}
    {a : α} {b : β} {s' : σ} {t' : τ} (h : m.run s = (.ok a, s')) (h' : m'.run t = (.ok b, t'))
    (hf : Lockstep Q' E (f a) s' (f' b) t') : Lockstep Q' E (m >>= f) s (m' >>= f') t := by
  unfold Lockstep at hf ⊢
  rwa [Fallible.run_bind_ok h, Fallible.run_bind_ok h']

theorem bind {Q' : α' → β' → σ → τ → Prop} {f : α → Fallible ε σ α'} {f' : β → Fallible ε τ β'}
    (h : Lockstep Q E m s m' t)
    (hf : ∀ a b s' t', Q a b s' t' → Lockstep Q' E (f a) s' (f' b) t') :
    Lockstep Q' E (m >>= f) s (m' >>= f') t := by
  obtain ⟨a, b, s', t', hm, hm', hQ⟩ | ⟨e, s', t', hm, hm', hE⟩ := h
  · exact after hm hm' (hf a b s' t' hQ)
  · exact of_error (Fallible.run_bind_error hm) (Fallible.run_bind_error hm') hE

/-- A result that depends on neither state. -/
theorem bind_lift {γ : Type} {x : Except ε γ} {f : γ → Fallible ε σ α} {f' : γ → Fallible ε τ β}
    (h : ∀ c, x = .ok c → Lockstep Q E (f c) s (f' c) t) (hE : E s t) :
    Lockstep Q E (Fallible.lift x >>= f) s (Fallible.lift x >>= f') t := by
  cases x with
  | ok c => exact after (Fallible.run_lift _ _) (Fallible.run_lift _ _) (h c rfl)
  | error e =>
    exact of_error (Fallible.run_bind_error (Fallible.run_lift _ _))
      (Fallible.run_bind_error (Fallible.run_lift _ _)) hE

theorem mono {Q' : α → β → σ → τ → Prop} {E' : σ → τ → Prop} (h : Lockstep Q E m s m' t)
    (hQ : ∀ a b s' t', Q a b s' t' → Q' a b s' t') (hE : ∀ s' t', E s' t' → E' s' t') :
    Lockstep Q' E' m s m' t := by
  obtain ⟨a, b, s', t', hm, hm', hpost⟩ | ⟨e, s', t', hm, hm', hpost⟩ := h
  · exact of_ok hm hm' (hQ a b s' t' hpost)
  · exact of_error hm hm' (hE s' t' hpost)

/-- After a failure the clean-ups run, which need not do the same. -/
theorem onError {E' : σ → τ → Prop} {c : Fallible ε σ Unit} {c' : Fallible ε τ Unit}
    (h : Lockstep Q E m s m' t) (hc : ∀ s' t', E s' t' → E' (c.run s').2 (c'.run t').2) :
    Lockstep Q E' (m.onError c) s (m'.onError c') t := by
  obtain ⟨a, b, s', t', hm, hm', hQ⟩ | ⟨e, s', t', hm, hm', hE⟩ := h
  · exact of_ok (Fallible.run_onError_ok hm) (Fallible.run_onError_ok hm') hQ
  · exact of_error (Fallible.run_onError_error hm) (Fallible.run_onError_error hm')
      (hc s' t' hE)

/-- Computations on a part of the state. -/
theorem zoom {part : σ₁ → σ} {set : σ → σ₁ → σ₁} {part' : τ₁ → τ} {set' : τ → τ₁ → τ₁} {s : σ₁}
    {t : τ₁} (h : Lockstep Q E m (part s) m' (part' t)) :
    Lockstep (fun a b s' t' => ∃ x y, Q a b x y ∧ s' = set x s ∧ t' = set' y t)
      (fun s' t' => ∃ x y, E x y ∧ s' = set x s ∧ t' = set' y t) (m.zoom part set) s
      (m'.zoom part' set') t := by
  obtain ⟨a, b, x, y, hm, hm', hQ⟩ | ⟨e, x, y, hm, hm', hE⟩ := h
  · refine Or.inl ⟨a, b, set x s, set' y t, ?_, ?_, x, y, hQ, rfl, rfl⟩
    · rw [Fallible.run_zoom, hm]
    · rw [Fallible.run_zoom, hm']
  · refine Or.inr ⟨e, set x s, set' y t, ?_, ?_, x, y, hE, rfl, rfl⟩
    · rw [Fallible.run_zoom, hm]
    · rw [Fallible.run_zoom, hm']

end Lockstep

end QuicSync
