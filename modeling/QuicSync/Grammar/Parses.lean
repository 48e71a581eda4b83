import QuicSync.Effect.Fallible

/-!
# Parsers of self-delimiting formats

A parser is a state computation that may fail; a `Cursor` says what is left to read in a state
and how a state moves on.  `Parses C p format Fits` says that `p` is an exact parser of the
format: from a good state it returns `a` if and only if `a` fits and `format a` is next, and it
moves on by exactly that.  One such equivalence holds both halves of a round trip: what is
written is read back, and what is read is what would be written.

The rules follow the shape of a parser: `Parses.pure`, `Parses.fail`, `Parses.seq` for one part
after another, `Parses.bind` for a field of a record (`proj` picks the field out of the whole
value), `Parses.map` for a constructor, `Parses.lift_bind` for a check that reads nothing, and
`Parses.congr` to restate the format and the side condition.
-/

namespace QuicSync

/-- What is left to read in a state, and how a state moves on. -/
structure Cursor (σ β : Type) where
  /-- The input that is left. -/
  rest : σ → List β
  /-- Move on by a number of items. -/
  advance : σ → ℕ → σ
  /-- The states in which a parser is run. -/
  Good : σ → Prop
  /-- Moving on drops from what is left. -/
  rest_advance : ∀ s n, rest (advance s n) = (rest s).drop n
  /-- Moving on by nothing stays. -/
  advance_zero : ∀ s, advance s 0 = s
  /-- Moving on twice. -/
  advance_advance : ∀ s m n, advance (advance s m) n = advance s (m + n)
  /-- Good states are left only by moving past the end. -/
  good_advance : ∀ s n, Good s → n ≤ (rest s).length → Good (advance s n)

variable {σ β ε α γ : Type} {C : Cursor σ β}

/-- `p` is an exact parser of `format` on the values satisfying `Fits`. -/
def Parses (C : Cursor σ β) (p : StateT σ (Except ε) α) (format : α → List β)
    (Fits : α → Prop) : Prop :=
  ∀ s, C.Good s → ∀ a s', p.run s = .ok (a, s') ↔
    Fits a ∧ format a <+: C.rest s ∧ s' = C.advance s (format a).length

/-- Inversion of sequencing. -/
theorem run_bind_eq_ok_iff {p : StateT σ (Except ε) α} {q : α → StateT σ (Except ε) γ}
    {s : σ} {c : γ} {s'' : σ} :
    (p >>= q).run s = .ok (c, s'') ↔
      ∃ a s', p.run s = .ok (a, s') ∧ (q a).run s' = .ok (c, s'') := by
  rw [StateT.run_bind, bind_eq_ok_iff]
  simp only [Prod.exists]

/-- Inversion of a lifted result: the state does not move. -/
theorem run_lift_eq_ok_iff {x : Except ε α} {s s' : σ} {a : α} :
    (liftM x : StateT σ (Except ε) α).run s = .ok (a, s') ↔ x = .ok a ∧ s' = s := by
  change StateT.run (StateT.lift x) s = _ ↔ _
  simp only [StateT.run_lift]
  cases x with
  | error e => simp [bind, Except.bind]
  | ok b =>
    simp only [bind, Except.bind, Pure.pure, Except.pure, Except.ok.injEq, Prod.mk.injEq]
    exact and_congr_right fun _ => eq_comm

/-- A format in two parts starts the input when its parts do, one after the other. -/
theorem append_prefix_iff {l₁ l₂ l : List β} :
    l₁ ++ l₂ <+: l ↔ l₁ <+: l ∧ l₂ <+: l.drop l₁.length := by
  constructor
  · rintro ⟨t, rfl⟩
    simp [List.append_assoc]
  · rintro ⟨⟨t, rfl⟩, h⟩
    simpa [List.prefix_append_right_inj] using h

namespace Parses

theorem pure (a₀ : α) : Parses C (Pure.pure a₀ : StateT σ (Except ε) α) (fun _ => []) (· = a₀) := by
  intro s _ a s'
  simp only [StateT.run_pure, List.nil_prefix, true_and, List.length_nil, C.advance_zero]
  constructor
  · intro h
    cases h
    exact ⟨rfl, rfl⟩
  · rintro ⟨rfl, rfl⟩
    rfl

theorem fail {p : StateT σ (Except ε) α} {format : α → List β} {Fits : α → Prop}
    (hp : ∀ s, ∃ e, p.run s = .error e) (hF : ∀ a, ¬ Fits a) : Parses C p format Fits := by
  intro s _ a s'
  obtain ⟨e, he⟩ := hp s
  simp [he, hF a]

theorem congr {p : StateT σ (Except ε) α} {format format' : α → List β} {Fits Fits' : α → Prop}
    (h : Parses C p format Fits) (hF : ∀ a, Fits' a ↔ Fits a)
    (hf : ∀ a, Fits a → format' a = format a) : Parses C p format' Fits' := by
  intro s hs a s'
  rw [h s hs, hF a]
  constructor
  · rintro ⟨ha, h⟩
    exact ⟨ha, by rwa [hf a ha]⟩
  · rintro ⟨ha, h⟩
    exact ⟨ha, by rwa [hf a ha] at h⟩

/-- One part, then the rest: `c` fits if some first part and the rest for it do. -/
theorem seq {p : StateT σ (Except ε) α} {q : α → StateT σ (Except ε) γ} {f : α → List β}
    {F : α → Prop} {g : α → γ → List β} {G : α → γ → Prop} {format : γ → List β} {H : γ → Prop}
    (hp : Parses C p f F) (hq : ∀ a, F a → Parses C (q a) (g a) (G a))
    (hH : ∀ c, H c ↔ ∃ a, F a ∧ G a c)
    (hformat : ∀ a c, F a → G a c → format c = f a ++ g a c) : Parses C (p >>= q) format H := by
  intro s hs c s''
  rw [run_bind_eq_ok_iff, hH]
  constructor
  · rintro ⟨a, s', ha, hc⟩
    obtain ⟨hF, hpre, rfl⟩ := (hp s hs a s').1 ha
    obtain ⟨hG, hpre', rfl⟩ := (hq a hF _ (C.good_advance s _ hs hpre.length_le) c _).1 hc
    rw [hformat a c hF hG, append_prefix_iff, List.length_append, ← C.advance_advance,
      ← C.rest_advance]
    exact ⟨⟨a, hF, hG⟩, ⟨hpre, hpre'⟩, rfl⟩
  · rintro ⟨⟨a, hF, hG⟩, hpre, rfl⟩
    rw [hformat a c hF hG, append_prefix_iff, ← C.rest_advance] at hpre
    refine ⟨a, _, (hp s hs _ _).2 ⟨hF, hpre.1, rfl⟩, ?_⟩
    rw [hformat a c hF hG, List.length_append, ← C.advance_advance]
    exact (hq a hF _ (C.good_advance s _ hs hpre.1.length_le) c _).2 ⟨hG, hpre.2, rfl⟩

/-- One field, then the rest: the field is the projection `proj` of the whole. -/
theorem bind {p : StateT σ (Except ε) α} {q : α → StateT σ (Except ε) γ} {f : α → List β}
    {F : α → Prop} {g : γ → List β} {G : γ → Prop} (proj : γ → α) (hp : Parses C p f F)
    (hq : ∀ a, F a → Parses C (q a) g fun c => G c ∧ proj c = a) :
    Parses C (p >>= q) (fun c => f (proj c) ++ g c) fun c => F (proj c) ∧ G c := by
  refine hp.seq hq (fun c => ?_) ?_
  · constructor
    · rintro ⟨hF, hG⟩
      exact ⟨proj c, hF, hG, rfl⟩
    · rintro ⟨_, hF, hG, rfl⟩
      exact ⟨hF, hG⟩
  · rintro _ c - ⟨-, rfl⟩
    rfl

/-- A parsed value under a constructor. -/
theorem map {p : StateT σ (Except ε) α} {f : α → List β} {F : α → Prop} (hp : Parses C p f F)
    (mk : α → γ) {g : γ → List β} {H : γ → Prop} (hH : ∀ c, H c ↔ ∃ a, F a ∧ c = mk a)
    (hg : ∀ a, F a → g (mk a) = f a) :
    Parses C (p >>= fun a => Pure.pure (mk a)) g H := by
  refine hp.seq (fun a _ => Parses.pure (mk a)) hH ?_
  rintro a _ hF rfl
  rw [hg a hF, List.append_nil]

/-- A result that reads nothing, before a parser. -/
theorem lift_bind {x : Except ε α} {q : α → StateT σ (Except ε) γ} {g : γ → List β}
    {G : α → γ → Prop} {H : γ → Prop} (hq : ∀ a, x = .ok a → Parses C (q a) g (G a))
    (hH : ∀ c, H c ↔ ∃ a, x = .ok a ∧ G a c) : Parses C (liftM x >>= q) g H := by
  intro s hs c s'
  rw [run_bind_eq_ok_iff, hH]
  constructor
  · rintro ⟨a, s₁, h₁, h₂⟩
    obtain ⟨hx, rfl⟩ := run_lift_eq_ok_iff.1 h₁
    obtain ⟨hG, hrest⟩ := (hq a hx _ hs c s').1 h₂
    exact ⟨⟨a, hx, hG⟩, hrest⟩
  · rintro ⟨⟨a, hx, hG⟩, hrest⟩
    exact ⟨a, s, run_lift_eq_ok_iff.2 ⟨hx, rfl⟩, (hq a hx _ hs c s').2 ⟨hG, hrest⟩⟩

/-- A result that reads nothing. -/
theorem lift {x : Except ε α} {F : α → Prop} (hx : ∀ a, x = .ok a ↔ F a) :
    Parses C (liftM x : StateT σ (Except ε) α) (fun _ => []) F := by
  intro s _ a s'
  rw [run_lift_eq_ok_iff, hx]
  simp [C.advance_zero]

/-- A parser that first consults a part of the state that is the same in all good states. -/
theorem get_bind {δ : Type} {v : σ → δ} {d : δ} {q : δ → StateT σ (Except ε) α}
    {format : α → List β} {F : α → Prop} (hv : ∀ s, C.Good s → v s = d)
    (hq : Parses C (q d) format F) : Parses C (do let s ← get; q (v s)) format F := by
  intro s hs a s'
  rw [← hq s hs a s', run_bind_eq_ok_iff]
  constructor
  · rintro ⟨_, _, hget, h⟩
    cases hget
    rwa [hv s hs] at h
  · intro h
    exact ⟨s, s, rfl, by rwa [hv s hs]⟩

end Parses

end QuicSync
