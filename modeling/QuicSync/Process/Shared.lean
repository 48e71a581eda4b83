import Mathlib.Data.List.Induction
import Mathlib.Logic.Relation
import Mathlib.Order.WellFounded
import QuicSync.Process.Tasks

/-!
# What tasks share

Things that several tasks of a machine wait for, and two rules for runs of a machine besides the
invariant rule.

* `Channel.receive_none` and `Channel.send_none`: when a task waits at a channel.
* `Semaphore`: permits that tasks acquire and give back; `Semaphore.Open` accounts for them.
* `OnceCell`: a value that one task computes while the others wait for it.
* `trace_invariant`: what a state and the events that led to it have to do with each other.
* `reaches_of_progress`: where every state that is not final has a step that brings it nearer to the
  end, a final state can be reached.
-/

namespace QuicSync

/-! ### Runs -/

section

variable {σ ε : Type}

/-- **The rule for histories**: a relation between the events so far and the state, that holds at the
start and is kept by every step. -/
theorem trace_invariant {step : σ → ε → Option σ} {I : List ε → σ → Prop} {s s' : σ}
    {events : List ε} (hrun : events.foldlM step s = some s') (hs : I [] s)
    (hstep : ∀ past s e s', I past s → step s e = some s' → I (past ++ [e]) s') : I events s' := by
  induction events using List.reverseRecOn generalizing s' with
  | nil =>
    cases hrun
    exact hs
  | append_singleton past e ih =>
    rw [List.foldlM_append] at hrun
    obtain ⟨s₁, hs₁, hlast⟩ := Option.bind_eq_some_iff.1 hrun
    have hlast' : step s₁ e = some s' := by simpa using hlast
    exact hstep past s₁ e s' (ih hs₁) hlast'

/-- **The progress rule**: if every state with `I` that is not final has a step to one with `I` that
is nearer to the end, then a final state is reached from every state with `I`. -/
theorem reaches_of_progress {next nearer : σ → σ → Prop} {I final : σ → Prop}
    (hwf : WellFounded nearer)
    (hnext : ∀ s, I s → ¬ final s → ∃ s', next s s' ∧ I s' ∧ nearer s' s) {s : σ} (hs : I s) :
    ∃ s', Relation.ReflTransGen next s s' ∧ I s' ∧ final s' := by
  induction s using hwf.induction with
  | _ s ih =>
    by_cases hfinal : final s
    · exact ⟨s, Relation.ReflTransGen.refl, hs, hfinal⟩
    · obtain ⟨s₁, hstep, hs₁, hnearer⟩ := hnext s hs hfinal
      obtain ⟨s', hrest, hs', hfinal'⟩ := ih s₁ hnearer hs₁
      exact ⟨s', Relation.ReflTransGen.head hstep hrest, hs', hfinal'⟩

end

/-! ### Channels on which a task waits -/

namespace Channel

variable {n : ℕ} {α : Type} {c : Channel n α}

/-- A receiver waits only for a sender that is there. -/
theorem receive_none (h : c.receive = none) : c.queue = [] ∧ c.closed = false := by
  unfold receive at h
  split at h
  · cases h
  · cases h
  · exact ⟨rfl, rfl⟩

/-- A sender waits only for a receiver that is there, and while the queue is full. -/
theorem send_none {a : α} (h : c.send a = none) : c.closed = false ∧ n ≤ c.queue.length := by
  unfold send at h
  split at h
  · cases h
  · rename_i hclosed
    split at h
    · cases h
    · rename_i hfull
      exact ⟨Bool.eq_false_iff.2 hclosed, not_lt.1 hfull⟩

end Channel

/-! ### Semaphores -/

/-- A number of permits.  A mutex is a semaphore with one of them. -/
structure Semaphore where
  permits : ℕ
  closed : Bool
  deriving DecidableEq

namespace Semaphore

def new (n : ℕ) : Semaphore := ⟨n, false⟩

/-- Acquire a permit.  The task waits while there is none; an error says that there will not be one
any more. -/
def acquire : Semaphore → Option (Except Unit Semaphore)
  | ⟨_, true⟩ => some (.error ())
  | ⟨0, false⟩ => none
  | ⟨n + 1, false⟩ => some (.ok ⟨n, false⟩)

/-- Give a permit back. -/
def release (s : Semaphore) : Semaphore := { s with permits := s.permits + 1 }

/-- A semaphore in use: `held` of its `n` permits have been acquired, and the others are there. -/
structure Open (s : Semaphore) (n held : ℕ) : Prop where
  closed : s.closed = false
  permits : s.permits + held = n

variable {s s' : Semaphore} {n held : ℕ}

theorem open_new (n : ℕ) : (new n).Open n 0 := ⟨rfl, rfl⟩

theorem Open.acquire_ok (h : s.Open n held) (hacquire : s.acquire = some (.ok s')) :
    s'.Open n (held + 1) := by
  obtain ⟨permits, closed⟩ := s
  obtain ⟨hclosed, hpermits⟩ := h
  cases hclosed
  match permits, hacquire, hpermits with
  | k + 1, hacquire, hpermits =>
    cases hacquire
    refine ⟨rfl, ?_⟩
    simp only at hpermits ⊢
    omega

/-- The permits of a semaphore in use do not come to an end. -/
theorem Open.acquire_ne_error (h : s.Open n held) {e : Unit} : s.acquire ≠ some (.error e) := by
  obtain ⟨permits, closed⟩ := s
  obtain ⟨hclosed, -⟩ := h
  cases hclosed
  cases permits with
  | zero =>
    intro hacquire
    cases hacquire
  | succ k =>
    intro hacquire
    cases hacquire

/-- A task waits for a permit exactly while all of them are held. -/
theorem Open.acquire_eq_none_iff (h : s.Open n held) : s.acquire = none ↔ held = n := by
  obtain ⟨permits, closed⟩ := s
  obtain ⟨hclosed, hpermits⟩ := h
  cases hclosed
  cases permits with
  | zero =>
    simp only [acquire, true_iff]
    simp only at hpermits
    omega
  | succ k =>
    simp only [acquire, reduceCtorEq, false_iff]
    simp only at hpermits
    omega

theorem Open.release (h : s.Open n (held + 1)) : s.release.Open n held := by
  obtain ⟨hclosed, hpermits⟩ := h
  refine ⟨hclosed, ?_⟩
  show s.permits + 1 + held = n
  omega

end Semaphore

/-! ### Values that are computed once -/

/-- A value that the first task which needs it computes.  The others wait; if the computation fails
or is given up the next of them starts it again. -/
inductive OnceCell (α : Type) where
  | empty
  | initializing
  | initialized (value : α)
  deriving DecidableEq

namespace OnceCell

variable {α : Type}

def get : OnceCell α → Option α
  | initialized value => some value
  | _ => none

end OnceCell

end QuicSync
