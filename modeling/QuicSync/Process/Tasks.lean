import Mathlib.Data.List.Basic
import Mathlib.Tactic.Common

/-!
# Concurrent tasks

A program of several tasks is a machine here.  Its steps are events: at each event one of the tasks,
or the environment, does something, and `step s e` is none where the event cannot happen in `s`
because the task waits or has returned.  A run is a list of events, so what holds of all runs holds
for every order in which tasks are scheduled and inputs arrive.

* `Reaches.invariant`: what every step keeps holds in every state that is reached.
* `exists_split`: the tasks of a set are a list, and one of them goes or is replaced.
* `Channel`: a bounded queue between two tasks; either end may be gone.
-/

namespace QuicSync

/-! ### Runs -/

section

variable {σ ε : Type}

/-- Some run leads from `s` to `s'`. -/
def Reaches (step : σ → ε → Option σ) (s s' : σ) : Prop :=
  ∃ events : List ε, events.foldlM step s = some s'

namespace Reaches

variable {step : σ → ε → Option σ} {s s' s'' : σ}

theorem refl (step : σ → ε → Option σ) (s : σ) : Reaches step s s := ⟨[], rfl⟩

theorem tail {e : ε} (h : Reaches step s s') (hstep : step s' e = some s'') :
    Reaches step s s'' := by
  obtain ⟨events, hrun⟩ := h
  refine ⟨events ++ [e], ?_⟩
  rw [List.foldlM_append, hrun]
  simp [hstep]

/-- **The invariant rule**: what holds at the start and is kept by every step holds of every state
that is reached. -/
theorem invariant {I : σ → Prop} (h : Reaches step s s') (hs : I s)
    (hstep : ∀ s e s', I s → step s e = some s' → I s') : I s' := by
  obtain ⟨events, hrun⟩ := h
  induction events generalizing s with
  | nil =>
    cases hrun
    exact hs
  | cons e events ih =>
    rw [List.foldlM_cons] at hrun
    obtain ⟨s₁, hs₁, hrest⟩ := Option.bind_eq_some_iff.1 hrun
    exact ih (hstep s e s₁ hs hs₁) hrest

end Reaches

end

/-! ### Tasks in a set -/

/-- A task of a set, between the tasks before it and the tasks behind it. -/
theorem exists_split {α : Type} {l : List α} {i : ℕ} {a : α} (h : l[i]? = some a) :
    ∃ l₁ l₂, l = l₁ ++ a :: l₂ ∧ (∀ b, l.set i b = l₁ ++ b :: l₂) ∧ l.eraseIdx i = l₁ ++ l₂ := by
  induction l generalizing i with
  | nil => cases h
  | cons x l ih =>
    cases i with
    | zero =>
      cases h
      exact ⟨[], l, rfl, fun _ => rfl, rfl⟩
    | succ i =>
      obtain ⟨l₁, l₂, rfl, hset, herase⟩ := ih h
      exact ⟨x :: l₁, l₂, rfl, fun b => congrArg _ (hset b), congrArg _ herase⟩

/-! ### Channels -/

/-- A queue of at most `n` items between two tasks. -/
structure Channel (n : ℕ) (α : Type) where
  queue : List α
  bounded : queue.length ≤ n
  /-- The tasks at one of the ends have gone. -/
  closed : Bool

namespace Channel

variable {n : ℕ} {α : Type}

def empty (n : ℕ) (α : Type) : Channel n α := ⟨[], Nat.zero_le n, false⟩

/-- Send an item.  The sender waits while the queue is full; an error says that the receiver has
gone. -/
def send (c : Channel n α) (a : α) : Option (Except Unit (Channel n α)) :=
  if c.closed then some (.error ())
  else if h : c.queue.length < n then
    some (.ok ⟨c.queue ++ [a], by rw [List.length_append]; exact h, false⟩)
  else none

/-- Receive an item.  The receiver waits while the queue is empty; `some none` says that the sender
has gone and everything it sent has been received. -/
def receive (c : Channel n α) : Option (Option (α × Channel n α)) :=
  match c with
  | ⟨a :: queue, h, closed⟩ => some (some (a, ⟨queue, Nat.le_of_succ_le h, closed⟩))
  | ⟨[], _, true⟩ => some none
  | ⟨[], _, false⟩ => none

/-- One of the ends goes. -/
def close (c : Channel n α) : Channel n α := { c with closed := true }

@[simp] theorem close_queue (c : Channel n α) : c.close.queue = c.queue := rfl

@[simp] theorem close_closed (c : Channel n α) : c.close.closed = true := rfl

theorem send_ok {c c' : Channel n α} {a : α} (h : c.send a = some (.ok c')) :
    c.closed = false ∧ c'.closed = false ∧ c'.queue = c.queue ++ [a] := by
  unfold send at h
  split at h
  · cases h
  · rename_i hclosed
    split at h
    · cases h
      exact ⟨Bool.eq_false_iff.2 hclosed, rfl, rfl⟩
    · cases h

theorem receive_item {c c' : Channel n α} {a : α} (h : c.receive = some (some (a, c'))) :
    c.queue = a :: c'.queue ∧ c'.closed = c.closed := by
  unfold receive at h
  split at h
  · cases h
    exact ⟨rfl, rfl⟩
  · cases h
  · cases h

theorem receive_end {c : Channel n α} (h : c.receive = some none) :
    c.queue = [] ∧ c.closed = true := by
  unfold receive at h
  split at h
  · cases h
  · exact ⟨rfl, rfl⟩
  · cases h

end Channel

end QuicSync
