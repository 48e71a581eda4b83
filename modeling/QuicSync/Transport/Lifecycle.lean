import QuicSync.Transport.Session

/-!
# How the calls of a session end

What one poll does (`Turn`) and what one step of a session does (`Link.Move`) are said once; the
accounts of a session and its history are kept by each of them.

* `Accounts`: who holds the transfer permits, the lock around the handshake and the right to find out
  its outcome.
* `History`: who has cancelled a session and who has ended its connection, in terms of the events.
* `Endpoint.outcomes_explained`: why a call fails, and that accepted sessions do not stop each other.
* `Endpoint.transfers_bounded`: permits are never lost.
-/

namespace QuicSync

namespace Transport

open OnceCell

/-! ### What a poll does -/

/-- What a call does when it is polled, and what it finds then. -/
inductive Turn (tokenCancelled : Bool) (ready : Ready) (s : Session) :
    Call → Session → Call ⊕ Outcome → Prop
  | reserve {origin : Origin} {permits : Semaphore} (running : tokenCancelled = false)
      (acquired : s.transferPermits.acquire = some (.ok permits)) :
      Turn tokenCancelled ready s (.reserving origin) { s with transferPermits := permits }
        (.inl (.establishing origin))
  | unreserved {origin : Origin} {error : QuicSyncError}
      (failed : s.guardedIn tokenCancelled "reserve transfer capacity" s.transferPermits.acquire =
        some (.error error)) :
      Turn tokenCancelled ready s (.reserving origin) s (.inr (.failed error))
  | establish {origin : Origin} (running : tokenCancelled = false) :
      Turn tokenCancelled ready s (.establishing origin) s (.inr .transfer)
  | unestablished {origin : Origin} {error : QuicSyncError}
      (failed : s.guardedIn tokenCancelled origin.action ready.result = some (.error error)) :
      Turn tokenCancelled ready s (.establishing origin)
        { s with transferPermits := s.transferPermits.release }
        (.inr (if origin = .accepted ∧ s.closedCleanly then .ended else .failed error))
  | act {action : String} {result : Except QuicSyncError Unit}
      (settled : s.guardedIn tokenCancelled action ready.result = some result) :
      Turn tokenCancelled ready s (.acting action) s (.inr (.ofExcept result))
  | confirm {value : Bool} (known : s.handshakeAccepted = .initialized value) :
      Turn tokenCancelled ready s .confirming s (.inr (.ofExcept (s.gate value)))
  | enter (unknown : s.handshakeAccepted = .empty) :
      Turn tokenCancelled ready s .confirming { s with handshakeAccepted := .initializing }
        (.inl .locking)
  | lock {lock : Semaphore} {handshake : Handshake}
      (acquired : s.handshakeLock.acquire = some (.ok lock))
      (early : s.earlyHandshake = some handshake) :
      Turn tokenCancelled ready s .locking { s with handshakeLock := lock } (.inl .awaiting)
  | unneeded (settled : s.earlyHandshake = none) :
      Turn tokenCancelled ready s .locking { s with handshakeAccepted := .initialized true }
        (.inr (.ofExcept (s.gate true)))
  | accept {value : Bool} (pending : s.earlyHandshake = some .pending)
      (accepted : ready = .accepted value) :
      Turn tokenCancelled ready s .awaiting
        { s with
          earlyHandshake := some .finished
          handshakeLock := s.handshakeLock.release
          handshakeAccepted := .initialized value }
        (.inr (.ofExcept (s.gate value)))
  | interrupt (pending : s.earlyHandshake = some .pending) (stopped : tokenCancelled = true)
      (unready : ∀ value, ready ≠ .accepted value) :
      Turn tokenCancelled ready s .awaiting
        { s with
          handshakeLock := s.handshakeLock.release
          handshakeAccepted := .empty }
        (.inr (.failed (s.interrupted "handshake")))
  | unlockable {error : Unit} (closed : s.handshakeLock.acquire = some (.error error)) :
      Turn tokenCancelled ready s .locking s (.inr .panicked)
  | repolled (settled : s.earlyHandshake ≠ some .pending) :
      Turn tokenCancelled ready s .awaiting s (.inr .panicked)

section

variable {tokenCancelled : Bool} {ready : Ready} {s s' : Session} {call call' : Call}
  {outcome : Outcome} {rest : Call ⊕ Outcome}

theorem Session.guardedIn_eq_some_ok_iff {E α : Type} [TransportFailure E] {action : String}
    {result : Option (Except E α)} {a : α} :
    s.guardedIn tokenCancelled action result = some (.ok a) ↔
      tokenCancelled = false ∧ result = some (.ok a) := by
  unfold guardedIn
  cases tokenCancelled with
  | true => simp
  | false =>
    simp only [Bool.false_eq_true, if_false, Option.map_eq_some_iff, true_and]
    constructor
    · rintro ⟨result, rfl, hok⟩
      cases result with
      | error e => cases hok
      | ok b => rw [Except.ok.inj hok]
    · rintro rfl
      exact ⟨_, rfl, rfl⟩

theorem Session.guardedIn_eq_some_error {E α : Type} [TransportFailure E] {action : String}
    {result : Option (Except E α)} {error : QuicSyncError}
    (h : s.guardedIn tokenCancelled action result = some (.error error)) :
    (tokenCancelled = true ∧ error = s.interrupted action) ∨
      ∃ e, result = some (.error e) ∧ error = describe e action := by
  unfold guardedIn at h
  cases tokenCancelled with
  | true =>
    simp only [if_true] at h
    cases h
    exact Or.inl ⟨rfl, rfl⟩
  | false =>
    simp only [Bool.false_eq_true, if_false, Option.map_eq_some_iff] at h
    obtain ⟨result, rfl, herror⟩ := h
    cases result with
    | ok b => cases herror
    | error e => exact Or.inr ⟨e, rfl, (Except.error.inj herror).symm⟩

theorem Call.turn_of_poll (h : call.poll tokenCancelled ready s = some (s', rest)) :
    Turn tokenCancelled ready s call s' rest := by
  cases call with
  | reserving origin =>
    simp only [poll] at h
    split at h
    · cases h
    · rename_i error hguard
      cases h
      exact .unreserved hguard
    · rename_i permits hguard
      cases h
      obtain ⟨hrunning, hacquire⟩ := Session.guardedIn_eq_some_ok_iff.1 hguard
      exact .reserve hrunning hacquire
  | establishing origin =>
    simp only [poll] at h
    split at h
    · cases h
    · rename_i hguard
      cases h
      exact .establish (Session.guardedIn_eq_some_ok_iff.1 hguard).1
    · rename_i error hguard
      cases h
      exact .unestablished hguard
  | acting action =>
    simp only [poll] at h
    split at h
    · cases h
    · rename_i result hguard
      cases h
      exact .act hguard
  | confirming =>
    simp only [poll] at h
    split at h
    · rename_i value hknown
      cases h
      exact .confirm hknown
    · cases h
    · rename_i hempty
      cases h
      exact .enter hempty
  | locking =>
    simp only [poll] at h
    split at h
    · cases h
    · rename_i error hclosed
      cases h
      exact .unlockable hclosed
    · rename_i lock hacquire
      split at h
      · rename_i handshake hearly
        cases h
        exact .lock hacquire hearly
      · rename_i hover
        cases h
        exact .unneeded hover
  | awaiting =>
    simp only [poll] at h
    split at h
    · rename_i value hpending
      cases h
      exact .accept hpending rfl
    · rename_i hpending hunready
      split at h
      · rename_i hstopped
        cases h
        exact .interrupt hpending hstopped hunready
      · cases h
    · rename_i hover _
      cases h
      exact .repolled hover

/-! ### What the calls hold -/

/-- The permits, the locks and the initializers of a session are all accounted for. -/
structure Accounts (s : Session) (permits locks initializers : ℕ) : Prop where
  permits : s.transferPermits.Open s.bounds.maxParallelTransfers.toNat permits
  lock : s.handshakeLock.Open 1 locks
  cell : initializers = if s.handshakeAccepted = .initializing then 1 else 0
  /-- The call with the lock is the one that initializes the cell. -/
  nested : locks ≤ initializers
  finished : s.earlyHandshake = some .finished → s.handshakeAccepted.get ≠ none
  awaited : locks ≠ 0 → s.earlyHandshake ≠ none

def Outcome.holdsPermit : Outcome → Bool
  | .transfer => true
  | _ => false

theorem Outcome.holdsPermit_ofExcept (result : Except QuicSyncError Unit) :
    (ofExcept result).holdsPermit = false := by
  cases result <;> rfl

theorem Outcome.ofExcept_ne_panicked (result : Except QuicSyncError Unit) :
    ofExcept result ≠ panicked := by
  cases result <;> simp [ofExcept]

variable {p k i n : ℕ}

/-- While there is an initializer the cell has no value. -/
theorem Accounts.initializing (h : Accounts s p k (i + 1)) :
    i = 0 ∧ s.handshakeAccepted = .initializing := by
  have hcell := h.cell
  split at hcell
  · rename_i hinit
    exact ⟨by omega, hinit⟩
  · omega

/-- A call that waits for the handshake finds it pending. -/
theorem Accounts.pending (h : Accounts s p (k + 1) (i + 1)) :
    s.earlyHandshake = some .pending := by
  have hinit := h.initializing.2
  match hearly : s.earlyHandshake with
  | none => exact absurd hearly (h.awaited (Nat.succ_ne_zero k))
  | some .pending => rfl
  | some .finished =>
    have := h.finished hearly
    rw [hinit] at this
    exact absurd rfl this

/-- The lock belongs to the call that initializes the cell: without it the lock is free. -/
theorem Accounts.lock_free (h : Accounts s p k (i + 1)) (hki : k ≤ i) :
    s.handshakeLock.acquire ≠ none := by
  intro hwaits
  have hheld := h.lock.acquire_eq_none_iff.1 hwaits
  have hzero := h.initializing.1
  omega

theorem Accounts.turn_on (hturn : Turn tokenCancelled ready s call s' (.inl call'))
    (h : Accounts s (p + if call.holdsPermit then 1 else 0) (k + if call.holdsLock then 1 else 0)
      (i + if call.initializes then 1 else 0)) (hki : k ≤ i) :
    Accounts s' (p + if call'.holdsPermit then 1 else 0) (k + if call'.holdsLock then 1 else 0)
      (i + if call'.initializes then 1 else 0) := by
  cases hturn with
  | reserve hrunning hacquire =>
    exact ⟨h.permits.acquire_ok hacquire, h.lock, h.cell, h.nested, h.finished, h.awaited⟩
  | enter hempty =>
    have hcell : i = 0 := by simpa [hempty, Call.initializes] using h.cell
    refine ⟨h.permits, h.lock, by simp [hcell, Call.initializes], ?_, ?_, h.awaited⟩
    · simpa [Call.holdsLock, Call.initializes] using Nat.le_succ_of_le hki
    · intro hfinished
      have := h.finished hfinished
      rw [hempty] at this
      exact absurd rfl this
  | lock hacquire hearly =>
    refine ⟨h.permits, h.lock.acquire_ok hacquire, h.cell, ?_, h.finished, ?_⟩
    · simpa [Call.holdsLock, Call.initializes] using hki
    · intro _
      show s.earlyHandshake ≠ none
      rw [hearly]
      simp

theorem Accounts.turn_over (hturn : Turn tokenCancelled ready s call s' (.inr outcome))
    (h : Accounts s (p + if call.holdsPermit then 1 else 0) (k + if call.holdsLock then 1 else 0)
      (i + if call.initializes then 1 else 0)) (hki : k ≤ i) :
    Accounts s' (p + if outcome.holdsPermit then 1 else 0) k i ∧ outcome ≠ .panicked := by
  cases hturn with
  | unreserved hfailed => exact ⟨h, by simp⟩
  | establish _ => exact ⟨h, by simp⟩
  | unestablished hfailed =>
    refine ⟨⟨?_, h.lock, h.cell, h.nested, h.finished, h.awaited⟩, by split <;> simp⟩
    have hrelease := h.permits.release
    split <;> exact hrelease
  | act hover =>
    rw [Outcome.holdsPermit_ofExcept]
    exact ⟨h, Outcome.ofExcept_ne_panicked _⟩
  | confirm hknown =>
    rw [Outcome.holdsPermit_ofExcept]
    exact ⟨h, Outcome.ofExcept_ne_panicked _⟩
  | unneeded hover =>
    rw [Outcome.holdsPermit_ofExcept]
    obtain ⟨rfl, -⟩ := Accounts.initializing h
    refine ⟨⟨h.permits, h.lock, rfl, hki, ?_, h.awaited⟩, Outcome.ofExcept_ne_panicked _⟩
    intro hfinished
    exact Option.some_ne_none _
  | accept hpending haccepted =>
    rw [Outcome.holdsPermit_ofExcept]
    obtain ⟨rfl, -⟩ := Accounts.initializing h
    obtain rfl : k = 0 := by omega
    refine ⟨⟨h.permits, h.lock.release, rfl, hki, ?_, fun hne => absurd rfl hne⟩,
      Outcome.ofExcept_ne_panicked _⟩
    intro hfinished
    exact Option.some_ne_none _
  | interrupt hpending _ _ =>
    obtain ⟨rfl, -⟩ := Accounts.initializing h
    obtain rfl : k = 0 := by omega
    refine ⟨⟨h.permits, h.lock.release, rfl, hki, ?_, fun hne => absurd rfl hne⟩, by simp⟩
    intro hfinished
    rw [hpending] at hfinished
    cases hfinished
  | unlockable hclosed => exact absurd hclosed h.lock.acquire_ne_error
  | repolled hover => exact absurd (Accounts.pending h) hover

/-- A call that is given up gives back what it holds. -/
theorem Accounts.abandon
    (h : Accounts s (p + if call.holdsPermit then 1 else 0) (k + if call.holdsLock then 1 else 0)
      (i + if call.initializes then 1 else 0)) (hki : k ≤ i) :
    Accounts (call.abandon s) p k i := by
  cases call with
  | reserving origin => exact h
  | establishing origin =>
    exact ⟨h.permits.release, h.lock, h.cell, h.nested, h.finished, h.awaited⟩
  | acting action => exact h
  | confirming => exact h
  | locking =>
    obtain ⟨rfl, hinit⟩ := Accounts.initializing h
    refine ⟨h.permits, h.lock, rfl, hki, ?_, h.awaited⟩
    intro hfinished
    have := h.finished hfinished
    rw [hinit] at this
    exact absurd rfl this
  | awaiting =>
    obtain ⟨rfl, -⟩ := Accounts.initializing h
    obtain rfl : k = 0 := by omega
    have hpending := Accounts.pending h
    refine ⟨h.permits, h.lock.release, rfl, hki, ?_, fun hne => absurd rfl hne⟩
    intro hfinished
    rw [show (Call.awaiting.abandon s).earlyHandshake = s.earlyHandshake from rfl, hpending] at hfinished
    cases hfinished

/-- No call changes how the connection has ended or whether the session was cancelled. -/
theorem Turn.frame (hturn : Turn tokenCancelled ready s call s' rest) :
    s'.bounds = s.bounds ∧ s'.cancel = s.cancel ∧ s'.closeReason = s.closeReason := by
  cases hturn <;> exact ⟨rfl, rfl, rfl⟩

theorem Call.abandon_frame (call : Call) (s : Session) :
    (call.abandon s).bounds = s.bounds ∧ (call.abandon s).cancel = s.cancel ∧
      (call.abandon s).closeReason = s.closeReason := by
  cases call <;> exact ⟨rfl, rfl, rfl⟩

/-- A connection that this side closes has ended: with the local close, or before. -/
theorem Session.close_eq_some {report : Option ConnectionError} (h : s.close report = some s') :
    (∃ error : ConnectionError, error.kind = .locallyClosed ∧
        s' = { s with closeReason := some error }) ∨
      s.closeReason ≠ none ∧ s' = s := by
  cases report with
  | some error =>
    simp only [close] at h
    split at h
    · rename_i hkind
      cases h
      exact Or.inl ⟨error, hkind, rfl⟩
    · cases h
  | none =>
    simp only [close] at h
    split at h
    · rename_i hended
      cases h
      exact Or.inr ⟨Option.isSome_iff_ne_none.1 hended, rfl⟩
    · cases h

/-! ### What a call returns -/

theorem Session.closedCleanly_iff : s.closedCleanly = true ↔ ∃ error : ConnectionError,
    s.closeReason = some error ∧ (error.kind = .applicationClosed 0 ∨ error.kind = .locallyClosed) := by
  unfold closedCleanly
  split
  · rename_i code text hreason
    simp [hreason]
  · rename_i text hreason
    simp [hreason]
  · rename_i hother hlocal
    simp only [Bool.false_eq_true, false_iff]
    rintro ⟨⟨kind, text⟩, hreason, rfl | rfl⟩
    · exact hother 0 text hreason
    · exact hlocal text hreason

/-- The codes of a failure of the connection. -/
def FromTransport (error : QuicSyncError) : Prop :=
  error.code = .transportUnavailable ∨ error.code = .authenticationFailed

theorem fromTransport_connectionError (error : ConnectionError) (action : String) :
    FromTransport (describe error action) := by
  simp only [describe]
  split
  · exact Or.inr rfl
  · exact Or.inl rfl

theorem fromTransport_streamError (error : StreamError) (action : String) :
    FromTransport (describe error action) := by
  cases error with
  | connectionLost error => exact fromTransport_connectionError error action
  | other text => exact Or.inl rfl

/-- A call that was stopped says so, unless the connection was lost. -/
def Cancelled (s : Session) (tokenCancelled : Bool) (error : QuicSyncError) : Prop :=
  error.code = .cancelled ∧ tokenCancelled = true ∧
    (s.closeReason = none ∨ s.closedCleanly = true)

theorem Session.interrupted_spec (s : Session) (action : String) :
    Cancelled s true (s.interrupted action) ∨ FromTransport (s.interrupted action) := by
  unfold interrupted
  split
  · split
    · rename_i hclean
      exact Or.inl ⟨rfl, rfl, Or.inr hclean⟩
    · exact Or.inr (fromTransport_connectionError _ action)
  · rename_i hnone
    exact Or.inl ⟨rfl, rfl, Or.inl hnone⟩

theorem Session.guardedIn_failure {action : String} {result : Option (Except StreamError Unit)}
    {error : QuicSyncError} (h : s.guardedIn tokenCancelled action result = some (.error error)) :
    Cancelled s tokenCancelled error ∨ FromTransport error := by
  obtain ⟨rfl, rfl⟩ | ⟨e, -, rfl⟩ := guardedIn_eq_some_error h
  · exact s.interrupted_spec action
  · exact Or.inr (fromTransport_streamError e action)

theorem Session.gate_failure {value : Bool} {error : QuicSyncError}
    (h : Outcome.ofExcept (s.gate value) = .failed error) : FromTransport error := by
  unfold gate at h
  split at h
  · cases h
    exact fromTransport_connectionError _ _
  · split at h
    · cases h
    · cases h
      exact Or.inl rfl

/-- How a call fails: it was cancelled, or with the connection. -/
theorem Turn.failure {error : QuicSyncError}
    (hturn : Turn tokenCancelled ready s call s' (.inr (.failed error)))
    (h : Accounts s p k i) : Cancelled s tokenCancelled error ∨ FromTransport error := by
  generalize houtcome : (Sum.inr (.failed error) : Call ⊕ Outcome) = rest at hturn
  cases hturn with
  | reserve _ _ => cases houtcome
  | unreserved hfailed =>
    cases houtcome
    obtain ⟨rfl, rfl⟩ | ⟨e, hacquire, -⟩ := Session.guardedIn_eq_some_error hfailed
    · exact s.interrupted_spec _
    · exact absurd hacquire h.permits.acquire_ne_error
  | establish _ => cases houtcome
  | unestablished hfailed =>
    split at houtcome
    · cases houtcome
    · cases houtcome
      exact Session.guardedIn_failure hfailed
  | act hover =>
    rename_i result
    cases result with
    | ok u => cases houtcome
    | error e =>
      cases houtcome
      exact Session.guardedIn_failure hover
  | confirm hknown => exact Or.inr (Session.gate_failure (Sum.inr.inj houtcome).symm)
  | enter hempty => cases houtcome
  | lock _ _ => cases houtcome
  | unneeded _ => exact Or.inr (Session.gate_failure (Sum.inr.inj houtcome).symm)
  | accept _ _ => exact Or.inr (Session.gate_failure (Sum.inr.inj houtcome).symm)
  | interrupt _ hstopped _ =>
    cases houtcome
    subst hstopped
    exact s.interrupted_spec _
  | unlockable _ => cases houtcome
  | repolled _ => cases houtcome

/-- An acceptor that finds the peer done has found a clean close. -/
theorem Turn.ended (hturn : Turn tokenCancelled ready s call s' (.inr .ended)) :
    s.closedCleanly = true := by
  generalize houtcome : (Sum.inr .ended : Call ⊕ Outcome) = rest at hturn
  have hexcept (result : Except QuicSyncError Unit) : Outcome.ofExcept result ≠ .ended := by
    cases result <;> simp [Outcome.ofExcept]
  cases hturn with
  | unestablished _ =>
    split at houtcome
    · rename_i hclean
      exact hclean.2
    · cases houtcome
  | act _ => exact absurd (Sum.inr.inj houtcome).symm (hexcept _)
  | confirm _ => exact absurd (Sum.inr.inj houtcome).symm (hexcept _)
  | unneeded _ => exact absurd (Sum.inr.inj houtcome).symm (hexcept _)
  | accept _ _ => exact absurd (Sum.inr.inj houtcome).symm (hexcept _)
  | _ => cases houtcome

end

/-! ### Links -/

namespace Link

variable {tokenCancelled listenerClosed : Bool} {l l' : Link} {event : LinkEvent}
  {outcome : Option Outcome}

/-- What is shared on a link is accounted for, and nothing uses a session that has been dropped. -/
structure Inv (l : Link) : Prop where
  accounts : Accounts l.session (l.calls.countP Call.holdsPermit + l.transfers)
    (l.calls.countP Call.holdsLock) (l.calls.countP Call.initializes)
  dropped : l.live = false → l.calls = [] ∧ l.transfers = 0 ∧ l.session.closeReason ≠ none

theorem inv_new (bounds : TransportBounds) (handshake : Option Handshake)
    (hhandshake : handshake ≠ some .finished) (attemptedEarly dialled : Bool) :
    (new (Session.new bounds handshake attemptedEarly) dialled).Inv := by
  refine ⟨⟨Semaphore.open_new _, Semaphore.open_new 1, rfl, le_rfl, ?_, ?_⟩, ?_⟩
  · intro hfinished
    exact absurd hfinished hhandshake
  · intro hne
    exact absurd rfl hne
  · intro hlive
    cases hlive

/-- The number of calls with the lock is at most that of the calls that initialize the cell. -/
theorem countP_holdsLock_le (calls : List Call) :
    calls.countP Call.holdsLock ≤ calls.countP Call.initializes := by
  refine List.countP_mono_left ?_
  intro call _ hlock
  cases call <;> first | rfl | cases hlock

/-- What is accounted for is held by one of the calls and by the others. -/
theorem accounts_at_iff {s : Session} {l₁ l₂ : List Call} {call : Call} {n : ℕ} :
    Accounts s ((l₁ ++ call :: l₂).countP Call.holdsPermit + n)
        ((l₁ ++ call :: l₂).countP Call.holdsLock) ((l₁ ++ call :: l₂).countP Call.initializes) ↔
      Accounts s (((l₁ ++ l₂).countP Call.holdsPermit + n) + if call.holdsPermit then 1 else 0)
        ((l₁ ++ l₂).countP Call.holdsLock + if call.holdsLock then 1 else 0)
        ((l₁ ++ l₂).countP Call.initializes + if call.initializes then 1 else 0) := by
  have hcount (f : Call → Bool) : (l₁ ++ call :: l₂).countP f =
      (l₁ ++ l₂).countP f + if f call then 1 else 0 := by
    simp only [List.countP_append, List.countP_cons]
    omega
  rw [hcount, hcount, hcount, Nat.add_right_comm]

/-- What is held does not depend on how the session ends. -/
theorem accounts_of_end {s : Session} {p k i : ℕ} (h : Accounts s p k i) (cancel : Bool)
    (reason : Option ConnectionError) :
    Accounts { s with cancel := cancel, closeReason := reason } p k i :=
  ⟨h.permits, h.lock, h.cell, h.nested, h.finished, h.awaited⟩

/-- What a step on a link does. -/
inductive Move (tokenCancelled listenerClosed : Bool) (l : Link) :
    LinkEvent → Link → Option Outcome → Prop
  | call {call : Call} (live : l.live = true) (starts : call.Starts) :
      Move tokenCancelled listenerClosed l (.call call) { l with calls := l.calls ++ [call] } none
  | goOn {k : ℕ} {ready : Ready} {l₁ l₂ : List Call} {call call' : Call} {session : Session}
      (here : l.calls[k]? = some call) (split : l.calls = l₁ ++ call :: l₂)
      (turn : Turn tokenCancelled ready l.session call session (.inl call')) :
      Move tokenCancelled listenerClosed l (.poll k ready)
        { l with session := session, calls := l₁ ++ call' :: l₂ } none
  | returns {k : ℕ} {ready : Ready} {l₁ l₂ : List Call} {call : Call} {session : Session}
      {outcome : Outcome} (here : l.calls[k]? = some call) (split : l.calls = l₁ ++ call :: l₂)
      (turn : Turn tokenCancelled ready l.session call session (.inr outcome)) :
      Move tokenCancelled listenerClosed l (.poll k ready)
        { l with
          session := session
          calls := l₁ ++ l₂
          transfers := if outcome = .transfer then l.transfers + 1 else l.transfers }
        (some outcome)
  | abandon {k : ℕ} {l₁ l₂ : List Call} {call : Call} (split : l.calls = l₁ ++ call :: l₂) :
      Move tokenCancelled listenerClosed l (.abandon k)
        { l with session := call.abandon l.session, calls := l₁ ++ l₂ } none
  | dropTransfer {n : ℕ} (held : l.transfers = n + 1) :
      Move tokenCancelled listenerClosed l .dropTransfer
        { l with
          session := { l.session with transferPermits := l.session.transferPermits.release }
          transfers := n } none
  | lose {error : ConnectionError} (running : l.session.closeReason = none)
      (other : error.kind ≠ .locallyClosed) :
      Move tokenCancelled listenerClosed l (.lose error)
        { l with session := { l.session with closeReason := some error } } none
  | watch {error : ConnectionError} (ended : l.session.closeReason = some error) :
      Move tokenCancelled listenerClosed l .watch
        { l with
          session := { l.session with
            cancel := if error.kind = .locallyClosed then l.session.cancel else true }
          watching := false } none
  | cancel (live : l.live = true) :
      Move tokenCancelled listenerClosed l .cancel
        { l with session := { l.session with cancel := true }, cancelling := true } none
  | close {report : Option ConnectionError} {session : Session} (live : l.live = true)
      (cause : l.cancelling = true ∨ listenerClosed = true ∧ l.dialled = false)
      (closed : l.session.close report = some session) :
      Move tokenCancelled listenerClosed l (.close report) { l with session := session } none
  | drop {report : Option ConnectionError} {session : Session} (unused : l.calls = [])
      (free : l.transfers = 0) (closed : l.session.close report = some session) :
      Move tokenCancelled listenerClosed l (.drop report)
        { l with session := session, live := false } none

theorem move_of_step (h : l.step tokenCancelled listenerClosed event = some (l', outcome)) :
    Move tokenCancelled listenerClosed l event l' outcome := by
  cases event with
  | call call =>
    simp only [step] at h
    split at h
    · rename_i hstarts
      cases h
      exact .call hstarts.1 hstarts.2
    · cases h
  | poll k ready =>
    simp only [step] at h
    split at h
    · cases h
    · rename_i call hcall
      obtain ⟨l₁, l₂, hsplit, hset, herase⟩ := exists_split hcall
      split at h
      · split at h
        · cases h
        · rename_i session call' hpoll
          cases h
          rw [hset]
          exact .goOn hcall hsplit (Call.turn_of_poll hpoll)
        · rename_i session outcome hpoll
          cases h
          rw [herase]
          exact .returns hcall hsplit (Call.turn_of_poll hpoll)
      · cases h
  | abandon k =>
    simp only [step] at h
    split at h
    · cases h
    · rename_i call hcall
      obtain ⟨l₁, l₂, hsplit, -, herase⟩ := exists_split hcall
      cases h
      rw [herase]
      exact .abandon hsplit
  | dropTransfer =>
    simp only [step] at h
    split at h
    · cases h
    · rename_i n hn
      cases h
      exact .dropTransfer hn
  | lose error =>
    simp only [step] at h
    split at h
    · rename_i hopen
      cases h
      exact .lose hopen.1 hopen.2
    · cases h
  | watch =>
    simp only [step] at h
    split at h
    · cases h
    · rename_i error hended
      split at h
      · cases h
        exact .watch hended
      · cases h
  | cancel =>
    simp only [step] at h
    split at h
    · rename_i hlive
      cases h
      exact .cancel hlive
    · cases h
  | close report =>
    simp only [step] at h
    split at h
    · rename_i hallowed
      obtain ⟨session, hclose, heq⟩ := Option.map_eq_some_iff.1 h
      cases heq
      exact .close hallowed.1 hallowed.2 hclose
    · cases h
  | drop report =>
    simp only [step] at h
    split at h
    · rename_i hlast
      obtain ⟨session, hclose, heq⟩ := Option.map_eq_some_iff.1 h
      cases heq
      exact .drop hlast.2.1 hlast.2.2 hclose
    · cases h

/-- A session with a call has not been dropped. -/
theorem Inv.live_of_call (h : l.Inv) {l₁ l₂ : List Call} {call : Call}
    (hsplit : l.calls = l₁ ++ call :: l₂) : l.live ≠ false := by
  intro hdropped
  rw [(h.dropped hdropped).1] at hsplit
  simp at hsplit

theorem Inv.accounts_at (h : l.Inv) {l₁ l₂ : List Call} {call : Call}
    (hsplit : l.calls = l₁ ++ call :: l₂) :
    Accounts l.session
      (((l₁ ++ l₂).countP Call.holdsPermit + l.transfers) + if call.holdsPermit then 1 else 0)
      ((l₁ ++ l₂).countP Call.holdsLock + if call.holdsLock then 1 else 0)
      ((l₁ ++ l₂).countP Call.initializes + if call.initializes then 1 else 0) := by
  rw [← accounts_at_iff, ← hsplit]
  exact h.accounts

/-- Every step keeps the accounts of a link. -/
theorem Inv.move (h : l.Inv) (hmove : Move tokenCancelled listenerClosed l event l' outcome) :
    l'.Inv := by
  cases hmove with
  | call hlive hstarts =>
    rename_i call
    refine ⟨?_, ?_⟩
    · rw [accounts_at_iff, List.append_nil]
      cases call <;> first | exact h.accounts | exact hstarts.elim
    · intro hdropped
      rw [show l.live = false from hdropped] at hlive
      cases hlive
  | goOn _ hsplit hturn =>
    refine ⟨?_, fun hdropped => absurd hdropped (h.live_of_call hsplit)⟩
    rw [accounts_at_iff]
    exact (h.accounts_at hsplit).turn_on hturn (countP_holdsLock_le _)
  | returns _ hsplit hturn =>
    rename_i outcome _
    refine ⟨?_, fun hdropped => absurd hdropped (h.live_of_call hsplit)⟩
    have hover := ((h.accounts_at hsplit).turn_over hturn (countP_holdsLock_le _)).1
    cases outcome <;> exact hover
  | abandon hsplit =>
    refine ⟨?_, fun hdropped => absurd hdropped (h.live_of_call hsplit)⟩
    exact (h.accounts_at hsplit).abandon (countP_holdsLock_le _)
  | dropTransfer hheld =>
    have haccounts := h.accounts
    rw [hheld] at haccounts
    refine ⟨⟨haccounts.permits.release, haccounts.lock, haccounts.cell, haccounts.nested,
      haccounts.finished, haccounts.awaited⟩, ?_⟩
    intro hdropped
    rw [(h.dropped hdropped).2.1] at hheld
    cases hheld
  | lose hrunning _ =>
    refine ⟨accounts_of_end h.accounts _ _, ?_⟩
    intro hdropped
    exact absurd hrunning (h.dropped hdropped).2.2
  | watch _ => exact ⟨accounts_of_end h.accounts _ _, h.dropped⟩
  | cancel _ => exact ⟨accounts_of_end h.accounts _ _, h.dropped⟩
  | close hlive _ hclose =>
    have hdropped : l.live ≠ false := by simp [hlive]
    refine ⟨?_, fun hfalse => absurd hfalse hdropped⟩
    obtain ⟨error, -, rfl⟩ | ⟨-, rfl⟩ := Session.close_eq_some hclose
    · exact accounts_of_end h.accounts _ _
    · exact h.accounts
  | drop hunused hfree hclose =>
    obtain ⟨error, -, rfl⟩ | ⟨hended, rfl⟩ := Session.close_eq_some hclose
    · exact ⟨accounts_of_end h.accounts _ _, fun _ => ⟨hunused, hfree, Option.some_ne_none error⟩⟩
    · exact ⟨h.accounts, fun _ => ⟨hunused, hfree, hended⟩⟩

end Link

/-! ### Histories -/

/-- This side has closed the connection of a session that is still used: the session or the listener
was told to. -/
def ClosedHere (events : List Event) (i : ℕ) : Prop :=
  .link i .cancel ∈ events ∨ .close ∈ events

theorem ClosedHere.mono {events : List Event} {i : ℕ} (h : ClosedHere events i) (e : Event) :
    ClosedHere (events ++ [e]) i :=
  Or.imp (List.mem_append_left _) (List.mem_append_left _) h

/-- How a link is what it is after the events. -/
structure History (events : List Event) (i : ℕ) (l : Link) : Prop where
  inv : l.Inv
  cancelling : l.cancelling = true → .link i .cancel ∈ events
  /-- Who has cancelled the token of the session. -/
  cancelled : l.session.cancel = true → .link i .cancel ∈ events ∨
    ∃ error : ConnectionError, error.kind ≠ .locallyClosed ∧ .link i (.lose error) ∈ events
  /-- Who has ended the connection. -/
  ended : ∀ error, l.session.closeReason = some error →
    error.kind ≠ .locallyClosed ∧ .link i (.lose error) ∈ events ∨
      error.kind = .locallyClosed ∧ (ClosedHere events i ∨ l.live = false)
  /-- The end of a connection stays its end until this side closes it. -/
  lost : ∀ error, .link i (.lose error) ∈ events → l.session.closeReason = some error ∨
    ClosedHere events i ∨ l.live = false

namespace History

variable {past : List Event} {i : ℕ} {l l' : Link}

/-- An event that changes nothing about the end of the session. -/
theorem keep (h : History past i l) {e : Event} (he : ∀ error, e ≠ .link i (.lose error))
    (hinv : l'.Inv) (hcancelling : l'.cancelling = l.cancelling)
    (hcancel : l'.session.cancel = l.session.cancel)
    (hreason : l'.session.closeReason = l.session.closeReason) (hlive : l'.live = l.live) :
    History (past ++ [e]) i l' := by
  refine ⟨hinv, ?_, ?_, ?_, ?_⟩
  · rw [hcancelling]
    exact fun hc => List.mem_append_left _ (h.cancelling hc)
  · rw [hcancel]
    intro hc
    obtain hc | ⟨error, hkind, hlose⟩ := h.cancelled hc
    · exact Or.inl (List.mem_append_left _ hc)
    · exact Or.inr ⟨error, hkind, List.mem_append_left _ hlose⟩
  · rw [hreason, hlive]
    intro error herror
    obtain ⟨hkind, hlose⟩ | ⟨hkind, hclosed⟩ := h.ended error herror
    · exact Or.inl ⟨hkind, List.mem_append_left _ hlose⟩
    · exact Or.inr ⟨hkind, hclosed.imp_left fun hc => hc.mono e⟩
  · rw [hreason, hlive]
    intro error hlose
    obtain hlose | hlose := List.mem_append.1 hlose
    · exact (h.lost error hlose).imp_right (Or.imp_left fun hc => hc.mono e)
    · exact absurd (List.mem_singleton.1 hlose).symm (he error)

/-- One step of a link adds one event to its history. -/
theorem move {tokenCancelled listenerClosed : Bool} {event : LinkEvent} {outcome : Option Outcome}
    (h : History past i l) (hmove : Link.Move tokenCancelled listenerClosed l event l' outcome)
    (hlistener : listenerClosed = true → .close ∈ past) :
    History (past ++ [.link i event]) i l' := by
  have hinv : l'.Inv := h.inv.move hmove
  have hlast {event : LinkEvent} : Event.link i event ∈ past ++ [.link i event] :=
    List.mem_append_right _ (List.mem_singleton_self _)
  cases hmove with
  | call _ _ => exact h.keep (by simp) hinv rfl rfl rfl rfl
  | goOn _ _ hturn =>
    obtain ⟨-, hcancel, hreason⟩ := hturn.frame
    exact h.keep (by simp) hinv rfl hcancel hreason rfl
  | returns _ _ hturn =>
    obtain ⟨-, hcancel, hreason⟩ := hturn.frame
    exact h.keep (by simp) hinv rfl hcancel hreason rfl
  | abandon _ =>
    obtain ⟨-, hcancel, hreason⟩ := Call.abandon_frame _ l.session
    exact h.keep (by simp) hinv rfl hcancel hreason rfl
  | dropTransfer _ => exact h.keep (by simp) hinv rfl rfl rfl rfl
  | lose hrunning hother =>
    rename_i error
    refine ⟨hinv, fun hc => List.mem_append_left _ (h.cancelling hc), ?_, ?_, ?_⟩
    · intro hc
      exact Or.inr ⟨error, hother, hlast⟩
    · intro error' herror
      cases herror
      exact Or.inl ⟨hother, hlast⟩
    · intro error' hlose
      obtain hlose | hlose := List.mem_append.1 hlose
      · -- it would have ended before
        obtain hreason | hclosed | hdropped := h.lost error' hlose
        · rw [hrunning] at hreason
          cases hreason
        · exact Or.inr (Or.inl (hclosed.mono _))
        · exact Or.inr (Or.inr hdropped)
      · cases List.mem_singleton.1 hlose
        exact Or.inl rfl
  | watch hended =>
    rename_i error
    have hkeep := h.keep (e := .link i .watch) (by simp) h.inv rfl rfl rfl rfl
    refine ⟨hinv, hkeep.cancelling, ?_, hkeep.ended, hkeep.lost⟩
    intro hc
    by_cases hkind : error.kind = .locallyClosed
    · simp only [hkind, if_true] at hc
      exact hkeep.cancelled hc
    · obtain ⟨-, hlose⟩ | ⟨hlocal, -⟩ := hkeep.ended error hended
      · exact Or.inr ⟨error, hkind, hlose⟩
      · exact absurd hlocal hkind
  | cancel _ =>
    have hkeep := h.keep (e := .link i .cancel) (by simp) h.inv rfl rfl rfl rfl
    exact ⟨hinv, fun _ => hlast, fun _ => Or.inl hlast, hkeep.ended, hkeep.lost⟩
  | close _ hcause hclose =>
    rename_i report session _
    have hclosed : ClosedHere (past ++ [.link i (.close report)]) i := by
      obtain hcancelling | ⟨hl, -⟩ := hcause
      · exact Or.inl (List.mem_append_left _ (h.cancelling hcancelling))
      · exact Or.inr (List.mem_append_left _ (hlistener hl))
    have hkeep := h.keep (e := .link i (.close report)) (by simp) h.inv rfl rfl rfl rfl
    obtain ⟨error, hkind, rfl⟩ | ⟨-, rfl⟩ := Session.close_eq_some hclose
    · refine ⟨hinv, hkeep.cancelling, hkeep.cancelled, ?_, fun _ _ => Or.inr (Or.inl hclosed)⟩
      intro error' herror
      cases herror
      exact Or.inr ⟨hkind, Or.inl hclosed⟩
    · exact ⟨hinv, hkeep.cancelling, hkeep.cancelled, hkeep.ended, hkeep.lost⟩
  | drop _ _ hclose =>
    rename_i report session _ _
    have hkeep := h.keep (e := .link i (.drop report)) (by simp) h.inv rfl rfl rfl rfl
    obtain ⟨error, hkind, rfl⟩ | ⟨-, rfl⟩ := Session.close_eq_some hclose
    · refine ⟨hinv, hkeep.cancelling, hkeep.cancelled, ?_, fun _ _ => Or.inr (Or.inr rfl)⟩
      intro error' herror
      cases herror
      exact Or.inr ⟨hkind, Or.inr rfl⟩
    · refine ⟨hinv, hkeep.cancelling, hkeep.cancelled, ?_, fun _ _ => Or.inr (Or.inr rfl)⟩
      intro error' herror
      exact (hkeep.ended error' herror).imp_right fun hl => ⟨hl.1, Or.inr rfl⟩

/-- A session that has just started. -/
theorem start (hi : ∀ event, .link i event ∉ past) (bounds : TransportBounds)
    {handshake : Option Handshake} (hhandshake : handshake ≠ some .finished)
    (attemptedEarly dialled : Bool) (e : Event) (he : ∀ event, e ≠ .link i event) :
    History (past ++ [e]) i (Link.new (Session.new bounds handshake attemptedEarly) dialled) := by
  refine ⟨Link.inv_new bounds handshake hhandshake attemptedEarly dialled, ?_, ?_, ?_, ?_⟩
  · intro hc
    cases hc
  · intro hc
    cases hc
  · intro error herror
    cases herror
  · intro error hlose
    obtain hlose | hlose := List.mem_append.1 hlose
    · exact absurd hlose (hi _)
    · exact absurd (List.mem_singleton.1 hlose).symm (he _)

end History

namespace Endpoint

/-- How the sessions of a process are what they are after the events. -/
structure Explained (events : List Event) (s : Endpoint) : Prop where
  token : s.cancel = true → .cancel ∈ events
  listener : s.closed = true → .close ∈ events
  known : ∀ i event, .link i event ∈ events → i < s.links.length
  links : ∀ i l, s.links[i]? = some l → History events i l

variable {past : List Event} {s s' : Endpoint} {e : Event} {outcome : Option Outcome}

theorem explained_new (bounds : TransportBounds) : Explained [] (new bounds) := by
  refine ⟨?_, ?_, ?_, ?_⟩
  · intro hc
    cases hc
  · intro hc
    cases hc
  · intro i event hmem
    cases hmem
  · intro i l hl
    cases hl

/-- An event that is not one of a session leaves the sessions as they are. -/
theorem Explained.keep (h : Explained past s) (he : ∀ i event, e ≠ .link i event)
    (hlinks : s'.links = s.links) (htoken : s'.cancel = true → s.cancel = true ∨ e = .cancel)
    (hlistener : s'.closed = true → s.closed = true ∨ e = .close) :
    Explained (past ++ [e]) s' := by
  refine ⟨?_, ?_, ?_, ?_⟩
  · intro hc
    obtain hc | rfl := htoken hc
    · exact List.mem_append_left _ (h.token hc)
    · exact List.mem_append_right _ (List.mem_singleton_self _)
  · intro hc
    obtain hc | rfl := hlistener hc
    · exact List.mem_append_left _ (h.listener hc)
    · exact List.mem_append_right _ (List.mem_singleton_self _)
  · intro i event hmem
    rw [hlinks]
    obtain hmem | hmem := List.mem_append.1 hmem
    · exact h.known i event hmem
    · exact absurd (List.mem_singleton.1 hmem).symm (he i event)
  · intro i l hl
    rw [hlinks] at hl
    have hlink := h.links i l hl
    exact hlink.keep (fun error => he i (.lose error)) hlink.inv rfl rfl rfl rfl

/-- A session is added. -/
theorem Explained.add (h : Explained past s) (he : ∀ i event, e ≠ .link i event)
    (bounds : TransportBounds) {handshake : Option Handshake}
    (hhandshake : handshake ≠ some .finished) (attemptedEarly dialled : Bool) :
    Explained (past ++ [e]) { s with links :=
      s.links ++ [Link.new (Session.new bounds handshake attemptedEarly) dialled] } := by
  have hkeep : Explained (past ++ [e]) s := h.keep he rfl Or.inl Or.inl
  refine ⟨hkeep.token, hkeep.listener, ?_, ?_⟩
  · intro i event hmem
    rw [List.length_append]
    exact Nat.lt_succ_of_lt (hkeep.known i event hmem)
  · intro i l hl
    rw [List.getElem?_append] at hl
    split at hl
    · exact hkeep.links i l hl
    · rename_i hi
      obtain ⟨hlast, rfl⟩ := List.getElem?_eq_some_iff.1 hl
      obtain rfl : i = s.links.length := by
        rw [List.length_singleton] at hlast
        omega
      simp only [Nat.sub_self, List.getElem_cons_zero]
      refine History.start ?_ bounds hhandshake attemptedEarly dialled e (he _)
      intro event hmem
      exact absurd (h.known _ _ hmem) (lt_irrefl _)

theorem acceptMode_ok {ready : Accepting} {handshake : Option Handshake}
    (h : s.acceptMode ready = .ok handshake) : handshake ≠ some .finished := by
  unfold acceptMode guardedInfallible guarded at h
  cases htoken : s.tokenCancelled with
  | true =>
    simp only [htoken, if_true] at h
    cases h
  | false =>
    simp only [htoken, Bool.false_eq_true, if_false] at h
    cases ready <;> cases h <;> exact nofun

theorem dial_ok {ready : Dialling} {handshake : Option Handshake}
    (h : s.dial ready = .ok handshake) : handshake ≠ some .finished := by
  cases ready with
  | early =>
    cases h
    exact nofun
  | established =>
    unfold dial guarded at h
    simp only at h
    split at h
    · cases h
    · cases h
      exact nofun
  | refused error =>
    unfold dial guarded at h
    simp only at h
    split at h <;> cases h
  | unusable text => cases h
  | unbound text => cases h
  | unstarted text => cases h

/-- A step of a session. -/
theorem step_link {i : ℕ} {event : LinkEvent} (h : s.step (.link i event) = some (s', outcome)) :
    ∃ l l', s.links[i]? = some l ∧
      Link.Move (s.cancelledFor l) s.closed l event l' outcome ∧
      s' = { s with links := s.links.set i l' } := by
  simp only [step] at h
  split at h
  · cases h
  · rename_i l hl
    obtain ⟨⟨l', outcome'⟩, hstep, heq⟩ := Option.map_eq_some_iff.1 h
    cases heq
    exact ⟨l, l', hl, Link.move_of_step hstep, rfl⟩

theorem Explained.next (h : Explained past s) (hnext : s.next e = some s') :
    Explained (past ++ [e]) s' := by
  obtain ⟨⟨s', outcome⟩, hstep, rfl⟩ := Option.map_eq_some_iff.1 hnext
  cases e with
  | cancel =>
    cases hstep
    exact h.keep (by simp) rfl (fun _ => Or.inr rfl) Or.inl
  | close =>
    cases hstep
    exact h.keep (by simp) rfl Or.inl fun _ => Or.inr rfl
  | accept ready =>
    simp only [step] at hstep
    split at hstep
    · cases hstep
      exact h.keep (by simp) rfl Or.inl Or.inl
    · rename_i handshake haccept
      cases hstep
      exact h.add (by simp) s.bounds (acceptMode_ok haccept) false false
  | dial bounds ready =>
    simp only [step] at hstep
    split at hstep
    · cases hstep
      exact h.keep (by simp) rfl Or.inl Or.inl
    · rename_i handshake hdial
      cases hstep
      exact h.add (by simp) bounds (dial_ok hdial) handshake.isSome true
  | link i event =>
    obtain ⟨l, l', hl, hmove, rfl⟩ := step_link hstep
    have hi : i < s.links.length := (List.getElem?_eq_some_iff.1 hl).1
    have hpast {a : Event} (ha : a ∈ past) : a ∈ past ++ [.link i event] :=
      List.mem_append_left _ ha
    refine ⟨fun hc => hpast (h.token hc), fun hc => hpast (h.listener hc), ?_, ?_⟩
    · intro j event' hmem
      simp only [List.length_set]
      obtain hmem | hmem := List.mem_append.1 hmem
      · exact h.known j event' hmem
      · cases List.mem_singleton.1 hmem
        exact hi
    · intro j m hm
      by_cases hij : i = j
      · subst hij
        simp only [List.getElem?_set_self hi, Option.some.injEq] at hm
        subst hm
        exact (h.links i l hl).move hmove h.listener
      · simp only [List.getElem?_set_ne hij] at hm
        have hlink := h.links j m hm
        refine hlink.keep ?_ hlink.inv rfl rfl rfl rfl
        intro error heq
        exact hij (Event.link.inj heq).1

/-- The history of every run. -/
theorem explained {bounds : TransportBounds} {events : List Event}
    (hrun : events.foldlM next (new bounds) = some s) : Explained events s :=
  trace_invariant hrun (explained_new bounds) fun _ _ _ _ h hnext => h.next hnext

variable {bounds : TransportBounds} {events : List Event} {i : ℕ}

/-- The peer has closed the connection cleanly. -/
def PeerClosed (events : List Event) (i : ℕ) : Prop :=
  ∃ error : ConnectionError, error.kind = .applicationClosed 0 ∧ .link i (.lose error) ∈ events

/-- What stops the calls of a session: somebody cancels the token of the process, the session or its
listener is told to close, the peer closes it, or another session that holds the token itself is
cancelled or lost. -/
def Stopped (events : List Event) (s : Endpoint) (i : ℕ) : Prop :=
  .cancel ∈ events ∨ ClosedHere events i ∨ PeerClosed events i ∨
    ∃ j l, j ≠ i ∧ s.links[j]? = some l ∧ l.dialled = true ∧
      (.link j .cancel ∈ events ∨ ∃ error, .link j (.lose error) ∈ events)

/-- A session that is still used and ended with a clean close was closed by one of the two sides. -/
theorem Explained.closedCleanly (h : Explained events s) {l : Link} (hl : s.links[i]? = some l)
    (hlive : l.live ≠ false) (hclean : l.session.closedCleanly = true) :
    PeerClosed events i ∨ ClosedHere events i := by
  obtain ⟨error, hreason, hkind⟩ := Session.closedCleanly_iff.1 hclean
  obtain ⟨hother, hlose⟩ | ⟨-, hclosed | hdropped⟩ := (h.links i l hl).ended error hreason
  · exact Or.inl ⟨error, hkind.resolve_right hother, hlose⟩
  · exact Or.inr hclosed
  · exact absurd hdropped hlive

/-- Why the token of a session is cancelled although its connection has not been lost. -/
theorem Explained.stopped (h : Explained events s) {l : Link} (hl : s.links[i]? = some l)
    (hlive : l.live ≠ false) (htoken : s.cancelledFor l = true)
    (hend : l.session.closeReason = none ∨ l.session.closedCleanly = true) :
    Stopped events s i := by
  have hclean (hc : l.session.closedCleanly = true) : Stopped events s i := by
    obtain hpeer | hhere := h.closedCleanly hl hlive hc
    · exact Or.inr (Or.inr (Or.inl hpeer))
    · exact Or.inr (Or.inl hhere)
  have hown (hcancel : l.session.cancel = true) : Stopped events s i := by
    obtain hcancel | ⟨error, -, hlose⟩ := (h.links i l hl).cancelled hcancel
    · exact Or.inr (Or.inl (Or.inl hcancel))
    · obtain hreason | hclosed | hdropped := (h.links i l hl).lost error hlose
      · -- its connection has ended, so it has ended cleanly
        obtain hnone | hc := hend
        · rw [hnone] at hreason
          cases hreason
        · exact hclean hc
      · exact Or.inr (Or.inl hclosed)
      · exact absurd hdropped hlive
  simp only [cancelledFor, tokenCancelled, Bool.or_eq_true, List.any_eq_true, Bool.and_eq_true]
    at htoken
  obtain (hcancel | ⟨m, hm, hdialled, hcancel⟩) | hcancel := htoken
  · exact Or.inl (h.token hcancel)
  · obtain ⟨j, hj⟩ := List.mem_iff_getElem?.1 hm
    by_cases hij : j = i
    · subst hij
      cases hl.symm.trans hj
      exact hown hcancel
    · refine Or.inr (Or.inr (Or.inr ⟨j, m, hij, hj, hdialled, ?_⟩))
      obtain hcancel | ⟨error, -, hlose⟩ := (h.links j m hj).cancelled hcancel
      · exact Or.inl hcancel
      · exact Or.inr ⟨error, hlose⟩
  · exact hown hcancel

/-- An event of a session that was accepted cancels no other session. -/
theorem cancelledFor_of_accepted {event : LinkEvent} {l m : Link} (hl : s.links[i]? = some l)
    (haccepted : l.dialled = false) (hstep : s.step (.link i event) = some (s', outcome)) :
    s'.cancelledFor m = s.cancelledFor m := by
  obtain ⟨l₀, l', hl₀, hmove, rfl⟩ := step_link hstep
  cases hl.symm.trans hl₀
  have hdialled : l'.dialled = false := by
    cases hmove <;> exact haccepted
  obtain ⟨l₁, l₂, hsplit, hset, -⟩ := exists_split hl
  have hany : (s.links.set i l').any (fun l => l.dialled && l.session.cancel) =
      s.links.any fun l => l.dialled && l.session.cancel := by
    rw [hset, hsplit]
    simp only [List.any_append, List.any_cons, haccepted, hdialled, Bool.false_and]
  simp only [cancelledFor, tokenCancelled, hany]

/-- **A call that fails says why.**  In every run of a process, with any number of sessions and
whatever the library reports and when, no call panics, a call fails with the connection or because
it was cancelled, and an acceptor finds the peer done only after a clean close.  A call on a session
whose connection was lost does not fail as cancelled unless this side has closed it too; one that
does was stopped by its own session, by the process as a whole, or by another session that shares
the token.  Sessions that were accepted never stop each other. -/
theorem outcomes_explained {event : LinkEvent}
    (hrun : events.foldlM next (new bounds) = some s)
    (hstep : s.step (.link i event) = some (s', outcome)) :
    (outcome ≠ some .panicked ∧
      (outcome = some .ended → PeerClosed events i ∨ ClosedHere events i) ∧
      ∀ error, outcome = some (.failed error) →
        (FromTransport error ∨ error.code = .cancelled ∧ Stopped events s i) ∧
        ∀ reason, .link i (.lose reason) ∈ events → reason.kind ≠ .applicationClosed 0 →
          ¬ ClosedHere events i → FromTransport error) ∧
    ∀ l, s.links[i]? = some l → l.dialled = false →
      ∀ j m, j ≠ i → s'.links[j]? = some m →
        s.links[j]? = some m ∧ s'.cancelledFor m = s.cancelledFor m := by
  have hexplained := explained hrun
  obtain ⟨l, l', hl, hmove, hs'⟩ := step_link hstep
  have hinv := (hexplained.links i l hl).inv
  refine ⟨?_, ?_⟩
  · cases hmove with
    | returns _ hsplit hturn =>
      have hlive := hinv.live_of_call hsplit
      refine ⟨?_, ?_, ?_⟩
      · intro hpanicked
        cases hpanicked
        exact ((hinv.accounts_at hsplit).turn_over hturn (Link.countP_holdsLock_le _)).2 rfl
      · intro hended
        cases hended
        exact hexplained.closedCleanly hl hlive hturn.ended
      · intro error hfailed
        cases hfailed
        obtain ⟨hcode, htoken, hend⟩ | hfrom := hturn.failure hinv.accounts
        · refine ⟨Or.inr ⟨hcode, hexplained.stopped hl hlive htoken hend⟩, ?_⟩
          -- a lost connection explains itself
          intro reason hlose hkind hhere
          obtain hreason | hclosed | hdropped := (hexplained.links i l hl).lost reason hlose
          · obtain hnone | hclean := hend
            · rw [hnone] at hreason
              cases hreason
            · obtain ⟨error', herror', hkind'⟩ := Session.closedCleanly_iff.1 hclean
              cases hreason.symm.trans herror'
              obtain hpeer | hlocal := hkind'
              · exact absurd hpeer hkind
              · obtain ⟨hother, -⟩ | ⟨-, hclosed | hdropped⟩ :=
                  (hexplained.links i l hl).ended reason hreason
                · exact absurd hlocal hother
                · exact absurd hclosed hhere
                · exact absurd hdropped hlive
          · exact absurd hclosed hhere
          · exact absurd hdropped hlive
        · exact ⟨Or.inl hfrom, fun _ _ _ _ => hfrom⟩
    | _ => simp
  · intro l₀ hl₀ haccepted j m hji hm
    refine ⟨?_, cancelledFor_of_accepted hl₀ haccepted hstep⟩
    rw [hs'] at hm
    simpa only [List.getElem?_set_ne hji.symm] using hm

/-- Bounds for one transfer at a time. -/
def narrowBounds : TransportBounds := ⟨4096, 1, 262144⟩

/-- A peer that has gone silent. -/
def silent : ConnectionError := ⟨.timedOut, "timed out"⟩

/-- One of two sessions loses its peer while it waits for it. -/
def lostRun : List Event :=
  [.accept .established, .accept .early, .link 0 (.call (.acting "receive control bytes")),
    .link 0 (.lose silent), .link 0 .watch]

/-- The process after a run. -/
def after (run : List Event) : Endpoint :=
  (run.foldlM next (new narrowBounds)).getD (new narrowBounds)

theorem outcomes_explained_lost :
    lostRun.foldlM next (new narrowBounds) = some (after lostRun) ∧
      ∃ s' error, (after lostRun).step (.link 0 (.poll 0 .pending)) =
          some (s', some (.failed error)) ∧
        FromTransport error ∧ s'.links.map s'.cancelledFor = [true, false] := by
  have hrun : lostRun.foldlM next (new narrowBounds) = some (after lostRun) := rfl
  obtain ⟨s', error, hstep, htokens⟩ : ∃ s' error,
      (after lostRun).step (.link 0 (.poll 0 .pending)) = some (s', some (.failed error)) ∧
        s'.links.map s'.cancelledFor = [true, false] := ⟨_, _, rfl, rfl⟩
  refine ⟨hrun, s', error, hstep, ?_, htokens⟩
  refine ((outcomes_explained hrun hstep).1.2.2 error rfl).2 silent ?_ nofun ?_
  · simp [lostRun]
  · simp [ClosedHere, lostRun]

/-- **Transfers stay within their bound.**  In every run, the permits of a session and the transfers
that hold one, those that still wait for their stream included, are always as many as its bound says;
a transfer waits for a permit exactly while all of them are held; and when a session has been dropped
all its permits are back, its connection has ended and the task that watches it can finish. -/
theorem transfers_bounded (hrun : events.foldlM next (new bounds) = some s) {l : Link}
    (hl : s.links[i]? = some l) :
    l.session.transferPermits.permits + (l.calls.countP Call.holdsPermit + l.transfers) =
        l.session.bounds.maxParallelTransfers.toNat ∧
      (∀ k origin, l.calls[k]? = some (.reserving origin) → s.cancelledFor l = false →
        (s.next (.link i (.poll k .pending)) = none ↔
          l.calls.countP Call.holdsPermit + l.transfers =
            l.session.bounds.maxParallelTransfers.toNat)) ∧
      (l.live = false →
        l.session.transferPermits.permits = l.session.bounds.maxParallelTransfers.toNat ∧
        l.session.closeReason ≠ none ∧
        (l.watching = true → s.next (.link i .watch) ≠ none)) := by
  have hinv := ((explained hrun).links i l hl).inv
  have hpermits := hinv.accounts.permits
  refine ⟨hpermits.permits, ?_, ?_⟩
  · intro k origin hcall htoken
    rw [← hpermits.acquire_eq_none_iff]
    have hpossible : Ready.pending.Possible l.session := nofun
    cases hacquire : l.session.transferPermits.acquire with
    | none =>
      simp [next, step, hl, Link.step, hcall, hpossible, Call.poll, Session.guardedIn, htoken,
        hacquire]
    | some result =>
      cases result with
      | error e => exact absurd hacquire hpermits.acquire_ne_error
      | ok permits =>
        simp [next, step, hl, Link.step, hcall, hpossible, Call.poll, Session.guardedIn, htoken,
          hacquire, Except.mapError]
  · intro hdropped
    obtain ⟨hcalls, htransfers, hended⟩ := hinv.dropped hdropped
    refine ⟨?_, hended, ?_⟩
    · have hall := hpermits.permits
      rw [hcalls, htransfers] at hall
      exact hall
    · intro hwatching
      obtain ⟨error, herror⟩ := Option.ne_none_iff_exists'.1 hended
      simp [next, step, hl, Link.step, herror, hwatching]

/-- A transfer has the only permit and a second one waits for it. -/
def fullRun : List Event :=
  [.accept .established, .link 0 (.call (.reserving .opened)), .link 0 (.poll 0 .pending),
    .link 0 (.call (.reserving .opened))]

theorem transfers_bounded_full :
    fullRun.foldlM next (new narrowBounds) = some (after fullRun) ∧
      (after fullRun).next (.link 0 (.poll 1 .pending)) = none := by
  have hrun : fullRun.foldlM next (new narrowBounds) = some (after fullRun) := rfl
  obtain ⟨l, hl, hcall, htoken, hheld⟩ : ∃ l, (after fullRun).links[0]? = some l ∧
      l.calls[1]? = some (.reserving .opened) ∧ (after fullRun).cancelledFor l = false ∧
      l.calls.countP Call.holdsPermit + l.transfers =
        l.session.bounds.maxParallelTransfers.toNat := ⟨_, rfl, rfl, rfl, rfl⟩
  exact ⟨hrun, ((transfers_bounded hrun hl).2.1 1 .opened hcall htoken).2 hheld⟩

end Endpoint

end Transport

end QuicSync
