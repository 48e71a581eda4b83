import QuicSync.Transport.Lifecycle

/-!
# The handshake gate and the end of a cancelled session

Both tasks of a source pass the gate of their session, and either may find out the outcome of the
handshake for the other: a cell holds the outcome, one of the calls computes it, and a lock stands
around the handshake.  The endpoints of a session are modelled with the gate as one step
(`Connection.confirmHandshake`).

* `Endpoint.gate_refines`: every call of the gate is that step at the moment it returns, and no call
  waits for the lock.
* `Endpoint.cancelled_calls_end`: once a session is cancelled all its calls return when they are
  polled, with no help from the library.
-/

namespace QuicSync

namespace Transport

/-- The call passes the gate. -/
def Call.passesGate : Call → Bool
  | confirming => true
  | locking => true
  | awaiting => true
  | _ => false

/-- What waiting for the handshake returns at the gate. -/
def Ready.handshake (s : Session) : Ready → Except QuicSyncError Bool
  | accepted value => .ok value
  | _ => .error (s.interrupted "handshake")

/-- Why the connection has been closed, as the gate says it. -/
def Session.gateReason (s : Session) : Option QuicSyncError :=
  s.closeReason.map (describe · "handshake")

section

variable {tokenCancelled : Bool} {ready : Ready} {s s' : Session} {call call' : Call}
  {outcome : Outcome} {p k i : ℕ}

/-- The outcome of the handshake as the gate finds it. -/
def Session.Outcomes (s : Session) (ready : Ready) (value : Bool) : Prop :=
  s.handshakeAccepted.get = some value ∨ s.handshakeAccepted.get = none ∧
    (s.earlyHandshake ≠ none ∧ ready = .accepted value ∨ s.earlyHandshake = none ∧ value = true)

/-- The gate with an outcome that is already known. -/
theorem Session.confirmHandshake_known {value : Bool} (handshake : Except QuicSyncError Bool) :
    Connection.confirmHandshake { s.connection with handshakeAccepted := some value } handshake
        s.gateReason =
      (s.gate value, { s.connection with handshakeAccepted := some value }) := by
  unfold Connection.confirmHandshake gate gateReason
  cases s.closeReason with
  | some error => rfl
  | none =>
    show (if value || !s.attemptedEarly then _ else _) = (if value || !s.attemptedEarly then _ else _, _)
    split <;> rfl

/-- The gate with an outcome. -/
theorem Session.confirmHandshake_of_outcome {value : Bool} (h : s.Outcomes ready value) :
    s.connection.confirmHandshake (ready.handshake s) s.gateReason =
      (s.gate value, { s.connection with handshakeAccepted := some value }) := by
  rw [← s.confirmHandshake_known (ready.handshake s)]
  unfold Connection.confirmHandshake
  obtain hknown | ⟨hunknown, ⟨hearly, rfl⟩ | ⟨hearly, rfl⟩⟩ := h
  · simp only [connection, hknown]
  · simp only [connection, hunknown, Option.isSome_iff_ne_none.2 hearly, Ready.handshake, if_true]
  · simp only [connection, hunknown, hearly, Option.isSome_none, Bool.false_eq_true, if_false]

/-- The gate with a handshake that is interrupted. -/
theorem Session.confirmHandshake_of_interrupt (hunknown : s.handshakeAccepted.get = none)
    (hearly : s.earlyHandshake ≠ none) (hready : ∀ value, ready ≠ .accepted value) :
    s.connection.confirmHandshake (ready.handshake s) s.gateReason =
      (.error (s.interrupted "handshake"), s.connection) := by
  have hhandshake : ready.handshake s = .error (s.interrupted "handshake") := by
    cases ready with
    | accepted value => exact absurd rfl (hready value)
    | _ => rfl
  unfold Connection.confirmHandshake
  simp [connection, hunknown, Option.isSome_iff_ne_none.2 hearly, hhandshake]

/-- A call that goes on leaves the connection as its users see it. -/
theorem Turn.connection_on (hturn : Turn tokenCancelled ready s call s' (.inl call')) :
    s'.connection = s.connection := by
  cases hturn with
  | reserve _ _ => rfl
  | enter hempty => simp [Session.connection, hempty, OnceCell.get]
  | lock _ _ => rfl

/-- A call that does not pass the gate leaves the connection as its users see it. -/
theorem Turn.connection_over (hturn : Turn tokenCancelled ready s call s' (.inr outcome))
    (hcall : call.passesGate = false) : s'.connection = s.connection := by
  cases hturn <;> first | rfl | cases hcall

/-- A call of the gate that returns is the gate at that moment. -/
theorem Turn.gate (hturn : Turn tokenCancelled ready s call s' (.inr outcome))
    (hcall : call.passesGate = true)
    (h : Accounts s (p + if call.holdsPermit then 1 else 0) (k + if call.holdsLock then 1 else 0)
      (i + if call.initializes then 1 else 0)) :
    ∃ result, s.connection.confirmHandshake (ready.handshake s) s.gateReason =
        (result, s'.connection) ∧ outcome = .ofExcept result := by
  cases hturn with
  | confirm hknown =>
    rename_i value
    have hget : s.handshakeAccepted.get = some value := by simp [hknown, OnceCell.get]
    refine ⟨_, (Session.confirmHandshake_of_outcome (Or.inl hget)).trans ?_, rfl⟩
    simp [Session.connection, hget]
  | unneeded hover =>
    have hget : s.handshakeAccepted.get = none := by simp [h.initializing.2, OnceCell.get]
    exact ⟨_, Session.confirmHandshake_of_outcome (Or.inr ⟨hget, Or.inr ⟨hover, rfl⟩⟩), rfl⟩
  | accept hpending haccepted =>
    have hget : s.handshakeAccepted.get = none := by simp [h.initializing.2, OnceCell.get]
    refine ⟨_, (Session.confirmHandshake_of_outcome
      (Or.inr ⟨hget, Or.inl ⟨by simp [hpending], haccepted⟩⟩)).trans ?_, rfl⟩
    simp [Session.connection, hpending, OnceCell.get]
  | interrupt hpending hstopped hready =>
    have hget : s.handshakeAccepted.get = none := by simp [h.initializing.2, OnceCell.get]
    refine ⟨.error (s.interrupted "handshake"), ?_, rfl⟩
    rw [Session.confirmHandshake_of_interrupt hget (by simp [hpending]) hready]
    simp [Session.connection, h.initializing.2, OnceCell.get]
  | unlockable hclosed => exact absurd hclosed h.lock.acquire_ne_error
  | repolled hover => exact absurd h.pending hover
  | _ => cases hcall

theorem Call.connection_abandon
    (h : Accounts s (p + if call.holdsPermit then 1 else 0) (k + if call.holdsLock then 1 else 0)
      (i + if call.initializes then 1 else 0)) : (call.abandon s).connection = s.connection := by
  cases call with
  | locking => simp [abandon, Session.connection, h.initializing.2, OnceCell.get]
  | awaiting => simp [abandon, Session.connection, h.initializing.2, OnceCell.get]
  | _ => rfl

/-- The number of polls that a call of a cancelled session takes at most. -/
def Call.weight : Call → ℕ
  | confirming => 3
  | locking => 2
  | _ => 1

/-- The weight of what is left of a call. -/
def restWeight : Call ⊕ Outcome → ℕ
  | .inl call => call.weight
  | .inr _ => 0

/-- A poll of a cancelled call brings it nearer to its end, and starts no transfer. -/
theorem Turn.of_cancelled {rest : Call ⊕ Outcome} (hturn : Turn true ready s call s' rest) :
    restWeight rest < call.weight ∧ rest ≠ .inr .transfer := by
  have hexcept (result : Except QuicSyncError Unit) :
      (Sum.inr (Outcome.ofExcept result) : Call ⊕ Outcome) ≠ .inr .transfer := by
    cases result <;> simp [Outcome.ofExcept]
  cases hturn with
  | reserve hrunning _ => cases hrunning
  | establish hrunning => cases hrunning
  | unreserved _ => exact ⟨Nat.one_pos, by simp⟩
  | unestablished _ =>
    refine ⟨Nat.one_pos, ?_⟩
    split <;> simp
  | act _ => exact ⟨Nat.one_pos, hexcept _⟩
  | confirm _ => exact ⟨Nat.succ_pos 2, hexcept _⟩
  | enter _ => exact ⟨Nat.lt_succ_self 2, by simp⟩
  | lock _ _ => exact ⟨Nat.lt_succ_self 1, by simp⟩
  | unneeded _ => exact ⟨Nat.succ_pos 1, hexcept _⟩
  | accept _ _ => exact ⟨Nat.one_pos, hexcept _⟩
  | interrupt _ _ _ => exact ⟨Nat.one_pos, by simp⟩
  | unlockable _ => exact ⟨Nat.succ_pos 1, by simp⟩
  | repolled _ => exact ⟨Nat.one_pos, by simp⟩

/-- A call of a cancelled session waits only for the call that finds out the outcome of the
handshake. -/
theorem Call.poll_of_cancelled
    (h : Accounts s (p + if call.holdsPermit then 1 else 0) (k + if call.holdsLock then 1 else 0)
      (i + if call.initializes then 1 else 0)) (hki : k ≤ i)
    (hcell : call = .confirming → s.handshakeAccepted ≠ .initializing) :
    call.poll true .pending s ≠ none := by
  cases call with
  | reserving origin => simp [poll, Session.guardedIn]
  | establishing origin => simp [poll, Session.guardedIn]
  | acting action => simp [poll, Session.guardedIn]
  | confirming =>
    cases haccepted : s.handshakeAccepted with
    | empty => simp [poll, haccepted]
    | initializing => exact absurd haccepted (hcell rfl)
    | initialized value => simp [poll, haccepted]
  | locking =>
    simp only [poll]
    split
    · rename_i hwaits
      exact absurd hwaits (h.lock_free hki)
    · exact Option.some_ne_none _
    · split <;> exact Option.some_ne_none _
  | awaiting => simp [poll, h.pending]

end

namespace Endpoint

variable {bounds : TransportBounds} {events : List Event} {s : Endpoint} {i : ℕ} {l : Link}

/-- **The gate is one step.**  In every run, and however the calls of a session's tasks interleave, a
call of the gate returns what the gate returns as one step at that moment and leaves the connection
as that step does; nothing else changes what the connection knows of its handshake.  At most one call
finds out the outcome, and it never waits for the lock. -/
theorem gate_refines (hrun : events.foldlM next (new bounds) = some s)
    (hl : s.links[i]? = some l) :
    l.calls.countP Call.initializes ≤ 1 ∧
      (∀ k ready, l.calls[k]? = some .locking → ready.Possible l.session →
        s.next (.link i (.poll k ready)) ≠ none) ∧
      ∀ event s' outcome, s.step (.link i event) = some (s', outcome) →
        ∃ l', s'.links[i]? = some l' ∧
          ((∃ k ready call result, event = .poll k ready ∧ l.calls[k]? = some call ∧
              call.passesGate = true ∧
              l.session.connection.confirmHandshake (ready.handshake l.session)
                l.session.gateReason = (result, l'.session.connection) ∧
              outcome = some (.ofExcept result)) ∨
            (l'.session.connection = l.session.connection ∧
              ∀ k ready call, event = .poll k ready → l.calls[k]? = some call →
                call.passesGate = true → outcome = none)) := by
  have hinv := ((explained hrun).links i l hl).inv
  have hi : i < s.links.length := (List.getElem?_eq_some_iff.1 hl).1
  refine ⟨?_, ?_, ?_⟩
  · have hcell := hinv.accounts.cell
    split at hcell <;> omega
  · intro k ready hcall hpossible hnone
    obtain ⟨l₁, l₂, hsplit, -, -⟩ := exists_split hcall
    have hfree : l.session.handshakeLock.acquire ≠ none :=
      (hinv.accounts_at hsplit).lock_free (Link.countP_holdsLock_le _)
    simp only [next, step, hl, Link.step, hcall, hpossible, if_true, Call.poll, Option.map_map,
      Option.map_eq_none_iff] at hnone
    split at hnone
    · rename_i hpoll
      split at hpoll
      · rename_i hwaits
        exact hfree hwaits
      · cases hpoll
      · split at hpoll <;> cases hpoll
    · cases hnone
    · cases hnone
  · intro event s' outcome hstep
    obtain ⟨l₀, l', hl₀, hmove, rfl⟩ := step_link hstep
    cases hl.symm.trans hl₀
    refine ⟨l', List.getElem?_set_self hi, ?_⟩
    cases hmove with
    | goOn _ _ hturn => exact Or.inr ⟨hturn.connection_on, fun _ _ _ _ _ _ => rfl⟩
    | returns hcall hsplit hturn =>
      rename_i k ready l₁ l₂ call session outcome
      by_cases hgate : call.passesGate = true
      · obtain ⟨result, hresult, rfl⟩ := hturn.gate hgate (hinv.accounts_at hsplit)
        exact Or.inl ⟨k, ready, call, result, rfl, hcall, hgate, hresult, rfl⟩
      · refine Or.inr ⟨hturn.connection_over (Bool.eq_false_iff.2 hgate), ?_⟩
        rintro k' ready' call' heq hcall' hgate'
        cases heq
        cases hcall.symm.trans hcall'
        exact absurd hgate' hgate
    | abandon hsplit =>
      exact Or.inr ⟨Call.connection_abandon (hinv.accounts_at hsplit), fun _ _ _ _ _ _ => rfl⟩
    | close _ _ hclose =>
      refine Or.inr ⟨?_, fun _ _ _ _ _ _ => rfl⟩
      obtain ⟨error, -, rfl⟩ | ⟨-, rfl⟩ := Session.close_eq_some hclose <;> rfl
    | drop _ _ hclose =>
      refine Or.inr ⟨?_, fun _ _ _ _ _ _ => rfl⟩
      obtain ⟨error, -, rfl⟩ | ⟨-, rfl⟩ := Session.close_eq_some hclose <;> rfl
    | _ => exact Or.inr ⟨rfl, fun _ _ _ _ _ _ => rfl⟩

/-- Two tasks pass the gate of a connection that was started with early data; the first of them waits
for the handshake. -/
def gateRun : List Event :=
  [.dial narrowBounds .early, .link 0 (.call .confirming), .link 0 (.call .confirming),
    .link 0 (.poll 0 .pending), .link 0 (.poll 0 .pending)]

theorem gate_refines_rejected :
    gateRun.foldlM next (new narrowBounds) = some (after gateRun) ∧
      ∃ l s' l' error, (after gateRun).links[0]? = some l ∧ l.calls = [.awaiting, .confirming] ∧
        (after gateRun).step (.link 0 (.poll 0 (.accepted false))) =
          some (s', some (.failed error)) ∧
        s'.links[0]? = some l' ∧
        l.session.connection.confirmHandshake (.ok false) none =
          (.error error, l'.session.connection) := by
  have hrun : gateRun.foldlM next (new narrowBounds) = some (after gateRun) := rfl
  obtain ⟨l, s', error, hl, hcalls, hreason, hstep⟩ : ∃ l s' error,
      (after gateRun).links[0]? = some l ∧ l.calls = [.awaiting, .confirming] ∧
      l.session.gateReason = none ∧
      (after gateRun).step (.link 0 (.poll 0 (.accepted false))) =
        some (s', some (.failed error)) := ⟨_, _, _, rfl, rfl, rfl, rfl⟩
  obtain ⟨l', hl', ⟨k, ready, call, result, heq, hcall, -, hgate, hresult⟩ | ⟨-, hwaits⟩⟩ :=
    (gate_refines hrun hl).2.2 _ _ _ hstep
  · cases heq
    refine ⟨hrun, l, s', l', error, hl, hcalls, hstep, hl', ?_⟩
    rw [hreason] at hgate
    cases result with
    | ok u => cases hresult
    | error e =>
      cases hresult
      exact hgate
  · cases hwaits 0 (.accepted false) .awaiting rfl (by rw [hcalls]; rfl) rfl

/-- The polls that the calls of a cancelled session take at most. -/
def weight (l : Link) : ℕ := (l.calls.map Call.weight).sum

/-- What a poll does to a cancelled session. -/
structure Draining (s : Endpoint) (i : ℕ) (l : Link) : Prop where
  here : s.links[i]? = some l
  inv : l.Inv
  cancelled : s.cancelledFor l = true

variable {s' : Endpoint} {k : ℕ}

theorem Draining.poll (h : Draining s i l) (hnext : s.next (.link i (.poll k .pending)) = some s') :
    ∃ l', Draining s' i l' ∧ l'.transfers = l.transfers ∧ weight l' < weight l := by
  obtain ⟨⟨s', outcome⟩, hstep, rfl⟩ := Option.map_eq_some_iff.1 hnext
  obtain ⟨l₀, l', hl₀, hmove, rfl⟩ := step_link hstep
  cases h.here.symm.trans hl₀
  have hi : i < s.links.length := (List.getElem?_eq_some_iff.1 h.here).1
  have hinv' := h.inv.move hmove
  -- the token stays cancelled: no call changes it
  have hcancelled (hdialled : l'.dialled = l.dialled)
      (hcancel : l'.session.cancel = l.session.cancel) :
      cancelledFor { s with links := s.links.set i l' } l' = true := by
    have htoken := h.cancelled
    obtain ⟨l₁, l₂, hsplit, hset, -⟩ := exists_split h.here
    simp only [cancelledFor, tokenCancelled] at htoken ⊢
    rw [hset, hcancel]
    rw [hsplit] at htoken
    simpa only [List.any_append, List.any_cons, hdialled, hcancel] using htoken
  rw [h.cancelled] at hmove
  cases hmove with
  | goOn _ hsplit hturn =>
    refine ⟨_, ⟨List.getElem?_set_self hi, hinv', hcancelled rfl hturn.frame.2.1⟩, rfl, ?_⟩
    have hlt := hturn.of_cancelled.1
    simp only [weight, hsplit, List.map_append, List.map_cons, List.sum_append, List.sum_cons]
    simp only [restWeight] at hlt
    omega
  | returns _ hsplit hturn =>
    obtain ⟨hlt, htransfer⟩ := hturn.of_cancelled
    refine ⟨_, ⟨List.getElem?_set_self hi, hinv', hcancelled rfl hturn.frame.2.1⟩, ?_, ?_⟩
    · rw [if_neg]
      rintro rfl
      exact htransfer rfl
    · simp only [weight, hsplit, List.map_append, List.map_cons, List.sum_append, List.sum_cons]
      simp only [restWeight] at hlt
      omega

/-- While a cancelled session has calls, one of them does not wait. -/
theorem Draining.progress (h : Draining s i l) (hcalls : l.calls ≠ []) :
    ∃ k, s.next (.link i (.poll k .pending)) ≠ none := by
  -- the call that finds out the outcome of the handshake, if there is one
  obtain ⟨call, hmem, hcell⟩ : ∃ call ∈ l.calls,
      call = .confirming → l.session.handshakeAccepted ≠ .initializing := by
    by_cases hinit : ∃ call ∈ l.calls, call.initializes = true
    · obtain ⟨call, hmem, hcall⟩ := hinit
      refine ⟨call, hmem, ?_⟩
      rintro rfl
      cases hcall
    · obtain ⟨call, rest, hcons⟩ := List.exists_cons_of_ne_nil hcalls
      refine ⟨call, by simp [hcons], ?_⟩
      intro _ hinitializing
      have hcount := h.inv.accounts.cell
      rw [if_pos hinitializing, List.countP_eq_zero.2 fun c hc hi => hinit ⟨c, hc, hi⟩] at hcount
      cases hcount
  obtain ⟨k, hk⟩ := List.mem_iff_getElem?.1 hmem
  obtain ⟨l₁, l₂, hsplit, -, -⟩ := exists_split hk
  have hpoll : call.poll true .pending l.session ≠ none :=
    Call.poll_of_cancelled (h.inv.accounts_at hsplit) (Link.countP_holdsLock_le _) hcell
  have hpossible : Ready.pending.Possible l.session := nofun
  refine ⟨k, ?_⟩
  simp only [next, step, h.here, Link.step, hk, hpossible, if_true, h.cancelled, ne_eq,
    Option.map_eq_none_iff]
  split
  · rename_i hnone
    exact absurd hnone hpoll
  · exact Option.some_ne_none _
  · exact Option.some_ne_none _

theorem Draining.run {polls : List ℕ} (h : Draining s i l)
    (hpolls : (polls.map fun k => Event.link i (.poll k .pending)).foldlM next s = some s') :
    ∃ l', Draining s' i l' ∧ l'.transfers = l.transfers ∧ polls.length + weight l' ≤ weight l := by
  induction polls generalizing s l with
  | nil =>
    cases hpolls
    exact ⟨l, h, rfl, (Nat.zero_add _).le⟩
  | cons k polls ih =>
    rw [List.map_cons, List.foldlM_cons] at hpolls
    obtain ⟨s₁, hfirst, hrest⟩ := Option.bind_eq_some_iff.1 hpolls
    obtain ⟨l₁, h₁, htransfers₁, hlt⟩ := h.poll hfirst
    obtain ⟨l', h', htransfers, hle⟩ := ih h₁ hrest
    refine ⟨l', h', htransfers.trans htransfers₁, ?_⟩
    rw [List.length_cons]
    omega

theorem weight_le (l : Link) : weight l ≤ 3 * l.calls.length := by
  unfold weight
  induction l.calls with
  | nil => rfl
  | cons call calls ih =>
    have hcall : call.weight ≤ 3 := by cases call <;> simp [Call.weight]
    simp only [List.map_cons, List.sum_cons, List.length_cons]
    omega

/-- **A cancelled session comes to an end.**  In every run, once the token of a session is cancelled
its calls return by being polled alone, with no help from the library: in whatever order they are
polled there are at most three polls for each, while any is left one does not wait, and none of them
starts a transfer. -/
theorem cancelled_calls_end (hrun : events.foldlM next (new bounds) = some s)
    (hl : s.links[i]? = some l) (hcancelled : s.cancelledFor l = true) (polls : List ℕ)
    (hpolls : (polls.map fun k => Event.link i (.poll k .pending)).foldlM next s = some s') :
    polls.length ≤ 3 * l.calls.length ∧
      ∃ l', s'.links[i]? = some l' ∧ l'.transfers = l.transfers ∧
        (l'.calls ≠ [] → ∃ k, s'.next (.link i (.poll k .pending)) ≠ none) := by
  have hdraining : Draining s i l := ⟨hl, ((explained hrun).links i l hl).inv, hcancelled⟩
  obtain ⟨l', h', htransfers, hle⟩ := hdraining.run hpolls
  have hbound := weight_le l
  exact ⟨by omega, l', h'.here, htransfers, h'.progress⟩

/-- The process is cancelled while the two tasks wait. -/
def cancelledRun : List Event := gateRun ++ [.cancel]

theorem cancelled_calls_end_gate :
    cancelledRun.foldlM next (new narrowBounds) = some (after cancelledRun) ∧
      ∃ s' l', ([0, 0, 0, 0].map fun k => Event.link 0 (.poll k .pending)).foldlM next
          (after cancelledRun) = some s' ∧
        s'.links[0]? = some l' ∧ l'.calls = [] ∧ l'.transfers = 0 := by
  have hrun : cancelledRun.foldlM next (new narrowBounds) = some (after cancelledRun) := rfl
  obtain ⟨l, s', hl, hcancelled, hfree, hpolls, hcalls⟩ : ∃ l s',
      (after cancelledRun).links[0]? = some l ∧ (after cancelledRun).cancelledFor l = true ∧
      l.transfers = 0 ∧
      ([0, 0, 0, 0].map fun k => Event.link 0 (.poll k .pending)).foldlM next
        (after cancelledRun) = some s' ∧
      s'.links[0]?.map (·.calls) = some [] := ⟨_, _, rfl, rfl, rfl, rfl, rfl⟩
  obtain ⟨-, l', hl', htransfers, -⟩ := cancelled_calls_end hrun hl hcancelled [0, 0, 0, 0] hpolls
  rw [hl', Option.map_some, Option.some.injEq] at hcalls
  exact ⟨hrun, s', l', hpolls, hl', hcalls, htransfers.trans hfree⟩

end Endpoint

end Transport

end QuicSync
