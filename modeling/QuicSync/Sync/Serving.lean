import QuicSync.Sync.Source

/-!
# What the source does in every run

`Source.Inv` is the invariant of `run_inner`, whatever the order of its events and wherever it fails.

* The loop of the serving task takes the messages it expects in their order, and stops at the first
  other one (`ServingTask.Handled`).
* No message is lost and none is taken twice: what the loop has taken and what waits are together
  the messages of all bytes read (`Inv.received`), whatever other events came in between.
* A job that has been accepted is joined before the task returns.
-/

namespace QuicSync

/-- The messages that the loop of the serving task expects, in order. -/
def expectedControl : List Control := [.startAccepted, .planEnd, .completeAck]

namespace ServingTask

/-- What the loop has taken by then. -/
def Handled (handled : List Control) : ServingTask → Prop
  | .confirming | .looping false false => handled = []
  | .looping true false => handled = [.startAccepted]
  | .looping true true => handled = [.startAccepted, .planEnd]
  | .looping false true => False
  | .draining | .closing | .returned (.ok _) => handled = expectedControl
  -- the loop ends with the first message that it does not expect
  | .returned (.error _) => handled.dropLast <+: expectedControl

/-- The task has not failed. -/
def intact : ServingTask → Bool
  | .returned (.error _) => false
  | _ => true

theorem Handled.within {task : ServingTask} {handled : List Control} (h : task.Handled handled)
    (hintact : task.intact = true) : handled <+: expectedControl := by
  cases task with
  | confirming =>
    obtain rfl := h
    exact List.nil_prefix
  | looping accepted planned =>
    cases accepted <;> cases planned
    · obtain rfl := h
      exact List.nil_prefix
    · cases h
    · obtain rfl := h
      exact List.prefix_append [Control.startAccepted] _
    · obtain rfl := h
      exact List.prefix_append [Control.startAccepted, Control.planEnd] _
  | draining =>
    obtain rfl := h
    exact List.prefix_rfl
  | closing =>
    obtain rfl := h
    exact List.prefix_rfl
  | returned result =>
    cases result with
    | ok _ =>
      obtain rfl := h
      exact List.prefix_rfl
    | error e => cases hintact

/-- The loop is over. -/
theorem Handled.over {task : ServingTask} {handled : List Control} (h : task.Handled handled)
    (hover : task = .draining ∨ task = .closing ∨ task = .returned (.ok ())) :
    handled = expectedControl := by
  rcases hover with rfl | rfl | rfl
  · exact h
  · exact h
  · exact h

/-- The loop has taken a message that it does not expect. -/
theorem Handled.failed {task : ServingTask} {handled : List Control} (h : task.Handled handled)
    (hother : ¬ handled <+: expectedControl) : ∃ e, task = .returned (.error e) := by
  by_contra hnone
  refine hother (h.within ?_)
  cases task with
  | returned result =>
    cases result with
    | ok _ => rfl
    | error e => exact absurd ⟨e, rfl⟩ hnone
  | _ => rfl

/-- A task that fails without taking a message. -/
theorem Handled.fail {task : ServingTask} {handled : List Control} {e : Abort QuicSyncError}
    (h : task.Handled handled) : (returned (.error e)).Handled handled := by
  cases hintact : task.intact with
  | true => exact (List.dropLast_prefix handled).trans (h.within hintact)
  | false =>
    cases task with
    | returned result =>
      cases result with
      | ok _ => cases hintact
      | error e' => exact h
    | confirming => cases hintact
    | looping accepted planned => cases hintact
    | draining => cases hintact
    | closing => cases hintact

/-- Taking one more message. -/
theorem Handled.handle {accepted planned : Bool} {handled : List Control} (message : Control)
    (h : (looping accepted planned).Handled handled) :
    match handleControl accepted planned message with
    | .ok (some (accepted, planned)) =>
      (looping accepted planned).Handled (handled ++ [message])
    | .ok none => draining.Handled (handled ++ [message])
    | .error e => (returned (.error (.error e))).Handled (handled ++ [message]) := by
  have hother : (handled ++ [message]).dropLast <+: expectedControl := by
    rw [List.dropLast_concat]
    exact h.within rfl
  cases accepted <;> cases planned
  · obtain rfl := h
    cases message with
    | startAccepted => rfl
    | _ => exact hother
  · cases h
  · obtain rfl := h
    cases message with
    | planEnd => rfl
    | _ => exact hother
  · obtain rfl := h
    cases message with
    | completeAck => rfl
    | _ => exact hother

end ServingTask

namespace Source

variable {n : ℕ} {cfg : Sourcing} {s s' : Source n}

/-- What holds in every run. -/
structure Inv (cfg : Sourcing) (s : Source n) : Prop where
  starting : s.phase = .starting → s.control = .empty Control
  control : s.control.sent <+: [.startSync cfg.rootId] ∧
    s.control.bytes <+: frame (Control.startSync cfg.rootId)
  /-- Both tasks that send pass the gate before they do. -/
  unconfirmed : s.confirmed = false →
    s.index = .empty IndexMessage ∧ s.jobs = [] ∧ s.responses = [] ∧ s.accepted = 0 ∧
      (s.indexing = .confirming ∨ ∃ e, s.indexing = .returned (.error e)) ∧
      (s.serving = .confirming ∨ ∃ e, s.serving = .returned (.error e))
  handled : s.serving.Handled s.handled
  received : s.serving.intact = true →
    (Decoder.new (CodecLimits.ofLimits cfg.limits)).push s.controlRead =
      (.ok (s.handled ++ s.messages.pending), s.messages.decoder)
  jobs : s.jobs.length + s.results.length = s.accepted
  results : s.serving.intact = true → ∀ result ∈ s.results, result = .ok ()
  idle : s.serving = .closing ∨ s.serving = .returned (.ok ()) → s.jobs = []
  returned : s.phase = .returned (.ok ()) → ∀ task, s.resultOf task = some (.ok ())

theorem inv_start (cfg : Sourcing) (connection : Connection) : (start cfg connection).Inv cfg where
  starting := fun _ => rfl
  control := ⟨ List.nil_prefix, List.nil_prefix⟩
  unconfirmed := fun _ => ⟨rfl, rfl, rfl, rfl, Or.inl rfl, Or.inl rfl⟩
  handled := rfl
  received := fun _ => Decoder.incremental_push.nil _
  jobs := rfl
  results := fun _ _ hr => nomatch hr
  idle := by
    rintro (h | h) <;> cases h
  returned := fun h => nomatch h

theorem whenRunning_eq_some {o : Option (Source n)} :
    s.whenRunning o = some s' ↔ s.phase = .running ∧ o = some s' := by
  unfold whenRunning
  cases h : s.phase with
  | running => simp
  | starting => simp
  | returned result => simp

/-- A session that runs has not returned. -/
theorem not_returned (hphase : s.phase = .running) {P : Prop} : s.phase = .returned (.ok ()) → P := by
  intro heq
  rw [hphase] at heq
  cases heq

theorem Inv.start (h : s.Inv cfg) {streams root : Except QuicSyncError Unit}
    {fault : Option (ℕ × QuicSyncError)} (hphase : s.phase = .starting) :
    (s.startStep cfg streams fault root).Inv cfg := by
  unfold startStep
  cases streams with
  | error e =>
    exact { h with
      starting := fun heq => nomatch heq
      returned := fun heq => nomatch heq }
  | ok _ =>
    cases hsend : s.control.send cfg.limits (.startSync cfg.rootId) fault with
    | mk result control =>
      rw [h.starting hphase] at hsend
      cases result with
      | error e =>
        obtain ⟨k, rfl⟩ := Outgoing.send_error hsend
        exact { h with
          starting := fun heq => nomatch heq
          control := ⟨ List.nil_prefix, List.take_prefix k _⟩
          returned := fun heq => nomatch heq }
      | ok _ =>
        obtain rfl := Outgoing.send_ok hsend
        cases root with
        | error e =>
          exact { h with
            starting := fun heq => nomatch heq
            control := ⟨List.prefix_rfl, List.prefix_rfl⟩
            returned := fun heq => nomatch heq }
        | ok _ =>
          exact { h with
            starting := fun heq => nomatch heq
            control := ⟨List.prefix_rfl, List.prefix_rfl⟩
            returned := fun heq => nomatch heq }

/-- Nothing depends on where the scan is. -/
theorem Inv.scan (h : s.Inv cfg) (hphase : s.phase = .running)
    (hstep : s.scanStep cfg = some s') : s'.Inv cfg := by
  unfold scanStep at hstep
  split at hstep
  · obtain ⟨sent, -, rfl⟩ := Option.map_eq_some_iff.1 hstep
    cases sent with
    | ok channel => exact { h with returned := not_returned hphase }
    | error _ => exact { h with returned := not_returned hphase }
  · cases hstep
    exact { h with returned := not_returned hphase }
  · cases hstep

/-! ### The indexing task -/

/-- A task that sends has passed the gate. -/
theorem Inv.confirmed_of_indexing {indexing : IndexTask} (h : s.Inv cfg)
    (hindexing : s.indexing = indexing)
    (hnot : indexing ≠ .confirming ∧ ∀ e, indexing ≠ .returned (.error e)) :
    s.confirmed = true := by
  subst hindexing
  cases hconfirmed : s.confirmed with
  | true => rfl
  | false =>
    obtain ⟨-, -, -, -, hindexing | ⟨e, hindexing⟩, -⟩ := h.unconfirmed hconfirmed
    · exact absurd hindexing hnot.1
    · exact absurd hindexing (hnot.2 e)

/-- The indexing task goes on behind the gate, or fails. -/
theorem Inv.index {channel : Channel n IndexItem} {index : Outgoing IndexMessage}
    {indexing : IndexTask} (h : s.Inv cfg) (hphase : s.phase = .running)
    (hconfirmed : s.confirmed = true) :
    { s with channel := channel, index := index, indexing := indexing }.Inv cfg :=
  { h with
    unconfirmed := fun hfalse => absurd (hconfirmed.symm.trans hfalse) Bool.noConfusion
    returned := not_returned hphase }

theorem Inv.sendIndex {fault : Option (ℕ × QuicSyncError)} (h : s.Inv cfg)
    (hphase : s.phase = .running) (hstep : s.sendIndexStep cfg fault = some s') : s'.Inv cfg := by
  unfold sendIndexStep at hstep
  split at hstep
  · rename_i hindexing
    have hconfirmed := h.confirmed_of_indexing hindexing (by simp)
    obtain ⟨received, -, rfl⟩ := Option.map_eq_some_iff.1 hstep
    match received with
    | none => exact h.index hphase hconfirmed
    | some (.error e, channel) => exact h.index hphase hconfirmed
    | some (.ok message, channel) =>
      simp only
      split
      · exact h.index hphase hconfirmed
      · exact h.index hphase hconfirmed
  · cases hstep

/-! ### The serving task -/

theorem Inv.confirmed_of_serving {serving : ServingTask} (h : s.Inv cfg)
    (hserving : s.serving = serving)
    (hnot : serving ≠ .confirming ∧ ∀ e, serving ≠ .returned (.error e)) :
    s.confirmed = true := by
  subst hserving
  cases hconfirmed : s.confirmed with
  | true => rfl
  | false =>
    obtain ⟨-, -, -, -, -, hserving | ⟨e, hserving⟩⟩ := h.unconfirmed hconfirmed
    · exact absurd hserving hnot.1
    · exact absurd hserving (hnot.2 e)

theorem Inv.confirmed_of_looping {accepted planned : Bool} (h : s.Inv cfg)
    (hserving : s.serving = .looping accepted planned) : s.confirmed = true :=
  h.confirmed_of_serving hserving (by simp)

/-- The serving task fails, without a message. -/
theorem Inv.failServing {connection : Connection} {messages : Messages Control} {controlRead : Bytes}
    {e : Abort QuicSyncError} (h : s.Inv cfg) (hphase : s.phase = .running) :
    { s with
      connection := connection
      messages := messages
      controlRead := controlRead
      serving := .returned (.error e) }.Inv cfg :=
  { h with
    unconfirmed := fun hconfirmed => by
      obtain ⟨hindex, hjobs, hresponses, haccepted, hindexing, -⟩ := h.unconfirmed hconfirmed
      exact ⟨hindex, hjobs, hresponses, haccepted, hindexing, Or.inr ⟨e, rfl⟩⟩
    handled := h.handled.fail
    received := fun heq => nomatch heq
    results := fun heq => nomatch heq
    idle := by
      rintro (heq | heq) <;> cases heq
    returned := not_returned hphase }

theorem Inv.readControl {chunk : Except QuicSyncError (Option Bytes)} (h : s.Inv cfg)
    (hphase : s.phase = .running) (hstep : s.readControlStep chunk = some s') : s'.Inv cfg := by
  unfold readControlStep at hstep
  split at hstep
  · rename_i accepted planned chunk hserving hpending
    simp only at hstep
    split at hstep
    · rename_i pending decoder hpush
      cases hstep
      have hreceived := h.received (by rw [hserving]; rfl)
      rw [hpending, List.append_nil] at hreceived
      exact { h with
        received := fun _ => Decoder.incremental_push.push_append hreceived hpush
        returned := not_returned hphase }
    · cases hstep
      exact h.failServing hphase
  · cases hstep
    exact h.failServing hphase
  · cases hstep
    exact h.failServing hphase
  · cases hstep

theorem Inv.handle (h : s.Inv cfg) (hphase : s.phase = .running) (hstep : s.handleStep = some s') :
    s'.Inv cfg := by
  unfold handleStep at hstep
  split at hstep
  · rename_i accepted planned message pending hserving hpending
    have hconfirmed := h.confirmed_of_looping hserving
    have hreceived := h.received (by rw [hserving]; rfl)
    have hresults := h.results (by rw [hserving]; rfl)
    have hhandled := h.handled
    rw [hserving] at hhandled
    have hnext := hhandled.handle message
    -- the message goes from those that wait to those that have been taken
    rw [hpending, List.append_cons] at hreceived
    have hunconfirmed {P : Prop} : s.confirmed = false → P := fun hfalse =>
      absurd (hconfirmed.symm.trans hfalse) Bool.noConfusion
    simp only at hstep
    split at hstep
    · rename_i accepted' planned' hcontrol
      cases hstep
      rw [hcontrol] at hnext
      exact { h with
        unconfirmed := hunconfirmed
        handled := hnext
        received := fun _ => hreceived
        results := fun _ => hresults
        idle := by
          rintro (heq | heq) <;> cases heq
        returned := not_returned hphase }
    · rename_i hcontrol
      cases hstep
      rw [hcontrol] at hnext
      exact { h with
        unconfirmed := hunconfirmed
        handled := hnext
        received := fun _ => hreceived
        results := fun _ => hresults
        idle := by
          rintro (heq | heq) <;> cases heq
        returned := not_returned hphase }
    · rename_i e hcontrol
      cases hstep
      rw [hcontrol] at hnext
      exact { h with
        unconfirmed := hunconfirmed
        handled := hnext
        received := fun heq => nomatch heq
        results := fun heq => nomatch heq
        idle := by
          rintro (heq | heq) <;> cases heq
        returned := not_returned hphase }
  · cases hstep

/-! ### The jobs -/

theorem Inv.accept {stream : Except QuicSyncError (Option Unit)} (h : s.Inv cfg)
    (hphase : s.phase = .running) (hstep : s.acceptStep stream = some s') : s'.Inv cfg := by
  unfold acceptStep at hstep
  split at hstep
  · rename_i accepted planned hserving
    have hconfirmed := h.confirmed_of_looping hserving
    split at hstep
    · split at hstep
      · cases hstep
        exact { h with
          unconfirmed := fun hfalse => absurd (hconfirmed.symm.trans hfalse) Bool.noConfusion
          jobs := by
            have hjobs := h.jobs
            simp only [List.length_append, List.length_singleton]
            omega
          idle := by
            rintro (heq | heq)
            · rw [hserving] at heq
              cases heq
            · rw [hserving] at heq
              cases heq
          returned := not_returned hphase }
      · cases hstep
        exact h.failServing hphase
      · cases hstep
        exact h.failServing hphase
    · cases hstep
  · cases hstep

theorem Inv.job {i : ℕ} {event : SendEvent} (h : s.Inv cfg) (hstep : s.jobStep i event = some s') :
    s'.Inv cfg := by
  -- before the gate there are no jobs
  have hunconfirmed {P : Prop} (hjob : s.jobs[i]? ≠ none) : s.confirmed = false → P := by
    intro hfalse
    obtain ⟨-, hjobs, -⟩ := h.unconfirmed hfalse
    rw [hjobs] at hjob
    exact absurd rfl hjob
  have hidle {P : Prop} (hjob : s.jobs[i]? ≠ none) :
      s.serving = .closing ∨ s.serving = .returned (.ok ()) → P := by
    intro hdone
    rw [h.idle hdone] at hjob
    exact absurd rfl hjob
  unfold jobStep at hstep
  split at hstep
  · rename_i hjob
    cases hstep
    exact { h with unconfirmed := hunconfirmed (by rw [hjob]; exact Option.some_ne_none _) }
  · rename_i result hjob
    have hsome : s.jobs[i]? ≠ none := by
      rw [hjob]
      exact Option.some_ne_none _
    cases hstep
    exact { h with
      unconfirmed := hunconfirmed hsome
      jobs := by
        rw [List.length_set]
        exact h.jobs
      idle := hidle hsome }
  · cases hstep

/-- A job is joined. -/
theorem Inv.joined {i : ℕ} {result : Except (Abort QuicSyncError) Unit} {serving : ServingTask}
    (h : s.Inv cfg) (hphase : s.phase = .running) (hjob : s.jobs[i]? = some (.returned result))
    (hserving : (∃ a p, s.serving = .looping a p) ∨ s.serving = .draining)
    (hnext : result = .ok () ∧ serving = s.serving ∨
      ∃ e, result = .error e ∧ serving = .returned (.error e)) :
    { s with
      jobs := s.jobs.eraseIdx i
      results := s.results ++ [result]
      serving := serving }.Inv cfg := by
  have hunconfirmed {P : Prop} : s.confirmed = false → P := by
    intro hfalse
    obtain ⟨-, hjobs, -⟩ := h.unconfirmed hfalse
    rw [hjobs] at hjob
    cases hjob
  have hintact : s.serving.intact = true := by
    obtain ⟨a, p, heq⟩ | heq := hserving
    · rw [heq]
      rfl
    · rw [heq]
      rfl
  obtain ⟨jobs₁, jobs₂, hjobs, -, herase⟩ := exists_split hjob
  have hlength : (s.jobs.eraseIdx i).length + (s.results ++ [result]).length = s.accepted := by
    have hcount := h.jobs
    rw [hjobs] at hcount
    rw [herase]
    simp only [List.length_append, List.length_cons, List.length_nil] at hcount ⊢
    omega
  obtain ⟨rfl, rfl⟩ | ⟨e, rfl, rfl⟩ := hnext
  · exact { h with
      unconfirmed := hunconfirmed
      jobs := hlength
      results := fun _ r hr => by
        obtain hr | hr := List.mem_append.1 hr
        · exact h.results hintact r hr
        · exact List.mem_singleton.1 hr
      idle := by
        rintro (heq | heq)
        · obtain ⟨a, p, hs⟩ | hs := hserving
          · rw [hs] at heq
            cases heq
          · rw [hs] at heq
            cases heq
        · obtain ⟨a, p, hs⟩ | hs := hserving
          · rw [hs] at heq
            cases heq
          · rw [hs] at heq
            cases heq
      returned := not_returned hphase }
  · exact { h with
      unconfirmed := hunconfirmed
      handled := h.handled.fail
      received := fun heq => nomatch heq
      jobs := hlength
      results := fun heq => nomatch heq
      idle := by
        rintro (heq | heq) <;> cases heq
      returned := not_returned hphase }

theorem Inv.joinJob {i : ℕ} (h : s.Inv cfg) (hphase : s.phase = .running)
    (hstep : s.joinJobStep i = some s') : s'.Inv cfg := by
  unfold joinJobStep at hstep
  simp only at hstep
  split at hstep
  · rename_i a p result hserving hjob
    cases hstep
    cases result with
    | ok _ => exact h.joined hphase hjob (Or.inl ⟨a, p, hserving⟩) (Or.inl ⟨rfl, rfl⟩)
    | error e => exact h.joined hphase hjob (Or.inl ⟨a, p, hserving⟩) (Or.inr ⟨e, rfl, rfl⟩)
  · rename_i result hserving hjob
    cases hstep
    cases result with
    | ok _ => exact h.joined hphase hjob (Or.inr hserving) (Or.inl ⟨rfl, rfl⟩)
    | error e => exact h.joined hphase hjob (Or.inr hserving) (Or.inr ⟨e, rfl, rfl⟩)
  · cases hstep

/-! ### The session -/

theorem Inv.confirmIndexing {connection : Connection} (h : s.Inv cfg) (hphase : s.phase = .running) :
    { s with connection := connection, confirmed := true, indexing := .sending }.Inv cfg :=
  { h with
    unconfirmed := fun hfalse => nomatch hfalse
    returned := not_returned hphase }

theorem Inv.confirmServing {connection : Connection} (h : s.Inv cfg) (hphase : s.phase = .running)
    (hserving : s.serving = .confirming) :
    { s with
      connection := connection
      confirmed := true
      serving := .looping false false }.Inv cfg := by
  have hhandled := h.handled
  have hreceived := h.received (by rw [hserving]; rfl)
  have hresults := h.results (by rw [hserving]; rfl)
  rw [hserving] at hhandled
  exact { h with
    unconfirmed := fun hfalse => nomatch hfalse
    handled := hhandled
    received := fun _ => hreceived
    results := fun _ => hresults
    idle := by
      rintro (heq | heq) <;> cases heq
    returned := not_returned hphase }

/-- The serving task goes on when the loop is over. -/
theorem Inv.leave {completion : Completion} {serving : ServingTask} (h : s.Inv cfg)
    (hphase : s.phase = .running) (hjobs : s.jobs = [])
    (hintact : s.serving.intact = true) (hconfirmed : s.confirmed = true)
    (hnext : serving.Handled s.handled) :
    { s with completion := completion, serving := serving }.Inv cfg :=
  { h with
    unconfirmed := fun hfalse => absurd (hconfirmed.symm.trans hfalse) Bool.noConfusion
    handled := hnext
    received := fun _ => h.received hintact
    results := fun _ => h.results hintact
    idle := fun _ => hjobs
    returned := not_returned hphase }

theorem Inv.fail {task : SourceTask} {e : Abort QuicSyncError} (h : s.Inv cfg)
    (hphase : s.phase = .running) (hstep : s.failStep task e = some s') : s'.Inv cfg := by
  unfold failStep at hstep
  split at hstep
  · cases hstep
  · cases hstep
    exact { h with returned := not_returned hphase }
  · cases hstep
    exact { h with
      unconfirmed := fun hconfirmed => by
        obtain ⟨hindex, hjobs, hresponses, haccepted, -, hserving⟩ := h.unconfirmed hconfirmed
        exact ⟨hindex, hjobs, hresponses, haccepted, Or.inr ⟨e, rfl⟩, hserving⟩
      returned := not_returned hphase }
  · cases hstep
    exact h.failServing hphase

/-- **One step** keeps the invariant. -/
theorem Inv.step {event : SourceEvent} (h : s.Inv cfg) (hstep : s.step cfg event = some s') :
    s'.Inv cfg := by
  cases event with
  | start streams fault root =>
    simp only [Source.step] at hstep
    split at hstep
    · rename_i hphase
      cases hstep
      exact h.start hphase
    · cases hstep
  | scan =>
    obtain ⟨hphase, hscan⟩ := whenRunning_eq_some.1 hstep
    exact h.scan hphase hscan
  | confirmIndexing handshake closeReason =>
    obtain ⟨hphase, hconfirm⟩ := whenRunning_eq_some.1 hstep
    split at hconfirm
    · split at hconfirm
      · cases hconfirm
        exact h.confirmIndexing hphase
      · rename_i e connection _
        cases hconfirm
        exact { h with
          unconfirmed := fun hconfirmed => by
            obtain ⟨hindex, hjobs, hresponses, haccepted, -, hserving⟩ := h.unconfirmed hconfirmed
            exact ⟨hindex, hjobs, hresponses, haccepted, Or.inr ⟨_, rfl⟩, hserving⟩
          returned := not_returned hphase }
    · cases hconfirm
  | sendIndex fault =>
    obtain ⟨hphase, hsend⟩ := whenRunning_eq_some.1 hstep
    exact h.sendIndex hphase hsend
  | finishIndex result =>
    obtain ⟨hphase, hfinish⟩ := whenRunning_eq_some.1 hstep
    split at hfinish
    · rename_i hindexing
      cases hfinish
      exact h.index hphase (h.confirmed_of_indexing hindexing (by simp))
    · cases hfinish
  | confirmServing handshake closeReason =>
    obtain ⟨hphase, hconfirm⟩ := whenRunning_eq_some.1 hstep
    split at hconfirm
    · rename_i hserving
      split at hconfirm
      · cases hconfirm
        exact h.confirmServing hphase hserving
      · cases hconfirm
        exact h.failServing hphase
    · cases hconfirm
  | readControl chunk =>
    obtain ⟨hphase, hread⟩ := whenRunning_eq_some.1 hstep
    exact h.readControl hphase hread
  | handle =>
    obtain ⟨hphase, hhandle⟩ := whenRunning_eq_some.1 hstep
    exact h.handle hphase hhandle
  | accept stream =>
    obtain ⟨hphase, haccept⟩ := whenRunning_eq_some.1 hstep
    exact h.accept hphase haccept
  | job i event => exact h.job hstep
  | joinJob i =>
    obtain ⟨hphase, hjoin⟩ := whenRunning_eq_some.1 hstep
    exact h.joinJob hphase hjoin
  | drained =>
    obtain ⟨hphase, hdrained⟩ := whenRunning_eq_some.1 hstep
    split at hdrained
    · rename_i hserving hjobs
      cases hdrained
      have hhandled := h.handled
      rw [hserving] at hhandled
      exact h.leave hphase hjobs (by rw [hserving]; rfl)
        (h.confirmed_of_serving hserving (by simp)) hhandled
    · cases hdrained
  | closed =>
    obtain ⟨hphase, hclosed⟩ := whenRunning_eq_some.1 hstep
    split at hclosed
    · rename_i hserving
      cases hclosed
      have hhandled := h.handled
      rw [hserving] at hhandled
      refine h.leave hphase (h.idle (Or.inl hserving)) (by rw [hserving]; rfl)
        (h.confirmed_of_serving hserving (by simp)) ?_
      cases s.completion with
      | acknowledged => exact hhandled
      | unknown =>
        obtain hhandled : s.handled = expectedControl := hhandled
        change s.handled.dropLast <+: expectedControl
        rw [hhandled]
        exact List.dropLast_prefix _
    · cases hclosed
  | closeChannel =>
    cases hstep
    exact { h with }
  | fail task e =>
    obtain ⟨hphase, hfail⟩ := whenRunning_eq_some.1 hstep
    exact h.fail hphase hfail
  | join =>
    obtain ⟨hphase, hjoin⟩ := whenRunning_eq_some.1 hstep
    split at hjoin
    · rename_i hscanning hindexing hserving
      cases hjoin
      exact { h with
        starting := fun heq => nomatch heq
        returned := fun _ task => by
          cases task with
          | scanning => exact hscanning
          | indexing => exact hindexing
          | serving => exact hserving }
    · cases hjoin
  | abort task =>
    obtain ⟨hphase, habort⟩ := whenRunning_eq_some.1 hstep
    split at habort
    · cases habort
      exact { h with
        starting := fun heq => nomatch heq
        returned := fun heq => nomatch heq }
    · cases habort

/-- The states of a session of the source. -/
def Reachable (cfg : Sourcing) (connection : Connection) (s : Source cfg.capacity) : Prop :=
  Reaches (step cfg) (start cfg connection) s

theorem Reachable.inv {connection : Connection} {s : Source cfg.capacity}
    (h : s.Reachable cfg connection) : s.Inv cfg :=
  Reaches.invariant h (inv_start cfg connection) fun _ _ _ hinv hstep => hinv.step hstep

theorem resultOf_serving {result : Except (Abort QuicSyncError) Unit}
    (h : s.resultOf .serving = some result) : s.serving = .returned result := by
  unfold resultOf at h
  simp only at h
  split at h
  · rename_i result' hserving
    rw [hserving, Option.some.inj h]
  · cases h

/-- A session that has succeeded has taken the acknowledgment and joined all its jobs. -/
theorem Inv.succeeded (h : s.Inv cfg) (hphase : s.phase = .returned (.ok ())) :
    s.handled = expectedControl ∧ s.serving.intact = true ∧ s.jobs = [] ∧
      s.results.length = s.accepted ∧ ∀ result ∈ s.results, result = .ok () := by
  have hserving := resultOf_serving (h.returned hphase .serving)
  have hhandled := h.handled
  have hjobs := h.idle (Or.inr hserving)
  have hcount := h.jobs
  rw [hserving] at hhandled
  have hintact : s.serving.intact = true := by
    rw [hserving]
    rfl
  rw [hjobs, List.length_nil, Nat.zero_add] at hcount
  exact ⟨hhandled, hintact, hjobs, hcount, h.results hintact⟩

/-- A serving task that has failed stays so. -/
theorem step_failed {event : SourceEvent} {e : Abort QuicSyncError}
    (hserving : s.serving = .returned (.error e)) (hstep : s.step cfg event = some s') :
    s'.serving = .returned (.error e) := by
  cases event with
  | start streams fault root =>
    simp only [Source.step] at hstep
    split at hstep
    · cases hstep
      unfold startStep
      split
      · exact hserving
      · split
        · exact hserving
        · split <;> exact hserving
    · cases hstep
  | scan =>
    obtain ⟨-, hscan⟩ := whenRunning_eq_some.1 hstep
    unfold scanStep at hscan
    split at hscan
    · obtain ⟨sent, -, rfl⟩ := Option.map_eq_some_iff.1 hscan
      cases sent <;> exact hserving
    · cases hscan
      exact hserving
    · cases hscan
  | confirmIndexing handshake closeReason =>
    obtain ⟨-, hconfirm⟩ := whenRunning_eq_some.1 hstep
    split at hconfirm
    · split at hconfirm <;> cases hconfirm <;> exact hserving
    · cases hconfirm
  | sendIndex fault =>
    obtain ⟨-, hsend⟩ := whenRunning_eq_some.1 hstep
    unfold sendIndexStep at hsend
    split at hsend
    · obtain ⟨received, -, rfl⟩ := Option.map_eq_some_iff.1 hsend
      match received with
      | none => exact hserving
      | some (.error e, channel) => exact hserving
      | some (.ok message, channel) =>
        simp only
        split <;> exact hserving
    · cases hsend
  | finishIndex result =>
    obtain ⟨-, hfinish⟩ := whenRunning_eq_some.1 hstep
    split at hfinish
    · cases hfinish
      exact hserving
    · cases hfinish
  | confirmServing handshake closeReason =>
    obtain ⟨-, hconfirm⟩ := whenRunning_eq_some.1 hstep
    rw [hserving] at hconfirm
    cases hconfirm
  | readControl chunk =>
    obtain ⟨-, hread⟩ := whenRunning_eq_some.1 hstep
    unfold readControlStep at hread
    rw [hserving] at hread
    cases hread
  | handle =>
    obtain ⟨-, hhandle⟩ := whenRunning_eq_some.1 hstep
    unfold handleStep at hhandle
    rw [hserving] at hhandle
    cases hhandle
  | accept stream =>
    obtain ⟨-, haccept⟩ := whenRunning_eq_some.1 hstep
    unfold acceptStep at haccept
    rw [hserving] at haccept
    cases haccept
  | job i event =>
    simp only [Source.step, jobStep] at hstep
    split at hstep
    · cases hstep
      exact hserving
    · cases hstep
      exact hserving
    · cases hstep
  | joinJob i =>
    obtain ⟨-, hjoin⟩ := whenRunning_eq_some.1 hstep
    unfold joinJobStep at hjoin
    rw [hserving] at hjoin
    cases hjoin
  | drained =>
    obtain ⟨-, hdrained⟩ := whenRunning_eq_some.1 hstep
    rw [hserving] at hdrained
    cases hdrained
  | closed =>
    obtain ⟨-, hclosed⟩ := whenRunning_eq_some.1 hstep
    rw [hserving] at hclosed
    cases hclosed
  | closeChannel =>
    cases hstep
    exact hserving
  | fail task e' =>
    obtain ⟨-, hfail⟩ := whenRunning_eq_some.1 hstep
    unfold failStep at hfail
    split at hfail
    · cases hfail
    · cases hfail
      exact hserving
    · cases hfail
      exact hserving
    · rename_i hresult
      unfold resultOf at hresult
      simp only [hserving] at hresult
      cases hresult
  | join =>
    obtain ⟨-, hjoin⟩ := whenRunning_eq_some.1 hstep
    split at hjoin
    · cases hjoin
      exact hserving
    · cases hjoin
  | abort task =>
    obtain ⟨-, habort⟩ := whenRunning_eq_some.1 hstep
    split at habort
    · cases habort
      exact hserving
    · cases habort

/-- A source whose serving task has failed does not succeed. -/
theorem not_succeeded {e : Abort QuicSyncError} (h : s.Inv cfg)
    (hserving : s.serving = .returned (.error e)) (hreaches : Reaches (Source.step cfg) s s') :
    s'.phase ≠ .returned (.ok ()) := by
  have hboth : s'.Inv cfg ∧ s'.serving = .returned (.error e) :=
    Reaches.invariant (I := fun s : Source n => s.Inv cfg ∧ s.serving = .returned (.error e))
      hreaches ⟨h, hserving⟩ fun _ _ _ hinv hstep =>
        ⟨hinv.1.step hstep, step_failed hinv.2 hstep⟩
  intro hphase
  obtain ⟨-, hintact, -⟩ := hboth.1.succeeded hphase
  rw [hboth.2] at hintact
  cases hintact

end Source

end QuicSync
