import QuicSync.Sync.Convergence
import QuicSync.Sync.Destination

/-!
# The staging barrier

What holds in every run of `serve_inner`, whatever the order of its events and wherever it fails.

`Destination.Inv` is the invariant.  A closed channel looks the same to the requesting task whether
the planner has finished or failed, so neither that task nor the planner knows when it is safe to
commit: the invariant says what each of them has done, and the join puts it together.
-/

namespace QuicSync

open Posix

/-- The frames of the messages that a destination sends. -/
def acceptedFrame : Bytes := frame Control.startAccepted

def plannedFrames : Bytes := acceptedFrame ++ frame Control.planEnd

def completeFrames : Bytes := plannedFrames ++ frame Control.completeAck

namespace PlanTask

/-- What the planner has read and sent by then. -/
def Tracks (remote localIndex : List IndexItem) (sent : List Operation) : PlanTask → Prop
  | .confirming | .accepting => remote = [] ∧ localIndex = [] ∧ sent = []
  | .planning p => p.Tracks remote localIndex sent
  | .ending | .returned (.ok ()) => ∃ S D, remote = stream S ∧ localIndex = stream D ∧
      sent = QuicSync.operations (merge S D) 0
  | .returned (.error _) => True

/-- What has been sent on the control stream by then, before the acknowledgment. -/
def Sends (out : Outgoing Control) : PlanTask → Prop
  | .confirming | .accepting => out = .empty Control
  | .planning _ | .ending => out = ⟨[.startAccepted], acceptedFrame⟩
  | .returned (.ok ()) => out = ⟨[.startAccepted, .planEnd], plannedFrames⟩
  | .returned (.error _) => out.sent <+: [.startAccepted, .planEnd] ∧ out.bytes <+: plannedFrames

theorem Sends.within {out : Outgoing Control} {task : PlanTask} (h : task.Sends out) :
    out.sent <+: [.startAccepted, .planEnd] ∧ out.bytes <+: plannedFrames := by
  cases task with
  | confirming =>
    obtain rfl := h
    exact ⟨ List.nil_prefix, List.nil_prefix⟩
  | accepting =>
    obtain rfl := h
    exact ⟨ List.nil_prefix, List.nil_prefix⟩
  | planning p =>
    obtain rfl := h
    exact ⟨List.prefix_append [Control.startAccepted] _, List.prefix_append _ _⟩
  | ending =>
    obtain rfl := h
    exact ⟨List.prefix_append [Control.startAccepted] _, List.prefix_append _ _⟩
  | returned result =>
    cases result with
    | ok _ =>
      obtain rfl := h
      exact ⟨List.prefix_rfl, List.prefix_rfl⟩
    | error e => exact h

end PlanTask

namespace ServePhase

/-- The acknowledgment has not been tried. -/
def unacknowledged : ServePhase → Bool
  | .starting | .running | .committing | .acknowledging => true
  | .closing | .returned _ => false

/-- All tasks have returned. -/
def joined : ServePhase → Bool
  | .committing | .acknowledging | .closing | .returned (.ok _) => true
  | _ => false

/-- What the commit has returned by then. -/
def Commits (committed : Option (Except QuicSyncError Unit)) : ServePhase → Prop
  | .starting | .running | .committing => committed = none
  | .acknowledging | .closing | .returned (.ok _) => committed = some (.ok ())
  | .returned (.error _) => True

end ServePhase

namespace Destination

variable {n : ℕ} {cfg : Serving} {w₀ : World} {s s' : Destination n}

/-- What holds in every run. -/
structure Inv (cfg : Serving) (w₀ : World) (s : Destination n) : Prop where
  stages : s.committed = none → s.requesting.Stages cfg.root w₀
  slots : s.requesting.Slots n
  accounts : s.requesting.Accounts
  /-- Operations do not get lost between the planner and the requesting task. -/
  flow : s.requesting.taken ++ s.operations.queue = s.emitted
  drained : s.requesting.task = .draining ∨ s.requesting.task = .returned (.ok ()) →
    s.operations.queue = [] ∧ s.operations.closed = true
  ids : s.emitted.map (fun o => o.id.get) = idsFrom 0 s.emitted.length
  plan : s.planning.Tracks s.readRemote s.readLocal s.emitted
  control : s.phase.unacknowledged = true → s.planning.Sends s.control
  sent : s.control.sent <+: [.startAccepted, .planEnd, .completeAck] ∧
    s.control.bytes <+: completeFrames
  /-- The acknowledgment follows the commit. -/
  acknowledged : (s.control.sent <+: [.startAccepted, .planEnd] ∧
    s.control.bytes <+: plannedFrames) ∨ s.committed = some (.ok ())
  unconfirmed : s.confirmed = false → s.control = .empty Control ∧ s.emitted = [] ∧
    (s.planning = .confirming ∨ ∃ e, s.planning = .returned (.error e))
  joined : s.phase.joined = true ∨ s.committed ≠ none →
    ∀ task, s.resultOf task = some (.ok ())
  commits : s.phase.Commits s.committed
  idle : s.committed ≠ none → s.requesting.jobs = []

theorem inv_start (cfg : Serving) (connection : Connection) (w : World) :
    (start cfg connection w).Inv cfg w where
  stages := fun _ => (Requester.sound_start cfg.root 0 w).stages
  slots := (Requester.sound_start cfg.root _ w).slots
  accounts := (Requester.sound_start cfg.root 0 w).accounts
  flow := rfl
  drained := by
    rintro (h | h) <;> cases h
  ids := rfl
  plan := ⟨rfl, rfl, rfl⟩
  control := fun _ => rfl
  sent := ⟨ List.nil_prefix, List.nil_prefix⟩
  acknowledged := Or.inl ⟨ List.nil_prefix, List.nil_prefix⟩
  unconfirmed := fun _ => ⟨rfl, rfl, Or.inl rfl⟩
  joined := by
    rintro (h | h)
    · cases h
    · exact absurd rfl h
  commits := rfl
  idle := fun h => absurd rfl h

theorem whenRunning_eq_some {o : Option (Destination n)} :
    s.whenRunning o = some s' ↔ s.phase = .running ∧ o = some s' := by
  unfold whenRunning
  cases h : s.phase with
  | running => simp
  | starting => simp
  | committing => simp
  | acknowledging => simp
  | closing => simp
  | returned result => simp

/-! ### While the tasks run -/

theorem Inv.sound (h : s.Inv cfg w₀) (hcommitted : s.committed = none) :
    s.requesting.Sound cfg.root n w₀ :=
  ⟨h.stages hcommitted, h.slots, h.accounts⟩

theorem Inv.uncommitted (h : s.Inv cfg w₀) (hphase : s.phase = .running) : s.committed = none := by
  have hcommits := h.commits
  rwa [hphase] at hcommits

theorem Inv.not_joined (h : s.Inv cfg w₀) (hphase : s.phase = .running) :
    ¬ (s.phase.joined = true ∨ s.committed ≠ none) := by
  rintro (hjoined | hne)
  · rw [hphase] at hjoined
    cases hjoined
  · exact hne (h.uncommitted hphase)

theorem Inv.sends (h : s.Inv cfg w₀) (hphase : s.phase = .running) : s.planning.Sends s.control :=
  h.control (by rw [hphase]; rfl)

/-- Nothing depends on the indexes before the planner reads them. -/
theorem Inv.indexes {scanning indexing : TaskState} {unscanned : List IndexItem}
    {records : Messages IndexMessage} {localIndex remoteIndex : Channel n IndexItem}
    {indexRead : Bytes} (h : s.Inv cfg w₀) (hphase : s.phase = .running) :
    { s with
      scanning := scanning
      unscanned := unscanned
      indexing := indexing
      records := records
      localIndex := localIndex
      remoteIndex := remoteIndex
      indexRead := indexRead }.Inv cfg w₀ :=
  { h with joined := fun hjoined => absurd hjoined (h.not_joined hphase) }

theorem Inv.scan (h : s.Inv cfg w₀) (hphase : s.phase = .running)
    (hstep : s.scanStep cfg = some s') : s'.Inv cfg w₀ := by
  unfold scanStep at hstep
  split at hstep
  · obtain ⟨sent, -, rfl⟩ := Option.map_eq_some_iff.1 hstep
    cases sent with
    | ok channel => exact h.indexes hphase
    | error _ => exact h.indexes hphase
  · cases hstep
    exact h.indexes hphase
  · cases hstep

theorem Inv.readIndex {chunk : Except QuicSyncError Bytes} (h : s.Inv cfg w₀)
    (hphase : s.phase = .running) (hstep : s.readIndexStep chunk = some s') : s'.Inv cfg w₀ := by
  unfold readIndexStep at hstep
  split at hstep
  · simp only at hstep
    split at hstep
    · cases hstep
      exact h.indexes hphase
    · cases hstep
      exact h.indexes hphase
  · cases hstep
    exact h.indexes hphase
  · cases hstep

theorem Inv.forward (h : s.Inv cfg w₀) (hphase : s.phase = .running)
    (hstep : s.forwardStep = some s') : s'.Inv cfg w₀ := by
  unfold forwardStep at hstep
  split at hstep
  · obtain ⟨sent, -, rfl⟩ := Option.map_eq_some_iff.1 hstep
    cases sent with
    | ok channel => exact h.indexes hphase
    | error _ => exact h.indexes hphase
  · cases hstep

/-! ### The planning task -/

/-- The planning task can fail at any time. -/
theorem Inv.failPlanning {connection : Connection} {localIndex remoteIndex : Channel n IndexItem}
    {readRemote readLocal : List IndexItem} {e : Abort QuicSyncError} (h : s.Inv cfg w₀)
    (hphase : s.phase = .running) :
    { s with
      connection := connection
      localIndex := localIndex
      remoteIndex := remoteIndex
      readRemote := readRemote
      readLocal := readLocal
      planning := .returned (.error e) }.Inv cfg w₀ :=
  { h with
    plan := trivial
    control := fun _ => (h.sends hphase).within
    unconfirmed := fun hconfirmed =>
      ⟨(h.unconfirmed hconfirmed).1, (h.unconfirmed hconfirmed).2.1, Or.inr ⟨e, rfl⟩⟩
    joined := fun hjoined => absurd hjoined (h.not_joined hphase) }

/-- A planner that runs has passed the gate. -/
theorem Inv.confirmed_of_planning {planning : PlanTask} (h : s.Inv cfg w₀)
    (hplanning : s.planning = planning)
    (hnot : planning ≠ .confirming ∧ ∀ e, planning ≠ .returned (.error e)) :
    s.confirmed = true := by
  subst hplanning
  cases hconfirmed : s.confirmed with
  | true => rfl
  | false =>
    obtain ⟨-, -, hplanning | ⟨e, hplanning⟩⟩ := h.unconfirmed hconfirmed
    · exact absurd hplanning hnot.1
    · exact absurd hplanning (hnot.2 e)

theorem Inv.planStep (h : s.Inv cfg w₀) (hphase : s.phase = .running)
    (hstep : s.planStep = some s') : s'.Inv cfg w₀ := by
  unfold Destination.planStep at hstep
  split at hstep
  · rename_i p hplanning
    have hconfirmed := h.confirmed_of_planning hplanning (by simp)
    have hunconfirmed {P : Prop} : s.confirmed = false → P := by
      intro hfalse
      rw [hconfirmed] at hfalse
      cases hfalse
    have htracks : p.Tracks s.readRemote s.readLocal s.emitted := by
      have hplan := h.plan
      rwa [hplanning] at hplan
    have hcontrol : s.control = ⟨[.startAccepted], acceptedFrame⟩ := by
      have hsends := h.sends hphase
      rwa [hplanning] at hsends
    split at hstep
    · rename_i htodo
      split at hstep
      · rename_i p' hadvance
        cases hstep
        exact { h with
          plan := htracks.advance htodo hadvance
          control := fun _ => hcontrol
          unconfirmed := hunconfirmed
          joined := fun hjoined => absurd hjoined (h.not_joined hphase) }
      · rename_i hadvance
        cases hstep
        exact { h with
          plan := htracks.complete htodo hadvance
          control := fun _ => hcontrol
          unconfirmed := hunconfirmed
          joined := fun hjoined => absurd hjoined (h.not_joined hphase) }
    · rename_i todo htodo
      obtain ⟨received, -, rfl⟩ := Option.map_eq_some_iff.1 hstep
      match received with
      | some (item, channel) =>
        simp only
        split
        · rename_i left hread
          exact { h with
            plan := htracks.readSource htodo hread
            control := fun _ => hcontrol
            unconfirmed := hunconfirmed
            joined := fun hjoined => absurd hjoined (h.not_joined hphase) }
        · exact h.failPlanning hphase
      | none => exact h.failPlanning hphase
    · rename_i todo htodo
      obtain ⟨received, -, rfl⟩ := Option.map_eq_some_iff.1 hstep
      match received with
      | some (item, channel) =>
        simp only
        split
        · rename_i right hread
          exact { h with
            plan := htracks.readDestination htodo hread
            control := fun _ => hcontrol
            unconfirmed := hunconfirmed
            joined := fun hjoined => absurd hjoined (h.not_joined hphase) }
        · exact h.failPlanning hphase
      | none => exact h.failPlanning hphase
    · rename_i operation todo htodo
      obtain ⟨sent, hsend, rfl⟩ := Option.map_eq_some_iff.1 hstep
      cases sent with
      | error _ => exact h.failPlanning hphase
      | ok channel =>
        obtain ⟨hopen, hopen', hqueue⟩ := Channel.send_ok hsend
        have htracks' := htracks.send htodo
        exact { h with
          flow := by
            change s.requesting.taken ++ channel.queue = s.emitted ++ [operation]
            rw [hqueue, ← List.append_assoc, h.flow]
          drained := fun hdrained => by
            have hclosed := (h.drained hdrained).2
            rw [hopen] at hclosed
            cases hclosed
          ids := htracks'.ids
          plan := htracks'
          control := fun _ => hcontrol
          unconfirmed := hunconfirmed
          joined := fun hjoined => absurd hjoined (h.not_joined hphase) }
  · cases hstep

theorem take_frame_within (message : Control) (k : ℕ) (before : Bytes) :
    before ++ (frame message).take k <+: before ++ frame message :=
  (List.prefix_append_right_inj before).2 (List.take_prefix _ _)

theorem within_complete {out : Outgoing Control}
    (h : out.sent <+: [.startAccepted, .planEnd] ∧ out.bytes <+: plannedFrames) :
    out.sent <+: [.startAccepted, .planEnd, .completeAck] ∧ out.bytes <+: completeFrames :=
  ⟨h.1.trans (List.prefix_append [Control.startAccepted, Control.planEnd] _),
    h.2.trans (List.prefix_append _ _)⟩

theorem Inv.confirm {connection : Connection} (h : s.Inv cfg w₀) (hphase : s.phase = .running)
    (hplanning : s.planning = .confirming) :
    { s with connection := connection, confirmed := true, planning := .accepting }.Inv cfg w₀ := by
  have hplan := h.plan
  have hsends := h.sends hphase
  rw [hplanning] at hplan hsends
  exact { h with
    plan := hplan
    control := fun _ => hsends
    unconfirmed := fun hfalse => nomatch hfalse
    joined := fun hjoined => absurd hjoined (h.not_joined hphase) }

theorem Inv.accept {fault : Option (ℕ × QuicSyncError)} {control : Outgoing Control}
    {result : Except (Abort QuicSyncError) Unit} {planning : PlanTask} (h : s.Inv cfg w₀)
    (hphase : s.phase = .running) (hplanning : s.planning = .accepting)
    (hsend : s.control.send cfg.limits .startAccepted fault = (result, control))
    (hnext : result = .ok () ∧ planning = .planning PlanState.start ∨
      ∃ e, result = .error e ∧ planning = .returned (.error e)) :
    { s with control := control, planning := planning }.Inv cfg w₀ := by
  have hplan := h.plan
  have hsends := h.sends hphase
  rw [hplanning] at hplan hsends
  obtain ⟨hremote, hlocal, hemitted⟩ := hplan
  have hempty : s.control = .empty Control := hsends
  rw [hempty] at hsend
  have hconfirmed := h.confirmed_of_planning hplanning (by simp)
  have hsent : planning.Sends control ∧ planning.Tracks s.readRemote s.readLocal s.emitted := by
    obtain ⟨rfl, rfl⟩ | ⟨e, rfl, rfl⟩ := hnext
    · refine ⟨Outgoing.send_ok hsend, ?_⟩
      rw [hremote, hlocal, hemitted]
      exact PlanState.Tracks.start
    · obtain ⟨k, rfl⟩ := Outgoing.send_error hsend
      refine ⟨⟨ List.nil_prefix, ?_⟩, trivial⟩
      exact (List.take_prefix k acceptedFrame).trans (List.prefix_append _ _)
  have hwithin := hsent.1.within
  exact { h with
    plan := hsent.2
    control := fun _ => hsent.1
    sent := within_complete hwithin
    acknowledged := Or.inl hwithin
    unconfirmed := fun hfalse => absurd (hconfirmed.symm.trans hfalse) Bool.noConfusion
    joined := fun hjoined => absurd hjoined (h.not_joined hphase) }

theorem Inv.endPlan {fault : Option (ℕ × QuicSyncError)} {control : Outgoing Control}
    {result : Except (Abort QuicSyncError) Unit} (h : s.Inv cfg w₀) (hphase : s.phase = .running)
    (hplanning : s.planning = .ending)
    (hsend : s.control.send cfg.limits .planEnd fault = (result, control)) :
    { s with control := control, planning := .returned result }.Inv cfg w₀ := by
  have hplan := h.plan
  have hsends := h.sends hphase
  rw [hplanning] at hplan hsends
  have hcontrol : s.control = ⟨[.startAccepted], acceptedFrame⟩ := hsends
  rw [hcontrol] at hsend
  have hconfirmed := h.confirmed_of_planning hplanning (by simp)
  have hsent : (PlanTask.returned result).Sends control ∧
      (PlanTask.returned result).Tracks s.readRemote s.readLocal s.emitted := by
    cases result with
    | ok _ => exact ⟨Outgoing.send_ok hsend, hplan⟩
    | error e =>
      obtain ⟨k, rfl⟩ := Outgoing.send_error hsend
      exact ⟨⟨List.prefix_append [Control.startAccepted] _, take_frame_within _ _ _⟩, trivial⟩
  have hwithin := hsent.1.within
  exact { h with
    plan := hsent.2
    control := fun _ => hsent.1
    sent := within_complete hwithin
    acknowledged := Or.inl hwithin
    unconfirmed := fun hfalse => absurd (hconfirmed.symm.trans hfalse) Bool.noConfusion
    joined := fun hjoined => absurd hjoined (h.not_joined hphase) }

/-! ### The requesting task -/

theorem nodup_idsFrom_zero {l : ℕ} (h : l ≤ 2 ^ 64) : (idsFrom 0 l).Nodup := by
  unfold idsFrom
  refine List.nodup_range.map_on fun i hi j hj heq => ?_
  rw [UInt64.zero_add, UInt64.zero_add] at heq
  have hi' : i < UInt64.size := lt_of_lt_of_le (List.mem_range.1 hi) h
  have hj' : j < UInt64.size := lt_of_lt_of_le (List.mem_range.1 hj) h
  have hnat := congrArg UInt64.toNat heq
  rwa [UInt64.toNat_ofNat_of_lt' hi', UInt64.toNat_ofNat_of_lt' hj'] at hnat

/-- The identifiers of the operations taken with the next one are distinct: there is memory for
all of them. -/
theorem Inv.nodup_receive {operation : Operation} {channel : Channel n Operation}
    {requesting : Requester} (h : s.Inv cfg w₀)
    (hreceive : s.operations.receive = some (some (operation, channel)))
    (hmove : Requester.Move cfg.root n s.requesting (.receive operation) requesting) :
    ((s.requesting.taken ++ [operation]).map fun o => o.id.get).Nodup := by
  obtain ⟨hqueue, -⟩ := Channel.receive_item hreceive
  have htask : s.requesting.task = .receiving ∧
      s.requesting.retained.length + s.requesting.jobs.length < addressSpace := by
    cases hmove with
    | take htask hmemory => exact ⟨htask, hmemory⟩
    | takeDirect htask hmemory => exact ⟨htask, hmemory⟩
    | failed hevent => cases hevent
  have hlength : s.requesting.taken.length <  2 ^ 64 := by
    have hflow := h.accounts.flow (by rw [htask.1]; rfl)
    rw [htask.1, RequestTask.current_receiving, List.append_nil] at hflow
    rw [← hflow.length_eq, List.length_append, List.length_map, List.length_map]
    exact htask.2
  -- the operations taken are the first of the plan
  have hemitted : (s.requesting.taken ++ [operation]) ++ channel.queue = s.emitted := by
    rw [← h.flow, hqueue, List.append_assoc, List.singleton_append]
  have hids := h.ids
  rw [← hemitted, List.map_append, List.length_append, idsFrom_add] at hids
  have hfirst := (List.append_inj hids (by simp [idsFrom])).1
  rw [hfirst]
  refine nodup_idsFrom_zero ?_
  rw [List.length_append, List.length_singleton]
  exact hlength

/-- An event of the requesting task, with the channel after it. -/
theorem Inv.request {event : RequestEvent} {requesting : Requester} {channel : Channel n Operation}
    (h : s.Inv cfg w₀) (hcommitted : s.committed = none)
    (hmove : Requester.Move cfg.root n s.requesting event requesting)
    (hsound : requesting.Sound cfg.root n w₀)
    (hflow : requesting.taken ++ channel.queue = s.emitted)
    (hended : event = .ended → channel.queue = [] ∧ channel.closed = true)
    (hqueue : (∀ operation, event ≠ .receive operation) → channel = s.operations)
    (hjoined : s.phase.joined = true →
      ∀ task, ({ s with requesting := requesting } : Destination n).resultOf task = some (.ok ())) :
    { s with requesting := requesting, operations := channel }.Inv cfg w₀ :=
  { h with
    stages := fun _ => hsound.stages
    slots := hsound.slots
    accounts := hsound.accounts
    flow := hflow
    drained := fun hdrained => by
      obtain hevent | ⟨hbefore, hevent⟩ := hmove.drained hdrained
      · exact hended hevent
      · rw [hqueue hevent]
        exact h.drained hbefore
    joined := by
      rintro (hphase | hne)
      · exact hjoined hphase
      · exact absurd hcommitted hne
    idle := fun hne => absurd hcommitted hne }

/-- An event of the requesting task that leaves the channel alone. -/
theorem Inv.request_other {event : RequestEvent} {requesting : Requester} (h : s.Inv cfg w₀)
    (hcommitted : s.committed = none) (hstep : s.requesting.step cfg.root n event = some requesting)
    (hevent : ∀ operation, event ≠ .receive operation)
    (hended : event = .ended → s.operations.receive = some none)
    (hrunning : s.phase = .running ∨ (∃ i e, event = .job i e) ∨ ∃ i, event = .discard i) :
    { s with requesting := requesting }.Inv cfg w₀ := by
  have hmove := Requester.step_move hstep
  have hsound := (h.sound hcommitted).move hmove fun operation heq => absurd heq (hevent operation)
  have htaken : requesting.taken = s.requesting.taken := by
    rw [hmove.taken]
    split
    · exact absurd rfl (hevent _)
    · exact List.append_nil _
  refine h.request hcommitted hmove hsound ?_ (fun heq => Channel.receive_end (hended heq))
    (fun _ => rfl) fun hjoined => ?_
  · rw [htaken]
    exact h.flow
  · obtain hphase | hjob := hrunning
    · exact absurd (Or.inl hjoined) (h.not_joined hphase)
    · have hresult := h.joined (Or.inl hjoined)
      intro task
      cases task with
      | scanning => exact hresult .scanning
      | indexing => exact hresult .indexing
      | planning => exact hresult .planning
      | requesting =>
        have hrequesting := hresult .requesting
        unfold resultOf at hrequesting ⊢
        simp only [hmove.task_eq hjob]
        exact hrequesting

theorem Inv.requestStep {event : RequestEvent} (h : s.Inv cfg w₀)
    (hrunning : s.phase = .running ∨ (∃ i e, event = .job i e) ∨ ∃ i, event = .discard i)
    (hstep : Destination.requestStep cfg s event = some s') : s'.Inv cfg w₀ := by
  -- a session that has committed has no jobs
  have hcommitted : s.committed = none := by
    by_contra hne
    obtain hphase | ⟨i, e, rfl⟩ | ⟨i, rfl⟩ := hrunning
    · exact hne (h.uncommitted hphase)
    · simp [Destination.requestStep, Requester.step, h.idle hne] at hstep
    · simp [Destination.requestStep, Requester.step, h.idle hne] at hstep
  unfold Destination.requestStep at hstep
  split at hstep
  · rename_i operation
    split at hstep
    · rename_i next channel hreceive
      split at hstep
      · rename_i hnext
        subst hnext
        obtain ⟨requesting, hrequest, rfl⟩ := Option.map_eq_some_iff.1 hstep
        have hmove := Requester.step_move hrequest
        have hnodup := h.nodup_receive hreceive hmove
        have hsound := (h.sound hcommitted).move hmove fun operation heq => by
          cases heq
          exact hnodup
        obtain ⟨hqueue, -⟩ := Channel.receive_item hreceive
        refine h.request hcommitted hmove hsound ?_ ?_
          (fun hevent => absurd rfl (hevent next)) fun hjoined => ?_
        · rw [hmove.taken, List.append_assoc, List.singleton_append, ← hqueue]
          exact h.flow
        · intro heq
          cases heq
        · obtain hphase | ⟨i, e, heq⟩ | ⟨i, heq⟩ := hrunning
          · exact absurd (Or.inl hjoined) (h.not_joined hphase)
          · cases heq
          · cases heq
      · cases hstep
    · cases hstep
  · split at hstep
    · rename_i hreceive
      obtain ⟨requesting, hrequest, rfl⟩ := Option.map_eq_some_iff.1 hstep
      have hended (operation : Operation) :
          RequestEvent.ended ≠ .receive operation := by
        intro heq
        cases heq
      exact h.request_other hcommitted hrequest hended (fun _ => hreceive) hrunning
    · cases hstep
  · rename_i hreceive hended
    obtain ⟨requesting, hrequest, rfl⟩ := Option.map_eq_some_iff.1 hstep
    exact h.request_other hcommitted hrequest hreceive (fun heq => absurd heq hended) hrunning

/-! ### The session -/

theorem resultOf_planning {result : Except (Abort QuicSyncError) Unit}
    (h : s.resultOf .planning = some result) : s.planning = .returned result := by
  unfold resultOf at h
  cases hplanning : s.planning with
  | returned r =>
    rw [hplanning] at h
    cases h
    rfl
  | confirming =>
    rw [hplanning] at h
    cases h
  | accepting =>
    rw [hplanning] at h
    cases h
  | planning p =>
    rw [hplanning] at h
    cases h
  | ending =>
    rw [hplanning] at h
    cases h

theorem resultOf_requesting {result : Except (Abort QuicSyncError) Unit}
    (h : s.resultOf .requesting = some result) : s.requesting.task = .returned result := by
  unfold resultOf at h
  simp only at h
  split at h
  · rename_i r htask
    cases h
    exact htask
  · cases h

/-- A session that ends before the commit drops what has been retained. -/
theorem Inv.drop {e : Abort QuicSyncError} (h : s.Inv cfg w₀) (hcommitted : s.committed = none) :
    (s.dropRequesting.finish (.error e)).Inv cfg w₀ := by
  have hjoined : ¬ ((ServePhase.returned (.error e)).joined = true ∨ s.committed ≠ none) := by
    rintro (hjoined | hne)
    · cases hjoined
    · exact hne hcommitted
  unfold dropRequesting finish
  by_cases halive : s.requesting.task.alive = true
  · have hsound : (s.requesting.abandon .dropped).Sound cfg.root n w₀ :=
      (h.sound hcommitted).abandon (List.Sublist.refl _) rfl
    rw [if_pos halive]
    exact { h with
      stages := fun _ => hsound.stages
      slots := hsound.slots
      accounts := hsound.accounts
      drained := by
        rintro (heq | heq) <;> cases heq
      control := fun heq => nomatch heq
      joined := fun heq => absurd heq hjoined
      commits := trivial
      idle := fun hne => absurd hcommitted hne }
  · rw [if_neg halive]
    exact { h with
      control := fun heq => nomatch heq
      joined := fun heq => absurd heq hjoined
      commits := trivial }

theorem Inv.commitStep {opened : Except QuicSyncError Unit} (h : s.Inv cfg w₀)
    (hphase : s.phase = .committing) : (s.commitStep cfg opened).Inv cfg w₀ := by
  have hcommitted : s.committed = none := by
    have hcommits := h.commits
    rwa [hphase] at hcommits
  have hresults := h.joined (Or.inl (by rw [hphase]; rfl))
  have hidle : s.requesting.jobs = [] :=
    h.slots.idle (resultOf_requesting (hresults .requesting))
  unfold Destination.commitStep
  cases opened with
  | error e => exact h.drop hcommitted
  | ok _ =>
    cases hcommit : (s.requesting.pending.commit cfg.root).run s.requesting.world with
    | mk result w =>
      have hcontrol := h.control (by rw [hphase]; rfl)
      have hwithin := hcontrol.within
      cases result with
      | ok _ =>
        exact { h with
          stages := fun heq => nomatch heq
          slots := { h.slots with }
          accounts := { h.accounts with }
          control := fun _ => hcontrol
          acknowledged := Or.inr rfl
          joined := fun _ => hresults
          commits := rfl
          idle := fun _ => hidle }
      | error e =>
        exact { h with
          stages := fun heq => nomatch heq
          slots := { h.slots with }
          accounts := { h.accounts with }
          control := fun heq => nomatch heq
          acknowledged := Or.inl hwithin
          joined := fun _ => hresults
          commits := trivial
          idle := fun _ => hidle }

theorem Inv.acknowledge {fault : Option (ℕ × QuicSyncError)} {control : Outgoing Control}
    {result : Except (Abort QuicSyncError) Unit} {phase : ServePhase} (h : s.Inv cfg w₀)
    (hphase : s.phase = .acknowledging)
    (hsend : s.control.send cfg.limits .completeAck fault = (result, control))
    (hnext : result = .ok () ∧ phase = .closing ∨
      ∃ e, result = .error e ∧ phase = .returned (.error e)) :
    { s with control := control, phase := phase }.Inv cfg w₀ := by
  have hcommitted : s.committed = some (.ok ()) := by
    have hcommits := h.commits
    rwa [hphase] at hcommits
  have hresults := h.joined (Or.inl (by rw [hphase]; rfl))
  have hcontrol : s.control = ⟨[.startAccepted, .planEnd], plannedFrames⟩ := by
    have hsends := h.control (by rw [hphase]; rfl)
    rwa [resultOf_planning (hresults .planning)] at hsends
  rw [hcontrol] at hsend
  have hsent : control.sent <+: [.startAccepted, .planEnd, .completeAck] ∧
      control.bytes <+: completeFrames := by
    cases result with
    | ok _ =>
      rw [Outgoing.send_ok hsend]
      exact ⟨ List.prefix_rfl, List.prefix_rfl⟩
    | error e =>
      obtain ⟨k, rfl⟩ := Outgoing.send_error hsend
      exact ⟨List.prefix_append [Control.startAccepted, Control.planEnd] _,
        take_frame_within _ _ _⟩
  have hconfirmed := h.confirmed_of_planning (resultOf_planning (hresults .planning)) (by simp)
  have hphase' : phase.unacknowledged = false ∧ phase.Commits s.committed := by
    obtain ⟨rfl, rfl⟩ | ⟨e, rfl, rfl⟩ := hnext
    · exact ⟨rfl, hcommitted⟩
    · exact ⟨rfl, trivial⟩
  exact { h with
    control := fun heq => absurd (hphase'.1.symm.trans heq) Bool.false_ne_true
    sent := hsent
    acknowledged := Or.inr hcommitted
    unconfirmed := fun hfalse => absurd (hconfirmed.symm.trans hfalse) Bool.noConfusion
    joined := fun _ => hresults
    commits := hphase'.2 }

theorem Inv.closed {result : Except (Abort QuicSyncError) Unit} (h : s.Inv cfg w₀)
    (hphase : s.phase = .closing) : (s.finish result).Inv cfg w₀ := by
  have hcommitted : s.committed = some (.ok ()) := by
    have hcommits := h.commits
    rwa [hphase] at hcommits
  have hresults := h.joined (Or.inl (by rw [hphase]; rfl))
  exact { h with
    control := fun heq => nomatch heq
    joined := fun _ => hresults
    commits := by
      cases result with
      | ok _ => exact hcommitted
      | error e => exact trivial }

theorem Inv.failStep {task : ServeTask} {e : Abort QuicSyncError} (h : s.Inv cfg w₀)
    (hphase : s.phase = .running) (hstep : Destination.failStep cfg s task e = some s') :
    s'.Inv cfg w₀ := by
  unfold Destination.failStep at hstep
  split at hstep
  · cases hstep
  · cases hstep
    exact h.indexes hphase
  · cases hstep
    exact h.indexes hphase
  · cases hstep
    exact h.failPlanning hphase
  · exact h.requestStep (Or.inl hphase) hstep

/-- **Every event keeps the invariant.** -/
theorem Inv.step {event : ServeEvent} (h : s.Inv cfg w₀) (hstep : s.step cfg event = some s') :
    s'.Inv cfg w₀ := by
  cases event with
  | start chunks fingerprint opened =>
    simp only [Destination.step] at hstep
    split at hstep
    · rename_i hphase
      have hcommitted : s.committed = none := by
        have hcommits := h.commits
        rwa [hphase] at hcommits
      have hsends := h.control (by rw [hphase]; rfl)
      have hjoined {phase : ServePhase} (hphase : phase.joined = false) :
          ¬ (phase.joined = true ∨ s.committed ≠ none) := by
        rintro (heq | hne)
        · exact absurd (hphase.symm.trans heq) Bool.false_ne_true
        · exact hne hcommitted
      split at hstep
      · split at hstep
        · cases hstep
          exact { h with
            control := fun _ => hsends
            joined := fun heq => absurd heq (hjoined rfl)
            commits := hcommitted }
        · cases hstep
      · cases hstep
        exact { h with
          control := fun heq => nomatch heq
          joined := fun heq => absurd heq (hjoined rfl)
          commits := trivial }
    · cases hstep
  | scan =>
    obtain ⟨hphase, hscan⟩ := whenRunning_eq_some.1 hstep
    exact h.scan hphase hscan
  | readIndex chunk =>
    obtain ⟨hphase, hread⟩ := whenRunning_eq_some.1 hstep
    exact h.readIndex hphase hread
  | forward =>
    obtain ⟨hphase, hforward⟩ := whenRunning_eq_some.1 hstep
    exact h.forward hphase hforward
  | confirm handshake closeReason =>
    obtain ⟨hphase, hconfirm⟩ := whenRunning_eq_some.1 hstep
    split at hconfirm
    · rename_i hplanning
      split at hconfirm
      · cases hconfirm
        exact h.confirm hphase hplanning
      · cases hconfirm
        exact h.failPlanning hphase
    · cases hconfirm
  | accept fault =>
    obtain ⟨hphase, haccept⟩ := whenRunning_eq_some.1 hstep
    split at haccept
    · rename_i hplanning
      split at haccept
      · rename_i control hsend
        cases haccept
        exact h.accept hphase hplanning hsend (Or.inl ⟨rfl, rfl⟩)
      · rename_i e control hsend
        cases haccept
        exact h.accept hphase hplanning hsend (Or.inr ⟨e, rfl, rfl⟩)
    · cases haccept
  | plan =>
    obtain ⟨hphase, hplan⟩ := whenRunning_eq_some.1 hstep
    exact h.planStep hphase hplan
  | endPlan fault =>
    obtain ⟨hphase, hend⟩ := whenRunning_eq_some.1 hstep
    split at hend
    · rename_i hplanning
      cases hend
      exact h.endPlan hphase hplanning rfl
    · cases hend
  | request event =>
    cases event with
    | job i e => exact h.requestStep (Or.inr (Or.inl ⟨i, e, rfl⟩)) hstep
    | discard i => exact h.requestStep (Or.inr (Or.inr ⟨i, rfl⟩)) hstep
    | openArea =>
      obtain ⟨hphase, hrequest⟩ := whenRunning_eq_some.1 hstep
      exact h.requestStep (Or.inl hphase) hrequest
    | receive operation =>
      obtain ⟨hphase, hrequest⟩ := whenRunning_eq_some.1 hstep
      exact h.requestStep (Or.inl hphase) hrequest
    | ended =>
      obtain ⟨hphase, hrequest⟩ := whenRunning_eq_some.1 hstep
      exact h.requestStep (Or.inl hphase) hrequest
    | openStream result =>
      obtain ⟨hphase, hrequest⟩ := whenRunning_eq_some.1 hstep
      exact h.requestStep (Or.inl hphase) hrequest
    | join i =>
      obtain ⟨hphase, hrequest⟩ := whenRunning_eq_some.1 hstep
      exact h.requestStep (Or.inl hphase) hrequest
    | finish =>
      obtain ⟨hphase, hrequest⟩ := whenRunning_eq_some.1 hstep
      exact h.requestStep (Or.inl hphase) hrequest
    | fail e =>
      obtain ⟨hphase, hrequest⟩ := whenRunning_eq_some.1 hstep
      exact h.requestStep (Or.inl hphase) hrequest
  | closeLocal =>
    cases hstep
    exact { h with }
  | closeRemote =>
    cases hstep
    exact { h with }
  | closeOperations =>
    cases hstep
    exact { h with drained := fun hdrained => ⟨(h.drained hdrained).1, rfl⟩ }
  | fail task e =>
    obtain ⟨hphase, hfail⟩ := whenRunning_eq_some.1 hstep
    exact h.failStep hphase hfail
  | join =>
    obtain ⟨hphase, hjoin⟩ := whenRunning_eq_some.1 hstep
    split at hjoin
    · rename_i hscanning hindexing hplanning hrequesting
      cases hjoin
      exact { h with
        control := fun _ => h.sends hphase
        joined := fun _ task => by
          cases task with
          | scanning => exact hscanning
          | indexing => exact hindexing
          | planning => exact hplanning
          | requesting => exact hrequesting
        commits := h.uncommitted hphase }
    · cases hjoin
  | abort task =>
    obtain ⟨hphase, habort⟩ := whenRunning_eq_some.1 hstep
    split at habort
    · cases habort
      exact h.drop (h.uncommitted hphase)
    · cases habort
  | commit opened =>
    simp only [Destination.step] at hstep
    split at hstep
    · rename_i hphase
      cases hstep
      exact h.commitStep hphase
    · cases hstep
  | acknowledge fault =>
    simp only [Destination.step] at hstep
    split at hstep
    · rename_i hphase
      split at hstep
      · rename_i control hsend
        cases hstep
        exact h.acknowledge hphase hsend (Or.inl ⟨rfl, rfl⟩)
      · rename_i e control hsend
        cases hstep
        exact h.acknowledge hphase hsend (Or.inr ⟨e, rfl, rfl⟩)
    · cases hstep
  | close rest =>
    simp only [Destination.step] at hstep
    split at hstep
    · rename_i hphase
      cases hstep
      exact h.closed hphase
    · rename_i hphase
      cases hstep
      exact h.closed hphase
    · cases hstep

/-- The states of a session that starts with the tree of `w`. -/
def Reachable (cfg : Serving) (connection : Connection) (w : World)
    (s : Destination cfg.capacity) : Prop :=
  Reaches (step cfg) (start cfg connection w) s

theorem Reachable.inv {connection : Connection} {w : World} {s : Destination cfg.capacity}
    (h : s.Reachable cfg connection w) : s.Inv cfg w :=
  Reaches.invariant h (inv_start cfg connection w) fun _ _ _ hinv hstep => hinv.step hstep

/-! ### Failures -/

/-- A task or one of the jobs has failed. -/
def Failed (s : Destination n) : Prop :=
  (∃ e, s.scanning = .returned (.error e)) ∨ (∃ e, s.indexing = .returned (.error e)) ∨
    (∃ e, s.planning = .returned (.error e)) ∨ (∃ e, s.requesting.task = .returned (.error e)) ∨
    s.requesting.JobFailed

theorem Failed.scan (h : s.Failed) (hstep : s.scanStep cfg = some s') : s'.Failed := by
  unfold scanStep at hstep
  split at hstep
  · rename_i hscanning _
    obtain ⟨sent, -, rfl⟩ := Option.map_eq_some_iff.1 hstep
    cases sent with
    | ok channel => exact h
    | error _ => exact Or.inl ⟨_, rfl⟩
  · rename_i hscanning _
    cases hstep
    obtain ⟨e, he⟩ | h := h
    · rw [hscanning] at he
      cases he
    · exact Or.inr h
  · cases hstep

theorem Failed.readIndex {chunk : Except QuicSyncError Bytes} (h : s.Failed)
    (hstep : s.readIndexStep chunk = some s') : s'.Failed := by
  unfold readIndexStep at hstep
  split at hstep
  · simp only at hstep
    split at hstep
    · cases hstep
      exact h
    · cases hstep
      exact Or.inr (Or.inl ⟨_, rfl⟩)
  · cases hstep
    exact Or.inr (Or.inl ⟨_, rfl⟩)
  · cases hstep

theorem Failed.forward (h : s.Failed) (hstep : s.forwardStep = some s') : s'.Failed := by
  unfold forwardStep at hstep
  split at hstep
  · rename_i hindexing _
    obtain ⟨sent, -, rfl⟩ := Option.map_eq_some_iff.1 hstep
    cases sent with
    | error _ => exact Or.inr (Or.inl ⟨_, rfl⟩)
    | ok channel =>
      obtain h | ⟨e, he⟩ | h := h
      · exact Or.inl h
      · rw [hindexing] at he
        cases he
      · exact Or.inr (Or.inr h)
  · cases hstep

/-- A planning task that goes on has not failed. -/
theorem Failed.planning (h : s.Failed) (hplanning : ∀ e, s.planning ≠ .returned (.error e))
    (hscanning : s'.scanning = s.scanning) (hindexing : s'.indexing = s.indexing)
    (hrequesting : s'.requesting = s.requesting) : s'.Failed := by
  obtain ⟨e, he⟩ | ⟨e, he⟩ | ⟨e, he⟩ | h := h
  · exact Or.inl ⟨e, hscanning.trans he⟩
  · exact Or.inr (Or.inl ⟨e, hindexing.trans he⟩)
  · exact absurd he (hplanning e)
  · refine Or.inr (Or.inr (Or.inr ?_))
    rw [hrequesting]
    exact h

theorem Failed.planStep (h : s.Failed) (hstep : s.planStep = some s') : s'.Failed := by
  unfold Destination.planStep at hstep
  split at hstep
  · rename_i p hplanning
    have hnot : ∀ e, s.planning ≠ .returned (.error e) := by
      intro e heq
      rw [hplanning] at heq
      cases heq
    split at hstep
    · split at hstep <;> cases hstep <;> exact h.planning hnot rfl rfl rfl
    · obtain ⟨received, -, rfl⟩ := Option.map_eq_some_iff.1 hstep
      match received with
      | some (item, channel) =>
        simp only
        split <;> exact h.planning hnot rfl rfl rfl
      | none => exact h.planning hnot rfl rfl rfl
    · obtain ⟨received, -, rfl⟩ := Option.map_eq_some_iff.1 hstep
      match received with
      | some (item, channel) =>
        simp only
        split <;> exact h.planning hnot rfl rfl rfl
      | none => exact h.planning hnot rfl rfl rfl
    · obtain ⟨sent, -, rfl⟩ := Option.map_eq_some_iff.1 hstep
      cases sent <;> exact h.planning hnot rfl rfl rfl
  · cases hstep

theorem Failed.move {event : RequestEvent} {requesting : Requester} {channel : Channel n Operation}
    (h : s.Failed) (hstep : s.requesting.step cfg.root n event = some requesting) :
    { s with requesting := requesting, operations := channel }.Failed := by
  have hmove := Requester.step_move hstep
  obtain h | h | h | ⟨e, he⟩ | h := h
  · exact Or.inl h
  · exact Or.inr (Or.inl h)
  · exact Or.inr (Or.inr (Or.inl h))
  · exact Or.inr (Or.inr (Or.inr (Or.inl ⟨e, hmove.failed_task he⟩)))
  · exact Or.inr (Or.inr (Or.inr (hmove.jobFailed h).symm))

theorem Failed.requestStep {event : RequestEvent} (h : s.Failed)
    (hstep : Destination.requestStep cfg s event = some s') : s'.Failed := by
  unfold Destination.requestStep at hstep
  split at hstep
  · split at hstep
    · split at hstep
      · obtain ⟨requesting, hrequest, rfl⟩ := Option.map_eq_some_iff.1 hstep
        exact h.move hrequest
      · cases hstep
    · cases hstep
  · split at hstep
    · obtain ⟨requesting, hrequest, rfl⟩ := Option.map_eq_some_iff.1 hstep
      exact h.move hrequest
    · cases hstep
  · obtain ⟨requesting, hrequest, rfl⟩ := Option.map_eq_some_iff.1 hstep
    exact h.move hrequest

theorem Failed.drop {phase : ServePhase} (h : s.Failed) :
    { s.dropRequesting with phase := phase }.Failed := by
  unfold dropRequesting
  by_cases halive : s.requesting.task.alive = true
  · rw [if_pos halive]
    obtain h | h | h | ⟨e, he⟩ | h := h
    · exact Or.inl h
    · exact Or.inr (Or.inl h)
    · exact Or.inr (Or.inr (Or.inl h))
    · rw [he] at halive
      cases halive
    · exact Or.inr (Or.inr (Or.inr (Or.inr h)))
  · rw [if_neg halive]
    exact h

theorem Failed.failStep {task : ServeTask} {e : Abort QuicSyncError} (h : s.Failed)
    (hstep : Destination.failStep cfg s task e = some s') : s'.Failed := by
  unfold Destination.failStep at hstep
  split at hstep
  · cases hstep
  · cases hstep
    exact Or.inl ⟨e, rfl⟩
  · cases hstep
    exact Or.inr (Or.inl ⟨e, rfl⟩)
  · cases hstep
    exact Or.inr (Or.inr (Or.inl ⟨e, rfl⟩))
  · exact h.requestStep hstep

/-- **A failure stays.** -/
theorem Failed.step {event : ServeEvent} (h : s.Failed) (hstep : s.step cfg event = some s') :
    s'.Failed := by
  have hplanning {task : PlanTask} (hs : s.planning = task)
      (htask : ∀ e, task ≠ .returned (.error e)) : ∀ e, s.planning ≠ .returned (.error e) := by
    rw [hs]
    exact htask
  cases event with
  | start chunks fingerprint opened =>
    simp only [Destination.step] at hstep
    split at hstep
    · split at hstep
      · split at hstep <;> cases hstep
        exact h
      · cases hstep
        exact h
    · cases hstep
  | scan => exact h.scan (whenRunning_eq_some.1 hstep).2
  | readIndex chunk => exact h.readIndex (whenRunning_eq_some.1 hstep).2
  | forward => exact h.forward (whenRunning_eq_some.1 hstep).2
  | confirm handshake closeReason =>
    obtain ⟨-, hconfirm⟩ := whenRunning_eq_some.1 hstep
    split at hconfirm
    · rename_i hs
      split at hconfirm <;> cases hconfirm <;>
        exact h.planning (hplanning hs fun e heq => nomatch heq) rfl rfl rfl
    · cases hconfirm
  | accept fault =>
    obtain ⟨-, haccept⟩ := whenRunning_eq_some.1 hstep
    split at haccept
    · rename_i hs
      split at haccept <;> cases haccept <;>
        exact h.planning (hplanning hs fun e heq => nomatch heq) rfl rfl rfl
    · cases haccept
  | plan => exact h.planStep (whenRunning_eq_some.1 hstep).2
  | endPlan fault =>
    obtain ⟨-, hend⟩ := whenRunning_eq_some.1 hstep
    split at hend
    · rename_i hs
      cases hend
      exact h.planning (hplanning hs fun e heq => nomatch heq) rfl rfl rfl
    · cases hend
  | request event =>
    cases event with
    | job i e =>
      have hrequest : Destination.requestStep cfg s (.job i e) = some s' := hstep
      exact h.requestStep hrequest
    | discard i =>
      have hrequest : Destination.requestStep cfg s (.discard i) = some s' := hstep
      exact h.requestStep hrequest
    | openArea => exact h.requestStep (whenRunning_eq_some.1 hstep).2
    | receive operation => exact h.requestStep (whenRunning_eq_some.1 hstep).2
    | ended => exact h.requestStep (whenRunning_eq_some.1 hstep).2
    | openStream result => exact h.requestStep (whenRunning_eq_some.1 hstep).2
    | join i => exact h.requestStep (whenRunning_eq_some.1 hstep).2
    | finish => exact h.requestStep (whenRunning_eq_some.1 hstep).2
    | fail e => exact h.requestStep (whenRunning_eq_some.1 hstep).2
  | closeLocal =>
    cases hstep
    exact h
  | closeRemote =>
    cases hstep
    exact h
  | closeOperations =>
    cases hstep
    exact h
  | fail task e => exact h.failStep (whenRunning_eq_some.1 hstep).2
  | join =>
    obtain ⟨-, hjoin⟩ := whenRunning_eq_some.1 hstep
    split at hjoin <;> cases hjoin
    exact h
  | abort task =>
    obtain ⟨-, habort⟩ := whenRunning_eq_some.1 hstep
    split at habort <;> cases habort
    exact h.drop
  | commit opened =>
    simp only [Destination.step] at hstep
    split at hstep
    · cases hstep
      unfold Destination.commitStep
      cases opened with
      | error e => exact h.drop
      | ok _ =>
        simp only
        split <;> exact h
    · cases hstep
  | acknowledge fault =>
    simp only [Destination.step] at hstep
    split at hstep
    · split at hstep <;> cases hstep <;> exact h
    · cases hstep
  | close rest =>
    simp only [Destination.step] at hstep
    split at hstep
    · cases hstep
      exact h
    · cases hstep
      exact h
    · cases hstep

/-- A session with a failure has not been joined. -/
theorem Failed.not_joined (h : s.Failed) (hinv : s.Inv cfg w₀) :
    s.phase.joined = false ∧ s.committed = none := by
  have hnot : ¬ (s.phase.joined = true ∨ s.committed ≠ none) := by
    intro hjoined
    have hresults := hinv.joined hjoined
    have hjobs : s.requesting.jobs = [] := by
      by_cases hcommitted : s.committed = none
      · exact hinv.slots.idle (resultOf_requesting (hresults .requesting))
      · exact hinv.idle hcommitted
    obtain ⟨e, he⟩ | ⟨e, he⟩ | ⟨e, he⟩ | ⟨e, he⟩ | ⟨job, hjob, -⟩ := h
    · have hscanning := hresults .scanning
      simp [resultOf, he] at hscanning
    · have hindexing := hresults .indexing
      simp [resultOf, he] at hindexing
    · have hplanning := hresults .planning
      simp [resultOf, he] at hplanning
    · have hrequesting := hresults .requesting
      simp [resultOf, he] at hrequesting
    · rw [hjobs] at hjob
      cases hjob
  rw [not_or, not_not] at hnot
  exact ⟨Bool.eq_false_iff.2 hnot.1, hnot.2⟩

/-- The commit is made in a state of its own. -/
theorem commit_isSome_iff {opened : Except QuicSyncError Unit} :
    (s.step cfg (.commit opened)).isSome = true ↔ s.phase = .committing := by
  simp only [Destination.step]
  cases s.phase <;> simp

/-- What has been staged when the tasks have been joined. -/
theorem Inv.staged (h : s.Inv cfg w₀) (hphase : s.phase = .committing) :
    ∀ operation ∈ s.emitted, operation.isUpsertFile = true → ∃ file bytes,
      (operation, some file) ∈ s.requesting.pending.changes ∧
        Ready cfg.root file bytes s.requesting.world := by
  intro operation hoperation hupsert
  have hcommitted : s.committed = none := by
    have hcommits := h.commits
    rwa [hphase] at hcommits
  have hsound := h.sound hcommitted
  have htask := resultOf_requesting (h.joined (Or.inl (by rw [hphase]; rfl)) .requesting)
  have hflow := hsound.accounts.flow (by rw [htask]; rfl)
  rw [htask, hsound.slots.idle htask, List.map_nil, List.append_nil] at hflow
  have htaken : s.requesting.taken = s.emitted := by
    have hqueue := (h.drained (Or.inr htask)).1
    rw [← h.flow, hqueue, List.append_nil]
  rw [← htaken] at hoperation
  have hretained := hflow.mem_iff.2 hoperation
  rw [List.mem_append, or_iff_left (by simp [RequestTask.current])] at hretained
  obtain ⟨⟨_, received⟩, hr, rfl⟩ := List.mem_map.1 hretained
  obtain ⟨hsome, -⟩ := hsound.accounts.kept _ hr
  obtain ⟨f, rfl⟩ := Option.isSome_iff_exists.1 (hsome.trans hupsert)
  refine ⟨f.1.file, f.2, hsound.accounts.changes.mem_iff.2 (List.mem_map.2 ⟨_, hr, rfl⟩), ?_⟩
  refine hsound.stages.files.ready (f.1.file, f.2) (List.mem_append_left _ ?_)
  exact List.mem_flatMap.2 ⟨_, hr, by simp⟩

/-- **The staging barrier.**  In every run, whatever fails: up to the commit, every entry outside the
directory for temporary files is as it was.  The commit can be made only when the planner has read
both indexes up to their end and has returned, the end of the plan has been sent, and every file
upsert of the plan has been staged.  After a failure of a task or a job there is no commit and no
acknowledgment. -/
theorem staging_barrier (cfg : Serving) (connection : Connection) (w : World)
    (s : Destination cfg.capacity) (h : s.Reachable cfg connection w) :
    (s.committed = none → OnlyStaging cfg.root w s.requesting.world) ∧
    (∀ opened, (s.step cfg (.commit opened)).isSome = true →
      (∃ S D, s.readRemote = stream S ∧ s.readLocal = stream D ∧
        s.emitted = QuicSync.operations (merge S D) 0) ∧
      s.planning = .returned (.ok ()) ∧ s.control.sent = [.startAccepted, .planEnd] ∧
      ∀ operation ∈ s.emitted, operation.isUpsertFile = true → ∃ file bytes,
        (operation, some file) ∈ s.requesting.pending.changes ∧
          Ready cfg.root file bytes s.requesting.world) ∧
    (s.Failed → ∀ s', Reaches (Destination.step cfg) s s' → s'.committed = none ∧
      (∀ opened, s'.step cfg (.commit opened) = none) ∧ .completeAck ∉ s'.control.sent) := by
  have hinv := h.inv
  refine ⟨fun hcommitted => (hinv.stages hcommitted).onlyStaging, fun opened hcommit => ?_,
    fun hfailed s' hreaches => ?_⟩
  · have hphase := commit_isSome_iff.1 hcommit
    have hplanning := resultOf_planning (hinv.joined (Or.inl (by rw [hphase]; rfl)) .planning)
    have hplan := hinv.plan
    have hcontrol := hinv.control (by rw [hphase]; rfl)
    rw [hplanning] at hplan hcontrol
    obtain hcontrol : s.control = ⟨[.startAccepted, .planEnd], plannedFrames⟩ := hcontrol
    exact ⟨hplan, hplanning, by rw [hcontrol], hinv.staged hphase⟩
  · -- the failure and the invariant go on together
    have hboth : s'.Failed ∧ s'.Inv cfg w :=
      Reaches.invariant (I := fun s => s.Failed ∧ s.Inv cfg w) hreaches ⟨hfailed, hinv⟩
        fun _ _ _ hi hstep => ⟨hi.1.step hstep, hi.2.step hstep⟩
    obtain ⟨hjoined, hcommitted⟩ := hboth.1.not_joined hboth.2
    refine ⟨hcommitted, fun opened => ?_, fun hmem => ?_⟩
    · rw [← Option.not_isSome_iff_eq_none, commit_isSome_iff]
      intro hphase
      rw [hphase] at hjoined
      cases hjoined
    · obtain ⟨hsent, -⟩ | hcommit := hboth.2.acknowledged
      · exact absurd (hsent.subset hmem) (by decide)
      · rw [hcommitted] at hcommit
        cases hcommit

end Destination

/-! ### A session

The source of the sample asks for its root; its file is received in one piece. -/

namespace Sample

/-- The session of a destination that has the directory only. -/
def serving : Serving where
  limits := defaultLimits
  roots := [⟨"root", root, [[7]]⟩]
  root := root
  scan := (.ok (), stream (destination 0o755))

/-- A connection without early data. -/
def connection : Connection := ⟨false, false, none⟩

/-- The operation of the plan. -/
def upsert : Operation := .upsertFile false ⟨0⟩ file

/-- The index that the source sends. -/
def indexBytes : Bytes :=
  frame (IndexMessage.record (directory 0o755)) ++ frame (IndexMessage.record file) ++
    frame IndexMessage.end

/-- What happens up to the commit: the two indexes are read, the plan is made, the file is
received, and the tasks return. -/
def untilCommit : List ServeEvent :=
  [.start [Wire.startFrame] (.ok [7]) (.ok ()), .request .openArea, .scan, .scan, .scan,
    .readIndex (.ok indexBytes), .forward, .confirm (.ok true) none, .accept none, .plan, .plan,
    .plan, .forward, .plan, .plan, .plan, .plan, .request (.receive upsert),
    .request (.openStream (.ok ())), .request (.job 0 (.create (Vector.replicate 16 0))), .forward,
    .plan, .plan, .request (.job 0 (.write [])), .endPlan none, .closeOperations, .request .ended,
    .request (.job 0 .finish), .request (.join 0), .request .finish, .join]

/-- The session after these events. -/
def atCommit : Option (Destination serving.capacity) :=
  untilCommit.foldlM (Destination.step serving)
    (Destination.start serving connection (world 0o755))

theorem atCommit_isSome :
    (atCommit.bind fun s => s.step serving (.commit (.ok ()))).isSome = true := by
  decide +kernel

end Sample

open Sample in
/-- The session of the sample gets to the commit, with its file staged and nothing else changed. -/
theorem staging_barrier_sample : ∃ s : Destination serving.capacity,
    s.Reachable serving connection (world 0o755) ∧
      (s.step serving (.commit (.ok ()))).isSome = true ∧
      OnlyStaging root (world 0o755) s.requesting.world ∧
      (∃ S D, s.readRemote = stream S ∧ s.readLocal = stream D ∧
        s.emitted = QuicSync.operations (merge S D) 0) ∧
      s.control.sent = [.startAccepted, .planEnd] := by
  obtain ⟨s', hs'⟩ := Option.isSome_iff_exists.1 atCommit_isSome
  obtain ⟨s, hs, hcommit⟩ := Option.bind_eq_some_iff.1 hs'
  have hreach : s.Reachable serving connection (world 0o755) := ⟨untilCommit, hs⟩
  have hsome : (s.step serving (.commit (.ok ()))).isSome = true := by rw [hcommit]; rfl
  obtain ⟨honly, hcommitted, -⟩ :=
    Destination.staging_barrier serving connection (world 0o755) s hreach
  obtain ⟨hindexes, -, hsent, -⟩ := hcommitted (.ok ()) hsome
  have hnone : s.committed = none := by
    have hcommits := hreach.inv.commits
    rwa [Destination.commit_isSome_iff.1 hsome] at hcommits
  exact ⟨s, hreach, hsome, honly hnone, hindexes, hsent⟩

end QuicSync
