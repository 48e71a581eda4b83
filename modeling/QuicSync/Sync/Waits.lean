import QuicSync.Sync.Indexing

/-!
# What the tasks of a session wait for

Invariants that say why a task that waits does not wait in vain.

* `Source.Move` and `Destination.Move`: where an event of an end leads.
* `Decoder.decoded_all`: the messages of bytes that are whole frames have all been decoded.
* `Source.Indexed`: an indexing task that is done has written whole frames, up to the end of the
  index, and one that is not has not written the end.
* `Destination.Waits`: a task that still reads the index has not forwarded its end, a job has a
  stream, a requesting task that is full has jobs, and a destination that waits for the end of the
  control stream has sent everything.
-/

namespace QuicSync

open Posix

/-! ### Decoders -/

namespace Decoder

variable {T : Type} [WireMessage T] [WireFormat T] {L : CodecLimits} {d : Decoder}

/-- A decoder does not hold a whole frame back. -/
theorem Good.not_frame (hd : Good L d) (m : T) : ¬ frame m <+: d.buffered := by
  intro hframe
  have hpre : Leb128.encode (QuicSync.payload m).length <+: d.buffered :=
    (List.prefix_append _ _).trans hframe
  obtain ⟨-, ⟨-, hpay, -, hcont⟩ | ⟨k, -, hk, -, -, hpart⟩⟩ := hd
  · rw [buffered, hpay, List.append_nil] at hpre
    exact Leb128.not_encode_of_continuation hcont hpre
  · have hpre' : Leb128.encode k <+: d.buffered := by
      rw [buffered, hk]
      exact List.prefix_append _ _
    have hlen := Leb128.encode_append_inj hpre hpre'
    have htotal := hframe.length_le
    rw [buffered, hk, frame, hlen, List.length_append, List.length_append] at htotal
    omega

/-- The messages of bytes that are whole frames have all been decoded. -/
theorem decoded_all {bytes : Bytes} {out ms : List T} (hpush : push (new L) bytes = (.ok out, d))
    (hbytes : bytes = ms.flatMap frame) (hout : out <+: ms) : out = ms := by
  have hloop : pushLoop (new L) bytes [] = (.ok ([] ++ out), d) := hpush
  have hgood := ((good_new L).pushLoop hpush).1
  have hconsumed := (good_new L).consumed_pushLoop hloop
  obtain ⟨rest, rfl⟩ := hout
  rw [show (new L).buffered = [] from rfl, List.nil_append, hbytes, List.flatMap_append,
    List.append_cancel_left_eq] at hconsumed
  cases rest with
  | nil => rw [List.append_nil]
  | cons m rest =>
    refine absurd ?_ (hgood.not_frame m)
    rw [← hconsumed, List.flatMap_cons]
    exact List.prefix_append _ _

end Decoder

/-! ### The source -/

namespace Source

variable {n : ℕ} {cfg : Sourcing} {s s' : Source n}

/-- Where the end of the index is. -/
structure Indexed (s : Source n) : Prop where
  sending : s.indexing = .confirming ∨ s.indexing = .sending → .end ∉ s.index.sent
  /-- An index that is over has been written in whole frames. -/
  complete : s.indexing = .finishing ∨ s.indexing = .returned (.ok ()) →
    s.index.bytes = s.index.sent.flatMap frame ∧ .end ∈ s.index.sent

/-- What an event does to the two streams that the source writes, and what it takes from the other
end: it starts the session, sends an item of the index, reads, accepts, or does none of these. -/
inductive Move (cfg : Sourcing) (s : Source n) : SourceEvent → Source n → Prop
  | started {streams root : Except QuicSyncError Unit} {fault : Option (ℕ × QuicSyncError)} :
      Move cfg s (.start streams fault root) (s.startStep cfg streams fault root)
  | sent {fault : Option (ℕ × QuicSyncError)} {s' : Source n}
      (hstep : s.sendIndexStep cfg fault = some s') : Move cfg s (.sendIndex fault) s'
  | read {chunk : Except QuicSyncError (Option Bytes)} {s' : Source n}
      (hindex : s'.index = s.index) (hindexing : s'.indexing = s.indexing) :
      Move cfg s (.readControl chunk) s'
  | accepted {stream : Except QuicSyncError (Option Unit)} {s' : Source n}
      (hindex : s'.index = s.index) (hindexing : s'.indexing = s.indexing) :
      Move cfg s (.accept stream) s'
  | other {event : SourceEvent} {s' : Source n} (hcontrol : s'.control = s.control)
      (hindex : s'.index = s.index) (hread : s'.controlRead = s.controlRead)
      (haccepted : s'.accepted = s.accepted)
      (hsending : s'.indexing = .confirming ∨ s'.indexing = .sending →
        s.indexing = .confirming ∨ s.indexing = .sending)
      (hcomplete : s'.indexing = .finishing ∨ s'.indexing = .returned (.ok ()) →
        s.indexing = .finishing ∨ s.indexing = .returned (.ok ())) : Move cfg s event s'

theorem step_move {event : SourceEvent} (h : s.step cfg event = some s') :
    Move cfg s event s' := by
  cases event with
  | start streams fault root =>
    simp only [Source.step] at h
    split at h <;> cases h
    exact .started
  | scan =>
    obtain ⟨-, hscan⟩ := whenRunning_eq_some.1 h
    unfold scanStep at hscan
    split at hscan
    · obtain ⟨sent, -, rfl⟩ := Option.map_eq_some_iff.1 hscan
      cases sent <;> exact .other rfl rfl rfl rfl id id
    · cases hscan
      exact .other rfl rfl rfl rfl id id
    · cases hscan
  | confirmIndexing handshake closeReason =>
    obtain ⟨-, hconfirm⟩ := whenRunning_eq_some.1 h
    split at hconfirm
    · rename_i hindexing
      split at hconfirm <;> cases hconfirm <;>
        exact .other rfl rfl rfl rfl (fun _ => Or.inl hindexing) (by simp)
    · cases hconfirm
  | sendIndex fault => exact .sent (whenRunning_eq_some.1 h).2
  | finishIndex result =>
    obtain ⟨-, hfinish⟩ := whenRunning_eq_some.1 h
    split at hfinish
    · rename_i hindexing
      cases hfinish
      exact .other rfl rfl rfl rfl (by simp) fun _ => Or.inl hindexing
    · cases hfinish
  | confirmServing handshake closeReason =>
    obtain ⟨-, hconfirm⟩ := whenRunning_eq_some.1 h
    split at hconfirm
    · split at hconfirm <;> cases hconfirm <;> exact .other rfl rfl rfl rfl id id
    · cases hconfirm
  | readControl chunk =>
    obtain ⟨-, hread⟩ := whenRunning_eq_some.1 h
    unfold readControlStep at hread
    split at hread
    · simp only at hread
      split at hread <;> cases hread <;> exact .read rfl rfl
    · cases hread
      exact .read rfl rfl
    · cases hread
      exact .read rfl rfl
    · cases hread
  | handle =>
    obtain ⟨-, hhandle⟩ := whenRunning_eq_some.1 h
    unfold handleStep at hhandle
    split at hhandle
    · simp only at hhandle
      split at hhandle <;> cases hhandle <;> exact .other rfl rfl rfl rfl id id
    · cases hhandle
  | accept stream =>
    obtain ⟨-, haccept⟩ := whenRunning_eq_some.1 h
    unfold acceptStep at haccept
    split at haccept
    · split at haccept
      · split at haccept <;> cases haccept <;> exact .accepted rfl rfl
      · cases haccept
    · cases haccept
  | job i event =>
    have hjob : s.jobStep i event = some s' := h
    unfold jobStep at hjob
    split at hjob <;> cases hjob <;> exact .other rfl rfl rfl rfl id id
  | joinJob i =>
    obtain ⟨-, hjoin⟩ := whenRunning_eq_some.1 h
    unfold joinJobStep at hjoin
    simp only at hjoin
    split at hjoin
    · cases hjoin
      split <;> exact .other rfl rfl rfl rfl id id
    · cases hjoin
      split <;> exact .other rfl rfl rfl rfl id id
    · cases hjoin
  | drained =>
    obtain ⟨-, hdrained⟩ := whenRunning_eq_some.1 h
    split at hdrained <;> cases hdrained
    exact .other rfl rfl rfl rfl id id
  | closed =>
    obtain ⟨-, hclosed⟩ := whenRunning_eq_some.1 h
    split at hclosed <;> cases hclosed
    exact .other rfl rfl rfl rfl id id
  | closeChannel =>
    cases h
    exact .other rfl rfl rfl rfl id id
  | fail task e =>
    obtain ⟨-, hfail⟩ := whenRunning_eq_some.1 h
    unfold failStep at hfail
    split at hfail
    · cases hfail
    · cases hfail
      exact .other rfl rfl rfl rfl id id
    · cases hfail
      exact .other rfl rfl rfl rfl (by simp) (by simp)
    · cases hfail
      exact .other rfl rfl rfl rfl id id
  | join =>
    obtain ⟨-, hjoin⟩ := whenRunning_eq_some.1 h
    split at hjoin <;> cases hjoin
    exact .other rfl rfl rfl rfl id id
  | abort task =>
    obtain ⟨-, habort⟩ := whenRunning_eq_some.1 h
    split at habort <;> cases habort
    exact .other rfl rfl rfl rfl id id

theorem startStep_index {streams root : Except QuicSyncError Unit}
    {fault : Option (ℕ × QuicSyncError)} :
    (s.startStep cfg streams fault root).index = s.index ∧
      (s.startStep cfg streams fault root).indexing = s.indexing := by
  unfold startStep
  repeat' split
  all_goals exact ⟨rfl, rfl⟩

theorem Indexed.sendIndex {fault : Option (ℕ × QuicSyncError)} (h : s.Indexed)
    (hflow : s.IndexFlow cfg) (hstep : s.sendIndexStep cfg fault = some s') : s'.Indexed := by
  -- a task that has failed
  have hfailed {s' : Source n} {e : Abort QuicSyncError}
      (hindexing : s'.indexing = .returned (.error e)) : s'.Indexed := by
    constructor <;> intro hdone <;> rw [hindexing] at hdone <;> rcases hdone with heq | heq <;>
      cases heq
  unfold sendIndexStep at hstep
  split at hstep
  swap
  · cases hstep
  rename_i hindexing
  obtain ⟨hbytes, -⟩ := hflow.sending (Or.inr hindexing)
  obtain ⟨received, hreceive, rfl⟩ := Option.map_eq_some_iff.1 hstep
  rcases received with _ | ⟨e | message, channel⟩
  · exact hfailed rfl
  · exact hfailed rfl
  · cases hsend : s.index.send cfg.limits message fault with
    | mk result index =>
      cases result with
      | error e =>
        simp only [hsend]
        exact hfailed rfl
      | ok _ =>
        simp only [hsend]
        obtain rfl := Outgoing.send_ok hsend
        constructor
        · intro hsending
          have hne : message ≠ .end := by
            rintro rfl
            simp at hsending
          change IndexMessage.end ∉ s.index.sent ++ [message]
          rw [List.mem_append, List.mem_singleton, not_or]
          exact ⟨h.sending (Or.inr hindexing), hne.symm⟩
        · intro hdone
          have hend : message = .end := by
            by_contra hne
            simp [hne] at hdone
          subst hend
          refine ⟨?_, List.mem_append_right _ (List.mem_singleton_self _)⟩
          change s.index.bytes ++ frame IndexMessage.end =
            (s.index.sent ++ [IndexMessage.end]).flatMap frame
          rw [hbytes, List.flatMap_append, List.flatMap_singleton]

/-- **Every step keeps it.** -/
theorem Indexed.step {event : SourceEvent} (h : s.Indexed) (hflow : s.IndexFlow cfg)
    (hstep : s.step cfg event = some s') : s'.Indexed := by
  have hsame {s' : Source n} (hindex : s'.index = s.index) (hindexing : s'.indexing = s.indexing) :
      s'.Indexed := by
    constructor
    · rw [hindex, hindexing]
      exact h.sending
    · rw [hindex, hindexing]
      exact h.complete
  cases step_move hstep with
  | started => exact hsame startStep_index.1 startStep_index.2
  | sent hsend => exact h.sendIndex hflow hsend
  | read hindex hindexing => exact hsame hindex hindexing
  | accepted hindex hindexing => exact hsame hindex hindexing
  | other _ hindex _ _ hsending hcomplete =>
    refine ⟨fun hdone => ?_, fun hdone => ?_⟩
    · rw [hindex]
      exact h.sending (hsending hdone)
    · rw [hindex]
      exact h.complete (hcomplete hdone)

end Source

/-! ### The requesting task -/

/-- A job stays the job of its operation. -/
theorem Job.step_operation {area : Path} {job job' : Job} {w w' : World} {event : JobEvent}
    (h : job.step area w event = some (job', w')) : job'.operation = job.operation := by
  cases event with
  | create random =>
    simp only [Job.step] at h
    split at h
    · split at h <;> cases h <;> rfl
    · cases h
  | write bytes =>
    simp only [Job.step] at h
    split at h <;> cases h
    rfl
  | finish =>
    simp only [Job.step] at h
    split at h <;> cases h
    rfl
  | fail e =>
    simp only [Job.step] at h
    split at h <;> cases h <;> rfl

namespace Requester

variable {root : RootHandle} {capacity : ℕ} {s s' : Requester} {event : RequestEvent}

/-- Every job has a stream, and a task that is full has jobs. -/
structure Waits (capacity : ℕ) (s : Requester) : Prop where
  jobs : ∀ job ∈ s.jobs, job.operation ∈ s.opened
  full : ∀ operation, s.task = .full operation → capacity ≤ s.jobs.length

theorem stage_waits {operation : Operation} {received : Option (Transfer.ReceivedFile × Bytes)}
    {task : RequestTask} (hjobs : ∀ job ∈ s.jobs, job.operation ∈ s.opened)
    (htask : ∀ operation, task ≠ .full operation) :
    (s.stage operation received task).Waits capacity := by
  unfold stage
  split
  · exact ⟨hjobs, fun operation heq => absurd heq (htask operation)⟩
  · exact ⟨hjobs, fun operation heq => by cases heq⟩

theorem Waits.step (h : s.Waits capacity) (hstep : s.step root capacity event = some s') :
    s'.Waits capacity := by
  -- some of the jobs are left
  have hless {jobs : List Job} (hjobs : jobs.Sublist s.jobs) :
      ∀ job ∈ jobs, job.operation ∈ s.opened := fun job hjob => h.jobs job (hjobs.subset hjob)
  cases step_move hstep with
  | areaOpened => exact ⟨h.jobs, fun operation heq => by cases heq⟩
  | areaFailed => exact ⟨h.jobs, fun operation heq => by cases heq⟩
  | @take operation task htask hmemory hupsert hnext =>
    refine ⟨h.jobs, fun operation' heq => ?_⟩
    by_contra hroom
    rw [not_le] at hroom
    obtain rfl : task = .full operation' := heq
    simp [Requester.step, htask, hmemory, hupsert, not_le.2 hroom] at hstep
  | takeDirect => exact stage_waits h.jobs fun operation heq => by cases heq
  | ended => exact ⟨h.jobs, fun operation heq => by cases heq⟩
  | @streamOpened operation htask =>
    refine ⟨fun job hjob => ?_, fun operation heq => by cases heq⟩
    obtain hjob | hjob := List.mem_append.1 hjob
    · exact List.mem_append_left _ (h.jobs job hjob)
    · rw [List.mem_singleton.1 hjob]
      exact List.mem_append_right _ (List.mem_singleton_self operation)
  | @joined i jobs₁ jobs₂ job received bytes task hjobs hstate htask =>
    refine stage_waits (hless ?_) ?_
    · rw [hjobs]
      exact (List.Sublist.refl jobs₁).append (List.sublist_cons_self job jobs₂)
    · rintro operation rfl
      obtain ⟨operation', -, heq⟩ | ⟨-, heq⟩ := htask
      · cases heq
      · cases heq
  | failed hevent hjobs htask => exact ⟨hless hjobs, fun operation heq => by cases heq⟩
  | finished => exact ⟨h.jobs, fun operation heq => by cases heq⟩
  | @job i event jobs₁ jobs₂ job job' w hjobs hjob =>
    have hmem : job ∈ s.jobs := by
      rw [hjobs]
      exact List.mem_append_right _ List.mem_cons_self
    refine ⟨fun job'' hjob'' => ?_, fun operation heq => ?_⟩
    · obtain hjob'' | hjob'' := List.mem_append.1 hjob''
      · exact hless (hjobs ▸ List.sublist_append_left jobs₁ _) job'' hjob''
      · obtain rfl | hjob'' := List.mem_cons.1 hjob''
        · rw [Job.step_operation hjob]
          exact h.jobs job hmem
        · refine hless ?_ job'' hjob''
          rw [hjobs]
          exact (List.sublist_cons_self job jobs₂).trans (List.sublist_append_right jobs₁ _)
    · have hlength := h.full operation heq
      rw [hjobs] at hlength
      simpa using hlength
  | @discarded i jobs₁ jobs₂ job received bytes hjobs hstate htask =>
    refine ⟨hless ?_, fun operation heq => ?_⟩
    · rw [hjobs]
      exact (List.Sublist.refl jobs₁).append (List.sublist_cons_self job jobs₂)
    · have hfull : s.task = .full operation := heq
      rw [hfull] at htask
      cases htask

/-- Only the end of the session drops a task. -/
theorem Move.dropped (h : Move root capacity s event s') (hdropped : s'.task = .dropped) :
    s.task = .dropped := by
  have hstaged {s : Requester} {operation : Operation}
      {received : Option (Transfer.ReceivedFile × Bytes)} {task : RequestTask}
      (h : (s.stage operation received task).task = .dropped) : task = .dropped := by
    obtain ⟨-, heq | ⟨e, heq⟩⟩ := stage_task s operation received task
    · exact heq.symm.trans h
    · rw [heq] at h
      cases h
  cases h with
  | take _ _ _ hnext =>
    obtain rfl | ⟨rfl, -⟩ := hnext
    · cases hdropped
    · cases hdropped
  | takeDirect => cases hstaged hdropped
  | joined _ _ htask =>
    obtain rfl := hstaged hdropped
    obtain ⟨operation, -, heq⟩ | ⟨-, heq⟩ := htask
    · cases heq
    · cases heq
  | job => exact hdropped
  | discarded => exact hdropped
  | areaOpened => cases hdropped
  | areaFailed => cases hdropped
  | ended => cases hdropped
  | streamOpened => cases hdropped
  | failed => cases hdropped
  | finished => cases hdropped

end Requester

/-! ### The destination -/

namespace Destination

variable {n : ℕ} {cfg : Serving} {w₀ : World} {s s' : Destination n}

/-- Where an event leads: one case for each kind of outcome. -/
inductive Move (cfg : Serving) (s : Destination n) : ServeEvent → Destination n → Prop
  | started {chunks : List Bytes} {fingerprint : Except QuicSyncError Bytes}
      {opened : Except QuicSyncError Unit} {phase : ServePhase} (hphase : s.phase = .starting)
      (hnext : phase = .running ∨ ∃ e, phase = .returned (.error e)) :
      Move cfg s (.start chunks fingerprint opened)
        { s with phase := phase, controlRead := chunks.flatten }
  /-- The scan goes on, the planning task passes the gate, or a task fails. -/
  | task {event : ServeEvent} {connection : Connection} {confirmed : Bool}
      {scanning indexing : TaskState} {unscanned : List IndexItem}
      {localIndex : Channel n IndexItem} {planning : PlanTask} (hphase : s.phase = .running)
      (hindexing : indexing = .running → s.indexing = .running) :
      Move cfg s event
        { s with
          connection := connection
          confirmed := confirmed
          scanning := scanning
          indexing := indexing
          unscanned := unscanned
          localIndex := localIndex
          planning := planning }
  | read {chunk : Except QuicSyncError Bytes} {indexRead : Bytes} {records : Messages IndexMessage}
      {indexing : TaskState} (hphase : s.phase = .running)
      (hindexing : indexing = .running → s.indexing = .running) :
      Move cfg s (.readIndex chunk)
        { s with indexRead := indexRead, records := records, indexing := indexing }
  | forwarded {s' : Destination n} (hphase : s.phase = .running)
      (hstep : s.forwardStep = some s') : Move cfg s .forward s'
  | planned {s' : Destination n} (hphase : s.phase = .running) (hstep : s.planStep = some s') :
      Move cfg s .plan s'
  /-- The planning task accepts the start or ends the plan. -/
  | sent {event : ServeEvent} {message : Control} {fault : Option (ℕ × QuicSyncError)}
      {result : Except (Abort QuicSyncError) Unit} {control : Outgoing Control}
      {planning : PlanTask} (hphase : s.phase = .running)
      (hsend : s.control.send cfg.limits message fault = (result, control)) :
      Move cfg s event { s with control := control, planning := planning }
  | requested {event : ServeEvent} {request : RequestEvent} {s' : Destination n}
      (hstep : requestStep cfg s request = some s') : Move cfg s event s'
  | closed {event : ServeEvent} {localIndex remoteIndex : Channel n IndexItem}
      {operations : Channel n Operation} (hremote : remoteIndex.queue = s.remoteIndex.queue) :
      Move cfg s event
        { s with localIndex := localIndex, remoteIndex := remoteIndex, operations := operations }
  | joined : Move cfg s .join { s with phase := .committing }
  | aborted {task : ServeTask} {e : Abort QuicSyncError} :
      Move cfg s (.abort task) (s.dropRequesting.finish (.error e))
  | committed {opened : Except QuicSyncError Unit} :
      Move cfg s (.commit opened) (s.commitStep cfg opened)
  | acknowledged {fault : Option (ℕ × QuicSyncError)} {result : Except (Abort QuicSyncError) Unit}
      {control : Outgoing Control} {phase : ServePhase} (hphase : s.phase = .acknowledging)
      (hsend : s.control.send cfg.limits .completeAck fault = (result, control))
      (hnext : result = .ok () ∧ phase = .closing ∨ ∃ e, phase = .returned (.error e)) :
      Move cfg s (.acknowledge fault) { s with control := control, phase := phase }
  | ended {rest : Except QuicSyncError (List Bytes)} {result : Except (Abort QuicSyncError) Unit} :
      Move cfg s (.close rest) (s.finish result)

/-- **Every event leads to one of the outcomes.** -/
theorem step_move {event : ServeEvent} (h : s.step cfg event = some s') : Move cfg s event s' := by
  cases event with
  | start chunks fingerprint opened =>
    simp only [Destination.step] at h
    split at h
    · rename_i hphase
      split at h
      · split at h <;> cases h
        exact .started hphase (Or.inl rfl)
      · cases h
        exact .started hphase (Or.inr ⟨_, rfl⟩)
    · cases h
  | scan =>
    obtain ⟨hphase, hscan⟩ := whenRunning_eq_some.1 h
    unfold scanStep at hscan
    split at hscan
    · obtain ⟨sent, -, rfl⟩ := Option.map_eq_some_iff.1 hscan
      cases sent <;> exact .task hphase id
    · cases hscan
      exact .task hphase id
    · cases hscan
  | readIndex chunk =>
    obtain ⟨hphase, hread⟩ := whenRunning_eq_some.1 h
    unfold readIndexStep at hread
    split at hread
    · simp only at hread
      split at hread
      · cases hread
        exact .read hphase id
      · cases hread
        exact .read hphase (by simp)
    · cases hread
      exact .read hphase (by simp)
    · cases hread
  | forward =>
    obtain ⟨hphase, hforward⟩ := whenRunning_eq_some.1 h
    exact .forwarded hphase hforward
  | confirm handshake closeReason =>
    obtain ⟨hphase, hconfirm⟩ := whenRunning_eq_some.1 h
    split at hconfirm
    · split at hconfirm <;> cases hconfirm <;> exact .task hphase id
    · cases hconfirm
  | accept fault =>
    obtain ⟨hphase, haccept⟩ := whenRunning_eq_some.1 h
    split at haccept
    · split at haccept <;> rename_i hsend <;> cases haccept <;> exact .sent hphase hsend
    · cases haccept
  | plan =>
    obtain ⟨hphase, hplan⟩ := whenRunning_eq_some.1 h
    exact .planned hphase hplan
  | endPlan fault =>
    obtain ⟨hphase, hend⟩ := whenRunning_eq_some.1 h
    split at hend
    · cases hend
      exact .sent hphase rfl
    · cases hend
  | request event =>
    have hrunning (h : s.whenRunning (requestStep cfg s event) = some s') :
        Move cfg s (.request event) s' := .requested (whenRunning_eq_some.1 h).2
    cases event with
    | job i event =>
      have hjob : requestStep cfg s (.job i event) = some s' := h
      exact .requested hjob
    | discard i =>
      have hdiscard : requestStep cfg s (.discard i) = some s' := h
      exact .requested hdiscard
    | openArea => exact hrunning h
    | receive operation => exact hrunning h
    | ended => exact hrunning h
    | openStream result => exact hrunning h
    | join i => exact hrunning h
    | finish => exact hrunning h
    | fail e => exact hrunning h
  | closeLocal =>
    cases h
    exact .closed rfl
  | closeRemote =>
    cases h
    exact .closed rfl
  | closeOperations =>
    cases h
    exact .closed rfl
  | fail task e =>
    obtain ⟨hphase, hfail⟩ := whenRunning_eq_some.1 h
    unfold failStep at hfail
    split at hfail
    · cases hfail
    · cases hfail
      exact .task hphase id
    · cases hfail
      exact .task hphase (by simp)
    · cases hfail
      exact .task hphase id
    · exact .requested hfail
  | join =>
    obtain ⟨-, hjoin⟩ := whenRunning_eq_some.1 h
    split at hjoin <;> cases hjoin
    exact .joined
  | abort task =>
    obtain ⟨-, habort⟩ := whenRunning_eq_some.1 h
    split at habort <;> cases habort
    exact .aborted
  | commit opened =>
    simp only [Destination.step] at h
    split at h <;> cases h
    exact .committed
  | acknowledge fault =>
    simp only [Destination.step] at h
    split at h
    · rename_i hphase
      split at h
      · rename_i hsend
        cases h
        exact .acknowledged hphase hsend (Or.inl ⟨rfl, rfl⟩)
      · rename_i hsend
        cases h
        exact .acknowledged hphase hsend (Or.inr ⟨_, rfl⟩)
    · cases h
  | close rest =>
    simp only [Destination.step] at h
    split at h <;> cases h <;> exact .ended

/-- What the tasks wait for is still to come. -/
structure Waits (s : Destination n) : Prop where
  requesting : s.requesting.Waits n
  present : s.phase = .starting ∨ s.phase = .running → s.requesting.task ≠ .dropped
  /-- The end of the index has not been forwarded. -/
  forwarding : s.indexing = .running → (.ok .end : IndexItem) ∉ s.readRemote ++ s.remoteIndex.queue
  closing : s.phase = .closing → s.control.bytes = completeFrames

theorem waits_start (cfg : Serving) (connection : Connection) (w : World) :
    (start cfg connection w).Waits where
  requesting := ⟨fun _ hjob => absurd hjob List.not_mem_nil, fun _ heq => by cases heq⟩
  present := fun _ heq => by cases heq
  forwarding := fun _ => List.not_mem_nil
  closing := fun heq => by cases heq

/-- A step of one of the other tasks. -/
theorem Waits.running (h : s.Waits) (hphase : s.phase = .running)
    (hrequesting : s'.requesting = s.requesting) (hphase' : s'.phase = s.phase)
    (hindexing : s'.indexing = .running →
      s.indexing = .running ∧ s'.readRemote ++ s'.remoteIndex.queue =
        s.readRemote ++ s.remoteIndex.queue) : s'.Waits where
  requesting := hrequesting ▸ h.requesting
  present := fun _ => by
    rw [hrequesting]
    exact h.present (Or.inr hphase)
  forwarding := fun hrunning => by
    obtain ⟨hrunning, hremote⟩ := hindexing hrunning
    rw [hremote]
    exact h.forwarding hrunning
  closing := fun hclosing => by
    rw [hphase', hphase] at hclosing
    cases hclosing

/-- The session goes on, with the tasks as they are. -/
theorem Waits.phase {phase : ServePhase} {control : Outgoing Control} {requesting : Requester}
    {committed : Option (Except QuicSyncError Unit)} {controlRead : Bytes} (h : s.Waits)
    (hrequesting : requesting.Waits n) (hphase : phase ≠ .starting ∧ phase ≠ .running)
    (hclosing : phase = .closing → control.bytes = completeFrames) :
    { s with
      phase := phase
      control := control
      requesting := requesting
      committed := committed
      controlRead := controlRead }.Waits where
  requesting := hrequesting
  present := fun heq => heq.elim (fun heq => absurd heq hphase.1) fun heq => absurd heq hphase.2
  forwarding := h.forwarding
  closing := hclosing

theorem Waits.forward (h : s.Waits) (hphase : s.phase = .running)
    (hstep : s.forwardStep = some s') : s'.Waits := by
  unfold forwardStep at hstep
  split at hstep
  · rename_i record pending hindexing hpending
    obtain ⟨sent, hsend, rfl⟩ := Option.map_eq_some_iff.1 hstep
    cases sent with
    | error _ => exact h.running hphase rfl rfl fun hrunning => by cases hrunning
    | ok channel =>
      obtain ⟨-, -, hqueue⟩ := Channel.send_ok hsend
      refine ⟨h.requesting, h.present, fun hrunning => ?_, fun hclosing => ?_⟩
      · have hrecord : record ≠ .end := by
          rintro rfl
          cases hrunning
        change _ ∉ s.readRemote ++ channel.queue
        rw [hqueue, ← List.append_assoc, List.mem_append, not_or]
        refine ⟨h.forwarding hindexing, fun hmem => hrecord ?_⟩
        exact (Except.ok.inj (List.mem_singleton.1 hmem)).symm
      · exact absurd (hphase.symm.trans hclosing) (by simp)
  · cases hstep

theorem Waits.plan (h : s.Waits) (hphase : s.phase = .running) (hstep : s.planStep = some s') :
    s'.Waits := by
  unfold planStep at hstep
  split at hstep
  swap
  · cases hstep
  split at hstep
  · split at hstep <;> cases hstep <;>
      exact h.running hphase rfl rfl fun hrunning => ⟨hrunning, rfl⟩
  · obtain ⟨received, hreceive, rfl⟩ := Option.map_eq_some_iff.1 hstep
    rcases received with _ | ⟨item, channel⟩
    · exact h.running hphase rfl rfl fun hrunning => ⟨hrunning, rfl⟩
    · obtain ⟨hqueue, -⟩ := Channel.receive_item hreceive
      have hremote : s.readRemote ++ [item] ++ channel.queue =
          s.readRemote ++ s.remoteIndex.queue := by
        rw [hqueue, List.append_assoc]
        rfl
      simp only
      split <;> exact h.running hphase rfl rfl fun hrunning => ⟨hrunning, hremote⟩
  · obtain ⟨received, -, rfl⟩ := Option.map_eq_some_iff.1 hstep
    rcases received with _ | ⟨item, channel⟩
    · exact h.running hphase rfl rfl fun hrunning => ⟨hrunning, rfl⟩
    · simp only
      split <;> exact h.running hphase rfl rfl fun hrunning => ⟨hrunning, rfl⟩
  · obtain ⟨sent, -, rfl⟩ := Option.map_eq_some_iff.1 hstep
    cases sent <;> exact h.running hphase rfl rfl fun hrunning => ⟨hrunning, rfl⟩

theorem Waits.requestStep {event : RequestEvent} (h : s.Waits)
    (hstep : Destination.requestStep cfg s event = some s') : s'.Waits := by
  have hrequest {requesting : Requester} {operations : Channel n Operation}
      (hone : s.requesting.step cfg.root n event = some requesting) :
      { s with requesting := requesting, operations := operations }.Waits :=
    { h with
      requesting := h.requesting.step hone
      present := fun hphase hdropped =>
        h.present hphase ((Requester.step_move hone).dropped hdropped) }
  unfold Destination.requestStep at hstep
  split at hstep
  · split at hstep
    · split at hstep
      · obtain ⟨requesting, hone, rfl⟩ := Option.map_eq_some_iff.1 hstep
        exact hrequest hone
      · cases hstep
    · cases hstep
  · split at hstep
    · obtain ⟨requesting, hone, rfl⟩ := Option.map_eq_some_iff.1 hstep
      exact hrequest hone
    · cases hstep
  · obtain ⟨requesting, hone, rfl⟩ := Option.map_eq_some_iff.1 hstep
    exact hrequest hone

/-- What is sent before the acknowledgment. -/
theorem Inv.planned_control (h : s.Inv cfg w₀) (hphase : s.phase = .acknowledging) :
    s.control = ⟨[.startAccepted, .planEnd], plannedFrames⟩ := by
  have hsends := h.control (by rw [hphase]; rfl)
  have hjoined := h.joined (Or.inl (by rw [hphase]; rfl)) .planning
  rwa [resultOf_planning hjoined] at hsends

/-- **Every step keeps it.** -/
theorem Waits.step {event : ServeEvent} (h : s.Waits) (hinv : s.Inv cfg w₀)
    (hstep : s.step cfg event = some s') : s'.Waits := by
  have habandoned : s.dropRequesting.requesting.Waits n := by
    unfold dropRequesting
    simp only
    split
    · exact ⟨h.requesting.jobs, fun _ heq => by cases heq⟩
    · exact h.requesting
  cases step_move hstep with
  | started hphase hnext =>
    exact { h with
      present := fun _ => h.present (Or.inl hphase)
      closing := by
        rintro rfl
        rcases hnext with heq | ⟨e, heq⟩ <;> cases heq }
  | task hphase hindexing =>
    exact h.running hphase rfl rfl fun hrunning => ⟨hindexing hrunning, rfl⟩
  | read hphase hindexing =>
    exact h.running hphase rfl rfl fun hrunning => ⟨hindexing hrunning, rfl⟩
  | forwarded hphase hforward => exact h.forward hphase hforward
  | planned hphase hplan => exact h.plan hphase hplan
  | sent hphase => exact h.running hphase rfl rfl fun hrunning => ⟨hrunning, rfl⟩
  | requested hrequest => exact h.requestStep hrequest
  | closed hremote =>
    exact { h with
      forwarding := fun hrunning => by
        simp only [hremote]
        exact h.forwarding hrunning }
  | joined => exact h.phase h.requesting (by simp) (by simp)
  | aborted => exact h.phase habandoned (by simp) (by simp)
  | @committed opened =>
    unfold Destination.commitStep
    cases opened with
    | error e => exact h.phase habandoned (by simp) (by simp)
    | ok _ =>
      simp only
      split
      · exact h.phase ⟨h.requesting.jobs, h.requesting.full⟩ (by simp) (by simp)
      · exact h.phase ⟨h.requesting.jobs, h.requesting.full⟩ (by simp) (by simp)
  | acknowledged hphase hsend hnext =>
    obtain ⟨rfl, rfl⟩ | ⟨e, rfl⟩ := hnext
    · refine h.phase h.requesting (by simp) fun _ => ?_
      rw [hinv.planned_control hphase] at hsend
      rw [Outgoing.send_ok hsend]
      rfl
    · exact h.phase h.requesting (by simp) (by simp)
  | ended => exact h.phase h.requesting (by simp) (by simp)

end Destination

/-! ### Both ends -/

namespace Session

variable {cfg : Parties} {connection connection' : Connection} {w : World}
  {s : Session cfg.source.capacity cfg.destination.capacity}

theorem Reachable.waits (h : s.Reachable cfg connection connection' w) :
    s.source.Indexed ∧ s.destination.Waits := by
  obtain ⟨-, hsource, hdestination⟩ := h.parts
  constructor
  · refine (Reaches.invariant (I := fun s => s.IndexFlow cfg.source ∧ s.Indexed) hsource
      ⟨Source.indexFlow_start _ _, fun _ => List.not_mem_nil, ?_⟩ fun _ _ _ hi hstep =>
        ⟨hi.1.step hstep, hi.2.step hi.1 hstep⟩).2
    rintro (hdone | hdone) <;> cases hdone
  · exact (Reaches.invariant (I := fun s => s.Inv cfg.destination w ∧ s.Waits) hdestination
      ⟨Destination.inv_start _ _ _, Destination.waits_start _ _ _⟩ fun _ _ _ hi hstep =>
        ⟨hi.1.step hstep, hi.2.step hi.1 hstep⟩).2

end Session

end QuicSync
