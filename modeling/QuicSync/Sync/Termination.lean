import Mathlib.Algebra.Order.BigOperators.Group.List
import Mathlib.Data.Prod.Lex
import QuicSync.Sync.Indexing

/-!
# Sessions do not go on for ever

Whatever the order of its events and wherever it fails, a session has only finitely many of them,
but for those that leave it where it was: a read of no bytes, a channel whose second end goes, and
the pieces of a file on its stream (`Session.Idle`).

What there is left to do is counted at each end.  An event of one end makes more work for the other,
so the counts do not just decrease: they are compared one after the other, and the work that an
event makes stands behind the work that it does (`Session.rank`).

* `Source.nearer` and `Destination.nearer`: what an event does to the counts of its end.
* `Session.works_wellFounded`: there is no infinite run.
-/

namespace QuicSync

open Posix

/-! ### How far the source is -/

def SourcePhase.rank : SourcePhase → ℕ
  | starting => 2
  | running => 1
  | returned _ => 0

def TaskState.rank : TaskState → ℕ
  | running => 1
  | returned _ => 0

def IndexTask.rank : IndexTask → ℕ
  | confirming => 3
  | sending => 2
  | finishing => 1
  | returned _ => 0

def ServingTask.rank : ServingTask → ℕ
  | confirming => 4
  | looping _ _ => 3
  | draining => 2
  | closing => 1
  | returned _ => 0

/-- A channel that has not been closed. -/
def Channel.rank {n : ℕ} {α : Type} (c : Channel n α) : ℕ := if c.closed then 0 else 1

theorem Channel.rank_send {n : ℕ} {α : Type} {c c' : Channel n α} {a : α}
    (h : c.send a = some (.ok c')) : c'.rank = c.rank ∧ c'.queue.length = c.queue.length + 1 := by
  obtain ⟨hclosed, hclosed', hqueue⟩ := Channel.send_ok h
  simp [Channel.rank, hclosed, hclosed', hqueue]

theorem Channel.rank_receive {n : ℕ} {α : Type} {c c' : Channel n α} {a : α}
    (h : c.receive = some (some (a, c'))) :
    c'.rank = c.rank ∧ c'.queue.length + 1 = c.queue.length := by
  obtain ⟨hqueue, hclosed⟩ := Channel.receive_item h
  simp [Channel.rank, hclosed, hqueue]

namespace Source

variable {n : ℕ} {cfg : Sourcing} {s s' : Source n} {event : SourceEvent}

/-- What there is to do for the index. -/
def indexRank (s : Source n) : ℕ :=
  2 * s.unscanned.length + s.channel.queue.length + s.channel.rank + s.scanning.rank +
    s.indexing.rank

/-- What there is to do for jobs: to return, and to be joined. -/
def jobsRank (jobs : List TaskState) : ℕ := (jobs.map fun job => job.rank + 1).sum

/-- What there is to do for the destination's messages and requests. -/
def servingRank (s : Source n) : ℕ :=
  s.messages.pending.length + jobsRank s.jobs + s.serving.rank

/-- What a step of the source changes: it returns, it goes on with its index, it reads, or it goes
on with what it has read and with its jobs. -/
inductive Nearer (s s' : Source n) : Prop
  | phase (phase : s'.phase.rank < s.phase.rank)
  | index (phase : s'.phase.rank = s.phase.rank) (index : s'.indexRank < s.indexRank)
      (control : s'.controlRead = s.controlRead) (accepted : s'.accepted = s.accepted)
  | read (phase : s'.phase.rank = s.phase.rank) (index : s'.indexRank = s.indexRank)
      (bytes : s'.index.bytes = s.index.bytes)
      (control : s.controlRead.length < s'.controlRead.length)
      (accepted : s'.accepted = s.accepted)
  | serving (phase : s'.phase.rank = s.phase.rank) (index : s'.indexRank = s.indexRank)
      (bytes : s'.index.bytes = s.index.bytes) (control : s'.controlRead = s.controlRead)
      (serving : s'.servingRank + 3 * s.accepted < s.servingRank + 3 * s'.accepted)

theorem nearer_scan (h : s.scanStep cfg = some s') : Nearer s s' := by
  cases hscanning : s.scanning with
  | returned result =>
    simp only [scanStep, hscanning] at h
    cases h
  | running =>
    cases hunscanned : s.unscanned with
    | nil =>
      simp only [scanStep, hscanning, hunscanned] at h
      cases h
      exact .index rfl (by simp [indexRank, hscanning, TaskState.rank, hunscanned]) rfl rfl
    | cons item items =>
      simp only [scanStep, hscanning, hunscanned] at h
      obtain ⟨sent, hsend, heq⟩ := Option.map_eq_some_iff.1 h
      cases sent with
      | error u =>
        cases heq
        refine .index rfl ?_ rfl rfl
        simp only [indexRank, hscanning, hunscanned, TaskState.rank]
        omega
      | ok channel =>
        cases heq
        obtain ⟨hrank, hlength⟩ := Channel.rank_send hsend
        refine .index rfl ?_ rfl rfl
        simp only [indexRank, hscanning, hunscanned, hrank, hlength, List.length_cons]
        omega

theorem nearer_sendIndex {fault : Option (ℕ × QuicSyncError)}
    (h : s.sendIndexStep cfg fault = some s') : Nearer s s' := by
  cases hindexing : s.indexing with
  | sending =>
    simp only [sendIndexStep, hindexing] at h
    obtain ⟨received, hreceive, heq⟩ := Option.map_eq_some_iff.1 h
    match received with
    | none =>
      cases heq
      exact .index rfl (by simp [indexRank, hindexing, IndexTask.rank]) rfl rfl
    | some (.error e, channel) =>
      cases heq
      obtain ⟨hrank, hlength⟩ := Channel.rank_receive hreceive
      refine .index rfl ?_ rfl rfl
      simp only [indexRank, hindexing, hrank, ← hlength, IndexTask.rank]
      omega
    | some (.ok message, channel) =>
      obtain ⟨hrank, hlength⟩ := Channel.rank_receive hreceive
      simp only at heq
      split at heq
      · cases heq
        refine .index rfl ?_ rfl rfl
        simp only [indexRank, hindexing, hrank, ← hlength, IndexTask.rank]
        omega
      · cases heq
        refine .index rfl ?_ rfl rfl
        simp only [indexRank, hindexing, hrank, ← hlength]
        split <;> simp only [IndexTask.rank] <;> omega
  | _ =>
    simp only [sendIndexStep, hindexing] at h
    cases h

theorem jobsRank_split {jobs₁ jobs₂ : List TaskState} {job : TaskState} :
    jobsRank (jobs₁ ++ job :: jobs₂) = jobsRank (jobs₁ ++ jobs₂) + job.rank + 1 := by
  simp only [jobsRank, List.map_append, List.map_cons, List.sum_append, List.sum_cons]
  omega

theorem nearer_job {i : ℕ} {result : Except (Abort QuicSyncError) Unit}
    (h : s.jobStep i (.return result) = some s') : Nearer s s' := by
  unfold jobStep at h
  split at h
  · rename_i heq
    cases heq
  · rename_i hjob hevent
    cases hevent
    cases h
    obtain ⟨jobs₁, jobs₂, hjobs, hset, -⟩ := exists_split hjob
    refine .serving rfl rfl rfl rfl ?_
    simp only [servingRank, hset]
    rw [hjobs, jobsRank_split, jobsRank_split]
    simp only [TaskState.rank]
    omega
  · cases h

theorem nearer_joinJob {i : ℕ} (h : s.joinJobStep i = some s') : Nearer s s' := by
  have hjoined (result : Except (Abort QuicSyncError) Unit)
      (hjob : s.jobs[i]? = some (.returned result)) (serving : ServingTask)
      (hserving : serving.rank ≤ s.serving.rank) :
      Nearer s { s with
        jobs := s.jobs.eraseIdx i, results := s.results ++ [result], serving := serving } := by
    obtain ⟨jobs₁, jobs₂, hjobs, -, herase⟩ := exists_split hjob
    refine .serving rfl rfl rfl rfl ?_
    simp only [servingRank, herase]
    rw [hjobs, jobsRank_split]
    omega
  unfold joinJobStep at h
  simp only at h
  split at h
  all_goals first
    | cases h
      done
    | rename_i hserving hjob
      split at h
      · cases h
        exact hjoined _ hjob _ le_rfl
      · cases h
        exact hjoined _ hjob _ (Nat.zero_le _)

theorem nearer_readControl {chunk : Except QuicSyncError (Option Bytes)}
    (hchunk : chunk ≠ .ok (some [])) (h : s.readControlStep chunk = some s') : Nearer s s' := by
  unfold readControlStep at h
  split at h
  · rename_i bytes hserving hpending
    have hlength : s.controlRead.length < (s.controlRead ++ bytes).length := by
      have hne : bytes ≠ [] := by
        rintro rfl
        exact hchunk rfl
      rw [List.length_append]
      have := List.length_pos_iff.2 hne
      omega
    simp only at h
    split at h
    · cases h
      exact .read rfl rfl rfl hlength rfl
    · cases h
      exact .read rfl rfl rfl hlength rfl
  · rename_i hserving _
    cases h
    exact .serving rfl rfl rfl rfl (by simp [servingRank, hserving, ServingTask.rank])
  · rename_i hserving _
    cases h
    exact .serving rfl rfl rfl rfl (by simp [servingRank, hserving, ServingTask.rank])
  · cases h

theorem nearer_handle (h : s.handleStep = some s') : Nearer s s' := by
  unfold handleStep at h
  split at h
  · rename_i hserving hpending
    simp only at h
    split at h <;> cases h <;> refine .serving rfl rfl rfl rfl ?_ <;>
      simp only [servingRank, hserving, hpending, List.length_cons, ServingTask.rank] <;> omega
  · cases h

theorem nearer_accept {stream : Except QuicSyncError (Option Unit)}
    (h : s.acceptStep stream = some s') : Nearer s s' := by
  unfold acceptStep at h
  split at h
  · rename_i hserving
    split at h
    · split at h
      · cases h
        refine .serving rfl rfl rfl rfl ?_
        simp only [servingRank, jobsRank_split, List.append_nil, TaskState.rank]
        omega
      · cases h
        exact .serving rfl rfl rfl rfl (by simp [servingRank, hserving, ServingTask.rank])
      · cases h
        exact .serving rfl rfl rfl rfl (by simp [servingRank, hserving, ServingTask.rank])
    · cases h
  · cases h

/-- A task that has no result has something to do. -/
theorem rank_pos_of_resultOf (task : SourceTask) (h : s.resultOf task = none) :
    match task with
    | .scanning => 0 < s.scanning.rank
    | .indexing => 0 < s.indexing.rank
    | .serving => 0 < s.serving.rank := by
  cases task with
  | scanning =>
    cases hscanning : s.scanning with
    | running => exact Nat.one_pos
    | returned result => simp [resultOf, hscanning] at h
  | indexing =>
    cases hindexing : s.indexing with
    | returned result => simp [resultOf, hindexing] at h
    | _ => simp [IndexTask.rank]
  | serving =>
    cases hserving : s.serving with
    | returned result => simp [resultOf, hserving] at h
    | _ => simp [ServingTask.rank]

/-- An event that leaves the source where it was. -/
def Idle (s : Source n) : SourceEvent → Prop
  | .readControl (.ok (some chunk)) => chunk = []
  | .job _ (.respond _) => True
  | .closeChannel => s.channel.closed = true
  | _ => False

/-- **Every event brings the source nearer to its end**, but for one that leaves it where it was. -/
theorem nearer (h : s.step cfg event = some s') (hidle : ¬ s.Idle event) : Nearer s s' := by
  cases event with
  | start streams fault root =>
    simp only [step] at h
    split at h
    · rename_i hphase
      cases h
      refine .phase ?_
      rw [hphase]
      unfold startStep
      repeat' split
      all_goals simp [SourcePhase.rank, finish]
    · cases h
  | scan => exact nearer_scan (whenRunning_eq_some.1 h).2
  | confirmIndexing handshake closeReason =>
    obtain ⟨-, hconfirm⟩ := whenRunning_eq_some.1 h
    split at hconfirm
    · rename_i hindexing
      split at hconfirm <;> cases hconfirm <;>
        exact .index rfl (by simp [indexRank, hindexing, IndexTask.rank]) rfl rfl
    · cases hconfirm
  | sendIndex fault => exact nearer_sendIndex (whenRunning_eq_some.1 h).2
  | finishIndex result =>
    obtain ⟨-, hfinish⟩ := whenRunning_eq_some.1 h
    split at hfinish
    · rename_i hindexing
      cases hfinish
      exact .index rfl (by simp [indexRank, hindexing, IndexTask.rank]) rfl rfl
    · cases hfinish
  | confirmServing handshake closeReason =>
    obtain ⟨-, hconfirm⟩ := whenRunning_eq_some.1 h
    split at hconfirm
    · rename_i hserving
      split at hconfirm <;> cases hconfirm <;>
        exact .serving rfl rfl rfl rfl (by simp [servingRank, hserving, ServingTask.rank])
    · cases hconfirm
  | readControl chunk =>
    refine nearer_readControl (fun hempty => ?_) (whenRunning_eq_some.1 h).2
    subst hempty
    exact hidle rfl
  | handle => exact nearer_handle (whenRunning_eq_some.1 h).2
  | accept stream => exact nearer_accept (whenRunning_eq_some.1 h).2
  | job i event =>
    cases event with
    | respond bytes => exact absurd trivial hidle
    | «return» result => exact nearer_job h
  | joinJob i => exact nearer_joinJob (whenRunning_eq_some.1 h).2
  | drained =>
    obtain ⟨-, hdrained⟩ := whenRunning_eq_some.1 h
    split at hdrained
    · rename_i hserving _
      cases hdrained
      exact .serving rfl rfl rfl rfl (by simp [servingRank, hserving, ServingTask.rank])
    · cases hdrained
  | closed =>
    obtain ⟨-, hclosed⟩ := whenRunning_eq_some.1 h
    split at hclosed
    · rename_i hserving
      cases hclosed
      exact .serving rfl rfl rfl rfl (by simp [servingRank, hserving, ServingTask.rank])
    · cases hclosed
  | closeChannel =>
    have hopen : s.channel.closed = false := Bool.eq_false_iff.2 hidle
    cases h
    exact .index rfl (by simp [indexRank, Channel.rank, hopen]) rfl rfl
  | fail task e =>
    obtain ⟨-, hfail⟩ := whenRunning_eq_some.1 h
    unfold failStep at hfail
    split at hfail
    · cases hfail
    · rename_i hresult
      cases hfail
      refine .index rfl ?_ rfl rfl
      have hrank := rank_pos_of_resultOf .scanning hresult
      simp only [indexRank, TaskState.rank] at hrank ⊢
      omega
    · rename_i hresult
      cases hfail
      refine .index rfl ?_ rfl rfl
      have hrank := rank_pos_of_resultOf .indexing hresult
      simp only [indexRank, IndexTask.rank] at hrank ⊢
      omega
    · rename_i hresult
      cases hfail
      refine .serving rfl rfl rfl rfl ?_
      have hrank := rank_pos_of_resultOf .serving hresult
      simp only [servingRank, ServingTask.rank] at hrank ⊢
      omega
  | join =>
    obtain ⟨hphase, hjoin⟩ := whenRunning_eq_some.1 h
    split at hjoin
    · cases hjoin
      exact .phase (by simp [finish, hphase, SourcePhase.rank])
    · cases hjoin
  | abort task =>
    obtain ⟨hphase, habort⟩ := whenRunning_eq_some.1 h
    split at habort
    · cases habort
      exact .phase (by simp [finish, hphase, SourcePhase.rank])
    · cases habort

end Source

/-! ### How far the destination is -/

def ServePhase.rank : ServePhase → ℕ
  | starting => 5
  | running => 4
  | committing => 3
  | acknowledging => 2
  | closing => 1
  | returned _ => 0

def RequestTask.rank : RequestTask → ℕ
  | opening => 6
  | receiving => 5
  | full _ => 13
  | requesting _ => 12
  | draining => 4
  | returned _ => 0
  | dropped => 0

def Job.rank (job : Job) : ℕ :=
  match job.state with
  | .requested => 3
  | .staging _ _ => 2
  | .received _ _ => 1
  | .failed _ => 1

/-- An operation that is taken makes work: a stream is to be opened for it, or it waits. -/
def RequestEvent.makes : RequestEvent → ℕ
  | receive _ => 10
  | _ => 0

/-- What a planner has left to do, with what it has not read. -/
def PlanTask.rank (remote localIndex : List IndexItem) : PlanTask → ℕ
  | confirming => PlanState.start.size remote localIndex + 4
  | accepting => PlanState.start.size remote localIndex + 3
  | planning p => p.size remote localIndex + 2
  | ending => 1
  | returned _ => 0

namespace Requester

variable {root : RootHandle} {capacity : ℕ} {s s' : Requester} {event : RequestEvent}

def jobsRank (jobs : List Job) : ℕ := (jobs.map Job.rank).sum

theorem jobsRank_split {jobs₁ jobs₂ : List Job} {job : Job} :
    jobsRank (jobs₁ ++ job :: jobs₂) = jobsRank (jobs₁ ++ jobs₂) + job.rank := by
  simp only [jobsRank, List.map_append, List.map_cons, List.sum_append, List.sum_cons]
  omega

theorem jobsRank_sublist {jobs jobs' : List Job} (h : jobs'.Sublist jobs) :
    jobsRank jobs' ≤ jobsRank jobs :=
  (h.map _).sum_le_sum fun _ _ => Nat.zero_le _

/-- What the task and its jobs have left to do. -/
def rank (s : Requester) : ℕ := s.task.rank + jobsRank s.jobs

theorem rank_stage (s : Requester) (operation : Operation)
    (received : Option (Transfer.ReceivedFile × Bytes)) (task : RequestTask) :
    (s.stage operation received task).rank ≤ task.rank + jobsRank s.jobs := by
  unfold stage
  split
  · exact le_rfl
  · simp [rank, abandon, RequestTask.rank]

theorem rank_job {area : Path} {job job' : Job} {w w' : World} {event : JobEvent}
    (h : job.step area w event = some (job', w')) (hwrite : ∀ bytes, event ≠ .write bytes) :
    job'.rank < job.rank := by
  cases event with
  | write bytes => exact absurd rfl (hwrite bytes)
  | create random =>
    simp only [Job.step] at h
    split at h
    · rename_i hstate
      split at h <;> cases h <;> simp [Job.rank, hstate]
    · cases h
  | finish =>
    simp only [Job.step] at h
    split at h
    · rename_i hstate
      cases h
      simp [Job.rank, hstate]
    · cases h
  | fail e =>
    simp only [Job.step] at h
    split at h
    · rename_i hstate
      cases h
      simp [Job.rank, hstate]
    · rename_i hstate
      cases h
      simp [Job.rank, hstate]
    · cases h

/-- A task that has been dropped does nothing more. -/
theorem task_ne_dropped (h : s.step root capacity event = some s') (hevent : event.fails = true) :
    s.task ≠ .dropped := by
  intro hdropped
  cases event with
  | fail e => simp [step, hdropped] at h
  | openStream result => simp [step, hdropped] at h
  | join i =>
    simp only [step, hdropped] at h
    split at h <;> simp_all
  | _ => cases hevent

/-- An event leaves less to do, but for an operation that the task takes. -/
theorem rank_step (h : s.step root capacity event = some s')
    (hwrite : ∀ i bytes, event ≠ .job i (.write bytes)) :
    s'.rank < s.rank + event.makes := by
  have hmove := step_move h
  cases hmove with
  | areaOpened htask =>
    simp only [rank, htask, RequestTask.rank]
    omega
  | areaFailed htask =>
    simp only [rank, htask, RequestTask.rank]
    omega
  | take htask _ _ hnext =>
    obtain rfl | ⟨rfl, -⟩ := hnext
    · simp only [rank, htask, RequestTask.rank, RequestEvent.makes]
      omega
    · simp only [rank, htask, RequestTask.rank, RequestEvent.makes]
      omega
  | @takeDirect operation htask =>
    have hstage := rank_stage { s with taken := s.taken ++ [operation] } operation none .receiving
    simp only [rank, htask, RequestTask.rank, RequestEvent.makes] at hstage ⊢
    omega
  | ended htask =>
    simp only [rank, htask, RequestTask.rank]
    omega
  | streamOpened htask =>
    simp only [rank, htask, jobsRank_split, List.append_nil, RequestTask.rank, Job.rank]
    omega
  | @joined i jobs₁ jobs₂ job received bytes task hjobs hstate htask =>
    have hstage := rank_stage { s with jobs := jobs₁ ++ jobs₂ } job.operation
      (some (received, bytes)) task
    have hjob : job.rank = 1 := by simp [Job.rank, hstate]
    have htask' : task.rank ≤ s.task.rank := by
      obtain ⟨operation, heq, rfl⟩ | ⟨heq, rfl⟩ := htask
      · simp [heq, RequestTask.rank]
      · simp [heq]
    rw [rank, rank, hjobs, jobsRank_split, hjob]
    simp only [rank] at hstage
    omega
  | failed hevent hjobs htask =>
    have hrank : 0 < s.task.rank := by
      cases heq : s.task with
      | returned result => exact absurd heq (htask result)
      | dropped => exact absurd heq (task_ne_dropped h hevent)
      | _ => simp [RequestTask.rank]
    have hsum := jobsRank_sublist hjobs
    have hreturned (e : Abort QuicSyncError) :
        (RequestTask.returned (.error e)).rank = 0 := rfl
    simp only [rank, abandon, hreturned]
    omega
  | finished htask =>
    simp only [rank, htask, RequestTask.rank]
    omega
  | @job i event jobs₁ jobs₂ job job' w hjobs hstep =>
    have hjob := rank_job hstep fun bytes heq => hwrite i bytes (by rw [heq])
    rw [rank, rank, hjobs, jobsRank_split, jobsRank_split]
    simp only
    omega
  | @discarded i jobs₁ jobs₂ job received bytes hjobs hstate =>
    have hjob : job.rank = 1 := by simp [Job.rank, hstate]
    rw [rank, rank, hjobs, jobsRank_split, hjob]
    simp only
    omega

end Requester

namespace Destination

variable {n : ℕ} {cfg : Serving} {s s' : Destination n} {event : ServeEvent}

/-- What the planner has left to do.  What it has not read is in the channels or on its way to
them. -/
def planRank (s : Destination n) : ℕ :=
  s.planning.rank (s.remoteIndex.queue ++ s.records.pending.map .ok)
    (s.localIndex.queue ++ s.unscanned)

/-- What the other tasks have left to do. -/
def tasksRank (s : Destination n) : ℕ :=
  s.records.pending.length + s.unscanned.length + s.scanning.rank + s.indexing.rank +
    s.localIndex.rank + s.remoteIndex.rank + s.operations.rank + 10 * s.operations.queue.length +
    s.requesting.rank

/-- What an event of the destination changes: the session goes on or returns, bytes of the index are
read, the planner goes on, or one of the other tasks. -/
inductive Nearer (s s' : Destination n) : Prop
  | phase (phase : s'.phase.rank < s.phase.rank)
  | read (phase : s'.phase.rank = s.phase.rank)
      (index : s.indexRead.length < s'.indexRead.length)
  | plan (phase : s'.phase.rank = s.phase.rank) (index : s'.indexRead = s.indexRead)
      (plan : s'.planRank < s.planRank)
  | tasks (phase : s'.phase.rank = s.phase.rank) (index : s'.indexRead = s.indexRead)
      (plan : s'.planRank = s.planRank) (tasks : s'.tasksRank < s.tasksRank)

/-- What the planner has left to do depends on how much it has not read. -/
theorem rank_congr {task : PlanTask} {remote remote' localIndex localIndex' : List IndexItem}
    (hremote : remote'.length = remote.length) (hlocal : localIndex'.length = localIndex.length) :
    task.rank remote' localIndex' = task.rank remote localIndex := by
  cases task <;> simp only [PlanTask.rank, PlanState.size, hremote, hlocal]

theorem nearer_scan (h : s.scanStep cfg = some s') : Nearer s s' := by
  cases hscanning : s.scanning with
  | returned result =>
    simp only [scanStep, hscanning] at h
    cases h
  | running =>
    cases hunscanned : s.unscanned with
    | nil =>
      simp only [scanStep, hscanning, hunscanned] at h
      cases h
      exact .tasks rfl rfl (by simp [planRank, hunscanned])
        (by simp [tasksRank, hscanning, TaskState.rank, hunscanned])
    | cons item items =>
      simp only [scanStep, hscanning, hunscanned] at h
      obtain ⟨sent, hsend, heq⟩ := Option.map_eq_some_iff.1 h
      cases sent with
      | error u =>
        cases heq
        refine .tasks rfl rfl (by simp [planRank, hunscanned]) ?_
        simp only [tasksRank, hscanning, hunscanned, TaskState.rank]
        omega
      | ok channel =>
        cases heq
        obtain ⟨hrank, hlength⟩ := Channel.rank_send hsend
        refine .tasks rfl rfl (rank_congr rfl ?_) ?_
        · simp only [List.length_append, hlength, hunscanned, List.length_cons]
          omega
        · simp only [tasksRank, hscanning, hunscanned, hrank, List.length_cons]
          omega

theorem nearer_readIndex {chunk : Except QuicSyncError Bytes} (hchunk : chunk ≠ .ok [])
    (h : s.readIndexStep chunk = some s') : Nearer s s' := by
  unfold readIndexStep at h
  split at h
  · rename_i bytes hindexing hpending
    have hlength : s.indexRead.length < (s.indexRead ++ bytes).length := by
      have hne : bytes ≠ [] := by
        rintro rfl
        exact hchunk rfl
      rw [List.length_append]
      have := List.length_pos_iff.2 hne
      omega
    simp only at h
    split at h
    · cases h
      exact .read rfl hlength
    · cases h
      exact .read rfl hlength
  · rename_i hindexing _
    cases h
    exact .tasks rfl rfl rfl (by simp [tasksRank, hindexing, TaskState.rank])
  · cases h

theorem nearer_forward (h : s.forwardStep = some s') : Nearer s s' := by
  unfold forwardStep at h
  split at h
  · rename_i record pending hindexing hpending
    obtain ⟨sent, hsend, heq⟩ := Option.map_eq_some_iff.1 h
    cases sent with
    | error u =>
      cases heq
      exact .tasks rfl rfl rfl (by simp [tasksRank, hindexing, TaskState.rank])
    | ok channel =>
      cases heq
      obtain ⟨hrank, hlength⟩ := Channel.rank_send hsend
      refine .tasks rfl rfl (rank_congr ?_ rfl) ?_
      · simp only [List.length_append, List.length_map, hlength, hpending, List.length_cons]
        omega
      · have hle : (if record = .end then TaskState.returned (.ok ()) else .running).rank ≤
            s.indexing.rank := by
          rw [hindexing]
          split <;> simp [TaskState.rank]
        simp only [tasksRank, hpending, hrank, List.length_cons]
        omega
  · cases h

/-- A read of the planner. -/
theorem read_rank {p : PlanState} {todo : List PlanEvent} {event : PlanEvent}
    {left right : Option IndexRecord} {remote localIndex remote' localIndex' : List IndexItem}
    (htodo : p.todo = event :: todo)
    (hread : remote'.length + localIndex'.length + 1 = remote.length + localIndex.length)
    (hsides : left = p.left ∨ right = p.right) :
    ({ p with left := left, right := right, todo := todo } : PlanState).size remote' localIndex' <
      p.size remote localIndex := by
  simp only [PlanState.size, htodo, List.length_cons]
  obtain rfl | rfl := hsides
  · split <;> split <;> split <;> omega
  · split <;> split <;> split <;> omega

theorem nearer_plan (h : s.planStep = some s') : Nearer s s' := by
  unfold planStep at h
  split at h
  swap
  · cases h
  rename_i p hplanning
  split at h
  · rename_i htodo
    split at h
    · rename_i p' hadvance
      cases h
      have hsize := PlanState.size_advance htodo hadvance
        (s.remoteIndex.queue ++ s.records.pending.map .ok) (s.localIndex.queue ++ s.unscanned)
      refine .plan rfl rfl ?_
      simp only [planRank, hplanning, PlanTask.rank]
      omega
    · cases h
      refine .plan rfl rfl ?_
      simp only [planRank, hplanning, PlanTask.rank]
      omega
  · rename_i todo htodo
    obtain ⟨received, hreceive, heq⟩ := Option.map_eq_some_iff.1 h
    match received with
    | none =>
      cases heq
      refine .plan rfl rfl ?_
      simp only [planRank, hplanning, PlanTask.rank]
      omega
    | some (item, channel) =>
      obtain ⟨-, hlength⟩ := Channel.rank_receive hreceive
      simp only at heq
      split at heq
      · cases heq
        refine .plan rfl rfl ?_
        simp only [planRank, hplanning, PlanTask.rank, Nat.add_lt_add_iff_right]
        refine read_rank htodo ?_ (Or.inr rfl)
        simp only [List.length_append, List.length_map]
        omega
      · cases heq
        refine .plan rfl rfl ?_
        simp only [planRank, hplanning, PlanTask.rank]
        omega
  · rename_i todo htodo
    obtain ⟨received, hreceive, heq⟩ := Option.map_eq_some_iff.1 h
    match received with
    | none =>
      cases heq
      refine .plan rfl rfl ?_
      simp only [planRank, hplanning, PlanTask.rank]
      omega
    | some (item, channel) =>
      obtain ⟨-, hlength⟩ := Channel.rank_receive hreceive
      simp only at heq
      split at heq
      · cases heq
        refine .plan rfl rfl ?_
        simp only [planRank, hplanning, PlanTask.rank, Nat.add_lt_add_iff_right]
        refine read_rank htodo ?_ (Or.inl rfl)
        simp only [List.length_append, List.length_map]
        omega
      · cases heq
        refine .plan rfl rfl ?_
        simp only [planRank, hplanning, PlanTask.rank]
        omega
  · rename_i operation todo htodo
    obtain ⟨sent, hsend, heq⟩ := Option.map_eq_some_iff.1 h
    cases sent with
    | ok channel =>
      cases heq
      refine .plan rfl rfl ?_
      simp only [planRank, hplanning, PlanTask.rank, PlanState.size, htodo, List.length_cons]
      omega
    | error u =>
      cases heq
      refine .plan rfl rfl ?_
      simp only [planRank, hplanning, PlanTask.rank]
      omega

theorem nearer_request {event : RequestEvent} (h : requestStep cfg s event = some s')
    (hwrite : ∀ i bytes, event ≠ .job i (.write bytes)) : Nearer s s' := by
  have hother (event : RequestEvent) (hwrite : ∀ i bytes, event ≠ .job i (.write bytes))
      (hreceive : ∀ operation, event ≠ .receive operation)
      (h : (s.requesting.step cfg.root n event).map
        (fun requesting => { s with requesting := requesting }) = some s') : Nearer s s' := by
    obtain ⟨requesting, hstep, rfl⟩ := Option.map_eq_some_iff.1 h
    refine .tasks rfl rfl rfl ?_
    have hrank := Requester.rank_step hstep hwrite
    have hzero : event.makes = 0 := by
      cases event with
      | receive operation => exact absurd rfl (hreceive operation)
      | _ => rfl
    simp only [tasksRank]
    omega
  unfold requestStep at h
  split at h
  · split at h
    · rename_i operation _ next channel hreceive
      split at h
      · obtain ⟨requesting, hstep, rfl⟩ := Option.map_eq_some_iff.1 h
        obtain ⟨hchannel, hlength⟩ := Channel.rank_receive hreceive
        have hrank := Requester.rank_step hstep hwrite
        refine .tasks rfl rfl rfl ?_
        simp only [tasksRank, RequestEvent.makes] at hrank ⊢
        omega
      · cases h
    · cases h
  · split at h
    · exact hother _ hwrite (fun _ heq => by cases heq) h
    · cases h
  · rename_i hreceive _
    exact hother _ hwrite hreceive h

/-- An event that leaves the destination where it was. -/
def Idle (s : Destination n) : ServeEvent → Prop
  | .readIndex (.ok chunk) => chunk = []
  | .request (.job _ (.write _)) => True
  | .closeLocal => s.localIndex.closed = true
  | .closeRemote => s.remoteIndex.closed = true
  | .closeOperations => s.operations.closed = true
  | _ => False

/-- **Every event brings the destination nearer to its end**, but for one that leaves it where it
was. -/
theorem nearer (h : s.step cfg event = some s') (hidle : ¬ s.Idle event) : Nearer s s' := by
  have hpos (task : TaskState) (hrunning : ∀ result, task ≠ .returned result) : 0 < task.rank := by
    cases task with
    | running => exact Nat.one_pos
    | returned result => exact absurd rfl (hrunning result)
  cases event with
  | start chunks fingerprint opened =>
    simp only [step] at h
    split at h
    · rename_i hphase
      split at h
      · split at h <;> cases h
        exact .phase (by simp [hphase, ServePhase.rank])
      · cases h
        exact .phase (by simp [finish, hphase, ServePhase.rank])
    · cases h
  | scan => exact nearer_scan (whenRunning_eq_some.1 h).2
  | readIndex chunk =>
    refine nearer_readIndex (fun hempty => ?_) (whenRunning_eq_some.1 h).2
    subst hempty
    exact hidle rfl
  | forward => exact nearer_forward (whenRunning_eq_some.1 h).2
  | confirm handshake closeReason =>
    obtain ⟨-, hconfirm⟩ := whenRunning_eq_some.1 h
    split at hconfirm
    · rename_i hplanning
      split at hconfirm <;> cases hconfirm <;>
        exact .plan rfl rfl (by simp [planRank, hplanning, PlanTask.rank])
    · cases hconfirm
  | accept fault =>
    obtain ⟨-, haccept⟩ := whenRunning_eq_some.1 h
    split at haccept
    · rename_i hplanning
      split at haccept <;> cases haccept <;>
        exact .plan rfl rfl (by simp [planRank, hplanning, PlanTask.rank])
    · cases haccept
  | plan => exact nearer_plan (whenRunning_eq_some.1 h).2
  | endPlan fault =>
    obtain ⟨-, hend⟩ := whenRunning_eq_some.1 h
    split at hend
    · rename_i hplanning
      cases hend
      exact .plan rfl rfl (by simp [planRank, hplanning, PlanTask.rank])
    · cases hend
  | request event =>
    have hwrite : ∀ i bytes, event ≠ .job i (.write bytes) := by
      rintro i bytes rfl
      exact hidle trivial
    have hrunning (h : s.whenRunning (requestStep cfg s event) = some s') : Nearer s s' :=
      nearer_request (whenRunning_eq_some.1 h).2 hwrite
    cases event with
    | job i event =>
      have hjob : requestStep cfg s (.job i event) = some s' := h
      exact nearer_request hjob hwrite
    | discard i =>
      have hdiscard : requestStep cfg s (.discard i) = some s' := h
      exact nearer_request hdiscard hwrite
    | openArea => exact hrunning h
    | receive operation => exact hrunning h
    | ended => exact hrunning h
    | openStream result => exact hrunning h
    | join i => exact hrunning h
    | finish => exact hrunning h
    | fail e => exact hrunning h
  | closeLocal =>
    have hopen : s.localIndex.closed = false := Bool.eq_false_iff.2 hidle
    cases h
    exact .tasks rfl rfl rfl (by simp [tasksRank, Channel.rank, hopen])
  | closeRemote =>
    have hopen : s.remoteIndex.closed = false := Bool.eq_false_iff.2 hidle
    cases h
    exact .tasks rfl rfl rfl (by simp [tasksRank, Channel.rank, hopen])
  | closeOperations =>
    have hopen : s.operations.closed = false := Bool.eq_false_iff.2 hidle
    cases h
    exact .tasks rfl rfl rfl (by simp [tasksRank, Channel.rank, hopen])
  | fail task e =>
    obtain ⟨-, hfail⟩ := whenRunning_eq_some.1 h
    unfold failStep at hfail
    split at hfail
    · cases hfail
    · rename_i hresult
      cases hfail
      refine .tasks rfl rfl rfl ?_
      have hrank := hpos s.scanning fun result heq => by simp [resultOf, heq] at hresult
      simp only [tasksRank, TaskState.rank] at hrank ⊢
      omega
    · rename_i hresult
      cases hfail
      refine .tasks rfl rfl rfl ?_
      have hrank := hpos s.indexing fun result heq => by simp [resultOf, heq] at hresult
      simp only [tasksRank, TaskState.rank] at hrank ⊢
      omega
    · rename_i hresult
      cases hfail
      refine .plan rfl rfl ?_
      cases hplanning : s.planning with
      | returned result => simp [resultOf, hplanning] at hresult
      | _ => simp [planRank, hplanning, PlanTask.rank]
    · exact nearer_request hfail fun i bytes heq => by cases heq
  | join =>
    obtain ⟨hphase, hjoin⟩ := whenRunning_eq_some.1 h
    split at hjoin
    · cases hjoin
      exact .phase (by simp [hphase, ServePhase.rank])
    · cases hjoin
  | abort task =>
    obtain ⟨hphase, habort⟩ := whenRunning_eq_some.1 h
    split at habort
    · cases habort
      exact .phase (by simp [finish, hphase, ServePhase.rank])
    · cases habort
  | commit opened =>
    simp only [step] at h
    split at h
    · rename_i hphase
      cases h
      refine .phase ?_
      rw [hphase]
      unfold commitStep
      cases opened with
      | error e => simp [finish, ServePhase.rank]
      | ok _ =>
        simp only
        split <;> simp [finish, ServePhase.rank]
    · cases h
  | acknowledge fault =>
    simp only [step] at h
    split at h
    · rename_i hphase
      split at h <;> cases h <;> exact .phase (by simp [finish, hphase, ServePhase.rank])
    · cases h
  | close rest =>
    simp only [step] at h
    split at h
    · rename_i hphase
      cases h
      exact .phase (by simp [finish, hphase, ServePhase.rank])
    · rename_i hphase
      cases h
      exact .phase (by simp [finish, hphase, ServePhase.rank])
    · cases h

end Destination

/-! ### Both ends -/

namespace Session

variable {n m : ℕ} {cfg : Parties} {s s' : Session n m} {event : SessionEvent}

/-- An event that leaves the session where it was. -/
def Idle (s : Session n m) : SessionEvent → Prop
  | .source event => s.source.Idle event
  | .destination event => s.destination.Idle event

/-- Something happens in a session. -/
def Works (cfg : Parties) (s s' : Session n m) : Prop :=
  ∃ event, ¬ s.Idle event ∧ s.step cfg event = some s'

/-- What both ends have left to do.  An index that is sent is to be read and planned, operations of
the plan are to be requested, and what the destination sends is to be answered. -/
def rank (s : Session n m) : ℕ ×ₗ ℕ ×ₗ ℕ ×ₗ ℕ ×ₗ ℕ ×ₗ ℕ ×ₗ ℕ :=
  toLex (s.source.phase.rank + s.destination.phase.rank,
    toLex (s.source.indexRank,
      toLex (s.source.index.bytes.length - s.destination.indexRead.length,
        toLex (s.destination.planRank,
          toLex (s.destination.tasksRank,
            toLex (s.destination.control.bytes.length - s.source.controlRead.length,
              s.source.servingRank +
                3 * (s.destination.requesting.opened.length - s.source.accepted)))))))

theorem Works.rank_lt (h : s.Works cfg s') : s'.rank < s.rank := by
  obtain ⟨event, hidle, hstep⟩ := h
  obtain ⟨hnext, hdelivered⟩ := Option.filter_eq_some_iff.1 hstep
  obtain ⟨hcontrol, -, hindex, haccepted⟩ := of_decide_eq_true hdelivered
  have hcontrol := hcontrol.length_le
  have hindex := hindex.length_le
  simp only [rank, Prod.Lex.toLex_lt_toLex]
  cases event with
  | source event =>
    obtain ⟨source, hsource, rfl⟩ := Option.map_eq_some_iff.1 hnext
    dsimp only at hcontrol hindex haccepted ⊢
    cases Source.nearer hsource hidle with
    | phase hphase =>
      left
      omega
    | index hphase hrank hread hcount =>
      right
      refine ⟨by omega, Or.inl hrank⟩
    | read hphase hrank hbytes hread hcount =>
      right
      refine ⟨by omega, Or.inr ⟨hrank, Or.inr ⟨by rw [hbytes], Or.inr ⟨rfl, Or.inr ⟨rfl, ?_⟩⟩⟩⟩⟩
      left
      omega
    | serving hphase hrank hbytes hread hserving =>
      right
      refine ⟨by omega, Or.inr ⟨hrank, Or.inr ⟨by rw [hbytes], Or.inr ⟨rfl, Or.inr ⟨rfl, ?_⟩⟩⟩⟩⟩
      right
      refine ⟨by rw [hread], ?_⟩
      omega
  | destination event =>
    obtain ⟨destination, hdestination, rfl⟩ := Option.map_eq_some_iff.1 hnext
    dsimp only at hcontrol hindex haccepted ⊢
    cases Destination.nearer hdestination hidle with
    | phase hphase =>
      left
      omega
    | read hphase hread =>
      right
      refine ⟨by omega, Or.inr ⟨rfl, ?_⟩⟩
      left
      omega
    | plan hphase hread hplan =>
      right
      exact ⟨by omega, Or.inr ⟨rfl, Or.inr ⟨by rw [hread], Or.inl hplan⟩⟩⟩
    | tasks hphase hread hplan htasks =>
      right
      exact ⟨by omega, Or.inr ⟨rfl, Or.inr ⟨by rw [hread], Or.inr ⟨hplan, Or.inl htasks⟩⟩⟩⟩

/-- Whatever happens and fails, a session does not go on for ever. -/
theorem works_wellFounded (cfg : Parties) :
    WellFounded fun s' s : Session n m => s.Works cfg s' :=
  Subrelation.wf (fun h => Works.rank_lt h) (InvImage.wf rank wellFounded_lt)

end Session

end QuicSync
