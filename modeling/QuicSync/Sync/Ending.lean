import QuicSync.Process.Shared
import QuicSync.Sync.Termination
import QuicSync.Sync.Waits

/-!
# Sessions end

`Session.Goes` says which events can happen in a session from now on when nothing fails any more:
the tasks go on with what they have, what has been written arrives, a stream that has been opened is
accepted, a transfer whose stream both ends have is completed, and an end that has returned is seen
to be gone.  The windows of the transport may be small: an item of the index need not be sent before
all earlier ones have been read, nor a stream be opened while the source serves as many as it may.

Both ends have several tasks that wait for each other, over channels that can be full, a bounded
number of transfers and two streams.  `Session.Stuck.ended` says that they never all wait: where
nothing can happen, both ends have returned.  With `Session.works_wellFounded` every session ends.

The argument goes from the source to the destination.  A source that waits has sent its whole index,
has answered everything that it was asked, and waits for the next message (`Session.Answered`); so
whatever a task of the destination waits for is there.
-/

namespace QuicSync

open Posix

/-! ### Tasks that have returned -/

def TaskState.hasReturned : TaskState → Bool
  | returned _ => true
  | running => false

def IndexTask.hasReturned : IndexTask → Bool
  | returned _ => true
  | _ => false

def SourcePhase.hasReturned : SourcePhase → Bool
  | returned _ => true
  | _ => false

def ServePhase.hasReturned : ServePhase → Bool
  | returned _ => true
  | _ => false

/-- The control stream has been finished. -/
def ServingTask.finished : ServingTask → Bool
  | closing => true
  | returned (.ok _) => true
  | _ => false

/-- The planner has returned, and with it the ends of its channels. -/
def PlanTask.planned : PlanTask → Bool
  | ending => true
  | returned _ => true
  | _ => false

def RequestTask.hasReturned : RequestTask → Bool
  | returned _ => true
  | _ => false

/-! ### What can happen next -/

namespace Session

variable {n m : ℕ}

/-- What the source can do next. -/
def SourceGoes (s : Session n m) : SourceEvent → Prop
  | .start streams fault root => streams = .ok () ∧ fault = none ∧ root = .ok ()
  | .scan => True
  | .confirmIndexing handshake closeReason => handshake = .ok true ∧ closeReason = none
  -- the stream need not hold more than one item of the index
  | .sendIndex fault => fault = none ∧ s.destination.indexRead = s.source.index.bytes
  | .finishIndex result => result = .ok ()
  | .confirmServing handshake closeReason => handshake = .ok true ∧ closeReason = none
  | .readControl (.ok (some chunk)) => chunk ≠ []
  | .readControl (.ok none) => False
  | .readControl (.error _) => s.destination.phase.hasReturned = true ∧
      s.source.controlRead = s.destination.control.bytes
  | .handle => True
  | .accept stream => stream = .ok (some ())
  | .job _ (.respond _) => False
  -- a job ends well while the other end is there
  | .job _ (.return (.ok _)) => s.destination.phase.hasReturned = false
  | .job _ (.return (.error _)) => s.destination.phase.hasReturned = true
  | .joinJob _ => True
  | .drained => True
  | .closed => True
  | .closeChannel => s.source.channel.closed = false ∧
      (s.source.scanning.hasReturned = true ∨ s.source.indexing.hasReturned = true)
  | .fail _ _ => False
  | .join => True
  | .abort _ => True

/-- What a job of the destination can do next: its stream has been accepted, or is lost with the
source. -/
def JobGoes (s : Session n m) (i : ℕ) : JobEvent → Prop
  | .create _ => ∃ job, s.destination.requesting.jobs[i]? = some job ∧
      job.operation ∈ s.destination.requesting.opened.take s.source.accepted
  | .write _ => False
  | .finish => ∃ job, s.destination.requesting.jobs[i]? = some job ∧
      job.operation ∈ s.destination.requesting.opened.take s.source.accepted
  | .fail _ => s.source.phase.hasReturned = true

/-- What the requesting task of the destination can do next. -/
def RequestGoes (s : Session n m) : RequestEvent → Prop
  | .openArea => True
  | .receive _ => True
  | .ended => True
  -- the source need not allow more streams than it serves at a time
  | .openStream (.ok _) => s.source.phase.hasReturned = false ∧
      s.destination.requesting.opened.length < s.source.results.length + n
  | .openStream (.error _) => s.source.phase.hasReturned = true
  | .join _ => True
  | .finish => True
  | .fail _ => False
  | .job i event => s.JobGoes i event
  | .discard _ => True

/-- What the destination can do next. -/
def DestinationGoes (s : Session n m) : ServeEvent → Prop
  | .start chunks fingerprint opened => s.source.phase ≠ .starting ∧
      chunks.flatten = s.source.control.bytes ∧ (∃ f, fingerprint = .ok f) ∧ opened = .ok ()
  | .scan => True
  | .readIndex (.ok chunk) => chunk ≠ []
  | .readIndex (.error _) => s.source.phase.hasReturned = true ∧
      s.destination.indexRead = s.source.index.bytes
  | .forward => True
  | .confirm handshake closeReason => handshake = .ok true ∧ closeReason = none
  | .accept fault => fault = none
  | .plan => True
  | .endPlan fault => fault = none
  | .request event => s.RequestGoes event
  | .closeLocal => s.destination.localIndex.closed = false ∧
      (s.destination.scanning.hasReturned = true ∨ s.destination.planning.planned = true)
  | .closeRemote => s.destination.remoteIndex.closed = false ∧
      (s.destination.indexing.hasReturned = true ∨ s.destination.planning.planned = true)
  | .closeOperations => s.destination.operations.closed = false ∧
      (s.destination.planning.planned = true ∨ s.destination.requesting.task.hasReturned = true)
  | .fail _ _ => False
  | .join => True
  | .abort _ => True
  | .commit opened => opened = .ok ()
  | .acknowledge fault => fault = none
  | .close (.ok chunks) => chunks = [] ∧ s.source.serving.finished = true
  | .close (.error _) => s.source.phase.hasReturned = true

/-- What can happen next when nothing fails. -/
def Goes (s : Session n m) : SessionEvent → Prop
  | .source event => s.SourceGoes event
  | .destination event => s.DestinationGoes event

/-- The session moves on without a failure. -/
def Moves (cfg : Parties) (s s' : Session n m) : Prop :=
  ∃ event, s.Goes event ∧ s.step cfg event = some s'

/-- Nothing can happen unless something fails. -/
def Stuck (cfg : Parties) (s : Session n m) : Prop := ∀ s', ¬ s.Moves cfg s'

end Session

/-! ### What an event leaves alone -/

/-- A message that is sent, or not, leaves what has been written. -/
theorem Outgoing.send_extends {T : Type} [WireMessage T] [WireFormat T] {out out' : Outgoing T}
    {limits : Limits} {message : T} {fault : Option (ℕ × QuicSyncError)}
    {result : Except (Abort QuicSyncError) Unit}
    (h : out.send limits message fault = (result, out')) : out.bytes <+: out'.bytes := by
  cases result with
  | ok _ =>
    rw [Outgoing.send_ok h]
    exact List.prefix_append _ _
  | error e =>
    obtain ⟨k, rfl⟩ := Outgoing.send_error h
    exact List.prefix_append _ _

namespace Source

variable {n : ℕ} {cfg : Sourcing} {s s' : Source n} {event : SourceEvent}

/-- More has been written, and what has been read and accepted is the same. -/
structure Extends (s s' : Source n) : Prop where
  control : s.control.bytes <+: s'.control.bytes
  index : s.index.bytes <+: s'.index.bytes
  read : s'.controlRead = s.controlRead
  accepted : s'.accepted = s.accepted

theorem extends_start {streams root : Except QuicSyncError Unit}
    {fault : Option (ℕ × QuicSyncError)} : s.Extends (s.startStep cfg streams fault root) := by
  unfold startStep
  split
  · exact ⟨List.prefix_rfl, List.prefix_rfl, rfl, rfl⟩
  · split
    · rename_i e control hsend
      exact ⟨Outgoing.send_extends hsend, List.prefix_rfl, rfl, rfl⟩
    · rename_i control hsend
      split
      · exact ⟨Outgoing.send_extends hsend, List.prefix_rfl, rfl, rfl⟩
      · exact ⟨Outgoing.send_extends hsend, List.prefix_rfl, rfl, rfl⟩

theorem extends_sendIndex {fault : Option (ℕ × QuicSyncError)}
    (h : s.sendIndexStep cfg fault = some s') : s.Extends s' := by
  unfold sendIndexStep at h
  split at h
  · obtain ⟨received, -, rfl⟩ := Option.map_eq_some_iff.1 h
    rcases received with _ | ⟨e | message, channel⟩
    · exact ⟨List.prefix_rfl, List.prefix_rfl, rfl, rfl⟩
    · exact ⟨List.prefix_rfl, List.prefix_rfl, rfl, rfl⟩
    · simp only
      split
      · rename_i hsend
        exact ⟨List.prefix_rfl, Outgoing.send_extends hsend, rfl, rfl⟩
      · rename_i hsend
        exact ⟨List.prefix_rfl, Outgoing.send_extends hsend, rfl, rfl⟩
  · cases h

/-- Only reading and accepting take anything from the other end. -/
theorem step_extends (h : s.step cfg event = some s') (hread : ∀ chunk, event ≠ .readControl chunk)
    (haccept : ∀ stream, event ≠ .accept stream) : s.Extends s' := by
  cases step_move h with
  | started => exact extends_start
  | sent hstep => exact extends_sendIndex hstep
  | read => exact absurd rfl (hread _)
  | accepted => exact absurd rfl (haccept _)
  | other hcontrol hindex hread haccepted =>
    exact ⟨hcontrol ▸ List.prefix_rfl, hindex ▸ List.prefix_rfl, hread, haccepted⟩

end Source

namespace Destination

variable {n : ℕ} {cfg : Serving} {s s' : Destination n} {event : ServeEvent}

/-- More has been written and opened, and what has been read is the same. -/
structure Extends (s s' : Destination n) : Prop where
  control : s.control.bytes <+: s'.control.bytes
  controlRead : s'.controlRead = s.controlRead
  indexRead : s'.indexRead = s.indexRead
  opened : s.requesting.opened.length ≤ s'.requesting.opened.length

/-- A step that writes and opens nothing. -/
theorem Extends.of_eq (hcontrol : s'.control = s.control) (hread : s'.controlRead = s.controlRead)
    (hindex : s'.indexRead = s.indexRead) (hopened : s'.requesting.opened = s.requesting.opened) :
    s.Extends s' :=
  ⟨hcontrol ▸ List.prefix_rfl, hread, hindex, hopened ▸ le_rfl⟩

theorem opened_step {root : RootHandle} {capacity : ℕ} {r r' : Requester} {event : RequestEvent}
    (h : r.step root capacity event = some r') : r.opened.length ≤ r'.opened.length := by
  have hstage (r : Requester) (operation : Operation)
      (received : Option (Transfer.ReceivedFile × Bytes)) (task : RequestTask) :
      (r.stage operation received task).opened = r.opened := by
    unfold Requester.stage
    split <;> rfl
  cases Requester.step_move h with
  | streamOpened =>
    simp only [List.length_append]
    omega
  | takeDirect => rw [hstage]
  | joined => rw [hstage]
  | _ => exact le_rfl

theorem extends_request {event : RequestEvent} (h : requestStep cfg s event = some s') :
    s.Extends s' := by
  unfold requestStep at h
  split at h
  · split at h
    · split at h
      · obtain ⟨requesting, hstep, rfl⟩ := Option.map_eq_some_iff.1 h
        exact ⟨List.prefix_rfl, rfl, rfl, opened_step hstep⟩
      · cases h
    · cases h
  · split at h
    · obtain ⟨requesting, hstep, rfl⟩ := Option.map_eq_some_iff.1 h
      exact ⟨List.prefix_rfl, rfl, rfl, opened_step hstep⟩
    · cases h
  · obtain ⟨requesting, hstep, rfl⟩ := Option.map_eq_some_iff.1 h
    exact ⟨List.prefix_rfl, rfl, rfl, opened_step hstep⟩

theorem extends_plan (h : s.planStep = some s') : s.Extends s' := by
  unfold planStep at h
  split at h
  swap
  · cases h
  split at h
  · split at h <;> cases h <;> exact .of_eq rfl rfl rfl rfl
  · obtain ⟨received, -, rfl⟩ := Option.map_eq_some_iff.1 h
    rcases received with _ | ⟨item, channel⟩
    · exact .of_eq rfl rfl rfl rfl
    · simp only
      split <;> exact .of_eq rfl rfl rfl rfl
  · obtain ⟨received, -, rfl⟩ := Option.map_eq_some_iff.1 h
    rcases received with _ | ⟨item, channel⟩
    · exact .of_eq rfl rfl rfl rfl
    · simp only
      split <;> exact .of_eq rfl rfl rfl rfl
  · obtain ⟨sent, -, rfl⟩ := Option.map_eq_some_iff.1 h
    cases sent <;> exact .of_eq rfl rfl rfl rfl

/-- Only the first message and the reads of the index take anything from the other end. -/
theorem step_extends (h : s.step cfg event = some s') (hstart : s.phase ≠ .starting)
    (hread : ∀ chunk, event ≠ .readIndex chunk) : s.Extends s' := by
  have hdrop : s.dropRequesting.requesting.opened = s.requesting.opened := by
    unfold dropRequesting
    simp only
    split <;> rfl
  cases step_move h with
  | started hphase => exact absurd hphase hstart
  | read => exact absurd rfl (hread _)
  | task => exact .of_eq rfl rfl rfl rfl
  | forwarded _ hforward =>
    unfold forwardStep at hforward
    split at hforward
    · obtain ⟨sent, -, rfl⟩ := Option.map_eq_some_iff.1 hforward
      cases sent <;> exact .of_eq rfl rfl rfl rfl
    · cases hforward
  | planned _ hplan => exact extends_plan hplan
  | sent _ hsend => exact ⟨Outgoing.send_extends hsend, rfl, rfl, le_rfl⟩
  | requested hrequest => exact extends_request hrequest
  | closed => exact .of_eq rfl rfl rfl rfl
  | joined => exact .of_eq rfl rfl rfl rfl
  | aborted => exact .of_eq rfl rfl rfl hdrop
  | @committed opened =>
    unfold commitStep
    cases opened with
    | error e => exact .of_eq rfl rfl rfl hdrop
    | ok _ =>
      simp only
      split <;> exact .of_eq rfl rfl rfl rfl
  | acknowledged _ hsend => exact ⟨Outgoing.send_extends hsend, rfl, rfl, le_rfl⟩
  | ended => exact .of_eq rfl rfl rfl rfl

end Destination

/-! ### Where nothing can happen -/

/-- A job that cannot be joined has something left to do. -/
theorem Requester.unfinished_of_joined {s : Requester} {job : Job} {task : RequestTask}
    (h : s.joined job task = none) :
    job.state = .requested ∨ ∃ file bytes, job.state = .staging file bytes := by
  unfold joined at h
  split at h
  · cases h
  · cases h
  · rename_i hstate
    exact Or.inl hstate
  · rename_i hstate
    exact Or.inr ⟨_, _, hstate⟩

/-- The source has done everything that it can do by itself. -/
structure Source.Waiting {n : ℕ} (s : Source n) : Prop where
  phase : s.phase = .running
  serving : ∃ accepted planned, s.serving = .looping accepted planned
  pending : s.messages.pending = []
  jobs : s.jobs = []

/-- There is no memory for another operation. -/
def Destination.Exhausted {n : ℕ} (s : Destination n) : Prop :=
  addressSpace ≤ s.requesting.retained.length + s.requesting.jobs.length

namespace Session

variable {n m : ℕ} {cfg : Parties} {s : Session n m}

theorem Stuck.source (h : s.Stuck cfg) (hdelivered : s.Delivered) (event : SourceEvent)
    (hgoes : s.SourceGoes event) (hread : ∀ chunk, event ≠ .readControl chunk)
    (haccept : ∀ stream, event ≠ .accept stream) : s.source.step cfg.source event = none := by
  by_contra hne
  obtain ⟨source, hstep⟩ := Option.ne_none_iff_exists'.1 hne
  have hextends := Source.step_extends hstep hread haccept
  obtain ⟨hcontrol, hcontrol', hindex, haccepted⟩ := hdelivered
  refine h { s with source := source } ⟨.source event, hgoes, ?_⟩
  refine Option.filter_eq_some_iff.2 ⟨by simp [hstep], decide_eq_true ⟨?_, ?_, ?_, ?_⟩⟩
  · exact hextends.read ▸ hcontrol
  · exact hcontrol'.trans hextends.control
  · exact hindex.trans hextends.index
  · exact hextends.accepted ▸ haccepted

theorem Stuck.destination (h : s.Stuck cfg) (hdelivered : s.Delivered) (event : ServeEvent)
    (hgoes : s.DestinationGoes event) (hstart : s.destination.phase ≠ .starting)
    (hread : ∀ chunk, event ≠ .readIndex chunk) :
    s.destination.step cfg.destination event = none := by
  by_contra hne
  obtain ⟨destination, hstep⟩ := Option.ne_none_iff_exists'.1 hne
  have hextends := Destination.step_extends hstep hstart hread
  obtain ⟨hcontrol, hcontrol', hindex, haccepted⟩ := hdelivered
  refine h { s with destination := destination } ⟨.destination event, hgoes, ?_⟩
  refine Option.filter_eq_some_iff.2 ⟨by simp [hstep], decide_eq_true ⟨?_, ?_, ?_, ?_⟩⟩
  · exact hcontrol.trans hextends.control
  · exact hextends.controlRead ▸ hcontrol'
  · exact hextends.indexRead ▸ hindex
  · exact haccepted.trans hextends.opened

/-! ### The source -/

/-- No task of a source that is stuck has failed. -/
theorem Stuck.source_result (h : s.Stuck cfg) (hdelivered : s.Delivered)
    (hphase : s.source.phase = .running) (task : SourceTask) (e : Abort QuicSyncError) :
    s.source.resultOf task ≠ some (.error e) := by
  intro hresult
  have hnone := h.source hdelivered (.abort task) trivial (by simp) (by simp)
  simp [Source.step, Source.whenRunning, hphase, hresult] at hnone

theorem Stuck.source_scanned (h : s.Stuck cfg) (hdelivered : s.Delivered)
    (hphase : s.source.phase = .running) (hsend : ∀ item, s.source.channel.send item ≠ none) :
    s.source.scanning.hasReturned = true := by
  cases hscanning : s.source.scanning with
  | returned result => rfl
  | running =>
    have hnone := h.source hdelivered .scan trivial (by simp) (by simp)
    cases hunscanned : s.source.unscanned with
    | nil => simp [Source.step, Source.whenRunning, hphase, Source.scanStep, hscanning,
        hunscanned] at hnone
    | cons item items => simp [Source.step, Source.whenRunning, hphase, Source.scanStep, hscanning,
        hunscanned, hsend] at hnone

/-- The index has been sent, or the source waits until what it has sent is read. -/
theorem Stuck.source_indexing (h : s.Stuck cfg) (hdelivered : s.Delivered)
    (hphase : s.source.phase = .running) :
    s.source.indexing = .sending ∨ s.source.indexing = .returned (.ok ()) := by
  cases hindexing : s.source.indexing with
  | confirming =>
    have hnone := h.source hdelivered (.confirmIndexing (.ok true) none) ⟨rfl, rfl⟩ (by simp)
      (by simp)
    simp only [Source.step, Source.whenRunning, hphase, hindexing] at hnone
    split at hnone <;> cases hnone
  | sending => exact Or.inl rfl
  | finishing =>
    have hnone := h.source hdelivered (.finishIndex (.ok ())) rfl (by simp) (by simp)
    simp [Source.step, Source.whenRunning, hphase, hindexing] at hnone
  | returned result =>
    cases result with
    | ok _ => exact Or.inr rfl
    | error e =>
      refine absurd ?_ (h.source_result hdelivered hphase .indexing e)
      simp [Source.resultOf, hindexing]

/-- An index of which everything has been read goes on. -/
theorem Stuck.source_indexed (h : s.Stuck cfg) (hdelivered : s.Delivered) (hn : 0 < n)
    (hphase : s.source.phase = .running)
    (hread : s.destination.indexRead = s.source.index.bytes) :
    s.source.indexing = .returned (.ok ()) := by
  refine (h.source_indexing hdelivered hphase).resolve_left fun hindexing => ?_
  have hnone := h.source hdelivered (.sendIndex none) ⟨rfl, hread⟩ (by simp) (by simp)
  simp only [Source.step, Source.whenRunning, hphase, Source.sendIndexStep, hindexing,
    Option.map_eq_none_iff] at hnone
  obtain ⟨hqueue, hopen⟩ := Channel.receive_none hnone
  -- the channel is empty, so the scan can go on unless it has returned
  have hscanned := h.source_scanned hdelivered hphase fun item hsend => by
    have hfull := (Channel.send_none hsend).2
    rw [hqueue, List.length_nil] at hfull
    omega
  have hclose := h.source hdelivered .closeChannel ⟨hopen, Or.inl hscanned⟩ (by simp) (by simp)
  cases hclose

theorem Stuck.source_scanning (h : s.Stuck cfg) (hdelivered : s.Delivered)
    (hphase : s.source.phase = .running) (hindexing : s.source.indexing = .returned (.ok ())) :
    s.source.resultOf .scanning = some (.ok ()) := by
  have hscanned := h.source_scanned hdelivered hphase fun item hsend => by
    have hopen := (Channel.send_none hsend).1
    have hclose := h.source hdelivered .closeChannel
      ⟨hopen, Or.inr (by rw [hindexing]; rfl)⟩ (by simp) (by simp)
    cases hclose
  cases hscanning : s.source.scanning with
  | running =>
    rw [hscanning] at hscanned
    cases hscanned
  | returned result =>
    cases result with
    | ok _ => simp [Source.resultOf, hscanning]
    | error e =>
      refine absurd ?_ (h.source_result hdelivered hphase .scanning e)
      simp [Source.resultOf, hscanning]

/-- A task that waits for jobs has none. -/
theorem Stuck.source_jobs (h : s.Stuck cfg) (hdelivered : s.Delivered)
    (hphase : s.source.phase = .running)
    (hserving : (∃ accepted planned, s.source.serving = .looping accepted planned) ∨
      s.source.serving = .draining) : s.source.jobs = [] := by
  cases hjobs : s.source.jobs with
  | nil => rfl
  | cons job jobs =>
    cases job with
    | running =>
      cases hreturned : s.destination.phase.hasReturned with
      | true =>
        have hnone := h.source hdelivered (.job 0 (.return (.error .panic))) hreturned (by simp)
          (by simp)
        simp [Source.step, Source.jobStep, hjobs] at hnone
      | false =>
        have hnone := h.source hdelivered (.job 0 (.return (.ok ()))) hreturned (by simp) (by simp)
        simp [Source.step, Source.jobStep, hjobs] at hnone
    | returned result =>
      have hnone := h.source hdelivered (.joinJob 0) trivial (by simp) (by simp)
      obtain ⟨accepted, planned, hserving⟩ | hserving := hserving
      · simp [Source.step, Source.whenRunning, hphase, Source.joinJobStep, hserving, hjobs] at hnone
      · simp [Source.step, Source.whenRunning, hphase, Source.joinJobStep, hserving, hjobs] at hnone

/-- **A source that is stuck has returned, or waits for the destination.** -/
theorem Stuck.source_waits (h : s.Stuck cfg) (hdelivered : s.Delivered)
    (hserved : s.source.serving = .returned (.ok ()) → s.source.indexing ≠ .sending) :
    s.source.phase.hasReturned = true ∨ s.source.Waiting := by
  cases hphase : s.source.phase with
  | returned result => exact Or.inl rfl
  | starting =>
    have hnone := h.source hdelivered (.start (.ok ()) none (.ok ())) ⟨rfl, rfl, rfl⟩ (by simp)
      (by simp)
    simp [Source.step, hphase] at hnone
  | running =>
    right
    cases hserving : s.source.serving with
    | confirming =>
      have hnone := h.source hdelivered (.confirmServing (.ok true) none) ⟨rfl, rfl⟩ (by simp)
        (by simp)
      simp only [Source.step, Source.whenRunning, hphase, hserving] at hnone
      split at hnone <;> cases hnone
    | looping accepted planned =>
      have hjobs := h.source_jobs hdelivered hphase (Or.inl ⟨accepted, planned, hserving⟩)
      refine ⟨hphase, ⟨accepted, planned, hserving⟩, ?_, hjobs⟩
      cases hpending : s.source.messages.pending with
      | nil => rfl
      | cons message pending =>
        have hnone := h.source hdelivered .handle trivial (by simp) (by simp)
        simp only [Source.step, Source.whenRunning, hphase, Source.handleStep, hserving,
          hpending] at hnone
        split at hnone <;> cases hnone
    | draining =>
      have hjobs := h.source_jobs hdelivered hphase (Or.inr hserving)
      have hnone := h.source hdelivered .drained trivial (by simp) (by simp)
      simp [Source.step, Source.whenRunning, hphase, hserving, hjobs] at hnone
    | closing =>
      have hnone := h.source hdelivered .closed trivial (by simp) (by simp)
      simp [Source.step, Source.whenRunning, hphase, hserving] at hnone
    | returned result =>
      have hresult : s.source.resultOf .serving = some result := by
        simp [Source.resultOf, hserving]
      cases result with
      | error e => exact absurd hresult (h.source_result hdelivered hphase .serving e)
      | ok _ =>
        have hindexing := (h.source_indexing hdelivered hphase).resolve_left (hserved hserving)
        have hscanning := h.source_scanning hdelivered hphase hindexing
        have hdone : s.source.resultOf .indexing = some (.ok ()) := by
          simp [Source.resultOf, hindexing]
        have hnone := h.source hdelivered .join trivial (by simp) (by simp)
        simp [Source.step, Source.whenRunning, hphase, hscanning, hdone, hresult] at hnone

/-- The source waits for the destination: it has taken everything that there is to take. -/
structure Answered (s : Session n m) : Prop where
  waiting : s.source.Waiting
  read : s.source.controlRead = s.destination.control.bytes
  accepted : s.source.accepted = s.destination.requesting.opened.length
  /-- There is room for another stream. -/
  room : s.destination.requesting.opened.length < s.source.results.length + n
  present : s.destination.phase.hasReturned = false

theorem Stuck.answered (h : s.Stuck cfg) (hdelivered : s.Delivered) (hn : 0 < n)
    (hinv : s.source.Inv cfg.source)
    (hserved : s.source.serving = .returned (.ok ()) → s.source.indexing ≠ .sending) :
    s.source.phase.hasReturned = true ∨ s.Answered := by
  obtain hreturned | hwaiting := h.source_waits hdelivered hserved
  · exact Or.inl hreturned
  obtain ⟨hcontrol, hcontrol', hindex, haccepted⟩ := hdelivered
  obtain ⟨accepted, planned, hserving⟩ := hwaiting.serving
  -- a read that takes nothing but what has been written
  have hread (chunk : Except QuicSyncError (Option Bytes))
      (hgoes : s.SourceGoes (.readControl chunk))
      (hnext : ∀ source, s.source.readControlStep chunk = some source →
        source.controlRead <+: s.destination.control.bytes ∧ source.control = s.source.control ∧
          source.index = s.source.index ∧ source.accepted = s.source.accepted) :
      s.source.readControlStep chunk = none := by
    by_contra hne
    obtain ⟨source, hstep⟩ := Option.ne_none_iff_exists'.1 hne
    obtain ⟨hbytes, hsame, hsame', hsame''⟩ := hnext source hstep
    refine h { s with source := source } ⟨.source (.readControl chunk), hgoes, ?_⟩
    refine Option.filter_eq_some_iff.2 ⟨?_, decide_eq_true ⟨hbytes, ?_, ?_, ?_⟩⟩
    · simp [Source.step, Source.whenRunning, hwaiting.phase, hstep]
    · exact hsame ▸ hcontrol'
    · exact hsame' ▸ hindex
    · exact hsame'' ▸ haccepted
  have hall : s.source.controlRead = s.destination.control.bytes := by
    by_contra hne
    obtain ⟨rest, hrest⟩ := hcontrol
    have hchunk : rest ≠ [] := by
      rintro rfl
      exact hne (by rw [← hrest, List.append_nil])
    have hnone := hread (.ok (some rest)) hchunk fun source hstep => by
      simp only [Source.readControlStep, hserving, hwaiting.pending] at hstep
      split at hstep <;> cases hstep <;> exact ⟨hrest ▸ List.prefix_rfl, rfl, rfl, rfl⟩
    simp only [Source.readControlStep, hserving, hwaiting.pending] at hnone
    split at hnone <;> cases hnone
  -- a stream that has been opened can be accepted
  have hopened : s.source.accepted = s.destination.requesting.opened.length := by
    by_contra hne
    have hlt : s.source.accepted + 1 ≤ s.destination.requesting.opened.length := by omega
    refine h { s with
      source := { s.source with
        jobs := s.source.jobs ++ [.running], accepted := s.source.accepted + 1 } }
      ⟨.source (.accept (.ok (some ()))), rfl, ?_⟩
    refine Option.filter_eq_some_iff.2 ⟨?_, decide_eq_true ⟨hcontrol, hcontrol', hindex, hlt⟩⟩
    simp [Source.step, Source.whenRunning, hwaiting.phase, Source.acceptStep, hserving,
      hwaiting.jobs, hn]
  refine Or.inr ⟨hwaiting, hall, hopened, ?_, ?_⟩
  · have hjobs := hinv.jobs
    rw [hwaiting.jobs, List.length_nil] at hjobs
    omega
  · -- a destination that has returned is seen to be gone
    by_contra hne
    rw [Bool.not_eq_false] at hne
    have hnone := hread (.error (Wire.failure "connection lost")) ⟨hne, hall⟩ fun source hstep => by
      simp only [Source.readControlStep, hserving, hwaiting.pending] at hstep
      cases hstep
      exact ⟨hcontrol, rfl, rfl, rfl⟩
    simp only [Source.readControlStep, hserving, hwaiting.pending] at hnone
    cases hnone

/-! ### The tasks of the destination -/

section

variable (h : s.Stuck cfg) (hdelivered : s.Delivered)
  (hsource : s.source.phase.hasReturned = true ∨ s.Answered)
  (hphase : s.destination.phase = .running)

include h hdelivered hphase

/-- No task of a destination that is stuck has failed. -/
theorem Stuck.destination_result (task : ServeTask) (e : Abort QuicSyncError) :
    s.destination.resultOf task ≠ some (.error e) := by
  intro hresult
  have hnone := h.destination hdelivered (.abort task) trivial (by simp [hphase]) (by simp)
  simp [Destination.step, Destination.whenRunning, hphase, hresult] at hnone

theorem Stuck.destination_scanned (hsend : ∀ item, s.destination.localIndex.send item ≠ none) :
    s.destination.scanning.hasReturned = true := by
  cases hscanning : s.destination.scanning with
  | returned result => rfl
  | running =>
    have hnone := h.destination hdelivered .scan trivial (by simp [hphase]) (by simp)
    cases hunscanned : s.destination.unscanned with
    | nil => simp [Destination.step, Destination.whenRunning, hphase, Destination.scanStep,
        hscanning, hunscanned] at hnone
    | cons item items => simp [Destination.step, Destination.whenRunning, hphase,
        Destination.scanStep, hscanning, hunscanned, hsend] at hnone

/-- Whatever of the index has been written is read. -/
theorem Stuck.destination_read (hindexing : s.destination.indexing = .running)
    (hpending : s.destination.records.pending = []) :
    s.destination.indexRead = s.source.index.bytes ∧ s.source.phase.hasReturned = false := by
  obtain ⟨hcontrol, hcontrol', hindex, haccepted⟩ := hdelivered
  -- a read that takes nothing but what has been written
  have hread (chunk : Except QuicSyncError Bytes) (hgoes : s.DestinationGoes (.readIndex chunk))
      (hnext : ∀ destination, s.destination.readIndexStep chunk = some destination →
        destination.indexRead <+: s.source.index.bytes ∧
          destination.control = s.destination.control ∧
          destination.controlRead = s.destination.controlRead ∧
          destination.requesting = s.destination.requesting) :
      s.destination.readIndexStep chunk = none := by
    by_contra hne
    obtain ⟨destination, hstep⟩ := Option.ne_none_iff_exists'.1 hne
    obtain ⟨hbytes, hsame, hsame', hsame''⟩ := hnext destination hstep
    refine h { s with destination := destination } ⟨.destination (.readIndex chunk), hgoes, ?_⟩
    refine Option.filter_eq_some_iff.2 ⟨?_, decide_eq_true ⟨?_, ?_, hbytes, ?_⟩⟩
    · simp [Destination.step, Destination.whenRunning, hphase, hstep]
    · exact hsame ▸ hcontrol
    · exact hsame' ▸ hcontrol'
    · exact hsame'' ▸ haccepted
  have hall : s.destination.indexRead = s.source.index.bytes := by
    by_contra hne
    obtain ⟨rest, hrest⟩ := hindex
    have hchunk : rest ≠ [] := by
      rintro rfl
      exact hne (by rw [← hrest, List.append_nil])
    have hnone := hread (.ok rest) hchunk fun destination hstep => by
      simp only [Destination.readIndexStep, hindexing, hpending] at hstep
      split at hstep <;> cases hstep <;> exact ⟨hrest ▸ List.prefix_rfl, rfl, rfl, rfl⟩
    simp only [Destination.readIndexStep, hindexing, hpending] at hnone
    split at hnone <;> cases hnone
  refine ⟨hall, ?_⟩
  -- a source that has returned is seen to be gone
  by_contra hne
  rw [Bool.not_eq_false] at hne
  have hnone := hread (.error (Wire.failure "connection lost")) ⟨hne, hall⟩
    fun destination hstep => by
      simp only [Destination.readIndexStep, hindexing, hpending] at hstep
      cases hstep
      exact ⟨hindex, rfl, rfl, rfl⟩
  simp only [Destination.readIndexStep, hindexing, hpending] at hnone
  cases hnone

include hsource

/-- A job whose task waits for it can go on. -/
theorem Stuck.destination_jobs (hwaits : s.destination.Waits)
    (htask : (∃ operation, s.destination.requesting.task = .full operation) ∨
      s.destination.requesting.task = .draining) : s.destination.requesting.jobs = [] := by
  cases hjobs : s.destination.requesting.jobs with
  | nil => rfl
  | cons job jobs =>
    exfalso
    have hfirst : s.destination.requesting.jobs[0]? = some job := by rw [hjobs]; rfl
    -- either the stream has been accepted, or it is lost
    have hone (event : JobEvent) (hgoes : s.JobGoes 0 event) :
        job.step s.destination.requesting.area s.destination.requesting.world event = none := by
      have hnone := h.destination hdelivered (.request (.job 0 event)) hgoes (by simp [hphase])
        (by simp)
      simpa [Destination.step, Destination.requestStep, Requester.step, hfirst] using hnone
    have haccepted : s.source.phase.hasReturned = true ∨
        job.operation ∈ s.destination.requesting.opened.take s.source.accepted := by
      obtain hreturned | hanswered := hsource
      · exact Or.inl hreturned
      · rw [hanswered.accepted, List.take_length]
        exact Or.inr (hwaits.requesting.jobs job (by rw [hjobs]; exact List.mem_cons_self))
    have hjoin : job.state = .requested ∨ ∃ file bytes, job.state = .staging file bytes := by
      have hnone := h.destination hdelivered (.request (.join 0)) trivial (by simp [hphase])
        (by simp)
      obtain ⟨operation, htask⟩ | htask := htask
      · simp only [Destination.step, Destination.whenRunning, hphase, Destination.requestStep,
          Requester.step, hfirst, htask, Option.map_eq_none_iff] at hnone
        exact Requester.unfinished_of_joined hnone
      · simp only [Destination.step, Destination.whenRunning, hphase, Destination.requestStep,
          Requester.step, hfirst, htask, Option.map_eq_none_iff] at hnone
        exact Requester.unfinished_of_joined hnone
    obtain hreturned | haccepted := haccepted
    · have hnone := hone (.fail .panic) hreturned
      obtain hstate | ⟨file, bytes, hstate⟩ := hjoin
      · simp [Job.step, hstate] at hnone
      · simp [Job.step, hstate] at hnone
    · obtain hstate | ⟨file, bytes, hstate⟩ := hjoin
      · have hnone := hone (.create (Vector.replicate 16 0)) ⟨job, hfirst, haccepted⟩
        simp only [Job.step, hstate] at hnone
        split at hnone <;> cases hnone
      · have hnone := hone .finish ⟨job, hfirst, haccepted⟩
        simp [Job.step, hstate] at hnone

/-- The requesting task is done, or waits for the planner. -/
theorem Stuck.destination_requesting (hm : 0 < m) (hwaits : s.destination.Waits) :
    s.destination.requesting.task = .returned (.ok ()) ∨
      s.destination.requesting.task = .receiving ∧ s.destination.operations.queue = [] ∧
        s.destination.operations.closed = false ∨
      s.destination.Exhausted := by
  have hnone (event : RequestEvent) (hgoes : s.RequestGoes event) :
      s.destination.step cfg.destination (.request event) = none :=
    h.destination hdelivered (.request event) hgoes (by simp [hphase]) (by simp)
  cases htask : s.destination.requesting.task with
  | opening =>
    have hstep := hnone .openArea trivial
    simp only [Destination.step, Destination.whenRunning, hphase, Destination.requestStep,
      Requester.step, htask, Option.map_eq_none_iff] at hstep
    split at hstep <;> cases hstep
  | receiving =>
    cases hreceive : s.destination.operations.receive with
    | none => exact Or.inr (Or.inl ⟨rfl, Channel.receive_none hreceive⟩)
    | some received =>
      cases received with
      | none =>
        have hstep := hnone .ended trivial
        simp [Destination.step, Destination.whenRunning, hphase, Destination.requestStep, hreceive,
          Requester.step, htask] at hstep
      | some next =>
        obtain ⟨operation, channel⟩ := next
        right
        right
        by_contra hmemory
        have hroom : s.destination.requesting.retained.length +
            s.destination.requesting.jobs.length < addressSpace := not_le.1 hmemory
        have hstep := hnone (.receive operation) trivial
        simp only [Destination.step, Destination.whenRunning, hphase, Destination.requestStep,
          hreceive, Requester.step, htask, if_true, if_pos hroom, Option.map_eq_none_iff] at hstep
        split at hstep
        · split at hstep <;> cases hstep
        · cases hstep
  | full operation =>
    have hjobs := h.destination_jobs hdelivered hsource hphase hwaits (Or.inl ⟨operation, htask⟩)
    have hfull := hwaits.requesting.full operation htask
    rw [hjobs, List.length_nil] at hfull
    omega
  | requesting operation =>
    obtain hreturned | hanswered := hsource
    · have hstep := hnone (.openStream (.error (Wire.failure "connection lost"))) hreturned
      simp [Destination.step, Destination.whenRunning, hphase, Destination.requestStep,
        Requester.step, htask] at hstep
    · have hpresent : s.source.phase.hasReturned = false := by
        rw [hanswered.waiting.phase]
        rfl
      have hstep := hnone (.openStream (.ok ())) ⟨hpresent, hanswered.room⟩
      simp [Destination.step, Destination.whenRunning, hphase, Destination.requestStep,
        Requester.step, htask] at hstep
  | draining =>
    have hjobs := h.destination_jobs hdelivered hsource hphase hwaits (Or.inr htask)
    have hstep := hnone .finish trivial
    simp [Destination.step, Destination.whenRunning, hphase, Destination.requestStep,
      Requester.step, htask, hjobs] at hstep
  | returned result =>
    cases result with
    | ok _ => exact Or.inl rfl
    | error e =>
      refine absurd ?_ (h.destination_result hdelivered hphase .requesting e)
      simp [Destination.resultOf, htask]
  | dropped => exact absurd htask (hwaits.present (Or.inr hphase))

end

/-- An index that has been read is over: its end has been forwarded. -/
theorem Stuck.destination_indexed {cfg : Parties} {connection connection' : Connection} {w : World}
    {s : Session cfg.source.capacity cfg.destination.capacity} (h : s.Stuck cfg)
    (hreachable : s.Reachable cfg connection connection' w) (hn : 0 < cfg.source.capacity)
    (hsource : s.source.phase.hasReturned = true ∨ s.Answered)
    (hphase : s.destination.phase = .running)
    (hsend : ∀ item, s.destination.remoteIndex.send item ≠ none) :
    s.destination.indexing.hasReturned = true := by
  have hdelivered := hreachable.parts.1
  obtain ⟨hindexed, hwaits⟩ := hreachable.waits
  obtain ⟨hsourceFlow, hflow⟩ := hreachable.indexFlow
  cases hindexing : s.destination.indexing with
  | returned result => rfl
  | running =>
    exfalso
    cases hpending : s.destination.records.pending with
    | cons record pending =>
      have hnone := h.destination hdelivered .forward trivial (by simp [hphase]) (by simp)
      simp [Destination.step, Destination.whenRunning, hphase, Destination.forwardStep, hindexing,
        hpending, hsend] at hnone
    | nil =>
      obtain ⟨hall, hpresent⟩ := h.destination_read hdelivered hphase hindexing hpending
      obtain hreturned | hanswered := hsource
      · rw [hreturned] at hpresent
        cases hpresent
      -- the source has written the whole index, so all of it has been decoded
      have hdone := h.source_indexed hdelivered hn hanswered.waiting.phase hall
      obtain ⟨hbytes, hend⟩ := hindexed.complete (Or.inr hdone)
      obtain ⟨ms, hpush, hforwarded⟩ := hflow.forwarding hindexing
      have hms : ∀ m ∈ ms, Sendable (CodecLimits.ofLimits cfg.destination.limits) m :=
        (Decoder.good_new _).sendable_pushLoop hpush fun _ hm => absurd hm List.not_mem_nil
      have hwithin : ms <+: s.source.index.sent := by
        refine frames_prefix hms hsourceFlow.sendable ?_
        rw [← hbytes, ← hall]
        exact Decoder.frames_of_push hpush
      obtain rfl := Decoder.decoded_all hpush (hall.trans hbytes) hwithin
      refine hwaits.forwarding hindexing ?_
      rw [hpending, List.map_nil, List.append_nil] at hforwarded
      rw [hforwarded]
      exact List.mem_map_of_mem hend

/-- **The tasks of a destination never all wait**, unless the memory is exhausted. -/
theorem Stuck.not_running {cfg : Parties} {connection connection' : Connection} {w : World}
    {s : Session cfg.source.capacity cfg.destination.capacity} (h : s.Stuck cfg)
    (hreachable : s.Reachable cfg connection connection' w) (hn : 0 < cfg.source.capacity)
    (hm : 0 < cfg.destination.capacity)
    (hsource : s.source.phase.hasReturned = true ∨ s.Answered)
    (hphase : s.destination.phase = .running) : s.destination.Exhausted := by
  obtain ⟨hdelivered, -, hinv⟩ := hreachable.inv
  have hwaits := hreachable.waits.2
  have hnone (event : ServeEvent) (hgoes : s.DestinationGoes event)
      (hread : ∀ chunk, event ≠ .readIndex chunk) :
      s.destination.step cfg.destination event = none :=
    h.destination hdelivered event hgoes (by simp [hphase]) hread
  have hrequesting := h.destination_requesting hdelivered hsource hphase hm hwaits
  -- a channel without items has room
  have hroom {c : Channel cfg.destination.capacity IndexItem} (hqueue : c.queue = [])
      (item : IndexItem) : c.send item ≠ none := by
    intro hsend
    have hfull := (Channel.send_none hsend).2
    rw [hqueue, List.length_nil] at hfull
    omega
  cases hplanning : s.destination.planning with
  | confirming =>
    have hstep := hnone (.confirm (.ok true) none) ⟨rfl, rfl⟩ (by simp)
    simp only [Destination.step, Destination.whenRunning, hphase, hplanning] at hstep
    split at hstep <;> cases hstep
  | accepting =>
    have hstep := hnone (.accept none) rfl (by simp)
    simp only [Destination.step, Destination.whenRunning, hphase, hplanning] at hstep
    split at hstep <;> cases hstep
  | ending =>
    have hstep := hnone (.endPlan none) rfl (by simp)
    simp [Destination.step, Destination.whenRunning, hphase, hplanning] at hstep
  | planning p =>
    have hstep := hnone .plan trivial (by simp)
    simp only [Destination.step, Destination.whenRunning, hphase, Destination.planStep,
      hplanning] at hstep
    split at hstep
    · split at hstep <;> cases hstep
    · -- it waits for the source's index
      obtain ⟨hqueue, hopen⟩ := Channel.receive_none (Option.map_eq_none_iff.1 hstep)
      have hreturned := h.destination_indexed hreachable hn hsource hphase (hroom hqueue)
      have hclose := hnone .closeRemote ⟨hopen, Or.inl hreturned⟩ (by simp)
      cases hclose
    · -- it waits for the destination's index
      obtain ⟨hqueue, hopen⟩ := Channel.receive_none (Option.map_eq_none_iff.1 hstep)
      have hreturned := h.destination_scanned hdelivered hphase (hroom hqueue)
      have hclose := hnone .closeLocal ⟨hopen, Or.inl hreturned⟩ (by simp)
      cases hclose
    · -- it waits for the requesting task
      obtain ⟨-, hfull⟩ := Channel.send_none (Option.map_eq_none_iff.1 hstep)
      have hempty : s.destination.operations.queue ≠ [] := by
        intro hqueue
        rw [hqueue, List.length_nil] at hfull
        omega
      obtain htask | ⟨-, hqueue, -⟩ | hmemory := hrequesting
      · exact absurd (hinv.drained (Or.inr htask)).1 hempty
      · exact absurd hqueue hempty
      · exact hmemory
  | returned result =>
    cases result with
    | error e =>
      refine absurd ?_ (h.destination_result hdelivered hphase .planning e)
      simp [Destination.resultOf, hplanning]
    | ok _ =>
      have hplanned : s.destination.planning.planned = true := by rw [hplanning]; rfl
      -- the planner has gone, so the other tasks do not wait for it
      have hclosed {c : Channel cfg.destination.capacity IndexItem} (hopen : c.closed ≠ false)
          (item : IndexItem) : c.send item ≠ none :=
        fun hsend => hopen (Channel.send_none hsend).1
      have hscanned := h.destination_scanned hdelivered hphase <| hclosed fun hopen => by
        have hclose := hnone .closeLocal ⟨hopen, Or.inr hplanned⟩ (by simp)
        cases hclose
      have hindexed := h.destination_indexed hreachable hn hsource hphase <| hclosed fun hopen => by
        have hclose := hnone .closeRemote ⟨hopen, Or.inr hplanned⟩ (by simp)
        cases hclose
      obtain htask | ⟨-, -, hopen⟩ | hmemory := hrequesting
      · have hresult (task : TaskState) (which : ServeTask)
            (heq : ∀ result, task = .returned result →
              s.destination.resultOf which = some result)
            (hreturned : task.hasReturned = true) :
            s.destination.resultOf which = some (.ok ()) := by
          cases task with
          | running => cases hreturned
          | returned result =>
            cases result with
            | ok _ => exact heq _ rfl
            | error e =>
              exact absurd (heq _ rfl) (h.destination_result hdelivered hphase which e)
        have hscanning := hresult s.destination.scanning .scanning
          (fun result heq => by simp [Destination.resultOf, heq]) hscanned
        have hindexing := hresult s.destination.indexing .indexing
          (fun result heq => by simp [Destination.resultOf, heq]) hindexed
        have hplan : s.destination.resultOf .planning = some (.ok ()) := by
          simp [Destination.resultOf, hplanning]
        have hrequest : s.destination.resultOf .requesting = some (.ok ()) := by
          simp [Destination.resultOf, htask]
        have hstep := hnone .join trivial (by simp)
        simp [Destination.step, Destination.whenRunning, hphase, hscanning, hindexing, hplan,
          hrequest] at hstep
      · have hclose := hnone .closeOperations ⟨hopen, Or.inl hplanned⟩ (by simp)
        cases hclose
      · exact hmemory

/-! ### The end -/

/-- Both ends have returned. -/
def Ended (s : Session n m) : Prop :=
  s.source.phase.hasReturned = true ∧ s.destination.phase.hasReturned = true

end Session

/-- The root of the destination's session is the one that the source asks for. -/
def Parties.Rooted (cfg : Parties) : Prop :=
  ∀ configured ∈ cfg.destination.roots, configured.id = cfg.source.rootId →
    configured.root.path = cfg.destination.root.path

/-- A first message that starts with another one is that one. -/
theorem frame_startSync_inj {rootId rootId' : String}
    (h : frame (Control.startSync rootId) <+: frame (Control.startSync rootId')) :
    rootId = rootId' := by
  have hlength : (payload (Control.startSync rootId)).length =
      (payload (Control.startSync rootId')).length :=
    Leb128.encode_append_inj ((List.prefix_append _ _).trans h) (List.prefix_append _ _)
  have hframe : frame (Control.startSync rootId) = frame (Control.startSync rootId') := by
    refine h.eq_of_length ?_
    rw [frame, frame, List.length_append, List.length_append, hlength]
  rw [frame, frame, hlength, List.append_cancel_left_eq] at hframe
  have hfields : Format.string rootId = Format.string rootId' := by
    simpa [payload, WireFormat.fields, WireMessage.kind] using hframe
  rw [Format.string, Format.string, Format.bytes, Format.bytes] at hfields
  have hmod := Leb128.encode_append_inj (List.prefix_append _ _)
    (hfields ▸ List.prefix_append _ _)
  rw [Format.length, Format.length, hmod, List.append_cancel_left_eq] at hfields
  exact String.toByteArray_inj.1 (ByteArray.ext (Array.toList_inj.1 hfields))

/-- The root that is accepted for what the source has written. -/
theorem Parties.Rooted.accept {cfg : Parties} (h : cfg.Rooted) {bytes : Bytes}
    {fingerprint : Except QuicSyncError Bytes} {opened : Except QuicSyncError Unit}
    {root : RootHandle} (hbytes : bytes <+: frame (Control.startSync cfg.source.rootId))
    (haccept : Destination.acceptStart cfg.destination [bytes] fingerprint opened = .ok root) :
    root.path = cfg.destination.root.path := by
  unfold Destination.acceptStart at haccept
  obtain ⟨⟨rootId, rest⟩, hreceive, haccept⟩ := bind_eq_ok_iff.1 haccept
  obtain ⟨peer, -, haccept⟩ := bind_eq_ok_iff.1 haccept
  obtain ⟨configured, hauthorized, haccept⟩ := bind_eq_ok_iff.1 haccept
  obtain ⟨-, -, haccept⟩ := bind_eq_ok_iff.1 haccept
  cases haccept
  -- the message is the one that the source has sent
  have hrootId : rootId = cfg.source.rootId := by
    cases hpush :
        (Messages.new Control cfg.destination.limits).decoder.push (T := Control) bytes with
    | mk result decoder =>
      cases result with
      | error e =>
        rw [receiveStart, Messages.next_error rfl hpush] at hreceive
        cases hreceive
      | ok pending =>
        rw [receiveStart, Messages.next_push rfl hpush] at hreceive
        cases pending with
        | nil =>
          rw [Messages.next_closed rfl] at hreceive
          cases hreceive
        | cons message pending =>
          rw [Messages.next_pending rfl] at hreceive
          have hframes := (Decoder.frames_of_push hpush).trans hbytes
          rw [List.flatMap_cons] at hframes
          cases message with
          | startSync rootId' =>
            cases hreceive
            exact frame_startSync_inj ((List.prefix_append _ _).trans hframes)
          | _ => cases hreceive
  unfold authorizedRoot at hauthorized
  split at hauthorized
  · rename_i hfind
    cases hauthorized
    have hfound := List.find?_some hfind
    simp only [decide_eq_true_eq] at hfound
    exact h configured (List.mem_of_find?_eq_some hfind) (hfound.1.trans hrootId)
  · cases hauthorized

theorem completeFrames_eq : completeFrames = expectedControl.flatMap frame := by
  rw [completeFrames, plannedFrames_eq]
  simp [expectedControl]

namespace Session

variable {cfg : Parties} {connection connection' : Connection} {w : World}
  {s s' : Session cfg.source.capacity cfg.destination.capacity}

/-- A source that has been told of the commit has sent its whole index. -/
theorem Reachable.indexing_ne_sending (h : s.Reachable cfg connection connection' w)
    (hserving : s.source.serving = .returned (.ok ())) : s.source.indexing ≠ .sending := by
  intro hindexing
  obtain ⟨hdelivered, -, hdestination⟩ := h.inv
  obtain ⟨hsourceFlow, hflow⟩ := h.indexFlow
  have hcommitted := h.committed_of_served hserving
  -- the planner has read the end of the index
  obtain ⟨S, D, hremote, -⟩ := hdestination.planned (Or.inr (by rw [hcommitted]; simp))
  obtain ⟨bytes, ms, d, hbytes, hpush, hforwarded⟩ := hflow.forwarded
  have hend : IndexMessage.end ∈ ms := by
    have hread : (.ok .end : IndexItem) ∈
        s.destination.readRemote ++ s.destination.remoteIndex.queue := by
      rw [hremote]
      exact List.mem_append_left _ (List.mem_append_right _ (List.mem_singleton_self _))
    obtain ⟨message, hmessage, heq⟩ := List.mem_map.1 (hforwarded.subset hread)
    cases heq
    exact hmessage
  have hms : ∀ m ∈ ms, Sendable (CodecLimits.ofLimits cfg.destination.limits) m :=
    (Decoder.good_new _).sendable_pushLoop hpush fun _ hm => absurd hm List.not_mem_nil
  have hsent : ms <+: s.source.index.sent := by
    refine frames_prefix hms hsourceFlow.sendable ?_
    rw [← (hsourceFlow.sending (Or.inr hindexing)).1]
    exact (Decoder.frames_of_push hpush).trans (hbytes.trans hdelivered.2.2.1)
  exact h.waits.1.sending (Or.inr hindexing) (hsent.subset hend)

/-- A source that has read everything has taken the acknowledgment. -/
theorem Answered.not_closing (h : s.Answered)
    (hreachable : s.Reachable cfg connection connection' w) : s.destination.phase ≠ .closing := by
  intro hphase
  obtain ⟨-, hsource, -⟩ := hreachable.inv
  obtain ⟨accepted, planned, hserving⟩ := h.waiting.serving
  have hintact : s.source.serving.intact = true := by rw [hserving]; rfl
  have hreceived := hsource.received hintact
  rw [h.waiting.pending, List.append_nil] at hreceived
  have hbytes : s.source.controlRead = expectedControl.flatMap frame := by
    rw [h.read, hreachable.waits.2.closing hphase, completeFrames_eq]
  have hall := Decoder.decoded_all hreceived hbytes (hsource.handled.within hintact)
  have hhandled := hsource.handled
  rw [hserving, hall] at hhandled
  cases accepted <;> cases planned <;> cases hhandled

/-- **Where nothing can happen, both ends have returned**, or the memory is exhausted. -/
theorem Stuck.ended (h : s.Stuck cfg) (hreachable : s.Reachable cfg connection connection' w)
    (hn : 0 < cfg.source.capacity) (hm : 0 < cfg.destination.capacity) (hroot : cfg.Rooted) :
    s.Ended ∨ s.destination.Exhausted := by
  obtain ⟨hdelivered, hinv, -⟩ := hreachable.inv
  have hsource := h.answered hdelivered hn hinv hreachable.indexing_ne_sending
  have hnone (event : ServeEvent) (hgoes : s.DestinationGoes event)
      (hstart : s.destination.phase ≠ .starting) (hread : ∀ chunk, event ≠ .readIndex chunk) :
      s.destination.step cfg.destination event = none :=
    h.destination hdelivered event hgoes hstart hread
  cases hphase : s.destination.phase with
  | starting =>
    -- the source has sent what it sends before its tasks run
    exfalso
    have hstarted : s.source.phase ≠ .starting := by
      intro heq
      obtain hreturned | hanswered := hsource
      · rw [heq] at hreturned
        cases hreturned
      · have hrunning := hanswered.waiting.phase
        rw [heq] at hrunning
        cases hrunning
    have hbytes : [s.source.control.bytes].flatten = s.source.control.bytes := by simp
    have hnone : s.destination.step cfg.destination
        (.start [s.source.control.bytes] (.ok []) (.ok ())) = none := by
      by_contra hne
      obtain ⟨destination, hstep⟩ := Option.ne_none_iff_exists'.1 hne
      have hsame : destination.controlRead = [s.source.control.bytes].flatten ∧
          destination.control = s.destination.control ∧
          destination.indexRead = s.destination.indexRead ∧
          destination.requesting = s.destination.requesting := by
        simp only [Destination.step, hphase] at hstep
        split at hstep
        · split at hstep <;> cases hstep
          exact ⟨rfl, rfl, rfl, rfl⟩
        · cases hstep
          exact ⟨rfl, rfl, rfl, rfl⟩
      obtain ⟨hread, hcontrol', hindex', hrequesting⟩ := hsame
      obtain ⟨hcontrol, -, hindex, haccepted⟩ := hdelivered
      refine h { s with destination := destination }
        ⟨.destination (.start [s.source.control.bytes] (.ok []) (.ok ())),
          ⟨hstarted, hbytes, ⟨[], rfl⟩, rfl⟩, ?_⟩
      refine Option.filter_eq_some_iff.2 ⟨by simp [hstep], decide_eq_true ⟨?_, ?_, ?_, ?_⟩⟩
      · exact hcontrol' ▸ hcontrol
      · exact (hread.trans hbytes) ▸ List.prefix_rfl
      · exact hindex' ▸ hindex
      · exact hrequesting ▸ haccepted
    simp only [Destination.step, hphase] at hnone
    split at hnone
    · rename_i root haccept
      have hpath := hroot.accept hinv.control.2 haccept
      rw [if_pos hpath] at hnone
      cases hnone
    · cases hnone
  | running => exact Or.inr (h.not_running hreachable hn hm hsource hphase)
  | committing =>
    have hstep := hnone (.commit (.ok ())) rfl (by simp [hphase]) (by simp)
    simp [Destination.step, hphase] at hstep
  | acknowledging =>
    have hstep := hnone (.acknowledge none) rfl (by simp [hphase]) (by simp)
    simp only [Destination.step, hphase] at hstep
    split at hstep <;> cases hstep
  | closing =>
    obtain hreturned | hanswered := hsource
    · have hstep := hnone (.close (.error (Wire.failure "connection lost"))) hreturned
        (by simp [hphase]) (by simp)
      simp [Destination.step, hphase] at hstep
    · exact absurd hphase (hanswered.not_closing hreachable)
  | returned result =>
    obtain hreturned | hanswered := hsource
    · exact Or.inl ⟨hreturned, by rw [hphase]; rfl⟩
    · have hpresent := hanswered.present
      rw [hphase] at hpresent
      cases hpresent

theorem SourceGoes.not_idle {event : SourceEvent} (h : s.SourceGoes event) :
    ¬ s.source.Idle event := by
  intro hidle
  cases event with
  | readControl chunk =>
    rcases chunk with e | _ | chunk
    · simp only [Source.Idle] at hidle
    · simp only [Source.Idle] at hidle
    · exact h hidle
  | job i event =>
    cases event with
    | respond bytes => simp only [SourceGoes] at h
    | «return» result => simp only [Source.Idle] at hidle
  | closeChannel =>
    simp only [SourceGoes, Source.Idle] at h hidle
    rw [hidle] at h
    cases h.1
  | _ => simp only [Source.Idle] at hidle

theorem DestinationGoes.not_idle {event : ServeEvent} (h : s.DestinationGoes event) :
    ¬ s.destination.Idle event := by
  intro hidle
  cases event with
  | readIndex chunk =>
    cases chunk with
    | error e => simp only [Destination.Idle] at hidle
    | ok chunk => exact h hidle
  | request event =>
    cases event with
    | job i event =>
      cases event with
      | write bytes => simp only [DestinationGoes, RequestGoes, JobGoes] at h
      | _ => simp only [Destination.Idle] at hidle
    | _ => simp only [Destination.Idle] at hidle
  | closeLocal =>
    simp only [DestinationGoes, Destination.Idle] at h hidle
    rw [hidle] at h
    cases h.1
  | closeRemote =>
    simp only [DestinationGoes, Destination.Idle] at h hidle
    rw [hidle] at h
    cases h.1
  | closeOperations =>
    simp only [DestinationGoes, Destination.Idle] at h hidle
    rw [hidle] at h
    cases h.1
  | _ => simp only [Destination.Idle] at hidle

/-- What happens without a failure leads on. -/
theorem Moves.works (h : s.Moves cfg s') : s.Works cfg s' := by
  obtain ⟨event, hgoes, hstep⟩ := h
  refine ⟨event, ?_, hstep⟩
  cases event with
  | source event => exact SourceGoes.not_idle hgoes
  | destination event => exact DestinationGoes.not_idle hgoes

theorem capacity_pos {limits limits' : Limits} (h : limits.validate = .ok limits') :
    0 < limits.maxParallelTransfers.toNat := by
  obtain ⟨-, -, -, -, -, ⟨htransfers, -⟩, -⟩ := Limits.validate_eq_ok_iff.1 h
  exact htransfers

/-- **Every session ends.**  Let both configurations have passed their checks.  In every state that
both ends can reach, in whatever order of events and whatever has failed by then:
* there is no infinite run, whatever fails from now on;
* where nothing can happen any more, both ends have returned;
* and if nothing fails from now on, both ends do return.

The only exception is a destination whose plan does not fit into an address space. -/
theorem always_ends (cfg : Parties) (connection connection' : Connection) (w : World)
    (sourceLimits destinationLimits : Limits)
    (hvalid : cfg.source.limits.validate = .ok sourceLimits)
    (hvalid' : cfg.destination.limits.validate = .ok destinationLimits) (hroot : cfg.Rooted)
    (s : Session cfg.source.capacity cfg.destination.capacity)
    (h : s.Reachable cfg connection connection' w) :
    (¬ ∃ run : ℕ → Session cfg.source.capacity cfg.destination.capacity,
      run 0 = s ∧ ∀ k, (run k).Works cfg (run (k + 1))) ∧
    (s.Stuck cfg → s.Ended ∨ s.destination.Exhausted) ∧
    ∃ s', Relation.ReflTransGen (Moves cfg) s s' ∧ (s'.Ended ∨ s'.destination.Exhausted) := by
  have hstuck : ∀ s : Session cfg.source.capacity cfg.destination.capacity,
      s.Reachable cfg connection connection' w → s.Stuck cfg →
        s.Ended ∨ s.destination.Exhausted := fun s hs hs' =>
    hs'.ended hs (capacity_pos hvalid) (capacity_pos hvalid') hroot
  have hprogress : ∀ s : Session cfg.source.capacity cfg.destination.capacity,
      s.Reachable cfg connection connection' w → ¬ (s.Ended ∨ s.destination.Exhausted) →
        ∃ s', s.Moves cfg s' ∧ s'.Reachable cfg connection connection' w ∧ s.Works cfg s' := by
    intro s hs hnot
    obtain ⟨s', hmove⟩ : ∃ s', s.Moves cfg s' := by
      by_contra hnone
      exact hnot (hstuck s hs fun s' hmove => hnone ⟨s', hmove⟩)
    obtain ⟨event, -, hstep⟩ := id hmove
    exact ⟨s', hmove, hs.tail hstep, hmove.works⟩
  refine ⟨?_, hstuck s h, ?_⟩
  · rintro ⟨run, -, hrun⟩
    exact (wellFounded_iff_isEmpty_descending_chain.1 (works_wellFounded cfg)).elim ⟨run, hrun⟩
  · obtain ⟨s', hmoves, -, hend⟩ := reaches_of_progress (works_wellFounded cfg) hprogress h
    exact ⟨s', hmoves, hend⟩

end Session

open Sample in
/-- Both ends of the sample wait at the gate; from there the session ends. -/
theorem always_ends_sample : ∃ s : Session parties.source.capacity parties.destination.capacity,
    s.Reachable parties connection connection (world 0o755) ∧ s.source.confirmed = false ∧
      s.destination.confirmed = false ∧
      (¬ ∃ run : ℕ → Session parties.source.capacity parties.destination.capacity,
        run 0 = s ∧ ∀ k, (run k).Works parties (run (k + 1))) ∧
      ∃ s', Relation.ReflTransGen (Session.Moves parties) s s' ∧
        (s'.Ended ∨ s'.destination.Exhausted) := by
  obtain ⟨s, hs, hgated⟩ := (Option.any_eq_true _ _).1 gated_untilScanned
  simp only [gated, Bool.and_eq_true, decide_eq_true_eq, Bool.not_eq_true'] at hgated
  have hvalid : defaultLimits.validate = .ok defaultLimits := by decide +kernel
  have hrooted : parties.Rooted := by
    intro configured hconfigured _
    rw [List.mem_singleton.1 hconfigured]
    rfl
  obtain ⟨hfinite, -, hend⟩ := Session.always_ends parties connection connection (world 0o755)
    defaultLimits defaultLimits hvalid hvalid hrooted s ⟨_, hs⟩
  exact ⟨s, ⟨_, hs⟩, hgated.1.2, hgated.2, hfinite, hend⟩

end QuicSync
