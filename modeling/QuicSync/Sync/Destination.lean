import QuicSync.Filesystem.Scan
import QuicSync.Sync.Jobs
import QuicSync.Sync.PlanRun
import QuicSync.Transport.Connection

/-!
# The destination's end of a session

`serve_inner` as a machine.  After the first message it runs four tasks at the same time: `scanning`
sends the index of the live tree, `indexing` forwards the index that the source sends, `planning`
merges the two into operations, and `requesting` receives files and retains the operations.  When
all four have succeeded the operations are committed and the source gets its acknowledgment.

* The tasks are joined: the session goes on only with all four results, and ends with the first
  error.  Until the join sees the error, the other tasks can go on.
* What a task waits for is an argument of its event: the chunks of a stream, the outcome of a write
  or of the handshake.  Any task can fail at any time, and the ends of a channel can go at any time:
  they do when the tasks that have them return, and nothing here depends on when.
* What the scan sends and returns is given (`Serving.scan`): `scanRoot` is one such scan.

`Destination.Move` says what the events can lead to.
-/

namespace QuicSync

open Posix

/-- A root that a destination serves, and the peers that may write to it. -/
structure ConfiguredRoot where
  id : String
  root : RootHandle
  authorizedPeers : List Bytes

/-- The configured root that a peer asks for. -/
def authorizedRoot (roots : List ConfiguredRoot) (fingerprint : Bytes) (rootId : String) :
    Except QuicSyncError ConfiguredRoot :=
  match roots.find? fun root => root.id = rootId ∧ fingerprint ∈ root.authorizedPeers with
  | some root => .ok root
  | none => .error (QuicSyncError.new .authorizationDenied none
      (.text "peer is not authorized for root"))

/-- What a session of the destination is given. -/
structure Serving where
  limits : Limits
  roots : List ConfiguredRoot
  /-- The root of the session. -/
  root : RootHandle
  /-- What the scan of the root returns, and what it sends. -/
  scan : Except QuicSyncError Unit × List IndexItem

/-- The number of transfers at a time, and of items in a channel. -/
def Serving.capacity (cfg : Serving) : ℕ := cfg.limits.maxParallelTransfers.toNat

/-- The tasks that run at the same time. -/
inductive ServeTask where
  | scanning
  | indexing
  | planning
  | requesting
  deriving DecidableEq

/-- Where a task that only runs and returns is. -/
inductive TaskState where
  | running
  | returned (result : Except (Abort QuicSyncError) Unit)

/-- Where the planning task is. -/
inductive PlanTask where
  | confirming
  /-- The handshake has been confirmed, and the start is to be accepted. -/
  | accepting
  | planning (state : PlanState)
  /-- The plan is complete, and its end is to be sent. -/
  | ending
  | returned (result : Except (Abort QuicSyncError) Unit)

/-- Where the session is. -/
inductive ServePhase where
  /-- It waits for the first message. -/
  | starting
  /-- The tasks run. -/
  | running
  /-- All tasks have succeeded. -/
  | committing
  | acknowledging
  /-- It waits for the end of the control stream. -/
  | closing
  | returned (result : Except (Abort QuicSyncError) Unit)

/-- The state of a session, for channels of `n` items. -/
structure Destination (n : ℕ) where
  phase : ServePhase
  connection : Connection
  control : Outgoing Control
  scanning : TaskState
  /-- What the scan is still to send. -/
  unscanned : List IndexItem
  indexing : TaskState
  records : Messages IndexMessage
  planning : PlanTask
  requesting : Requester
  localIndex : Channel n IndexItem
  remoteIndex : Channel n IndexItem
  operations : Channel n Operation
  /-- The bytes read from the control stream before the tasks run. -/
  controlRead : Bytes
  /-- The bytes read from the index stream. -/
  indexRead : Bytes
  /-- The handshake has been confirmed. -/
  confirmed : Bool
  /-- What the planner has read from the two indexes. -/
  readRemote : List IndexItem
  readLocal : List IndexItem
  /-- The operations that the planner has sent. -/
  emitted : List Operation
  /-- What the commit has returned, if it has been made. -/
  committed : Option (Except QuicSyncError Unit)

/-- What can happen next. -/
inductive ServeEvent where
  /-- The first message arrives in these chunks, from a peer with this fingerprint. -/
  | start (chunks : List Bytes) (fingerprint : Except QuicSyncError Bytes)
      (opened : Except QuicSyncError Unit)
  | scan
  /-- A read of the index stream returns a chunk, or fails. -/
  | readIndex (chunk : Except QuicSyncError Bytes)
  | forward
  | confirm (handshake : Except QuicSyncError Bool) (closeReason : Option QuicSyncError)
  | accept (fault : Option (ℕ × QuicSyncError))
  | plan
  | endPlan (fault : Option (ℕ × QuicSyncError))
  | request (event : RequestEvent)
  | closeLocal
  | closeRemote
  | closeOperations
  /-- A task fails, whatever it is doing. -/
  | fail (task : ServeTask) (error : Abort QuicSyncError)
  /-- The join of the tasks returns their results. -/
  | join
  /-- The join of the tasks returns the error of one of them. -/
  | abort (task : ServeTask)
  /-- The root is opened once more, and the commit is made. -/
  | commit (opened : Except QuicSyncError Unit)
  | acknowledge (fault : Option (ℕ × QuicSyncError))
  /-- A read of the control stream finds its end, more bytes, or an error. -/
  | close (rest : Except QuicSyncError (List Bytes))

namespace Destination

def start (cfg : Serving) (connection : Connection) (w : World) : Destination cfg.capacity where
  phase := .starting
  connection := connection
  control := .empty Control
  scanning := .running
  unscanned := cfg.scan.2
  indexing := .running
  records := Messages.new IndexMessage cfg.limits
  planning := .confirming
  requesting := .start w
  localIndex := .empty _ _
  remoteIndex := .empty _ _
  operations := .empty _ _
  controlRead := []
  indexRead := []
  confirmed := false
  readRemote := []
  readLocal := []
  emitted := []
  committed := none

variable {n : ℕ}

/-- Only while the tasks run. -/
def whenRunning (s : Destination n) (s' : Option (Destination n)) : Option (Destination n) :=
  match s.phase with
  | .running => s'
  | _ => none

/-- The first message: a start for a root that the peer is authorized for. -/
def acceptStart (cfg : Serving) (chunks : List Bytes)
    (fingerprint : Except QuicSyncError Bytes) (opened : Except QuicSyncError Unit) :
    Except (Abort QuicSyncError) RootHandle := do
  let (rootId, _) ← receiveStart cfg.limits chunks
  let fingerprint ← fingerprint.mapError .error
  let configured ← (authorizedRoot cfg.roots fingerprint rootId).mapError .error
  opened.mapError .error
  pure configured.root

/-- The scan sends its next item, or returns. -/
def scanStep (cfg : Serving) (s : Destination n) : Option (Destination n) :=
  match s.scanning, s.unscanned with
  | .running, item :: items =>
    (s.localIndex.send item).map fun
      | .ok channel => { s with localIndex := channel, unscanned := items }
      | .error () => { s with scanning := .returned (.error (.error Scan.consumerClosed)) }
  | .running, [] => some { s with scanning := .returned (cfg.scan.1.mapError .error) }
  | .returned _, _ => none

/-- Read a chunk of the index stream, when no message is waiting. -/
def readIndexStep (s : Destination n) (chunk : Except QuicSyncError Bytes) :
    Option (Destination n) :=
  match s.indexing, s.records.pending, chunk with
  | .running, [], .ok chunk =>
    let s := { s with indexRead := s.indexRead ++ chunk }
    match s.records.decoder.push chunk with
    | (.ok pending, decoder) =>
      some { s with records := { s.records with decoder := decoder, pending := pending } }
    | (.error e, decoder) =>
      some { s with
        records := { s.records with decoder := decoder }
        indexing := .returned (.error (Wire.codecFailure e)) }
  | .running, [], .error e => some { s with indexing := .returned (.error (.error e)) }
  | _, _, _ => none

/-- Forward the next message of the source's index. -/
def forwardStep (s : Destination n) : Option (Destination n) :=
  match s.indexing, s.records.pending with
  | .running, record :: pending =>
    (s.remoteIndex.send (.ok record)).map fun
      | .ok channel =>
        { s with
          remoteIndex := channel
          records := { s.records with pending := pending }
          indexing := if record = .end then .returned (.ok ()) else .running }
      | .error () =>
        { s with indexing := .returned (.error (.error (Wire.failure "channel closed"))) }
  | _, _ => none

/-- The planner's next read or send, or its next round. -/
def planStep (s : Destination n) : Option (Destination n) :=
  match s.planning with
  | .planning p =>
    match p.todo with
    | [] =>
      match p.advance with
      | some p => some { s with planning := .planning p }
      | none => some { s with planning := .ending }
    | .readSource :: todo =>
      s.remoteIndex.receive.map fun
        | some (item, channel) =>
          let s := { s with remoteIndex := channel, readRemote := s.readRemote ++ [item] }
          match PlanState.read (some item) with
          | .ok left => { s with planning := .planning { p with left := left, todo := todo } }
          | .error e => { s with planning := .returned (.error (.error e)) }
        | none =>
          { s with planning := .returned ((PlanState.read none).mapError .error |>.map fun _ => ()) }
    | .readDestination :: todo =>
      s.localIndex.receive.map fun
        | some (item, channel) =>
          let s := { s with localIndex := channel, readLocal := s.readLocal ++ [item] }
          match PlanState.read (some item) with
          | .ok right => { s with planning := .planning { p with right := right, todo := todo } }
          | .error e => { s with planning := .returned (.error (.error e)) }
        | none =>
          { s with planning := .returned ((PlanState.read none).mapError .error |>.map fun _ => ()) }
    | .send operation :: todo =>
      (s.operations.send operation).map fun
        | .ok channel =>
          { s with
            operations := channel
            emitted := s.emitted ++ [operation]
            planning := .planning { p with todo := todo } }
        | .error () =>
          { s with planning :=
              .returned (.error (.error (Planner.failure "operation consumer closed"))) }
  | _ => none

/-- An event of the requesting task, which takes its operations from the planner's channel. -/
def requestStep (cfg : Serving) (s : Destination n) (event : RequestEvent) :
    Option (Destination n) :=
  match event with
  | .receive operation =>
    match s.operations.receive with
    | some (some (next, channel)) =>
      if next = operation then
        (s.requesting.step cfg.root n event).map fun requesting =>
          { s with requesting := requesting, operations := channel }
      else none
    | _ => none
  | .ended =>
    match s.operations.receive with
    | some none =>
      (s.requesting.step cfg.root n event).map fun requesting => { s with requesting := requesting }
    | _ => none
  | event =>
    (s.requesting.step cfg.root n event).map fun requesting => { s with requesting := requesting }

/-- What a task has returned, if it has. -/
def resultOf (s : Destination n) : ServeTask → Option (Except (Abort QuicSyncError) Unit)
  | .scanning => match s.scanning with
    | .returned result => some result
    | _ => none
  | .indexing => match s.indexing with
    | .returned result => some result
    | _ => none
  | .planning => match s.planning with
    | .returned result => some result
    | _ => none
  | .requesting => match s.requesting.task with
    | .returned result => some result
    | _ => none

/-- A task that has not returned fails. -/
def failStep (cfg : Serving) (s : Destination n) (task : ServeTask) (e : Abort QuicSyncError) :
    Option (Destination n) :=
  match s.resultOf task, task with
  | some _, _ => none
  | none, .scanning => some { s with scanning := .returned (.error e) }
  | none, .indexing => some { s with indexing := .returned (.error e) }
  | none, .planning => some { s with planning := .returned (.error e) }
  | none, .requesting => requestStep cfg s (.fail e)

/-- The session is over. -/
def finish (s : Destination n) (result : Except (Abort QuicSyncError) Unit) : Destination n :=
  { s with phase := .returned result }

/-- What the requesting task has not given away is dropped with it. -/
def dropRequesting (s : Destination n) : Destination n :=
  { s with requesting :=
      if s.requesting.task.alive then s.requesting.abandon .dropped else s.requesting }

/-- Commit what has been retained. -/
def commitStep (cfg : Serving) (s : Destination n) (opened : Except QuicSyncError Unit) :
    Destination n :=
  match opened with
  | .error e => s.dropRequesting.finish (.error (.error e))
  | .ok () =>
    let (result, w) := (s.requesting.pending.commit cfg.root).run s.requesting.world
    let s := { s with committed := some result, requesting := { s.requesting with world := w } }
    match result with
    | .ok () => { s with phase := .acknowledging }
    | .error e => s.finish (.error (.error e))

/-- One event of the session. -/
def step (cfg : Serving) (s : Destination n) : ServeEvent → Option (Destination n)
  | .start chunks fingerprint opened =>
    match s.phase with
    | .starting =>
      let s := { s with controlRead := chunks.flatten }
      match acceptStart cfg chunks fingerprint opened with
      | .ok root => if root.path = cfg.root.path then some { s with phase := .running } else none
      | .error e => some (s.finish (.error e))
    | _ => none
  | .scan => s.whenRunning (s.scanStep cfg)
  | .readIndex chunk => s.whenRunning (s.readIndexStep chunk)
  | .forward => s.whenRunning s.forwardStep
  | .confirm handshake closeReason => s.whenRunning (
      match s.planning with
      | .confirming =>
        match s.connection.confirmHandshake handshake closeReason with
        | (.ok (), connection) =>
          some { s with connection := connection, confirmed := true, planning := .accepting }
        | (.error e, connection) =>
          some { s with connection := connection, planning := .returned (.error (.error e)) }
      | _ => none)
  | .accept fault => s.whenRunning (
      match s.planning with
      | .accepting =>
        match s.control.send cfg.limits .startAccepted fault with
        | (.ok (), control) =>
          some { s with control := control, planning := .planning PlanState.start }
        | (.error e, control) => some { s with control := control, planning := .returned (.error e) }
      | _ => none)
  | .plan => s.whenRunning s.planStep
  | .endPlan fault => s.whenRunning (
      match s.planning with
      | .ending =>
        let (result, control) := s.control.send cfg.limits .planEnd fault
        some { s with control := control, planning := .returned result }
      | _ => none)
  -- jobs go on when the session is over
  | .request (.job i event) => requestStep cfg s (.job i event)
  | .request (.discard i) => requestStep cfg s (.discard i)
  | .request event => s.whenRunning (requestStep cfg s event)
  | .closeLocal => some { s with localIndex := s.localIndex.close }
  | .closeRemote => some { s with remoteIndex := s.remoteIndex.close }
  | .closeOperations => some { s with operations := s.operations.close }
  | .fail task e => s.whenRunning (failStep cfg s task e)
  | .join => s.whenRunning (
      match s.resultOf .scanning, s.resultOf .indexing, s.resultOf .planning,
        s.resultOf .requesting with
      | some (.ok ()), some (.ok ()), some (.ok ()), some (.ok ()) =>
        some { s with phase := .committing }
      | _, _, _, _ => none)
  | .abort task => s.whenRunning (
      match s.resultOf task with
      | some (.error e) => some (s.dropRequesting.finish (.error e))
      | _ => none)
  | .commit opened =>
    match s.phase with
    | .committing => some (s.commitStep cfg opened)
    | _ => none
  | .acknowledge fault =>
    match s.phase with
    | .acknowledging =>
      match s.control.send cfg.limits .completeAck fault with
      | (.ok (), control) => some { s with control := control, phase := .closing }
      | (.error e, control) => some ({ s with control := control }.finish (.error e))
    | _ => none
  | .close rest =>
    match s.phase, rest with
    | .closing, .ok chunks => some (s.finish (finalControl chunks))
    | .closing, .error e => some (s.finish (.error (.error e)))
    | _, _ => none

end Destination

end QuicSync
