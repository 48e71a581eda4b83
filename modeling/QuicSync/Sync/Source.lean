import QuicSync.Process.Tasks
import QuicSync.Sync.Destination

/-!
# The source's end of a session

`run_inner` as a machine.  After it has asked for its root it runs three tasks at the same time:
`scanning` sends the index of the tree to `indexing`, which writes it to the index stream, and
`serving` answers requests for files until the destination acknowledges the commit.

The loop of `serving` waits for three things at once: a message on the control stream, a transfer
stream, and a job that returns.  Whichever comes first is handled, and the loop starts over.  What
waits for a message has no state of its own: bytes that have been read are in `Messages`, also when
another branch is taken before they make a message.  So reading a chunk (`readControl`) and taking a
message (`handle`) are events of their own here, and any others may come between them.

What a job writes on its stream and what it returns are given: `sendFile` is one such job.
-/

namespace QuicSync

/-- What a session of the source is given. -/
structure Sourcing where
  limits : Limits
  rootId : String
  /-- What the scan of the root returns, and what it sends. -/
  scan : Except QuicSyncError Unit × List IndexItem

/-- The number of transfers at a time, and of items in the channel. -/
def Sourcing.capacity (cfg : Sourcing) : ℕ := cfg.limits.maxParallelTransfers.toNat

/-- The tasks that run at the same time. -/
inductive SourceTask where
  | scanning
  | indexing
  | serving
  deriving DecidableEq

/-- Where the indexing task is. -/
inductive IndexTask where
  | confirming
  | sending
  /-- The end of the index has been sent, and the stream is to be finished. -/
  | finishing
  | returned (result : Except (Abort QuicSyncError) Unit)

/-- Where the serving task is. -/
inductive ServingTask where
  | confirming
  /-- It is in its loop, with its two flags. -/
  | looping (accepted planned : Bool)
  /-- The acknowledgment has been received: it waits for the jobs. -/
  | draining
  /-- It closes the control stream. -/
  | closing
  | returned (result : Except (Abort QuicSyncError) Unit)

/-- Where the session is. -/
inductive SourcePhase where
  /-- The streams are to be opened and the first message to be sent. -/
  | starting
  | running
  | returned (result : Except (Abort QuicSyncError) Unit)

/-- The state of a session, for a channel of `n` items. -/
structure Source (n : ℕ) where
  phase : SourcePhase
  connection : Connection
  control : Outgoing Control
  index : Outgoing IndexMessage
  scanning : TaskState
  /-- What the scan is still to send. -/
  unscanned : List IndexItem
  channel : Channel n IndexItem
  indexing : IndexTask
  serving : ServingTask
  messages : Messages Control
  completion : Completion
  /-- The jobs that have not been joined. -/
  jobs : List TaskState
  /-- The handshake has been confirmed. -/
  confirmed : Bool
  /-- The bytes read from the control stream. -/
  controlRead : Bytes
  /-- The messages that the loop has taken. -/
  handled : List Control
  /-- The number of transfer streams that have been accepted. -/
  accepted : ℕ
  /-- What the jobs that have been joined returned. -/
  results : List (Except (Abort QuicSyncError) Unit)
  /-- All that the jobs have written on their streams. -/
  responses : Bytes

/-- What a job can do next. -/
inductive SendEvent where
  | respond (bytes : Bytes)
  | return (result : Except (Abort QuicSyncError) Unit)

/-- What can happen next. -/
inductive SourceEvent where
  /-- The streams are opened, the first message is sent, and the root is opened. -/
  | start (streams : Except QuicSyncError Unit) (fault : Option (ℕ × QuicSyncError))
      (root : Except QuicSyncError Unit)
  | scan
  | confirmIndexing (handshake : Except QuicSyncError Bool) (closeReason : Option QuicSyncError)
  | sendIndex (fault : Option (ℕ × QuicSyncError))
  | finishIndex (result : Except QuicSyncError Unit)
  | confirmServing (handshake : Except QuicSyncError Bool) (closeReason : Option QuicSyncError)
  /-- A read of the control stream returns a chunk, finds its end, or fails. -/
  | readControl (chunk : Except QuicSyncError (Option Bytes))
  | handle
  /-- A transfer stream is accepted, the connection is found closed, or accepting fails. -/
  | accept (stream : Except QuicSyncError (Option Unit))
  | job (i : ℕ) (event : SendEvent)
  /-- The serving task joins a job that has returned. -/
  | joinJob (i : ℕ)
  /-- There are no more jobs. -/
  | drained
  /-- The control stream has been closed. -/
  | closed
  | closeChannel
  /-- A task fails, whatever it is doing. -/
  | fail (task : SourceTask) (error : Abort QuicSyncError)
  /-- The join of the tasks returns their results. -/
  | join
  /-- The join of the tasks returns the error of one of them. -/
  | abort (task : SourceTask)

/-- What the loop does with a message: the flags after it, or none where the loop ends. -/
def handleControl (accepted planned : Bool) :
    Control → Except QuicSyncError (Option (Bool × Bool))
  | .startAccepted =>
    if !accepted then .ok (some (true, planned))
    else .error (Wire.failure "unexpected destination control message")
  | .planEnd =>
    if accepted && !planned then .ok (some (accepted, true))
    else .error (Wire.failure "unexpected destination control message")
  | .completeAck =>
    if planned then .ok none
    else .error (Wire.failure "unexpected destination control message")
  | _ => .error (Wire.failure "unexpected destination control message")

namespace Source

def start (cfg : Sourcing) (connection : Connection) : Source cfg.capacity where
  phase := .starting
  connection := connection
  control := .empty Control
  index := .empty IndexMessage
  scanning := .running
  unscanned := cfg.scan.2
  channel := .empty _ _
  indexing := .confirming
  serving := .confirming
  messages := Messages.new Control cfg.limits
  completion := .unknown
  jobs := []
  confirmed := false
  controlRead := []
  handled := []
  accepted := 0
  results := []
  responses := []

variable {n : ℕ}

/-- Only while the tasks run. -/
def whenRunning (s : Source n) (s' : Option (Source n)) : Option (Source n) :=
  match s.phase with
  | .running => s'
  | _ => none

/-- The session is over. -/
def finish (s : Source n) (result : Except (Abort QuicSyncError) Unit) : Source n :=
  { s with phase := .returned result }

/-- Ask for the root, and open it. -/
def startStep (cfg : Sourcing) (s : Source n) (streams : Except QuicSyncError Unit)
    (fault : Option (ℕ × QuicSyncError)) (root : Except QuicSyncError Unit) : Source n :=
  match streams with
  | .error e => s.finish (.error (.error e))
  | .ok () =>
    match s.control.send cfg.limits (.startSync cfg.rootId) fault with
    | (.error e, control) => { s with control := control }.finish (.error e)
    | (.ok (), control) =>
      match root with
      | .error e => { s with control := control }.finish (.error (.error e))
      | .ok () => { s with control := control, phase := .running }

/-- The scan sends its next item, or returns. -/
def scanStep (cfg : Sourcing) (s : Source n) : Option (Source n) :=
  match s.scanning, s.unscanned with
  | .running, item :: items =>
    (s.channel.send item).map fun
      | .ok channel => { s with channel := channel, unscanned := items }
      | .error () => { s with scanning := .returned (.error (.error Scan.consumerClosed)) }
  | .running, [] => some { s with scanning := .returned (cfg.scan.1.mapError .error) }
  | .returned _, _ => none

/-- Send the next item of the index. -/
def sendIndexStep (cfg : Sourcing) (s : Source n) (fault : Option (ℕ × QuicSyncError)) :
    Option (Source n) :=
  match s.indexing with
  | .sending =>
    s.channel.receive.map fun
      | none =>
        { s with
          indexing := .returned (.error (.error
            (Wire.failure "source index closed without End"))) }
      | some (.error e, channel) =>
        { s with channel := channel, indexing := .returned (.error (.error e)) }
      | some (.ok message, channel) =>
        match s.index.send cfg.limits message fault with
        | (.error e, index) =>
          { s with channel := channel, index := index, indexing := .returned (.error e) }
        | (.ok (), index) =>
          { s with
            channel := channel
            index := index
            indexing := if message = .end then .finishing else .sending }
  | _ => none

/-- Read a chunk of the control stream, when no message is waiting. -/
def readControlStep (s : Source n) (chunk : Except QuicSyncError (Option Bytes)) :
    Option (Source n) :=
  match s.serving, s.messages.pending, chunk with
  | .looping _ _, [], .ok (some chunk) =>
    let s := { s with controlRead := s.controlRead ++ chunk }
    match s.messages.decoder.push chunk with
    | (.ok pending, decoder) =>
      some { s with messages := { s.messages with decoder := decoder, pending := pending } }
    | (.error e, decoder) =>
      some { s with
        messages := { s.messages with decoder := decoder }
        serving := .returned (.error (Wire.codecFailure e)) }
  | .looping _ _, [], .ok none =>
    some { s with
      serving := .returned (.error (.error
        (Wire.failure "stream closed before expected message"))) }
  | .looping _ _, [], .error e => some { s with serving := .returned (.error (.error e)) }
  | _, _, _ => none

/-- Take the next message. -/
def handleStep (s : Source n) : Option (Source n) :=
  match s.serving, s.messages.pending with
  | .looping accepted planned, message :: pending =>
    let s := { s with
      messages := { s.messages with pending := pending }
      handled := s.handled ++ [message] }
    match handleControl accepted planned message with
    | .ok (some (accepted, planned)) => some { s with serving := .looping accepted planned }
    | .ok none => some { s with serving := .draining }
    | .error e => some { s with serving := .returned (.error (.error e)) }
  | _, _ => none

/-- Accept a transfer stream and start its job, if there may be one more. -/
def acceptStep (s : Source n) (stream : Except QuicSyncError (Option Unit)) : Option (Source n) :=
  match s.serving with
  | .looping _ _ =>
    if s.jobs.length < n then
      match stream with
      | .ok (some ()) => some { s with jobs := s.jobs ++ [.running], accepted := s.accepted + 1 }
      | .ok none =>
        some { s with
          serving := .returned (.error (.error
            (Wire.failure "connection closed before completion"))) }
      | .error e => some { s with serving := .returned (.error (.error e)) }
    else none
  | _ => none

/-- One event of a job. -/
def jobStep (s : Source n) (i : ℕ) (event : SendEvent) : Option (Source n) :=
  match s.jobs[i]?, event with
  | some .running, .respond bytes => some { s with responses := s.responses ++ bytes }
  | some .running, .return result => some { s with jobs := s.jobs.set i (.returned result) }
  | _, _ => none

/-- Take the result of a job. -/
def joinJobStep (s : Source n) (i : ℕ) : Option (Source n) :=
  let joined (result : Except (Abort QuicSyncError) Unit) : Source n :=
    let s := { s with jobs := s.jobs.eraseIdx i, results := s.results ++ [result] }
    match result with
    | .ok () => s
    | .error e => { s with serving := .returned (.error e) }
  match s.serving, s.jobs[i]? with
  | .looping _ _, some (.returned result) => some (joined result)
  | .draining, some (.returned result) => some (joined result)
  | _, _ => none

/-- What a task has returned, if it has. -/
def resultOf (s : Source n) : SourceTask → Option (Except (Abort QuicSyncError) Unit)
  | .scanning => match s.scanning with
    | .returned result => some result
    | _ => none
  | .indexing => match s.indexing with
    | .returned result => some result
    | _ => none
  | .serving => match s.serving with
    | .returned result => some result
    | _ => none

/-- A task that has not returned fails. -/
def failStep (s : Source n) (task : SourceTask) (e : Abort QuicSyncError) : Option (Source n) :=
  match s.resultOf task, task with
  | some _, _ => none
  | none, .scanning => some { s with scanning := .returned (.error e) }
  | none, .indexing => some { s with indexing := .returned (.error e) }
  | none, .serving => some { s with serving := .returned (.error e) }

/-- One event of the session. -/
def step (cfg : Sourcing) (s : Source n) : SourceEvent → Option (Source n)
  | .start streams fault root =>
    match s.phase with
    | .starting => some (s.startStep cfg streams fault root)
    | _ => none
  | .scan => s.whenRunning (s.scanStep cfg)
  | .confirmIndexing handshake closeReason => s.whenRunning (
      match s.indexing with
      | .confirming =>
        match s.connection.confirmHandshake handshake closeReason with
        | (.ok (), connection) =>
          some { s with connection := connection, confirmed := true, indexing := .sending }
        | (.error e, connection) =>
          some { s with connection := connection, indexing := .returned (.error (.error e)) }
      | _ => none)
  | .sendIndex fault => s.whenRunning (s.sendIndexStep cfg fault)
  | .finishIndex result => s.whenRunning (
      match s.indexing with
      | .finishing => some { s with indexing := .returned (result.mapError .error) }
      | _ => none)
  | .confirmServing handshake closeReason => s.whenRunning (
      match s.serving with
      | .confirming =>
        match s.connection.confirmHandshake handshake closeReason with
        | (.ok (), connection) =>
          some { s with
            connection := connection
            confirmed := true
            serving := .looping false false }
        | (.error e, connection) =>
          some { s with connection := connection, serving := .returned (.error (.error e)) }
      | _ => none)
  | .readControl chunk => s.whenRunning (s.readControlStep chunk)
  | .handle => s.whenRunning s.handleStep
  | .accept stream => s.whenRunning (s.acceptStep stream)
  -- a job that has been started goes on until it is stopped
  | .job i event => s.jobStep i event
  | .joinJob i => s.whenRunning (s.joinJobStep i)
  | .drained => s.whenRunning (
      match s.serving, s.jobs with
      | .draining, [] => some { s with completion := .acknowledged, serving := .closing }
      | _, _ => none)
  | .closed => s.whenRunning (
      match s.serving with
      | .closing =>
        some { s with serving := .returned (s.completion.intoResult.mapError .error) }
      | _ => none)
  | .closeChannel => some { s with channel := s.channel.close }
  | .fail task e => s.whenRunning (s.failStep task e)
  | .join => s.whenRunning (
      match s.resultOf .scanning, s.resultOf .indexing, s.resultOf .serving with
      | some (.ok ()), some (.ok ()), some (.ok ()) => some (s.finish (.ok ()))
      | _, _, _ => none)
  | .abort task => s.whenRunning (
      match s.resultOf task with
      | some (.error e) => some (s.finish (.error e))
      | _ => none)

end Source

end QuicSync
