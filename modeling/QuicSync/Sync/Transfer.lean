import QuicSync.Filesystem.Regular
import QuicSync.Sync.Readers
import QuicSync.Sync.Wire

/-!
# File transfer

One stream carries one file.  The destination sends a request (`receiveFile`); the source answers
with the whole file, or with a delta against the signature of the destination's file (`sendFile`).
The destination writes what it receives to a temporary file and acknowledges it.

A `TransferStream` is one end of a stream: what the reads to come return and how they end, and what
has been sent.  Signatures, deltas and patches are the work of a library, `Librsync`, which is a
parameter here.  How reads cut a content into pieces, `cut`, is a parameter too.

Within an end, a task and a blocking worker run at the same time and are joined: the first error
ends both.  Here the task's messages come first and the worker's work on them after: what the worker
has read when the task fails ends without its marker, so the worker fails as well.
-/

namespace QuicSync

open Posix

/-- One end of a stream. -/
structure TransferStream where
  bounds : TransportBounds
  /-- What the reads to come return. -/
  incoming : List Bytes
  /-- How the reads end: the peer has finished, or the connection is lost. -/
  lost : Option QuicSyncError
  /-- The frames sent. -/
  outgoing : List Bytes
  /-- After how many frames sending fails, and how, if it does. -/
  breaks : Option (ℕ × QuicSyncError)
  /-- Nothing more will be sent. -/
  finished : Bool

namespace TransferStream

/-- Write a frame: the connection takes it, or has failed. -/
def write (stream : TransferStream) : Except QuicSyncError Unit :=
  match stream.breaks with
  | some (n, error) => if n ≤ stream.outgoing.length then .error error else .ok ()
  | none => .ok ()

end TransferStream

namespace Transfer

/-- An error of this module for the end of a codec function. -/
def codecFailure : Abort CodecError → Abort QuicSyncError
  | .error error => .error (failure error.message)
  | .panic => .panic

/-- The messages of one end of a stream. -/
structure Wire where
  stream : TransferStream
  limits : CodecLimits
  decoder : Decoder
  /-- Messages that are complete and have not been taken. -/
  pending : List FileTransfer
  chunkSize : ℕ

/-- A computation on one end of a stream. -/
abbrev TransferM := Fallible (Abort QuicSyncError) Wire

/-- The longest piece of content that is sent in one frame; a frame needs some bytes of its own. -/
def chunkSize (limits : Limits) : Except QuicSyncError ℕ :=
  if limits.maxFrameBytes.toNat - 32 > 0 then .ok (min (limits.maxFrameBytes.toNat - 32) (64 * 1024))
  else .error (failure "transfer frame limit is too small")

namespace Wire

def new (stream : TransferStream) (limits : Limits) : Except QuicSyncError Wire := do
  let size ← Transfer.chunkSize limits
  .ok ⟨stream, CodecLimits.ofLimits limits, Decoder.new (CodecLimits.ofLimits limits), [], size⟩

/-- Send a message. -/
def send (message : FileTransfer) : TransferM Unit := fun s =>
  match encode message s.limits with
  | .error e => (.error (codecFailure e), s)
  | .ok frame =>
    match sendBounded s.stream.bounds (fun _ => s.stream.write) frame.1 with
    | .error e => (.error (.error e), s)
    | .ok () => (.ok (), { s with stream := { s.stream with
        outgoing := s.stream.outgoing ++ [frame.1] } })

/-- Finish the outgoing direction. -/
def finish : TransferM Unit :=
  Fallible.modify fun s => { s with stream := { s.stream with finished := true } }

/-- The loop of `next` over the reads to come. -/
def nextFrom : List Bytes → Wire → Except (Abort QuicSyncError) FileTransfer × Wire
  | [], s =>
    match s.pending with
    | message :: pending =>
      (.ok message, { s with pending := pending, stream := { s.stream with incoming := [] } })
    | [] => (.error (.error (s.stream.lost.getD
        (failure "transfer closed before expected message"))),
        { s with stream := { s.stream with incoming := [] } })
  | chunk :: chunks, s =>
    match s.pending with
    | message :: pending =>
      (.ok message,
        { s with pending := pending, stream := { s.stream with incoming := chunk :: chunks } })
    | [] =>
      match s.decoder.push chunk with
      | (.error e, decoder) => (.error (codecFailure e),
          { s with decoder := decoder, stream := { s.stream with incoming := chunks } })
      | (.ok pending, decoder) => nextFrom chunks { s with decoder := decoder, pending := pending }

/-- Take the next message. -/
def next : TransferM FileTransfer := fun s => nextFrom s.stream.incoming s

/-- What is left to take. -/
def todo (s : Wire) : ℕ × ℕ := (s.stream.incoming.length, s.pending.length)

theorem nextFrom_pending {chunks : List Bytes} {s : Wire} {message : FileTransfer}
    {pending : List FileTransfer} (h : s.pending = message :: pending) :
    nextFrom chunks s = (.ok message,
      { s with pending := pending, stream := { s.stream with incoming := chunks } }) := by
  cases chunks with
  | nil =>
    unfold nextFrom
    simp only [h]
  | cons chunk chunks =>
    unfold nextFrom
    simp only [h]

theorem nextFrom_nil {s : Wire} (h : s.pending = []) : nextFrom [] s =
    (.error (.error (s.stream.lost.getD (failure "transfer closed before expected message"))),
      { s with stream := { s.stream with incoming := [] } }) := by
  unfold nextFrom
  simp only [h]

theorem nextFrom_error {chunk : Bytes} {chunks : List Bytes} {s : Wire} {e : Abort CodecError}
    {decoder : Decoder} (h : s.pending = [])
    (hpush : s.decoder.push (T := FileTransfer) chunk = (.error e, decoder)) :
    nextFrom (chunk :: chunks) s = (.error (codecFailure e),
      { s with decoder := decoder, stream := { s.stream with incoming := chunks } }) := by
  conv_lhs => unfold nextFrom
  simp only [h, hpush]

theorem nextFrom_push {chunk : Bytes} {chunks : List Bytes} {s : Wire} {pending : List FileTransfer}
    {decoder : Decoder} (h : s.pending = [])
    (hpush : s.decoder.push chunk = (.ok pending, decoder)) :
    nextFrom (chunk :: chunks) s =
      nextFrom chunks { s with decoder := decoder, pending := pending } := by
  conv_lhs => unfold nextFrom
  simp only [h, hpush]

theorem length_incoming_nextFrom {chunks : List Bytes} {s s' : Wire} {message : FileTransfer}
    (h : nextFrom chunks s = (.ok message, s')) : s'.stream.incoming.length ≤ chunks.length := by
  fun_induction nextFrom chunks s with
  | case1 s m pending hpending =>
    cases h
    exact Nat.zero_le _
  | case2 s hpending => cases h
  | case3 chunk chunks s m pending hpending =>
    cases h
    exact le_rfl
  | case4 chunk chunks s hpending e decoder hpush => cases h
  | case5 chunk chunks s hpending pending decoder hpush ih => exact (ih h).trans (Nat.le_succ _)

theorem todo_next {s s' : Wire} {message : FileTransfer} (h : next s = (.ok message, s')) :
    Prod.Lex (· < ·) (· < ·) s'.todo s.todo := by
  unfold next at h
  unfold todo
  cases hpending : s.pending with
  | cons m pending =>
    rw [nextFrom_pending hpending] at h
    cases h
    exact Prod.Lex.right _ (Nat.lt_succ_self _)
  | nil =>
    -- without pending messages at least one chunk is taken
    refine Prod.Lex.left _ _ ?_
    rcases hincoming : s.stream.incoming with _ | ⟨chunk, chunks⟩
    · rw [hincoming, nextFrom_nil hpending] at h
      cases h
    · rw [hincoming] at h
      rcases hpush : s.decoder.push (T := FileTransfer) chunk with ⟨e | pending, decoder⟩
      · rw [nextFrom_error hpending hpush] at h
        cases h
      · rw [nextFrom_push hpending hpush] at h
        exact Nat.lt_succ_of_le (length_incoming_nextFrom h)

/-- Take messages that carry bytes up to the message `stop`: the bytes, and the result.  Another
message is an error. -/
def collect (bytesOf : FileTransfer → Option Bytes) (stop : FileTransfer) (unexpected : String)
    (s : Wire) : List Bytes × Except (Abort QuicSyncError) Unit × Wire :=
  match _h : next s with
  | (.error e, s') => ([], .error e, s')
  | (.ok message, s') =>
    match bytesOf message with
    | some bytes =>
      let (chunks, result) := collect bytesOf stop unexpected s'
      (bytes :: chunks, result)
    | none =>
      if message = stop then ([], .ok (), s')
      else ([], .error (.error (failure unexpected)), s')
termination_by s.todo
decreasing_by exact todo_next _h

/-- Send pieces of content, one message each. -/
def sendAll (message : Bytes → FileTransfer) : List Bytes → TransferM Unit
  | [] => pure ()
  | bytes :: chunks => do
    send (message bytes)
    sendAll message chunks

end Wire

/-- A reader in a worker of a library: what reading it delivers, unless it cannot be made. -/
abbrev Made := Except String Content

/-- The library for signatures, deltas and patches, on the content of the readers given to it. -/
structure Librsync where
  /-- The signature of a basis. -/
  signature : Bytes → Made
  /-- The delta of a content against a signature. -/
  delta : Bytes → Content → Made
  /-- The content that a basis and a delta give. -/
  patch : Bytes → Content → Made

/-- What an end of a transfer is given. -/
structure Setup where
  librsync : Librsync
  /-- What the reads of a content return, for a buffer of the given size. -/
  cut : ℕ → Bytes → List Bytes
  /-- The size of the buffer that a worker copies through. -/
  bufferSize : ℕ

/-- The bytes of a piece of a whole file. -/
def wholeFileBytes : FileTransfer → Option Bytes
  | .wholeFile bytes => some bytes
  | _ => none

/-- The bytes of a piece of a signature. -/
def signatureBytes : FileTransfer → Option Bytes
  | .signature bytes => some bytes
  | _ => none

/-- The bytes of a piece of a delta. -/
def deltaBytes : FileTransfer → Option Bytes
  | .delta bytes => some bytes
  | _ => none

/-- Produce chunks of a content and send them. -/
def sendContent (setup : Setup) (message : Bytes → FileTransfer) (content : Content) :
    TransferM Unit := do
  let s ← Fallible.get
  let (chunks, result) := produce (setup.cut s.chunkSize content.bytes) content.interrupted
  Wire.sendAll message chunks
  Fallible.lift (result.mapError .error)

/-- End the answer and wait until it is acknowledged. -/
def awaitAccepted (id : OperationId) : TransferM Unit := do
  Wire.send .transferEnd
  Wire.finish
  match ← Wire.next with
  | .transferAccepted accepted =>
    if id = accepted then pure ()
    else Fallible.fail (.error (failure "expected transfer acknowledgment"))
  | _ => Fallible.fail (.error (failure "expected transfer acknowledgment"))

/-- What the worker reads of collected pieces: the pieces, and the marker after all of them. -/
def collected (setup : Setup) (chunks : List Bytes) (complete : Bool) : Content :=
  (Input.new (chunks.map .data ++ if complete then [.end] else [])).copy setup.bufferSize

/-- Receive a signature and answer with a delta against it. -/
def answerUpdate (setup : Setup) (source : Bytes) : TransferM Unit := fun s =>
  match Wire.collect signatureBytes .signatureEnd "expected signature" s with
  | (_, .error e, s') => (.error e, s')
  | (chunks, .ok (), s') =>
    match setup.librsync.delta source (collected setup chunks true) with
    | .error message => (.error (.error (failure message)), s')
    | .ok delta => sendContent setup .delta delta s'

/-- The request that opens a transfer: its identifier, its path, and whether it is for an update. -/
def receiveRequest : TransferM (OperationId × RelativePath × Bool) := do
  match ← Wire.next with
  | .updateRequest id path => pure (id, path, true)
  | .createRequest id path => pure (id, path, false)
  | _ => Fallible.fail (.error (failure "expected file request"))

/-- The content of the source's file. -/
def sourceContent (w : World) (root : RootHandle) (path : RelativePath) :
    Except QuicSyncError Bytes := do
  match ← openRegular w root path with
  | some file => .ok (contentOf w file)
  | none => .error (failure "source file missing")

/-- The source responds to a create or update request that the destination initiated. -/
def sendFile (setup : Setup) (w : World) (root : RootHandle) : TransferM Unit := do
  let (id, path, update) ← receiveRequest
  let source ← Fallible.lift ((sourceContent w root path).mapError .error)
  if update then answerUpdate setup source
  else sendContent setup .wholeFile ⟨source, none⟩
  awaitAccepted id

/-! ### The destination -/

/-- A staged file and what it was requested for. -/
structure ReceivedFile where
  id : OperationId
  path : RelativePath
  file : StagedFile

/-- One end of a stream, and the file system that the file is staged on. -/
structure Receiver where
  wire : Wire
  world : World

/-- A computation of the destination's end. -/
abbrev ReceiveM := Fallible (Abort QuicSyncError) Receiver

/-- A computation on the stream only. -/
def onWire {α : Type} (m : TransferM α) : ReceiveM α :=
  m.zoom Receiver.wire fun wire s => { s with wire := wire }

/-- A computation on the file system only. -/
def onFiles {α : Type} (m : FsM α) : ReceiveM α := fun s =>
  (((m s.world).1).mapError .error, { s with world := (m s.world).2 })

/-- Collect the answer while the worker stages it: the worker's result, and the task's. -/
def stageAnswer (bytesOf : FileTransfer → Option Bytes) (unexpected : String)
    (worker : List Bytes → Bool → ReceiveM StagedFile) : ReceiveM StagedFile := fun s =>
  match Wire.collect bytesOf .transferEnd unexpected s.wire with
  | (chunks, .ok (), wire) => worker chunks true { s with wire := wire }
  | (chunks, .error e, wire) =>
    -- a file that the worker has staged all the same is dropped
    match worker chunks false { s with wire := wire } with
    | (.ok file, s') => (.error e, ((onFiles file.drop) s').2)
    | (.error _, s') => (.error e, s')

/-- Copy a reader to a temporary file; the reader may not be made. -/
def stageMade (directory : Path) (random : Option (Vector UInt8 16)) (made : Made) :
    ReceiveM StagedFile :=
  match made with
  | .error message => Fallible.fail (.error (failure message))
  | .ok content => onFiles (StagedFile.receiveIn directory random content)

/-- Acknowledge a staged file. -/
def acknowledge (id : OperationId) (path : RelativePath) (file : StagedFile) :
    ReceiveM ReceivedFile := do
  Fallible.onError (onWire (Wire.send (.transferAccepted id))) (onFiles file.drop)
  onWire Wire.finish
  pure ⟨id, path, file⟩

/-- The content of the destination's file. -/
def basisContent (root : RootHandle) (path : RelativePath) (w : World) :
    Except QuicSyncError Bytes := do
  match ← openRegular w root path with
  | some file => .ok (contentOf w file)
  | none => .error (failure "update basis missing")

/-- The destination requests the content of a file and stages it. -/
def receiveFile (setup : Setup) (root : RootHandle) (directory : Path)
    (random : Option (Vector UInt8 16)) (id : OperationId) (path : RelativePath) (update : Bool) :
    ReceiveM ReceivedFile := do
  onWire (Wire.send (if update then .updateRequest id path else .createRequest id path))
  let file ← (if update then do
      let s ← Fallible.get
      let basis ← Fallible.lift ((basisContent root path s.world).mapError .error)
      let signature ← Fallible.lift
        ((setup.librsync.signature basis).mapError fun message => .error (failure message))
      onWire (sendContent setup .signature signature)
      onWire (Wire.send .signatureEnd)
      stageAnswer deltaBytes "expected delta" fun chunks complete =>
        stageMade directory random (setup.librsync.patch basis (collected setup chunks complete))
    else
      stageAnswer wholeFileBytes "expected whole-file bytes" fun chunks complete =>
        stageMade directory random (.ok (collected setup chunks complete)))
  acknowledge id path file

/-! ### On a stream -/

/-- `sendFile` on a stream: its result, and the stream after it. -/
def sendFileOn (setup : Setup) (limits : Limits) (w : World) (root : RootHandle)
    (stream : TransferStream) : Except (Abort QuicSyncError) Unit × TransferStream :=
  match Wire.new stream limits with
  | .error e => (.error (.error e), stream)
  | .ok wire => (((sendFile setup w root).run wire).1, ((sendFile setup w root).run wire).2.stream)

/-- `receiveFile` on a stream: its result, and the stream and the file system after it. -/
def receiveFileOn (setup : Setup) (limits : Limits) (root : RootHandle) (directory : Path)
    (random : Option (Vector UInt8 16)) (id : OperationId) (path : RelativePath) (update : Bool)
    (w : World) (stream : TransferStream) :
    Except (Abort QuicSyncError) ReceivedFile × TransferStream × World :=
  match Wire.new stream limits with
  | .error e => (.error (.error e), stream, w)
  | .ok wire =>
    let (result, s) := (receiveFile setup root directory random id path update).run ⟨wire, w⟩
    (result, s.wire.stream, s.world)

end Transfer

end QuicSync
