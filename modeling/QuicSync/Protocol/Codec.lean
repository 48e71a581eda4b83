import QuicSync.Protocol.Varint
import QuicSync.Numeral.LittleEndian

/-!
# The wire codec

The encoder and the one-shot decoder of length-delimited frames, as the program computes them.

A `Writer` appends fields to a payload and a `Reader` takes them off at an offset; both carry the
local limits.  `encode` writes a message's kind, version and fields and puts the length in front;
`decode` checks the frame length and reads them back, refusing anything left over.

Sizes are those of a 64-bit target.  A `Slice` is a byte string a program can hold: the language
keeps every slice and every vector at `isizeMax` bytes or below.
-/

namespace QuicSync

/-- The number of values of a machine word. -/
def wordSize : ℕ := 2 ^ 64

/-- The longest slice or vector, in bytes. -/
def isizeMax : ℕ := 2 ^ 63 - 1

/-- A byte string that fits a slice. -/
abbrev Slice := {bytes : Bytes // bytes.length ≤ isizeMax}

/-- Bytes of the version field of a payload. -/
def versionBytes : ℕ := 2

/-- Bytes of the kind field of a payload. -/
def kindBytes : ℕ := 1

/-- Local bounds applied to every encoded and decoded value. -/
structure CodecLimits where
  /-- The longest payload. -/
  maxFrameBytes : UInt64
  /-- The most bytes in the components of a path. -/
  maxPathBytes : UInt64
  /-- The most components of a path. -/
  maxComponents : UInt64
  /-- The most items of a collection. -/
  maxCollectionItems : UInt64
  deriving DecidableEq

/-- Limits from explicit values. -/
def CodecLimits.new (maxFrameBytes maxPathBytes maxComponents maxCollectionItems : UInt64) :
    CodecResult CodecLimits :=
  if maxFrameBytes.toNat < kindBytes + versionBytes then codecError .invalidLimits
  else if maxPathBytes = 0 ∨ maxPathBytes > maxFrameBytes ∨ maxComponents = 0 ∨
      maxCollectionItems = 0 then
    codecError .invalidLimits
  else .ok ⟨maxFrameBytes, maxPathBytes, maxComponents, maxCollectionItems⟩

/-! ### The writer -/

/-- The payload written so far. -/
structure Writer where
  /-- The bytes written. -/
  bytes : Bytes
  /-- The local limits. -/
  limits : CodecLimits

/-- A computation that appends to a payload. -/
abbrev WriteM := StateT Writer CodecResult

namespace Writer

/-- Append raw bytes. -/
def raw (value : Bytes) : WriteM Unit := modify fun w => { w with bytes := w.bytes ++ value }

def u8 (value : UInt8) : WriteM Unit := raw [value]

def u16 (value : UInt16) : WriteM Unit := raw (LittleEndian.bytes 2 value.toNat)

def u32 (value : UInt32) : WriteM Unit := raw (LittleEndian.bytes 4 value.toNat)

def u64 (value : UInt64) : WriteM Unit := raw (LittleEndian.bytes 8 value.toNat)

/-- The two's complement of the value. -/
def i128 (value : I128) : WriteM Unit :=
  raw (LittleEndian.bytes 16 (value.val % 2 ^ 128).toNat)

/-- A length prefix; the length is cast to 64 bits. -/
def length (value : ℕ) : WriteM Unit :=
  modify fun w => { w with bytes := putVarint (UInt64.ofNat value) w.bytes }

def bytes' (value : Bytes) : WriteM Unit := do
  length value.length
  raw value

def string (value : String) : WriteM Unit := bytes' value.toByteArray.data.toList

def digest (value : Digest) : WriteM Unit := raw value.bytes

/-- The number of bytes in the components, with checked addition. -/
def pathTotal (components : List Bytes) : CodecResult ℕ :=
  components.foldlM (fun total component =>
    if total + component.length < wordSize then pure (total + component.length)
    else codecError (.limitExceeded "path bytes")) 0

def path (path : RelativePath) : WriteM Unit := do
  let limits := (← get).limits
  ensure (path.components.length ≤ limits.maxComponents.toNat) (.limitExceeded "path components")
  let total ← pathTotal path.components
  ensure (total ≤ limits.maxPathBytes.toNat) (.limitExceeded "path bytes")
  length path.components.length
  path.components.forM bytes'

def optional {α : Type} (value : Option α) (write : α → WriteM Unit) : WriteM Unit :=
  match value with
  | some value => do
    u8 1
    write value
  | none => u8 0

def entryKind (value : EntryKind) : WriteM Unit :=
  u8 (match value with
    | .directory => 1
    | .regularFile => 2
    | .symlink => 3)

def record (value : IndexRecord) : WriteM Unit := do
  path value.path
  entryKind value.metadata.kind
  u32 value.metadata.mode
  i128 value.metadata.mtimeNs
  u64 value.metadata.size
  optional value.digest digest
  optional value.symlinkTarget bytes'

def upsert (tag : UInt8) (id : OperationId) (value : IndexRecord) : WriteM Unit := do
  u8 tag
  u64 id.get
  record value

def operation (value : Operation) : WriteM Unit :=
  match value with
  | .upsertDirectory id record => upsert 1 id record
  | .upsertFile update id record => upsert (if update then 5 else 2) id record
  | .upsertSymlink id record => upsert 3 id record
  | .delete id path' expectedKind => do
    u8 4
    u64 id.get
    path path'
    entryKind expectedKind

/-- The tag of a phase. -/
def phaseTag : Phase → UInt8
  | .handshake => 1
  | .policy => 2
  | .indexing => 3
  | .planning => 4
  | .transferring => 5
  | .readyToCommit => 6
  | .committing => 7
  | .complete => 8
  | .failed => 9

def failure (value : WireFailure) : WriteM Unit := do
  u16 value.code.toUInt16
  string value.message
  u8 (phaseTag value.phase)
  optional value.operationId fun id => u64 id.get
  optional value.path path

end Writer

/-! ### The reader -/

/-- A payload and how much of it has been read. -/
structure Reader where
  /-- The whole payload. -/
  bytes : Bytes
  /-- The number of bytes read. -/
  offset : ℕ
  /-- The local limits. -/
  limits : CodecLimits

/-- A computation that reads from a payload. -/
abbrev ReadM := StateT Reader CodecResult

namespace Reader

def new (bytes : Bytes) (limits : CodecLimits) : Reader := ⟨bytes, 0, limits⟩

/-- The next `length` bytes; the end of the range is a checked addition. -/
def take (length : ℕ) : ReadM Bytes := fun r =>
  if r.offset + length < wordSize then
    if r.offset + length ≤ r.bytes.length then
      .ok ((r.bytes.drop r.offset).take length, { r with offset := r.offset + length })
    else codecError .unexpectedEof
  else codecError .unexpectedEof

/-- The next `n` bytes as a number, least significant byte first. -/
def littleEndian (n : ℕ) : ReadM ℕ := do
  let bytes ← take n
  pure (LittleEndian.value bytes)

def u8 : ReadM UInt8 := do pure (UInt8.ofNat (← littleEndian 1))

def u16 : ReadM UInt16 := do pure (UInt16.ofNat (← littleEndian 2))

def u32 : ReadM UInt32 := do pure (UInt32.ofNat (← littleEndian 4))

def u64 : ReadM UInt64 := do pure (UInt64.ofNat (← littleEndian 8))

/-- The 128-bit integer with the given two's complement. -/
def toI128 (n : ℕ) : I128 :=
  if h : n % 2 ^ 128 < 2 ^ 127 then ⟨(n % 2 ^ 128 : ℕ), by omega⟩
  else ⟨(n % 2 ^ 128 : ℕ) - 2 ^ 128, by omega⟩

def i128 : ReadM I128 := do pure (toI128 (← littleEndian 16))

/-- A length prefix; slicing past the end of the payload panics. -/
def length : ReadM ℕ := fun r =>
  if r.offset ≤ r.bytes.length then do
    let (value, used) ← parseVarint (r.bytes.drop r.offset)
    .ok (value.toNat, { r with offset := r.offset + used })
  else codecPanic

def boundedLength (maximum : ℕ) (name : String) : ReadM ℕ := do
  let length ← length
  ensure (length ≤ maximum) (.limitExceeded name)
  pure length

def bytes' : ReadM Bytes := do
  let length ← boundedLength (← get).limits.maxFrameBytes.toNat "field bytes"
  take length

def string : ReadM String := do
  let bytes ← bytes'
  (match String.fromUTF8? ⟨bytes.toArray⟩ with
    | some value => .ok value
    | none => codecError (.invalidValue "UTF-8 string") : CodecResult String)

/-- A digest; the number of bytes taken is the size of a digest. -/
def digest : ReadM Digest := do
  let bytes ← take 32
  (if h : bytes.length = 32 then .ok ⟨bytes, h⟩ else codecPanic : CodecResult Digest)

def optional {α : Type} (read : ReadM α) : ReadM (Option α) := do
  match ← u8 with
  | 0 => pure none
  | 1 => do pure (some (← read))
  | _ => codecError (.invalidValue "optional tag")

/-- The loop of `path`: `count` components are left, `total` bytes have been used. -/
def pathComponents (maxPathBytes : ℕ) : ℕ → ℕ → ReadM (List Bytes)
  | 0, _ => pure []
  | count + 1, total => do
    let remaining ← checkedSub maxPathBytes total
    let length ← boundedLength remaining "path bytes"
    let component ← take length
    pure (component :: (← pathComponents maxPathBytes count (total + length)))

def path : ReadM RelativePath := do
  let limits := (← get).limits
  let count ← boundedLength limits.maxComponents.toNat "path components"
  ensure (count ≠ 0) (.invalidValue "relative path")
  let components ← pathComponents limits.maxPathBytes.toNat count 0
  ((RelativePath.new components).mapError fun _ => .error (.invalidValue "relative path") :
    CodecResult RelativePath)

def entryKind : ReadM EntryKind := do
  match ← u8 with
  | 1 => pure .directory
  | 2 => pure .regularFile
  | 3 => pure .symlink
  | _ => codecError (.invalidValue "entry kind")

def record : ReadM IndexRecord := do
  let path ← path
  let kind ← entryKind
  let mode ← u32
  let mtimeNs ← i128
  let size ← u64
  let digest ← optional digest
  let symlinkTarget ← optional bytes'
  pure { path, metadata := { kind, mode, mtimeNs, size }, digest, symlinkTarget }

def operationId : ReadM OperationId := do pure ⟨← u64⟩

def operation : ReadM Operation := do
  let tag ← u8
  let id ← operationId
  match tag with
  | 1 => do pure (.upsertDirectory id (← record))
  | 2 => do pure (.upsertFile false id (← record))
  | 3 => do pure (.upsertSymlink id (← record))
  | 5 => do pure (.upsertFile true id (← record))
  | 4 => do
    let path ← path
    let expectedKind ← entryKind
    pure (.delete id path expectedKind)
  | _ => codecError (.invalidValue "operation tag")

/-- The phase with a tag. -/
def phase (value : UInt8) : CodecResult Phase :=
  match value with
  | 1 => .ok .handshake
  | 2 => .ok .policy
  | 3 => .ok .indexing
  | 4 => .ok .planning
  | 5 => .ok .transferring
  | 6 => .ok .readyToCommit
  | 7 => .ok .committing
  | 8 => .ok .complete
  | 9 => .ok .failed
  | _ => codecError (.invalidValue "phase")

/-- The failure code with a number. -/
def wireError (value : UInt16) : CodecResult WireErrorCode :=
  match value with
  | 1 => .ok .incompatibleProtocol
  | 2 => .ok .invalidMessage
  | 3 => .ok .unauthorized
  | 4 => .ok .invalidPath
  | 5 => .ok .integrityFailure
  | 6 => .ok .resourceLimit
  | 7 => .ok .unsupportedFilesystem
  | 8 => .ok .cancelled
  | 9 => .ok .internal
  | _ => codecError (.invalidValue "wire error code")

def failure : ReadM WireFailure := do
  let code ← wireError (← u16)
  let message ← string
  let phase ← phase (← u8)
  let operationId ← optional operationId
  let path ← optional path
  pure { code, message, phase, operationId, path }

def finish : ReadM Unit := fun r =>
  if r.offset = r.bytes.length then .ok ((), r) else codecError .trailingBytes

end Reader

/-! ### Messages -/

/-- A message category with stable kind tags and canonical payload fields. -/
class WireMessage (T : Type) where
  /-- The kind tag. -/
  kind : T → UInt8
  /-- Write the fields after the kind and the version. -/
  encodeFields : T → WriteM Unit
  /-- Read the fields of a message of the given kind. -/
  decodeFields : UInt8 → ReadM T

instance : WireMessage Control where
  kind
    | .startSync _ => 3
    | .startAccepted => 7
    | .operation _ => 10
    | .planEnd => 11
    | .completeAck => 13
    | .failure _ => 15
  encodeFields
    | .startSync rootId => Writer.string rootId
    | .startAccepted | .planEnd | .completeAck => pure ()
    | .operation operation => Writer.operation operation
    | .failure failure => Writer.failure failure
  decodeFields
    | 3 => do pure (.startSync (← Reader.string))
    | 7 => pure .startAccepted
    | 10 => do pure (.operation (← Reader.operation))
    | 11 => pure .planEnd
    | 13 => pure .completeAck
    | 15 => do pure (.failure (← Reader.failure))
    | kind => codecError (.unknownMessageKind kind)

instance : WireMessage IndexMessage where
  kind
    | .record _ => 1
    | .end => 2
  encodeFields
    | .record record => Writer.record record
    | .end => pure ()
  decodeFields
    | 1 => do pure (.record (← Reader.record))
    | 2 => pure .end
    | kind => codecError (.unknownMessageKind kind)

instance : WireMessage FileTransfer where
  kind
    | .updateRequest .. => 1
    | .createRequest .. => 7
    | .wholeFile _ => 8
    | .signature _ => 2
    | .signatureEnd => 3
    | .delta _ => 4
    | .transferEnd => 5
    | .transferAccepted _ => 6
  encodeFields
    | .updateRequest id path | .createRequest id path => do
      Writer.u64 id.get
      Writer.path path
    | .signature bytes | .delta bytes | .wholeFile bytes => Writer.bytes' bytes
    | .signatureEnd | .transferEnd => pure ()
    | .transferAccepted id => Writer.u64 id.get
  decodeFields
    | 1 => do
      let id ← Reader.operationId
      pure (.updateRequest id (← Reader.path))
    | 2 => do pure (.signature (← Reader.bytes'))
    | 3 => pure .signatureEnd
    | 4 => do pure (.delta (← Reader.bytes'))
    | 5 => pure .transferEnd
    | 6 => do pure (.transferAccepted (← Reader.operationId))
    | 7 => do
      let id ← Reader.operationId
      pure (.createRequest id (← Reader.path))
    | 8 => do pure (.wholeFile (← Reader.bytes'))
    | kind => codecError (.unknownMessageKind kind)

/-! ### Frames -/

section

variable {T : Type} [WireMessage T]

/-- Encode one complete length-delimited frame.  A vector that would outgrow `isizeMax` panics. -/
def encode (value : T) (limits : CodecLimits) : CodecResult Slice := do
  let payload := [WireMessage.kind value] ++ LittleEndian.bytes versionBytes currentVersion.get.toNat
  let ((), writer) ← (WireMessage.encodeFields value).run ⟨payload, limits⟩
  ensure (writer.bytes.length ≤ limits.maxFrameBytes.toNat)
    (.frameTooLarge (UInt64.ofNat writer.bytes.length) limits.maxFrameBytes)
  let frame := putVarint (UInt64.ofNat writer.bytes.length) [] ++ writer.bytes
  if h : frame.length ≤ isizeMax then pure ⟨frame, h⟩ else codecPanic

/-- Check the declared length of a payload. -/
def checkFrameLength (declared : UInt64) (limits : CodecLimits) : CodecResult Unit :=
  if declared > limits.maxFrameBytes then
    codecError (.frameTooLarge declared limits.maxFrameBytes)
  else if declared.toNat < kindBytes + versionBytes then
    codecError (.invalidValue "frame length")
  else .ok ()

/-- Decode the payload of a frame. -/
def decodePayload (payload : Bytes) (limits : CodecLimits) : CodecResult T := do
  let read : ReadM T := do
    let kind ← Reader.u8
    let version : ProtocolVersion := ⟨← Reader.u16⟩
    ensure (version = currentVersion) (.unsupportedVersion version)
    let value ← WireMessage.decodeFields kind
    Reader.finish
    pure value
  let (value, _) ← read.run (Reader.new payload limits)
  pure value

/-- Decode exactly one complete frame and reject bytes after it. -/
def decode (wire : Slice) (limits : CodecLimits) : CodecResult T := do
  let (declared, headerLen) ← parseVarint wire.1
  checkFrameLength declared limits
  let stop := headerLen + declared.toNat
  ensure (stop < wordSize) (.frameTooLarge declared limits.maxFrameBytes)
  ensure (stop ≤ wire.1.length) .unexpectedEof
  ensure (wire.1.length = stop) .trailingBytes
  decodePayload ((wire.1.drop headerLen).take declared.toNat) limits

end

end QuicSync
