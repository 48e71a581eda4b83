import QuicSync.Error

/-!
# Messages of a streamed sync attempt

The fixed-version messages on the three kinds of stream: `Control` on the control stream,
`IndexMessage` on the source-index stream, and `FileTransfer` on one stream per file.
-/

namespace QuicSync

/-- A protocol version advertised during the handshake. -/
structure ProtocolVersion where
  /-- The version number. -/
  get : UInt16
  deriving DecidableEq

/-- The first protocol version. -/
def currentVersion : ProtocolVersion := ⟨1⟩

/-- One item on the ordered source-index stream. -/
inductive IndexMessage where
  | record (record : IndexRecord)
  | «end»
  deriving DecidableEq

/-- An item of an index stream within one endpoint. -/
abbrev IndexItem := Except QuicSyncError IndexMessage

/-- A deterministic change in a synchronization plan. -/
inductive Operation where
  | upsertDirectory (id : OperationId) (record : IndexRecord)
  | upsertFile (update : Bool) (id : OperationId) (record : IndexRecord)
  | upsertSymlink (id : OperationId) (record : IndexRecord)
  | delete (id : OperationId) (path : RelativePath) (expectedKind : EntryKind)
  deriving DecidableEq

namespace Operation

/-- The identifier of the operation. -/
def id : Operation → OperationId
  | upsertDirectory id _ | upsertFile _ id _ | upsertSymlink id _ | delete id _ _ => id

/-- The path the operation applies to. -/
def path : Operation → RelativePath
  | upsertDirectory _ record | upsertFile _ _ record | upsertSymlink _ record => record.path
  | delete _ path _ => path

/-- Whether the operation installs a regular file. -/
def isUpsertFile : Operation → Bool
  | upsertFile .. => true
  | _ => false

end Operation

/-- Stable failure codes carried across the protocol boundary. -/
inductive WireErrorCode where
  | incompatibleProtocol
  | invalidMessage
  | unauthorized
  | invalidPath
  | integrityFailure
  | resourceLimit
  | unsupportedFilesystem
  | cancelled
  | internal
  deriving DecidableEq, Repr

/-- The number a failure code has on the wire. -/
def WireErrorCode.toUInt16 : WireErrorCode → UInt16
  | incompatibleProtocol => 1
  | invalidMessage => 2
  | unauthorized => 3
  | invalidPath => 4
  | integrityFailure => 5
  | resourceLimit => 6
  | unsupportedFilesystem => 7
  | cancelled => 8
  | internal => 9

/-- Bounded, safe-to-disclose failure information. -/
structure WireFailure where
  /-- What went wrong. -/
  code : WireErrorCode
  /-- Free text. -/
  message : String
  /-- The phase in which it went wrong. -/
  phase : Phase
  /-- The operation concerned, if any. -/
  operationId : Option OperationId
  /-- The path concerned, if any. -/
  path : Option RelativePath
  deriving DecidableEq

/-- Messages carried by the session's control stream. -/
inductive Control where
  | startSync (rootId : String)
  | startAccepted
  | operation (operation : Operation)
  | planEnd
  | completeAck
  | failure (failure : WireFailure)
  deriving DecidableEq

/-- Messages on one file stream. -/
inductive FileTransfer where
  | updateRequest (id : OperationId) (path : RelativePath)
  | createRequest (id : OperationId) (path : RelativePath)
  | wholeFile (bytes : Bytes)
  | signature (bytes : Bytes)
  | signatureEnd
  | delta (bytes : Bytes)
  | transferEnd
  | transferAccepted (id : OperationId)
  deriving DecidableEq

end QuicSync
