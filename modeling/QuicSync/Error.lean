import QuicSync.Types
import QuicSync.Posix.Calls

/-!
# Errors

The failure categories of the program and its detailed local errors.  The text of an error number
is the operating system's, so a diagnostic that ends in one keeps the number itself.
-/

namespace QuicSync

/-- A stable, machine-readable failure category. -/
inductive ErrorCode where
  | invalidConfiguration
  | authenticationFailed
  | authorizationDenied
  | protocolViolation
  | unsupportedProtocol
  | invalidPath
  | pathConfinementViolation
  | integrityMismatch
  | unsupportedFilesystem
  | resourceLimitExceeded
  | operationFailed
  | io
  | transportUnavailable
  | completionUnknown
  | cancelled
  | internal
  deriving DecidableEq, Repr

/-- Structured local context that must never be copied into a peer error. -/
structure ErrorContext where
  operation : Option OperationId
  path : Option RelativePath
  deriving DecidableEq

/-- A human-readable diagnostic. -/
inductive Diagnostic where
  /-- A fixed text. -/
  | text (message : String)
  /-- A text followed by that of an error number. -/
  | system (message : String) (error : Posix.Errno)
  /-- A path component, its unreadable bytes replaced, within a text, and an error number. -/
  | component (before : String) (name : Bytes) (after : String) (error : Option Posix.Errno)
  deriving DecidableEq

/-- A detailed local error. -/
structure QuicSyncError where
  code : ErrorCode
  phase : Option Phase
  diagnostic : Diagnostic
  context : ErrorContext
  deriving DecidableEq

namespace QuicSyncError

/-- An error without context. -/
def new (code : ErrorCode) (phase : Option Phase) (diagnostic : Diagnostic) : QuicSyncError :=
  ⟨code, phase, diagnostic, ⟨none, none⟩⟩

def withContext (e : QuicSyncError) (context : ErrorContext) : QuicSyncError :=
  { e with context := context }

/-- The error number an error reports, if it does. -/
def errno (e : QuicSyncError) : Option Posix.Errno :=
  match e.diagnostic with
  | .text _ => none
  | .system _ error => some error
  | .component _ _ _ error => error

end QuicSyncError

end QuicSync
