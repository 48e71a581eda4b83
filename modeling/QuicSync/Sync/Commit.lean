import QuicSync.Filesystem.Staging
import QuicSync.Protocol.Messages

/-!
# Installation in discovery order

The commit stage.  `PendingCommit` holds the changes of a plan in the order of their identifiers
while transfers stage; `PendingCommit.commit` gives them to a `Committer` one by one.

A `Committer` carries out operations in discovery order.  What has to wait for the descendants of
a directory (its removal, its replacement, its final metadata) goes on a stack of directories and
is carried out when the next operation lies outside the directory, or at the end.

The stack is a list with the innermost directory first.  A staged file that has not been
installed is removed where the program drops it.
-/

namespace QuicSync

open Posix

namespace Commit

/-- An error of this module. -/
def failure (diagnostic : Diagnostic) : QuicSyncError :=
  QuicSyncError.new .operationFailed none diagnostic

/-- An error of this module for an error number. -/
def systemFailure (error : Errno) : QuicSyncError := failure (.system "install: " error)

end Commit

/-- What a directory on the stack waits for. -/
inductive Action where
  | delete
  | metadata (metadata : EntryMetadata)
  | file (file : StagedFile) (metadata : EntryMetadata)
  | symlink (record : IndexRecord)

/-- A directory on the stack. -/
structure Directory where
  path : RelativePath
  actions : List Action

/-- Executes dependency-ordered file system changes. -/
structure Committer where
  root : RootHandle
  /-- The directories that wait, the innermost first. -/
  pending : List Directory
  /-- The path of the last operation. -/
  previous : Option RelativePath

/-- The committer and the file system it works on. -/
structure Site where
  committer : Committer
  world : World

/-- A computation of a committer. -/
abbrev CommitM := Fallible QuicSyncError Site

/-- A computation on the file system only. -/
def onWorld {α : Type} (m : FsM α) : CommitM α :=
  m.zoom Site.world fun w s => { s with world := w }

/-- A change of the committer only. -/
def onCommitter (f : Committer → Committer) : CommitM Unit :=
  Fallible.modify fun s => { s with committer := f s.committer }

/-- Drop the staged file that comes with an operation, if there is one. -/
def dropFile : Option StagedFile → FsM Unit
  | some file => file.drop
  | none => pure ()

/-- Drop what is left of the actions of a directory. -/
def dropActions : List Action → FsM Unit
  | [] => pure ()
  | .file file _ :: actions => do
    file.drop
    dropActions actions
  | _ :: actions => dropActions actions

/-- Drop the stack. -/
def dropPending : List Directory → FsM Unit
  | [] => pure ()
  | directory :: pending => do
    -- a vector is dropped from its first element
    dropPending pending
    dropActions directory.actions

def unlink (root : RootHandle) (path : RelativePath) (removedir : Bool) : FsM Unit := do
  let parent ← resolveParent root path
  call (fun w => unlinkat w parent.directory parent.leaf removedir) Commit.systemFailure

/-- The bytes of a C string; a NUL byte is an error. -/
def cstring (bytes : Bytes) : Except QuicSyncError Bytes :=
  if 0 ∈ bytes then .error (Commit.failure (.text
    ("install: nul byte found in provided data at position: " ++ toString (bytes.idxOf 0))))
  else .ok bytes

/-- The seconds of a link's modification time fit a 64-bit integer. -/
def symlinkTime (mtimeNs : I128) : Except QuicSyncError SystemTime :=
  let seconds := mtimeNs.val / nanosPerSecond
  if -2 ^ 63 ≤ seconds ∧ seconds < 2 ^ 63 then
    .ok ⟨seconds, (mtimeNs.val % nanosPerSecond).toNat⟩
  else .error (Commit.failure (.text ("install: " ++ conversionError)))

/-- Replace whatever is not a directory at the path of a record by a link. -/
def symlink (root : RootHandle) (record : IndexRecord) : FsM Unit := do
  let target ← Fallible.lift (match record.symlinkTarget with
    | some target => .ok target
    | none => .error (Commit.failure (.text "install: missing symlink target")))
  let target ← Fallible.lift (cstring target)
  let parent ← resolveParent root record.path
  tolerate .noent (fun w => unlinkat w parent.directory parent.leaf false) Commit.systemFailure
  call (fun w => symlinkat w target parent.directory parent.leaf) Commit.systemFailure
  let times ← Fallible.lift (symlinkTime record.metadata.mtimeNs)
  call (fun w => utimensat w parent.directory parent.leaf times.toNanos) Commit.systemFailure

/-- Set the final metadata of a directory. -/
def directoryMetadata (root : RootHandle) (path : RelativePath) (metadata : EntryMetadata) :
    FsM Unit := do
  let parent ← resolveParent root path
  let directory ← query (fun w => openat w parent.directory parent.leaf directoryFlags)
    Commit.systemFailure
  setFileMetadata directory metadata

/-- Create a directory, or take one that is there, and keep it writable while adding children. -/
def upsertDirectory (root : RootHandle) (path : RelativePath) (metadata : EntryMetadata) :
    FsM Unit := do
  let parent ← resolveParent root path
  tolerate .exist (fun w => mkdirat w parent.directory parent.leaf 0o700) Commit.systemFailure
  let directory ← query (fun w => openat w parent.directory parent.leaf directoryFlags)
    Commit.systemFailure
  Fallible.modify fun w => fchmod w directory (metadata.mode ||| 0o700)

/-- Carry out one action of a directory. -/
def runAction (root : RootHandle) (path : RelativePath) : Action → FsM Unit
  | .delete => unlink root path true
  | .file file metadata => file.install root path metadata
  | .symlink record => symlink root record
  | .metadata metadata => directoryMetadata root path metadata

/-- Carry out the actions of a directory in order; the rest is dropped after a failure. -/
def runActions (root : RootHandle) (path : RelativePath) : List Action → FsM Unit
  | [] => pure ()
  | action :: actions => do
    Fallible.onError (runAction root path action) (dropActions actions)
    runActions root path actions

namespace Committer

def new (root : RootHandle) : Committer := ⟨root, [], none⟩

/-- The innermost directory on the stack is the path's and is to be removed. -/
def replacingDirectory (c : Committer) (path : RelativePath) : Bool :=
  match c.pending with
  | directory :: _ => directory.path = path ∧ directory.actions.any fun
      | .delete => true
      | _ => false
  | [] => false

/-- Put an action on the stack. -/
def defer (c : Committer) (path : RelativePath) (action : Action) : Committer :=
  match c.pending with
  | directory :: pending =>
    if directory.path = path then
      { c with pending := { directory with actions := directory.actions ++ [action] } :: pending }
    else { c with pending := ⟨path, [action]⟩ :: c.pending }
  | [] => { c with pending := [⟨path, [action]⟩] }

theorem root_defer (c : Committer) (path : RelativePath) (action : Action) :
    (c.defer path action).root = c.root := by
  unfold defer
  split
  · split <;> rfl
  · rfl

theorem previous_defer (c : Committer) (path : RelativePath) (action : Action) :
    (c.defer path action).previous = c.previous := by
  unfold defer
  split
  · split <;> rfl
  · rfl

/-- Take the innermost directory off the stack and carry out its actions. -/
def finishDirectory : CommitM Unit := fun s =>
  match s.committer.pending with
  | [] => (.ok (), s)
  | directory :: pending =>
    (onWorld (runActions s.committer.root directory.path directory.actions)).run
      { s with committer := { s.committer with pending := pending } }

theorem run_finishDirectory_nil {s : Site} (h : s.committer.pending = []) :
    finishDirectory.run s = (.ok (), s) := by
  simp only [Fallible.run, finishDirectory, h]

theorem run_finishDirectory_cons {s : Site} {directory : Directory} {pending : List Directory}
    (h : s.committer.pending = directory :: pending) :
    finishDirectory.run s =
      (onWorld (runActions s.committer.root directory.path directory.actions)).run
        { s with committer := { s.committer with pending := pending } } := by
  simp only [Fallible.run, finishDirectory, h]

/-- The loop of `apply` and of `finish` over the directories on the stack: finish them while
`leave` holds. -/
def finishWhile (leave : Directory → Bool) : List Directory → CommitM Unit
  | [] => pure ()
  | directory :: pending =>
    if leave directory then do
      finishDirectory
      finishWhile leave pending
    else pure ()

/-- Finish directories while `leave` holds of the innermost one. -/
def finishPending (leave : Directory → Bool) : CommitM Unit := do
  let s ← Fallible.get
  finishWhile leave s.committer.pending

/-- Carry out an operation whose path is inside every directory on the stack. -/
def install (operation : Operation) (file : Option StagedFile) : CommitM Unit := do
  let s ← Fallible.get
  let root := s.committer.root
  match operation, file with
  | .delete _ path .directory, _ => onCommitter fun c => c.defer path .delete
  | .delete _ path _, _ => onWorld (unlink root path false)
  | .upsertDirectory _ record, _ => do
    onWorld (upsertDirectory root record.path record.metadata)
    onCommitter fun c => c.defer record.path (.metadata record.metadata)
  | .upsertFile _ _ record, some file =>
    if s.committer.replacingDirectory record.path then
      onCommitter fun c => c.defer record.path (.file file record.metadata)
    else onWorld (file.install root record.path record.metadata)
  -- excluded by the check of `apply`
  | .upsertFile .., none => pure ()
  | .upsertSymlink _ record, _ =>
    if s.committer.replacingDirectory record.path then
      onCommitter fun c => c.defer record.path (.symlink record)
    else onWorld (symlink root record)

/-- What comes before an operation: the checks on it, and the directories that it leaves. -/
def prepare (operation : Operation) (file : Option StagedFile) : CommitM Unit := do
  let path := operation.path
  let s ← Fallible.get
  if s.committer.previous.any fun previous => previous > path then
    Fallible.fail (Commit.failure (.text "install: operations are not in canonical discovery order"))
  else if operation.isUpsertFile ≠ file.isSome then
    Fallible.fail (Commit.failure (.text "install: only file upserts require a staged file"))
  else finishPending fun directory => !(directory.path.components.isPrefixOf path.components)

/-- Apply one operation, with the staged file that comes with a file upsert. -/
def apply (operation : Operation) (file : Option StagedFile) : CommitM Unit := do
  Fallible.onError (prepare operation file) (onWorld (dropFile file))
  onCommitter fun c => { c with previous := some operation.path }
  install operation file

/-- Finish all directories on the stack. -/
def finish : CommitM Unit := finishPending fun _ => true

/-- Drop the committer with what is on its stack. -/
def drop : CommitM Unit := do
  let s ← Fallible.get
  onWorld (dropPending s.committer.pending)

end Committer

/-! ### Changes retained while transfers stage -/

/-- An operation and the staged file that comes with it. -/
abbrev Change := Operation × Option StagedFile

/-- The changes of a plan, in the order of their identifiers. -/
structure PendingCommit where
  changes : List Change
  /-- The identifiers increase. -/
  sorted : changes.Pairwise fun a b => a.1.id.get < b.1.id.get

namespace PendingCommit

/-- No changes. -/
def default : PendingCommit := ⟨[], .nil⟩

/-- Insert a change in the order of the identifiers. -/
def insertChange (change : Change) : List Change → List Change
  | [] => [change]
  | c :: cs =>
    if change.1.id.get < c.1.id.get then change :: c :: cs else c :: insertChange change cs

theorem mem_insertChange {change c : Change} {cs : List Change} :
    c ∈ insertChange change cs ↔ c = change ∨ c ∈ cs := by
  induction cs with
  | nil => simp [insertChange]
  | cons d ds ih =>
    unfold insertChange
    split
    · simp
    · simp only [List.mem_cons, ih]
      exact or_left_comm

theorem sorted_insertChange {change : Change} {cs : List Change}
    (hcs : cs.Pairwise fun a b => a.1.id.get < b.1.id.get)
    (hnew : ∀ c ∈ cs, c.1.id ≠ change.1.id) :
    (insertChange change cs).Pairwise fun a b => a.1.id.get < b.1.id.get := by
  induction cs with
  | nil => exact List.pairwise_singleton _ _
  | cons d ds ih =>
    obtain ⟨hd, hds⟩ := List.pairwise_cons.1 hcs
    unfold insertChange
    split
    · rename_i hlt
      refine List.pairwise_cons.2 ⟨fun c hc => ?_, hcs⟩
      obtain rfl | hc := List.mem_cons.1 hc
      · exact hlt
      · exact UInt64.lt_trans hlt (hd c hc)
    · rename_i hle
      refine List.pairwise_cons.2 ⟨fun c hc => ?_, ih hds fun c hc => hnew c (List.mem_cons_of_mem _ hc)⟩
      obtain rfl | hc := mem_insertChange.1 hc
      · have hne : d.1.id.get ≠ c.1.id.get := fun h =>
          hnew d List.mem_cons_self (congrArg OperationId.mk h)
        exact UInt64.lt_of_le_of_ne (UInt64.not_lt.1 hle) hne
      · exact hd c hc

/-- Retain a change; an identifier is retained once. -/
def stage (pending : PendingCommit) (operation : Operation) (file : Option StagedFile) :
    FsM PendingCommit :=
  if operation.isUpsertFile ≠ file.isSome then do
    dropFile file
    Fallible.fail (Commit.failure (.text "install: only file upserts require a staged file"))
  else if h : ∃ c ∈ pending.changes, c.1.id = operation.id then do
    dropFile file
    Fallible.fail (Commit.failure (.text "install: duplicate staged operation"))
  else pure
    { changes := insertChange (operation, file) pending.changes
      sorted := sorted_insertChange pending.sorted fun c hc heq => h ⟨c, hc, heq⟩ }

end PendingCommit

/-- Drop changes that have not been applied. -/
def dropChanges : List Change → FsM Unit
  | [] => pure ()
  | (_, file) :: changes => do
    dropFile file
    dropChanges changes

/-- The loop of `commit`; the changes that are left are dropped after a failure. -/
def applyAll : List Change → CommitM Unit
  | [] => pure ()
  | (operation, file) :: changes => do
    Fallible.onError (Committer.apply operation file) (onWorld (dropChanges changes))
    applyAll changes

/-- Apply all changes and finish. -/
def commitAll (changes : List Change) : CommitM Unit :=
  Fallible.onError (do
    applyAll changes
    Committer.finish) Committer.drop

/-- Commit the changes below a root. -/
def PendingCommit.commit (pending : PendingCommit) (root : RootHandle) : FsM Unit := fun w =>
  let (result, s) := (commitAll pending.changes).run ⟨Committer.new root, w⟩
  (result, s.world)

end QuicSync
