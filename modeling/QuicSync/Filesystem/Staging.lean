import QuicSync.Filesystem.Paths

/-!
# Temporary files and their installation

A received file is written in full to a private temporary file in `.quicsync` below the root and
moved to its place by `StagedFile.install`.  A staged file that is not installed is removed when
it is dropped; `Fallible.onError` marks where the program drops it on an early return.

The process's umask is taken to leave the owner's permission bits alone.
-/

namespace QuicSync

open Posix

/-- The name of the directory for local state. -/
def stagingName : Bytes := ascii ".quicsync"

namespace Staging

/-- An error of this module. -/
def failure (diagnostic : Diagnostic) : QuicSyncError := QuicSyncError.new .io none diagnostic

/-- An error of this module for an error number. -/
def systemFailure (error : Errno) : QuicSyncError := failure (.system "staging: " error)

end Staging

/-- A completely written temporary file, by its directory and the random bytes of its name. -/
structure StagedFile where
  directory : Path
  random : Vector UInt8 16

namespace StagedFile

/-- A hexadecimal digit. -/
def hexDigit (n : ℕ) : UInt8 := UInt8.ofNat (if n < 10 then 48 + n else 87 + n)

/-- The name of the temporary file. -/
def name (file : StagedFile) : Bytes :=
  ascii "incoming-" ++
    file.random.toList.flatMap fun b => [hexDigit (b.toNat / 16), hexDigit (b.toNat % 16)]

theorem hexDigit_ne_separator : ∀ n < 16, hexDigit n ≠ separator := by decide

/-- The name of a temporary file is one component. -/
theorem plain_name (file : StagedFile) : Plain file.name := by
  have hhead : file.name.head? = some 105 := rfl
  refine ⟨?_, ?_, ?_, ?_⟩
  · intro h
    rw [h] at hhead
    cases hhead
  · intro h
    rw [h] at hhead
    exact absurd hhead (by decide)
  · intro h
    rw [h] at hhead
    exact absurd hhead (by decide)
  · intro h
    obtain h | h := List.mem_append.1 h
    · exact absurd h (by decide)
    · obtain ⟨b, -, hb⟩ := List.mem_flatMap.1 h
      have hlt := b.toNat_lt
      simp only [List.mem_cons, List.not_mem_nil, or_false] at hb
      obtain hb | hb := hb
      · exact hexDigit_ne_separator _ (by omega) hb.symm
      · exact hexDigit_ne_separator _ (by omega) hb.symm

/-- Remove the temporary file; the result is ignored. -/
def drop (file : StagedFile) : FsM Unit := fun w =>
  match unlinkat w file.directory file.name false with
  | .ok w' => (.ok (), w')
  | .error _ => (.ok (), w)

theorem run_drop (file : StagedFile) (w : World) : file.drop.run w =
    match unlinkat w file.directory file.name false with
    | .ok w' => (.ok (), w')
    | .error _ => (.ok (), w) := rfl

end StagedFile

/-- The directory for temporary files, created if it is missing.  It must be private. -/
def stagingDirectory (root : RootHandle) : FsM Path := do
  tolerate .exist (fun w => mkdirat w root.path stagingName 0o700) Staging.systemFailure
  let directory ← query (fun w => openat w root.path stagingName directoryFlags)
    Staging.systemFailure
  let w ← Fallible.get
  if ((w.tree.get directory).map fun i => i.mode &&& 0o077) = some 0 then pure directory
  else Fallible.fail (Staging.failure (.text
    "staging: staging directory must be private and owned by the current user"))

/-- What an incremental reader delivers: some bytes, then the end or an interruption. -/
structure Content where
  bytes : Bytes
  interrupted : Option String

/-- Copy a reader into a private temporary file with the given random name, if there is one. -/
def StagedFile.receiveIn (directory : Path) (random : Option (Vector UInt8 16)) (content : Content) :
    FsM StagedFile :=
  match random with
  | none => Fallible.fail (Staging.failure (.text "staging: random filename unavailable"))
  | some random => do
    let staged : StagedFile := ⟨directory, random⟩
    let opened ← fun w => match openatExcl w directory staged.name 0o600 with
      | .ok (w', p) => (.ok p, w')
      | .error e => (.error (Staging.systemFailure e), w)
    Fallible.onError (do
      Fallible.modify fun w => write w opened content.bytes
      match content.interrupted with
      | none => pure staged
      | some message => Fallible.fail (Staging.failure (.text ("staging: " ++ message)))) staged.drop

/-- Stage a file below a root. -/
def StagedFile.receive (root : RootHandle) (random : Option (Vector UInt8 16)) (content : Content) :
    FsM StagedFile := do
  let directory ← stagingDirectory root
  receiveIn directory random content

/-- The directory for temporary files is the physical `.quicsync` of the root. -/
theorem stagingDirectory_ok {root : RootHandle} {w w' : World} {directory : Path}
    (h : (stagingDirectory root).run w = (.ok directory, w')) :
    directory = root.path ++ [stagingName] := by
  unfold stagingDirectory at h
  obtain ⟨_, w₁, -, h₁⟩ := Fallible.run_bind_ok_iff.1 h
  obtain ⟨opened, w₂, hquery, h₂⟩ := Fallible.run_bind_ok_iff.1 h₁
  obtain ⟨w₃, _, -, hcheck⟩ := Fallible.run_bind_ok_iff.1 h₂
  obtain ⟨hopen, -⟩ := query_ok hquery
  obtain ⟨-, -, hpath⟩ := (openat_directory_eq_ok_iff (by decide)).1 hopen
  split at hcheck
  · cases hcheck
    exact hpath
  · cases hcheck

/-- A staged file lies in the physical `.quicsync` of the root. -/
theorem StagedFile.receive_directory {root : RootHandle} {random : Option (Vector UInt8 16)}
    {content : Content} {w w' : World} {file : StagedFile}
    (h : (StagedFile.receive root random content).run w = (.ok file, w')) :
    file.directory = root.path ++ [stagingName] := by
  obtain ⟨directory, w₁, hdir, hin⟩ := Fallible.run_bind_ok_iff.1 h
  rw [← stagingDirectory_ok hdir]
  unfold receiveIn at hin
  split at hin
  · cases hin
  · obtain ⟨opened, w₂, -, hcopy⟩ := Fallible.run_bind_ok_iff.1 hin
    obtain ⟨_, w₃, -, hread⟩ := Fallible.run_bind_ok_iff.1 (Fallible.run_onError_ok_iff.1 hcopy)
    split at hread
    · cases hread
      rfl
    · cases hread

/-- The text of a failed integer conversion. -/
def conversionError : String := "out of range integral type conversion attempted"

/-- A whole second, in nanoseconds. -/
def nanosPerSecond : ℕ := 1000000000

/-- A point in time: seconds, which are a 64-bit integer, and nanoseconds. -/
structure SystemTime where
  seconds : ℤ
  nanos : ℕ
  deriving DecidableEq

namespace SystemTime

/-- The point in time in nanoseconds. -/
def toNanos (t : SystemTime) : ℤ := t.seconds * nanosPerSecond + t.nanos

/-- The epoch plus an offset, if the seconds fit. -/
def epochCheckedAdd (seconds nanos : ℕ) : Option SystemTime :=
  if seconds < 2 ^ 63 then some ⟨seconds, nanos⟩ else none

/-- The epoch minus an offset, if the seconds fit; the nanoseconds borrow a second. -/
def epochCheckedSub (seconds nanos : ℕ) : Option SystemTime :=
  if seconds ≤ 2 ^ 63 then
    if nanos = 0 then some ⟨-seconds, 0⟩
    else if seconds < 2 ^ 63 then some ⟨-seconds - 1, nanosPerSecond - nanos⟩ else none
  else none

end SystemTime

/-- The point in time for a modification time. -/
def modifiedTime (mtimeNs : I128) : Except QuicSyncError SystemTime :=
  let magnitude := mtimeNs.val.natAbs
  let seconds := magnitude / nanosPerSecond
  if seconds < 2 ^ 64 then
    let nanos := magnitude % nanosPerSecond
    let modified := if mtimeNs.val < 0 then SystemTime.epochCheckedSub seconds nanos
      else SystemTime.epochCheckedAdd seconds nanos
    match modified with
    | some modified => .ok modified
    | none => .error (Staging.failure (.text "staging: mtime is outside supported range"))
  else .error (Staging.failure (.text ("staging: " ++ conversionError)))

/-- Set the mode and the modification time of an open file or directory. -/
def setFileMetadata (file : Path) (metadata : EntryMetadata) : FsM Unit := do
  Fallible.modify fun w => fchmod w file metadata.mode
  let modified ← Fallible.lift (modifiedTime metadata.mtimeNs)
  Fallible.modify fun w => futimens w file modified.toNanos

/-- Install one completed file through the confined destination parent descriptor. -/
def StagedFile.install (file : StagedFile) (root : RootHandle) (path : RelativePath)
    (metadata : EntryMetadata) : FsM Unit :=
  Fallible.onError (do
    if metadata.kind = .regularFile then
      let descriptor ← query (fun w => openat w file.directory file.name ⟨true, false, true⟩)
        Staging.systemFailure
      setFileMetadata descriptor metadata
      let parent ← resolveParent root path
      call (fun w => renameat w file.directory file.name parent.directory parent.leaf)
        Staging.systemFailure
    else Fallible.fail (Staging.failure (.text
      "staging: regular-file staging requires regular-file metadata"))) file.drop

end QuicSync
