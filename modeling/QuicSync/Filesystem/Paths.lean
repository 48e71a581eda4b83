import QuicSync.Error
import QuicSync.Posix.CallSpecs

/-!
# Confined path resolution

`resolveParent` opens the parent of a relative path one component at a time from the root
descriptor, without following symbolic links, after refusing protected components.  The calls
that follow are relative to the descriptor it returns.
-/

namespace QuicSync

open Posix

/-- A computation on the file system. -/
abbrev FsM := Fallible QuicSyncError World

/-- A call that changes the file system or fails with an error number. -/
def call (f : World → Except Errno World) (error : Errno → QuicSyncError) : FsM Unit := fun w =>
  match f w with
  | .ok w' => (.ok (), w')
  | .error e => (.error (error e), w)

/-- A call for which one error number is as good as success. -/
def tolerate (tolerated : Errno) (f : World → Except Errno World)
    (error : Errno → QuicSyncError) : FsM Unit := fun w =>
  match f w with
  | .ok w' => (.ok (), w')
  | .error e => if e = tolerated then (.ok (), w) else (.error (error e), w)

/-- A call that only looks at the file system. -/
def query {α : Type} (f : World → Except Errno α) (error : Errno → QuicSyncError) : FsM α :=
  fun w => ((f w).mapError error, w)

/-- An open descriptor for a configured root directory: the directory's path. -/
structure RootHandle where
  path : Path

/-- A parent directory descriptor and the leaf name an operation applies to. -/
structure ValidatedParent where
  directory : Path
  leaf : Bytes

/-- The components never indexed, transferred or mutated, at any depth. -/
def protectedComponents : List Bytes := [ascii ".quicsync", ascii ".git"]

/-- Read only, a directory, not following links. -/
def directoryFlags : OpenFlags := ⟨false, true, true⟩

/-- The first protected component of a path, as an error. -/
def rejectProtected (path : RelativePath) : Except QuicSyncError Unit :=
  match path.components.find? (· ∈ protectedComponents) with
  | some component => .error <|
      (QuicSyncError.new .pathConfinementViolation none
        (.component "path component '" component "' is administratively protected" none)).withContext
        ⟨none, some path⟩
  | none => .ok ()

/-- A link in place of an ancestor, or another entry that is not a directory, means that resolution
would have left the root. -/
def openDirectoryError (component : Bytes) (path : RelativePath) (error : Errno) : QuicSyncError :=
  let code := match error with
    | .loop | .notdir => .pathConfinementViolation
    | _ => .io
  (QuicSyncError.new code none
    (.component "cannot resolve path component '" component "': " (some error))).withContext
    ⟨none, some path⟩

def openDirectory (parent : Path) (component : Bytes) (path : RelativePath) : FsM Path :=
  query (fun w => openat w parent component directoryFlags) (openDirectoryError component path)

/-- The loop of `resolveParent` over the ancestors that are left. -/
def openAncestors (path : RelativePath) : Path → List Bytes → FsM Path
  | directory, [] => pure directory
  | directory, ancestor :: ancestors => do
    let directory ← openDirectory directory ancestor path
    openAncestors path directory ancestors

/-- The parent of a path, opened from the root descriptor without following symbolic links.
Duplicating the root descriptor is taken to succeed. -/
def resolveParent (root : RootHandle) (path : RelativePath) : FsM ValidatedParent := do
  Fallible.lift (rejectProtected path)
  let directory ← openAncestors path root.path path.components.dropLast
  pure ⟨directory, path.components.getLast path.ne_nil⟩

/-! ### What resolution does -/

/-- No component of the path is protected. -/
def Unprotected (path : RelativePath) : Prop := ∀ c ∈ path.components, c ∉ protectedComponents

instance (path : RelativePath) : Decidable (Unprotected path) :=
  inferInstanceAs (Decidable (∀ c ∈ _, _))

/-- The parent that resolution returns when it succeeds. -/
def parentOf (root : RootHandle) (path : RelativePath) : ValidatedParent :=
  ⟨root.path ++ path.components.dropLast, path.components.getLast path.ne_nil⟩

/-- The absolute path of a relative one. -/
def RootHandle.at (root : RootHandle) (path : RelativePath) : Path := root.path ++ path.components

theorem parentOf_directory_leaf (root : RootHandle) (path : RelativePath) :
    (parentOf root path).directory ++ [(parentOf root path).leaf] = root.at path := by
  simp only [parentOf, RootHandle.at, List.append_assoc, List.dropLast_append_getLast]

/-- A directory that resolution passes through. -/
def Passable (t : Tree) (dir : Path) : Prop :=
  ∃ i, t.get dir = some i ∧ i.IsDir ∧ i.Readable ∧ i.Searchable

theorem Passable.enterable {t : Tree} {dir : Path} (h : Passable t dir) : t.Enterable dir := by
  obtain ⟨i, hi, hdir, -, hsearch⟩ := h
  exact ⟨i, hi, hdir, hsearch⟩

theorem plain_of_componentError {c : Bytes} (h : componentError c = none) : Plain c := by
  unfold componentError at h
  split_ifs at h with h₁ h₂ h₃ h₄ h₅
  exact ⟨by simpa using h₁, h₂, h₃, h₄⟩

theorem RelativePath.plain (path : RelativePath) {c : Bytes} (hc : c ∈ path.components) :
    Plain c :=
  plain_of_componentError (path.legal c hc)

theorem plain_leaf (root : RootHandle) (path : RelativePath) : Plain (parentOf root path).leaf :=
  path.plain (List.getLast_mem _)

theorem rejectProtected_eq_ok_iff {path : RelativePath} {u : Unit} :
    rejectProtected path = .ok u ↔ Unprotected path := by
  unfold rejectProtected Unprotected
  cases h : path.components.find? (· ∈ protectedComponents) with
  | none => simpa using h
  | some c =>
    have hc := List.find?_some h
    have hmem := List.mem_of_find?_eq_some h
    simp only [reduceCtorEq, false_iff, not_forall]
    exact ⟨c, hmem, not_not.2 (by simpa using hc)⟩

theorem run_call (f : World → Except Errno World) (error : Errno → QuicSyncError) (w : World) :
    (call f error).run w = match f w with
      | .ok w' => (.ok (), w')
      | .error e => (.error (error e), w) := rfl

theorem run_tolerate (tolerated : Errno) (f : World → Except Errno World)
    (error : Errno → QuicSyncError) (w : World) :
    (tolerate tolerated f error).run w = match f w with
      | .ok w' => (.ok (), w')
      | .error e => if e = tolerated then (.ok (), w) else (.error (error e), w) := rfl

theorem run_query {α : Type} (f : World → Except Errno α) (error : Errno → QuicSyncError)
    (w : World) : (query f error).run w = ((f w).mapError error, w) := rfl

/-- Inversion of a call that only looks. -/
theorem query_ok {α : Type} {f : World → Except Errno α} {error : Errno → QuicSyncError}
    {w w' : World} {a : α} (h : (query f error).run w = (.ok a, w')) : f w = .ok a ∧ w' = w := by
  rw [run_query] at h
  cases hf : f w with
  | error e =>
    rw [hf] at h
    cases h
  | ok b =>
    rw [hf] at h
    cases h
    exact ⟨rfl, rfl⟩

theorem openDirectory_run (parent : Path) (component : Bytes) (path : RelativePath) (w : World) :
    (openDirectory parent component path).run w =
      ((openat w parent component directoryFlags).mapError (openDirectoryError component path), w) :=
  rfl

theorem openAncestors_state (path : RelativePath) (dir : Path) (cs : List Bytes) (w : World) :
    ((openAncestors path dir cs).run w).2 = w := by
  induction cs generalizing dir with
  | nil => rfl
  | cons c cs ih =>
    unfold openAncestors
    rw [Fallible.run_bind, openDirectory_run]
    cases openat w dir c directoryFlags with
    | error e => rfl
    | ok d => exact ih d

theorem openAncestors_ok {path : RelativePath} {dir dir' : Path} {cs : List Bytes} {w w' : World}
    (hcs : ∀ c ∈ cs, Plain c) (h : (openAncestors path dir cs).run w = (.ok dir', w')) :
    dir' = dir ++ cs := by
  induction cs generalizing dir with
  | nil =>
    cases h
    rw [List.append_nil]
  | cons c cs ih =>
    obtain ⟨d, w₁, hopen, h⟩ := Fallible.run_bind_ok_iff.1 h
    obtain ⟨hopen, rfl⟩ := query_ok hopen
    obtain ⟨-, -, rfl⟩ := (openat_directory_eq_ok_iff (hcs c List.mem_cons_self)).1 hopen
    have hdir := ih (fun c hc => hcs c (List.mem_cons_of_mem _ hc)) h
    rw [hdir, List.append_assoc]
    rfl

theorem openAncestors_run {path : RelativePath} {dir : Path} {cs : List Bytes} {w : World}
    (hcs : ∀ c ∈ cs, Plain c) (h : ∀ k ≤ cs.length, Passable w.tree (dir ++ cs.take k)) :
    (openAncestors path dir cs).run w = (.ok (dir ++ cs), w) := by
  induction cs generalizing dir with
  | nil =>
    rw [List.append_nil]
    rfl
  | cons c cs ih =>
    have hdir : Passable w.tree dir := by simpa using h 0 (Nat.zero_le _)
    have hnext : Passable w.tree (dir ++ [c]) := by simpa using h 1 (by simp)
    have hopen : openat w dir c directoryFlags = .ok (dir ++ [c]) := by
      refine (openat_directory_eq_ok_iff (hcs c List.mem_cons_self)).2 ⟨hdir.enterable, ?_, rfl⟩
      obtain ⟨i, hi, hidir, hread, -⟩ := hnext
      exact ⟨i, hi, hidir, hread⟩
    have hrest : (openAncestors path (dir ++ [c]) cs).run w = (.ok (dir ++ [c] ++ cs), w) := by
      refine ih (fun c hc => hcs c (List.mem_cons_of_mem _ hc)) fun k hk => ?_
      have hk' := h (k + 1) (by simpa using hk)
      simpa using hk'
    unfold openAncestors
    rw [Fallible.run_bind, openDirectory_run, hopen]
    rw [List.append_assoc] at hrest
    exact hrest

/-- Resolution changes nothing. -/
theorem resolveParent_state (root : RootHandle) (path : RelativePath) (w : World) :
    ((resolveParent root path).run w).2 = w := by
  unfold resolveParent
  cases h : rejectProtected path with
  | error e => rfl
  | ok u =>
    have hstate := openAncestors_state path root.path path.components.dropLast w
    rw [Fallible.run_bind_ok (Fallible.run_lift _ _), Fallible.run_bind]
    cases hopen : (openAncestors path root.path path.components.dropLast).run w with
    | mk r w' =>
      rw [hopen] at hstate
      cases r <;> exact hstate

/-- **Resolution is confined**: the parent it returns is the physical parent below the root, and
no component is protected, whatever links there are. -/
theorem resolveParent_ok {root : RootHandle} {path : RelativePath} {w w' : World}
    {parent : ValidatedParent} (h : (resolveParent root path).run w = (.ok parent, w')) :
    w' = w ∧ Unprotected path ∧ parent = parentOf root path := by
  have hw := resolveParent_state root path w
  rw [h] at hw
  refine ⟨hw, ?_⟩
  unfold resolveParent at h
  obtain ⟨_, w₁, hreject, hrest⟩ := Fallible.run_bind_ok_iff.1 h
  obtain ⟨dir, w₂, hopen, hparent⟩ := Fallible.run_bind_ok_iff.1 hrest
  have hprot : rejectProtected path = .ok _ := congrArg Prod.fst hreject
  cases hparent
  rw [openAncestors_ok (fun c hc => path.plain (List.mem_of_mem_dropLast hc)) hopen]
  exact ⟨rejectProtected_eq_ok_iff.1 hprot, rfl⟩

/-- Resolution succeeds through directories that may be read and searched. -/
theorem resolveParent_run {root : RootHandle} {path : RelativePath} {w : World}
    (hprot : Unprotected path)
    (h : ∀ k < path.components.length, Passable w.tree (root.path ++ path.components.take k)) :
    (resolveParent root path).run w = (.ok (parentOf root path), w) := by
  have hlen := List.length_pos_iff.2 path.ne_nil
  have hopen : (openAncestors path root.path path.components.dropLast).run w =
      (.ok (root.path ++ path.components.dropLast), w) := by
    refine openAncestors_run (fun c hc => path.plain (List.mem_of_mem_dropLast hc)) fun k hk => ?_
    rw [List.length_dropLast] at hk
    rw [List.dropLast_eq_take, List.take_take, min_eq_left hk]
    exact h k (by omega)
  unfold resolveParent
  rw [rejectProtected_eq_ok_iff (u := ()).2 hprot, Fallible.run_bind_ok (Fallible.run_lift _ _),
    Fallible.run_bind_ok hopen]
  rfl

end QuicSync
