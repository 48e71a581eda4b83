import QuicSync.Sync.Visits

/-!
# Staging a plan

While transfers run, the destination receives the bytes of every file upsert into a temporary file
and retains the operations; transfers end in any order.  `stagePlan` does this for a whole plan in
a given order.

`stagePlan_ok` says what is there when it succeeds: the operations in the order of the plan, each
file upsert with a file that is ready to be installed, and a tree that is the same outside the
directory for temporary files.
-/

namespace QuicSync

open Posix

/-- Receive the bytes for a file upsert, and retain the operation. -/
def stageOperation (directory : Path) (content : RelativePath → Bytes)
    (random : RelativePath → Vector UInt8 16) (pending : PendingCommit) (operation : Operation) :
    FsM PendingCommit :=
  if operation.isUpsertFile then do
    let file ← StagedFile.receiveIn directory (some (random operation.path))
      ⟨content operation.path, none⟩
    pending.stage operation (some file)
  else pending.stage operation none

/-- Stage operations one after the other. -/
def stageAll (directory : Path) (content : RelativePath → Bytes)
    (random : RelativePath → Vector UInt8 16) : List Operation → PendingCommit → FsM PendingCommit
  | [], pending => pure pending
  | operation :: operations, pending => do
    let pending ← stageOperation directory content random pending operation
    stageAll directory content random operations pending

/-- Stage the operations of a plan in the order in which their transfers end, with the bytes and the
random file names for their paths. -/
def stagePlan (root : RootHandle) (content : RelativePath → Bytes)
    (random : RelativePath → Vector UInt8 16) (order : List Operation) : FsM PendingCommit := do
  let directory ← stagingDirectory root
  stageAll directory content random order PendingCommit.default

/-- The staged file for a path. -/
def stagedFile (root : RootHandle) (random : RelativePath → Vector UInt8 16)
    (path : RelativePath) : StagedFile :=
  ⟨root.path ++ [stagingName], random path⟩

section

variable {root : RootHandle} {content : RelativePath → Bytes}
  {random : RelativePath → Vector UInt8 16} {w w' : World}

/-! ### Receiving -/

/-- A received file is new, has the bytes, and nothing else changes. -/
theorem receiveIn_ok {directory : Path} {bytes : Bytes} {name : Vector UInt8 16}
    {file : StagedFile}
    (h : (StagedFile.receiveIn directory (some name) ⟨bytes, none⟩).run w = (.ok file, w')) :
    file = ⟨directory, name⟩ ∧ w'.clock = w.clock ∧ w.tree.Enterable directory ∧
      w.tree.WritableAt directory ∧ w.tree.get (directory ++ [file.name]) = none ∧
      (∃ m, w'.tree.get (directory ++ [file.name]) = some ⟨.file bytes, 0o600, m⟩) ∧
      SameEntry (w.tree.get directory) (w'.tree.get directory) ∧
      ∀ q, q ≠ directory → q ≠ directory ++ [file.name] → w'.tree.get q = w.tree.get q := by
  unfold StagedFile.receiveIn at h
  obtain ⟨opened, w₁, hopen, hcopy⟩ := Fallible.run_bind_ok_iff.1 h
  have hexcl : openatExcl w directory (StagedFile.name ⟨directory, name⟩) 0o600 =
      .ok (w₁, opened) := by
    simp only [Fallible.run] at hopen
    split at hopen
    · rename_i heq
      cases hopen
      exact heq
    · cases hopen
  have hplain := StagedFile.plain_name ⟨directory, name⟩
  obtain ⟨henter, hnone, hwrite, hcreated⟩ := (create_eq_ok_iff hplain).1 hexcl
  cases hcreated
  have hget := Tree.get_added (i := ⟨.file [], 0o600, w.now⟩) w.now henter.isDir hnone
  -- the content is written to the file that has just been created
  set p := directory ++ [StagedFile.name ⟨directory, name⟩] with hp
  have hcopied : file = ⟨directory, name⟩ ∧ w' = write (w.record
      (w.tree.added directory (StagedFile.name ⟨directory, name⟩) ⟨.file [], 0o600, w.now⟩ w.now))
      p bytes := by
    obtain ⟨hfile, hw⟩ := Prod.mk.inj hcopy.symm
    exact ⟨Except.ok.inj hfile, hw⟩
  obtain ⟨rfl, rfl⟩ := hcopied
  have hfile : (w.tree.added directory (StagedFile.name ⟨directory, name⟩)
      ⟨.file [], 0o600, w.now⟩ w.now).get p = some ⟨.file [], 0o600, w.now⟩ := by
    rw [hget, if_pos rfl]
  have hcan (i : Inode) : (w.tree.added directory (StagedFile.name ⟨directory, name⟩)
      ⟨.file [], 0o600, w.now⟩ w.now).CanInsert p i := by
    refine ⟨Or.inr (Tree.isDir_dropLast hfile (by simp [hp])), Or.inr fun hchild => ?_⟩
    obtain ⟨j, hj, hjdir⟩ := hchild.isDir
    rw [Option.mem_def, hfile] at hj
    cases hj
    cases hjdir
  have hwritten (q : Path) : (write (w.record (w.tree.added directory
      (StagedFile.name ⟨directory, name⟩) ⟨.file [], 0o600, w.now⟩ w.now)) p bytes).tree.get q =
      if q = p then some ⟨.file bytes, 0o600, w.clock (w.past.length + 1)⟩
      else (w.tree.added directory (StagedFile.name ⟨directory, name⟩)
        ⟨.file [], 0o600, w.now⟩ w.now).get q := by
    unfold write
    rw [World.record_tree, hfile]
    exact Tree.get_insert (hcan _) q
  refine ⟨rfl, ?_, henter, hwrite, hnone, ⟨_, (hwritten p).trans (if_pos rfl)⟩, ?_, fun q hq hq' => ?_⟩
  · unfold write
    rw [World.record_tree, hfile]
    rfl
  · have hne : directory ≠ p := Tree.ne_append_singleton _ _
    rw [hwritten, if_neg hne]
    exact Tree.sameEntry_added henter.isDir hnone hne
  · rw [hwritten, if_neg hq', hget, if_neg hq', if_neg hq]

/-- What staging does: it creates the file, copies what is read, and drops the file when the reader
is interrupted. -/
theorem run_receiveIn (directory : Path) (name : Vector UInt8 16) (content : Content) (w : World) :
    (StagedFile.receiveIn directory (some name) content).run w =
      match openatExcl w directory (StagedFile.name ⟨directory, name⟩) 0o600 with
      | .error e => (.error (Staging.systemFailure e), w)
      | .ok (w₁, p) =>
        match content.interrupted with
        | none => (.ok ⟨directory, name⟩, write w₁ p content.bytes)
        | some message => (.error (Staging.failure (.text ("staging: " ++ message))),
            ((StagedFile.drop ⟨directory, name⟩).run (write w₁ p content.bytes)).2) := by
  obtain ⟨bytes, interrupted⟩ := content
  unfold StagedFile.receiveIn
  cases hexcl : openatExcl w directory (StagedFile.name ⟨directory, name⟩) 0o600 with
  | error e =>
    refine Fallible.run_bind_error ?_
    simp only [Fallible.run, hexcl]
  | ok created =>
    obtain ⟨w₁, p⟩ := created
    cases interrupted with
    | none =>
      refine Fallible.run_bind_ok ?_
      simp only [Fallible.run, hexcl]
    | some message =>
      refine Fallible.run_bind_ok ?_
      simp only [Fallible.run, hexcl]

/-- Staging succeeds where the name is free in a directory that may be changed. -/
theorem receiveIn_run {directory : Path} {name : Vector UInt8 16}
    (henter : w.tree.Enterable directory) (hwrite : w.tree.WritableAt directory)
    (hnone : w.tree.get (directory ++ [StagedFile.name ⟨directory, name⟩]) = none) (bytes : Bytes) :
    ∃ w', (StagedFile.receiveIn directory (some name) ⟨bytes, none⟩).run w =
      (.ok ⟨directory, name⟩, w') := by
  have hexcl : openatExcl w directory (StagedFile.name ⟨directory, name⟩) 0o600 = .ok (_, _) :=
    (create_eq_ok_iff (StagedFile.plain_name ⟨directory, name⟩)).2 ⟨henter, hnone, hwrite, rfl⟩
  rw [run_receiveIn, hexcl]
  exact ⟨_, rfl⟩

/-- What is staged has a name and has been read to its end. -/
theorem receiveIn_complete {directory : Path} {random : Option (Vector UInt8 16)}
    {content : Content} {file : StagedFile}
    (h : (StagedFile.receiveIn directory random content).run w = (.ok file, w')) :
    ∃ name, random = some name ∧ content.interrupted = none := by
  cases random with
  | none => cases h
  | some name =>
    refine ⟨name, rfl, ?_⟩
    obtain ⟨bytes, interrupted⟩ := content
    rw [run_receiveIn] at h
    split at h
    · cases h
    · cases interrupted with
      | none => rfl
      | some message => cases h

/-- A staged file that is dropped leaves nothing behind. -/
theorem drop_receiveIn {directory : Path} {random : Option (Vector UInt8 16)} {content : Content}
    {file : StagedFile}
    (h : (StagedFile.receiveIn directory random content).run w = (.ok file, w'))
    (q : Path) : SameEntry (w.tree.get q) ((file.drop.run w').2.tree.get q) := by
  obtain ⟨name, rfl, hcomplete⟩ := receiveIn_complete h
  obtain ⟨bytes, interrupted⟩ := content
  obtain rfl : interrupted = none := hcomplete
  obtain ⟨rfl, -, henter, hwrite, hnone, ⟨m, hentry⟩, hdir, hother⟩ := receiveIn_ok h
  have hleaf : ¬ w'.tree.HasChild (directory ++ [StagedFile.name ⟨directory, name⟩]) := by
    intro hchild
    obtain ⟨j, hj, hjdir⟩ := hchild.isDir
    rw [Option.mem_def, hentry] at hj
    cases hj
    cases hjdir
  obtain ⟨i, hi, hidir, hsearch⟩ := henter
  obtain ⟨j, hj, hjwrite⟩ := hwrite
  obtain rfl : i = j := Option.some.inj (hi.symm.trans hj)
  rw [hi] at hdir
  obtain ⟨i', hi', hi'dir, -, hi'search, hi'write⟩ := hdir.permissions hidir
  have hunlink : unlinkat w' directory (StagedFile.name ⟨directory, name⟩) false = .ok _ :=
    (unlinkat_eq_ok_iff (StagedFile.plain_name ⟨directory, name⟩)).2
      ⟨⟨i', hi', hi'dir, hi'search.2 hsearch⟩, ⟨i', hi', hi'write.2 hjwrite⟩,
        ⟨_, hentry, by simp [Inode.IsDir]⟩, hleaf, rfl⟩
  rw [StagedFile.run_drop]
  simp only [hunlink, World.record_tree]
  by_cases hq : q = directory ++ [StagedFile.name ⟨directory, name⟩]
  · rw [hq, Tree.get_removed _ hleaf, if_pos rfl, hnone]
    exact SameEntry.refl none
  · refine SameEntry.trans ?_ (Tree.sameEntry_removed ⟨i', hi', hi'dir⟩ hleaf hq)
    by_cases hqdir : q = directory
    · rw [hqdir, hi]
      exact hdir
    · exact SameEntry.of_eq (hother q hqdir hq).symm

/-- Staging that fails leaves nothing behind. -/
theorem receiveIn_error {directory : Path} {random : Option (Vector UInt8 16)} {content : Content}
    {e : QuicSyncError} (h : (StagedFile.receiveIn directory random content).run w = (.error e, w'))
    (q : Path) : SameEntry (w.tree.get q) (w'.tree.get q) := by
  cases random with
  | none =>
    obtain ⟨-, rfl⟩ := Prod.mk.inj h
    exact SameEntry.refl _
  | some name =>
    rw [run_receiveIn] at h
    cases hexcl : openatExcl w directory (StagedFile.name ⟨directory, name⟩) 0o600 with
    | error e =>
      rw [hexcl] at h
      obtain ⟨-, rfl⟩ := Prod.mk.inj h
      exact SameEntry.refl _
    | ok created =>
      obtain ⟨w₁, p⟩ := created
      obtain ⟨bytes, interrupted⟩ := content
      rw [hexcl] at h
      cases interrupted with
      | none => cases h
      | some message =>
        obtain ⟨-, rfl⟩ := Prod.mk.inj h
        have hcopied : (StagedFile.receiveIn directory (some name) ⟨bytes, none⟩).run w =
            (.ok ⟨directory, name⟩, write w₁ p bytes) := by
          rw [run_receiveIn, hexcl]
        exact drop_receiveIn hcopied q

/-! ### The tree while transfers stage -/

/-- Entries outside the directory for temporary files are the same, up to the modification time of
the root. -/
structure OnlyStaging (root : RootHandle) (w w' : World) : Prop where
  clock : w'.clock = w.clock
  root_entry : SameEntry (w.tree.get root.path) (w'.tree.get root.path)
  other : ∀ q, q ≠ root.path → ¬ root.path ++ [stagingName] <+: q → w'.tree.get q = w.tree.get q

theorem OnlyStaging.refl (root : RootHandle) (w : World) : OnlyStaging root w w :=
  ⟨rfl, SameEntry.refl _, fun _ _ _ => rfl⟩

theorem OnlyStaging.trans {w'' : World} (h : OnlyStaging root w w') (h' : OnlyStaging root w' w'') :
    OnlyStaging root w w'' :=
  ⟨h'.clock.trans h.clock, h.root_entry.trans h'.root_entry, fun q hq hout =>
    (h'.other q hq hout).trans (h.other q hq hout)⟩

theorem OnlyStaging.below {p : RelativePath} (h : OnlyStaging root w w') (hprot : Unprotected p)
    (l : List Bytes) : w'.tree.get (root.at p ++ l) = w.tree.get (root.at p ++ l) := by
  refine h.other _ (fun heq => p.ne_nil ?_) (not_staging_below root hprot l)
  unfold RootHandle.at at heq
  rw [List.append_assoc] at heq
  exact (List.append_eq_nil_iff.1 (List.append_right_eq_self.1 heq)).1

theorem OnlyStaging.at {p : RelativePath} (h : OnlyStaging root w w') (hprot : Unprotected p) :
    w'.tree.get (root.at p) = w.tree.get (root.at p) := by
  have hbelow := h.below hprot []
  rwa [List.append_nil] at hbelow

theorem root_ne_staging (root : RootHandle) (l : List Bytes) :
    root.path ≠ root.path ++ [stagingName] ++ l := by
  intro heq
  have hlen := congrArg List.length heq
  rw [List.length_append, List.length_append, List.length_singleton] at hlen
  omega

/-- Opening the directory for temporary files creates at most it. -/
theorem stagingDirectory_created {directory : Path}
    (h : (stagingDirectory root).run w = (.ok directory, w')) :
    w' = w ∨ w.tree.Enterable root.path ∧ w.tree.get (root.path ++ [stagingName]) = none ∧
      w' = w.record
        (w.tree.added root.path stagingName ⟨.directory, 0o700, w.now⟩ w.now) := by
  unfold stagingDirectory at h
  obtain ⟨_, w₁, hmkdir, h₁⟩ := Fallible.run_bind_ok_iff.1 h
  obtain ⟨opened, w₂, hquery, h₂⟩ := Fallible.run_bind_ok_iff.1 h₁
  obtain ⟨-, rfl⟩ := query_ok hquery
  have hw' : w' = w₂ := by
    rw [Fallible.run_bind_ok (Fallible.run_get _)] at h₂
    split at h₂
    · exact (congrArg Prod.snd h₂).symm
    · cases h₂
  subst hw'
  rw [run_tolerate] at hmkdir
  cases hcall : mkdirat w root.path stagingName 0o700 with
  | error e =>
    rw [hcall] at hmkdir
    simp only at hmkdir
    split at hmkdir
    · cases hmkdir
      exact Or.inl rfl
    · cases hmkdir
  | ok w₃ =>
    rw [hcall] at hmkdir
    cases hmkdir
    obtain ⟨henter, hnone, -, hw⟩ := (mkdirat_eq_ok_iff (by decide)).1 hcall
    exact Or.inr ⟨henter, hnone, hw⟩

theorem stagingDirectory_onlyStaging {directory : Path}
    (h : (stagingDirectory root).run w = (.ok directory, w')) : OnlyStaging root w w' := by
  obtain rfl | ⟨henter, hnone, rfl⟩ := stagingDirectory_created h
  · exact OnlyStaging.refl root _
  · refine ⟨rfl, Tree.sameEntry_added henter.isDir hnone (by simp), fun q hq hout => ?_⟩
    rw [World.record_tree, Tree.get_added _ henter.isDir hnone, if_neg, if_neg hq]
    exact fun heq => hout (heq ▸ List.prefix_rfl)

/-- What has been staged so far. -/
structure StagedSoFar (root : RootHandle) (content : RelativePath → Bytes)
    (random : RelativePath → Vector UInt8 16) (w₀ : World) (staged : List Operation)
    (pending : PendingCommit) (w : World) : Prop where
  changes : pending.changes.Perm (staged.map (withFile (stagedFile root random)))
  onlyStaging : OnlyStaging root w₀ w
  ready : ∀ operation ∈ staged, operation.isUpsertFile = true →
    Ready root (stagedFile root random operation.path) (content operation.path) w
  names : ((staged.filter Operation.isUpsertFile).map fun operation =>
    (stagedFile root random operation.path).name).Nodup
  /-- What was there is the same, and is none of the files. -/
  existing : ∀ q, w₀.tree.get q ≠ none → SameEntry (w₀.tree.get q) (w.tree.get q) ∧
    ∀ operation ∈ staged, operation.isUpsertFile = true →
      q ≠ root.path ++ [stagingName] ++ [(stagedFile root random operation.path).name]

theorem perm_insertChange (change : Change) (changes : List Change) :
    (PendingCommit.insertChange change changes).Perm (change :: changes) := by
  induction changes with
  | nil => exact .refl _
  | cons c changes ih =>
    unfold PendingCommit.insertChange
    split
    · exact .refl _
    · exact (List.Perm.cons c ih).trans (.swap change c changes)

/-- A retained change is one more. -/
theorem stage_ok {pending pending' : PendingCommit} {operation : Operation}
    {file : Option StagedFile}
    (h : (pending.stage operation file).run w = (.ok pending', w')) :
    w' = w ∧ pending'.changes.Perm ((operation, file) :: pending.changes) := by
  unfold PendingCommit.stage at h
  split at h
  · obtain ⟨_, _, -, hfail⟩ := Fallible.run_bind_ok_iff.1 h
    cases hfail
  · split at h
    · obtain ⟨_, _, -, hfail⟩ := Fallible.run_bind_ok_iff.1 h
      cases hfail
    · obtain ⟨hpending, hw⟩ := Prod.mk.inj h
      cases hpending
      exact ⟨hw.symm, perm_insertChange _ _⟩

/-- Receiving a file changes nothing outside the directory for temporary files. -/
theorem onlyStaging_receiveIn {bytes : Bytes} {name : Vector UInt8 16} {file : StagedFile}
    (h : (StagedFile.receiveIn (root.path ++ [stagingName]) (some name) ⟨bytes, none⟩).run w =
      (.ok file, w')) : OnlyStaging root w w' := by
  obtain ⟨-, hclock, -, -, -, -, -, hother⟩ := receiveIn_ok h
  refine ⟨hclock, SameEntry.of_eq (hother _ ?_ ?_).symm,
    fun q _ hout => hother q (fun heq => hout ?_) (fun heq => hout ?_)⟩
  · simp
  · exact root_ne_staging root _
  · exact heq ▸ List.prefix_rfl
  · exact heq ▸ List.prefix_append _ _

/-- A file that has been received is ready to be installed. -/
theorem ready_of_receiveIn {bytes : Bytes} {name : Vector UInt8 16} {file : StagedFile}
    (h : (StagedFile.receiveIn (root.path ++ [stagingName]) (some name) ⟨bytes, none⟩).run w =
      (.ok file, w')) : Ready root file bytes w' := by
  obtain ⟨rfl, -, henter, hwrite, -, hentry, hdir, -⟩ := receiveIn_ok h
  obtain ⟨i, hi, hidir, hsearch⟩ := henter
  obtain ⟨j, hj, hjwrite⟩ := hwrite
  obtain rfl : i = j := Option.some.inj (hi.symm.trans hj)
  rw [hi] at hdir
  obtain ⟨i', hi', hi'dir, -, hi'search, hi'write⟩ := hdir.permissions hidir
  exact ⟨rfl, ⟨i', hi', hi'dir, hi'search.2 hsearch⟩, ⟨i', hi', hi'write.2 hjwrite⟩, hentry⟩

section

variable {w₀ : World} {staged : List Operation} {pending pending' : PendingCommit}
  {operation : Operation}

/-- Staging an operation that needs no file. -/
theorem StagedSoFar.stage (h : StagedSoFar root content random w₀ staged pending w)
    (hkind : operation.isUpsertFile = false)
    (hperm : pending'.changes.Perm ((operation, none) :: pending.changes)) :
    StagedSoFar root content random w₀ (operation :: staged) pending' w := by
  refine ⟨?_, h.onlyStaging, fun o ho hfile => ?_, ?_, fun q hq => ⟨(h.existing q hq).1,
    fun o ho hfile => ?_⟩⟩
  · have hchange : withFile (stagedFile root random) operation = (operation, none) := by
      simp [withFile, hkind]
    rw [List.map_cons, hchange]
    exact hperm.trans (h.changes.cons _)
  · obtain rfl | ho := List.mem_cons.1 ho
    · rw [hkind] at hfile
      cases hfile
    · exact h.ready o ho hfile
  · rw [List.filter_cons_of_neg (by simp [hkind])]
    exact h.names
  · obtain rfl | ho := List.mem_cons.1 ho
    · rw [hkind] at hfile
      cases hfile
    · exact (h.existing q hq).2 o ho hfile

/-- Staging a file upsert with the file that has been received for it. -/
theorem StagedSoFar.stageFile (h : StagedSoFar root content random w₀ staged pending w)
    (hkind : operation.isUpsertFile = true)
    (hreceive : (StagedFile.receiveIn (root.path ++ [stagingName]) (some (random operation.path))
      ⟨content operation.path, none⟩).run w = (.ok (stagedFile root random operation.path), w'))
    (hperm : pending'.changes.Perm
      ((operation, some (stagedFile root random operation.path)) :: pending.changes)) :
    StagedSoFar root content random w₀ (operation :: staged) pending' w' := by
  obtain ⟨-, -, -, -, hnone, -, hdir, hother⟩ := receiveIn_ok hreceive
  -- the new name is not that of an earlier file
  have hnew : ∀ o ∈ staged, o.isUpsertFile = true → (stagedFile root random o.path).name ≠
      (stagedFile root random operation.path).name := by
    intro o ho hupsert heq
    obtain ⟨m', hentry'⟩ := (h.ready o ho hupsert).entry
    rw [heq] at hentry'
    exact absurd (hnone.symm.trans hentry') (by simp)
  -- what was there is not the new file
  have hfresh {q : Path} (hq : w₀.tree.get q ≠ none) :
      q ≠ root.path ++ [stagingName] ++ [(stagedFile root random operation.path).name] := by
    rintro rfl
    have hsame := (h.existing _ hq).1
    rw [hnone] at hsame
    exact hq (SameEntry.none_iff.1 hsame.symm)
  refine ⟨?_, h.onlyStaging.trans (onlyStaging_receiveIn hreceive), fun o ho hupsert => ?_, ?_,
    fun q hq => ⟨(h.existing q hq).1.trans ?_, fun o ho hupsert => ?_⟩⟩
  · have hchange : withFile (stagedFile root random) operation =
        (operation, some (stagedFile root random operation.path)) := by
      simp [withFile, hkind]
    rw [List.map_cons, hchange]
    exact hperm.trans (h.changes.cons _)
  · obtain rfl | ho := List.mem_cons.1 ho
    · exact ready_of_receiveIn hreceive
    · refine (h.ready o ho hupsert).of_same hdir (hother _ ?_ ?_)
      · exact (Tree.ne_append_singleton _ _).symm
      · exact fun heq => hnew o ho hupsert (by simpa [stagedFile] using heq)
  · rw [List.filter_cons_of_pos (by simp [hkind]), List.map_cons, List.nodup_cons]
    refine ⟨fun hmem => ?_, h.names⟩
    obtain ⟨o, ho, hname⟩ := List.mem_map.1 hmem
    obtain ⟨ho, hupsert⟩ := List.mem_filter.1 ho
    exact hnew o ho hupsert hname
  · by_cases hdirectory : q = root.path ++ [stagingName]
    · exact hdirectory ▸ hdir
    · exact SameEntry.of_eq (hother q hdirectory (hfresh hq)).symm
  · obtain rfl | ho := List.mem_cons.1 ho
    · exact hfresh hq
    · exact (h.existing q hq).2 o ho hupsert

/-- Staging one operation. -/
theorem StagedSoFar.stageOperation (h : StagedSoFar root content random w₀ staged pending w)
    (hrun : (QuicSync.stageOperation (root.path ++ [stagingName]) content random pending
      operation).run w = (.ok pending', w')) :
    StagedSoFar root content random w₀ (operation :: staged) pending' w' := by
  unfold QuicSync.stageOperation at hrun
  cases hkind : operation.isUpsertFile with
  | false =>
    rw [hkind, if_neg Bool.false_ne_true] at hrun
    obtain ⟨rfl, hperm⟩ := stage_ok hrun
    exact h.stage hkind hperm
  | true =>
    rw [hkind, if_pos rfl] at hrun
    obtain ⟨file, w₁, hreceive, hstage⟩ := Fallible.run_bind_ok_iff.1 hrun
    obtain ⟨rfl, hperm⟩ := stage_ok hstage
    obtain rfl : file = stagedFile root random operation.path := (receiveIn_ok hreceive).1
    exact h.stageFile hkind hreceive hperm

end

/-- Staging all operations. -/
theorem StagedSoFar.stageAll {w₀ : World} {staged operations : List Operation}
    {pending pending' : PendingCommit}
    (h : StagedSoFar root content random w₀ staged pending w)
    (hrun : (QuicSync.stageAll (root.path ++ [stagingName]) content random operations pending).run
      w = (.ok pending', w')) :
    StagedSoFar root content random w₀ (operations.reverse ++ staged) pending' w' := by
  induction operations generalizing staged pending w with
  | nil =>
    obtain ⟨hpending, rfl⟩ := Prod.mk.inj hrun
    cases hpending
    exact h
  | cons operation operations ih =>
    obtain ⟨pending₁, w₁, hstage, hrest⟩ := Fallible.run_bind_ok_iff.1 hrun
    rw [List.reverse_cons, List.append_assoc]
    exact ih (h.stageOperation hstage) hrest

/-! ### Identifiers -/

/-- Consecutive identifiers; they wrap around. -/
def idsFrom (n : UInt64) (l : ℕ) : List UInt64 := (List.range l).map fun i => n + UInt64.ofNat i

theorem idsFrom_add (n : UInt64) (k l : ℕ) :
    idsFrom n (k + l) = idsFrom n k ++ idsFrom (n + UInt64.ofNat k) l := by
  unfold idsFrom
  rw [List.range_add, List.map_append, List.map_map]
  refine congrArg _ (List.map_congr_left fun i _ => ?_)
  rw [Function.comp_apply, UInt64.ofNat_add, UInt64.add_assoc]

theorem ids_roundOperations (a b : Option IndexRecord) (n : UInt64) :
    (roundOperations a b n).1.map (fun o => o.id.get) =
        idsFrom n (roundOperations a b n).1.length ∧
      (roundOperations a b n).2 = n + UInt64.ofNat (roundOperations a b n).1.length := by
  have hupsert (id : OperationId) (a : IndexRecord) (update : Bool) :
      (upsertOperation id a update).id = id := by
    unfold upsertOperation
    cases a.metadata.kind <;> rfl
  have hdelete (id : OperationId) (path : RelativePath) (kind : EntryKind) :
      (Operation.delete id path kind).id = id := rfl
  have htwo : n + 1 + 1 = n + 2 := by rw [UInt64.add_assoc]; rfl
  unfold roundOperations idsFrom
  split
  · simp
  · cases a <;> cases b <;> simp only <;> (try split) <;>
      simp [hupsert, hdelete, List.range_succ, htwo]

/-- The identifiers of a plan are consecutive. -/
theorem ids_operations (rounds : List Round) (n : UInt64) :
    (operations rounds n).map (fun o => o.id.get) = idsFrom n (operations rounds n).length := by
  induction rounds generalizing n with
  | nil => rfl
  | cons r rounds ih =>
    obtain ⟨hids, hnext⟩ := ids_roundOperations r.source r.destination n
    rw [operations, List.map_append, List.length_append, idsFrom_add, hids, ih, ← hnext]

/-- Consecutive identifiers that do not repeat increase. -/
theorem pairwise_idsFrom_zero {l : ℕ} (h : (idsFrom 0 l).Nodup) :
    (idsFrom 0 l).Pairwise (· < ·) := by
  have hle : l ≤ 2 ^ 64 := by
    by_contra hlt
    rw [not_le] at hlt
    have hinj := List.inj_on_of_nodup_map h (List.mem_range.2 (Nat.zero_lt_of_lt hlt))
      (List.mem_range.2 hlt) (by decide)
    exact absurd hinj (by decide)
  unfold idsFrom
  rw [List.pairwise_map]
  refine List.pairwise_lt_range.imp_of_mem fun {i j} hi hj hij => ?_
  have hi' := List.mem_range.1 hi
  have hj' := List.mem_range.1 hj
  have hsize : UInt64.size = 2 ^ 64 := rfl
  rw [UInt64.zero_add, UInt64.zero_add, UInt64.lt_iff_toNat_lt, UInt64.toNat_ofNat_of_lt' (by omega),
    UInt64.toNat_ofNat_of_lt' (by omega)]
  exact hij

/-- Changes retained in any order are in the order of the plan. -/
theorem changes_eq {pending : PendingCommit} {rounds : List Round}
    {file : RelativePath → StagedFile}
    (h : pending.changes.Perm ((operations rounds 0).map (withFile file))) :
    pending.changes = (operations rounds 0).map (withFile file) := by
  have hids (changes : List Change) : changes.Pairwise (fun a b => a.1.id.get < b.1.id.get) ↔
      (changes.map fun c => c.1.id.get).Pairwise (· < ·) := List.pairwise_map.symm
  have hmap : ((operations rounds 0).map (withFile file)).map (fun c => c.1.id.get) =
      idsFrom 0 (operations rounds 0).length := by
    rw [List.map_map, ← ids_operations]
    rfl
  have hnodup : (idsFrom 0 (operations rounds 0).length).Nodup := by
    rw [← hmap]
    refine (h.map _).nodup_iff.1 ?_
    exact ((hids _).1 pending.sorted).imp fun hlt heq => UInt64.ne_of_lt hlt heq
  refine h.eq_of_pairwise (fun a b _ _ hab hba => ?_) pending.sorted ?_
  · exact absurd hab (UInt64.lt_asymm hba)
  · rw [hids, hmap]
    exact pairwise_idsFrom_zero hnodup

/-! ### Whole plans -/

/-- **Staging a plan**: what there is when it succeeds. -/
theorem stagePlan_ok {order : List Operation} {pending : PendingCommit}
    (h : (stagePlan root content random order).run w = (.ok pending, w')) :
    StagedSoFar root content random w order.reverse pending w' := by
  obtain ⟨directory, w₁, hdir, hall⟩ := Fallible.run_bind_ok_iff.1 h
  rw [stagingDirectory_ok hdir] at hall
  have hexisting : ∀ q, w.tree.get q ≠ none → SameEntry (w.tree.get q) (w₁.tree.get q) := by
    intro q hq
    obtain rfl | ⟨henter, hnone, rfl⟩ := stagingDirectory_created hdir
    · exact SameEntry.refl _
    · refine Tree.sameEntry_added henter.isDir hnone ?_
      rintro rfl
      exact hq hnone
  have hstart : StagedSoFar root content random w [] PendingCommit.default w₁ :=
    ⟨.refl _, stagingDirectory_onlyStaging hdir, by simp, by simp, fun q hq =>
      ⟨hexisting q hq, by simp⟩⟩
  have hdone := hstart.stageAll hall
  rwa [List.append_nil] at hdone

theorem exists_upsertFile {keys : List Round} {r : Round} (hr : r ∈ keys) (hcoherent : r.Coherent)
    (hchanged : r.source ≠ r.destination) (hkind : r.sourceKind = some .regularFile) (n : UInt64) :
    ∃ operation ∈ operations keys n, operation.isUpsertFile = true ∧ operation.path = r.path := by
  induction keys generalizing n with
  | nil => cases hr
  | cons k keys ih =>
    obtain rfl | hr := List.mem_cons.1 hr
    · obtain ⟨a, ha, hakind⟩ := Option.map_eq_some_iff.1 hkind
      have hmem : ∃ id update, upsertOperation id a update ∈
          (roundOperations r.source r.destination n).1 := by
        cases hb : r.destination with
        | none => exact ⟨_, _, by rw [ha, roundOperations_create]; exact List.mem_cons_self⟩
        | some b =>
          rw [ha, hb] at hchanged
          by_cases hab : a.metadata.kind = b.metadata.kind
          · obtain ⟨update, hops⟩ :=
              roundOperations_update (fun h => hchanged (congrArg some h)) hab n
            exact ⟨_, update, by rw [ha, hops]; exact List.mem_cons_self⟩
          · obtain ⟨update, hops⟩ := roundOperations_replace hab n
            exact ⟨_, update, by rw [ha, hops]; exact List.mem_cons_of_mem _ List.mem_cons_self⟩
      obtain ⟨id, update, hmem⟩ := hmem
      refine ⟨_, List.mem_append_left _ hmem, ?_, (path_upsertOperation _ _ _).trans
        (hcoherent.1 a ha)⟩
      unfold upsertOperation
      rw [hakind]
      rfl
    · obtain ⟨operation, hmem, hop⟩ := ih hr (roundOperations k.source k.destination n).2
      exact ⟨operation, List.mem_append_right _ hmem, hop⟩

/-- The directories that could be traversed before staging can be afterwards. -/
theorem OnlyStaging.traversable {D : List IndexRecord} (h : OnlyStaging root w w')
    (hprot : ∀ d ∈ D, Unprotected d.path) (ht : Traversable root D w.tree) :
    Traversable root D w'.tree := by
  obtain ⟨⟨i, hi, hdir, hread, hsearch⟩, hD⟩ := ht
  have hsame := h.root_entry
  rw [hi] at hsame
  obtain ⟨j, hj, hjdir, hjread, hjsearch, -⟩ := hsame.permissions hdir
  refine ⟨⟨j, hj, hjdir, hjread.2 hread, hjsearch.2 hsearch⟩, fun d hd hkind => ?_⟩
  obtain ⟨i', hi', hperm⟩ := hD d hd hkind
  exact ⟨i', (h.at (hprot d hd)).trans hi', hperm⟩

end

end QuicSync
