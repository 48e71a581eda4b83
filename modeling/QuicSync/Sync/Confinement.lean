import QuicSync.Sync.Commit

/-!
# Writes stay below the root

Whatever operations a committer is given, it changes nothing but entries below the root with no
protected component, and the attempt's own temporary files.

* `Allowed root own P`: what one change may do to the tree.  `own` are the names of the attempt's
  temporary files and `P` says at which relative paths entries may change.
* `Site.Good`: the invariant of the committer, that what waits on the stack is for such paths and
  files.
* `feed_evolves` and `commit_evolves`: every change of a whole run is allowed.

The changes are those of the world's history, so each is judged in the tree it was made in.
-/

namespace QuicSync

open Posix

/-- The path of a temporary file. -/
def stagedPath (root : RootHandle) (name : Name) : Path := root.path ++ [stagingName] ++ [name]

/-- Entries other than the attempt's temporary files, and other than `except`, are the same. -/
def SameExcept (root : RootHandle) (own : List Name) (except : Path → Prop) (t t' : Tree) : Prop :=
  ∀ q, ¬ except q → (∀ name ∈ own, q ≠ stagedPath root name) → SameEntry (t.get q) (t'.get q)

/-- One change: of the attempt's own temporary files, and of at most one entry whose path has no
protected component and whose parent is a directory. -/
inductive Allowed (root : RootHandle) (own : List Name) (P : RelativePath → Prop) (t t' : Tree) :
    Prop where
  | own (h : SameExcept root own (fun _ => False) t t')
  | entry (path : RelativePath) (hP : P path) (hprot : Unprotected path)
      (hdir : t.IsDir (root.path ++ path.components.dropLast))
      (h : SameExcept root own (· = root.at path) t t')

/-- A staged file is one of the attempt's. -/
structure Owned (root : RootHandle) (own : List Name) (file : StagedFile) : Prop where
  directory : file.directory = root.path ++ [stagingName]
  name : file.name ∈ own

section

variable {root : RootHandle} {own : List Name} {P : RelativePath → Prop} {w : World}
  {path : RelativePath} {file : StagedFile} {α : Type}

/-! ### The file system computations -/

/-- The computation makes allowed changes only. -/
abbrev Confines (root : RootHandle) (own : List Name) (P : RelativePath → Prop) (m : FsM α)
    (w : World) : Prop :=
  KeepsAt (Evolves (Allowed root own P)) m w

theorem Confines.bind {β : Type} {m : FsM α} {f : α → FsM β} (hm : Confines root own P m w)
    (hf : ∀ a w', m.run w = (.ok a, w') → Confines root own P (f a) w') :
    Confines root own P (m >>= f) w :=
  KeepsAt.bind (R := Evolves (Allowed root own P)) (fun _ _ _ => Evolves.trans) hm hf

/-- A computation that changes nothing. -/
theorem Confines.of_state {m : FsM α} (h : (m.run w).2 = w) : Confines root own P m w := by
  unfold Confines KeepsAt
  rw [h]
  exact Evolves.refl w

theorem Confines.query (f : World → Except Errno α) (error : Errno → QuicSyncError) :
    Confines root own P (query f error) w :=
  Confines.of_state rfl

theorem Confines.call {f : World → Except Errno World} {error : Errno → QuicSyncError}
    (h : ∀ w', f w = .ok w' → Evolves (Allowed root own P) w w') :
    Confines root own P (call f error) w := by
  unfold Confines KeepsAt
  rw [run_call]
  cases hf : f w with
  | ok w' => exact h w' hf
  | error e => exact Evolves.refl w

theorem Confines.tolerate {tolerated : Errno} {f : World → Except Errno World}
    {error : Errno → QuicSyncError}
    (h : ∀ w', f w = .ok w' → Evolves (Allowed root own P) w w') :
    Confines root own P (tolerate tolerated f error) w := by
  unfold Confines KeepsAt
  rw [run_tolerate]
  cases hf : f w with
  | ok w' => exact h w' hf
  | error e =>
    simp only
    split <;> exact Evolves.refl w

/-- After resolution, the rest works on the physical parent. -/
theorem Confines.resolveParent {f : ValidatedParent → FsM α}
    (h : Unprotected path → Confines root own P (f (parentOf root path)) w) :
    Confines root own P (resolveParent root path >>= f) w := by
  refine Confines.bind (Confines.of_state (resolveParent_state root path w)) fun parent w' hrun => ?_
  obtain ⟨rfl, hprot, rfl⟩ := resolveParent_ok hrun
  exact h hprot

/-- Setting mode and time of an entry changes nothing else. -/
theorem Confines.setFileMetadata {p : Path} {metadata : EntryMetadata}
    (h : ∀ w' : World, ((w'.tree.get p).isSome = (w.tree.get p).isSome) →
      ∀ t' : Tree, (∀ q ≠ p, t'.get q = w'.tree.get q) → Allowed root own P w'.tree t') :
    Confines root own P (setFileMetadata p metadata) w := by
  have hchmod : Evolves (Allowed root own P) w (fchmod w p metadata.mode) := by
    refine Evolves.record (h w rfl _ fun q hq => ?_)
    rw [Tree.get_modify, if_neg hq]
  have hsome : ((fchmod w p metadata.mode).tree.get p).isSome = (w.tree.get p).isSome := by
    simp only [fchmod, World.record_tree, Tree.get_modify, if_true, Option.isSome_map]
  unfold QuicSync.setFileMetadata
  refine Confines.bind hchmod fun _ w₁ hrun => ?_
  cases hrun
  refine Confines.bind (Confines.of_state rfl) fun modified w₂ hrun => ?_
  obtain rfl : fchmod w p metadata.mode = w₂ := congrArg Prod.snd hrun
  refine Evolves.record (h _ hsome _ fun q hq => ?_)
  rw [Tree.get_touch, if_neg hq]

theorem confines_drop (hfile : Owned root own file) : Confines root own P file.drop w := by
  unfold Confines KeepsAt
  rw [StagedFile.run_drop]
  cases h : unlinkat w file.directory file.name false with
  | error e => exact Evolves.refl w
  | ok w' =>
    obtain ⟨hd, -, -, hchild, rfl⟩ := (unlinkat_eq_ok_iff file.plain_name).1 h
    refine Evolves.record (Allowed.own fun q _ hq => ?_)
    refine Tree.sameEntry_removed hd.isDir hchild fun heq => hq _ hfile.name ?_
    rw [heq, hfile.directory]
    rfl

/-- An entry at the path of an operation may change. -/
theorem allowed_entry {t t' : Tree} (hP : P path) (hprot : Unprotected path)
    (hdir : t.IsDir (parentOf root path).directory)
    (h : ∀ q ≠ root.at path, SameEntry (t.get q) (t'.get q)) : Allowed root own P t t' :=
  .entry path hP hprot hdir fun q hq _ => h q hq

/-- An entry that is there has a directory as its parent. -/
theorem isDir_parentOf {t : Tree} (h : (t.get (root.at path)).isSome) :
    t.IsDir (parentOf root path).directory := by
  obtain ⟨i, hi⟩ := Option.isSome_iff_exists.1 h
  rw [← parentOf_directory_leaf root path] at hi
  have hdir := Tree.isDir_dropLast hi (by simp)
  rwa [List.dropLast_concat] at hdir

theorem confines_unlinkat {removedir : Bool} {w' : World} (hP : P path) (hprot : Unprotected path)
    (h : unlinkat w (parentOf root path).directory (parentOf root path).leaf removedir = .ok w') :
    Evolves (Allowed root own P) w w' := by
  obtain ⟨hd, -, -, hchild, rfl⟩ := (unlinkat_eq_ok_iff (plain_leaf root path)).1 h
  refine Evolves.record (allowed_entry hP hprot hd.isDir fun q hq => ?_)
  rw [← parentOf_directory_leaf] at hq
  exact Tree.sameEntry_removed hd.isDir hchild hq

theorem confines_unlink {removedir : Bool} (hP : P path) :
    Confines root own P (unlink root path removedir) w :=
  Confines.resolveParent fun hprot => Confines.call fun _ h => confines_unlinkat hP hprot h

theorem confines_setFileMetadata_entry {metadata : EntryMetadata} (hP : P path)
    (hprot : Unprotected path) (hsome : (w.tree.get (root.at path)).isSome) :
    Confines root own P (setFileMetadata (root.at path) metadata) w := by
  refine Confines.setFileMetadata fun w' hw' t' ht' => ?_
  rw [hsome] at hw'
  exact allowed_entry hP hprot (isDir_parentOf hw') fun q hq => SameEntry.of_eq (ht' q hq).symm

/-- Opening the directory at the path of an operation gives that entry. -/
theorem Confines.openLeaf {error : Errno → QuicSyncError} {f : Path → FsM α}
    (h : (w.tree.get (root.at path)).isSome → Confines root own P (f (root.at path)) w) :
    Confines root own P (QuicSync.query (fun w => openat w (parentOf root path).directory
      (parentOf root path).leaf directoryFlags) error >>= f) w := by
  refine Confines.bind (Confines.query _ _) fun p w' hrun => ?_
  rw [run_query] at hrun
  cases hopen : openat w (parentOf root path).directory (parentOf root path).leaf
      directoryFlags with
  | error e =>
    rw [hopen] at hrun
    cases hrun
  | ok p' =>
    rw [hopen] at hrun
    cases hrun
    obtain ⟨-, ⟨i, hi, -⟩, rfl⟩ := (openat_directory_eq_ok_iff (plain_leaf root path)).1 hopen
    rw [parentOf_directory_leaf] at hi ⊢
    exact h (by rw [hi]; rfl)

theorem confines_directoryMetadata {metadata : EntryMetadata} (hP : P path) :
    Confines root own P (directoryMetadata root path metadata) w :=
  Confines.resolveParent fun hprot => Confines.openLeaf fun hsome =>
    confines_setFileMetadata_entry hP hprot hsome

/-- Adding an entry at the path of an operation. -/
theorem evolves_added {i : Inode} (hP : P path) (hprot : Unprotected path)
    (hd : w.tree.Enterable (parentOf root path).directory)
    (hnone : w.tree.get ((parentOf root path).directory ++ [(parentOf root path).leaf]) = none) :
    Evolves (Allowed root own P) w (w.record
      (w.tree.added (parentOf root path).directory (parentOf root path).leaf i w.now)) := by
  refine Evolves.record (allowed_entry hP hprot hd.isDir fun q hq => ?_)
  rw [← parentOf_directory_leaf] at hq
  exact Tree.sameEntry_added hd.isDir hnone hq

theorem confines_upsertDirectory {metadata : EntryMetadata} (hP : P path) :
    Confines root own P (upsertDirectory root path metadata) w := by
  refine Confines.resolveParent fun hprot => Confines.bind ?_ fun _ w₁ _ =>
    Confines.openLeaf fun hsome => ?_
  · refine Confines.tolerate fun w' h => ?_
    obtain ⟨hd, hnone, -, rfl⟩ := (mkdirat_eq_ok_iff (plain_leaf root path)).1 h
    exact evolves_added hP hprot hd hnone
  · refine Evolves.record (allowed_entry hP hprot (isDir_parentOf hsome) fun q hq => ?_)
    rw [Tree.get_modify, if_neg hq]
    exact SameEntry.refl _

theorem confines_symlink {record : IndexRecord} (hP : P record.path) :
    Confines root own P (symlink root record) w := by
  unfold symlink
  refine Confines.bind (Confines.of_state rfl) fun target w₁ _ => ?_
  refine Confines.bind (Confines.of_state rfl) fun target' w₂ _ => ?_
  refine Confines.resolveParent fun hprot => Confines.bind ?_ fun _ w₃ _ => ?_
  · exact Confines.tolerate fun w' h => confines_unlinkat hP hprot h
  refine Confines.bind (Confines.call fun w' h => ?_) fun _ w₄ _ => ?_
  · obtain ⟨hd, hnone, -, rfl⟩ := (symlinkat_eq_ok_iff (plain_leaf root record.path)).1 h
    exact evolves_added hP hprot hd hnone
  refine Confines.bind (Confines.of_state rfl) fun times w₅ _ => Confines.call fun w' h => ?_
  obtain ⟨hd, -, rfl⟩ := (utimensat_eq_ok_iff (plain_leaf root record.path)).1 h
  refine Evolves.record (allowed_entry hP hprot hd.isDir fun q hq => ?_)
  rw [← parentOf_directory_leaf] at hq
  rw [Tree.get_touch, if_neg hq]
  exact SameEntry.refl _

/-- Setting mode and time of a temporary file. -/
theorem confines_setFileMetadata_staged {w' : World} {descriptor : Path} {metadata : EntryMetadata}
    (hfile : Owned root own file)
    (hrun : (query (fun w => openat w file.directory file.name ⟨true, false, true⟩)
      Staging.systemFailure).run w = (.ok descriptor, w')) :
    Confines root own P (setFileMetadata descriptor metadata) w' := by
  -- the descriptor is that of the temporary file
  obtain ⟨hopen, -⟩ := query_ok hrun
  obtain ⟨-, -, rfl⟩ := (openat_write_eq_ok_iff file.plain_name).1 hopen
  refine Confines.setFileMetadata fun w' _ t' ht' => Allowed.own fun q _ hq => ?_
  refine SameEntry.of_eq (ht' q fun heq => hq _ hfile.name ?_).symm
  rw [heq, hfile.directory]
  rfl

theorem confines_install {metadata : EntryMetadata} (hP : P path) (hfile : Owned root own file) :
    Confines root own P (file.install root path metadata) w := by
  unfold StagedFile.install
  refine KeepsAt.onError (R := Evolves (Allowed root own P)) (fun _ _ _ => Evolves.trans) ?_
    fun w => confines_drop hfile
  split
  swap
  · exact Confines.of_state rfl
  refine Confines.bind (Confines.query _ _) fun descriptor w₁ hrun =>
    Confines.bind (confines_setFileMetadata_staged hfile hrun) fun _ w₂ _ =>
    Confines.resolveParent fun hprot => Confines.call fun w' h => ?_
  obtain ⟨hd, hd', -, -, hdst, i, hi, hidir, rfl⟩ :=
    (renameat_eq_ok_iff file.plain_name (plain_leaf root path)).1 h
  split
  · exact Evolves.refl _
  · rename_i hne
    refine Evolves.record (Allowed.entry path hP hprot hd'.isDir fun q hq hown => ?_)
    rw [← parentOf_directory_leaf] at hq
    refine Tree.sameEntry_renamed hi hidir hd.isDir hd'.isDir hdst hne (fun heq => ?_) hq
    refine hown _ hfile.name ?_
    rw [heq, hfile.directory]
    rfl

/-! ### The committer -/

/-- An action is for the paths and files of the attempt. -/
def GoodAction (root : RootHandle) (own : List Name) (P : RelativePath → Prop) : Action → Prop
  | .file file _ => Owned root own file
  | .symlink record => P record.path
  | .delete | .metadata _ => True

/-- What waits on the stack is for the paths and files of the attempt. -/
structure Site.Good (root : RootHandle) (own : List Name) (P : RelativePath → Prop) (s : Site) :
    Prop where
  root_eq : s.committer.root = root
  pending : ∀ d ∈ s.committer.pending, P d.path ∧ ∀ a ∈ d.actions, GoodAction root own P a

/-- Steps that keep the invariant of the committer and make allowed changes only. -/
def Steps (root : RootHandle) (own : List Name) (P : RelativePath → Prop) (s s' : Site) : Prop :=
  s.Good root own P → s'.Good root own P ∧ Evolves (Allowed root own P) s.world s'.world

theorem Steps.refl (s : Site) : Steps root own P s s := fun h => ⟨h, Evolves.refl _⟩

theorem Steps.trans (s s' s'' : Site) (h : Steps root own P s s') (h' : Steps root own P s' s'') :
    Steps root own P s s'' := by
  intro hs
  obtain ⟨hs', hev⟩ := h hs
  obtain ⟨hs'', hev'⟩ := h' hs'
  exact ⟨hs'', hev.trans hev'⟩

theorem confines_dropActions {actions : List Action}
    (h : ∀ a ∈ actions, GoodAction root own P a) : Confines root own P (dropActions actions) w := by
  induction actions generalizing w with
  | nil => exact Confines.of_state rfl
  | cons a actions ih =>
    have hrest {w : World} := ih (w := w) fun a ha => h a (List.mem_cons_of_mem _ ha)
    cases a with
    | file file metadata =>
      exact Confines.bind (confines_drop (h _ List.mem_cons_self)) fun _ _ _ => hrest
    | delete => exact hrest
    | metadata metadata => exact hrest
    | symlink record => exact hrest

theorem confines_runAction {action : Action} (hP : P path) (h : GoodAction root own P action) :
    Confines root own P (runAction root path action) w := by
  cases action with
  | delete => exact confines_unlink hP
  | metadata metadata => exact confines_directoryMetadata hP
  | file file metadata => exact confines_install hP h
  | symlink record => exact confines_symlink h

theorem confines_runActions {actions : List Action} (hP : P path)
    (h : ∀ a ∈ actions, GoodAction root own P a) :
    Confines root own P (runActions root path actions) w := by
  induction actions generalizing w with
  | nil => exact Confines.of_state rfl
  | cons a actions ih =>
    have hrest : ∀ a ∈ actions, GoodAction root own P a := fun a ha =>
      h a (List.mem_cons_of_mem _ ha)
    refine Confines.bind ?_ fun _ _ _ => ih hrest
    exact KeepsAt.onError (R := Evolves (Allowed root own P)) (fun _ _ _ => Evolves.trans)
      (confines_runAction hP (h a List.mem_cons_self)) fun _ => confines_dropActions hrest

theorem confines_dropPending {pending : List Directory}
    (h : ∀ d ∈ pending, P d.path ∧ ∀ a ∈ d.actions, GoodAction root own P a) :
    Confines root own P (dropPending pending) w := by
  induction pending generalizing w with
  | nil => exact Confines.of_state rfl
  | cons d pending ih =>
    refine Confines.bind (ih fun d hd => h d (List.mem_cons_of_mem _ hd)) fun _ _ _ => ?_
    exact confines_dropActions (h d List.mem_cons_self).2

theorem confines_dropFile {file : Option StagedFile} (h : ∀ f ∈ file, Owned root own f) :
    Confines root own P (dropFile file) w := by
  cases file with
  | none => exact Confines.of_state rfl
  | some f => exact confines_drop (h f rfl)

theorem confines_dropChanges {changes : List Change}
    (h : ∀ c ∈ changes, ∀ f ∈ c.2, Owned root own f) :
    Confines root own P (dropChanges changes) w := by
  induction changes generalizing w with
  | nil => exact Confines.of_state rfl
  | cons c changes ih =>
    exact Confines.bind (confines_dropFile (h c List.mem_cons_self)) fun _ _ _ =>
      ih fun c hc => h c (List.mem_cons_of_mem _ hc)

/-- A computation on the file system leaves the committer alone. -/
theorem steps_onWorld {m : FsM α} {s : Site}
    (h : s.Good root own P → Confines root own P m s.world) :
    KeepsAt (Steps root own P) (onWorld m) s := by
  intro hs
  exact ⟨⟨hs.root_eq, hs.pending⟩, h hs⟩

theorem steps_finishDirectory : Keeps (Steps root own P) Committer.finishDirectory := by
  intro s hs
  cases hp : s.committer.pending with
  | nil =>
    rw [Committer.run_finishDirectory_nil hp]
    exact ⟨hs, Evolves.refl _⟩
  | cons d pending =>
    rw [Committer.run_finishDirectory_cons hp]
    have hd := hs.pending d (hp ▸ List.mem_cons_self)
    have hsteps : KeepsAt (Steps root own P) (onWorld (runActions s.committer.root d.path d.actions))
        { s with committer := { s.committer with pending := pending } } := by
      refine steps_onWorld fun _ => ?_
      rw [hs.root_eq]
      exact confines_runActions hd.1 hd.2
    exact hsteps ⟨hs.root_eq, fun d' hd' => hs.pending d' (hp ▸ List.mem_cons_of_mem _ hd')⟩

theorem steps_finishPending (leave : Directory → Bool) :
    Keeps (Steps root own P) (Committer.finishPending leave) := by
  have hwhile (ds : List Directory) :
      Keeps (Steps root own P) (Committer.finishWhile leave ds) := by
    induction ds with
    | nil => exact Keeps.pure Steps.refl ()
    | cons d ds ih =>
      unfold Committer.finishWhile
      split
      · exact Keeps.bind Steps.trans steps_finishDirectory fun _ => ih
      · exact Keeps.pure Steps.refl ()
  exact Keeps.bind Steps.trans (Keeps.get Steps.refl) fun s => hwhile _

/-- Putting an action on the stack. -/
theorem Site.Good.defer {s : Site} {action : Action} (hs : s.Good root own P) (hP : P path)
    (h : GoodAction root own P action) :
    Site.Good root own P { s with committer := s.committer.defer path action } := by
  have hnew : ∀ a ∈ [action], GoodAction root own P a := by simpa using h
  unfold Committer.defer
  cases hp : s.committer.pending with
  | nil =>
    refine ⟨hs.root_eq, fun d hd => ?_⟩
    obtain rfl := List.mem_singleton.1 hd
    exact ⟨hP, hnew⟩
  | cons d ds =>
    have hd := hs.pending d (hp ▸ List.mem_cons_self)
    simp only
    split
    · refine ⟨hs.root_eq, fun d' hd' => ?_⟩
      obtain rfl | hd' := List.mem_cons.1 hd'
      · refine ⟨hd.1, fun a ha => ?_⟩
        obtain ha | ha := List.mem_append.1 ha
        · exact hd.2 a ha
        · exact hnew a ha
      · exact hs.pending d' (hp ▸ List.mem_cons_of_mem _ hd')
    · refine ⟨hs.root_eq, fun d' hd' => ?_⟩
      obtain rfl | hd' := List.mem_cons.1 hd'
      · exact ⟨hP, hnew⟩
      · exact hs.pending d' (hp ▸ hd')

theorem steps_defer {s : Site} {action : Action} (hP : P path) (h : GoodAction root own P action) :
    KeepsAt (Steps root own P) (onCommitter fun c => c.defer path action) s :=
  fun hs => ⟨hs.defer hP h, Evolves.refl _⟩

theorem steps_install {operation : Operation} {file : Option StagedFile} (hP : P operation.path)
    (hfile : ∀ f ∈ file, Owned root own f) :
    Keeps (Steps root own P) (Committer.install operation file) := by
  intro s
  refine KeepsAt.bind Steps.trans (Keeps.get Steps.refl s) fun s' s'' hget => ?_
  cases hget
  have hworld {m : FsM Unit} (h : s.committer.root = root → Confines root own P m s.world) :
      KeepsAt (Steps root own P) (onWorld m) s :=
    steps_onWorld fun hs => h hs.root_eq
  cases operation with
  | delete id path kind =>
    cases kind with
    | directory => exact steps_defer hP trivial
    | regularFile => exact hworld fun hroot => hroot ▸ confines_unlink hP
    | symlink => exact hworld fun hroot => hroot ▸ confines_unlink hP
  | upsertDirectory id record =>
    refine KeepsAt.bind Steps.trans (hworld fun hroot => hroot ▸ confines_upsertDirectory hP)
      fun _ _ _ => steps_defer hP trivial
  | upsertFile update id record =>
    cases file with
    | none => exact Keeps.pure Steps.refl () s
    | some file =>
      have hown := hfile file rfl
      change KeepsAt _ (if _ then _ else _) s
      split
      · exact steps_defer hP hown
      · refine hworld fun hroot => ?_
        subst hroot
        exact confines_install hP hown
  | upsertSymlink id record =>
    change KeepsAt _ (if _ then _ else _) s
    split
    · exact steps_defer hP hP
    · refine hworld fun hroot => ?_
      subst hroot
      exact confines_symlink hP

theorem steps_prepare {operation : Operation} {file : Option StagedFile}
    (hfile : ∀ f ∈ file, Owned root own f) :
    Keeps (Steps root own P)
      (Fallible.onError (Committer.prepare operation file) (onWorld (dropFile file))) := by
  refine Keeps.onError Steps.trans ?_ fun s => steps_onWorld fun _ => confines_dropFile hfile
  refine Keeps.bind Steps.trans (Keeps.get Steps.refl) fun s => ?_
  split
  · exact Keeps.fail Steps.refl _
  · split
    · exact Keeps.fail Steps.refl _
    · exact steps_finishPending _

theorem steps_previous (path : RelativePath) :
    Keeps (Steps root own P) (onCommitter fun c => { c with previous := some path }) :=
  fun _ hs => ⟨⟨hs.root_eq, hs.pending⟩, Evolves.refl _⟩

/-- One operation makes allowed changes only, whether it succeeds or fails. -/
theorem steps_apply {operation : Operation} {file : Option StagedFile} (hP : P operation.path)
    (hfile : ∀ f ∈ file, Owned root own f) :
    Keeps (Steps root own P) (Committer.apply operation file) :=
  Keeps.bind Steps.trans (steps_prepare hfile) fun _ =>
    Keeps.bind Steps.trans (steps_previous _) fun _ => steps_install hP hfile

theorem steps_drop : Keeps (Steps root own P) Committer.drop := by
  intro s
  refine KeepsAt.bind Steps.trans (Keeps.get Steps.refl s) fun s' s'' hget => ?_
  cases hget
  exact steps_onWorld fun hs => confines_dropPending hs.pending

theorem steps_applyAll {changes : List Change} (hP : ∀ c ∈ changes, P c.1.path)
    (hfile : ∀ c ∈ changes, ∀ f ∈ c.2, Owned root own f) :
    Keeps (Steps root own P) (applyAll changes) := by
  induction changes with
  | nil => exact Keeps.pure Steps.refl ()
  | cons c changes ih =>
    obtain ⟨operation, file⟩ := c
    have hfile' : ∀ c ∈ changes, ∀ f ∈ c.2, Owned root own f := fun c hc =>
      hfile c (List.mem_cons_of_mem _ hc)
    refine Keeps.bind Steps.trans (Keeps.onError Steps.trans
      (steps_apply (hP _ List.mem_cons_self) (hfile _ List.mem_cons_self)) fun s => ?_) fun _ =>
      ih (fun c hc => hP c (List.mem_cons_of_mem _ hc)) hfile'
    exact steps_onWorld fun _ => confines_dropChanges hfile'

/-- A commit makes allowed changes only. -/
theorem steps_commitAll {changes : List Change} (hP : ∀ c ∈ changes, P c.1.path)
    (hfile : ∀ c ∈ changes, ∀ f ∈ c.2, Owned root own f) :
    Keeps (Steps root own P) (commitAll changes) :=
  Keeps.onError Steps.trans (Keeps.bind Steps.trans (steps_applyAll hP hfile) fun _ =>
    steps_finishPending _) steps_drop

/-- From a new committer the changes of the file system are allowed. -/
theorem evolves_of_steps {m : CommitM Unit} (h : Keeps (Steps root own P) m) (w : World) :
    Evolves (Allowed root own P) w (m.run ⟨Committer.new root, w⟩).2.world :=
  (h ⟨Committer.new root, w⟩ ⟨rfl, by simp [Committer.new]⟩).2

end

/-! ### Whole runs -/

/-- Feed changes to a committer whatever the result of each, and finish. -/
def Committer.feed : List Change → CommitM Unit
  | [] => Fallible.onError Committer.finish Committer.drop
  | (operation, file) :: changes => fun s =>
    (feed changes).run ((Committer.apply operation file).run s).2

theorem steps_feed {root : RootHandle} {own : List Name} {P : RelativePath → Prop}
    {changes : List Change} (hP : ∀ c ∈ changes, P c.1.path)
    (hfile : ∀ c ∈ changes, ∀ f ∈ c.2, Owned root own f) :
    Keeps (Steps root own P) (Committer.feed changes) := by
  induction changes with
  | nil => exact Keeps.onError Steps.trans (steps_finishPending _) steps_drop
  | cons c changes ih =>
    intro s
    refine Steps.trans s _ _ (steps_apply (hP _ List.mem_cons_self) (hfile _ List.mem_cons_self) s)
      (ih (fun c hc => hP c (List.mem_cons_of_mem _ hc))
        (fun c hc => hfile c (List.mem_cons_of_mem _ hc)) _)

/-- A path below the root with no protected component. -/
def Managed (root : RootHandle) (q : Path) : Prop :=
  ∃ cs : List Bytes, cs ≠ [] ∧ q = root.path ++ cs ∧ ∀ c ∈ cs, c ∉ protectedComponents

/-- What changes is an entry below the root, with no protected component and all of whose
ancestors from the root on are directories in the tree before the change, or one of the attempt's
own temporary files. -/
def ConfinedChange (root : RootHandle) (own : List Name) (t t' : Tree) : Prop :=
  ∀ q, ¬ SameEntry (t.get q) (t'.get q) →
    (∃ cs : List Bytes, cs ≠ [] ∧ q = root.path ++ cs ∧ (∀ c ∈ cs, c ∉ protectedComponents) ∧
      ∀ k < cs.length, t.IsDir (root.path ++ cs.take k)) ∨
    ∃ name ∈ own, q = stagedPath root name

theorem Allowed.confinedChange {root : RootHandle} {own : List Name} {P : RelativePath → Prop}
    {t t' : Tree} (h : Allowed root own P t t') : ConfinedChange root own t t' := by
  intro q hq
  by_cases hown : ∃ name ∈ own, q = stagedPath root name
  · exact Or.inr hown
  have hown' : ∀ name ∈ own, q ≠ stagedPath root name := fun name hname heq =>
    hown ⟨name, hname, heq⟩
  cases h with
  | own h => exact absurd (h q not_false hown') hq
  | entry path hP hprot hdir h =>
    have hpath : q = root.at path := by
      by_contra hne
      exact hq (h q hne hown')
    refine Or.inl ⟨path.components, path.ne_nil, hpath, hprot, fun k hk => ?_⟩
    -- the ancestors of the parent are directories too
    have hsplit : path.components.dropLast = path.components.take k ++
        (path.components.dropLast).drop k := by
      conv_lhs => rw [← List.take_append_drop k path.components.dropLast]
      rw [List.dropLast_eq_take, List.take_take, min_eq_left (by omega)]
    rw [hsplit, ← List.append_assoc] at hdir
    exact hdir.of_append

/-- Every change of a history is confined, and entries outside the managed paths are the same
after it, up to the modification times of directories. -/
def Confined (root : RootHandle) (own : List Name) (w w' : World) : Prop :=
  Evolves (ConfinedChange root own) w w' ∧
    ∀ q, ¬ Managed root q → (∀ name ∈ own, q ≠ stagedPath root name) →
      SameEntry (w.tree.get q) (w'.tree.get q)

theorem confined_of_evolves {root : RootHandle} {own : List Name} {P : RelativePath → Prop}
    {w w' : World} (h : Evolves (Allowed root own P) w w') : Confined root own w w' := by
  have hev : Evolves (ConfinedChange root own) w w' := h.mono fun _ _ => Allowed.confinedChange
  refine ⟨hev, fun q hq hown => ?_⟩
  refine hev.preserves (P := fun t t' => SameEntry (t.get q) (t'.get q)) (fun _ => SameEntry.refl _) ?_
  intro t u v htu huv
  by_contra hne
  obtain ⟨cs, hcs, hpath, hprot, -⟩ | ⟨name, hname, heq⟩ := huv q fun h => hne (htu.trans h)
  · exact hq ⟨cs, hcs, hpath, hprot⟩
  · exact hown name hname heq

/-- **Write confinement.**  Whatever operations are fed to a committer on whatever file system,
and whatever fails, every change lies below the root at a path without a protected component,
reached through directories only, or is of the attempt's own temporary files. -/
theorem committer_confined (root : RootHandle) (changes : List Change)
    (hfiles : ∀ c ∈ changes, ∀ f ∈ c.2, f.directory = root.path ++ [stagingName]) (w : World) :
    Confined root (changes.filterMap fun c => c.2.map StagedFile.name) w
        ((Committer.feed changes).run ⟨Committer.new root, w⟩).2.world ∧
      Confined root (changes.filterMap fun c => c.2.map StagedFile.name) w
        ((commitAll changes).run ⟨Committer.new root, w⟩).2.world := by
  have hown : ∀ c ∈ changes, ∀ f ∈ c.2,
      Owned root (changes.filterMap fun c => c.2.map StagedFile.name) f := by
    intro c hc f hf
    refine ⟨hfiles c hc f hf, List.mem_filterMap.2 ⟨c, hc, ?_⟩⟩
    rw [Option.mem_def.1 hf]
    rfl
  exact ⟨confined_of_evolves (evolves_of_steps (steps_feed (P := fun _ => True)
      (fun _ _ => trivial) hown) w),
    confined_of_evolves (evolves_of_steps (steps_commitAll (P := fun _ => True)
      (fun _ _ => trivial) hown) w)⟩

/-- A plan that plants a link to a directory outside the root and then writes through it. -/
theorem committer_confined_planted_link :
    let record (components : List Bytes) (hne : components ≠ [])
        (legal : ∀ c ∈ components, componentError c = none) (kind : EntryKind)
        (target : Option Bytes) : IndexRecord :=
      ⟨⟨components, hne, legal⟩, ⟨kind, 0o644, ⟨0, by decide⟩, 0⟩, none, target⟩
    let root : RootHandle := ⟨[ascii "root"]⟩
    let file : StagedFile := ⟨[ascii "root", ascii ".quicsync"], Vector.replicate 16 0⟩
    let changes : List Change :=
      [(.upsertSymlink ⟨0⟩ (record [ascii "link"] (by decide) (by decide) .symlink
          (some (ascii "/outside"))), none),
        (.upsertFile false ⟨1⟩ (record [ascii "link", ascii "file"] (by decide) (by decide)
          .regularFile none), some file)]
    let directory : Inode := ⟨.directory, 0o700, 0⟩
    let tree : Tree := (((Tree.empty.insert [] directory).insert [ascii "root"] directory).insert
      [ascii "outside"] directory).insert [ascii "root", ascii ".quicsync"] directory
    Confined root [file.name] ⟨tree, [], fun _ => 0⟩
      ((Committer.feed changes).run ⟨Committer.new root, ⟨tree, [], fun _ => 0⟩⟩).2.world := by
  intro record root file changes directory tree
  refine (committer_confined root changes ?_ _).1
  intro c hc f hf
  obtain rfl | hc := List.mem_cons.1 hc
  · cases hf
  · obtain rfl := List.mem_singleton.1 hc
    cases hf
    rfl

end QuicSync
