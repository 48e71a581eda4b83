import QuicSync.Sync.CommitRule
import QuicSync.Sync.Outcomes

/-!
# Nothing is seen half done

A commit replaces an entry in one step: at every moment of it, whatever its operations are and
wherever it fails, a file or link that is seen below the root is the one from before the commit or
all of what an operation puts there, a file with its bytes, mode and modification time.  So a
program that reads the tree during a commit, or after one that was cut short, finds no file that is
only partly written.

* `Installed`: what the operations of a commit put at a path.
* `Whole`: what may be seen at some moment of a commit.
* `whole_rule`: it is kept by every computation of a committer, as `CommitRule` wants it.

Directories are another matter: one is made, filled and given its metadata in separate steps.
-/

namespace QuicSync

open Posix

/-- The trees since an earlier time, the latest first. -/
def Posix.World.since (w' w : World) : List Tree :=
  (w'.tree :: w'.past).take (w'.past.length + 1 - w.past.length)

/-- What every change keeps holds of all trees since. -/
theorem Posix.Evolves.all_since {P : Tree → Prop} {w w' : World}
    (h : Evolves (fun t t' => P t → P t') w w') (hw : P w.tree) : ∀ t ∈ w'.since w, P t := by
  have hlist : ∃ ts, w'.tree :: w'.past = ts ++ w.tree :: w.past ∧ (∀ t ∈ ts, P t) ∧ P w'.tree := by
    induction h with
    | refl => exact ⟨[], rfl, fun t ht => (List.not_mem_nil ht).elim, hw⟩
    | tail _ hstep ih =>
      obtain ⟨t, rfl, hkeeps⟩ := hstep
      obtain ⟨ts, heq, hts, hlast⟩ := ih
      refine ⟨t :: ts, congrArg (List.cons t) heq, fun u hu => ?_, hkeeps hlast⟩
      obtain rfl | hu := List.mem_cons.1 hu
      · exact hkeeps hlast
      · exact hts u hu
  obtain ⟨ts, heq, hts, -⟩ := hlist
  rw [List.append_cons] at heq
  have hlength : w'.past.length + 1 - w.past.length = (ts ++ [w.tree]).length := by
    have hsum := congrArg List.length heq
    simp only [List.length_append, List.length_cons, List.length_nil] at hsum ⊢
    omega
  intro t ht
  unfold World.since at ht
  rw [heq, hlength, List.take_left] at ht
  obtain ht | ht := List.mem_append.1 ht
  · exact hts t ht
  · exact List.mem_singleton.1 ht ▸ hw

/-- What the operations put at a path: a file with the bytes that are staged for it and all of its
metadata, or a link with its target. -/
inductive Installed (root : RootHandle) (changes : List Change) (t₀ : Tree) (q : Path) (i : Inode) :
    Prop where
  | file (update : Bool) (id : OperationId) (record : IndexRecord) (file : StagedFile)
      (staged : Inode) (hmem : (.upsertFile update id record, some file) ∈ changes)
      (hq : q = root.at record.path)
      (hstaged : t₀.get (file.directory ++ [file.name]) = some staged)
      (hi : i = ⟨staged.node, record.metadata.mode &&& 0o7777, record.metadata.mtimeNs.val⟩)
  | link (id : OperationId) (record : IndexRecord) (file : Option StagedFile) (target : Bytes)
      (hmem : (.upsertSymlink id record, file) ∈ changes) (hq : q = root.at record.path)
      (htarget : record.symlinkTarget = some target) (hi : i.node = .symlink target)

/-- The staged files of a list of changes. -/
def StagedFor (changes : List Change) (file : StagedFile) : Prop := ∃ c ∈ changes, file ∈ c.2

/-- What may be seen during a commit that starts with the tree `t₀`: the staged files as they were
written, and elsewhere files and links that were there or have been installed. -/
structure Whole (root : RootHandle) (changes : List Change) (t₀ t : Tree) : Prop where
  staged : ∀ file, StagedFor changes file → ∀ i, t.get (file.directory ++ [file.name]) = some i →
    ∃ j, t₀.get (file.directory ++ [file.name]) = some j ∧ i.node = j.node
  live : ∀ q, (∀ file, StagedFor changes file → q ≠ file.directory ++ [file.name]) →
    ∀ i, t.get q = some i → ¬ i.IsDir → t₀.get q = some i ∨ Installed root changes t₀ q i

theorem Whole.refl (root : RootHandle) (changes : List Change) (t : Tree) :
    Whole root changes t t :=
  ⟨fun _ _ i hi => ⟨i, hi, rfl⟩, fun _ _ _ hi _ => Or.inl hi⟩

/-- An entry that is the same has the same node. -/
theorem Posix.SameEntry.node_of_some {a : Option Inode} {i : Inode} (h : SameEntry a (some i)) :
    ∃ j, a = some j ∧ i.node = j.node := by
  obtain ⟨j, hj, hnode, -⟩ := SameEntry.some_iff.1 h.symm
  exact ⟨j, hj, hnode.symm⟩

/-- A file or link that is the same is the same in all it has. -/
theorem Posix.SameEntry.eq_of_some {a : Option Inode} {i : Inode} (h : SameEntry a (some i))
    (hdir : ¬ i.IsDir) : a = some i := by
  obtain ⟨⟨node, mode, mtime⟩, rfl, rfl, rfl, hmtime⟩ := SameEntry.some_iff.1 h.symm
  obtain rfl : mtime = i.mtime := hmtime hdir
  rfl

section

variable {root : RootHandle} {changes : List Change} {t₀ t t' : Tree} {w : World}
  {path : RelativePath}

/-- The staged files lie in the directory for temporary files. -/
def StagedBelow (root : RootHandle) (changes : List Change) : Prop :=
  ∀ file, StagedFor changes file → file.directory = root.path ++ [stagingName]

/-- A change at one path. -/
theorem Whole.entry (h : Whole root changes t₀ t) (hbelow : StagedBelow root changes)
    (hprot : Unprotected path)
    (hsame : ∀ q ≠ root.at path, SameEntry (t.get q) (t'.get q))
    (hnew : ∀ i, t'.get (root.at path) = some i → ¬ i.IsDir →
      t.get (root.at path) = some i ∨ Installed root changes t₀ (root.at path) i) :
    Whole root changes t₀ t' := by
  have hne {file : StagedFile} (hfile : StagedFor changes file) :
      file.directory ++ [file.name] ≠ root.at path := by
    rw [hbelow file hfile]
    exact staging_ne_at hprot
  refine ⟨fun file hfile i hi => ?_, fun q hq i hi hdir => ?_⟩
  · have hsame := hsame _ (hne hfile)
    rw [hi] at hsame
    obtain ⟨j, hj, hnode⟩ := hsame.node_of_some
    obtain ⟨k, hk, hnode'⟩ := h.staged file hfile j hj
    exact ⟨k, hk, hnode.trans hnode'⟩
  · by_cases hpath : q = root.at path
    · subst hpath
      obtain hold | hinstalled := hnew i hi hdir
      · exact h.live _ hq i hold hdir
      · exact Or.inr hinstalled
    · have hsame := hsame q hpath
      rw [hi] at hsame
      exact h.live q hq i (hsame.eq_of_some hdir) hdir

/-- A change of a staged file that is still the same file, or is gone. -/
theorem Whole.staging {file : StagedFile} (h : Whole root changes t₀ t)
    (hfile : StagedFor changes file)
    (hsame : ∀ q ≠ file.directory ++ [file.name], SameEntry (t.get q) (t'.get q))
    (hnew : ∀ i, t'.get (file.directory ++ [file.name]) = some i →
      ∃ j, t.get (file.directory ++ [file.name]) = some j ∧ i.node = j.node) :
    Whole root changes t₀ t' := by
  refine ⟨fun file' hfile' i hi => ?_, fun q hq i hi hdir => ?_⟩
  · by_cases heq : file'.directory ++ [file'.name] = file.directory ++ [file.name]
    · rw [heq] at hi ⊢
      obtain ⟨j, hj, hnode⟩ := hnew i hi
      obtain ⟨k, hk, hnode'⟩ := h.staged file hfile j hj
      exact ⟨k, hk, hnode.trans hnode'⟩
    · have hsame := hsame _ heq
      rw [hi] at hsame
      obtain ⟨j, hj, hnode⟩ := hsame.node_of_some
      obtain ⟨k, hk, hnode'⟩ := h.staged file' hfile' j hj
      exact ⟨k, hk, hnode.trans hnode'⟩
  · have hsame := hsame q (hq file hfile)
    rw [hi] at hsame
    exact h.live q hq i (hsame.eq_of_some hdir) hdir

/-- Changes that keep what may be seen. -/
abbrev Shows (root : RootHandle) (changes : List Change) (t₀ : Tree) : World → World → Prop :=
  Evolves fun t t' => Whole root changes t₀ t → Whole root changes t₀ t'

theorem Shows.of_state {α : Type} {m : FsM α} (h : (m.run w).2 = w) :
    KeepsAt (Shows root changes t₀) m w := by
  unfold KeepsAt
  rw [h]
  exact Evolves.refl w

theorem Shows.bind {α β : Type} {m : FsM α} {f : α → FsM β}
    (hm : KeepsAt (Shows root changes t₀) m w)
    (hf : ∀ a w', m.run w = (.ok a, w') → KeepsAt (Shows root changes t₀) (f a) w') :
    KeepsAt (Shows root changes t₀) (m >>= f) w :=
  KeepsAt.bind (R := Shows root changes t₀) (fun _ _ _ => Evolves.trans) hm hf

/-- After resolution, the rest works on the physical parent. -/
theorem Shows.resolveParent {α : Type} {f : ValidatedParent → FsM α}
    (h : Unprotected path → KeepsAt (Shows root changes t₀) (f (parentOf root path)) w) :
    KeepsAt (Shows root changes t₀) (resolveParent root path >>= f) w := by
  refine Shows.bind (Shows.of_state (resolveParent_state root path w)) fun parent w' hrun => ?_
  obtain ⟨rfl, hprot, rfl⟩ := resolveParent_ok hrun
  exact h hprot

theorem Shows.call {f : World → Except Errno World} {error : Errno → QuicSyncError}
    (h : ∀ w', f w = .ok w' → Shows root changes t₀ w w') :
    KeepsAt (Shows root changes t₀) (call f error) w := by
  unfold KeepsAt
  rw [run_call]
  cases hf : f w with
  | ok w' => exact h w' hf
  | error e => exact Evolves.refl w

theorem Shows.tolerate {tolerated : Errno} {f : World → Except Errno World}
    {error : Errno → QuicSyncError} (h : ∀ w', f w = .ok w' → Shows root changes t₀ w w') :
    KeepsAt (Shows root changes t₀) (tolerate tolerated f error) w := by
  unfold KeepsAt
  rw [run_tolerate]
  cases hf : f w with
  | ok w' => exact h w' hf
  | error e =>
    simp only
    split <;> exact Evolves.refl w

/-! ### The computations of a committer -/

theorem shows_unlinkat {removedir : Bool} {w' : World} (hbelow : StagedBelow root changes)
    (hprot : Unprotected path)
    (h : unlinkat w (parentOf root path).directory (parentOf root path).leaf removedir = .ok w') :
    Shows root changes t₀ w w' := by
  obtain ⟨hd, -, -, hchild, rfl⟩ := (unlinkat_eq_ok_iff (plain_leaf root path)).1 h
  rw [parentOf_directory_leaf] at hchild
  refine Evolves.record fun hwhole => hwhole.entry hbelow hprot (fun q hq => ?_) fun i hi _ => ?_
  · rw [← parentOf_directory_leaf] at hq hchild
    exact Tree.sameEntry_removed hd.isDir hchild hq
  · rw [← parentOf_directory_leaf] at hi hchild
    rw [Tree.get_removed _ hchild, if_pos rfl] at hi
    cases hi

/-- A directory or a link is added. -/
theorem shows_added {i : Inode} (hbelow : StagedBelow root changes) (hprot : Unprotected path)
    (hd : w.tree.Enterable (parentOf root path).directory)
    (hnone : w.tree.get ((parentOf root path).directory ++ [(parentOf root path).leaf]) = none)
    (hi : i.IsDir ∨ Installed root changes t₀ (root.at path) i) :
    Shows root changes t₀ w (w.record
      (w.tree.added (parentOf root path).directory (parentOf root path).leaf i w.now)) := by
  refine Evolves.record fun hwhole => hwhole.entry hbelow hprot (fun q hq => ?_) fun j hj hdir => ?_
  · rw [← parentOf_directory_leaf] at hq
    exact Tree.sameEntry_added hd.isDir hnone hq
  · rw [← parentOf_directory_leaf, Tree.get_added _ hd.isDir hnone, if_pos rfl] at hj
    cases hj
    exact Or.inr (hi.resolve_left hdir)

/-- The mode or the time of the entry at a path is changed, and it is a directory or a link. -/
theorem shows_modify {f : Inode → Inode} {hf : ∀ i, (f i).node = i.node}
    (hbelow : StagedBelow root changes) (hprot : Unprotected path)
    (h : ∀ i, w.tree.get (root.at path) = some i →
      i.IsDir ∨ Installed root changes t₀ (root.at path) (f i)) :
    Shows root changes t₀ w (w.record (w.tree.modify (root.at path) f hf)) := by
  refine Evolves.record fun hwhole => hwhole.entry hbelow hprot (fun q hq => ?_) fun j hj hdir => ?_
  · rw [Tree.get_modify, if_neg hq]
    exact SameEntry.refl _
  · rw [Tree.get_modify, if_pos rfl] at hj
    obtain ⟨i, hi, rfl⟩ := Option.map_eq_some_iff.1 hj
    obtain hidir | hinstalled := h i hi
    · exact absurd ((hf i).trans hidir) hdir
    · exact Or.inr hinstalled

theorem shows_unlink (hbelow : StagedBelow root changes) (path : RelativePath) (removedir : Bool) :
    Keeps (Shows root changes t₀) (unlink root path removedir) := by
  intro w
  exact Shows.resolveParent fun hprot => Shows.call fun _ h => shows_unlinkat hbelow hprot h

/-- Opening the directory at the path of an operation gives that entry. -/
theorem Shows.openLeaf {α : Type} {error : Errno → QuicSyncError} {f : Path → FsM α}
    (h : w.tree.IsDir (root.at path) → KeepsAt (Shows root changes t₀) (f (root.at path)) w) :
    KeepsAt (Shows root changes t₀) (query (fun w => openat w (parentOf root path).directory
      (parentOf root path).leaf directoryFlags) error >>= f) w := by
  refine Shows.bind (Shows.of_state rfl) fun p w' hrun => ?_
  obtain ⟨hopen, rfl⟩ := query_ok hrun
  obtain ⟨-, ⟨i, hi, hdir, -⟩, rfl⟩ := (openat_directory_eq_ok_iff (plain_leaf root path)).1 hopen
  rw [parentOf_directory_leaf] at hi ⊢
  exact h ⟨i, hi, hdir⟩

/-- A directory is changed in its mode or time. -/
theorem shows_directory {f : Inode → Inode} {hf : ∀ i, (f i).node = i.node}
    (hbelow : StagedBelow root changes) (hprot : Unprotected path)
    (hdir : w.tree.IsDir (root.at path)) :
    Shows root changes t₀ w (w.record (w.tree.modify (root.at path) f hf)) := by
  refine shows_modify hbelow hprot fun i hi => Or.inl ?_
  obtain ⟨j, hj, hjdir⟩ := hdir
  rw [Option.mem_def, hi] at hj
  cases hj
  exact hjdir

theorem shows_upsertDirectory (hbelow : StagedBelow root changes) (path : RelativePath)
    (metadata : EntryMetadata) :
    Keeps (Shows root changes t₀) (upsertDirectory root path metadata) := by
  intro w
  refine Shows.resolveParent fun hprot => Shows.bind ?_ fun _ w₁ _ => Shows.openLeaf fun hdir => ?_
  · refine Shows.tolerate fun w' h => ?_
    obtain ⟨hd, hnone, -, rfl⟩ := (mkdirat_eq_ok_iff (plain_leaf root path)).1 h
    exact shows_added hbelow hprot hd hnone (Or.inl rfl)
  · exact shows_directory hbelow hprot hdir

theorem shows_directoryMetadata (hbelow : StagedBelow root changes) (path : RelativePath)
    (metadata : EntryMetadata) :
    Keeps (Shows root changes t₀) (directoryMetadata root path metadata) := by
  intro w
  refine Shows.resolveParent fun hprot => Shows.openLeaf fun hdir => ?_
  refine Shows.bind (shows_directory hbelow hprot hdir) fun _ w₁ hrun => ?_
  cases hrun
  refine Shows.bind (Shows.of_state rfl) fun modified w₂ hrun => ?_
  obtain rfl : fchmod w (root.at path) metadata.mode = w₂ := congrArg Prod.snd hrun
  refine shows_directory hbelow hprot ?_
  obtain ⟨i, hi, hidir⟩ := hdir
  refine ⟨{ i with mode := metadata.mode &&& 0o7777 }, ?_, hidir⟩
  rw [Option.mem_def, fchmod, World.record_tree, Tree.get_modify, if_pos rfl, hi, Option.map_some]

theorem shows_symlink (hbelow : StagedBelow root changes) {record : IndexRecord}
    (h : ∃ id file, (Operation.upsertSymlink id record, file) ∈ changes) :
    Keeps (Shows root changes t₀) (symlink root record) := by
  intro w
  obtain ⟨id, file, hmem⟩ := h
  unfold symlink
  refine Shows.bind (Shows.of_state rfl) fun target w₁ htarget => ?_
  refine Shows.bind (Shows.of_state rfl) fun target' w₂ hcstring => ?_
  refine Shows.resolveParent fun hprot => Shows.bind ?_ fun _ w₃ _ => ?_
  · exact Shows.tolerate fun w' h => shows_unlinkat hbelow hprot h
  -- the link has the target of the record from the start
  have hinstalled (i : Inode) (hi : i.node = .symlink target') :
      Installed root changes t₀ (root.at record.path) i := by
    refine .link id record file target' hmem rfl ?_ hi
    have heq : cstring target = .ok target' := congrArg Prod.fst hcstring
    unfold cstring at heq
    split at heq
    · cases heq
    · cases heq
      have hsome := congrArg Prod.fst htarget
      rw [Fallible.run_lift] at hsome
      simp only at hsome
      split at hsome
      · cases hsome
        assumption
      · cases hsome
  refine Shows.bind (Shows.call fun w' h => ?_) fun _ w₄ hrun => ?_
  · obtain ⟨hd, hnone, -, rfl⟩ := (symlinkat_eq_ok_iff (plain_leaf root record.path)).1 h
    exact shows_added hbelow hprot hd hnone (Or.inr (hinstalled _ rfl))
  refine Shows.bind (Shows.of_state rfl) fun times w₅ hlift => Shows.call fun w' h => ?_
  obtain rfl : w₄ = w₅ := congrArg Prod.snd hlift
  obtain ⟨-, -, rfl⟩ := (utimensat_eq_ok_iff (plain_leaf root record.path)).1 h
  rw [parentOf_directory_leaf]
  refine shows_modify hbelow hprot fun i hi => Or.inr (hinstalled _ ?_)
  -- what is there now is the link that was just made
  rw [run_call] at hrun
  cases hlink : symlinkat w₃ target' (parentOf root record.path).directory
      (parentOf root record.path).leaf with
  | error e =>
    rw [hlink] at hrun
    cases hrun
  | ok w' =>
    rw [hlink] at hrun
    cases hrun
    obtain ⟨hd, hnone, -, rfl⟩ := (symlinkat_eq_ok_iff (plain_leaf root record.path)).1 hlink
    rw [World.record_tree, ← parentOf_directory_leaf, Tree.get_added _ hd.isDir hnone,
      if_pos rfl] at hi
    cases hi
    rfl

theorem shows_drop {file : StagedFile} (hfile : StagedFor changes file) :
    Keeps (Shows root changes t₀) file.drop := by
  intro w
  unfold KeepsAt
  rw [StagedFile.run_drop]
  cases h : unlinkat w file.directory file.name false with
  | error e => exact Evolves.refl w
  | ok w' =>
    obtain ⟨hd, -, -, hchild, rfl⟩ := (unlinkat_eq_ok_iff file.plain_name).1 h
    refine Evolves.record fun hwhole => hwhole.staging hfile (fun q hq => ?_) fun i hi => ?_
    · exact Tree.sameEntry_removed hd.isDir hchild hq
    · rw [Tree.get_removed _ hchild, if_pos rfl] at hi
      cases hi

/-- The mode or the time of a staged file is changed. -/
theorem shows_staged {file : StagedFile} {f : Inode → Inode} {hf : ∀ i, (f i).node = i.node}
    (hfile : StagedFor changes file) :
    Shows root changes t₀ w
      (w.record (w.tree.modify (file.directory ++ [file.name]) f hf)) := by
  refine Evolves.record fun hwhole => hwhole.staging hfile (fun q hq => ?_) fun i hi => ?_
  · rw [Tree.get_modify, if_neg hq]
    exact SameEntry.refl _
  · rw [Tree.get_modify, if_pos rfl] at hi
    obtain ⟨j, hj, rfl⟩ := Option.map_eq_some_iff.1 hi
    exact ⟨j, hj, hf j⟩

/-- A staged file with its final metadata is moved to its path. -/
theorem shows_renameat {file : StagedFile} {w' : World} {update : Bool} {id : OperationId}
    {record : IndexRecord} (hbelow : StagedBelow root changes)
    (hmem : (Operation.upsertFile update id record, some file) ∈ changes)
    (hprot : Unprotected record.path)
    (hmetadata : ∀ i, w.tree.get (file.directory ++ [file.name]) = some i →
      i.mode = record.metadata.mode &&& 0o7777 ∧ i.mtime = record.metadata.mtimeNs.val)
    (h : renameat w file.directory file.name (parentOf root record.path).directory
      (parentOf root record.path).leaf = .ok w') : Shows root changes t₀ w w' := by
  obtain ⟨hd, hd', -, -, hdst, i, hi, hidir, rfl⟩ :=
    (renameat_eq_ok_iff file.plain_name (plain_leaf root record.path)).1 h
  have hfile : StagedFor changes file := ⟨_, hmem, rfl⟩
  have hsplit := parentOf_directory_leaf root record.path
  have hne : file.directory ++ [file.name] ≠ root.at record.path := by
    rw [hbelow file hfile]
    exact staging_ne_at hprot
  rw [if_neg (hsplit ▸ hne)]
  have hget := Tree.get_renamed w.now hi hidir hd.isDir hd'.isDir hdst (hsplit ▸ hne)
  rw [hsplit] at hget
  have hsame (q : Path) (hq : q ≠ file.directory ++ [file.name]) (hq' : q ≠ root.at record.path) :
      SameEntry (w.tree.get q) ((w.tree.renamed file.directory file.name
        (parentOf root record.path).directory (parentOf root record.path).leaf i w.now).get q) :=
    Tree.sameEntry_renamed hi hidir hd.isDir hd'.isDir hdst (hsplit ▸ hne) hq (hsplit.symm ▸ hq')
  refine Evolves.record fun hwhole => ⟨fun file' hfile' j hj => ?_, fun q hq j hj hdir => ?_⟩
  · by_cases heq : file'.directory ++ [file'.name] = file.directory ++ [file.name]
    · rw [heq, hget, if_neg hne, if_pos rfl] at hj
      cases hj
    · have hne' : file'.directory ++ [file'.name] ≠ root.at record.path := by
        rw [hbelow file' hfile']
        exact staging_ne_at hprot
      have hsame := hsame _ heq hne'
      rw [hj] at hsame
      obtain ⟨k, hk, hnode⟩ := hsame.node_of_some
      obtain ⟨l, hl, hnode'⟩ := hwhole.staged file' hfile' k hk
      exact ⟨l, hl, hnode.trans hnode'⟩
  · by_cases hpath : q = root.at record.path
    · subst hpath
      rw [hget, if_pos rfl] at hj
      cases hj
      obtain ⟨staged, hstaged, hnode⟩ := hwhole.staged file hfile i hi
      obtain ⟨hmode, hmtime⟩ := hmetadata i hi
      refine Or.inr (.file update id record file staged hmem rfl hstaged ?_)
      rw [← hnode, ← hmode, ← hmtime]
    · have hsame := hsame q (hq file hfile) hpath
      rw [hj] at hsame
      exact hwhole.live q hq j (hsame.eq_of_some hdir) hdir

theorem shows_install {file : StagedFile} {metadata : EntryMetadata}
    (hbelow : StagedBelow root changes)
    (h : ∃ update id record, (Operation.upsertFile update id record, some file) ∈ changes ∧
      path = record.path ∧ metadata = record.metadata) :
    Keeps (Shows root changes t₀) (file.install root path metadata) := by
  obtain ⟨update, id, record, hmem, rfl, rfl⟩ := h
  have hfile : StagedFor changes file := ⟨_, hmem, rfl⟩
  refine Keeps.onError (R := Shows root changes t₀) (fun _ _ _ => Evolves.trans) ?_
    (shows_drop hfile)
  intro w
  split
  swap
  · exact Shows.of_state rfl
  refine Shows.bind (Shows.of_state rfl) fun descriptor w₁ hrun => ?_
  obtain ⟨hopen, rfl⟩ := query_ok hrun
  obtain ⟨-, -, rfl⟩ := (openat_write_eq_ok_iff file.plain_name).1 hopen
  refine Shows.bind ?_ fun _ w₂ hmetadata => Shows.resolveParent fun hprot =>
    Shows.call fun w' h => shows_renameat hbelow hmem hprot (fun i hi => ?_) h
  · refine Shows.bind (shows_staged hfile) fun _ w₂ hchmod => ?_
    cases hchmod
    refine Shows.bind (Shows.of_state rfl) fun modified w₃ hlift => ?_
    obtain rfl : fchmod w₁ (file.directory ++ [file.name]) record.metadata.mode = w₃ :=
      congrArg Prod.snd hlift
    exact shows_staged hfile
  · -- both have been set before the file is moved
    unfold setFileMetadata at hmetadata
    obtain ⟨_, w₃, hchmod, hrest⟩ := Fallible.run_bind_ok_iff.1 hmetadata
    cases hchmod
    obtain ⟨modified, w₄, hlift, htimes⟩ := Fallible.run_bind_ok_iff.1 hrest
    obtain rfl : fchmod w₁ (file.directory ++ [file.name]) record.metadata.mode = w₄ :=
      congrArg Prod.snd hlift
    have htime : modifiedTime record.metadata.mtimeNs = .ok modified := congrArg Prod.fst hlift
    obtain ⟨-, rfl⟩ := modifiedTime_eq_ok_iff.1 htime
    cases htimes
    simp only [futimens, fchmod, World.record_tree, Tree.get_touch, Tree.get_modify, if_true,
      Option.map_map] at hi
    obtain ⟨j, -, rfl⟩ := Option.map_eq_some_iff.1 hi
    exact ⟨rfl, timeOf_toNanos _⟩

/-- What may be seen during a commit is kept by every computation of a committer. -/
theorem whole_rule (hbelow : StagedBelow root changes) :
    CommitRule root (Shows root changes t₀)
      (fun file path metadata => ∃ update id record,
        (Operation.upsertFile update id record, some file) ∈ changes ∧ path = record.path ∧
          metadata = record.metadata)
      (StagedFor changes) (fun record => ∃ id file, (Operation.upsertSymlink id record, file) ∈ changes)
    where
  refl := Evolves.refl
  trans _ _ _ := Evolves.trans
  unlink := shows_unlink hbelow
  upsertDirectory := shows_upsertDirectory hbelow
  directoryMetadata := shows_directoryMetadata hbelow
  symlink _ h := shows_symlink hbelow h
  install _ _ _ h := shows_install hbelow h
  drop _ h := shows_drop h

/-- **A commit replaces files and links in one step.**  Whatever a commit is given, and whether it
succeeds or fails: in every tree from its start to its end, a file or link that is not one of the
staged files is what was at its path when the commit started, or has been installed there whole. -/
theorem commit_never_tears (root : RootHandle) (pending : PendingCommit) (w : World)
    (hstaged : ∀ c ∈ pending.changes, ∀ f ∈ c.2, f.directory = root.path ++ [stagingName])
    (t : Tree) (ht : t ∈ ((pending.commit root).run w).2.since w) (q : Path)
    (hq : ∀ c ∈ pending.changes, ∀ f ∈ c.2, q ≠ f.directory ++ [f.name]) (i : Inode)
    (hi : t.get q = some i) (hdir : ¬ i.IsDir) :
    w.tree.get q = some i ∨ Installed root pending.changes w.tree q i := by
  have hbelow : StagedBelow root pending.changes := fun file ⟨c, hc, hf⟩ => hstaged c hc file hf
  have hshows : Shows root pending.changes w.tree w ((pending.commit root).run w).2 := by
    refine (whole_rule hbelow).commitAll (fun c hc => ⟨fun f hf => ⟨c, hc, hf⟩, ?_, ?_⟩) w
    · intro update id record heq f hf
      obtain ⟨operation, file⟩ := c
      cases heq
      cases hf
      exact ⟨update, id, record, hc, rfl, rfl⟩
    · intro id record heq
      obtain ⟨operation, file⟩ := c
      cases heq
      exact ⟨id, file, hc⟩
  have hwhole := hshows.all_since (P := Whole root pending.changes w.tree) (Whole.refl _ _ _) t ht
  exact hwhole.live q (fun file ⟨c, hc, hf⟩ => hq c hc file hf) i hi hdir

end

/-! ### A file that is replaced -/

namespace SampleCommit

def root : RootHandle := ⟨[ascii "home"]⟩

def record : IndexRecord :=
  ⟨⟨[ascii "notes"], by decide, by decide⟩, ⟨.regularFile, 0o640, .ofUInt64 9, 3⟩, none, none⟩

def staged : StagedFile := ⟨[ascii "home", ascii ".quicsync"], Vector.replicate 16 3⟩

def pending : PendingCommit :=
  ⟨[(.upsertFile true ⟨0⟩ record, some staged)], List.pairwise_singleton _ _⟩

def world : World where
  tree := ((((Tree.empty.insert [] ⟨.directory, 0o755, 0⟩).insert [ascii "home"]
    ⟨.directory, 0o755, 0⟩).insert [ascii "home", ascii ".quicsync"] ⟨.directory, 0o700, 0⟩).insert
    [ascii "home", ascii "notes"] ⟨.file [1], 0o644, 2⟩).insert
    [ascii "home", ascii ".quicsync", staged.name] ⟨.file [1, 2, 3], 0o600, 5⟩
  past := []
  clock := fun _ => 100

end SampleCommit

open SampleCommit in
/-- The new file of the sample is seen with its bytes, mode and time, and was staged so. -/
theorem commit_never_tears_notes :
    ∃ t ∈ ((pending.commit root).run world).2.since world,
      t.get [ascii "home", ascii "notes"] = some ⟨.file [1, 2, 3], 0o640, 9⟩ ∧
      (world.tree.get [ascii "home", ascii "notes"] = some ⟨.file [1, 2, 3], 0o640, 9⟩ ∨
        Installed root pending.changes world.tree [ascii "home", ascii "notes"]
          ⟨.file [1, 2, 3], 0o640, 9⟩) := by
  have hlast : ((pending.commit root).run world).2.tree ∈
      ((pending.commit root).run world).2.since world := by
    unfold World.since
    simp [world]
  have hget : ((pending.commit root).run world).2.tree.get [ascii "home", ascii "notes"] =
      some ⟨.file [1, 2, 3], 0o640, 9⟩ := by decide +kernel
  have hfile {c : Change} (hc : c ∈ pending.changes) {f : StagedFile} (hf : f ∈ c.2) :
      f = staged := by
    obtain rfl := List.mem_singleton.1 hc
    exact (Option.some.inj hf).symm
  refine ⟨_, hlast, hget, commit_never_tears root pending world ?_ _ hlast _ ?_ _ hget (by decide)⟩
  · intro c hc f hf
    rw [hfile hc hf]
    rfl
  · intro c hc f hf
    rw [hfile hc hf]
    decide

end QuicSync
