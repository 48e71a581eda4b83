import QuicSync.Sync.Mtimes

/-!
# What the commands of the committer do

For each command on the file system: when it succeeds and what the file system is afterwards.

* `Reach`: the directories from the root to the parent of a path may be read and searched.
* `Replaces`: the entry at a path is replaced; its parent is touched or not; everything else is the
  same but for the temporary file that is moved to the path.
* `UnlessDenied m w ok post`: `m` succeeds with `post` if `ok`, and fails with `acces` otherwise.

Every command that adds or removes a name succeeds if and only if the parent may be written.
-/

namespace QuicSync

open Posix

/-! ### Success unless denied -/

/-- The computation succeeds with `post` if `ok`, and fails for want of a permission otherwise. -/
def UnlessDenied (m : FsM Unit) (w : World) (ok : Prop) (post : World → Prop) : Prop :=
  (ok ∧ ∃ w', m.run w = (.ok (), w') ∧ post w') ∨
    (¬ ok ∧ ∃ e w', m.run w = (.error e, w') ∧ e.errno = some .acces)

namespace UnlessDenied

variable {m m' : FsM Unit} {w w' : World} {ok : Prop} {post post' : World → Prop}

theorem of_ok (hok : ok) (hrun : m.run w = (.ok (), w')) (hpost : post w') :
    UnlessDenied m w ok post :=
  Or.inl ⟨hok, w', hrun, hpost⟩

/-- A call that succeeds if and only if it is permitted. -/
theorem call {f : World → Except Errno World} {error : Errno → QuicSyncError}
    (herror : ∀ e, (error e).errno = some e) (hok : ok → f w = .ok w')
    (hdenied : ¬ ok → f w = .error .acces) (hpost : post w') :
    UnlessDenied (QuicSync.call f error) w ok post := by
  by_cases h : ok
  · refine of_ok h ?_ hpost
    rw [run_call, hok h]
  · refine Or.inr ⟨h, error .acces, w, ?_, herror _⟩
    rw [run_call, hdenied h]

/-- What follows a command is permitted if the command is. -/
theorem bind (h : UnlessDenied m w ok post) (h' : ∀ w', post w' → ok → UnlessDenied m' w' ok post') :
    UnlessDenied (m >>= fun _ => m') w ok post' := by
  obtain ⟨hok, w', hrun, hpost⟩ | ⟨hok, e, w', hrun, he⟩ := h
  · obtain ⟨-, w'', hrun', hpost'⟩ | ⟨hnot, -⟩ := h' w' hpost hok
    · refine of_ok hok ?_ hpost'
      rw [Fallible.run_bind_ok hrun, hrun']
    · exact absurd hok hnot
  · exact Or.inr ⟨hok, e, w', Fallible.run_bind_error hrun, he⟩

/-- A first part that succeeds. -/
theorem after {α : Type} {m : FsM α} {f : α → FsM Unit} {a : α} (hrun : m.run w = (.ok a, w'))
    (h : UnlessDenied (f a) w' ok post) : UnlessDenied (m >>= f) w ok post := by
  unfold UnlessDenied
  rw [Fallible.run_bind_ok hrun]
  exact h

theorem onError {cleanup : FsM Unit} (h : UnlessDenied m w ok post) :
    UnlessDenied (m.onError cleanup) w ok post := by
  obtain ⟨hok, w', hrun, hpost⟩ | ⟨hok, e, w', hrun, he⟩ := h
  · exact of_ok hok (Fallible.run_onError_ok hrun) hpost
  · exact Or.inr ⟨hok, e, _, Fallible.run_onError_error hrun, he⟩

theorem mono (h : UnlessDenied m w ok post) (hpost : ∀ w', post w' → post' w') :
    UnlessDenied m w ok post' := by
  obtain ⟨hok, w', hrun, hw'⟩ | hdenied := h
  · exact of_ok hok hrun (hpost w' hw')
  · exact Or.inr hdenied

theorem congr {ok' : Prop} (h : UnlessDenied m w ok post) (hok : ok ↔ ok') :
    UnlessDenied m w ok' post := by
  unfold UnlessDenied at h ⊢
  rwa [← hok]

end UnlessDenied

/-! ### Replacing an entry -/

section

variable {root : RootHandle} {path : RelativePath} {w w' w'' : World} {i : Inode}

/-- The path has no protected component, and resolution gets to its parent. -/
structure Reach (root : RootHandle) (path : RelativePath) (w : World) : Prop where
  unprotected : Unprotected path
  passable : ∀ k < path.components.length,
    Passable w.tree (root.path ++ path.components.take k)

theorem Reach.resolve (h : Reach root path w) :
    (resolveParent root path).run w = (.ok (parentOf root path), w) :=
  resolveParent_run h.unprotected h.passable

theorem Reach.enterable (h : Reach root path w) :
    w.tree.Enterable (parentOf root path).directory := by
  have hlen := List.length_pos_iff.2 path.ne_nil
  have hpass := h.passable (path.components.length - 1) (by omega)
  rw [← List.dropLast_eq_take] at hpass
  exact hpass.enterable

/-- Directories stay as they are on the way to the path. -/
theorem Reach.of_get (h : Reach root path w)
    (hget : ∀ q, w.tree.IsDir q → w'.tree.get q = w.tree.get q) : Reach root path w' := by
  refine ⟨h.unprotected, fun k hk => ?_⟩
  have hpass := h.passable k hk
  obtain ⟨i, hi, hdir, hperm⟩ := id hpass
  exact ⟨i, (hget _ ⟨i, hi, hdir⟩).trans hi, hdir, hperm⟩

/-- The entry at a path becomes `new`.  The parent is touched if `touches`, and `own` is a temporary
file that is moved to the path. -/
structure Replaces (root : RootHandle) (path : RelativePath) (touches : Bool)
    (own : Option StagedFile) (new : Option Inode) (w w' : World) : Prop where
  clock : w'.clock = w.clock
  entry : w'.tree.get (root.at path) = new
  touched : touches = true → ∃ n, w'.tree.get (parentOf root path).directory =
    (w.tree.get (parentOf root path).directory).map fun i => { i with mtime := w.clock n }
  untouched : touches = false →
    w'.tree.get (parentOf root path).directory = w.tree.get (parentOf root path).directory
  other : ∀ q, q ≠ root.at path → q ≠ (parentOf root path).directory →
    (∀ f ∈ own, q ≠ f.directory ∧ q ≠ f.directory ++ [f.name]) → w'.tree.get q = w.tree.get q
  staging : ∀ f ∈ own, SameEntry (w.tree.get f.directory) (w'.tree.get f.directory)

/-- Nothing happens. -/
theorem Replaces.refl (root : RootHandle) (path : RelativePath) (w : World) :
    Replaces root path false none (w.tree.get (root.at path)) w w :=
  ⟨rfl, rfl, by simp, fun _ => rfl, fun _ _ _ _ => rfl, by simp⟩

theorem parentOf_directory_ne (root : RootHandle) (path : RelativePath) :
    (parentOf root path).directory ≠ root.at path := by
  rw [← parentOf_directory_leaf]
  exact Tree.ne_append_singleton _ _

/-- Two replacements of one entry, of which only the second moves a file to it. -/
theorem Replaces.trans {touches touches' : Bool} {own : Option StagedFile} {new new' : Option Inode}
    (h : Replaces root path touches none new w w')
    (h' : Replaces root path touches' own new' w' w'')
    (hown : ∀ f ∈ own, f.directory ≠ root.at path ∧ f.directory ≠ (parentOf root path).directory) :
    Replaces root path (touches || touches') own new' w w'' := by
  have hstage : ∀ f ∈ own, w'.tree.get f.directory = w.tree.get f.directory := fun f hf =>
    h.other _ (hown f hf).1 (hown f hf).2 (by simp)
  refine ⟨h'.clock.trans h.clock, h'.entry, fun ht => ?_, fun ht => ?_, fun q hq hdir hq' => ?_,
    fun f hf => ?_⟩
  · cases touches' with
    | true =>
      obtain ⟨n, hn⟩ := h'.touched rfl
      refine ⟨n, ?_⟩
      rw [hn, h.clock]
      cases touches with
      | true =>
        obtain ⟨m, hm⟩ := h.touched rfl
        rw [hm, Option.map_map]
        rfl
      | false => rw [h.untouched rfl]
    | false =>
      rw [Bool.or_false] at ht
      obtain ⟨n, hn⟩ := h.touched ht
      exact ⟨n, by rw [h'.untouched rfl, hn]⟩
  · obtain ⟨ht, ht'⟩ := Bool.or_eq_false_iff.1 ht
    rw [h'.untouched ht', h.untouched ht]
  · rw [h'.other q hq hdir hq', h.other q hq hdir (by simp)]
  · rw [← hstage f hf]
    exact h'.staging f hf

theorem replaces_modify (root : RootHandle) (path : RelativePath) (w : World) (f : Inode → Inode) (hf : ∀ i, (f i).node = i.node) :
    Replaces root path false none ((w.tree.get (root.at path)).map f) w
      (w.record (w.tree.modify (root.at path) f hf)) := by
  refine ⟨rfl, ?_, by simp, fun _ => ?_, fun q hq _ _ => ?_, by simp⟩
  · rw [World.record_tree, Tree.get_modify, if_pos rfl]
  · rw [World.record_tree, Tree.get_modify, if_neg (parentOf_directory_ne root path)]
  · rw [World.record_tree, Tree.get_modify, if_neg hq]

theorem replaces_removed (hchild : ¬ w.tree.HasChild (root.at path)) :
    Replaces root path true none none w (w.record
      (w.tree.removed (parentOf root path).directory (parentOf root path).leaf w.now)) := by
  rw [← parentOf_directory_leaf] at hchild
  have hget := Tree.get_removed w.now hchild
  rw [parentOf_directory_leaf] at hget
  refine ⟨rfl, ?_, fun _ => ⟨w.past.length, ?_⟩, by simp, fun q hq hdir _ => ?_, by simp⟩
  · rw [World.record_tree, hget, if_pos rfl]
  · rw [World.record_tree, hget, if_neg (parentOf_directory_ne root path), if_pos rfl]
    rfl
  · rw [World.record_tree, hget, if_neg hq, if_neg hdir]

theorem replaces_added (hdir : w.tree.IsDir (parentOf root path).directory)
    (hnone : w.tree.get (root.at path) = none) :
    Replaces root path true none (some i) w (w.record
      (w.tree.added (parentOf root path).directory (parentOf root path).leaf i w.now)) := by
  rw [← parentOf_directory_leaf] at hnone
  have hget := Tree.get_added (i := i) w.now hdir hnone
  rw [parentOf_directory_leaf] at hget
  refine ⟨rfl, ?_, fun _ => ⟨w.past.length, ?_⟩, by simp, fun q hq hdir _ => ?_, by simp⟩
  · rw [World.record_tree, hget, if_pos rfl]
  · rw [World.record_tree, hget, if_neg (parentOf_directory_ne root path), if_pos rfl]
    rfl
  · rw [World.record_tree, hget, if_neg hq, if_neg hdir]

/-- A parent that is touched may be written and searched as before. -/
theorem Replaces.parent {touches : Bool} {new : Option Inode}
    (h : Replaces root path touches none new w w')
    (hi : w.tree.get (parentOf root path).directory = some i) :
    ∃ m, w'.tree.get (parentOf root path).directory = some { i with mtime := m } := by
  cases touches with
  | true =>
    obtain ⟨n, hn⟩ := h.touched rfl
    exact ⟨w.clock n, by rw [hn, hi]; rfl⟩
  | false => exact ⟨i.mtime, by rw [h.untouched rfl, hi]⟩

theorem Replaces.enterable {touches : Bool} {new : Option Inode}
    (h : Replaces root path touches none new w w')
    (hd : w.tree.Enterable (parentOf root path).directory) :
    w'.tree.Enterable (parentOf root path).directory := by
  obtain ⟨i, hi, hdir, hsearch⟩ := hd
  obtain ⟨m, hm⟩ := h.parent hi
  exact ⟨_, hm, hdir, hsearch⟩

theorem Replaces.writableAt {touches : Bool} {new : Option Inode}
    (h : Replaces root path touches none new w w')
    (hw : w.tree.WritableAt (parentOf root path).directory) :
    w'.tree.WritableAt (parentOf root path).directory := by
  obtain ⟨i, hi, hwrite⟩ := hw
  obtain ⟨m, hm⟩ := h.parent hi
  exact ⟨_, hm, hwrite⟩

/-- Resolution gets to the path after the entry at it has been replaced. -/
theorem Reach.replaces {touches : Bool} {new : Option Inode} (hreach : Reach root path w)
    (h : Replaces root path touches none new w w') : Reach root path w' := by
  refine ⟨hreach.unprotected, fun k hk => ?_⟩
  obtain ⟨i, hi, hdir, hread, hsearch⟩ := hreach.passable k hk
  have hne : root.path ++ path.components.take k ≠ root.at path := by
    intro heq
    have hlen := congrArg List.length (List.append_cancel_left heq)
    rw [List.length_take] at hlen
    omega
  by_cases hparent : root.path ++ path.components.take k = (parentOf root path).directory
  · rw [hparent] at hi ⊢
    obtain ⟨m, hm⟩ := h.parent hi
    exact ⟨_, hm, hdir, hread, hsearch⟩
  · exact ⟨i, (h.other _ hne hparent (by simp)).trans hi, hdir, hread, hsearch⟩

/-! ### The commands -/

section

variable {tolerated : Errno} {f : World → Except Errno World} {error : Errno → QuicSyncError}

theorem run_tolerate_ok (h : f w = .ok w') : (tolerate tolerated f error).run w = (.ok (), w') := by
  rw [run_tolerate, h]

theorem run_tolerate_error (h : f w = .error tolerated) :
    (tolerate tolerated f error).run w = (.ok (), w) := by
  rw [run_tolerate, h]
  exact if_pos rfl

theorem run_query_ok {α : Type} {f : World → Except Errno α} {a : α} (h : f w = .ok a) :
    (query f error).run w = (.ok a, w) := by
  rw [run_query, h]
  rfl

end

theorem Commit.errno_systemFailure (e : Errno) : (Commit.systemFailure e).errno = some e := rfl

theorem Staging.errno_systemFailure (e : Errno) : (Staging.systemFailure e).errno = some e := rfl

theorem unlinkat_outcome {removedir : Bool} (hreach : Reach root path w)
    (hi : w.tree.get (root.at path) = some i) (hdir : i.IsDir ↔ removedir = true)
    (hchild : ¬ w.tree.HasChild (root.at path)) :
    let dir := (parentOf root path).directory
    let leaf := (parentOf root path).leaf
    (w.tree.WritableAt dir → unlinkat w dir leaf removedir =
        .ok (w.record (w.tree.removed dir leaf w.now))) ∧
      (¬ w.tree.WritableAt dir → unlinkat w dir leaf removedir = .error .acces) := by
  intro dir leaf
  have hplain := plain_leaf root path
  rw [← parentOf_directory_leaf] at hi hchild
  refine ⟨fun hw => (unlinkat_eq_ok_iff hplain).2 ⟨hreach.enterable, hw, ⟨i, hi, hdir⟩, hchild, rfl⟩,
    fun hw => unlinkat_acces hplain hreach.enterable hi hw⟩

/-- Removing a name. -/
theorem unlink_outcome {removedir : Bool} (hreach : Reach root path w)
    (hi : w.tree.get (root.at path) = some i) (hdir : i.IsDir ↔ removedir = true)
    (hchild : ¬ w.tree.HasChild (root.at path)) :
    UnlessDenied (unlink root path removedir) w
      (w.tree.WritableAt (parentOf root path).directory) (Replaces root path true none none w) := by
  obtain ⟨hok, hdenied⟩ := unlinkat_outcome hreach hi hdir hchild
  exact .after hreach.resolve
    (.call Commit.errno_systemFailure hok hdenied (replaces_removed hchild))

/-- An entry that is not a directory has nothing below it. -/
theorem not_hasChild_of_not_isDir {p : Path} (h : ¬ w.tree.IsDir p) : ¬ w.tree.HasChild p :=
  fun hchild => h hchild.isDir

/-- Creating a link. -/
theorem symlinkat_outcome {target : Bytes} (hreach : Reach root path w)
    (hnone : w.tree.get (root.at path) = none) :
    UnlessDenied (call (fun w => symlinkat w target (parentOf root path).directory
        (parentOf root path).leaf) Commit.systemFailure) w
      (w.tree.WritableAt (parentOf root path).directory)
      (fun w' => ∃ m, Replaces root path true none (some ⟨.symlink target, 0o777, m⟩) w w') := by
  have hplain := plain_leaf root path
  have hadd := replaces_added (i := ⟨.symlink target, 0o777, w.now⟩) hreach.enterable.isDir hnone
  rw [← parentOf_directory_leaf] at hnone
  refine .call Commit.errno_systemFailure
    (fun hw => (symlinkat_eq_ok_iff hplain).2 ⟨hreach.enterable, hnone, hw, rfl⟩) (fun hw => ?_)
    ⟨w.now, hadd⟩
  unfold symlinkat
  rw [create_acces hplain hreach.enterable hnone hw]
  rfl

/-- Setting the time of a link. -/
theorem utimensat_run (mtime : ℤ) (hreach : Reach root path w)
    (hi : w.tree.get (root.at path) = some i) :
    ∃ w', (call (fun w => utimensat w (parentOf root path).directory (parentOf root path).leaf mtime)
        Commit.systemFailure).run w = (.ok (), w') ∧
      Replaces root path false none (some { i with mtime := mtime }) w w' := by
  have hget := hi
  rw [← parentOf_directory_leaf] at hget
  refine ⟨w.record (w.tree.touch (root.at path) mtime), ?_, ?_⟩
  · rw [run_call, (utimensat_eq_ok_iff (plain_leaf root path)).2
      ⟨hreach.enterable, ⟨i, hget⟩, rfl⟩, parentOf_directory_leaf]
  · have hmodify := replaces_modify root path w
      (fun i => { i with mtime := mtime }) fun _ => rfl
    rw [hi] at hmodify
    exact hmodify

/-- The first half of a link's installation: whatever is not a directory is removed. -/
theorem unlinkat_tolerated (hreach : Reach root path w) (hdir : ¬ w.tree.IsDir (root.at path)) :
    (∃ w', (tolerate .noent (fun w => unlinkat w (parentOf root path).directory
        (parentOf root path).leaf false) Commit.systemFailure).run w = (.ok (), w') ∧
      ∃ touches, Replaces root path touches none none w w') ∨
    ¬ w.tree.WritableAt (parentOf root path).directory ∧
      (tolerate .noent (fun w => unlinkat w (parentOf root path).directory
        (parentOf root path).leaf false) Commit.systemFailure).run w =
        (.error (Commit.systemFailure .acces), w) := by
  have hplain := plain_leaf root path
  cases hi : w.tree.get (root.at path) with
  | none =>
    refine Or.inl ⟨w, ?_, false, hi ▸ Replaces.refl root path w⟩
    rw [← parentOf_directory_leaf] at hi
    exact run_tolerate_error (unlinkat_noent hplain hreach.enterable hi)
  | some i =>
    have hidir : ¬ i.IsDir := fun h => hdir ⟨i, hi, h⟩
    have hchild := not_hasChild_of_not_isDir hdir
    obtain ⟨hok, hdenied⟩ := unlinkat_outcome hreach hi
      (show i.IsDir ↔ false = true by simpa using hidir) hchild
    by_cases hw : w.tree.WritableAt (parentOf root path).directory
    · exact Or.inl ⟨_, run_tolerate_ok (hok hw), true, replaces_removed hchild⟩
    · refine Or.inr ⟨hw, ?_⟩
      rw [run_tolerate, hdenied hw]
      rfl

/-- A touched parent may be written exactly if it could be before. -/
theorem Replaces.writableAt_iff {touches : Bool} {new : Option Inode}
    (h : Replaces root path touches none new w w')
    (hd : w.tree.Enterable (parentOf root path).directory) :
    w'.tree.WritableAt (parentOf root path).directory ↔
      w.tree.WritableAt (parentOf root path).directory := by
  obtain ⟨i, hi, -⟩ := hd
  obtain ⟨m, hm⟩ := h.parent hi
  constructor
  · rintro ⟨j, hj, hwrite⟩
    rw [hm] at hj
    cases hj
    exact ⟨i, hi, hwrite⟩
  · exact h.writableAt

/-- Installing a link where there is no directory. -/
theorem symlink_outcome {record : IndexRecord} {target : Bytes}
    (hreach : Reach root record.path w) (htarget : record.symlinkTarget = some target)
    (hnul : 0 ∉ target) (hmtime : record.metadata.mtimeNs.InRange)
    (hdir : ¬ w.tree.IsDir (root.at record.path)) :
    UnlessDenied (symlink root record) w (w.tree.WritableAt (parentOf root record.path).directory)
      (Replaces root record.path true none
        (some ⟨.symlink target, 0o777, record.metadata.mtimeNs.val⟩) w) := by
  obtain ⟨time, htime, hnanos⟩ := symlinkTime_inRange hmtime
  have hcstring : cstring target = .ok target := if_neg hnul
  unfold symlink
  rw [htarget]
  refine .after (Fallible.run_lift _ _) ?_
  rw [hcstring]
  refine .after (Fallible.run_lift _ _) (.after hreach.resolve ?_)
  obtain ⟨w₁, hrun, touches, hremoved⟩ | ⟨hw, hrun⟩ := unlinkat_tolerated hreach hdir
  · have hreach₁ := hreach.replaces hremoved
    refine .after hrun (.congr ?_ (hremoved.writableAt_iff hreach.enterable))
    refine .bind (symlinkat_outcome hreach₁ hremoved.entry) fun w₂ ⟨m, hadded⟩ hok => ?_
    have hreach₂ := hreach₁.replaces hadded
    obtain ⟨w₃, hrun₃, htouched⟩ := utimensat_run time.toNanos hreach₂ hadded.entry
    rw [htime]
    refine .after (Fallible.run_lift _ _) (.of_ok hok hrun₃ ?_)
    rw [← hnanos]
    have hboth := (hremoved.trans hadded (by simp)).trans htouched (by simp)
    simpa using hboth
  · exact Or.inr ⟨hw, _, _, Fallible.run_bind_error hrun, rfl⟩

/-- Setting mode and time of an open entry. -/
theorem setFileMetadata_run {p : Path} {metadata : EntryMetadata}
    (hmtime : metadata.mtimeNs.InRange) :
    ∃ w', (setFileMetadata p metadata).run w = (.ok (), w') ∧ w'.clock = w.clock ∧
      ∀ q, w'.tree.get q = if q = p then (w.tree.get p).map fun i =>
        ⟨i.node, metadata.mode &&& 0o7777, metadata.mtimeNs.val⟩ else w.tree.get q := by
  obtain ⟨time, htime, hnanos⟩ := modifiedTime_inRange hmtime
  refine ⟨futimens (fchmod w p metadata.mode) p time.toNanos, ?_, rfl, fun q => ?_⟩
  · unfold setFileMetadata
    rw [Fallible.run_bind_ok (Fallible.run_modify _ _), htime,
      Fallible.run_bind_ok (Fallible.run_lift _ _), Fallible.run_modify]
  · simp only [futimens, fchmod, World.record_tree, Tree.get_touch, Tree.get_modify, hnanos, if_true]
    split
    · rw [Option.map_map]
      rfl
    · rfl

/-- Opening the directory at a path. -/
theorem openLeaf_run {error : Errno → QuicSyncError} (hreach : Reach root path w)
    (hi : w.tree.get (root.at path) = some i) (hdir : i.IsDir) (hread : i.Readable) :
    (query (fun w => openat w (parentOf root path).directory (parentOf root path).leaf
      directoryFlags) error).run w = (.ok (root.at path), w) := by
  rw [← parentOf_directory_leaf] at hi
  have hopen : openat w (parentOf root path).directory (parentOf root path).leaf directoryFlags =
      .ok ((parentOf root path).directory ++ [(parentOf root path).leaf]) :=
    (openat_directory_eq_ok_iff (plain_leaf root path)).2
      ⟨hreach.enterable, ⟨i, hi, hdir, hread⟩, rfl⟩
  rw [parentOf_directory_leaf] at hopen
  exact run_query_ok hopen

/-- Setting the final metadata of a directory. -/
theorem directoryMetadata_run {metadata : EntryMetadata} (hreach : Reach root path w)
    (hi : w.tree.get (root.at path) = some i) (hdir : i.IsDir) (hread : i.Readable)
    (hmtime : metadata.mtimeNs.InRange) :
    ∃ w', (directoryMetadata root path metadata).run w = (.ok (), w') ∧
      Replaces root path false none
        (some ⟨.directory, metadata.mode &&& 0o7777, metadata.mtimeNs.val⟩) w w' := by
  obtain ⟨w', hrun, hclock, hget⟩ := setFileMetadata_run (p := root.at path) (w := w) hmtime
  refine ⟨w', ?_, hclock, ?_, by simp, fun _ => ?_, fun q hq _ _ => ?_, by simp⟩
  · unfold directoryMetadata
    rw [Fallible.run_bind_ok hreach.resolve,
      Fallible.run_bind_ok (openLeaf_run hreach hi hdir hread), hrun]
  · rw [hget, if_pos rfl, hi, Option.map_some, show i.node = .directory from hdir]
  · rw [hget, if_neg (parentOf_directory_ne root path)]
  · rw [hget, if_neg hq]

/-- The mode of a directory while children are added to it. -/
def widened (metadata : EntryMetadata) : UInt32 := (metadata.mode ||| 0o700) &&& 0o7777

/-- The second half of the upsert of a directory. -/
theorem widen_run (metadata : EntryMetadata) (hreach : Reach root path w)
    (hi : w.tree.get (root.at path) = some i) (hdir : i.IsDir) (hread : i.Readable) :
    ∃ w', (query (fun w => openat w (parentOf root path).directory (parentOf root path).leaf
        directoryFlags) Commit.systemFailure >>= fun directory =>
        Fallible.modify fun w => fchmod w directory (metadata.mode ||| 0o700)).run w =
          (.ok (), w') ∧
      Replaces root path false none (some { i with mode := widened metadata }) w w' := by
  refine ⟨_, by rw [Fallible.run_bind_ok (openLeaf_run hreach hi hdir hread), Fallible.run_modify], ?_⟩
  have hmodify := replaces_modify root path w
    (fun i => { i with mode := widened metadata }) fun _ => rfl
  rw [hi] at hmodify
  exact hmodify

/-- The upsert of a directory where there is none. -/
theorem upsertDirectory_outcome {metadata : EntryMetadata} (hreach : Reach root path w)
    (hnone : w.tree.get (root.at path) = none) :
    UnlessDenied (upsertDirectory root path metadata) w
      (w.tree.WritableAt (parentOf root path).directory)
      (fun w' => ∃ m,
        Replaces root path true none (some ⟨.directory, widened metadata, m⟩) w w') := by
  have hplain := plain_leaf root path
  have hread (m : ℤ) : Inode.Readable ⟨.directory, 0o700, m⟩ :=
    show Nat.testBit (448 : UInt32).toNat 8 = true by decide
  have hadd := replaces_added (i := ⟨.directory, 0o700, w.now⟩) hreach.enterable.isDir hnone
  have hleaf := hnone
  rw [← parentOf_directory_leaf] at hleaf
  refine .after hreach.resolve ?_
  by_cases hw : w.tree.WritableAt (parentOf root path).directory
  · obtain ⟨w', hrun, hwiden⟩ := widen_run metadata (hreach.replaces hadd) hadd.entry
      rfl (hread _)
    refine .after (run_tolerate_ok ((mkdirat_eq_ok_iff hplain).2
      ⟨hreach.enterable, hleaf, hw, rfl⟩)) (.of_ok hw hrun ⟨w.now, ?_⟩)
    simpa using hadd.trans hwiden (by simp)
  · refine Or.inr ⟨hw, Commit.systemFailure .acces, w, Fallible.run_bind_error ?_, rfl⟩
    rw [run_tolerate, mkdirat, create_acces hplain hreach.enterable hleaf hw]
    rfl

/-- The upsert of a directory that is there. -/
theorem upsertDirectory_run (metadata : EntryMetadata) (hreach : Reach root path w)
    (hi : w.tree.get (root.at path) = some i) (hdir : i.IsDir) (hread : i.Readable) :
    ∃ w', (upsertDirectory root path metadata).run w = (.ok (), w') ∧
      Replaces root path false none (some { i with mode := widened metadata }) w w' := by
  obtain ⟨w', hrun, hwiden⟩ := widen_run metadata hreach hi hdir hread
  refine ⟨w', ?_, hwiden⟩
  rw [← parentOf_directory_leaf] at hi
  have hmkdir : mkdirat w (parentOf root path).directory (parentOf root path).leaf 0o700 =
      .error .exist := by
    rw [mkdirat, create_exist (plain_leaf root path) hreach.enterable hi]
    rfl
  unfold upsertDirectory
  rw [Fallible.run_bind_ok hreach.resolve, Fallible.run_bind_ok (run_tolerate_error hmkdir), hrun]

/-- A staged file is ready to be installed: it lies in the physical `.quicsync` of the root, which
may be searched and written, and may itself be written. -/
structure Ready (root : RootHandle) (file : StagedFile) (content : Bytes) (w : World) : Prop where
  directory : file.directory = root.path ++ [stagingName]
  enterable : w.tree.Enterable file.directory
  writableAt : w.tree.WritableAt file.directory
  entry : ∃ m, w.tree.get (file.directory ++ [file.name]) = some ⟨.file content, 0o600, m⟩

theorem stagingName_protected : stagingName ∈ protectedComponents := by decide

/-- No path without a protected component leads into the directory for temporary files. -/
theorem staging_ne (root : RootHandle) (hprot : Unprotected path) (k : ℕ) (l : List Bytes) :
    root.path ++ [stagingName] ++ l ≠ root.path ++ path.components.take k := by
  intro heq
  rw [List.append_assoc] at heq
  have hmem : stagingName ∈ path.components.take k := by
    rw [← List.append_cancel_left heq]
    exact List.mem_append_left _ (List.mem_singleton_self _)
  exact hprot _ (List.mem_of_mem_take hmem) stagingName_protected

/-- What lies below a path without a protected component is not in the directory for temporary
files. -/
theorem not_staging_below (root : RootHandle) (hprot : Unprotected path) (l : List Bytes) :
    ¬ root.path ++ [stagingName] <+: root.at path ++ l := by
  rintro ⟨l', hl⟩
  unfold RootHandle.at at hl
  rw [List.append_assoc, List.append_assoc] at hl
  have hl' := List.append_cancel_left hl
  cases hcs : path.components with
  | nil => exact path.ne_nil hcs
  | cons c cs =>
    rw [hcs] at hl'
    simp only [List.cons_append, List.cons.injEq] at hl'
    refine hprot c ?_ (hl'.1 ▸ stagingName_protected)
    rw [hcs]
    exact List.mem_cons_self

theorem not_staging (root : RootHandle) (hprot : Unprotected path) :
    ¬ root.path ++ [stagingName] <+: root.at path := by
  have hnot := not_staging_below root hprot []
  rwa [List.append_nil] at hnot

theorem staging_ne_at (hprot : Unprotected path) {l : List Bytes} :
    root.path ++ [stagingName] ++ l ≠ root.at path := by
  have hne := staging_ne root hprot path.components.length l
  rwa [List.take_length] at hne

theorem staging_ne_parent (hprot : Unprotected path) {l : List Bytes} :
    root.path ++ [stagingName] ++ l ≠ (parentOf root path).directory := by
  have hne := staging_ne root hprot (path.components.length - 1) l
  rwa [← List.dropLast_eq_take] at hne

/-- A temporary file is moved to a path. -/
theorem replaces_renamed {file : StagedFile} (hprot : Unprotected path)
    (hstaging : file.directory = root.path ++ [stagingName])
    (hsource : w.tree.IsDir file.directory) (hparent : w.tree.IsDir (parentOf root path).directory)
    (hi : w.tree.get (file.directory ++ [file.name]) = some i) (hidir : ¬ i.IsDir)
    (hdir : ¬ w.tree.IsDir (root.at path)) :
    Replaces root path true (some file) (some i) w (w.record (w.tree.renamed file.directory file.name
      (parentOf root path).directory (parentOf root path).leaf i w.now)) := by
  have hne : file.directory ++ [file.name] ≠ root.at path := by
    rw [hstaging]
    exact staging_ne_at hprot
  have hsplit := parentOf_directory_leaf root path
  have hget := Tree.get_renamed w.now hi hidir hsource hparent (hsplit ▸ hdir) (hsplit ▸ hne)
  rw [hsplit] at hget
  have hstage : file.directory ≠ root.at path := by
    rw [hstaging, ← List.append_nil (root.path ++ [stagingName])]
    exact staging_ne_at hprot
  have hfile : (parentOf root path).directory ≠ file.directory ++ [file.name] := by
    rw [hstaging]
    exact (staging_ne_parent hprot).symm
  refine ⟨rfl, ?_, fun _ => ⟨w.past.length, ?_⟩, by simp, fun q hq hparent hown => ?_,
    fun f hf => ?_⟩
  · rw [World.record_tree, hget, if_pos rfl]
  · rw [World.record_tree, hget, if_neg (parentOf_directory_ne root path), if_neg hfile,
      if_pos (Or.inr rfl)]
    rfl
  · obtain ⟨hq₁, hq₂⟩ := hown file rfl
    rw [World.record_tree, hget, if_neg hq, if_neg hq₂, if_neg (not_or.2 ⟨hq₁, hparent⟩)]
  · cases hf
    refine Tree.sameEntry_renamed hi hidir hsource hparent (hsplit ▸ hdir)
      (hsplit ▸ hne) (Tree.ne_append_singleton _ _) ?_
    rwa [hsplit]

/-- Moving a file that has its final metadata. -/
theorem renameat_outcome {file : StagedFile} {content : Bytes} (hreach : Reach root path w)
    (hstaging : file.directory = root.path ++ [stagingName])
    (henter : w.tree.Enterable file.directory) (hwrite : w.tree.WritableAt file.directory)
    (hi : w.tree.get (file.directory ++ [file.name]) = some i) (hnode : i.node = .file content)
    (hdir : ¬ w.tree.IsDir (root.at path)) :
    UnlessDenied (call (fun w => renameat w file.directory file.name (parentOf root path).directory
        (parentOf root path).leaf) Staging.systemFailure) w
      (w.tree.WritableAt (parentOf root path).directory)
      (Replaces root path true (some file) (some i) w) := by
  have hidir : ¬ i.IsDir := by
    unfold Inode.IsDir
    rw [hnode]
    exact Node.noConfusion
  have hne : file.directory ++ [file.name] ≠ root.at path := by
    rw [hstaging]
    exact staging_ne_at hreach.unprotected
  have hnames := plain_leaf root path
  have hsplit := parentOf_directory_leaf root path
  exact .call Staging.errno_systemFailure (fun hw => (renameat_eq_ok_iff file.plain_name hnames).2
    ⟨henter, hreach.enterable, hwrite, hw, hsplit ▸ hdir, i, hi, hidir,
      (if_neg (hsplit ▸ hne)).symm⟩)
    (fun hw => renameat_acces file.plain_name hnames henter hreach.enterable hi hwrite hw)
    (replaces_renamed hreach.unprotected hstaging henter.isDir hreach.enterable.isDir hi hidir hdir)

/-- Installing a staged file where there is no directory. -/
theorem install_outcome {file : StagedFile} {content : Bytes} {metadata : EntryMetadata}
    (hreach : Reach root path w) (hready : Ready root file content w)
    (hkind : metadata.kind = .regularFile) (hmtime : metadata.mtimeNs.InRange)
    (hdir : ¬ w.tree.IsDir (root.at path)) :
    UnlessDenied (file.install root path metadata) w
      (w.tree.WritableAt (parentOf root path).directory)
      (Replaces root path true (some file)
        (some ⟨.file content, metadata.mode &&& 0o7777, metadata.mtimeNs.val⟩) w) := by
  obtain ⟨m, hi⟩ := hready.entry
  have hwritable : Inode.Writable ⟨.file content, 0o600, m⟩ :=
    show Nat.testBit (384 : UInt32).toNat 7 = true by decide
  have hopen : openat w file.directory file.name ⟨true, false, true⟩ =
      .ok (file.directory ++ [file.name]) :=
    (openat_write_eq_ok_iff file.plain_name).2 ⟨hready.enterable,
      ⟨_, hi, Node.noConfusion, fun _ => Node.noConfusion, hwritable⟩, rfl⟩
  obtain ⟨w₁, hrun, hclock, hget⟩ :=
    setFileMetadata_run (p := file.directory ++ [file.name]) (w := w) hmtime
  rw [hi] at hget
  -- the temporary file is no directory, so the directories are as they were
  have hne {q : Path} (hq : w.tree.IsDir q) : q ≠ file.directory ++ [file.name] := by
    rintro rfl
    obtain ⟨j, hj, hjdir⟩ := hq
    rw [Option.mem_def, hi] at hj
    cases hj
    cases hjdir
  have hsame {q : Path} (hq : w.tree.IsDir q) : w₁.tree.get q = w.tree.get q := by
    rw [hget, if_neg (hne hq)]
  have hat : root.at path ≠ file.directory ++ [file.name] := by
    rw [hready.directory]
    exact (staging_ne_at hreach.unprotected).symm
  have henter : w₁.tree.Enterable file.directory := by
    obtain ⟨j, hj, hperm⟩ := hready.enterable
    exact ⟨j, (hsame hready.enterable.isDir).trans hj, hperm⟩
  have hwrite : w₁.tree.WritableAt file.directory := by
    obtain ⟨j, hj, hperm⟩ := hready.writableAt
    exact ⟨j, (hsame hready.enterable.isDir).trans hj, hperm⟩
  have hdir₁ : ¬ w₁.tree.IsDir (root.at path) := by
    rintro ⟨j, hj, hjdir⟩
    rw [Option.mem_def, hget, if_neg hat] at hj
    exact hdir ⟨j, hj, hjdir⟩
  have hreach₁ : Reach root path w₁ := hreach.of_get fun q hq => hsame hq
  have hmoved := renameat_outcome hreach₁ hready.directory henter hwrite
    ((hget _).trans (if_pos rfl)) rfl hdir₁
  have hparent : w₁.tree.get (parentOf root path).directory =
      w.tree.get (parentOf root path).directory := hsame hreach.enterable.isDir
  unfold StagedFile.install
  refine .onError ?_
  rw [if_pos hkind]
  refine .after (run_query_ok hopen) (.after hrun (.after hreach₁.resolve ?_))
  refine .mono (.congr hmoved ?_) fun w' h => ?_
  · unfold Tree.WritableAt
    rw [hparent]
  · refine ⟨h.clock.trans hclock, h.entry, fun ht => ?_, fun ht => ?_, fun q hq hq' hown => ?_,
      fun f hf => ?_⟩
    · obtain ⟨n, hn⟩ := h.touched ht
      exact ⟨n, by rw [hn, hparent, hclock]⟩
    · rw [h.untouched ht, hparent]
    · rw [h.other q hq hq' hown, hget, if_neg (hown file rfl).2]
    · cases hf
      rw [← hsame hready.enterable.isDir]
      exact h.staging file rfl

end

end QuicSync
