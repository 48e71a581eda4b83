import QuicSync.Effect.Triple
import QuicSync.Sync.Completion
import QuicSync.Sync.Confinement

/-!
# Nothing is left behind

Every temporary file that a session of the destination makes has an owner: the job that writes it,
the task that retains it, a change that is to be committed or an action that waits on the stack of
the committer.  What an owner does not install it removes, whatever fails.  So when the session has
returned and its workers have ended, `.quicsync` holds what it held before.

* `Tidy root w₀ files`: the files are the session's, and every other name in `.quicsync` is as it
  was at the start.
* The triples for a committer say where its files go, in a success and in a failure.
* `Destination.Clean` is the invariant of a session.
-/

namespace QuicSync

open Posix

/-- The files are in `.quicsync` under names that were free at the start, and can be removed; under
every other name there is what was there at the start. -/
structure Tidy (root : RootHandle) (w₀ : World) (files : List StagedFile) (w : World) : Prop where
  usable : files ≠ [] → w.tree.Enterable (root.path ++ [stagingName]) ∧
    w.tree.WritableAt (root.path ++ [stagingName])
  own : ∀ f ∈ files, f.directory = root.path ++ [stagingName] ∧
    w₀.tree.get (stagedPath root f.name) = none ∧ ¬ w.tree.IsDir (stagedPath root f.name)
  rest : ∀ name, (∀ f ∈ files, f.name ≠ name) →
    SameEntry (w₀.tree.get (stagedPath root name)) (w.tree.get (stagedPath root name))

/-- An entry that is the same is no less a directory. -/
theorem Posix.SameEntry.isDir {t t' : Tree} {p : Path} (h : SameEntry (t.get p) (t'.get p))
    (hdir : t.IsDir p) : t'.IsDir p := by
  obtain ⟨i, hi, hidir⟩ := hdir
  rw [Option.mem_def.1 hi] at h
  obtain ⟨j, hj, hjdir, -⟩ := h.permissions hidir
  exact ⟨j, hj, hjdir⟩

/-- A directory that is the same can be used in the same way. -/
theorem Posix.SameEntry.usable {t t' : Tree} {p : Path} (h : SameEntry (t.get p) (t'.get p))
    (husable : t.Enterable p ∧ t.WritableAt p) : t'.Enterable p ∧ t'.WritableAt p := by
  obtain ⟨⟨i, hi, hidir, hsearch⟩, j, hj, hwrite⟩ := husable
  obtain rfl : i = j := Option.some.inj (hi.symm.trans hj)
  rw [hi] at h
  obtain ⟨k, hk, hkdir, -, hksearch, hkwrite⟩ := h.permissions hidir
  exact ⟨⟨k, hk, hkdir, hksearch.2 hsearch⟩, k, hk, hkwrite.2 hwrite⟩

section

variable {root : RootHandle} {w₀ w w' : World} {files files' rest : List StagedFile}
  {file : StagedFile} {path : RelativePath}

namespace Tidy

theorem nil (root : RootHandle) (w : World) : Tidy root w [] w :=
  ⟨fun h => absurd rfl h, fun _ hf => absurd hf List.not_mem_nil, fun _ _ => SameEntry.refl _⟩

/-- Only which files there are matters. -/
theorem congr (h : Tidy root w₀ files w) (hmem : ∀ f, f ∈ files ↔ f ∈ files') :
    Tidy root w₀ files' w := by
  refine ⟨fun hne => h.usable ?_, fun f hf => h.own f ((hmem f).2 hf),
    fun name hname => h.rest name fun f hf => hname f ((hmem f).1 hf)⟩
  rintro rfl
  obtain ⟨f, hf⟩ := List.exists_mem_of_ne_nil _ hne
  exact absurd ((hmem f).2 hf) List.not_mem_nil

/-- A change outside `.quicsync`. -/
theorem frame (h : Tidy root w₀ files w)
    (hsame : ∀ l, SameEntry (w.tree.get (root.path ++ [stagingName] ++ l))
      (w'.tree.get (root.path ++ [stagingName] ++ l))) : Tidy root w₀ files w' := by
  have harea := hsame []
  rw [List.append_nil] at harea
  refine ⟨fun hne => harea.usable (h.usable hne), fun f hf => ?_, fun name hname => ?_⟩
  · obtain ⟨hdirectory, hfree, hdir⟩ := h.own f hf
    exact ⟨hdirectory, hfree, fun hdir' => hdir ((hsame [f.name]).symm.isDir hdir')⟩
  · exact (h.rest name hname).trans (hsame [name])

/-- A change of one of the files that leaves it no directory. -/
theorem change (h : Tidy root w₀ (file :: files) w)
    (harea : SameEntry (w.tree.get (root.path ++ [stagingName]))
      (w'.tree.get (root.path ++ [stagingName])))
    (hother : ∀ name ≠ file.name, SameEntry (w.tree.get (stagedPath root name))
      (w'.tree.get (stagedPath root name)))
    (hdir : ¬ w'.tree.IsDir (stagedPath root file.name)) : Tidy root w₀ (file :: files) w' := by
  refine ⟨fun hne => harea.usable (h.usable hne), fun f hf => ?_, fun name hname => ?_⟩
  · obtain ⟨hdirectory, hfree, hfdir⟩ := h.own f hf
    refine ⟨hdirectory, hfree, fun hdir' => ?_⟩
    by_cases heq : f.name = file.name
    · exact hdir (heq ▸ hdir')
    · exact hfdir ((hother _ heq).symm.isDir hdir')
  · exact (h.rest name hname).trans (hother name (hname file List.mem_cons_self).symm)

/-- One of the files is gone. -/
theorem gone (h : Tidy root w₀ (file :: files) w)
    (harea : SameEntry (w.tree.get (root.path ++ [stagingName]))
      (w'.tree.get (root.path ++ [stagingName])))
    (hother : ∀ name ≠ file.name, SameEntry (w.tree.get (stagedPath root name))
      (w'.tree.get (stagedPath root name)))
    (hnone : w'.tree.get (stagedPath root file.name) = none) : Tidy root w₀ files w' := by
  have hdir : ¬ w'.tree.IsDir (stagedPath root file.name) := by
    rintro ⟨i, hi, -⟩
    rw [Option.mem_def, hnone] at hi
    cases hi
  have hchange := h.change harea hother hdir
  refine ⟨fun _ => hchange.usable (List.cons_ne_nil _ _),
    fun f hf => hchange.own f (List.mem_cons_of_mem _ hf), fun name hname => ?_⟩
  by_cases heq : name = file.name
  · -- the name was free at the start
    rw [heq, hnone, (h.own file List.mem_cons_self).2.1]
    exact SameEntry.refl _
  · refine hchange.rest name fun f hf => ?_
    obtain rfl | hf := List.mem_cons.1 hf
    · exact fun h => heq h.symm
    · exact hname f hf

/-- A file that is dropped is gone. -/
theorem drop (h : Tidy root w₀ (file :: files) w) : Tidy root w₀ files (file.drop.run w).2 := by
  obtain ⟨hdirectory, -, hdir⟩ := h.own file List.mem_cons_self
  obtain ⟨henter, hwrite⟩ := h.usable (List.cons_ne_nil _ _)
  have honly := drop_onlyFile file w
  rw [hdirectory] at honly
  refine h.gone honly.directory (fun name hne => SameEntry.of_eq (honly.other _ ?_ ?_).symm) ?_
  · exact (Tree.ne_append_singleton _ _).symm
  · exact fun heq => hne (by simpa [stagedPath] using heq)
  rw [StagedFile.run_drop]
  cases hget : w.tree.get (stagedPath root file.name) with
  | none =>
    rw [hdirectory, unlinkat_noent file.plain_name henter hget]
    exact hget
  | some i =>
    have hidir : ¬ i.IsDir := fun hidir => hdir ⟨i, hget, hidir⟩
    have hchild : ¬ w.tree.HasChild (stagedPath root file.name) := fun hchild => hdir hchild.isDir
    rw [hdirectory, (unlinkat_eq_ok_iff file.plain_name).2
      ⟨henter, hwrite, ⟨i, hget, by simpa using hidir⟩, hchild, rfl⟩]
    exact (Tree.get_removed _ hchild _).trans (if_pos rfl)

end Tidy

/-! ### On the file system -/

/-- Files are handed over in a success and in a failure. -/
abbrev Disposes (root : RootHandle) (w₀ : World) (files : List StagedFile) {α : Type} (m : FsM α)
    (ok error : List StagedFile) : Prop :=
  Triple (Tidy root w₀ files) m (fun _ => Tidy root w₀ ok) (Tidy root w₀ error)

/-- A drop does not fail. -/
theorem Disposes.drop {error : List StagedFile} :
    Disposes root w₀ (file :: files) file.drop files error := by
  intro w h
  refine ⟨fun _ w' hrun => ?_, fun _ w' hrun => ?_⟩
  · have hdrop := h.drop
    rwa [hrun] at hdrop
  · rw [StagedFile.run_drop] at hrun
    split at hrun
    · cases hrun
    · cases hrun

/-- Changes of live entries. -/
theorem Disposes.live {m : FsM Unit} (h : ∀ w, Confines root [] (fun _ => True) m w) :
    Disposes root w₀ files m files files := by
  have htidy {w : World} (hw : Tidy root w₀ files w) : Tidy root w₀ files (m.run w).2 := by
    refine hw.frame fun l => (confined_of_evolves (h w)).2 _ ?_ fun _ hname =>
      absurd hname List.not_mem_nil
    rintro ⟨cs, hcs, hpath, hprot⟩
    rw [List.append_assoc] at hpath
    refine hprot stagingName ?_ stagingName_protected
    rw [← List.append_cancel_left hpath]
    exact List.mem_cons_self
  intro w hw
  have hrun' := htidy hw
  refine ⟨fun _ w' hrun => ?_, fun _ w' hrun => ?_⟩
  · rwa [hrun] at hrun'
  · rwa [hrun] at hrun'

/-- The mode and the time of a file are its own. -/
theorem Tidy.modify {f : Inode → Inode} {hf : ∀ i, (f i).node = i.node}
    (h : Tidy root w₀ (file :: files) w) : Tidy root w₀ (file :: files)
      (w.record (w.tree.modify (file.directory ++ [file.name]) f hf)) := by
  obtain ⟨hdirectory, -, hdir⟩ := h.own file List.mem_cons_self
  rw [hdirectory]
  refine h.change ?_ (fun name hne => ?_) ?_
  · rw [World.record_tree, Tree.get_modify, if_neg (Tree.ne_append_singleton _ _)]
    exact SameEntry.refl _
  · rw [World.record_tree, Tree.get_modify, if_neg fun heq => hne (by simpa [stagedPath] using heq)]
    exact SameEntry.refl _
  · rintro ⟨i, hi, hidir⟩
    rw [Option.mem_def, World.record_tree, stagedPath, Tree.get_modify, if_pos rfl] at hi
    obtain ⟨j, hj, rfl⟩ := Option.map_eq_some_iff.1 hi
    exact hdir ⟨j, hj, (hf j).symm.trans hidir⟩

/-- A file that is moved to its path is gone from `.quicsync`. -/
theorem Tidy.rename (h : Tidy root w₀ (file :: files) w) (hprot : Unprotected path)
    (hrename : renameat w file.directory file.name (parentOf root path).directory
      (parentOf root path).leaf = .ok w') : Tidy root w₀ files w' := by
  obtain ⟨hdirectory, -, -⟩ := h.own file List.mem_cons_self
  obtain ⟨hd, hd', -, -, hdst, i, hi, hidir, rfl⟩ :=
    (renameat_eq_ok_iff file.plain_name (plain_leaf root path)).1 hrename
  have hsplit := parentOf_directory_leaf root path
  have hat {l : List Name} : root.path ++ [stagingName] ++ l ≠
      (parentOf root path).directory ++ [(parentOf root path).leaf] := hsplit ▸ staging_ne_at hprot
  rw [hdirectory] at hd hi ⊢
  rw [if_neg hat]
  have hsame {q : Path} (hq : q ≠ root.path ++ [stagingName] ++ [file.name])
      (hq' : q ≠ (parentOf root path).directory ++ [(parentOf root path).leaf]) :
      SameEntry (w.tree.get q) ((w.tree.renamed (root.path ++ [stagingName]) file.name
        (parentOf root path).directory (parentOf root path).leaf i w.now).get q) :=
    Tree.sameEntry_renamed hi hidir hd.isDir hd'.isDir hdst hat hq hq'
  have hroot : root.path ++ [stagingName] ≠
      (parentOf root path).directory ++ [(parentOf root path).leaf] := by
    rw [← List.append_nil (root.path ++ [stagingName])]
    exact hat
  refine h.gone (hsame (Tree.ne_append_singleton _ _) hroot) (fun name hne => hsame ?_ hat) ?_
  · exact fun heq => hne (by simpa [stagedPath] using heq)
  · rw [World.record_tree, stagedPath, Tree.get_renamed w.now hi hidir hd.isDir hd'.isDir hdst hat,
      if_neg hat, if_pos rfl]

/-- Installing a file moves it away or removes it. -/
theorem Disposes.install {metadata : EntryMetadata} :
    Disposes root w₀ (file :: files) (file.install root path metadata) files files := by
  refine Triple.onError ?_ Disposes.drop
  split
  swap
  · exact Triple.fail fun _ h => h
  refine Triple.bind (Triple.of_state fun _ => rfl) fun descriptor => ?_
  refine Triple.bind (Q := fun _ => Tidy root w₀ (file :: files)) ?_ fun _ => ?_
  · intro w hw
    obtain ⟨hw, hrun⟩ := hw
    obtain ⟨hopen, -⟩ := query_ok hrun
    obtain ⟨-, -, rfl⟩ := (openat_write_eq_ok_iff file.plain_name).1 hopen
    refine Triple.bind (P := Tidy root w₀ (file :: files))
      (Q := fun _ => Tidy root w₀ (file :: files)) (Triple.modify fun w h => h.modify)
      (fun _ => Triple.bind Triple.lift fun modified => ?_) w hw
    exact Triple.modify fun w h => h.1.modify
  · refine Triple.bind (Triple.of_state (resolveParent_state root path)) fun parent => ?_
    intro w hw
    obtain ⟨hw, hrun⟩ := hw
    obtain ⟨-, hprot, rfl⟩ := resolveParent_ok hrun
    rw [run_call]
    cases hrename : renameat w file.directory file.name (parentOf root path).directory
        (parentOf root path).leaf with
    | ok w' =>
      refine ⟨fun _ w'' heq => ?_, fun _ w'' heq => ?_⟩
      · cases heq
        exact hw.rename hprot hrename
      · cases heq
    | error e =>
      refine ⟨fun _ w'' heq => ?_, fun _ w'' heq => ?_⟩
      · cases heq
      · cases heq
        exact hw

/-- Only which files there are matters. -/
theorem Disposes.congr {α : Type} {m : FsM α} {ok error : List StagedFile}
    (h : Disposes root w₀ files m ok error) (hmem : ∀ f, f ∈ files' ↔ f ∈ files) :
    Disposes root w₀ files' m ok error :=
  Triple.mono h (fun _ hw => hw.congr hmem) (fun _ _ hw => hw) fun _ hw => hw

theorem Disposes.dropFile {error : List StagedFile} (file : Option StagedFile) :
    Disposes root w₀ (file.toList ++ rest) (dropFile file) rest error := by
  cases file with
  | none => exact Triple.pure fun _ h => h
  | some f => exact Disposes.drop

theorem Disposes.dropActions {error : List StagedFile} (actions : List Action) :
    Disposes root w₀ (actions.flatMap Action.files ++ rest) (dropActions actions) rest error := by
  induction actions with
  | nil => exact Triple.pure fun _ h => h
  | cons a actions ih =>
    cases a with
    | file f metadata => exact Triple.bind Disposes.drop fun _ => ih
    | delete => exact ih
    | metadata metadata => exact ih
    | symlink record => exact ih

theorem Disposes.dropPending {error : List StagedFile} (pending : List Directory) :
    Disposes root w₀ (pending.flatMap Directory.files ++ rest) (dropPending pending) rest error := by
  induction pending generalizing rest with
  | nil => exact Triple.pure fun _ h => h
  | cons d pending ih =>
    -- the outer directories go first
    have hpending : Disposes root w₀ (pending.flatMap Directory.files ++ (d.files ++ rest))
        (QuicSync.dropPending pending) (d.files ++ rest) error := ih
    refine Triple.bind (hpending.congr fun f => ?_) fun _ => Disposes.dropActions d.actions
    simp only [List.flatMap_cons, List.mem_append]
    rw [or_assoc, or_left_comm]

theorem Disposes.dropChanges {error : List StagedFile} (changes : List Change) :
    Disposes root w₀ (changes.flatMap Change.files ++ rest) (dropChanges changes) rest error := by
  induction changes with
  | nil => exact Triple.pure fun _ h => h
  | cons c changes ih =>
    have hfirst : Disposes root w₀ (c.2.toList ++ (changes.flatMap Change.files ++ rest))
        (QuicSync.dropFile c.2) (changes.flatMap Change.files ++ rest) error := Disposes.dropFile c.2
    refine Triple.bind (hfirst.congr fun f => ?_) fun _ => ih
    rw [List.flatMap_cons, List.append_assoc, Change.files]

theorem Disposes.runAction (action : Action) :
    Disposes root w₀ (action.files ++ rest) (runAction root path action) rest rest := by
  cases action with
  | delete => exact Disposes.live fun _ => confines_unlink trivial
  | metadata metadata => exact Disposes.live fun _ => confines_directoryMetadata trivial
  | file f metadata => exact Disposes.install
  | symlink record => exact Disposes.live fun _ => confines_symlink trivial

theorem Disposes.runActions (actions : List Action) :
    Disposes root w₀ (actions.flatMap Action.files ++ rest) (runActions root path actions) rest
      rest := by
  induction actions with
  | nil => exact Triple.pure fun _ h => h
  | cons a actions ih =>
    refine Triple.bind (Q := fun _ => Tidy root w₀ (actions.flatMap Action.files ++ rest)) ?_
      fun _ => ih
    have hfirst : Disposes root w₀ (a.files ++ (actions.flatMap Action.files ++ rest))
        (QuicSync.runAction root path a) (actions.flatMap Action.files ++ rest)
        (actions.flatMap Action.files ++ rest) := Disposes.runAction a
    refine Triple.onError (hfirst.congr fun f => ?_) (Disposes.dropActions actions)
    simp only [List.flatMap_cons, List.append_assoc]

/-! ### The committer -/

/-- The files of the committer and some others. -/
structure Holds (root : RootHandle) (w₀ : World) (out : List StagedFile) (s : Site) : Prop where
  root_eq : s.committer.root = root
  tidy : Tidy root w₀ (s.committer.files ++ out) s.world

/-- A computation on the file system leaves the files of the committer to it. -/
theorem Holds.onWorld {α : Type} {m : FsM α} {out ok error : List StagedFile} {c : Committer}
    (hroot : c.root = root)
    (h : Disposes root w₀ (c.files ++ out) m (c.files ++ ok) (c.files ++ error)) :
    Triple (fun s => s.committer = c ∧ Tidy root w₀ (c.files ++ out) s.world) (onWorld m)
      (fun _ s => s.committer = c ∧ Holds root w₀ ok s)
      (fun s => s.committer = c ∧ Holds root w₀ error s) := by
  refine Triple.zoom fun s hs => ?_
  obtain ⟨rfl, hs⟩ := hs
  refine Triple.mono h (fun w hw => ?_) (fun _ w hw => ?_) fun w hw => ?_
  · rw [hw]
    exact hs
  · exact ⟨rfl, hroot, hw⟩
  · exact ⟨rfl, hroot, hw⟩

/-- Whatever happens to the actions of a directory, their files are gone. -/
theorem Holds.finishDirectory {out : List StagedFile} (pending : List Directory) :
    Triple (fun s => Holds root w₀ out s ∧ s.committer.pending = pending)
      Committer.finishDirectory
      (fun _ s => Holds root w₀ out s ∧ s.committer.pending = pending.tail)
      (Holds root w₀ out) := by
  intro s hs
  obtain ⟨hs, rfl⟩ := hs
  cases hp : s.committer.pending with
  | nil =>
    rw [Committer.run_finishDirectory_nil hp]
    refine ⟨fun _ s' heq => ?_, fun _ s' heq => ?_⟩
    · cases heq
      exact ⟨hs, hp⟩
    · cases heq
  | cons d pending =>
    rw [Committer.run_finishDirectory_cons hp, hs.root_eq]
    have hfiles : s.committer.files = d.files ++ pending.flatMap Directory.files := by
      rw [Committer.files, hp, List.flatMap_cons]
    let c : Committer := { s.committer with pending := pending }
    have hdisposes : Disposes root w₀ (c.files ++ (d.files ++ out))
        (runActions root d.path d.actions) (c.files ++ out) (c.files ++ out) := by
      refine (Disposes.runActions d.actions).congr fun f => ?_
      simp only [Directory.files, List.mem_append]
      exact or_left_comm
    have hrun := Holds.onWorld (c := c) hs.root_eq hdisposes
    have htidy : Tidy root w₀ (c.files ++ (d.files ++ out)) s.world := by
      refine hs.tidy.congr fun f => ?_
      rw [hfiles]
      simp only [c, Committer.files, List.mem_append]
      rw [or_assoc, or_left_comm]
    obtain ⟨hok, herror⟩ := hrun { s with committer := c } ⟨rfl, htidy⟩
    refine ⟨fun u s' heq => ?_, fun e s' heq => (herror e s' heq).2⟩
    obtain ⟨hc, hs'⟩ := hok u s' heq
    exact ⟨hs', congrArg Committer.pending hc⟩

theorem Holds.finishWhile {out : List StagedFile} (leave : Directory → Bool) (ds : List Directory) :
    Triple (Holds root w₀ out) (Committer.finishWhile leave ds) (fun _ => Holds root w₀ out)
      (Holds root w₀ out) := by
  induction ds with
  | nil => exact Triple.pure fun _ h => h
  | cons d ds ih =>
    unfold Committer.finishWhile
    split
    · refine Triple.bind ?_ fun _ => ih
      intro s hs
      exact ((Holds.finishDirectory s.committer.pending).mono (fun _ h => h) (fun _ _ h => h.1)
        fun _ h => h) s ⟨hs, rfl⟩
    · exact Triple.pure fun _ h => h

/-- At the end the stack is empty. -/
theorem Holds.finishAll {out : List StagedFile} (ds : List Directory) :
    Triple (fun s => Holds root w₀ out s ∧ s.committer.pending = ds)
      (Committer.finishWhile (fun _ => true) ds)
      (fun _ s => Holds root w₀ out s ∧ s.committer.pending = []) (Holds root w₀ out) := by
  induction ds with
  | nil => exact Triple.pure fun _ h => h
  | cons d ds ih => exact Triple.bind (Holds.finishDirectory (d :: ds)) fun _ => ih

/-- A file that waits on the stack is the committer's. -/
theorem mem_files_defer (c : Committer) (path : RelativePath) (action : Action) (f : StagedFile) :
    f ∈ (c.defer path action).files ↔ f ∈ c.files ∨ f ∈ action.files := by
  unfold Committer.defer
  cases hp : c.pending with
  | nil => simp [Committer.files, Directory.files, hp]
  | cons d pending =>
    simp only
    split
    · simp only [Committer.files, Directory.files, hp, List.flatMap_cons, List.flatMap_append,
        List.flatMap_nil, List.append_nil, List.mem_append]
      rw [or_right_comm]
    · simp only [Committer.files, Directory.files, hp, List.flatMap_cons, List.flatMap_nil,
        List.append_nil, List.mem_append]
      rw [or_comm]

theorem Holds.defer {out : List StagedFile} {action : Action} {c : Committer}
    (hroot : c.root = root) {E : Site → Prop} :
    Triple (fun s => s.committer = c ∧ Tidy root w₀ (c.files ++ (action.files ++ out)) s.world)
      (onCommitter fun c => c.defer path action) (fun _ => Holds root w₀ out) E := by
  refine Triple.modify fun s hs => ?_
  obtain ⟨rfl, hs⟩ := hs
  refine ⟨(s.committer.root_defer path action).trans hroot, hs.congr fun f => ?_⟩
  simp only [List.mem_append, mem_files_defer]
  exact or_assoc.symm

/-- Before an operation nothing is handed over; a refusal drops the file that comes with it. -/
theorem Holds.prepare {out : List StagedFile} (operation : Operation) (file : Option StagedFile) :
    Triple (Holds root w₀ (file.toList ++ out))
      (Fallible.onError (Committer.prepare operation file) (QuicSync.onWorld (dropFile file)))
      (fun _ s => Holds root w₀ (file.toList ++ out) s ∧ operation.isUpsertFile = file.isSome)
      (Holds root w₀ out) := by
  have hchecks : Triple (Holds root w₀ (file.toList ++ out)) (Committer.prepare operation file)
      (fun _ s => Holds root w₀ (file.toList ++ out) s ∧ operation.isUpsertFile = file.isSome)
      (Holds root w₀ (file.toList ++ out)) := by
    refine Triple.get_bind fun s hs => ?_
    split
    · exact Triple.fail fun _ h => h ▸ hs
    · split
      · exact Triple.fail fun _ h => h ▸ hs
      · rename_i hkind
        refine Triple.mono (Triple.get_bind fun s' hs' => ?_) (fun _ h => h ▸ hs)
          (fun _ s' hs' => ⟨hs', not_not.1 hkind⟩) fun _ h => h
        exact (Holds.finishWhile _ _).mono (fun _ h => h ▸ hs') (fun _ _ h => h) fun _ h => h
  refine Triple.onError hchecks ?_
  intro s hs
  have hdisposes : Disposes root w₀ (s.committer.files ++ (file.toList ++ out)) (dropFile file)
      (s.committer.files ++ out) (s.committer.files ++ out) := by
    refine (Disposes.dropFile file).congr fun f => ?_
    simp only [List.mem_append]
    exact or_left_comm
  obtain ⟨hok, herror⟩ := Holds.onWorld hs.root_eq hdisposes s ⟨rfl, hs.tidy⟩
  exact ⟨fun u s' heq => (hok u s' heq).2, fun e s' heq => (herror e s' heq).2⟩

/-- An operation installs its file, removes it or leaves it on the stack. -/
theorem Holds.install {out : List StagedFile} (operation : Operation) (file : Option StagedFile) :
    Triple (fun s => Holds root w₀ (file.toList ++ out) s ∧ operation.isUpsertFile = file.isSome)
      (Committer.install operation file) (fun _ => Holds root w₀ out) (Holds root w₀ out) := by
  refine Triple.get_bind fun s hs => ?_
  obtain ⟨hs, hkind⟩ := hs
  have hroot := hs.root_eq
  subst hroot
  have htidy (s' : Site) (heq : s' = s) : s'.committer = s.committer ∧
      Tidy s.committer.root w₀ (s.committer.files ++ (file.toList ++ out)) s'.world := by
    subst heq
    exact ⟨rfl, hs.tidy⟩
  have hworld {m : FsM Unit}
      (h : Disposes s.committer.root w₀ (s.committer.files ++ (file.toList ++ out)) m
        (s.committer.files ++ out) (s.committer.files ++ out)) :
      Triple (fun s' => s' = s) (QuicSync.onWorld m)
        (fun _ s' => s'.committer = s.committer ∧ Holds s.committer.root w₀ out s')
        (Holds s.committer.root w₀ out) :=
    (Holds.onWorld rfl h).mono htidy (fun _ _ h => h) fun _ h => h.2
  have hlive {m : FsM Unit} (hfile : file = none)
      (h : ∀ w, Confines s.committer.root [] (fun _ => True) m w) :
      Triple (fun s' => s' = s) (QuicSync.onWorld m)
        (fun _ s' => s'.committer = s.committer ∧ Holds s.committer.root w₀ out s')
        (Holds s.committer.root w₀ out) := by
    subst hfile
    exact hworld (Disposes.live h)
  have hdefer {path : RelativePath} {action : Action} (hfiles : action.files = file.toList) :
      Triple (fun s' => s' = s) (onCommitter fun c => c.defer path action)
        (fun _ => Holds s.committer.root w₀ out) (Holds s.committer.root w₀ out) :=
    (Holds.defer rfl).mono (hfiles ▸ htidy) (fun _ _ h => h) fun _ h => h
  have hnone (hupsert : operation.isUpsertFile = false) : file = none := by
    rw [hupsert] at hkind
    exact Option.isNone_iff_eq_none.1 (by simpa using hkind.symm)
  cases operation with
  | delete id path kind =>
    obtain rfl := hnone rfl
    cases kind with
    | directory => exact hdefer rfl
    | regularFile =>
      exact (hlive rfl fun _ => confines_unlink trivial).mono (fun _ h => h) (fun _ _ h => h.2)
        fun _ h => h
    | symlink =>
      exact (hlive rfl fun _ => confines_unlink trivial).mono (fun _ h => h) (fun _ _ h => h.2)
        fun _ h => h
  | upsertDirectory id record =>
    obtain rfl := hnone rfl
    refine Triple.bind (hlive rfl fun _ => confines_upsertDirectory trivial) fun _ => ?_
    refine Triple.mono (Holds.defer rfl) ?_ (fun _ _ h => h) fun _ h => h
    rintro s' ⟨heq, hs'⟩
    exact ⟨heq, heq ▸ hs'.tidy⟩
  | upsertFile update id record =>
    cases file with
    | none => cases hkind
    | some f =>
      change Triple _ (if _ then _ else _) _ _
      split
      · exact hdefer rfl
      · refine (hworld ?_).mono (fun _ h => h) (fun _ _ h => h.2) fun _ h => h
        refine Disposes.congr Disposes.install fun g => ?_
        simp only [Option.toList_some, List.mem_append, List.mem_cons, List.not_mem_nil, or_false]
        exact or_left_comm
  | upsertSymlink id record =>
    obtain rfl := hnone rfl
    change Triple _ (if _ then _ else _) _ _
    split
    · exact hdefer rfl
    · exact (hlive rfl fun _ => confines_symlink trivial).mono (fun _ h => h) (fun _ _ h => h.2)
        fun _ h => h

theorem Holds.apply {out : List StagedFile} (operation : Operation) (file : Option StagedFile) :
    Triple (Holds root w₀ (file.toList ++ out)) (Committer.apply operation file)
      (fun _ => Holds root w₀ out) (Holds root w₀ out) := by
  refine Triple.bind (Holds.prepare operation file) fun _ => Triple.bind (Triple.modify ?_)
    fun _ => Holds.install operation file
  rintro s ⟨hs, hkind⟩
  exact ⟨⟨hs.root_eq, hs.tidy⟩, hkind⟩

theorem Holds.applyAll (changes : List Change) :
    Triple (Holds root w₀ (changes.flatMap Change.files)) (applyAll changes)
      (fun _ => Holds root w₀ []) (Holds root w₀ []) := by
  induction changes with
  | nil => exact Triple.pure fun _ h => h
  | cons c changes ih =>
    obtain ⟨operation, file⟩ := c
    refine Triple.bind (Triple.onError (Holds.apply operation file) ?_) fun _ => ih
    intro s hs
    have hdisposes : Disposes root w₀ (s.committer.files ++ changes.flatMap Change.files)
        (dropChanges changes) (s.committer.files ++ []) (s.committer.files ++ []) := by
      refine (Disposes.dropChanges changes).congr fun f => ?_
      simp only [List.append_nil, List.mem_append]
      exact or_comm
    obtain ⟨hok, herror⟩ := Holds.onWorld hs.root_eq hdisposes s ⟨rfl, hs.tidy⟩
    exact ⟨fun u s' heq => (hok u s' heq).2, fun e s' heq => (herror e s' heq).2⟩

/-- A commit installs or removes all of its files. -/
theorem Tidy.commit {pending : PendingCommit}
    (h : Tidy root w₀ (pending.changes.flatMap Change.files) w) :
    Tidy root w₀ [] ((pending.commit root).run w).2 := by
  have htriple : Triple (Holds root w₀ (pending.changes.flatMap Change.files))
      (commitAll pending.changes) (fun _ s => Tidy root w₀ [] s.world)
      (fun s => Tidy root w₀ [] s.world) := by
    refine Triple.onError (Triple.bind (Holds.applyAll pending.changes) fun _ => ?_) ?_
    · refine Triple.get_bind fun s hs => ?_
      refine (Holds.finishAll s.committer.pending).mono (fun s' h => ?_) (fun _ s' h => ?_)
        fun _ h => h
      · subst h
        exact ⟨hs, rfl⟩
      · obtain ⟨hs', hpending⟩ := h
        have htidy := hs'.tidy
        rwa [Committer.files, hpending] at htidy
    · refine Triple.get_bind fun s hs => Triple.zoom fun s' hs' => ?_
      subst hs'
      refine (Disposes.dropPending s'.committer.pending).mono ?_ (fun _ _ h => h) fun _ h => h
      rintro w rfl
      exact hs.tidy
  have hstart : Holds root w₀ (pending.changes.flatMap Change.files) ⟨Committer.new root, w⟩ :=
    ⟨rfl, h⟩
  exact htriple.final hstart

/-! ### Jobs and the requesting task -/

/-- Opening the directory for temporary files, also if it fails, puts nothing into it. -/
theorem stagingDirectory_children (root : RootHandle) (w : World) (name : Name) :
    ((stagingDirectory root).run w).2.tree.get (stagedPath root name) =
      w.tree.get (stagedPath root name) := by
  let R (w w' : World) : Prop := w'.tree.get (stagedPath root name) = w.tree.get (stagedPath root name)
  have hrefl (w : World) : R w w := rfl
  have htrans (w₁ w₂ w₃ : World) (h : R w₁ w₂) (h' : R w₂ w₃) : R w₁ w₃ := h'.trans h
  have hmkdir : Keeps R
      (tolerate .exist (fun w => mkdirat w root.path stagingName 0o700) Staging.systemFailure) := by
    intro w
    unfold KeepsAt
    rw [run_tolerate]
    cases hcall : mkdirat w root.path stagingName 0o700 with
    | error e =>
      simp only
      split
      · exact hrefl w
      · exact hrefl w
    | ok w' =>
      obtain ⟨henter, hnone, -, rfl⟩ := (mkdirat_eq_ok_iff (by decide)).1 hcall
      have hne : stagedPath root name ≠ root.path ++ [stagingName] := by simp [stagedPath]
      have hne' : stagedPath root name ≠ root.path := by simp [stagedPath]
      change (World.record w _).tree.get _ = _
      rw [World.record_tree, Tree.get_added _ henter.isDir hnone, if_neg hne, if_neg hne']
  have hrun : Keeps R (stagingDirectory root) := by
    unfold stagingDirectory
    refine Keeps.bind htrans hmkdir fun _ => Keeps.bind htrans (fun w => hrefl w) fun directory =>
      Keeps.bind htrans (Keeps.get hrefl) fun w' => ?_
    split
    · exact Keeps.pure hrefl _
    · exact Keeps.fail hrefl _
  exact hrun w

/-- A new file has a name that was free at the start. -/
theorem Tidy.create {p : Path} (h : Tidy root w₀ files w)
    (hdirectory : file.directory = root.path ++ [stagingName])
    (hcreate : openatExcl w file.directory file.name 0o600 = .ok (w', p)) :
    Tidy root w₀ (file :: files) w' := by
  rw [hdirectory] at hcreate
  obtain ⟨honly, henter, hwrite, hnone, m, hnew⟩ := openatExcl_onlyFile file.plain_name hcreate
  have hfree : w₀.tree.get (stagedPath root file.name) = none := by
    by_cases hmem : ∃ f ∈ files, f.name = file.name
    · obtain ⟨f, hf, hname⟩ := hmem
      rw [← hname]
      exact (h.own f hf).2.1
    · have hsame := h.rest file.name fun f hf heq => hmem ⟨f, hf, heq⟩
      rw [stagedPath, hnone] at hsame
      exact SameEntry.none_iff.1 hsame.symm
  have hbefore : Tidy root w₀ (file :: files) w := by
    refine ⟨fun _ => ⟨henter, hwrite⟩, fun f hf => ?_, fun name hname => ?_⟩
    · obtain rfl | hf := List.mem_cons.1 hf
      · refine ⟨hdirectory, hfree, ?_⟩
        rintro ⟨i, hi, -⟩
        rw [Option.mem_def, stagedPath, hnone] at hi
        cases hi
      · exact h.own f hf
    · exact h.rest name fun f hf => hname f (List.mem_cons_of_mem _ hf)
  refine hbefore.change honly.directory (fun name hne => SameEntry.of_eq (honly.other _ ?_ ?_).symm) ?_
  · exact (Tree.ne_append_singleton _ _).symm
  · exact fun heq => hne (by simpa [stagedPath] using heq)
  · rintro ⟨i, hi, hidir⟩
    rw [Option.mem_def, stagedPath, hnew] at hi
    cases hi
    cases hidir

theorem Tidy.write {bytes : Bytes} (h : Tidy root w₀ (file :: files) w)
    (hready : Ready root file bytes w) (content : Bytes) :
    Tidy root w₀ (file :: files) (Posix.write w (file.directory ++ [file.name]) content) := by
  obtain ⟨m, hm⟩ := hready.entry
  rw [hready.directory] at hm ⊢
  obtain ⟨honly, m', hnew⟩ := write_onlyFile content hm
  refine h.change honly.directory (fun name hne => SameEntry.of_eq (honly.other _ ?_ ?_).symm) ?_
  · exact (Tree.ne_append_singleton _ _).symm
  · exact fun heq => hne (by simpa [stagedPath] using heq)
  · rintro ⟨i, hi, hidir⟩
    rw [Option.mem_def, stagedPath, hnew] at hi
    cases hi
    cases hidir

/-- The files of a job are its own in every event. -/
theorem Tidy.job {job job' : Job} {event : JobEvent}
    (h : Tidy root w₀ (job.files.map (·.1) ++ rest) w)
    (hready : ∀ f ∈ job.files, Ready root f.1 f.2 w)
    (hstep : job.step (root.path ++ [stagingName]) w event = some (job', w')) :
    Tidy root w₀ (job'.files.map (·.1) ++ rest) w' := by
  obtain ⟨operation, state⟩ := job
  cases event with
  | create random =>
    cases state with
    | requested =>
      simp only [Job.step] at hstep
      split at hstep
      · rename_i hcreate
        cases hstep
        exact Tidy.create h rfl hcreate
      · cases hstep
        exact h
    | staging file bytes => cases hstep
    | received received bytes => cases hstep
    | failed e => cases hstep
  | write bytes =>
    cases state with
    | staging file written =>
      cases hstep
      exact h.write (hready (file, written) List.mem_cons_self) _
    | requested => cases hstep
    | received received bytes => cases hstep
    | failed e => cases hstep
  | finish =>
    cases state with
    | staging file bytes =>
      cases hstep
      exact h
    | requested => cases hstep
    | received received bytes => cases hstep
    | failed e => cases hstep
  | fail e =>
    cases state with
    | requested =>
      cases hstep
      exact h
    | staging file bytes =>
      cases hstep
      exact h.drop
    | received received bytes => cases hstep
    | failed e => cases hstep

end

namespace Requester

variable {root : RootHandle} {capacity : ℕ} {w₀ : World} {s s' : Requester}

/-- The files there are, without what has been written to them. -/
def staged (s : Requester) : List StagedFile := s.files.map (·.1)

/-- The files are in order, and a task that has failed retains nothing. -/
structure Clean (root : RootHandle) (w₀ : World) (s : Requester) : Prop where
  tidy : Tidy root w₀ s.staged s.world
  abandoned : s.task.alive = false → s.retained = []

theorem clean_start (root : RootHandle) (w : World) : (start w).Clean root w :=
  ⟨Tidy.nil root w, fun _ => rfl⟩

theorem mem_staged {f : StagedFile} :
    f ∈ s.staged ↔ f ∈ s.retainedFiles.map (·.1) ∨ ∃ job ∈ s.jobs, f ∈ job.files.map (·.1) := by
  simp only [staged, files, List.map_append, List.mem_append, List.map_flatMap, List.mem_flatMap]

/-- What the task retains is dropped with it. -/
theorem Clean.abandon {task : RequestTask} (h : Tidy root w₀ s.staged s.world)
    (hdropped : (s.pending.changes.filterMap (·.2)).Perm (s.retainedFiles.map (·.1))) :
    (s.abandon task).Clean root w₀ := by
  have hdisposes : Disposes root w₀ s.staged (dropChanges s.pending.changes)
      ((s.jobs.flatMap Job.files).map (·.1)) ((s.jobs.flatMap Job.files).map (·.1)) := by
    refine (Disposes.dropChanges s.pending.changes).congr fun f => ?_
    rw [mem_staged, ← hdropped.mem_iff]
    simp only [List.mem_append, List.mem_flatMap, List.mem_filterMap, List.map_flatMap,
      Change.files, Option.mem_toList]
  exact ⟨hdisposes.final h, fun _ => rfl⟩

/-- Retaining an operation changes nothing on the file system, unless it is refused. -/
theorem stage_of_refused {operation : Operation}
    {received : Option (Transfer.ReceivedFile × Bytes)} {task : RequestTask}
    (h : (s.stage operation received task).refused = none) : ∃ pending,
      s.stage operation received task = { s with
        task := task
        pending := pending
        retained := s.retained ++ [(operation, received)] } := by
  unfold stage at h ⊢
  cases hrun : (s.pending.stage operation (received.map fun r => r.1.file)).run s.world with
  | mk result w =>
    rw [hrun] at h
    cases result with
    | error e => cases h
    | ok pending =>
      refine ⟨pending, ?_⟩
      unfold PendingCommit.stage at hrun
      split at hrun
      · obtain ⟨_, _, -, hfail⟩ := Fallible.run_bind_ok_iff.1 hrun
        cases hfail
      · split at hrun
        · obtain ⟨_, _, -, hfail⟩ := Fallible.run_bind_ok_iff.1 hrun
          cases hfail
        · cases hrun
          rfl

theorem Clean.stage {operation : Operation} {received : Option (Transfer.ReceivedFile × Bytes)}
    {task : RequestTask}
    (h : Tidy root w₀ ((received.map fun f => f.1.file).toList ++ s.staged) s.world)
    (htask : task.alive = true) (hrefused : (s.stage operation received task).refused = none) :
    (s.stage operation received task).Clean root w₀ := by
  obtain ⟨pending, heq⟩ := stage_of_refused hrefused
  rw [heq]
  refine ⟨h.congr fun f => ?_, fun hdead => ?_⟩
  · cases received with
    | none => simp [staged, files, retainedFiles]
    | some r =>
      simp only [staged, files, retainedFiles, List.flatMap_append, List.flatMap_singleton,
        Option.map_some, Option.toList_some, List.map_append, List.mem_append, List.map_singleton]
      rw [or_assoc, or_left_comm]
  · rw [htask] at hdead
    cases hdead

/-- The files of one of the jobs, and the others. -/
theorem mem_staged_of_jobs {jobs₁ jobs₂ : List Job} {job : Job} {f : StagedFile}
    (hjobs : s.jobs = jobs₁ ++ job :: jobs₂) :
    f ∈ s.staged ↔ f ∈ job.files.map (·.1) ++ { s with jobs := jobs₁ ++ jobs₂ }.staged := by
  have hperm := (files_perm hjobs).map (·.1)
  rw [List.map_append] at hperm
  exact hperm.mem_iff

/-- **Every event keeps the files in order.** -/
theorem Clean.step {event : RequestEvent} (h : s.Clean root w₀) (hs : s.Sound root capacity w₀)
    (hs' : s'.Sound root capacity w₀) (hstep : Requester.step root capacity s event = some s') :
    s'.Clean root w₀ := by
  have hrefused := hs'.accounts.refused
  cases event with
  | openArea =>
    have harea {task : RequestTask} {area : Path} (hopening : s.task = .opening) :
        { s with task := task, area := area, world := ((stagingDirectory root).run s.world).2 }.Clean
          root w₀ := by
      obtain ⟨hjobs, hretained⟩ := hs.stages.fresh hopening
      have hnone : s.staged = [] := by simp [staged, files, retainedFiles, hjobs, hretained]
      have hrest := (hnone ▸ h.tidy).rest
      refine ⟨?_, fun _ => hretained⟩
      change Tidy root w₀ s.staged _
      rw [hnone]
      refine ⟨fun hne => absurd rfl hne, fun _ hf => absurd hf List.not_mem_nil, fun name hname => ?_⟩
      rw [stagingDirectory_children]
      exact hrest name hname
    cases step_move hstep with
    | areaOpened htask hrun =>
      obtain rfl : ((stagingDirectory root).run s.world).2 = _ := congrArg Prod.snd hrun
      exact harea htask
    | areaFailed htask hrun =>
      obtain rfl : ((stagingDirectory root).run s.world).2 = _ := congrArg Prod.snd hrun
      exact harea htask
    | failed hevent _ _ => cases hevent
  | receive operation =>
    cases step_move hstep with
    | take htask hmemory hupsert hnext =>
      refine ⟨h.tidy, fun hdead => ?_⟩
      obtain rfl | ⟨rfl, -⟩ := hnext
      · cases hdead
      · cases hdead
    | takeDirect htask hmemory hupsert => exact Clean.stage h.tidy rfl hrefused
    | failed hevent _ _ => cases hevent
  | ended =>
    cases step_move hstep with
    | ended htask => exact ⟨h.tidy, fun hdead => by cases hdead⟩
    | failed hevent _ _ => cases hevent
  | openStream result =>
    simp only [Requester.step] at hstep
    split at hstep
    · cases hstep
      refine ⟨h.tidy.congr fun f => ?_, fun hdead => by cases hdead⟩
      rw [mem_staged, mem_staged]
      simp [retainedFiles, Job.files, or_and_right, exists_or]
    · cases hstep
      exact Clean.abandon h.tidy hs.accounts.dropped
    · cases hstep
  | join i =>
    have hjoin {job : Job} {jobs₁ jobs₂ : List Job} {task : RequestTask}
        (hjobs : s.jobs = jobs₁ ++ job :: jobs₂) (htask : task.alive = true)
        (hjoined : Requester.joined { s with jobs := jobs₁ ++ jobs₂ } job task = some s') :
        s'.Clean root w₀ := by
      have htidy := h.tidy.congr fun f => mem_staged_of_jobs hjobs
      unfold Requester.joined at hjoined
      split at hjoined
      · rename_i received bytes hstate
        rw [Job.files, hstate] at htidy
        cases hjoined
        exact Clean.stage htidy htask hrefused
      · -- a job that has failed has removed its file
        rename_i e hstate
        rw [Job.files, hstate] at htidy
        cases hjoined
        exact Clean.abandon htidy hs.accounts.dropped
      · cases hjoined
      · cases hjoined
    simp only [Requester.step] at hstep
    split at hstep
    · rename_i job operation hjob htask
      obtain ⟨jobs₁, jobs₂, hjobs, -, herase⟩ := exists_split hjob
      rw [herase] at hstep
      exact hjoin hjobs rfl hstep
    · rename_i job hjob htask
      obtain ⟨jobs₁, jobs₂, hjobs, -, herase⟩ := exists_split hjob
      rw [herase] at hstep
      exact hjoin hjobs rfl hstep
    · cases hstep
  | finish =>
    cases step_move hstep with
    | finished htask hjobs => exact ⟨h.tidy, fun hdead => by cases hdead⟩
    | failed hevent _ _ => cases hevent
  | fail e =>
    simp only [Requester.step] at hstep
    split at hstep
    · cases hstep
    · cases hstep
    · cases hstep
      exact Clean.abandon h.tidy hs.accounts.dropped
  | job i event =>
    cases step_move hstep with
    | job hjobs hjob =>
      rename_i jobs₁ jobs₂ job job' w
      have hmem : job ∈ s.jobs := hjobs ▸ List.mem_append_right _ List.mem_cons_self
      have htidy := h.tidy.congr fun f => mem_staged_of_jobs hjobs
      rw [hs.stages.area (Or.inr (List.ne_nil_of_mem hmem))] at hjob
      have hready : ∀ f ∈ job.files, Ready root f.1 f.2 s.world := fun f hf =>
        hs.stages.files.ready f (List.mem_append_right _ (List.mem_flatMap.2 ⟨job, hmem, hf⟩))
      refine ⟨(htidy.job hready hjob).congr fun f => Iff.symm ?_, h.abandoned⟩
      exact mem_staged_of_jobs (s := { s with jobs := jobs₁ ++ job' :: jobs₂, world := w }) rfl
    | failed hevent _ _ => cases hevent
  | discard i =>
    cases step_move hstep with
    | discarded hjobs hstate htask =>
      have htidy := h.tidy.congr fun f => mem_staged_of_jobs hjobs
      rw [Job.files, hstate] at htidy
      exact ⟨htidy.drop, h.abandoned⟩
    | failed hevent _ _ => cases hevent

end Requester

/-! ### The session -/

namespace Destination

variable {n : ℕ} {cfg : Serving} {w₀ : World} {s s' : Destination n}

/-- What a step of the session means for the requesting task. -/
inductive Effect (cfg : Serving) (s s' : Destination n) : Prop where
  | other (hrequesting : s'.requesting = s.requesting) (hcommitted : s'.committed = s.committed)
      (hstarting : s'.phase = .starting → s.phase = .starting)
      (hreturned : ∀ r, s'.phase = .returned r → s.phase = .starting ∨ s.phase = .acknowledging ∨
        s.phase = .closing ∨ s.phase = .returned r)
  | request (event : RequestEvent)
      (hstep : s.requesting.step cfg.root n event = some s'.requesting)
      (hcommitted : s'.committed = s.committed) (hphase : s'.phase = s.phase)
      (hevent : s.phase = .running ∨
        s.requesting.jobs ≠ [] ∧ s'.requesting.task = s.requesting.task ∧
          s'.requesting.retained = s.requesting.retained)
  | dropped (hphase : s.phase = .running ∨ s.phase = .committing)
      (hrequesting : s'.requesting = s.dropRequesting.requesting)
      (hcommitted : s'.committed = s.committed) (hstarting : s'.phase ≠ .starting)
  | commit (hphase : s.phase = .committing)
      (hrequesting : s'.requesting = { s.requesting with
        world := ((s.requesting.pending.commit cfg.root).run s.requesting.world).2 })
      (hcommitted : s'.committed =
        some ((s.requesting.pending.commit cfg.root).run s.requesting.world).1)
      (hstarting : s'.phase ≠ .starting)

/-- A step that keeps the phase and does not concern the requesting task. -/
theorem Effect.unconcerned (hrequesting : s'.requesting = s.requesting)
    (hcommitted : s'.committed = s.committed) (hphase : s'.phase = s.phase) : Effect cfg s s' := by
  refine .other hrequesting hcommitted (fun h => hphase ▸ h) fun r hr => ?_
  rw [hphase] at hr
  exact Or.inr (Or.inr (Or.inr hr))

theorem effect_requestStep {event : RequestEvent} (hphase : s.phase = .running)
    (h : requestStep cfg s event = some s') : Effect cfg s s' := by
  unfold Destination.requestStep at h
  split at h
  · split at h
    · split at h
      · obtain ⟨requesting, hstep, rfl⟩ := Option.map_eq_some_iff.1 h
        exact .request _ hstep rfl rfl (Or.inl hphase)
      · cases h
    · cases h
  · split at h
    · obtain ⟨requesting, hstep, rfl⟩ := Option.map_eq_some_iff.1 h
      exact .request _ hstep rfl rfl (Or.inl hphase)
    · cases h
  · obtain ⟨requesting, hstep, rfl⟩ := Option.map_eq_some_iff.1 h
    exact .request _ hstep rfl rfl (Or.inl hphase)

theorem effect_scanStep (h : s.scanStep cfg = some s') : Effect cfg s s' := by
  unfold scanStep at h
  split at h
  · obtain ⟨sent, -, rfl⟩ := Option.map_eq_some_iff.1 h
    cases sent with
    | ok channel => exact .unconcerned rfl rfl rfl
    | error _ => exact .unconcerned rfl rfl rfl
  · cases h
    exact .unconcerned rfl rfl rfl
  · cases h

theorem effect_readIndexStep {chunk : Except QuicSyncError Bytes}
    (h : s.readIndexStep chunk = some s') : Effect cfg s s' := by
  unfold readIndexStep at h
  split at h
  · simp only at h
    split at h
    · cases h
      exact .unconcerned rfl rfl rfl
    · cases h
      exact .unconcerned rfl rfl rfl
  · cases h
    exact .unconcerned rfl rfl rfl
  · cases h

theorem effect_forwardStep (h : s.forwardStep = some s') : Effect cfg s s' := by
  unfold forwardStep at h
  split at h
  · obtain ⟨sent, -, rfl⟩ := Option.map_eq_some_iff.1 h
    cases sent with
    | ok channel => exact .unconcerned rfl rfl rfl
    | error _ => exact .unconcerned rfl rfl rfl
  · cases h

theorem effect_planStep (h : s.planStep = some s') : Effect cfg s s' := by
  unfold planStep at h
  split at h
  · split at h
    · split at h
      · cases h
        exact .unconcerned rfl rfl rfl
      · cases h
        exact .unconcerned rfl rfl rfl
    · obtain ⟨received, -, rfl⟩ := Option.map_eq_some_iff.1 h
      cases received with
      | none => exact .unconcerned rfl rfl rfl
      | some received =>
        simp only
        split
        · exact .unconcerned rfl rfl rfl
        · exact .unconcerned rfl rfl rfl
    · obtain ⟨received, -, rfl⟩ := Option.map_eq_some_iff.1 h
      cases received with
      | none => exact .unconcerned rfl rfl rfl
      | some received =>
        simp only
        split
        · exact .unconcerned rfl rfl rfl
        · exact .unconcerned rfl rfl rfl
    · obtain ⟨sent, -, rfl⟩ := Option.map_eq_some_iff.1 h
      cases sent with
      | ok channel => exact .unconcerned rfl rfl rfl
      | error _ => exact .unconcerned rfl rfl rfl
  · cases h

/-- **Every step of the session has one of the effects.** -/
theorem step_effect {event : ServeEvent} (h : s.step cfg event = some s') : Effect cfg s s' := by
  cases event with
  | start chunks fingerprint opened =>
    simp only [step] at h
    split at h
    · rename_i hphase
      split at h
      · split at h
        · cases h
          refine .other rfl rfl (fun h => ?_) fun r hr => ?_
          · cases h
          · cases hr
        · cases h
      · cases h
        refine .other rfl rfl (fun h => ?_) fun r hr => Or.inl hphase
        cases h
    · cases h
  | scan => exact effect_scanStep (whenRunning_eq_some.1 h).2
  | readIndex chunk => exact effect_readIndexStep (whenRunning_eq_some.1 h).2
  | forward => exact effect_forwardStep (whenRunning_eq_some.1 h).2
  | confirm handshake closeReason =>
    obtain ⟨-, hconfirm⟩ := whenRunning_eq_some.1 h
    split at hconfirm
    · split at hconfirm <;> cases hconfirm <;> exact .unconcerned rfl rfl rfl
    · cases hconfirm
  | accept fault =>
    obtain ⟨-, haccept⟩ := whenRunning_eq_some.1 h
    split at haccept
    · split at haccept <;> cases haccept <;> exact .unconcerned rfl rfl rfl
    · cases haccept
  | plan => exact effect_planStep (whenRunning_eq_some.1 h).2
  | endPlan fault =>
    obtain ⟨-, hend⟩ := whenRunning_eq_some.1 h
    split at hend
    · cases hend
      exact .unconcerned rfl rfl rfl
    · cases hend
  | request event =>
    have hrunning (h : s.whenRunning (requestStep cfg s event) = some s') : Effect cfg s s' :=
      effect_requestStep (whenRunning_eq_some.1 h).1 (whenRunning_eq_some.1 h).2
    cases event with
    | job i event =>
      obtain ⟨requesting, hstep, rfl⟩ := Option.map_eq_some_iff.1 h
      refine .request _ hstep rfl rfl (Or.inr ?_)
      cases Requester.step_move hstep with
      | job hjobs hjob => exact ⟨by simp [hjobs], rfl, rfl⟩
      | failed hevent _ _ => cases hevent
    | discard i =>
      obtain ⟨requesting, hstep, rfl⟩ := Option.map_eq_some_iff.1 h
      refine .request _ hstep rfl rfl (Or.inr ?_)
      cases Requester.step_move hstep with
      | discarded hjobs hstate htask => exact ⟨by simp [hjobs], rfl, rfl⟩
      | failed hevent _ _ => cases hevent
    | openArea => exact hrunning h
    | receive operation => exact hrunning h
    | ended => exact hrunning h
    | openStream result => exact hrunning h
    | join i => exact hrunning h
    | finish => exact hrunning h
    | fail e => exact hrunning h
  | closeLocal =>
    cases h
    exact .unconcerned rfl rfl rfl
  | closeRemote =>
    cases h
    exact .unconcerned rfl rfl rfl
  | closeOperations =>
    cases h
    exact .unconcerned rfl rfl rfl
  | fail task e =>
    obtain ⟨hphase, hfail⟩ := whenRunning_eq_some.1 h
    unfold failStep at hfail
    split at hfail
    · cases hfail
    · cases hfail
      exact .unconcerned rfl rfl rfl
    · cases hfail
      exact .unconcerned rfl rfl rfl
    · cases hfail
      exact .unconcerned rfl rfl rfl
    · exact effect_requestStep hphase hfail
  | join =>
    obtain ⟨hphase, hjoin⟩ := whenRunning_eq_some.1 h
    split at hjoin
    · cases hjoin
      refine .other rfl rfl (fun h => ?_) fun r hr => ?_
      · cases h
      · cases hr
    · cases hjoin
  | abort task =>
    obtain ⟨hphase, habort⟩ := whenRunning_eq_some.1 h
    split at habort
    · cases habort
      exact .dropped (Or.inl hphase) rfl rfl ServePhase.noConfusion
    · cases habort
  | commit opened =>
    simp only [step] at h
    split at h
    · rename_i hphase
      cases h
      unfold commitStep
      cases opened with
      | error e => exact .dropped (Or.inr hphase) rfl rfl ServePhase.noConfusion
      | ok _ =>
        simp only
        split
        · exact .commit hphase rfl rfl ServePhase.noConfusion
        · exact .commit hphase rfl rfl ServePhase.noConfusion
    · cases h
  | acknowledge fault =>
    simp only [step] at h
    split at h
    · rename_i hphase
      split at h
      · cases h
        refine .other rfl rfl (fun h => ?_) fun r hr => Or.inr (Or.inl hphase)
        cases h
      · cases h
        refine .other rfl rfl (fun h => ?_) fun r hr => Or.inr (Or.inl hphase)
        cases h
    · cases h
  | close rest =>
    simp only [step] at h
    split at h
    · rename_i hphase
      cases h
      refine .other rfl rfl (fun h => ?_) fun r hr => Or.inr (Or.inr (Or.inl hphase))
      cases h
    · rename_i hphase
      cases h
      refine .other rfl rfl (fun h => ?_) fun r hr => Or.inr (Or.inr (Or.inl hphase))
      cases h
    · cases h

/-- What holds in every run: the files of the session are in order until the commit, and gone after
it. -/
structure Clean (cfg : Serving) (w₀ : World) (s : Destination n) : Prop where
  uncommitted : s.committed = none → s.requesting.Clean cfg.root w₀
  committed : s.committed ≠ none → Tidy cfg.root w₀ [] s.requesting.world
  starting : s.phase = .starting → s.requesting.task = .opening
  returned : ∀ r, s.phase = .returned r → s.committed = none → s.requesting.retained = []

theorem clean_start (cfg : Serving) (connection : Connection) (w : World) :
    (start cfg connection w).Clean cfg w :=
  ⟨fun _ => Requester.clean_start cfg.root w, fun h => absurd rfl h, fun _ => rfl,
    fun r hr => by cases hr⟩

/-- A step keeps it. -/
theorem Clean.step {event : ServeEvent} (h : s.Clean cfg w₀) (hinv : s.Inv cfg w₀)
    (hinv' : s'.Inv cfg w₀) (hstep : s.step cfg event = some s') : s'.Clean cfg w₀ := by
  cases step_effect hstep with
  | other hrequesting hcommitted hstarting hreturned =>
    refine ⟨fun hnone => ?_, fun hsome => ?_, fun hphase => ?_, fun r hr hnone => ?_⟩
    · rw [hrequesting]
      exact h.uncommitted (hcommitted ▸ hnone)
    · rw [hrequesting]
      exact h.committed (hcommitted ▸ hsome)
    · rw [hrequesting]
      exact h.starting (hstarting hphase)
    · rw [hrequesting]
      rw [hcommitted] at hnone
      have hcommits := hinv.commits
      obtain hphase | hphase | hphase | hphase := hreturned r hr
      · exact ((hinv.stages hnone).fresh (h.starting hphase)).2
      · rw [hphase, hnone] at hcommits
        cases hcommits
      · rw [hphase, hnone] at hcommits
        cases hcommits
      · exact h.returned r hphase hnone
  | request event hrequest hcommitted hphase hevent =>
    have hnone : s.committed = none := by
      obtain hrunning | ⟨hjobs, -⟩ := hevent
      · exact hinv.uncommitted hrunning
      · by_contra hne
        exact hjobs (hinv.idle hne)
    refine ⟨fun hnone' => ?_, fun hsome => absurd (hcommitted.trans hnone) hsome,
      fun hstarting => ?_, fun r hr _ => ?_⟩
    · exact (h.uncommitted hnone).step (hinv.sound hnone) (hinv'.sound hnone') hrequest
    · rw [hphase] at hstarting
      obtain hrunning | ⟨-, htask, -⟩ := hevent
      · rw [hrunning] at hstarting
        cases hstarting
      · exact htask.trans (h.starting hstarting)
    · rw [hphase] at hr
      obtain hrunning | ⟨-, -, hretained⟩ := hevent
      · rw [hrunning] at hr
        cases hr
      · exact hretained.trans (h.returned r hr hnone)
  | dropped hphase hrequesting hcommitted hstarting =>
    have hnone : s.committed = none := by
      have hcommits := hinv.commits
      obtain hphase | hphase := hphase
      · rwa [hphase] at hcommits
      · rwa [hphase] at hcommits
    have hclean := h.uncommitted hnone
    have hdrop : s'.requesting.Clean cfg.root w₀ ∧ s'.requesting.retained = [] := by
      rw [hrequesting, dropRequesting]
      simp only
      split
      · exact ⟨Requester.Clean.abandon hclean.tidy hinv.accounts.dropped, rfl⟩
      · rename_i hdead
        exact ⟨hclean, hclean.abandoned (Bool.eq_false_iff.2 hdead)⟩
    exact ⟨fun _ => hdrop.1, fun hsome => absurd (hcommitted.trans hnone) hsome,
      fun h => absurd h hstarting, fun _ _ _ => hdrop.2⟩
  | commit hphase hrequesting hcommitted hstarting =>
    have hsome : s'.committed ≠ none := by
      rw [hcommitted]
      exact Option.some_ne_none _
    refine ⟨fun hnone => absurd hnone hsome, fun _ => ?_, fun h => absurd h hstarting,
      fun _ _ hnone => absurd hnone hsome⟩
    have hnone : s.committed = none := by
      have hcommits := hinv.commits
      rwa [hphase] at hcommits
    -- all jobs have been joined, so what there is belongs to the changes
    have hjobs : s.requesting.jobs = [] :=
      hinv.slots.idle (resultOf_requesting (hinv.joined (Or.inl (by rw [hphase]; rfl)) .requesting))
    rw [hrequesting]
    refine Tidy.commit ((h.uncommitted hnone).tidy.congr fun f => ?_)
    rw [Requester.mem_staged, hjobs, ← hinv.accounts.dropped.mem_iff]
    simp [Change.files]

/-- **A session leaves no temporary files behind.**  In every run, with whatever operations, faults
and orders of the tasks: when the session has returned, successfully or not, and no worker has a
file any more, then under every name in `.quicsync` there is what was there before the session. -/
theorem session_leaves_nothing_staged (cfg : Serving) (connection : Connection) (w : World)
    (s : Destination cfg.capacity) (h : s.Reachable cfg connection w)
    (result : Except (Abort QuicSyncError) Unit) (hreturned : s.phase = .returned result)
    (hworkers : ∀ job ∈ s.requesting.jobs, job.files = []) (name : Name) :
    SameEntry (w.tree.get (stagedPath cfg.root name))
      (s.requesting.world.tree.get (stagedPath cfg.root name)) := by
  have hboth : s.Inv cfg w ∧ s.Clean cfg w :=
    Reaches.invariant (I := fun s => s.Inv cfg w ∧ s.Clean cfg w) h
      ⟨inv_start cfg connection w, clean_start cfg connection w⟩ fun _ _ _ hi hstep =>
        ⟨hi.1.step hstep, hi.2.step hi.1 (hi.1.step hstep) hstep⟩
  obtain ⟨-, hclean⟩ := hboth
  have hnone (f : StagedFile) (hf : f ∈ ([] : List StagedFile)) : f.name ≠ name :=
    absurd hf List.not_mem_nil
  by_cases hcommitted : s.committed = none
  · refine (hclean.uncommitted hcommitted).tidy.rest name fun f hf => hnone f ?_
    obtain hf | ⟨job, hjob, hf⟩ := Requester.mem_staged.1 hf
    · rwa [Requester.retainedFiles, hclean.returned result hreturned hcommitted] at hf
    · rwa [hworkers job hjob] at hf
  · exact (hclean.committed hcommitted).rest name hnone

end Destination

/-! ### A session that is given up

The session of the sample stages its file, and then the requesting task fails. -/

namespace Sample

def untilGivenUp : List ServeEvent :=
  untilCommit.take 29 ++
    [.fail .requesting (.error (Wire.failure "connection lost")), .abort .requesting]

def givenUp : Option (Destination serving.capacity) :=
  untilGivenUp.foldlM (Destination.step serving)
    (Destination.start serving connection (world 0o755))

/-- The session has returned, and there are no workers. -/
def isOver (s : Destination serving.capacity) : Bool :=
  match s.phase with
  | .returned _ => s.requesting.jobs.isEmpty
  | _ => false

theorem givenUp_isOver : givenUp.any isOver = true := by decide +kernel

end Sample

open Sample in
/-- The file that the sample has staged is gone. -/
theorem session_leaves_nothing_staged_sample : ∃ s : Destination serving.capacity,
    s.Reachable serving connection (world 0o755) ∧ isOver s = true ∧
      ∀ name, SameEntry ((world 0o755).tree.get (stagedPath root name))
        (s.requesting.world.tree.get (stagedPath root name)) := by
  obtain ⟨s, hs, hover⟩ := (Option.any_eq_true _ _).1 givenUp_isOver
  have hreach : s.Reachable serving connection (world 0o755) := ⟨untilGivenUp, hs⟩
  refine ⟨s, hreach, hover, fun name => ?_⟩
  unfold isOver at hover
  split at hover
  · rename_i result hphase
    refine Destination.session_leaves_nothing_staged serving connection (world 0o755) s hreach result
      hphase (fun job hjob => ?_) name
    rw [List.isEmpty_iff.1 hover] at hjob
    exact absurd hjob List.not_mem_nil
  · cases hover

end QuicSync
