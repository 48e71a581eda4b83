import QuicSync.Effect.Lockstep
import QuicSync.Filesystem.Regular
import QuicSync.Sync.Jobs

/-!
# Two commits of one plan

Two commits of the same operations, from file systems that are the same outside of the directory for
temporary files and with staged files of the same content, do the same: they both succeed, or both
fail with the same error, and the file systems are the same again.  The names of the temporary files
and the times of the changes do not matter.

* `Alike` compares the file systems.  Like everywhere, the modification times of directories are left
  out: every change of a directory sets its time.
* `Resembles` leaves out all modification times.  It is for failures: a link that has been created
  gets its time in a second call.
* `Abreast` is what a command on live entries keeps: the file systems are alike and the temporary
  files are as before.
-/

namespace QuicSync

open Posix

/-! ### Calls on the same entries -/

section

variable {w w' : World} {dir : Path} {name : Name}

theorem Posix.SameEntry.isDir_iff {a b : Option Inode} (h : SameEntry a b) :
    (∃ i ∈ a, i.IsDir) ↔ ∃ i ∈ b, i.IsDir := by
  cases a with
  | none => rw [SameEntry.none_iff.1 h]
  | some i =>
    obtain ⟨j, rfl, hnode, -⟩ := SameEntry.some_iff.1 h
    simp [Inode.IsDir, hnode]

theorem mayWrite_congr (h : SameEntry (w.tree.get dir) (w'.tree.get dir)) :
    mayWrite w.tree dir = mayWrite w'.tree dir := by
  unfold mayWrite
  cases hi : w.tree.get dir with
  | none =>
    rw [hi] at h
    rw [SameEntry.none_iff.1 h]
  | some i =>
    rw [hi] at h
    obtain ⟨⟨node, mode, t⟩, hj, -, hmode, -⟩ := SameEntry.some_iff.1 h
    obtain rfl : mode = i.mode := hmode
    rw [hj]
    rfl

/-- The outcome of a call, without the file system after it. -/
def outcome {α : Type} (x : Except Errno α) : Except Errno Unit := x.map fun _ => ()

@[simp] theorem outcome_ok {α : Type} (a : α) : outcome (.ok a) = .ok () := rfl

@[simp] theorem outcome_error {α : Type} (e : Errno) :
    outcome (.error e : Except Errno α) = .error e := rfl

theorem unlinkat_congr {removedir : Bool} (hplain : Plain name)
    (hdir : SameEntry (w.tree.get dir) (w'.tree.get dir))
    (hentry : SameEntry (w.tree.get (dir ++ [name])) (w'.tree.get (dir ++ [name])))
    (hchild : w.tree.HasChild (dir ++ [name]) ↔ w'.tree.HasChild (dir ++ [name])) :
    outcome (unlinkat w dir name removedir) = outcome (unlinkat w' dir name removedir) := by
  unfold unlinkat
  rw [locate_plain hplain, locate_plain hplain, search_congr hdir]
  cases search w'.tree dir with
  | error e => rfl
  | ok u =>
    simp only [Except.map, bind, Except.bind]
    cases hi : w.tree.get (dir ++ [name]) with
    | none =>
      rw [hi] at hentry
      rw [SameEntry.none_iff.1 hentry]
    | some i =>
      rw [hi] at hentry
      obtain ⟨j, hj, hnode, -⟩ := SameEntry.some_iff.1 hentry
      have hkind : i.IsDir ↔ j.IsDir := by
        unfold Inode.IsDir
        rw [hnode]
      rw [hj, mayWrite_congr hdir]
      simp only [hkind, hchild]
      cases mayWrite w'.tree dir with
      | error e => rfl
      | ok u =>
        simp only
        split_ifs <;> simp only [outcome_ok]

theorem create_congr {i i' : Inode} (hplain : Plain name)
    (hdir : SameEntry (w.tree.get dir) (w'.tree.get dir))
    (hentry : SameEntry (w.tree.get (dir ++ [name])) (w'.tree.get (dir ++ [name]))) :
    outcome (create w dir name i) = outcome (create w' dir name i') := by
  unfold create
  rw [locate_plain hplain, locate_plain hplain, search_congr hdir]
  cases search w'.tree dir with
  | error e => rfl
  | ok u =>
    simp only [Except.map, bind, Except.bind]
    cases hj : w.tree.get (dir ++ [name]) with
    | none =>
      rw [hj] at hentry
      rw [SameEntry.none_iff.1 hentry, mayWrite_congr hdir]
      cases mayWrite w'.tree dir with
      | error e => rfl
      | ok u => rfl
    | some j =>
      rw [hj] at hentry
      obtain ⟨j', hj', -⟩ := SameEntry.some_iff.1 hentry
      rw [hj']

theorem outcome_bind {α β : Type} {x x' : Except Errno α} {f f' : α → β}
    (h : outcome x = outcome x') :
    outcome (x >>= fun a => .ok (f a)) = outcome (x' >>= fun a => .ok (f' a)) := by
  cases x with
  | error e =>
    cases x' with
    | error e' => exact h
    | ok a => cases h
  | ok a =>
    cases x' with
    | error e' => cases h
    | ok a' => rfl

theorem mkdirat_congr {mode : UInt32} (hplain : Plain name)
    (hdir : SameEntry (w.tree.get dir) (w'.tree.get dir))
    (hentry : SameEntry (w.tree.get (dir ++ [name])) (w'.tree.get (dir ++ [name]))) :
    outcome (mkdirat w dir name mode) = outcome (mkdirat w' dir name mode) :=
  outcome_bind (create_congr hplain hdir hentry)

theorem symlinkat_congr {target : Bytes} (hplain : Plain name)
    (hdir : SameEntry (w.tree.get dir) (w'.tree.get dir))
    (hentry : SameEntry (w.tree.get (dir ++ [name])) (w'.tree.get (dir ++ [name]))) :
    outcome (symlinkat w target dir name) = outcome (symlinkat w' target dir name) :=
  outcome_bind (create_congr hplain hdir hentry)

end

/-! ### File systems that are alike -/

/-- Entries outside of the directory for temporary files are the same. -/
def Alike (root : RootHandle) (w w' : World) : Prop :=
  ∀ q, ¬ root.path ++ [stagingName] <+: q → SameEntry (w.tree.get q) (w'.tree.get q)

/-- Entries outside of the directory for temporary files are the same, up to modification times. -/
def Resembles (root : RootHandle) (w w' : World) : Prop :=
  ∀ q, ¬ root.path ++ [stagingName] <+: q →
    (w.tree.get q).map (fun i => (i.node, i.mode)) = (w'.tree.get q).map fun i => (i.node, i.mode)

/-- The directory for temporary files and what is in it stays. -/
def KeepsStaging (root : RootHandle) (w w' : World) : Prop :=
  ∀ q, root.path ++ [stagingName] <+: q → w'.tree.get q = w.tree.get q

/-- What a command on live entries does, from `w` to `w₁` and from `w'` to `w₁'`. -/
structure Abreast (root : RootHandle) (w w' w₁ w₁' : World) : Prop where
  alike : Alike root w₁ w₁'
  left : KeepsStaging root w w₁
  right : KeepsStaging root w' w₁'

section

variable {root : RootHandle} {path : RelativePath} {w w' w₁ w₁' w₂ w₂' : World}

theorem Posix.SameEntry.shape {a b : Option Inode} (h : SameEntry a b) :
    a.map (fun i => (i.node, i.mode)) = b.map fun i => (i.node, i.mode) := by
  cases a with
  | none => rw [SameEntry.none_iff.1 h]
  | some i =>
    obtain ⟨j, rfl, hnode, hmode, -⟩ := SameEntry.some_iff.1 h
    rw [Option.map_some, Option.map_some, hnode, hmode]

theorem Alike.resembles (h : Alike root w w') : Resembles root w w' := fun q hq => (h q hq).shape

theorem Alike.symm (h : Alike root w w') : Alike root w' w := fun q hq => (h q hq).symm

theorem Alike.trans (h : Alike root w w₁) (h' : Alike root w₁ w₂) : Alike root w w₂ :=
  fun q hq => (h q hq).trans (h' q hq)

theorem OnlyStaging.alike (h : OnlyStaging root w w') : Alike root w w' := by
  intro q hq
  by_cases hroot : q = root.path
  · rw [hroot]
    exact h.root_entry
  · exact SameEntry.of_eq (h.other q hroot hq).symm

theorem Resembles.onlyStaging (h : Resembles root w w') (hw : OnlyStaging root w w₁)
    (hw' : OnlyStaging root w' w₁') : Resembles root w₁ w₁' := fun q hq =>
  (hw.alike q hq).shape.symm.trans ((h q hq).trans (hw'.alike q hq).shape)

theorem Abreast.refl (h : Alike root w w') : Abreast root w w' w w' :=
  ⟨h, fun _ _ => rfl, fun _ _ => rfl⟩

theorem Abreast.trans (h : Abreast root w w' w₁ w₁') (h' : Abreast root w₁ w₁' w₂ w₂') :
    Abreast root w w' w₂ w₂' :=
  ⟨h'.alike, fun q hq => (h'.left q hq).trans (h.left q hq),
    fun q hq => (h'.right q hq).trans (h.right q hq)⟩

theorem not_staging_parent (root : RootHandle) (hprot : Unprotected path) :
    ¬ root.path ++ [stagingName] <+: (parentOf root path).directory := by
  rintro ⟨l, hl⟩
  exact staging_ne_parent hprot hl

theorem Alike.at (h : Alike root w w') (hprot : Unprotected path) :
    SameEntry (w.tree.get (root.at path)) (w'.tree.get (root.at path)) :=
  h _ (not_staging root hprot)

theorem Alike.parent (h : Alike root w w') (hprot : Unprotected path) :
    SameEntry (w.tree.get (parentOf root path).directory)
      (w'.tree.get (parentOf root path).directory) :=
  h _ (not_staging_parent root hprot)

theorem Alike.leaf (h : Alike root w w') (hprot : Unprotected path) :
    SameEntry (w.tree.get ((parentOf root path).directory ++ [(parentOf root path).leaf]))
      (w'.tree.get ((parentOf root path).directory ++ [(parentOf root path).leaf])) := by
  rw [parentOf_directory_leaf]
  exact h.at hprot

theorem Alike.hasChild (h : Alike root w w') (hprot : Unprotected path) :
    w.tree.HasChild (root.at path) ↔ w'.tree.HasChild (root.at path) := by
  have hone {w w' : World} (h : Alike root w w') (hchild : w.tree.HasChild (root.at path)) :
      w'.tree.HasChild (root.at path) := by
    obtain ⟨name, i, hi⟩ := Tree.hasChild_iff.1 hchild
    have hsame := h _ (not_staging_below root hprot [name])
    rw [hi] at hsame
    obtain ⟨j, hj, -⟩ := SameEntry.some_iff.1 hsame
    exact Tree.hasChild_iff.2 ⟨name, j, hj⟩
  exact ⟨hone h, hone h.symm⟩

/-- A directory that has been touched is the same entry. -/
theorem Replaces.sameParent {touches : Bool} {own : Option StagedFile} {new : Option Inode}
    (h : Replaces root path touches own new w w₁)
    (hdir : w.tree.IsDir (parentOf root path).directory) :
    SameEntry (w.tree.get (parentOf root path).directory)
      (w₁.tree.get (parentOf root path).directory) := by
  cases touches with
  | false => exact SameEntry.of_eq (h.untouched rfl).symm
  | true =>
    obtain ⟨i, hi, hidir⟩ := hdir
    obtain ⟨n, hn⟩ := h.touched rfl
    rw [Option.mem_def] at hi
    rw [hn, hi]
    exact SameEntry.touched hidir _

section

variable {touches touches' : Bool} {own own' : Option StagedFile} {new new' : Option Inode}

/-- Replacing an entry on both sides leaves the others the same. -/
theorem Alike.replaces_other (h : Alike root w w') (hw : Replaces root path touches own new w w₁)
    (hw' : Replaces root path touches' own' new' w' w₁')
    (hdir : w.tree.IsDir (parentOf root path).directory) (hprot : Unprotected path)
    (hown : ∀ f ∈ own, f.directory = root.path ++ [stagingName])
    (hown' : ∀ f ∈ own', f.directory = root.path ++ [stagingName]) {q : Path}
    (hat : q ≠ root.at path) (hq : ¬ root.path ++ [stagingName] <+: q) :
    SameEntry (w₁.tree.get q) (w₁'.tree.get q) := by
  have hdir' : w'.tree.IsDir (parentOf root path).directory := (h.parent hprot).isDir_iff.1 hdir
  have houtside {own : Option StagedFile}
      (hown : ∀ f ∈ own, f.directory = root.path ++ [stagingName]) :
      ∀ f ∈ own, q ≠ f.directory ∧ q ≠ f.directory ++ [f.name] := by
    intro f hf
    rw [hown f hf]
    refine ⟨fun heq => hq (heq ▸ List.prefix_rfl), fun heq => hq ?_⟩
    rw [heq]
    exact List.prefix_append _ _
  by_cases hparent : q = (parentOf root path).directory
  · rw [hparent]
    exact ((hw.sameParent hdir).symm.trans (h.parent hprot)).trans (hw'.sameParent hdir')
  · rw [hw.other q hat hparent (houtside hown), hw'.other q hat hparent (houtside hown')]
    exact h q hq

theorem Alike.replaces (h : Alike root w w') (hw : Replaces root path touches own new w w₁)
    (hw' : Replaces root path touches' own' new' w' w₁') (hnew : SameEntry new new')
    (hdir : w.tree.IsDir (parentOf root path).directory) (hprot : Unprotected path)
    (hown : ∀ f ∈ own, f.directory = root.path ++ [stagingName])
    (hown' : ∀ f ∈ own', f.directory = root.path ++ [stagingName]) : Alike root w₁ w₁' := by
  intro q hq
  by_cases hat : q = root.at path
  · rw [hat, hw.entry, hw'.entry]
    exact hnew
  · exact h.replaces_other hw hw' hdir hprot hown hown' hat hq

end

theorem Replaces.keepsStaging {touches : Bool} {new : Option Inode} (hprot : Unprotected path)
    (h : Replaces root path touches none new w w₁) : KeepsStaging root w w₁ := by
  rintro q ⟨l, rfl⟩
  exact h.other _ (staging_ne_at hprot) (staging_ne_parent hprot) (by simp)

theorem Alike.abreast {touches touches' : Bool} {new new' : Option Inode} (h : Alike root w w')
    (hw : Replaces root path touches none new w w₁)
    (hw' : Replaces root path touches' none new' w' w₁') (hnew : SameEntry new new')
    (hdir : w.tree.IsDir (parentOf root path).directory) (hprot : Unprotected path) :
    Abreast root w w' w₁ w₁' :=
  ⟨h.replaces hw hw' hnew hdir hprot (by simp) (by simp), hw.keepsStaging hprot,
    hw'.keepsStaging hprot⟩

/-! ### Commands on live entries -/

section

variable {f f' : World → Except Errno World} {error : Errno → QuicSyncError}
  {Q E : World → World → Prop}

theorem lockstep_call (hcongr : outcome (f w) = outcome (f' w'))
    (hok : ∀ w₁ w₁', f w = .ok w₁ → f' w' = .ok w₁' → Q w₁ w₁') (hE : E w w') :
    Lockstep (fun _ _ => Q) E (call f error) w (call f' error) w' := by
  cases hf : f w with
  | error e =>
    cases hf' : f' w' with
    | error e' =>
      rw [hf, hf'] at hcongr
      cases hcongr
      exact .of_error (by rw [run_call, hf]) (by rw [run_call, hf']) hE
    | ok w₁' =>
      rw [hf, hf'] at hcongr
      cases hcongr
  | ok w₁ =>
    cases hf' : f' w' with
    | error e' =>
      rw [hf, hf'] at hcongr
      cases hcongr
    | ok w₁' => exact .of_ok (by rw [run_call, hf]) (by rw [run_call, hf']) (hok w₁ w₁' hf hf')

theorem lockstep_tolerate {tolerated : Errno} (hcongr : outcome (f w) = outcome (f' w'))
    (hok : ∀ w₁ w₁', f w = .ok w₁ → f' w' = .ok w₁' → Q w₁ w₁') (hQ : Q w w') (hE : E w w') :
    Lockstep (fun _ _ => Q) E (tolerate tolerated f error) w (tolerate tolerated f' error) w' := by
  unfold Lockstep
  rw [run_tolerate, run_tolerate]
  cases hf : f w with
  | error e =>
    cases hf' : f' w' with
    | error e' =>
      rw [hf, hf'] at hcongr
      cases hcongr
      simp only
      split
      · exact Or.inl ⟨(), (), w, w', rfl, rfl, hQ⟩
      · exact Or.inr ⟨_, w, w', rfl, rfl, hE⟩
    | ok w₁' =>
      rw [hf, hf'] at hcongr
      cases hcongr
  | ok w₁ =>
    cases hf' : f' w' with
    | error e' =>
      rw [hf, hf'] at hcongr
      cases hcongr
    | ok w₁' => exact Or.inl ⟨(), (), w₁, w₁', rfl, rfl, hok w₁ w₁' hf hf'⟩

/-- What one looks at is the same on both sides. -/
theorem lockstep_query {α β : Type} {f : World → Except Errno α} {Q' : β → β → World → World → Prop}
    {k : α → FsM β} (hcongr : f w = f w') (hE : E w w')
    (hk : ∀ a, f w = .ok a → Lockstep Q' E (k a) w (k a) w') :
    Lockstep Q' E (query f error >>= k) w (query f error >>= k) w' := by
  refine Lockstep.bind (Q := fun a b s t => b = a ∧ f w = .ok a ∧ s = w ∧ t = w') ?_ ?_
  · cases hf : f w with
    | error e =>
      have hf' := hcongr.symm.trans hf
      exact .of_error (e := error e) (by rw [run_query, hf]; rfl) (by rw [run_query, hf']; rfl) hE
    | ok a =>
      have hf' := hcongr.symm.trans hf
      exact .of_ok (run_query_ok hf) (run_query_ok hf') ⟨rfl, rfl, rfl, rfl⟩
  · rintro a _ _ _ ⟨rfl, hf, rfl, rfl⟩
    exact hk _ hf

end

theorem openAncestors_congr (path : RelativePath) {cs : List Bytes} {q : Path}
    (h : Alike root w w')
    (hq : ∀ c ∈ q ++ cs, c ∉ protectedComponents) (hcs : ∀ c ∈ cs, Plain c) :
    ((openAncestors path (root.path ++ q) cs).run w).1 =
      ((openAncestors path (root.path ++ q) cs).run w').1 := by
  have houtside {l : Path} (hl : ∀ c ∈ l, c ∉ protectedComponents) :
      ¬ root.path ++ [stagingName] <+: root.path ++ l := by
    rintro ⟨l', hl'⟩
    rw [List.append_assoc] at hl'
    refine hl stagingName ?_ stagingName_protected
    rw [← List.append_cancel_left hl']
    exact List.mem_append_left _ (List.mem_singleton_self _)
  induction cs generalizing q with
  | nil => rfl
  | cons c cs ih =>
    have hplain := hcs c List.mem_cons_self
    have hdir := h _ (houtside fun c hc => hq c (List.mem_append_left _ hc))
    have hnext : ∀ d ∈ q ++ [c], d ∉ protectedComponents := fun d hd => hq d (by
      obtain hd | hd := List.mem_append.1 hd
      · exact List.mem_append_left _ hd
      · exact List.mem_append_right _ (List.mem_singleton.1 hd ▸ List.mem_cons_self))
    have hentry := h _ (houtside hnext)
    rw [← List.append_assoc] at hentry
    have hopen : openat w (root.path ++ q) c directoryFlags =
        openat w' (root.path ++ q) c directoryFlags := openat_congr hplain rfl hdir hentry
    have hrest := ih (q := q ++ [c]) (by simpa using hq) fun c hc => hcs c (List.mem_cons_of_mem _ hc)
    rw [← List.append_assoc] at hrest
    unfold openAncestors
    rw [Fallible.run_bind, Fallible.run_bind, openDirectory_run, openDirectory_run, hopen]
    cases hok : openat w' (root.path ++ q) c directoryFlags with
    | error e => rfl
    | ok d =>
      obtain rfl := openat_ok hplain rfl hok
      exact hrest

/-- Resolution finds the same parent. -/
theorem resolveParent_congr (path : RelativePath) (h : Alike root w w') :
    ((resolveParent root path).run w).1 = ((resolveParent root path).run w').1 := by
  unfold resolveParent
  cases hprot : rejectProtected path with
  | error e => rfl
  | ok u =>
    have hunprotected := rejectProtected_eq_ok_iff.1 hprot
    have hopen := openAncestors_congr path (q := []) h
      (fun c (hc : c ∈ [] ++ path.components.dropLast) => hunprotected c (List.mem_of_mem_dropLast hc))
      fun c hc => path.plain (List.mem_of_mem_dropLast hc)
    rw [List.append_nil] at hopen
    rw [Fallible.run_bind_ok (Fallible.run_lift _ _), Fallible.run_bind_ok (Fallible.run_lift _ _),
      Fallible.run_bind, Fallible.run_bind]
    cases hl : (openAncestors path root.path path.components.dropLast).run w with
    | mk r v =>
      cases hr : (openAncestors path root.path path.components.dropLast).run w' with
      | mk r' v' =>
        rw [hl, hr] at hopen
        obtain rfl : r = r' := hopen
        cases r with
        | ok dir => rfl
        | error e => rfl

/-- After resolution, both runs go on with the physical parent. -/
theorem lockstep_resolveParent {α β : Type} {Q : α → β → World → World → Prop}
    {k : ValidatedParent → FsM α} {k' : ValidatedParent → FsM β} (h : Alike root w w')
    (hk : Unprotected path →
      Lockstep Q (Resembles root) (k (parentOf root path)) w (k' (parentOf root path)) w') :
    Lockstep Q (Resembles root) (resolveParent root path >>= k) w
      (resolveParent root path >>= k') w' := by
  have hcongr := resolveParent_congr path h
  have hstate := resolveParent_state root path w
  have hstate' := resolveParent_state root path w'
  cases hl : (resolveParent root path).run w with
  | mk r v =>
    cases hr : (resolveParent root path).run w' with
    | mk r' v' =>
      rw [hl] at hcongr hstate
      rw [hr] at hcongr hstate'
      obtain rfl : v = w := hstate
      obtain rfl : v' = w' := hstate'
      obtain rfl : r = r' := hcongr
      cases r with
      | error e =>
        exact .of_error (Fallible.run_bind_error hl) (Fallible.run_bind_error hr) h.resembles
      | ok parent =>
        obtain ⟨-, hprot, rfl⟩ := resolveParent_ok hl
        have hnext := hk hprot
        unfold Lockstep at hnext ⊢
        rwa [Fallible.run_bind_ok hl, Fallible.run_bind_ok hr]

/-- The two runs of a command on live entries. -/
abbrev InStep (root : RootHandle) (m : FsM Unit) (w w' : World) : Prop :=
  Lockstep (fun _ _ => Abreast root w w') (Resembles root) m w m w'

/-- One command after the other. -/
theorem InStep.bind {m m' : FsM Unit} (h : InStep root m w w')
    (h' : ∀ w₁ w₁', Alike root w₁ w₁' → InStep root m' w₁ w₁') :
    InStep root (m >>= fun _ => m') w w' :=
  Lockstep.bind h fun _ _ w₁ w₁' hpost =>
    (h' w₁ w₁' hpost.alike).mono (fun _ _ _ _ hpost' => hpost.trans hpost') fun _ _ hE => hE

theorem abreast_unlinkat {removedir : Bool} (h : Alike root w w') (hprot : Unprotected path)
    (hw : unlinkat w (parentOf root path).directory (parentOf root path).leaf removedir = .ok w₁)
    (hw' : unlinkat w' (parentOf root path).directory (parentOf root path).leaf removedir =
      .ok w₁') : Abreast root w w' w₁ w₁' := by
  obtain ⟨henter, -, -, hchild, rfl⟩ := (unlinkat_eq_ok_iff (plain_leaf root path)).1 hw
  obtain ⟨-, -, -, hchild', rfl⟩ := (unlinkat_eq_ok_iff (plain_leaf root path)).1 hw'
  rw [parentOf_directory_leaf] at hchild hchild'
  exact h.abreast (replaces_removed hchild) (replaces_removed hchild') (SameEntry.refl _)
    henter.isDir hprot

theorem Alike.unlinkat {removedir : Bool} (h : Alike root w w') (hprot : Unprotected path) :
    outcome (Posix.unlinkat w (parentOf root path).directory (parentOf root path).leaf removedir) =
      outcome (Posix.unlinkat w' (parentOf root path).directory (parentOf root path).leaf
        removedir) := by
  refine unlinkat_congr (plain_leaf root path) (h.parent hprot) (h.leaf hprot) ?_
  rw [parentOf_directory_leaf]
  exact h.hasChild hprot

theorem inStep_unlink {removedir : Bool} (h : Alike root w w') :
    InStep root (unlink root path removedir) w w' :=
  lockstep_resolveParent h fun hprot => lockstep_call (h.unlinkat hprot)
    (fun _ _ hw hw' => abreast_unlinkat h hprot hw hw') h.resembles

/-- Changing the entry at a path. -/
theorem abreast_modify (f : Inode → Inode) (hf : ∀ i, (f i).node = i.node)
    (hmode : ∀ i j, i.mode = j.mode → (f i).mode = (f j).mode)
    (hmtime : ∀ i j, i.mtime = j.mtime → (f i).mtime = (f j).mtime) (h : Alike root w w')
    (hprot : Unprotected path) (hsome : (w.tree.get (root.at path)).isSome) :
    Abreast root w w' (w.record (w.tree.modify (root.at path) f hf))
      (w'.record (w'.tree.modify (root.at path) f hf)) := by
  obtain ⟨i, hi⟩ := Option.isSome_iff_exists.1 hsome
  have hsame := h.at hprot
  have hdir : w.tree.IsDir (parentOf root path).directory := by
    rw [← parentOf_directory_leaf root path] at hi
    have hdir := Tree.isDir_dropLast hi (by simp)
    rwa [List.dropLast_concat] at hdir
  refine h.abreast (replaces_modify root path w f hf) (replaces_modify root path w' f hf) ?_
    hdir hprot
  rw [hi] at hsame ⊢
  obtain ⟨j, hj, hnode, hjmode, hjmtime⟩ := SameEntry.some_iff.1 hsame
  rw [hj]
  refine SameEntry.some_iff.2 ⟨f j, rfl, ?_, hmode j i hjmode, fun hdir => hmtime j i (hjmtime ?_)⟩
  · rw [hf, hf, hnode]
  · unfold Inode.IsDir at hdir ⊢
    rwa [hf] at hdir

theorem inStep_setFileMetadata {metadata : EntryMetadata} (h : Alike root w w')
    (hprot : Unprotected path) (hsome : (w.tree.get (root.at path)).isSome) :
    InStep root (setFileMetadata (root.at path) metadata) w w' := by
  have hchmod : Abreast root w w' (fchmod w (root.at path) metadata.mode)
      (fchmod w' (root.at path) metadata.mode) :=
    abreast_modify (fun i => { i with mode := metadata.mode &&& 0o7777 }) (fun _ => rfl)
      (fun _ _ _ => rfl) (fun _ _ heq => heq) h hprot hsome
  have hsome₁ : ((fchmod w (root.at path) metadata.mode).tree.get (root.at path)).isSome := by
    simp only [fchmod, World.record_tree, Tree.get_modify, if_true, Option.isSome_map, hsome]
  refine .after (Fallible.run_modify _ _) (Fallible.run_modify _ _)
    (.bind_lift (fun time _ => ?_) hchmod.alike.resembles)
  refine .of_ok (Fallible.run_modify _ _) (Fallible.run_modify _ _) (hchmod.trans ?_)
  exact abreast_modify (fun i => { i with mtime := time.toNanos }) (fun _ => rfl)
    (fun _ _ heq => heq) (fun _ _ _ => rfl) hchmod.alike hprot hsome₁

/-- Opening the directory at the path of an operation gives that entry. -/
theorem lockstep_openLeaf {error : Errno → QuicSyncError} {k : Path → FsM Unit}
    {Q : Unit → Unit → World → World → Prop} (h : Alike root w w') (hprot : Unprotected path)
    (hk : (w.tree.get (root.at path)).isSome →
      Lockstep Q (Resembles root) (k (root.at path)) w (k (root.at path)) w') :
    Lockstep Q (Resembles root)
      (query (fun w => openat w (parentOf root path).directory (parentOf root path).leaf
        directoryFlags) error >>= k) w
      (query (fun w => openat w (parentOf root path).directory (parentOf root path).leaf
        directoryFlags) error >>= k) w' := by
  refine lockstep_query (openat_congr (plain_leaf root path) rfl (h.parent hprot) (h.leaf hprot))
    h.resembles fun p hopen => ?_
  obtain ⟨-, ⟨i, hi, -⟩, rfl⟩ := (openat_directory_eq_ok_iff (plain_leaf root path)).1 hopen
  rw [parentOf_directory_leaf] at hi ⊢
  exact hk (by rw [hi]; rfl)

theorem inStep_directoryMetadata {metadata : EntryMetadata} (h : Alike root w w') :
    InStep root (directoryMetadata root path metadata) w w' :=
  lockstep_resolveParent h fun hprot => lockstep_openLeaf h hprot fun hsome =>
    inStep_setFileMetadata h hprot hsome

theorem inStep_upsertDirectory {metadata : EntryMetadata} (h : Alike root w w') :
    InStep root (upsertDirectory root path metadata) w w' := by
  refine lockstep_resolveParent h fun hprot => InStep.bind ?_ fun w₁ w₁' h₁ =>
    lockstep_openLeaf h₁ hprot fun hsome => ?_
  · refine lockstep_tolerate
      (mkdirat_congr (plain_leaf root path) (h.parent hprot) (h.leaf hprot))
      (fun w₁ w₁' hw hw' => ?_) (Abreast.refl h) h.resembles
    obtain ⟨henter, hnone, -, rfl⟩ := (mkdirat_eq_ok_iff (plain_leaf root path)).1 hw
    obtain ⟨henter', hnone', -, rfl⟩ := (mkdirat_eq_ok_iff (plain_leaf root path)).1 hw'
    rw [parentOf_directory_leaf] at hnone hnone'
    exact h.abreast (replaces_added henter.isDir hnone) (replaces_added henter'.isDir hnone')
      (SameEntry.touched (i := ⟨.directory, 0o700, w.now⟩) rfl _) henter.isDir hprot
  · refine .of_ok (Fallible.run_modify _ _) (Fallible.run_modify _ _) ?_
    exact abreast_modify (fun i => { i with mode := (metadata.mode ||| 0o700) &&& 0o7777 })
      (fun _ => rfl) (fun _ _ _ => rfl) (fun _ _ heq => heq) h₁ hprot hsome

/-- Creating a link and setting its time. -/
theorem inStep_link {target : Bytes} {time : Except QuicSyncError SystemTime}
    (h : Alike root w w') (hprot : Unprotected path) :
    InStep root (do
      call (fun w => symlinkat w target (parentOf root path).directory (parentOf root path).leaf)
        Commit.systemFailure
      let times ← Fallible.lift time
      call (fun w => utimensat w (parentOf root path).directory (parentOf root path).leaf
        times.toNanos) Commit.systemFailure) w w' := by
  have hplain := plain_leaf root path
  refine Lockstep.bind (Q := fun _ _ w₁ w₁' =>
      symlinkat w target (parentOf root path).directory (parentOf root path).leaf = .ok w₁ ∧
      symlinkat w' target (parentOf root path).directory (parentOf root path).leaf = .ok w₁')
    (lockstep_call (symlinkat_congr hplain (h.parent hprot) (h.leaf hprot))
      (fun w₁ w₁' hw hw' => ⟨hw, hw'⟩) h.resembles) ?_
  rintro _ _ w₁ w₁' ⟨hw, hw'⟩
  obtain ⟨henter, hnone, -, heq⟩ := (symlinkat_eq_ok_iff hplain).1 hw
  obtain ⟨henter', hnone', -, heq'⟩ := (symlinkat_eq_ok_iff hplain).1 hw'
  rw [parentOf_directory_leaf] at hnone hnone'
  have hadd := replaces_added (i := ⟨.symlink target, 0o777, w.now⟩) henter.isDir hnone
  have hadd' := replaces_added (i := ⟨.symlink target, 0o777, w'.now⟩) henter'.isDir hnone'
  rw [← heq] at hadd
  rw [← heq'] at hadd'
  -- the links have different times until the second call
  have hresembles : Resembles root w₁ w₁' := by
    intro q hq
    by_cases hat : q = root.at path
    · rw [hat, hadd.entry, hadd'.entry]
      rfl
    · exact (h.replaces_other hadd hadd' henter.isDir hprot (by simp) (by simp) hat hq).shape
  refine .bind_lift (fun times _ => ?_) hresembles
  have hone {w w₁ : World} {new : Inode} (henter : w.tree.Enterable (parentOf root path).directory)
      (hadd : Replaces root path true none (some new) w w₁) :
      utimensat w₁ (parentOf root path).directory (parentOf root path).leaf times.toNanos =
        .ok (w₁.record (w₁.tree.touch (root.at path) times.toNanos)) ∧
      Replaces root path true none (some { new with mtime := times.toNanos }) w
        (w₁.record (w₁.tree.touch (root.at path) times.toNanos)) := by
    refine ⟨(utimensat_eq_ok_iff hplain).2 ⟨hadd.enterable henter, ?_, ?_⟩, ?_⟩
    · rw [parentOf_directory_leaf]
      exact ⟨_, hadd.entry⟩
    · rw [parentOf_directory_leaf]
    · have hmodify := replaces_modify root path w₁ (fun i => { i with mtime := times.toNanos })
        fun _ => rfl
      rw [hadd.entry] at hmodify
      exact hadd.trans hmodify (by simp)
  obtain ⟨htime, hset⟩ := hone henter hadd
  obtain ⟨htime', hset'⟩ := hone henter' hadd'
  exact .of_ok (a := ()) (b := ()) (by rw [run_call, htime]) (by rw [run_call, htime'])
    (h.abreast hset hset' (SameEntry.refl _) henter.isDir hprot)

theorem inStep_symlink {record : IndexRecord} (h : Alike root w w') :
    InStep root (symlink root record) w w' := by
  unfold symlink
  refine Lockstep.bind_lift (fun _ _ => Lockstep.bind_lift (fun target _ => ?_) h.resembles)
    h.resembles
  refine lockstep_resolveParent h fun hprot => InStep.bind ?_ fun w₁ w₁' h₁ => inStep_link h₁ hprot
  exact lockstep_tolerate (h.unlinkat hprot)
    (fun _ _ hw hw' => abreast_unlinkat h hprot hw hw') (Abreast.refl h) h.resembles

/-! ### Installing files of the same content -/

/-- Moving two files to the same place. -/
theorem renameat_congr {dir₁ dir₂ dir : Path} {name₁ name₂ name : Name} {i j : Inode}
    (hplain₁ : Plain name₁) (hplain₂ : Plain name₂) (hplain : Plain name)
    (henter : w.tree.Enterable dir₁) (henter' : w'.tree.Enterable dir₂)
    (hwrite : w.tree.WritableAt dir₁) (hwrite' : w'.tree.WritableAt dir₂)
    (hi : w.tree.get (dir₁ ++ [name₁]) = some i) (hj : w'.tree.get (dir₂ ++ [name₂]) = some j)
    (hidir : ¬ i.IsDir) (hjdir : ¬ j.IsDir)
    (hdir : SameEntry (w.tree.get dir) (w'.tree.get dir))
    (hentry : SameEntry (w.tree.get (dir ++ [name])) (w'.tree.get (dir ++ [name]))) :
    outcome (renameat w dir₁ name₁ dir name) = outcome (renameat w' dir₂ name₂ dir name) := by
  have hkind : w.tree.IsDir (dir ++ [name]) ↔ w'.tree.IsDir (dir ++ [name]) := hentry.isDir_iff
  have hmay : mayWrite w.tree dir₁ = .ok () := mayWrite_eq_ok_iff.2 hwrite
  have hmay' : mayWrite w'.tree dir₂ = .ok () := mayWrite_eq_ok_iff.2 hwrite'
  unfold renameat
  rw [locate_of_enterable hplain₁ henter, locate_of_enterable hplain₂ henter', locate_plain hplain,
    locate_plain hplain, search_congr hdir]
  simp only [bind, Except.bind]
  cases search w'.tree dir with
  | error e => rfl
  | ok u =>
    simp only [Except.map, hi, hj, hmay, hmay', mayWrite_congr hdir, if_neg hidir, if_neg hjdir,
      hkind]
    cases mayWrite w'.tree dir with
    | error e => rfl
    | ok u =>
      simp only
      split_ifs <;> simp only [outcome_ok]

/-- Setting mode and time of a temporary file, or only its mode. -/
theorem setFileMetadata_staged {file : StagedFile} {bytes : Bytes} (metadata : EntryMetadata)
    (hready : Ready root file bytes w) :
    ∃ w₁, OnlyFile (root.path ++ [stagingName]) file.name w w₁ ∧
      match modifiedTime metadata.mtimeNs with
      | .error e => (setFileMetadata (file.directory ++ [file.name]) metadata).run w = (.error e, w₁)
      | .ok time =>
        (setFileMetadata (file.directory ++ [file.name]) metadata).run w = (.ok (), w₁) ∧
        w₁.tree.get (file.directory ++ [file.name]) =
          some ⟨.file bytes, metadata.mode &&& 0o7777, time.toNanos⟩ := by
  obtain ⟨m, hm⟩ := hready.entry
  have hne : root.path ++ [stagingName] ≠ root.path ++ [stagingName] ++ [file.name] :=
    Tree.ne_append_singleton _ _
  rw [hready.directory] at hm ⊢
  unfold setFileMetadata
  cases htime : modifiedTime metadata.mtimeNs with
  | error e =>
    refine ⟨fchmod w (root.path ++ [stagingName] ++ [file.name]) metadata.mode,
      ⟨rfl, ?_, fun q _ hq => ?_⟩, rfl⟩
    · simp only [fchmod, World.record_tree, Tree.get_modify, if_neg hne]
      exact SameEntry.refl _
    · simp only [fchmod, World.record_tree, Tree.get_modify, if_neg hq]
  | ok time =>
    refine ⟨futimens (fchmod w (root.path ++ [stagingName] ++ [file.name]) metadata.mode)
      (root.path ++ [stagingName] ++ [file.name]) time.toNanos,
      ⟨rfl, ?_, fun q _ hq => ?_⟩, rfl, ?_⟩
    · simp only [futimens, fchmod, World.record_tree, Tree.get_touch, Tree.get_modify, if_neg hne]
      exact SameEntry.refl _
    · simp only [futimens, fchmod, World.record_tree, Tree.get_touch, Tree.get_modify, if_neg hq]
    · simp only [futimens, fchmod, World.record_tree, Tree.get_touch, Tree.get_modify, if_true, hm]
      rfl

theorem Ready.openat {file : StagedFile} {bytes : Bytes} (hready : Ready root file bytes w) :
    Posix.openat w file.directory file.name ⟨true, false, true⟩ =
      .ok (file.directory ++ [file.name]) := by
  obtain ⟨m, hi⟩ := hready.entry
  have hwritable : Inode.Writable ⟨.file bytes, 0o600, m⟩ :=
    show Nat.testBit (384 : UInt32).toNat 7 = true by decide
  exact (openat_write_eq_ok_iff file.plain_name).2 ⟨hready.enterable,
    ⟨_, hi, Node.noConfusion, fun _ => Node.noConfusion, hwritable⟩, rfl⟩

theorem Alike.onlyStaging (h : Alike root w w') (hw : OnlyStaging root w w₁)
    (hw' : OnlyStaging root w' w₁') : Alike root w₁ w₁' :=
  (hw.alike.symm.trans h).trans hw'.alike

theorem drop_onlyStaging {file : StagedFile} (hdirectory : file.directory = root.path ++ [stagingName])
    (w : World) : OnlyStaging root w (file.drop.run w).2 :=
  (hdirectory ▸ drop_onlyFile file w).onlyStaging

/-- Temporary files are kept by a command on live entries. -/
theorem FilesReady.keepsStaging {files : List (StagedFile × Bytes)} (h : FilesReady root files w)
    (hw : KeepsStaging root w w₁) : FilesReady root files w₁ := by
  refine ⟨fun f hf => ?_, h.names⟩
  have hready := h.ready f hf
  refine hready.of_same (SameEntry.of_eq (hw _ ?_).symm) (hw _ ?_)
  · rw [hready.directory]
  · rw [hready.directory]
    exact List.prefix_append _ _

/-- Temporary files are kept when another one is installed. -/
theorem FilesReady.replaces {files : List (StagedFile × Bytes)} {file : StagedFile}
    {new : Option Inode} (h : FilesReady root files w) (hprot : Unprotected path)
    (hdirectory : file.directory = root.path ++ [stagingName])
    (hne : ∀ f ∈ files, f.1.name ≠ file.name)
    (hw : Replaces root path true (some file) new w w₁) : FilesReady root files w₁ := by
  refine ⟨fun f hf => ?_, h.names⟩
  have hready := h.ready f hf
  have hstaging := hw.staging file rfl
  rw [hdirectory, ← hready.directory] at hstaging
  refine hready.of_same hstaging (hw.other _ ?_ ?_ fun g hg => ?_)
  · rw [hready.directory]
    exact staging_ne_at hprot
  · rw [hready.directory]
    exact staging_ne_parent hprot
  · cases hg
    rw [hready.directory, hdirectory]
    refine ⟨(Tree.ne_append_singleton _ _).symm, fun heq => hne f hf ?_⟩
    simpa using heq

/-- The second half of an installation: the file has its final metadata. -/
theorem lockstep_rename {file file' : StagedFile} {i : Inode} {Q : World → World → Prop}
    (h : Alike root w w')
    (hdirectory : file.directory = root.path ++ [stagingName])
    (hdirectory' : file'.directory = root.path ++ [stagingName])
    (henter : w.tree.Enterable file.directory) (henter' : w'.tree.Enterable file'.directory)
    (hwrite : w.tree.WritableAt file.directory) (hwrite' : w'.tree.WritableAt file'.directory)
    (hi : w.tree.get (file.directory ++ [file.name]) = some i)
    (hi' : w'.tree.get (file'.directory ++ [file'.name]) = some i) (hidir : ¬ i.IsDir)
    (hQ : ∀ w₁ w₁', Unprotected path → Alike root w₁ w₁' →
      Replaces root path true (some file) (some i) w w₁ →
      Replaces root path true (some file') (some i) w' w₁' → Q w₁ w₁') :
    Lockstep (fun _ _ => Q) (Resembles root)
      (resolveParent root path >>= fun parent => call (fun w => renameat w file.directory file.name
        parent.directory parent.leaf) Staging.systemFailure) w
      (resolveParent root path >>= fun parent => call (fun w => renameat w file'.directory file'.name
        parent.directory parent.leaf) Staging.systemFailure) w' := by
  have hplain := plain_leaf root path
  have hone {w w₁ : World} {file : StagedFile} (hprot : Unprotected path)
      (hdirectory : file.directory = root.path ++ [stagingName])
      (hi : w.tree.get (file.directory ++ [file.name]) = some i)
      (hw : renameat w file.directory file.name (parentOf root path).directory
        (parentOf root path).leaf = .ok w₁) :
      w.tree.IsDir (parentOf root path).directory ∧
        Replaces root path true (some file) (some i) w w₁ := by
    obtain ⟨henter, henter', -, -, hdir, j, hj, hjdir, rfl⟩ :=
      (renameat_eq_ok_iff file.plain_name hplain).1 hw
    obtain rfl : i = j := Option.some.inj (hi.symm.trans hj)
    have hne : file.directory ++ [file.name] ≠
        (parentOf root path).directory ++ [(parentOf root path).leaf] := by
      rw [hdirectory, parentOf_directory_leaf]
      exact staging_ne_at hprot
    rw [parentOf_directory_leaf] at hdir
    rw [if_neg hne]
    exact ⟨henter'.isDir,
      replaces_renamed hprot hdirectory henter.isDir henter'.isDir hi hjdir hdir⟩
  refine lockstep_resolveParent h fun hprot => lockstep_call
    (renameat_congr file.plain_name file'.plain_name hplain henter henter' hwrite hwrite' hi hi'
      hidir hidir (h.parent hprot) (h.leaf hprot)) (fun w₁ w₁' hw hw' => ?_) h.resembles
  obtain ⟨hparent, hreplaces⟩ := hone hprot hdirectory hi hw
  obtain ⟨-, hreplaces'⟩ := hone hprot hdirectory' hi' hw'
  refine hQ w₁ w₁' hprot ?_ hreplaces hreplaces'
  refine h.replaces hreplaces hreplaces' (SameEntry.refl _) hparent hprot ?_ ?_
  · rintro _ ⟨⟩
    exact hdirectory
  · rintro _ ⟨⟩
    exact hdirectory'

/-- The directory for temporary files may be used as before. -/
theorem Ready.area {file : StagedFile} {bytes : Bytes} (hready : Ready root file bytes w)
    (h : SameEntry (w.tree.get (root.path ++ [stagingName]))
      (w₁.tree.get (root.path ++ [stagingName]))) :
    w₁.tree.Enterable file.directory ∧ w₁.tree.WritableAt file.directory := by
  obtain ⟨i, hi, hidir, hsearch⟩ := hready.enterable
  obtain ⟨j, hj, hwrite⟩ := hready.writableAt
  obtain rfl : i = j := Option.some.inj (hi.symm.trans hj)
  rw [hready.directory] at hi ⊢
  rw [hi] at h
  obtain ⟨i', hi', hi'dir, -, hi'search, hi'write⟩ := h.permissions hidir
  exact ⟨⟨i', hi', hi'dir, hi'search.2 hsearch⟩, ⟨i', hi', hi'write.2 hwrite⟩⟩

end

/-- The file systems are alike, and each of `files` is there with its content on one side, as its
counterpart is on the other. -/
structure Stocked (root : RootHandle) (counterpart : StagedFile → StagedFile)
    (bytes : StagedFile → Bytes) (files : List StagedFile) (w w' : World) : Prop where
  alike : Alike root w w'
  left : FilesReady root (files.map fun f => (f, bytes f)) w
  right : FilesReady root (files.map fun f => (counterpart f, bytes f)) w'

section

variable {root : RootHandle} {counterpart : StagedFile → StagedFile} {bytes : StagedFile → Bytes}
  {files files' : List StagedFile} {file : StagedFile} {path : RelativePath} {w w' w₁ w₁' : World}

theorem Stocked.abreast (h : Stocked root counterpart bytes files w w')
    (hw : Abreast root w w' w₁ w₁') : Stocked root counterpart bytes files w₁ w₁' :=
  ⟨hw.alike, h.left.keepsStaging hw.left, h.right.keepsStaging hw.right⟩

theorem FilesReady.sublist {files files' : List (StagedFile × Bytes)} (h : FilesReady root files w)
    (hsub : files'.Sublist files) : FilesReady root files' w :=
  ⟨fun f hf => h.ready f (hsub.subset hf), h.names.sublist (hsub.map _)⟩

theorem Stocked.sublist (h : Stocked root counterpart bytes files w w')
    (hsub : files'.Sublist files) : Stocked root counterpart bytes files' w w' :=
  ⟨h.alike, h.left.sublist (hsub.map _), h.right.sublist (hsub.map _)⟩

theorem Stocked.perm (h : Stocked root counterpart bytes files w w') (hperm : files.Perm files') :
    Stocked root counterpart bytes files' w w' :=
  ⟨h.alike, h.left.perm (hperm.map _), h.right.perm (hperm.map _)⟩

/-- The files are temporary files on both sides. -/
theorem Stocked.directory (h : Stocked root counterpart bytes files w w') :
    ∀ f ∈ files, f.directory = root.path ++ [stagingName] ∧
      (counterpart f).directory = root.path ++ [stagingName] :=
  fun _ hf => ⟨(h.left.ready _ (List.mem_map_of_mem hf)).directory,
    (h.right.ready _ (List.mem_map_of_mem hf)).directory⟩

theorem lockstep_install {metadata : EntryMetadata}
    (h : Stocked root counterpart bytes (file :: files) w w') :
    Lockstep (fun _ _ => Stocked root counterpart bytes files) (Resembles root)
      (file.install root path metadata) w ((counterpart file).install root path metadata) w' := by
  have hready : Ready root file (bytes file) w := h.left.ready _ List.mem_cons_self
  have hready' : Ready root (counterpart file) (bytes file) w' := h.right.ready _ List.mem_cons_self
  unfold StagedFile.install
  refine Lockstep.onError (E := Resembles root) ?_ fun v v' hE =>
    hE.onlyStaging (drop_onlyStaging hready.directory v) (drop_onlyStaging hready'.directory v')
  split
  swap
  · exact .fail h.alike.resembles
  refine .after (run_query_ok hready.openat) (run_query_ok hready'.openat) ?_
  obtain ⟨w₁, honly, hset⟩ := setFileMetadata_staged metadata hready
  obtain ⟨w₁', honly', hset'⟩ := setFileMetadata_staged metadata hready'
  have halike₁ := h.alike.onlyStaging honly.onlyStaging honly'.onlyStaging
  cases htime : modifiedTime metadata.mtimeNs with
  | error e =>
    rw [htime] at hset hset'
    exact .of_error (Fallible.run_bind_error hset) (Fallible.run_bind_error hset')
      halike₁.resembles
  | ok time =>
    rw [htime] at hset hset'
    obtain ⟨hrun, hentry⟩ := hset
    obtain ⟨hrun', hentry'⟩ := hset'
    obtain ⟨henter, hwrite⟩ := hready.area honly.directory
    obtain ⟨henter', hwrite'⟩ := hready'.area honly'.directory
    refine .after hrun hrun' (lockstep_rename halike₁ hready.directory hready'.directory henter
      henter' hwrite hwrite' hentry hentry' Node.noConfusion
      fun w₂ w₂' hprot halike₂ hw hw' => ⟨halike₂, ?_, ?_⟩)
    · exact (h.left.tail honly).replaces hprot hready.directory h.left.head_ne hw
    · exact (h.right.tail honly').replaces hprot hready'.directory h.right.head_ne hw'

end

/-! ### The committer -/

/-- The temporary files that wait with an action. -/
def Action.files : Action → List StagedFile
  | .file staged _ => [staged]
  | .delete | .metadata _ | .symlink _ => []

/-- The same action with another file. -/
def Action.rename (counterpart : StagedFile → StagedFile) : Action → Action
  | .file staged m => .file (counterpart staged) m
  | .delete => .delete
  | .metadata m => .metadata m
  | .symlink record => .symlink record

def Directory.files (directory : Directory) : List StagedFile :=
  directory.actions.flatMap Action.files

def Directory.rename (counterpart : StagedFile → StagedFile) (directory : Directory) : Directory :=
  { directory with actions := directory.actions.map (Action.rename counterpart) }

def Committer.files (c : Committer) : List StagedFile := c.pending.flatMap Directory.files

def Committer.rename (counterpart : StagedFile → StagedFile) (c : Committer) : Committer :=
  { c with pending := c.pending.map (Directory.rename counterpart) }

def Change.files (change : Change) : List StagedFile := change.2.toList

def Change.rename (counterpart : StagedFile → StagedFile) (change : Change) : Change :=
  (change.1, change.2.map counterpart)

/-- All are temporary files of the root. -/
def InStaging (root : RootHandle) (files : List StagedFile) : Prop :=
  ∀ f ∈ files, f.directory = root.path ++ [stagingName]

section

variable {root : RootHandle} {counterpart : StagedFile → StagedFile} {bytes : StagedFile → Bytes}
  {files rest : List StagedFile} {file : StagedFile} {path : RelativePath} {w w' w₁ w₁' : World}

theorem Action.files_rename (action : Action) :
    (action.rename counterpart).files = action.files.map counterpart := by
  cases action <;> rfl

theorem Directory.files_rename (directory : Directory) :
    (directory.rename counterpart).files = directory.files.map counterpart := by
  simp only [Directory.files, Directory.rename, List.flatMap_map, Action.files_rename,
    List.map_flatMap]

theorem Committer.files_rename (c : Committer) :
    (c.rename counterpart).files = c.files.map counterpart := by
  simp only [Committer.files, Committer.rename, List.flatMap_map, Directory.files_rename,
    List.map_flatMap]

theorem Change.files_rename (change : Change) :
    Change.files (Change.rename counterpart change) = (Change.files change).map counterpart := by
  obtain ⟨operation, file⟩ := change
  cases file <;> rfl

theorem InStaging.append {files' : List StagedFile} :
    InStaging root (files ++ files') ↔ InStaging root files ∧ InStaging root files' :=
  List.forall_mem_append

theorem Stocked.inStaging (h : Stocked root counterpart bytes files w w') :
    InStaging root files ∧ InStaging root (files.map counterpart) := by
  refine ⟨fun f hf => (h.directory f hf).1, fun f hf => ?_⟩
  obtain ⟨g, hg, rfl⟩ := List.mem_map.1 hf
  exact (h.directory g hg).2

theorem onlyStaging_bind {m m' : FsM Unit} (hm : Keeps (OnlyStaging root) m)
    (hm' : Keeps (OnlyStaging root) m') : Keeps (OnlyStaging root) (m >>= fun _ => m') :=
  Keeps.bind (fun _ _ _ h h' => h.trans h') hm fun _ => hm'

theorem onlyStaging_dropActions {actions : List Action}
    (h : InStaging root (actions.flatMap Action.files)) :
    Keeps (OnlyStaging root) (dropActions actions) := by
  induction actions with
  | nil => exact Keeps.pure (OnlyStaging.refl root) ()
  | cons action actions ih =>
    obtain ⟨hfile, hrest⟩ := InStaging.append.1 h
    cases action with
    | file file metadata =>
      exact onlyStaging_bind (drop_onlyStaging (hfile file List.mem_cons_self)) (ih hrest)
    | delete => exact ih hrest
    | metadata metadata => exact ih hrest
    | symlink record => exact ih hrest

theorem onlyStaging_dropPending {pending : List Directory}
    (h : InStaging root (pending.flatMap Directory.files)) :
    Keeps (OnlyStaging root) (dropPending pending) := by
  induction pending with
  | nil => exact Keeps.pure (OnlyStaging.refl root) ()
  | cons directory pending ih =>
    obtain ⟨hfiles, hrest⟩ := InStaging.append.1 h
    exact onlyStaging_bind (ih hrest) (onlyStaging_dropActions hfiles)

theorem onlyStaging_dropFile {file : Option StagedFile} (h : InStaging root file.toList) :
    Keeps (OnlyStaging root) (dropFile file) := by
  cases file with
  | none => exact Keeps.pure (OnlyStaging.refl root) ()
  | some file => exact drop_onlyStaging (h file List.mem_cons_self)

theorem onlyStaging_dropChanges {changes : List Change}
    (h : InStaging root (changes.flatMap Change.files)) :
    Keeps (OnlyStaging root) (dropChanges changes) := by
  induction changes with
  | nil => exact Keeps.pure (OnlyStaging.refl root) ()
  | cons change changes ih =>
    obtain ⟨hfile, hrest⟩ := InStaging.append.1 h
    exact onlyStaging_bind (onlyStaging_dropFile hfile) (ih hrest)

theorem InStep.stocked {m : FsM Unit} (hm : InStep root m w w')
    (h : Stocked root counterpart bytes files w w') :
    Lockstep (fun _ _ => Stocked root counterpart bytes files) (Resembles root) m w m w' :=
  hm.mono (fun _ _ _ _ hpost => h.abreast hpost) fun _ _ hE => hE

theorem lockstep_runAction {action : Action}
    (h : Stocked root counterpart bytes (action.files ++ files) w w') :
    Lockstep (fun _ _ => Stocked root counterpart bytes files) (Resembles root)
      (runAction root path action) w (runAction root path (action.rename counterpart)) w' := by
  cases action with
  | delete => exact (inStep_unlink h.alike).stocked h
  | metadata metadata => exact (inStep_directoryMetadata h.alike).stocked h
  | file file metadata => exact lockstep_install h
  | symlink record => exact (inStep_symlink h.alike).stocked h

theorem lockstep_runActions (path : RelativePath) {actions : List Action}
    (h : Stocked root counterpart bytes (actions.flatMap Action.files ++ files) w w') :
    Lockstep (fun _ _ => Stocked root counterpart bytes files) (Resembles root)
      (runActions root path actions) w
      (runActions root path (actions.map (Action.rename counterpart))) w' := by
  induction actions generalizing w w' with
  | nil => exact .pure h
  | cons action actions ih =>
    obtain ⟨hleft, hright⟩ := h.inStaging
    rw [List.flatMap_cons, List.append_assoc] at h hleft hright
    refine Lockstep.bind (Q := fun _ _ => Stocked root counterpart bytes
      (actions.flatMap Action.files ++ files)) ?_ fun _ _ _ _ h' => ih h'
    refine (lockstep_runAction h).onError fun v v' hE => hE.onlyStaging ?_ ?_
    · exact onlyStaging_dropActions (InStaging.append.1 (InStaging.append.1 hleft).2).1 v
    · refine onlyStaging_dropActions ?_ v'
      rw [List.map_append, List.map_append] at hright
      have hfiles := (InStaging.append.1 (InStaging.append.1 hright).2).1
      rwa [List.map_flatMap, ← funext Action.files_rename, ← List.flatMap_map] at hfiles

end

/-- Two committers at the same point of one plan; `rest` are the files of the changes to come. -/
structure Site.Matches (root : RootHandle) (counterpart : StagedFile → StagedFile)
    (bytes : StagedFile → Bytes) (rest : List StagedFile) (s s' : Site) : Prop where
  root_eq : s.committer.root = root
  committer : s'.committer = s.committer.rename counterpart
  stocked : Stocked root counterpart bytes (s.committer.files ++ rest) s.world s'.world

/-- Two committers that have failed. -/
structure Site.Spoiled (root : RootHandle) (s s' : Site) : Prop where
  resembles : Resembles root s.world s'.world
  left : InStaging root s.committer.files
  right : InStaging root s'.committer.files

/-- Two runs of a committer, of the same changes with other files. -/
abbrev CommitsAlike (root : RootHandle) (counterpart : StagedFile → StagedFile)
    (bytes : StagedFile → Bytes) (rest : List StagedFile) (m : CommitM Unit) (s : Site)
    (m' : CommitM Unit) (s' : Site) : Prop :=
  Lockstep (fun _ _ => Site.Matches root counterpart bytes rest) (Site.Spoiled root) m s m' s'

section

variable {root : RootHandle} {counterpart : StagedFile → StagedFile} {bytes : StagedFile → Bytes}
  {rest rest' : List StagedFile} {path : RelativePath} {s s' : Site}

theorem Site.Matches.spoiled (h : s.Matches root counterpart bytes rest s') :
    s.Spoiled root s' := by
  obtain ⟨hleft, hright⟩ := h.stocked.inStaging
  rw [List.map_append] at hright
  refine ⟨h.stocked.alike.resembles, (InStaging.append.1 hleft).1, ?_⟩
  rw [h.committer, Committer.files_rename]
  exact (InStaging.append.1 hright).1

theorem Site.Matches.onWorld {m m' : FsM Unit} (h : s.Matches root counterpart bytes rest s')
    (hm : Lockstep (fun _ _ => Stocked root counterpart bytes (s.committer.files ++ rest'))
      (Resembles root) m s.world m' s'.world) :
    CommitsAlike root counterpart bytes rest' (QuicSync.onWorld m) s (QuicSync.onWorld m') s' := by
  refine (Lockstep.zoom hm).mono ?_ ?_
  · rintro _ _ _ _ ⟨w, w', hstocked, rfl, rfl⟩
    exact ⟨h.root_eq, h.committer, hstocked⟩
  · rintro _ _ ⟨w, w', hresembles, rfl, rfl⟩
    exact ⟨hresembles, h.spoiled.left, h.spoiled.right⟩

/-- What is dropped after a failure are temporary files. -/
theorem Site.Spoiled.onWorld {m m' : FsM Unit} (h : s.Spoiled root s')
    (hm : Keeps (OnlyStaging root) m) (hm' : Keeps (OnlyStaging root) m') :
    ((QuicSync.onWorld m).run s).2.Spoiled root ((QuicSync.onWorld m').run s').2 :=
  ⟨h.resembles.onlyStaging (hm s.world) (hm' s'.world), h.left, h.right⟩

theorem commitsAlike_finishDirectory (h : s.Matches root counterpart bytes rest s') :
    CommitsAlike root counterpart bytes rest Committer.finishDirectory s Committer.finishDirectory
      s' := by
  have hpending' : s'.committer.pending = s.committer.pending.map (Directory.rename counterpart) := by
    rw [h.committer]
    rfl
  have hroot' : s'.committer.root = root := by
    rw [h.committer]
    exact h.root_eq
  cases hpending : s.committer.pending with
  | nil =>
    rw [hpending] at hpending'
    refine .of_ok (a := ()) (b := ()) ?_ ?_ h
    · exact Committer.run_finishDirectory_nil hpending
    · exact Committer.run_finishDirectory_nil hpending'
  | cons directory pending =>
    rw [hpending] at hpending'
    have hstocked := h.stocked
    rw [Committer.files, hpending, List.flatMap_cons, List.append_assoc] at hstocked
    have hrest : Stocked root counterpart bytes
        (directory.actions.flatMap Action.files ++ (pending.flatMap Directory.files ++ rest))
        s.world s'.world := hstocked
    -- the directory is off the stack while its actions are carried out
    have hmatches : Site.Matches root counterpart bytes (directory.files ++ rest)
        { s with committer := { s.committer with pending := pending } }
        { s' with committer := { s'.committer with
          pending := pending.map (Directory.rename counterpart) } } := by
      refine ⟨h.root_eq, by rw [h.committer]; rfl, hstocked.perm ?_⟩
      simp only [Committer.files, ← List.append_assoc]
      exact List.perm_append_comm.append_right rest
    have hactions := hmatches.onWorld (lockstep_runActions directory.path hrest)
    unfold CommitsAlike Lockstep at hactions ⊢
    rw [Committer.run_finishDirectory_cons hpending, Committer.run_finishDirectory_cons hpending',
      h.root_eq, hroot']
    exact hactions

theorem commitsAlike_finishWhile {leave : Directory → Bool}
    (hleave : ∀ d : Directory, leave (d.rename counterpart) = leave d) (directories : List Directory)
    (h : s.Matches root counterpart bytes rest s') :
    CommitsAlike root counterpart bytes rest (Committer.finishWhile leave directories) s
      (Committer.finishWhile leave (directories.map (Directory.rename counterpart))) s' := by
  induction directories generalizing s s' with
  | nil => exact .pure h
  | cons directory directories ih =>
    rw [List.map_cons]
    unfold Committer.finishWhile
    rw [hleave]
    split
    · exact Lockstep.bind (commitsAlike_finishDirectory h) fun _ _ _ _ h' => ih h'
    · exact .pure h

theorem commitsAlike_finishPending {leave : Directory → Bool}
    (hleave : ∀ d : Directory, leave (d.rename counterpart) = leave d)
    (h : s.Matches root counterpart bytes rest s') :
    CommitsAlike root counterpart bytes rest (Committer.finishPending leave) s
      (Committer.finishPending leave) s' := by
  refine .after (Fallible.run_get s) (Fallible.run_get s') ?_
  rw [h.committer]
  exact commitsAlike_finishWhile hleave _ h

theorem Committer.rename_defer (c : Committer) (path : RelativePath) (action : Action) :
    (c.defer path action).rename counterpart =
      (c.rename counterpart).defer path (action.rename counterpart) := by
  unfold Committer.defer Committer.rename
  cases hpending : c.pending with
  | nil => rfl
  | cons directory pending =>
    simp only [List.map_cons, Directory.rename]
    split
    · simp only [List.map_cons, Directory.rename, List.map_append, List.map_nil]
    · simp only [List.map_cons, Directory.rename, List.map_nil]

theorem Committer.files_defer (c : Committer) (path : RelativePath) (action : Action) :
    ((c.defer path action).files).Perm (c.files ++ action.files) := by
  unfold Committer.defer Committer.files
  cases hpending : c.pending with
  | nil => simp [Directory.files]
  | cons directory pending =>
    simp only
    split
    · simp only [List.flatMap_cons, Directory.files, List.flatMap_append, List.flatMap_nil,
        List.append_nil, List.append_assoc]
      exact List.perm_append_comm.append_left _
    · simp only [List.flatMap_cons, Directory.files, List.flatMap_nil, List.append_nil]
      exact List.perm_append_comm

theorem Committer.replacingDirectory_rename (c : Committer) (path : RelativePath) :
    (c.rename counterpart).replacingDirectory path = c.replacingDirectory path := by
  unfold Committer.replacingDirectory Committer.rename
  cases hpending : c.pending with
  | nil => rfl
  | cons directory pending =>
    simp only [List.map_cons, Directory.rename, List.any_map]
    refine congrArg (fun b : Bool => decide (directory.path = path ∧ b = true)) ?_
    refine congrArg (List.any directory.actions) (funext fun action => ?_)
    cases action <;> rfl

/-- An action that is put on the stack, with its file. -/
theorem commitsAlike_defer (action : Action)
    (h : s.Matches root counterpart bytes (action.files ++ rest) s') :
    CommitsAlike root counterpart bytes rest (onCommitter fun c => c.defer path action) s
      (onCommitter fun c => c.defer path (action.rename counterpart)) s' := by
  refine .of_ok (Fallible.run_modify _ _) (Fallible.run_modify _ _) ⟨?_, ?_, ?_⟩
  · change (s.committer.defer path action).root = root
    rw [Committer.root_defer, h.root_eq]
  · change s'.committer.defer path (action.rename counterpart) = _
    rw [h.committer, ← Committer.rename_defer]
  · refine h.stocked.perm ?_
    rw [← List.append_assoc]
    exact (Committer.files_defer s.committer path action).symm.append_right rest

theorem Site.Matches.fewer (h : s.Matches root counterpart bytes (rest' ++ rest) s') :
    s.Matches root counterpart bytes rest s' :=
  ⟨h.root_eq, h.committer,
    h.stocked.sublist ((List.sublist_append_right rest' rest).append_left s.committer.files)⟩

/-- A command on live entries. -/
theorem Site.Matches.inStep {m : FsM Unit} (h : s.Matches root counterpart bytes rest s')
    (hm : InStep root m s.world s'.world) :
    CommitsAlike root counterpart bytes rest (QuicSync.onWorld m) s (QuicSync.onWorld m) s' :=
  h.onWorld (hm.stocked h.stocked)

theorem commitsAlike_install {operation : Operation} {file : Option StagedFile}
    (h : s.Matches root counterpart bytes (file.toList ++ rest) s') :
    CommitsAlike root counterpart bytes rest (Committer.install operation file) s
      (Committer.install operation (file.map counterpart)) s' := by
  have hroot' : s'.committer.root = root := by
    rw [h.committer]
    exact h.root_eq
  have halike := h.stocked.alike
  have hless := h.fewer
  refine .after (Fallible.run_get s) (Fallible.run_get s') ?_
  rw [h.root_eq, hroot', h.committer]
  cases operation with
  | delete id path kind =>
    cases kind with
    | directory => exact commitsAlike_defer .delete hless
    | regularFile => exact hless.inStep (inStep_unlink halike)
    | symlink => exact hless.inStep (inStep_unlink halike)
  | upsertDirectory id record =>
    refine Lockstep.bind (hless.inStep (inStep_upsertDirectory halike)) fun _ _ _ _ hnext => ?_
    exact commitsAlike_defer (.metadata record.metadata) hnext
  | upsertFile update id record =>
    cases file with
    | none => exact .pure hless
    | some file =>
      simp only [Option.map_some, Committer.replacingDirectory_rename]
      split
      · exact commitsAlike_defer (.file file record.metadata) h
      · refine h.onWorld (lockstep_install (h.stocked.perm ?_))
        exact List.perm_middle
  | upsertSymlink id record =>
    simp only [Committer.replacingDirectory_rename]
    split
    · exact commitsAlike_defer (.symlink record) hless
    · exact hless.inStep (inStep_symlink halike)

theorem commitsAlike_prepare {operation : Operation} {file : Option StagedFile}
    (h : s.Matches root counterpart bytes rest s') :
    CommitsAlike root counterpart bytes rest (Committer.prepare operation file) s
      (Committer.prepare operation (file.map counterpart)) s' := by
  have hprevious : s'.committer.previous = s.committer.previous := by
    rw [h.committer]
    rfl
  refine .after (Fallible.run_get s) (Fallible.run_get s') ?_
  rw [hprevious, Option.isSome_map]
  split
  · exact .fail h.spoiled
  split
  · exact .fail h.spoiled
  · exact commitsAlike_finishPending (fun _ => rfl) h

theorem commitsAlike_previous (path : RelativePath) (h : s.Matches root counterpart bytes rest s') :
    CommitsAlike root counterpart bytes rest (onCommitter fun c => { c with previous := some path })
      s (onCommitter fun c => { c with previous := some path }) s' := by
  refine .of_ok (Fallible.run_modify _ _) (Fallible.run_modify _ _) ⟨h.root_eq, ?_, h.stocked⟩
  change { s'.committer with previous := some path } = _
  rw [h.committer]
  rfl

theorem commitsAlike_apply {operation : Operation} {file : Option StagedFile}
    (h : s.Matches root counterpart bytes (file.toList ++ rest) s') :
    CommitsAlike root counterpart bytes rest (Committer.apply operation file) s
      (Committer.apply operation (file.map counterpart)) s' := by
  obtain ⟨hleft, hright⟩ := h.stocked.inStaging
  rw [List.map_append, List.map_append] at hright
  have hfile : InStaging root file.toList := (InStaging.append.1 (InStaging.append.1 hleft).2).1
  have hfile' : InStaging root (file.map counterpart).toList := by
    have hmap := (InStaging.append.1 (InStaging.append.1 hright).2).1
    cases file <;> exact hmap
  refine Lockstep.bind ((commitsAlike_prepare h).onError fun _ _ hE =>
      hE.onWorld (onlyStaging_dropFile hfile) (onlyStaging_dropFile hfile'))
    fun _ _ _ _ hprepared => Lockstep.bind (commitsAlike_previous operation.path hprepared)
      fun _ _ _ _ hnext => commitsAlike_install hnext

theorem commitsAlike_applyAll {changes : List Change}
    (h : s.Matches root counterpart bytes (changes.flatMap Change.files) s') :
    CommitsAlike root counterpart bytes [] (applyAll changes) s
      (applyAll (changes.map (Change.rename counterpart))) s' := by
  induction changes generalizing s s' with
  | nil => exact .pure h
  | cons change changes ih =>
    obtain ⟨operation, file⟩ := change
    obtain ⟨hleft, hright⟩ := h.stocked.inStaging
    rw [List.flatMap_cons] at h hleft hright
    rw [List.map_append, List.map_append] at hright
    have hrest := (InStaging.append.1 (InStaging.append.1 hleft).2).2
    have hrest' := (InStaging.append.1 (InStaging.append.1 hright).2).2
    rw [List.map_flatMap, ← funext Change.files_rename, ← List.flatMap_map] at hrest'
    exact Lockstep.bind ((commitsAlike_apply h).onError fun _ _ hE =>
        hE.onWorld (onlyStaging_dropChanges hrest) (onlyStaging_dropChanges hrest'))
      fun _ _ _ _ hnext => ih hnext

/-- What is left on the stacks is dropped after a failure. -/
theorem Site.Spoiled.drop (h : s.Spoiled root s') :
    (Committer.drop.run s).2.Spoiled root (Committer.drop.run s').2 :=
  h.onWorld (onlyStaging_dropPending h.left) (onlyStaging_dropPending h.right)

theorem commitsAlike_commitAll {changes : List Change}
    (h : s.Matches root counterpart bytes (changes.flatMap Change.files) s') :
    CommitsAlike root counterpart bytes [] (commitAll changes) s
      (commitAll (changes.map (Change.rename counterpart))) s' :=
  (Lockstep.bind (commitsAlike_applyAll h) fun _ _ _ _ hnext =>
    commitsAlike_finishPending (fun _ => rfl) hnext).onError fun _ _ hE => hE.drop

end

theorem PendingCommit.run_commit (pending : PendingCommit) (root : RootHandle) (w : World) :
    (pending.commit root).run w =
      (((commitAll pending.changes).run ⟨Committer.new root, w⟩).1,
        ((commitAll pending.changes).run ⟨Committer.new root, w⟩).2.world) := rfl

/-- **Two commits of one plan**: with files of the same content they both succeed, or both fail with
the same error, and leave the same entries. -/
theorem commit_congr {root : RootHandle} {counterpart : StagedFile → StagedFile}
    {bytes : StagedFile → Bytes} {pending pending' : PendingCommit} {w w' : World}
    (hchanges : pending'.changes = pending.changes.map (Change.rename counterpart))
    (h : Stocked root counterpart bytes (pending.changes.flatMap Change.files) w w') :
    ((pending'.commit root).run w').1 = ((pending.commit root).run w).1 ∧
      Resembles root ((pending.commit root).run w).2 ((pending'.commit root).run w').2 ∧
      (((pending.commit root).run w).1 = .ok () →
        Alike root ((pending.commit root).run w).2 ((pending'.commit root).run w').2) := by
  have hmatches : Site.Matches root counterpart bytes (pending.changes.flatMap Change.files)
      ⟨Committer.new root, w⟩ ⟨Committer.new root, w'⟩ := ⟨rfl, rfl, h⟩
  have hcommit := commitsAlike_commitAll hmatches
  rw [← hchanges] at hcommit
  obtain ⟨_, _, s, s', hrun, hrun', hpost⟩ | ⟨e, s, s', hrun, hrun', hpost⟩ := hcommit
  · have hl : (pending.commit root).run w = (.ok (), s.world) := by
      rw [PendingCommit.run_commit, hrun]
    have hr : (pending'.commit root).run w' = (.ok (), s'.world) := by
      rw [PendingCommit.run_commit, hrun']
    rw [hl, hr]
    exact ⟨rfl, hpost.stocked.alike.resembles, fun _ => hpost.stocked.alike⟩
  · have hl : (pending.commit root).run w = (.error e, s.world) := by
      rw [PendingCommit.run_commit, hrun]
    have hr : (pending'.commit root).run w' = (.error e, s'.world) := by
      rw [PendingCommit.run_commit, hrun']
    rw [hl, hr]
    exact ⟨rfl, hpost.resembles, (fun herror => nomatch herror)⟩

end QuicSync
