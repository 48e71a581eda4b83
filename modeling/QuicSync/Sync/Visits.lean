import QuicSync.Sync.Progress

/-!
# The visits of a commit

Entering and leaving a round are replacements of its entry, so they keep `Progress`:
`enter_outcome` and `leave_outcome`, one case for every pair of kinds.  `run_outcome` goes through
all visits.  A visit that adds or removes a name fails for want of a permission if and only if the
parent is neither widened nor writable.
-/

namespace QuicSync

open Posix

/-! ### Installing a record -/


section

variable {root : RootHandle} {file : RelativePath → StagedFile} {content : RelativePath → Bytes}
  {w w' : World} {r : Round} {a : IndexRecord}

/-- Install what a record says where there is no directory. -/
def place (root : RootHandle) (file : RelativePath → StagedFile) (a : IndexRecord) : FsM Unit :=
  match a.metadata.kind with
  | .directory => upsertDirectory root a.path a.metadata
  | .regularFile => (file a.path).install root a.path a.metadata
  | .symlink => symlink root a

/-- What a record says has been installed. -/
def Placed (root : RootHandle) (file : RelativePath → StagedFile) (content : RelativePath → Bytes)
    (a : IndexRecord) (w w' : World) : Prop :=
  ∃ own new, Replaces root a.path true own new w w' ∧
    (∀ f ∈ own, f = file a.path ∧ f.directory = root.path ++ [stagingName] ∧
      a.metadata.kind = .regularFile) ∧
    if a.metadata.kind = .directory then ∃ m, new = some ⟨.directory, widened a.metadata, m⟩
    else new = some (installed content a)

theorem place_outcome (hreach : Reach root a.path w)
    (hready : a.metadata.kind = .regularFile → Ready root (file a.path) (content a.path) w)
    (htarget : a.metadata.kind = .symlink → ∃ t, a.symlinkTarget = some t ∧ 0 ∉ t)
    (hmtime : a.metadata.mtimeNs.InRange) (hdir : ¬ w.tree.IsDir (root.at a.path))
    (hnone : a.metadata.kind = .directory → w.tree.get (root.at a.path) = none) :
    UnlessDenied (place root file a) w (w.tree.WritableAt (parentOf root a.path).directory)
      (Placed root file content a w) := by
  unfold place Placed installed
  cases hkind : a.metadata.kind with
  | directory =>
    refine (upsertDirectory_outcome hreach (hnone hkind)).mono fun w' ⟨m, h⟩ => ?_
    exact ⟨none, _, h, by simp, by simp⟩
  | regularFile =>
    have hfile := hready hkind
    refine (install_outcome hreach hfile hkind hmtime hdir).mono fun w' h => ?_
    exact ⟨_, _, h, by simpa using hfile.directory, by simp⟩
  | symlink =>
    obtain ⟨t, ht, hnul⟩ := htarget hkind
    refine (symlink_outcome hreach ht hnul hmtime hdir).mono fun w' h => ?_
    exact ⟨none, _, h, by simp, by simp [ht]⟩

/-- Installing after the entry in the way has been removed. -/
theorem Placed.after_removed {touches : Bool} {w'' : World} (hprot : Unprotected a.path)
    (hremoved : Replaces root a.path touches none none w w')
    (h : Placed root file content a w' w'') : Placed root file content a w w'' := by
  obtain ⟨own, new, hrep, hown, hnew⟩ := h
  refine ⟨own, new, ?_, hown, hnew⟩
  have hboth := hremoved.trans hrep fun f hf => ?_
  · rwa [Bool.or_true] at hboth
  · obtain ⟨-, hdir, -⟩ := hown f hf
    rw [hdir, ← List.append_nil (root.path ++ [stagingName])]
    exact ⟨staging_ne_at hprot, staging_ne_parent hprot⟩

/-- The temporary file is ready after the entry in the way has been removed. -/
theorem Ready.after_removed {p : RelativePath} {touches : Bool} {f : StagedFile} {c : Bytes}
    (hprot : Unprotected p) (hremoved : Replaces root p touches none none w w')
    (h : Ready root f c w) : Ready root f c w' := by
  have hother (l : List Bytes) : w'.tree.get (root.path ++ [stagingName] ++ l) =
      w.tree.get (root.path ++ [stagingName] ++ l) :=
    hremoved.other _ (staging_ne_at hprot) (staging_ne_parent hprot) (by simp)
  refine h.of_same ?_ ?_
  · have hnil := hother []
    rw [List.append_nil, ← h.directory] at hnil
    exact SameEntry.of_eq hnil.symm
  · rw [h.directory]
    exact hother _

end

namespace Setting

variable {blake3 : Bytes → Digest} {root : RootHandle} {file : RelativePath → StagedFile}
  {content : RelativePath → Bytes} {S D : List IndexRecord} {w₀ w w' : World} {r : Round}
  {phase : Round → Stage} {a : IndexRecord}

/-- The visit of a round that adds or removes its name. -/
theorem visited_renamed {own : Option StagedFile} {new : Option Inode} {stage stage' : Stage}
    (hreach : Reach root r.path w) (hrep : Replaces root r.path true own new w w')
    (hshows : r.Shows content (w₀.tree.get (root.at r.path)) stage' new)
    (hown : ∀ f ∈ own, f = file r.path ∧ f.directory = root.path ++ [stagingName] ∧
      r.sourceKind = some .regularFile ∧ stage' = .after)
    (hstage : r.renamed stage = false) (hstage' : r.renamed stage' = true) :
    Visited root file content w₀ r stage stage' w w' := by
  refine ⟨hreach.enterable.isDir, ⟨own, new, ?_, hshows, hown⟩, by simp [hstage]⟩
  rwa [hstage, hstage']

/-- The visit of a round that leaves its name alone. -/
theorem visited_kept {new : Option Inode} {stage stage' : Stage}
    (hreach : Reach root r.path w) (hrep : Replaces root r.path false none new w w')
    (hshows : r.Shows content (w₀.tree.get (root.at r.path)) stage' new)
    (hstage : r.renamed stage' = r.renamed stage) :
    Visited root file content w₀ r stage stage' w w' := by
  refine ⟨hreach.enterable.isDir, ⟨none, new, ?_, hshows, by simp⟩, fun h => hstage ▸ h⟩
  rwa [hstage, Bool.and_not_self]

/-- The visit of a round whose source entry is installed. -/
theorem visited_placed {stage stage' : Stage} (hreach : Reach root r.path w)
    (ha : r.source = some a) (hpath : a.path = r.path) (hstage : r.renamed stage = false)
    (hstage' : r.renamed stage' = true)
    (hafter : stage' = if a.metadata.kind = .directory then .inside else .after)
    (h : Placed root file content a w w') :
    Visited root file content w₀ r stage stage' w w' := by
  obtain ⟨own, new, hrep, hown, hnew⟩ := h
  have hsource : r.sourceKind = some a.metadata.kind := by
    unfold Round.sourceKind
    rw [ha]
    rfl
  rw [hpath] at hrep
  refine visited_renamed hreach hrep ?_ (fun f hf => ?_) hstage hstage'
  · by_cases hkind : a.metadata.kind = .directory
    · rw [if_pos hkind] at hafter hnew
      obtain ⟨m, rfl⟩ := hnew
      rw [hafter, Round.shows_inside_directory (hsource.trans (congrArg some hkind))]
      refine ⟨_, rfl, rfl, fun a' ha' => ?_⟩
      rw [ha] at ha'
      cases ha'
      rfl
    · rw [if_neg hkind] at hafter hnew
      rw [hafter, hnew]
      change _ = Option.map _ _
      rw [ha]
      rfl
  · obtain ⟨hfile, hdir, hkind⟩ := hown f hf
    refine ⟨hpath ▸ hfile, hdir, hsource.trans (congrArg some hkind), ?_⟩
    rw [hafter, if_neg]
    rw [hkind]
    decide

/-- The source entry of a round can be installed where there is no directory. -/
theorem place_source (h : Setting blake3 root file content S D w₀) (hr : r ∈ changedRounds S D)
    (ha : r.source = some a) (hreach : Reach root r.path w)
    (hready : r.sourceKind = some .regularFile → Ready root (file r.path) (content r.path) w)
    (hdir : ¬ w.tree.IsDir (root.at r.path))
    (hnone : r.sourceKind = some .directory → w.tree.get (root.at r.path) = none) :
    UnlessDenied (place root file a) w (w.tree.WritableAt (parentOf root r.path).directory)
      (Placed root file content a w) := by
  obtain ⟨hmem, hpath⟩ := (source_eq_some_iff h.source.increasing (h.round_eq hr).1).1 ha
  have hsource : r.sourceKind = some a.metadata.kind := by
    unfold Round.sourceKind
    rw [ha]
    rfl
  rw [hsource] at hready hnone
  rw [← hpath] at hreach hready hdir hnone ⊢
  exact place_outcome hreach (fun hkind => hready (congrArg some hkind)) (h.source.target a hmem)
    (h.source.mtime a hmem) hdir fun hkind => hnone (congrArg some hkind)

/-- A visited round is in its new stage. -/
theorem stepped {stage : Stage} (h : Setting blake3 root file content S D w₀)
    (hprogress : Progress root file content (changedRounds S D) w₀ phase w)
    (hr : r ∈ changedRounds S D) (hopen : phase r ≠ .after)
    (habove : ∀ a ∈ changedRounds S D, Above (fun r : Round => r.path.components) a r →
      phase a = .inside)
    (hvisit : Visited root file content w₀ r (phase r) stage w w') :
    Progress root file content (changedRounds S D) w₀ (Function.update phase r stage) w' :=
  hprogress.step hr h.unprotected h.separate h.distinct hopen habove hvisit

/-- What is at the path of a round that has not been entered, if it is no directory of the
destination. -/
theorem entry_leaf (h : Setting blake3 root file content S D w₀)
    (hprogress : Progress root file content (changedRounds S D) w₀ phase w)
    (hr : r ∈ changedRounds S D) (hbefore : phase r = .before)
    (hdest : r.destinationKind ≠ some .directory) :
    (r.destination = none → w.tree.get (root.at r.path) = none) ∧
      (r.destination ≠ none → ∃ i, w.tree.get (root.at r.path) = some i ∧ ¬ i.IsDir) := by
  have hentry := hprogress.entry r hr
  rw [hbefore] at hentry
  refine ⟨fun hnone => ?_, fun hsome => ?_⟩
  · have hinitial := h.initial_none hr hnone
    rw [hinitial] at hentry
    exact SameEntry.none_iff.1 hentry
  · obtain ⟨b, hb⟩ := Option.ne_none_iff_exists'.1 hsome
    obtain ⟨i, hi, hrecorded, -⟩ := h.initial_some (h.round_eq hr).1 hb
    have hkind : b.metadata.kind ≠ .directory := fun heq => hdest (by
      unfold Round.destinationKind
      rw [hb, ← heq]
      rfl)
    rw [hi] at hentry
    obtain ⟨j, hj, hnode, -⟩ := SameEntry.some_iff.1 hentry
    refine ⟨j, hj, fun hjdir => hkind (hrecorded.isDir_iff.1 ?_)⟩
    exact hnode.symm.trans hjdir

theorem not_isDir_leaf (h : Setting blake3 root file content S D w₀)
    (hprogress : Progress root file content (changedRounds S D) w₀ phase w)
    (hr : r ∈ changedRounds S D) (hbefore : phase r = .before)
    (hdest : r.destinationKind ≠ some .directory) : ¬ w.tree.IsDir (root.at r.path) := by
  obtain ⟨hnone, hsome⟩ := h.entry_leaf hprogress hr hbefore hdest
  rintro ⟨i, hi, hidir⟩
  by_cases hdestination : r.destination = none
  · rw [Option.mem_def, hnone hdestination] at hi
    cases hi
  · obtain ⟨j, hj, hjdir⟩ := hsome hdestination
    rw [Option.mem_def, hj] at hi
    cases hi
    exact hjdir hidir

/-- What is installed at once when no directory is replaced, and the stage after it. -/
theorem installation_eq_place (h : Setting blake3 root file content S D w₀)
    (hr : r ∈ changedRounds S D) (hdest : r.destinationKind ≠ some .directory)
    (ha : r.source = some a) :
    r.installation root file = place root file a ∧ a.path = r.path ∧
      (if r.container then Stage.inside else .after) =
        if a.metadata.kind = .directory then .inside else .after := by
  obtain ⟨-, hpath⟩ := (source_eq_some_iff h.source.increasing (h.round_eq hr).1).1 ha
  refine ⟨?_, hpath, ?_⟩
  · cases hkind : a.metadata.kind <;>
      simp only [Round.installation, place, ha, hdest, if_false, hpath, hkind]
  · simp [Round.container, Round.sourceKind, ha, hdest]

/-- A round whose destination entry is no directory adds or removes its name when it is entered. -/
theorem renamed_leaf (hdest : r.destinationKind ≠ some .directory) :
    r.renamed .before = false ∧
      r.renamed (if r.container then .inside else .after) = true := by
  have hstructural : r.structural = true := by simp [Round.structural, hdest]
  refine ⟨by simp [Round.renamed, hdest], ?_⟩
  cases r.container <;> simp [Round.renamed, hdest, hstructural]

/-- Entering a round with nothing to remove, or an entry of the same kind to replace. -/
theorem enter_kept (h : Setting blake3 root file content S D w₀)
    (hprogress : Progress root file content (changedRounds S D) w₀ phase w)
    (hr : r ∈ changedRounds S D) (hbefore : phase r = .before)
    (hreach : Reach root r.path w) (hdest : r.destinationKind ≠ some .directory)
    (hkeep : r.destinationKind = none ∨ r.sourceKind = r.destinationKind) :
    UnlessDenied (r.enter root file) w (w.tree.WritableAt (parentOf root r.path).directory)
      (Visited root file content w₀ r .before (if r.container then .inside else .after) w) := by
  obtain ⟨hnone, -⟩ := h.entry_leaf hprogress hr hbefore hdest
  obtain ⟨hstage, hstage'⟩ := renamed_leaf hdest
  have hremoval : r.removal root = pure () := by
    unfold Round.removal
    rw [if_pos (by tauto)]
  obtain ⟨a, ha⟩ : ∃ a, r.source = some a := by
    refine Option.ne_none_iff_exists'.1 fun hsource => (h.round_eq hr).2 ?_
    have hdestination : r.destinationKind = none := by
      obtain hd | hd := hkeep
      · exact hd
      · rw [← hd]
        simp [Round.sourceKind, hsource]
    rw [hsource]
    simpa [Round.destinationKind, eq_comm] using hdestination
  obtain ⟨hplace, hpath, hcontainer⟩ := h.installation_eq_place hr hdest ha
  have henter : r.enter root file = place root file a := by
    unfold Round.enter
    rw [hremoval, hplace]
    rfl
  rw [henter]
  refine (h.place_source hr ha hreach
    (fun hkind => hprogress.staged r hr hkind (by simp [hbefore]))
    (h.not_isDir_leaf hprogress hr hbefore hdest) fun hsource => hnone ?_).mono fun w' hplaced =>
      visited_placed hreach ha hpath hstage hstage' hcontainer hplaced
  obtain hd | hd := hkeep
  · simpa [Round.destinationKind] using hd
  · exact absurd (hd ▸ hsource) hdest

/-- Entering a round that removes an entry of another kind. -/
theorem enter_removed (h : Setting blake3 root file content S D w₀)
    (hprogress : Progress root file content (changedRounds S D) w₀ phase w)
    (hr : r ∈ changedRounds S D) (hbefore : phase r = .before)
    (hreach : Reach root r.path w) (hdest : r.destinationKind ≠ some .directory)
    (hkeep : ¬ (r.destinationKind = none ∨ r.sourceKind = r.destinationKind)) :
    UnlessDenied (r.enter root file) w (w.tree.WritableAt (parentOf root r.path).directory)
      (Visited root file content w₀ r .before (if r.container then .inside else .after) w) := by
  obtain ⟨-, hsome⟩ := h.entry_leaf hprogress hr hbefore hdest
  obtain ⟨hstage, hstage'⟩ := renamed_leaf hdest
  have hprot := h.unprotected r hr
  have hchild := not_hasChild_of_not_isDir (h.not_isDir_leaf hprogress hr hbefore hdest)
  have hremoval : r.removal root = unlink root r.path false := by
    unfold Round.removal
    rw [if_neg (by tauto)]
  obtain ⟨i, hi, hidir⟩ := hsome fun hd => hkeep (Or.inl (by simp [Round.destinationKind, hd]))
  unfold Round.enter
  rw [hremoval]
  refine (unlink_outcome hreach hi (by simpa using hidir) hchild).bind fun w₁ hremoved hok => ?_
  cases ha : r.source with
  | none =>
    have hpure : r.installation root file = pure () := by
      unfold Round.installation
      rw [ha]
    have hafter : (if r.container then Stage.inside else .after) = .after := by
      simp [Round.container, Round.sourceKind, ha, hdest]
    rw [hpure]
    refine .of_ok hok rfl (visited_renamed hreach hremoved ?_ (by simp) hstage hstage')
    rw [hafter]
    change _ = Option.map _ _
    rw [ha]
    rfl
  | some a =>
    obtain ⟨hplace, hpath, hcontainer⟩ := h.installation_eq_place hr hdest ha
    have hdir₁ : ¬ w₁.tree.IsDir (root.at r.path) := by
      rintro ⟨j, hj, -⟩
      rw [Option.mem_def, hremoved.entry] at hj
      cases hj
    rw [hplace]
    refine UnlessDenied.congr ?_ (hremoved.writableAt_iff hreach.enterable)
    refine (h.place_source hr ha (hreach.replaces hremoved) (fun hkind =>
      (hprogress.staged r hr hkind (by simp [hbefore])).after_removed hprot hremoved) hdir₁
      fun _ => hremoved.entry).mono fun w' hplaced => ?_
    refine visited_placed hreach ha hpath hstage hstage' hcontainer ?_
    exact hplaced.after_removed (hpath ▸ hprot) (hpath ▸ hremoved)

/-- Entering a directory of the destination. -/
theorem enter_directory (h : Setting blake3 root file content S D w₀)
    (hprogress : Progress root file content (changedRounds S D) w₀ phase w)
    (hr : r ∈ changedRounds S D) (hbefore : phase r = .before)
    (hreach : Reach root r.path w) (hdest : r.destinationKind = some .directory) :
    ∃ w', (r.enter root file).run w = (.ok (), w') ∧
      Visited root file content w₀ r .before .inside w w' := by
  have hentry := hprogress.entry r hr
  rw [hbefore] at hentry
  have hstage : r.renamed .inside = r.renamed .before := by simp [Round.renamed, hdest]
  have hremoval : r.removal root = pure () := by
    unfold Round.removal
    rw [if_pos (Or.inr (Or.inl hdest))]
  have henter : r.enter root file = r.installation root file := by
    unfold Round.enter
    rw [hremoval]
    rfl
  rw [henter]
  by_cases hsource : r.sourceKind = some .directory
  · -- the directory is widened
    obtain ⟨a, ha, hkind⟩ := Option.map_eq_some_iff.1 hsource
    obtain ⟨b, hb, hbkind⟩ := Option.map_eq_some_iff.1 hdest
    obtain ⟨i, hi, hrecorded, hperm⟩ := h.initial_some (h.round_eq hr).1 hb
    rw [hi] at hentry
    obtain ⟨j, hj, hjdir, hjread, -⟩ :=
      hentry.permissions (hrecorded.isDir_iff.2 hbkind)
    obtain ⟨w', hrun, hrep⟩ := upsertDirectory_run a.metadata hreach hj hjdir
      (hjread.2 (hperm hbkind).1)
    refine ⟨w', ?_, visited_kept hreach hrep ?_ hstage⟩
    · unfold Round.installation
      simp only [ha, hkind]
      exact hrun
    · rw [Round.shows_inside_directory hsource]
      refine ⟨_, rfl, hjdir, fun a' ha' => ?_⟩
      rw [ha] at ha'
      cases ha'
      rfl
  · -- everything waits
    have hpure : r.installation root file = pure () := by
      unfold Round.installation
      cases ha : r.source with
      | none => rfl
      | some a =>
        cases hkind : a.metadata.kind with
        | directory => exact absurd (by simp [Round.sourceKind, ha, hkind]) hsource
        | regularFile => simp [hkind, hdest]
        | symlink => simp [hkind, hdest]
    refine ⟨w, by rw [hpure]; rfl, visited_kept hreach (Replaces.refl root r.path w) ?_ hstage⟩
    rw [Round.shows_inside_other hsource]
    exact hentry

/-- **Entering a round** succeeds, unless it changes a name in a directory that may not be written. -/
theorem enter_outcome (h : Setting blake3 root file content S D w₀)
    (hprogress : Progress root file content (changedRounds S D) w₀ phase w)
    (hr : r ∈ changedRounds S D) (hbefore : phase r = .before)
    (habove : ∀ a ∈ changedRounds S D, Above (fun r : Round => r.path.components) a r →
      phase a = .inside) :
    UnlessDenied (r.enter root file) w
      (r.destinationKind = some .directory ∨ WritableParent root S D w₀.tree r.path)
      (Progress root file content (changedRounds S D) w₀
        (Function.update phase r (if r.container then .inside else .after))) := by
  have hreach := h.reach hprogress hr habove
  have hstep {w' : World} (hvisit : Visited root file content w₀ r .before
      (if r.container then .inside else .after) w w') :=
    h.stepped hprogress hr (by simp [hbefore]) habove (hbefore ▸ hvisit)
  by_cases hdest : r.destinationKind = some .directory
  · obtain ⟨w', hrun, hvisit⟩ := h.enter_directory hprogress hr hbefore hreach hdest
    refine .of_ok (Or.inl hdest) hrun (hstep ?_)
    simpa [Round.container, hdest] using hvisit
  · have hleaf : UnlessDenied (r.enter root file) w
        (w.tree.WritableAt (parentOf root r.path).directory)
        (Visited root file content w₀ r .before (if r.container then .inside else .after) w) := by
      by_cases hkeep : r.destinationKind = none ∨ r.sourceKind = r.destinationKind
      · exact h.enter_kept hprogress hr hbefore hreach hdest hkeep
      · exact h.enter_removed hprogress hr hbefore hreach hdest hkeep
    refine (hleaf.mono fun w' => hstep).congr ?_
    rw [h.writableAt_iff hprogress hr habove]
    simp [hdest]

/-- The source has nothing below a path that is no directory of its own. -/
theorem source_none_below (h : Setting blake3 root file content S D w₀) {p : RelativePath}
    (hr : r ∈ changedRounds S D) (hsource : r.sourceKind ≠ some .directory)
    (hp : r.path.components <+: p.components) (hne : r.path ≠ p) :
    (roundAt S D p).source = none := by
  by_contra hsome
  refine hsource ((sourceKind_eq_some_iff h.source.increasing (h.round_eq hr).1).2 ?_)
  exact isDirectory_of_above h.source (r := roundAt S D p) rfl hsome hp hne

/-- A directory that is deleted or replaced is empty when it is left. -/
theorem not_hasChild (h : Setting blake3 root file content S D w₀)
    (hprogress : Progress root file content (changedRounds S D) w₀ phase w)
    (hr : r ∈ changedRounds S D) (hsource : r.sourceKind ≠ some .directory)
    (hdest : r.destinationKind = some .directory)
    (hbelow : ∀ d ∈ changedRounds S D, Above (fun r : Round => r.path.components) r d →
      phase d = .after) : ¬ w.tree.HasChild (root.at r.path) := by
  obtain ⟨b, hb, hbpath, hbkind⟩ :=
    (destinationKind_eq_some_iff h.destination.increasing (h.round_eq hr).1).1 hdest
  intro hchild
  obtain ⟨name, i, hi⟩ := Tree.hasChild_iff.1 hchild
  -- a child that is the path of a round is gone
  have hgone {k : Round} (hk : k ∈ changedRounds S D)
      (hpath : k.path.components = r.path.components ++ [name]) : False := by
    have hpre : r.path.components <+: k.path.components := hpath ▸ List.prefix_append _ _
    have hne : r.path.components ≠ k.path.components := hpath ▸ Tree.ne_append_singleton _ _
    have hentry := hprogress.entry k hk
    rw [hbelow k hk ⟨hpre, hne⟩] at hentry
    have hnone : k.source = none := by
      rw [(h.round_eq hk).1]
      exact h.source_none_below hr hsource hpre fun heq => hne (congrArg _ heq)
    have hat : root.at k.path = root.at r.path ++ [name] := by
      unfold RootHandle.at
      rw [hpath, List.append_assoc]
    change w.tree.get (root.at k.path) = _ at hentry
    rw [hat, hi, hnone] at hentry
    cases hentry
  -- any other child was there at the start, and is that of a round after all
  have hout : Outside root (changedRounds S D) (root.at r.path ++ [name]) := by
    refine ⟨fun k hk heq => hgone hk ?_, ?_⟩
    · unfold RootHandle.at at heq
      rw [List.append_assoc] at heq
      exact (List.append_cancel_left heq).symm
    · exact not_staging_below root (h.unprotected r hr) [name]
  have hinitial : w₀.tree.get (root.at r.path ++ [name]) ≠ none := by
    intro hnone
    obtain ⟨-, hget⟩ | ⟨-, n, hget⟩ := hprogress.other _ hout
    · rw [hi, hnone] at hget
      cases hget
    · rw [hi, hnone] at hget
      cases hget
  obtain ⟨b', hb', hpath⟩ := h.vacant.deleted b hb hbkind (fun s hs hspath hskind => hsource
    ((sourceKind_eq_some_iff h.source.increasing (h.round_eq hr).1).2
      ⟨s, hs, hspath.trans hbpath, hskind⟩)) name (hbpath ▸ hinitial)
  rw [hbpath] at hpath
  have hpre : r.path.components <+: b'.path.components := hpath ▸ List.prefix_append _ _
  have hne : r.path ≠ b'.path := by
    intro heq
    rw [← heq] at hpath
    exact Tree.ne_append_singleton _ _ hpath
  have hdestination : (roundAt S D b'.path).destination = some b' :=
    (destination_eq_some_iff h.destination.increasing rfl).2 ⟨hb', rfl⟩
  refine hgone (k := roundAt S D b'.path) ?_ hpath
  refine (mem_changedRounds h.source.increasing h.destination.increasing).2 ⟨rfl, ?_⟩
  rw [h.source_none_below hr hsource hpre hne, hdestination]
  exact (Option.some_ne_none b').symm

/-- Leaving a directory of the source. -/
theorem leave_directory (h : Setting blake3 root file content S D w₀)
    (hprogress : Progress root file content (changedRounds S D) w₀ phase w)
    (hr : r ∈ changedRounds S D) (hinside : phase r = .inside) (hreach : Reach root r.path w)
    (hsource : r.sourceKind = some .directory) :
    ∃ w', (r.leave root file).run w = (.ok (), w') ∧
      Visited root file content w₀ r .inside .after w w' := by
  have hentry := hprogress.entry r hr
  rw [hinside, Round.shows_inside_directory hsource] at hentry
  obtain ⟨i, hi, hidir, hmode⟩ := hentry
  obtain ⟨a, ha, hkind⟩ := Option.map_eq_some_iff.1 hsource
  obtain ⟨hmem, -⟩ := (source_eq_some_iff h.source.increasing (h.round_eq hr).1).1 ha
  obtain ⟨hread, -, -⟩ := testBit_widened a.metadata
  rw [← hmode a ha] at hread
  obtain ⟨w', hrun, hrep⟩ := directoryMetadata_run hreach hi hidir hread (h.source.mtime a hmem)
  have hactions : r.leaveActions file = [.metadata a.metadata] := by
    simp [Round.leaveActions, ha, hkind]
  have hstage : r.renamed .after = r.renamed .inside := by
    by_cases hdest : r.destinationKind = some .directory
    · simp [Round.renamed, Round.structural, hsource, hdest]
    · simp [Round.renamed, hdest]
  refine ⟨w', ?_, visited_kept hreach hrep ?_ hstage⟩
  · have haction : (runAction root r.path (.metadata a.metadata)).run w = (.ok (), w') := hrun
    unfold Round.leave
    rw [hactions, runActions, Fallible.run_bind_ok (Fallible.run_onError_ok haction)]
    rfl
  · change _ = Option.map _ _
    rw [ha, Option.map_some, installed]
    simp only [hkind]

/-- Actions that are permitted together. -/
theorem runActions_cons {path : RelativePath} {action : Action} {actions : List Action} {ok : Prop}
    {post post' : World → Prop} (haction : UnlessDenied (runAction root path action) w ok post)
    (hrest : ∀ w', post w' → ok → UnlessDenied (runActions root path actions) w' ok post') :
    UnlessDenied (runActions root path (action :: actions)) w ok post' :=
  haction.onError.bind hrest

/-- The actions that wait for a directory to be empty: it is removed, and what replaces it is
installed. -/
theorem runActions_replaced (root : RootHandle) (file : RelativePath → StagedFile) (hdest : r.destinationKind = some .directory)
    (hsource : r.sourceKind ≠ some .directory) (hpath : ∀ a ∈ r.source, a.path = r.path) :
    r.leaveActions file = .delete :: (r.leaveActions file).tail ∧
      (r.source = none → (r.leaveActions file).tail = []) ∧
      ∀ a ∈ r.source, ∃ action, (r.leaveActions file).tail = [action] ∧
        runAction root r.path action = place root file a := by
  unfold Round.leaveActions
  cases ha : r.source with
  | none => simp [hdest]
  | some a =>
    have hap := hpath a ha
    cases hkind : a.metadata.kind with
    | directory => exact absurd (by simp [Round.sourceKind, ha, hkind]) hsource
    | regularFile =>
      refine ⟨by simp [hkind, hdest], by simp, fun a' ha' => ?_⟩
      cases ha'
      exact ⟨.file (file r.path) a.metadata, by simp only [hkind, hdest, if_true, List.tail_cons],
        by simp only [runAction, place, hkind, hap]⟩
    | symlink =>
      refine ⟨by simp [hkind, hdest], by simp, fun a' ha' => ?_⟩
      cases ha'
      exact ⟨.symlink a, by simp only [hkind, hdest, if_true, List.tail_cons],
        by simp only [runAction, place, hkind]⟩

/-- Leaving a directory that is deleted or replaced. -/
theorem leave_replaced (h : Setting blake3 root file content S D w₀)
    (hprogress : Progress root file content (changedRounds S D) w₀ phase w)
    (hr : r ∈ changedRounds S D) (hinside : phase r = .inside) (hreach : Reach root r.path w)
    (hsource : r.sourceKind ≠ some .directory) (hdest : r.destinationKind = some .directory)
    (hbelow : ∀ d ∈ changedRounds S D, Above (fun r : Round => r.path.components) r d →
      phase d = .after) :
    UnlessDenied (r.leave root file) w (w.tree.WritableAt (parentOf root r.path).directory)
      (Visited root file content w₀ r .inside .after w) := by
  have hround := (h.round_eq hr).1
  have hprot := h.unprotected r hr
  have hchild := h.not_hasChild hprogress hr hsource hdest hbelow
  have hentry := hprogress.entry r hr
  rw [hinside, Round.shows_inside_other hsource] at hentry
  obtain ⟨b, hb, hbkind⟩ := Option.map_eq_some_iff.1 hdest
  obtain ⟨i₀, hi₀, hrecorded, -⟩ := h.initial_some hround hb
  rw [hi₀] at hentry
  obtain ⟨i, hi, hidir, -⟩ := hentry.permissions (hrecorded.isDir_iff.2 hbkind)
  have hstage : r.renamed .inside = false := by simp [Round.renamed, hdest]
  have hstage' : r.renamed .after = true := by
    simp [Round.renamed, Round.structural, hdest, hsource]
  obtain ⟨hactions, hnone, hsome⟩ := runActions_replaced root file hdest hsource
    fun a ha => ((source_eq_some_iff h.source.increasing hround).1 ha).2
  unfold Round.leave
  rw [hactions]
  refine runActions_cons (unlink_outcome hreach hi (by simpa using hidir) hchild)
    fun w₁ hremoved hok => ?_
  cases ha : r.source with
  | none =>
    rw [hnone ha]
    refine .of_ok hok rfl (visited_renamed hreach hremoved ?_ (by simp) hstage hstage')
    change _ = Option.map _ _
    rw [ha]
    rfl
  | some a =>
    obtain ⟨action, htail, hplace⟩ := hsome a ha
    obtain ⟨-, hpath⟩ := (source_eq_some_iff h.source.increasing hround).1 ha
    have hdir₁ : ¬ w₁.tree.IsDir (root.at r.path) := by
      rintro ⟨j, hj, -⟩
      rw [Option.mem_def, hremoved.entry] at hj
      cases hj
    have hafter : Stage.after = if a.metadata.kind = .directory then .inside else .after := by
      rw [if_neg]
      intro hkind
      exact hsource (by simp [Round.sourceKind, ha, hkind])
    rw [htail]
    refine UnlessDenied.congr ?_ (hremoved.writableAt_iff hreach.enterable)
    refine runActions_cons (hplace ▸ h.place_source hr ha (hreach.replaces hremoved) (fun hkind =>
      (hprogress.staged r hr hkind (by simp [hinside])).after_removed hprot hremoved) hdir₁
      fun _ => hremoved.entry) fun w₂ hplaced hok₁ => ?_
    refine .of_ok hok₁ rfl (visited_placed hreach ha hpath hstage hstage' hafter ?_)
    exact hplaced.after_removed (hpath ▸ hprot) (hpath ▸ hremoved)

/-- **Leaving a round** succeeds, unless it changes a name in a directory that may not be written. -/
theorem leave_outcome (h : Setting blake3 root file content S D w₀)
    (hprogress : Progress root file content (changedRounds S D) w₀ phase w)
    (hr : r ∈ changedRounds S D) (hcontainer : r.container = true) (hinside : phase r = .inside)
    (habove : ∀ a ∈ changedRounds S D, Above (fun r : Round => r.path.components) a r →
      phase a = .inside)
    (hbelow : ∀ d ∈ changedRounds S D, Above (fun r : Round => r.path.components) r d →
      phase d = .after) :
    UnlessDenied (r.leave root file) w
      (r.sourceKind = some .directory ∨ WritableParent root S D w₀.tree r.path)
      (Progress root file content (changedRounds S D) w₀ (Function.update phase r .after)) := by
  have hreach := h.reach hprogress hr habove
  have hstep {w' : World} (hvisit : Visited root file content w₀ r .inside .after w w') :=
    h.stepped hprogress hr (by simp [hinside]) habove (hinside ▸ hvisit)
  by_cases hsource : r.sourceKind = some .directory
  · obtain ⟨w', hrun, hvisit⟩ := h.leave_directory hprogress hr hinside hreach hsource
    exact .of_ok (Or.inl hsource) hrun (hstep hvisit)
  · have hdest : r.destinationKind = some .directory := by
      simpa [Round.container, hsource] using hcontainer
    refine ((h.leave_replaced hprogress hr hinside hreach hsource hdest hbelow).mono
      fun w' => hstep).congr ?_
    rw [h.writableAt_iff hprogress hr habove]
    simp [hsource]

end Setting

/-! ### All visits -/

/-- What a run of visits comes to: all of it succeeds, and every round that had to change a name
could; or it fails for want of a permission to change the name of some round. -/
def RunOutcome (root : RootHandle) (file : RelativePath → StagedFile)
    (content : RelativePath → Bytes) (S D : List IndexRecord) (w₀ : World)
    (phase : Round → Stage) (m : FsM Unit) (w : World) : Prop :=
  (∃ w' phase', m.run w = (.ok (), w') ∧
      Progress root file content (changedRounds S D) w₀ phase' w' ∧
      (∀ r ∈ changedRounds S D, phase' r = .after) ∧
      ∀ r ∈ changedRounds S D, r.structural = true → r.renamed (phase r) = false →
        WritableParent root S D w₀.tree r.path) ∨
    ∃ e w', m.run w = (.error e, w') ∧ e.errno = some .acces ∧
      ∃ r ∈ changedRounds S D, r.structural = true ∧ ¬ WritableParent root S D w₀.tree r.path

/-- The changes of a commit: the operations of the plan with the staged files of their paths. -/
def planned (file : RelativePath → StagedFile) (S D : List IndexRecord) : List Change :=
  (plan (stream S) (stream D)).1.map (withFile file)

section

variable {blake3 : Bytes → Digest} {root : RootHandle} {file : RelativePath → StagedFile}
  {content : RelativePath → Bytes} {S D : List IndexRecord} {w₀ w w' : World} {r : Round}
  {phase : Round → Stage}

/-- One visit and then the others. -/
theorem RunOutcome.visit {m m' : FsM Unit} {ok : Prop} {stage : Stage} (hr : r ∈ changedRounds S D)
    (hvisit : UnlessDenied m w ok
      (Progress root file content (changedRounds S D) w₀ (Function.update phase r stage)))
    (hdenied : ¬ ok → r.structural = true ∧ ¬ WritableParent root S D w₀.tree r.path)
    (hrenamed : ok → r.structural = true → r.renamed (phase r) = false →
      r.renamed stage = false ∨ WritableParent root S D w₀.tree r.path)
    (hrest : ∀ w', Progress root file content (changedRounds S D) w₀ (Function.update phase r stage) w' →
      RunOutcome root file content S D w₀ (Function.update phase r stage) m' w') :
    RunOutcome root file content S D w₀ phase (m >>= fun _ => m') w := by
  obtain ⟨hok, w', hrun, hprogress⟩ | ⟨hok, e, w', hrun, he⟩ := hvisit
  · obtain ⟨w'', phase', hrun', hprogress', hafter, hwritable⟩ | ⟨e, w'', hrun', he⟩ :=
      hrest w' hprogress
    · refine Or.inl ⟨w'', phase', by rw [Fallible.run_bind_ok hrun, hrun'], hprogress', hafter,
        fun k hk hstructural hphase => ?_⟩
      by_cases hkr : k = r
      · subst hkr
        obtain hstage | hparent := hrenamed hok hstructural hphase
        · exact hwritable k hk hstructural (by rwa [Function.update_self])
        · exact hparent
      · exact hwritable k hk hstructural (by rwa [Function.update_of_ne hkr])
    · exact Or.inr ⟨e, w'', by rw [Fallible.run_bind_ok hrun, hrun'], he⟩
  · obtain ⟨hstructural, hparent⟩ := hdenied hok
    exact Or.inr ⟨e, w', Fallible.run_bind_error hrun, he, r, hr, hstructural, hparent⟩

namespace Setting

/-- **The visits of a commit**, by induction on their nesting. -/
theorem run_outcome (h : Setting blake3 root file content S D w₀) {rest : List (Visit Round)}
    (hnested : Nested (fun r : Round => r.path.components) Round.container (changedRounds S D)
      phase rest)
    (hprogress : Progress root file content (changedRounds S D) w₀ phase w) :
    RunOutcome root file content S D w₀ phase (runVisits root file rest) w := by
  induction hnested generalizing w with
  | nil hafter =>
    refine Or.inl ⟨w, _, rfl, hprogress, hafter, fun r hr hstructural hphase => ?_⟩
    rw [hafter r hr] at hphase
    by_cases hdest : r.destinationKind = some .directory <;>
      simp [Round.renamed, hstructural, hdest] at hphase
  | enter hr hbefore habove _ ih =>
    refine RunOutcome.visit hr (h.enter_outcome hprogress hr hbefore habove) (fun hok => ?_)
      (fun hok _ _ => ?_) fun w' => ih
    · rw [not_or] at hok
      exact ⟨by simp [Round.structural, hok.1], hok.2⟩
    · obtain hdest | hparent := hok
      · refine Or.inl ?_
        simp [Round.container, Round.renamed, hdest]
      · exact Or.inr hparent
  | @leave phase r rest hr hcontainer hinside habove hbelow _ ih =>
    refine RunOutcome.visit hr (h.leave_outcome hprogress hr hcontainer hinside habove hbelow)
      (fun hok => ?_) (fun hok hstructural hphase => ?_) fun w' => ih
    · rw [not_or] at hok
      exact ⟨by simp [Round.structural, hok.1], hok.2⟩
    · obtain hsource | hparent := hok
      · -- the name of a new directory was added when it was entered
        rw [hinside] at hphase
        by_cases hdest : r.destinationKind = some .directory
        · simp [Round.structural, hsource, hdest] at hstructural
        · simp [Round.renamed, hstructural, hdest] at hphase
      · exact Or.inr hparent

/-- **A commit** on a tree that the destination's index describes: it succeeds and all rounds are
done, and the owner could change every name that had to change; or it fails for want of a
permission to change one. -/
theorem commit_outcome (h : Setting blake3 root file content S D w₀) {pending : PendingCommit}
    (hpending : pending.changes = planned file S D) :
    RunOutcome root file content S D w₀ (fun _ => .before) (pending.commit root) w₀ := by
  have hyields := commitAll_yields root file
    (changedRounds_script h.source.increasing h.destination.increasing) 0 w₀
  have hplan : pending.changes = (operations (changedRounds S D) 0).map (withFile file) := by
    rw [hpending, planned, plan_stream, operations_filter]
    rfl
  rw [← hplan] at hyields
  have hcommit : (pending.commit root).run w₀ =
      (((commitAll pending.changes).run ⟨Committer.new root, w₀⟩).1,
        ((commitAll pending.changes).run ⟨Committer.new root, w₀⟩).2.world) := rfl
  obtain ⟨w', phase', hrun, hdone⟩ | ⟨e, w', hrun, hdenied⟩ :=
    h.run_outcome (nested_changedRounds h.source h.destination) h.progress
  · obtain ⟨c', hc'⟩ := hyields.1 w' hrun
    exact Or.inl ⟨w', phase', by rw [hcommit, hc'], hdone⟩
  · obtain ⟨s', hs'⟩ := hyields.2 e w' hrun
    exact Or.inr ⟨e, s'.world, by rw [hcommit, hs'], hdenied⟩

end Setting

end

end QuicSync
