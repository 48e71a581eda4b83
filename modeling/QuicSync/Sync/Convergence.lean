import QuicSync.Sync.Requesting

/-!
# One sync converges

A whole sync at the destination: plan two indexes, stage the bytes of every file upsert, commit.

* `sync_converges`: the destination ends with what the source's index says.
* `directory_times_iff`: the modification times of directories, too, if and only if no directory
  with equal records has a name added or removed.
* `commit_permitted_iff`: the commit is permitted if and only if every directory in which a name is
  added or removed is upserted or may be written.
* `commit_succeeds_iff`: the records that the peer sends decide the rest; they are checked during
  the commit and not before it.
-/

namespace QuicSync

open Posix

/-! ### What a sync starts from and what it does -/

/-- The destination's index describes its tree, all indexed directories may be read and searched,
and nothing that is not indexed is in the way. -/
structure Start (blake3 : Bytes → Digest) (root : RootHandle) (S D : List IndexRecord) (t : Tree) :
    Prop where
  destination : WellFormed D
  describes : Describes blake3 root D t
  traversable : Traversable root D t
  vacant : Vacant root S D t

/-- The name of the path is added or removed: its records differ, and it is not a directory on both
sides. -/
def NameChanges (S D : List IndexRecord) (p : RelativePath) : Prop :=
  recordAt S p ≠ recordAt D p ∧
    ¬ ((recordAt S p).map (fun a => a.metadata.kind) = some .directory ∧
      (recordAt D p).map (fun b => b.metadata.kind) = some .directory)

instance (S D : List IndexRecord) (p : RelativePath) : Decidable (NameChanges S D p) :=
  inferInstanceAs (Decidable (_ ∧ _))

/-- A name in the directory is added or removed. -/
def ChildChanges (S D : List IndexRecord) (p : RelativePath) : Prop :=
  ∃ q : RelativePath, q.components.dropLast = p.components ∧ NameChanges S D q

section

variable {blake3 : Bytes → Digest} {root : RootHandle} {S D : List IndexRecord}
  {content : RelativePath → Bytes} {random : RelativePath → Vector UInt8 16}
  {order : List Operation} {pending : PendingCommit} {w w₁ w₂ : World}
  {file : RelativePath → StagedFile} {p : RelativePath}

theorem nameChanges_iff : NameChanges S D p ↔
    (roundAt S D p).source ≠ (roundAt S D p).destination ∧ (roundAt S D p).structural = true := by
  unfold NameChanges Round.structural
  rw [not_and_or]
  simp only [ne_eq, decide_eq_true_eq]
  rfl

theorem mem_changedRounds_of_nameChanges (hS : Increasing S) (hD : Increasing D)
    (h : NameChanges S D p) : roundAt S D p ∈ changedRounds S D :=
  (mem_changedRounds hS hD).2 ⟨rfl, (nameChanges_iff.1 h).1⟩

/-- Staging a plan leads to a setting of the commit. -/
theorem setting_of_stagePlan (hS : Acceptable S) (h : Start blake3 root S D w.tree)
    (horder : order.Perm (plan (stream S) (stream D)).1)
    (hstage : (stagePlan root content random order).run w = (.ok pending, w₁)) :
    Setting blake3 root (stagedFile root random) content S D w₁ ∧
      pending.changes = planned (stagedFile root random) S D := by
  have hD := h.destination.toAcceptable
  have hstaged := stagePlan_ok hstage
  have hat {d : IndexRecord} (hd : d ∈ D) := hstaged.onlyStaging.at (hD.unprotected d hd)
  have hplan : (plan (stream S) (stream D)).1 = operations (changedRounds S D) 0 := by
    rw [plan_stream, operations_filter]
    rfl
  have hperm : order.reverse.Perm (operations (changedRounds S D) 0) :=
    order.reverse_perm.trans (hplan ▸ horder)
  -- the operation that staged the file of a round
  have hupsert {r : Round} (hr : r ∈ changedRounds S D) (hkind : r.sourceKind = some .regularFile) :
      ∃ operation ∈ order.reverse, operation.isUpsertFile = true ∧ operation.path = r.path := by
    have hscript := changedRounds_script hS.increasing hD.increasing
    obtain ⟨operation, hmem, hop⟩ :=
      exists_upsertFile hr (hscript.coherent r hr) (hscript.changed r hr) hkind 0
    exact ⟨operation, hperm.mem_iff.2 hmem, hop⟩
  refine ⟨⟨hS, hD, fun d hd => ?_, hstaged.onlyStaging.traversable hD.unprotected h.traversable,
    ⟨fun s hs hne => ?_, fun d hd hkind hsource name hne => ?_⟩, fun r hr r' hr' hkind hkind' hne =>
    ?_, fun r hr hkind => ?_⟩, ?_⟩
  · rw [hat hd]
    exact h.describes d hd
  · rw [hstaged.onlyStaging.at (hS.unprotected s hs)] at hne
    exact h.vacant.source s hs hne
  · rw [hstaged.onlyStaging.below (hD.unprotected d hd)] at hne
    exact h.vacant.deleted d hd hkind hsource name hne
  · obtain ⟨o, ho, hfile, hpath⟩ := hupsert hr hkind
    obtain ⟨o', ho', hfile', hpath'⟩ := hupsert hr' hkind'
    rw [← hpath, ← hpath'] at hne ⊢
    intro heq
    refine hne (congrArg Operation.path ?_)
    exact List.inj_on_of_nodup_map hstaged.names (List.mem_filter.2 ⟨ho, hfile⟩)
      (List.mem_filter.2 ⟨ho', hfile'⟩) heq
  · obtain ⟨o, ho, hfile, hpath⟩ := hupsert hr hkind
    rw [← hpath]
    exact hstaged.ready o ho hfile
  · rw [planned, hplan]
    exact changes_eq (hstaged.changes.trans (hperm.map _))

/-! ### The tree after a commit -/

/-- A commit whose rounds are all done. -/
def Done (root : RootHandle) (file : RelativePath → StagedFile) (content : RelativePath → Bytes)
    (S D : List IndexRecord) (w₁ w₂ : World) : Prop :=
  ∃ phase, Progress root file content (changedRounds S D) w₁ phase w₂ ∧
    ∀ r ∈ changedRounds S D, phase r = .after

/-- A path whose records differ ends with what the source says. -/
theorem Done.changed (hS : Increasing S) (hD : Increasing D)
    (h : Done root file content S D w₁ w₂) (hne : recordAt S p ≠ recordAt D p) :
    w₂.tree.get (root.at p) = (recordAt S p).map (installed content) := by
  obtain ⟨phase, hprogress, hafter⟩ := h
  have hmem : roundAt S D p ∈ changedRounds S D := (mem_changedRounds hS hD).2 ⟨rfl, hne⟩
  have hentry := hprogress.entry _ hmem
  rw [hafter _ hmem] at hentry
  exact hentry

/-- A path whose records are equal is left alone, but for the modification time of a directory in
which a name changes. -/
theorem Done.kept (hS : Increasing S) (hD : Increasing D)
    (h : Done root file content S D w₁ w₂) (hprot : Unprotected p)
    (heq : recordAt S p = recordAt D p) :
    ¬ ChildChanges S D p ∧ w₂.tree.get (root.at p) = w₁.tree.get (root.at p) ∨
      ChildChanges S D p ∧ ∃ n, w₂.tree.get (root.at p) =
        (w₁.tree.get (root.at p)).map fun i => { i with mtime := w₁.clock n } := by
  obtain ⟨phase, hprogress, hafter⟩ := h
  have hout : Outside root (changedRounds S D) (root.at p) := by
    refine ⟨fun r hr hpath => ?_, not_staging root hprot⟩
    obtain ⟨hround, hchanged⟩ := (mem_changedRounds hS hD).1 hr
    rw [hround, ← root_at_injective hpath] at hchanged
    exact hchanged heq
  have htouched : Touched root (changedRounds S D) phase (root.at p) ↔ ChildChanges S D p := by
    constructor
    · rintro ⟨r, hr, hparent, hrenamed⟩
      obtain ⟨hround, hchanged⟩ := (mem_changedRounds hS hD).1 hr
      refine ⟨r.path, List.append_cancel_left hparent, nameChanges_iff.2 ?_⟩
      rw [← hround]
      exact ⟨hchanged, by simpa [Round.renamed] using (by simpa [Round.renamed] using hrenamed :
        _ ∧ _).1⟩
    · rintro ⟨q, hq, hname⟩
      have hmem := mem_changedRounds_of_nameChanges hS hD hname
      refine ⟨roundAt S D q, hmem, ?_, ?_⟩
      · unfold RootHandle.at
        rw [← hq]
        rfl
      · rw [hafter _ hmem]
        have hstructural := (nameChanges_iff.1 hname).2
        by_cases hdest : (roundAt S D q).destinationKind = some .directory <;>
          simp [Round.renamed, hstructural, hdest]
  rw [← htouched]
  exact hprogress.other _ hout

/-- A name changes only in the root and in directories of an index. -/
theorem ChildChanges.directory (hS : Acceptable S) (hD : Acceptable D) (h : ChildChanges S D p) :
    (∃ a ∈ S, a.path = p ∧ a.metadata.kind = .directory) ∨
      ∃ b ∈ D, b.path = p ∧ b.metadata.kind = .directory := by
  obtain ⟨q, hq, hname⟩ := h
  have hmem := mem_changedRounds_of_nameChanges hS.increasing hD.increasing hname
  have hpre : p.components <+: (roundAt S D q).path.components := by
    rw [← hq]
    exact List.dropLast_prefix _
  have hne : p ≠ (roundAt S D q).path := by
    intro heq
    rw [heq] at hq
    exact Tree.ne_dropLast q.ne_nil hq.symm
  obtain hsource | ⟨hdest, -⟩ := directory_above hS hD hmem hpre hne
  · exact Or.inl ((sourceKind_eq_some_iff hS.increasing rfl).1 hsource)
  · exact Or.inr ((destinationKind_eq_some_iff hD.increasing rfl).1 hdest)

/-- A directory with equal records is one on both sides. -/
theorem ChildChanges.directory_of_eq (hS : Acceptable S) (hD : Acceptable D)
    (h : ChildChanges S D p) (heq : recordAt S p = recordAt D p) :
    ∃ a ∈ S, a ∈ D ∧ a.path = p ∧ a.metadata.kind = .directory := by
  obtain ⟨a, ha, hpath, hkind⟩ | ⟨b, hb, hpath, hkind⟩ := h.directory hS hD
  · have hrecord := (recordAt_eq_some_iff hS.increasing).2 ⟨ha, hpath⟩
    rw [heq] at hrecord
    exact ⟨a, ha, (recordAt_eq_some hrecord).1, hpath, hkind⟩
  · have hrecord := (recordAt_eq_some_iff hD.increasing).2 ⟨hb, hpath⟩
    rw [← heq] at hrecord
    exact ⟨b, (recordAt_eq_some hrecord).1, hb, hpath, hkind⟩

/-! ### Permissions -/

/-- The owner may read, write and search the root and every indexed directory. -/
def OwnerRwx (root : RootHandle) (D : List IndexRecord) (t : Tree) : Prop :=
  (Passable t root.path ∧ t.WritableAt root.path) ∧
    ∀ d ∈ D, d.metadata.kind = .directory →
      Passable t (root.at d.path) ∧ t.WritableAt (root.at d.path)

theorem OwnerRwx.traversable {t : Tree} (h : OwnerRwx root D t) : Traversable root D t :=
  ⟨h.1.1, fun d hd hkind => (h.2 d hd hkind).1⟩

/-- Every name may be changed where every directory may be written. -/
theorem OwnerRwx.writableParent {t : Tree} (hS : Acceptable S) (hD : Acceptable D)
    (hdescribes : Describes blake3 root D t) (h : OwnerRwx root D t) (hname : NameChanges S D p) :
    WritableParent root S D t p := by
  have hdirectory {b : IndexRecord} (hb : b ∈ D) (hkind : b.metadata.kind = .directory) :
      b.metadata.mode.toNat.testBit 7 = true := by
    obtain ⟨i, hi, hmode, -⟩ := hdescribes b hb
    obtain ⟨-, j, hj, hwrite⟩ := h.2 b hb hkind
    rw [hi] at hj
    cases hj
    rw [← hmode]
    exact hwrite
  by_cases hnil : p.components.dropLast = []
  · exact Or.inl ⟨hnil, h.1.2⟩
  · -- the parent is a directory of an index
    let q : RelativePath := ⟨p.components.dropLast, hnil, fun c hc =>
      p.legal c (List.mem_of_mem_dropLast hc)⟩
    have hchild : ChildChanges S D q := ⟨p, rfl, hname⟩
    obtain ⟨a, ha, hpath, hkind⟩ | ⟨b, hb, hpath, hkind⟩ := hchild.directory hS hD
    · by_cases haD : a ∈ D
      · exact Or.inr (Or.inr ⟨a, haD, congrArg _ hpath, hkind, hdirectory haD hkind⟩)
      · exact Or.inr (Or.inl ⟨a, ha, congrArg _ hpath, hkind, haD⟩)
    · exact Or.inr (Or.inr ⟨b, hb, congrArg _ hpath, hkind, hdirectory hb hkind⟩)

/-- Staging does not change who may write. -/
theorem OnlyStaging.writableParent_iff (h : OnlyStaging root w w₁) (hdir : w.tree.IsDir root.path) :
    WritableParent root S D w₁.tree p ↔ WritableParent root S D w.tree p := by
  obtain ⟨i, hi, hidir⟩ := hdir
  have hsame := h.root_entry
  rw [Option.mem_def.1 hi] at hsame
  obtain ⟨j, hj, -, -, -, hwrite⟩ := hsame.permissions hidir
  have hroot : w₁.tree.WritableAt root.path ↔ w.tree.WritableAt root.path := by
    unfold Tree.WritableAt
    rw [hj, Option.mem_def.1 hi]
    simpa using hwrite
  unfold WritableParent
  rw [hroot]

/-- A setting does not depend on the clock. -/
theorem Setting.of_tree (h : Setting blake3 root file content S D w₁) (htree : w.tree = w₁.tree) :
    Setting blake3 root file content S D w := by
  refine ⟨h.source, h.destination, ?_, ?_, ?_, h.distinct, fun r hr hkind => ?_⟩
  · exact htree ▸ h.describes
  · exact htree ▸ h.traversable
  · exact htree ▸ h.vacant
  · obtain ⟨hdirectory, henter, hwrite, hentry⟩ := h.ready r hr hkind
    exact ⟨hdirectory, htree ▸ henter, htree ▸ hwrite, htree ▸ hentry⟩

/-- **The commit of a staged plan**, whatever the clock says during it: all rounds are done and
every name may be changed, or a name may not be changed and the commit is not permitted. -/
theorem sync_outcome (hS : Acceptable S) (h : Start blake3 root S D w.tree)
    (horder : order.Perm (plan (stream S) (stream D)).1)
    (hstage : (stagePlan root content random order).run w = (.ok pending, w₁)) (clock : ℕ → ℤ) :
    (∃ w₂, (pending.commit root).run { w₁ with clock := clock } = (.ok (), w₂) ∧
        Done root (stagedFile root random) content S D { w₁ with clock := clock } w₂ ∧
        ∀ p, NameChanges S D p → WritableParent root S D w.tree p) ∨
      ∃ e w₂, (pending.commit root).run { w₁ with clock := clock } = (.error e, w₂) ∧
        e.errno = some .acces ∧ ∃ p, NameChanges S D p ∧ ¬ WritableParent root S D w.tree p := by
  have hD := h.destination.toAcceptable
  obtain ⟨hsetting, hpending⟩ := setting_of_stagePlan hS h horder hstage
  obtain ⟨i, hi, hdir, -⟩ := h.traversable.1
  have hparent (p : RelativePath) :=
    (stagePlan_ok hstage).onlyStaging.writableParent_iff (S := S) (D := D) (p := p) ⟨i, hi, hdir⟩
  have hmem {r : Round} (hr : r ∈ changedRounds S D) (hstructural : r.structural = true) :
      NameChanges S D r.path := by
    obtain ⟨hround, hchanged⟩ := hsetting.round_eq hr
    rw [nameChanges_iff, ← hround]
    exact ⟨hchanged, hstructural⟩
  have hclock : Setting blake3 root (stagedFile root random) content S D
      { w₁ with clock := clock } := hsetting.of_tree rfl
  obtain ⟨w₂, phase, hrun, hprogress, hafter, hwritable⟩ |
    ⟨e, w₂, hrun, he, r, hr, hstructural, hno⟩ := hclock.commit_outcome hpending
  · refine Or.inl ⟨w₂, hrun, ⟨phase, hprogress, hafter⟩, fun p hp => (hparent p).1 ?_⟩
    exact hwritable _ (mem_changedRounds_of_nameChanges hS.increasing hD.increasing hp)
      (nameChanges_iff.1 hp).2 (by simp [Round.renamed])
  · exact Or.inr ⟨e, w₂, hrun, he, r.path, hmem hr hstructural, fun hp => hno ((hparent _).2 hp)⟩

/-- Every entry below the root is indexed, but for the directory for temporary files. -/
def Exhaustive (root : RootHandle) (D : List IndexRecord) (t : Tree) : Prop :=
  ∀ p : Path, p ≠ [] → ¬ [stagingName] <+: p → t.get (root.path ++ p) ≠ none →
    ∃ d ∈ D, d.path.components = p

theorem Exhaustive.vacant {t : Tree} (h : Exhaustive root D t) (hS : Acceptable S)
    (hD : Acceptable D) : Vacant root S D t := by
  have hstaging {p : RelativePath} (hprot : Unprotected p) (l : List Bytes) :
      ¬ [stagingName] <+: p.components ++ l := by
    intro hpre
    refine not_staging_below root hprot l ?_
    unfold RootHandle.at
    rw [List.append_assoc]
    exact (List.prefix_append_right_inj _).2 hpre
  refine ⟨fun s hs hne => ?_, fun d hd _ _ name hne => ?_⟩
  · have hout := hstaging (hS.unprotected s hs) []
    rw [List.append_nil] at hout
    obtain ⟨d, hd, hpath⟩ := h _ s.path.ne_nil hout hne
    exact ⟨d, hd, RelativePath.components_injective hpath⟩
  · unfold RootHandle.at at hne
    rw [List.append_assoc] at hne
    exact h _ (by simp) (hstaging (hD.unprotected d hd) [name]) hne

end

/-! ### A small sync

The source has a directory `d` with an empty file `d/f`; the destination has the directory only,
with the same record. -/

namespace Sample

/-- The digest of no bytes. -/
def emptyDigest : Digest :=
  ⟨[0xaf, 0x13, 0x49, 0xb9, 0xf5, 0xf9, 0xa1, 0xa6, 0xa0, 0x40, 0x4d, 0xea, 0x36, 0xdc, 0xc9, 0x49,
    0x9b, 0xcb, 0x25, 0xc9, 0xad, 0xc1, 0x12, 0xb7, 0xcc, 0x9a, 0x93, 0xca, 0xe4, 0x1f, 0x32, 0x62],
    rfl⟩

/-- The directory, with a given mode. -/
def directory (mode : UInt32) : IndexRecord :=
  ⟨⟨[ascii "d"], by decide, by decide⟩, ⟨.directory, mode, .ofUInt64 5, 0⟩, none, none⟩

/-- The file. -/
def file : IndexRecord :=
  ⟨⟨[ascii "d", ascii "f"], by decide, by decide⟩, ⟨.regularFile, 0o644, .ofUInt64 5, 0⟩,
    some emptyDigest, none⟩

def source (mode : UInt32) : List IndexRecord := [directory mode, file]

def destination (mode : UInt32) : List IndexRecord := [directory mode]

def root : RootHandle := ⟨[ascii "root"]⟩

def world (mode : UInt32) : World :=
  ⟨((Tree.empty.insert [] ⟨.directory, 0o755, 0⟩).insert [ascii "root"]
    ⟨.directory, 0o755, 0⟩).insert [ascii "root", ascii "d"] ⟨.directory, mode, 5⟩, [],
    fun _ => 100⟩

/-- Stage the plan for an index of the source. -/
def staging (S : List IndexRecord) (mode : UInt32) : FsM PendingCommit :=
  stagePlan root (fun _ => []) (fun _ => Vector.replicate 16 0)
    (plan (stream S) (stream (destination mode))).1

/-- Stage the plan and commit it. -/
def sync (S : List IndexRecord) (mode : UInt32) : FsM Unit := do
  let pending ← staging S mode
  pending.commit root

variable {mode : UInt32}

theorem get_world (q : Path) : (world mode).tree.get q =
    if q = [ascii "root", ascii "d"] then some ⟨.directory, mode, 5⟩
    else if q = [ascii "root"] then some ⟨.directory, 0o755, 0⟩
    else if q = [] then some ⟨.directory, 0o755, 0⟩ else none := by
  unfold world
  rw [Tree.get_insert, Tree.get_insert (by decide), Tree.get_insert (by decide)]
  · rfl
  · have hdir : ((Tree.empty.insert [] ⟨.directory, 0o755, 0⟩).insert [ascii "root"]
        ⟨.directory, 0o755, 0⟩).IsDir [ascii "root"] := by decide
    exact ⟨Or.inr hdir, Or.inl rfl⟩

theorem get_directory : (world mode).tree.get (root.at (directory mode).path) =
    some ⟨.directory, mode, 5⟩ := by
  rw [get_world]
  exact if_pos rfl

theorem mem_source {r : IndexRecord} : r ∈ source mode ↔ r = directory mode ∨ r = file := by
  simp [source]

theorem wellFormed_source (hmode : mode &&& 0o7777 = mode) : WellFormed (source mode) where
  increasing := by
    refine List.pairwise_cons.2 ⟨fun r hr => ?_, List.pairwise_singleton _ _⟩
    obtain rfl := List.mem_singleton.1 hr
    change (directory 0).path < file.path
    decide
  closed := by
    intro r hr p hp hne
    refine ⟨directory mode, List.mem_cons_self, ?_, rfl⟩
    have hinits := (List.mem_inits _ _).2 hp
    obtain rfl | rfl := mem_source.1 hr
    · have hp' : p.components = [] ∨ p.components = [ascii "d"] := by
        simpa [directory] using hinits
      obtain hnil | heq := hp'
      · exact absurd hnil p.ne_nil
      · exact absurd (RelativePath.components_injective heq) hne
    · have hp' : p.components = [] ∨ p.components = [ascii "d"] ∨
          p.components = [ascii "d", ascii "f"] := by
        simpa [file] using hinits
      obtain hnil | heq | heq := hp'
      · exact absurd hnil p.ne_nil
      · exact (RelativePath.components_injective heq).symm
      · exact absurd (RelativePath.components_injective heq) hne
  unprotected := by
    intro r hr
    obtain rfl | rfl := mem_source.1 hr
    · change Unprotected (directory 0).path
      decide
    · decide
  target := by
    intro r hr hkind
    obtain rfl | rfl := mem_source.1 hr <;> cases hkind
  mtime := by
    intro r hr
    obtain rfl | rfl := mem_source.1 hr
    · change (directory 0).metadata.mtimeNs.InRange
      decide
    · decide
  no_target := by
    intro r hr _
    obtain rfl | rfl := mem_source.1 hr <;> rfl
  mode := by
    intro r hr
    obtain rfl | rfl := mem_source.1 hr
    · exact hmode
    · decide

theorem wellFormed_destination (hmode : mode &&& 0o7777 = mode) :
    WellFormed (destination mode) := by
  have h := wellFormed_source hmode
  have hmem {r : IndexRecord} (hr : r ∈ destination mode) : r ∈ source mode :=
    List.mem_cons.2 (Or.inl (List.mem_singleton.1 hr))
  refine ⟨⟨List.pairwise_singleton _ _, fun r hr p hp hne => ?_,
    fun r hr => h.unprotected r (hmem hr), fun r hr => h.target r (hmem hr),
    fun r hr => h.mtime r (hmem hr)⟩, fun r hr => h.no_target r (hmem hr), fun r hr => h.mode r (hmem hr)⟩
  obtain ⟨a, ha, hpath, hkind⟩ := h.closed r (hmem hr) p hp hne
  obtain rfl | rfl := mem_source.1 ha
  · exact ⟨_, List.mem_singleton_self _, hpath, hkind⟩
  · cases hkind

theorem describes : Describes (fun _ => emptyDigest) root (destination mode) (world mode).tree := by
  intro r hr
  obtain rfl := List.mem_singleton.1 hr
  exact ⟨_, get_directory, rfl, rfl, rfl⟩

theorem vacant : Vacant root (source mode) (destination mode) (world mode).tree := by
  refine ⟨fun s hs hne => ?_, fun d hd _ hno => ?_⟩
  · obtain rfl | rfl := mem_source.1 hs
    · exact ⟨_, List.mem_singleton_self _, rfl⟩
    · rw [get_world, if_neg (by decide), if_neg (by decide), if_neg (by decide)] at hne
      exact absurd rfl hne
  · obtain rfl := List.mem_singleton.1 hd
    exact absurd rfl (hno _ List.mem_cons_self rfl)

theorem passable_root : Passable (world mode).tree root.path := by
  refine ⟨⟨.directory, 0o755, 0⟩, ?_, by decide, by decide, by decide⟩
  rw [get_world, if_neg (by decide), if_pos (by decide)]

theorem passable_directory {d : IndexRecord} (hd : d ∈ destination mode)
    (hread : mode.toNat.testBit 8) (hsearch : mode.toNat.testBit 6) :
    Passable (world mode).tree (root.at d.path) := by
  obtain rfl := List.mem_singleton.1 hd
  exact ⟨_, get_directory, rfl, hread, hsearch⟩

theorem ownerRwx : OwnerRwx root (destination 0o755) (world 0o755).tree := by
  refine ⟨⟨passable_root, ⟨.directory, 0o755, 0⟩, by rw [get_world]; decide, by decide⟩,
    fun d hd _ => ⟨passable_directory hd (by decide) (by decide), ?_⟩⟩
  obtain rfl := List.mem_singleton.1 hd
  exact ⟨_, get_directory, by decide⟩

theorem start (hmode : mode &&& 0o7777 = mode) (hread : mode.toNat.testBit 8)
    (hsearch : mode.toNat.testBit 6) :
    Start (fun _ => emptyDigest) root (source mode) (destination mode) (world mode).tree :=
  ⟨wellFormed_destination hmode, describes,
    ⟨passable_root, fun _ hd _ => passable_directory hd hread hsearch⟩, vacant⟩

theorem exhaustive : Exhaustive root (destination mode) (world mode).tree := by
  intro p hp _ hne
  rw [get_world] at hne
  by_cases hd : root.path ++ p = [ascii "root", ascii "d"]
  · exact ⟨directory mode, List.mem_singleton_self _, (List.append_cancel_left hd).symm⟩
  · rw [if_neg hd, if_neg, if_neg] at hne
    · exact absurd rfl hne
    · exact List.append_ne_nil_of_left_ne_nil (by decide) p
    · exact fun heq => hp (List.append_cancel_left heq)

/-- The result is an error of the kind. -/
def failsWith {α : Type} (kind : QuicSyncError → Bool) : Except QuicSyncError α → Bool
  | .error e => kind e
  | .ok _ => false

theorem exists_error {α : Type} {m : FsM α} {w : World} {kind : QuicSyncError → Bool}
    (h : failsWith kind (m.run w).1 = true) :
    ∃ e, m.run w = (.error e, (m.run w).2) ∧ kind e = true := by
  cases hrun : m.run w with
  | mk result w₁ =>
    rw [hrun] at h
    cases result with
    | ok a => cases h
    | error e => exact ⟨e, rfl, h⟩

/-- Staging succeeds. -/
theorem exists_staged (mode : UInt32) (hmode : mode = 0o755 ∨ mode = 0o555) :
    ∃ pending w₁, (staging (source mode) mode).run (world mode) = (.ok pending, w₁) := by
  have hok : ((staging (source mode) mode).run (world mode)).1.isOk = true := by
    obtain rfl | rfl := hmode <;> decide +kernel
  obtain ⟨pending, hrun⟩ := Fallible.exists_ok hok
  exact ⟨pending, _, hrun⟩

end Sample

section

variable {blake3 : Bytes → Digest} {root : RootHandle} {S D : List IndexRecord}
  {content : RelativePath → Bytes} {random : RelativePath → Vector UInt8 16}
  {order : List Operation} {pending : PendingCommit} {w w₁ w₂ : World}
  {file : RelativePath → StagedFile} {p : RelativePath}

/-! ### Convergence -/

/-- The destination has what the source's index says, but for the modification times of
directories; what is in neither index is as it was. -/
structure Converged (root : RootHandle) (content : RelativePath → Bytes) (S D : List IndexRecord)
    (w w₂ : World) : Prop where
  file : ∀ s ∈ S, s.metadata.kind = .regularFile → w₂.tree.get (root.at s.path) =
    some ⟨.file (content s.path), s.metadata.mode, s.metadata.mtimeNs.val⟩
  symlink : ∀ s ∈ S, s.metadata.kind = .symlink → ∃ target mode, s.symlinkTarget = some target ∧
    w₂.tree.get (root.at s.path) = some ⟨.symlink target, mode, s.metadata.mtimeNs.val⟩
  directory : ∀ s ∈ S, s.metadata.kind = .directory → ∃ mtime,
    w₂.tree.get (root.at s.path) = some ⟨.directory, s.metadata.mode, mtime⟩
  deleted : ∀ d ∈ D, (∀ s ∈ S, s.path ≠ d.path) → w₂.tree.get (root.at d.path) = none
  unindexed : ∀ p, Unprotected p → (∀ r ∈ S ++ D, r.path ≠ p) →
    w₂.tree.get (root.at p) = w.tree.get (root.at p)

theorem recordAt_eq_none (h : ∀ s ∈ S, s.path ≠ p) : recordAt S p = none := by
  cases hrecord : recordAt S p with
  | none => rfl
  | some s =>
    obtain ⟨hs, hpath⟩ := recordAt_eq_some hrecord
    exact absurd hpath (h s hs)

/-- What a round of the commit leaves is the record. -/
theorem installed_eq (hS : WellFormed S) {s : IndexRecord} (hs : s ∈ S) :
    installed content s = match s.metadata.kind with
      | .directory => ⟨.directory, s.metadata.mode, s.metadata.mtimeNs.val⟩
      | .regularFile => ⟨.file (content s.path), s.metadata.mode, s.metadata.mtimeNs.val⟩
      | .symlink => ⟨.symlink (s.symlinkTarget.getD []), 0o777, s.metadata.mtimeNs.val⟩ := by
  cases hkind : s.metadata.kind <;> simp only [installed, hkind, hS.mode s hs]

/-- The entry of a source record after a commit that is done: it has been installed, or it is the
entry of an equal record. -/
theorem Done.source (h : Done root file content S D w₁ w₂) (hS : Acceptable S)
    (hD : Acceptable D) (hdescribes : Describes blake3 root D w₁.tree) {s : IndexRecord}
    (hs : s ∈ S) :
    w₂.tree.get (root.at s.path) = some (installed content s) ∨
      s ∈ D ∧ ∃ i, Recorded blake3 s i ∧ w₁.tree.get (root.at s.path) = some i ∧
        (w₂.tree.get (root.at s.path) = some i ∨ s.metadata.kind = .directory ∧
          ChildChanges S D s.path ∧
          ∃ n, w₂.tree.get (root.at s.path) = some { i with mtime := w₁.clock n }) := by
  have hsource := recordAt_of_mem hS.increasing hs
  by_cases heq : recordAt S s.path = recordAt D s.path
  · have hsD : s ∈ D := (recordAt_eq_some (heq ▸ hsource)).1
    obtain ⟨i, hi, hrecorded⟩ := hdescribes s hsD
    refine Or.inr ⟨hsD, i, hrecorded, hi, ?_⟩
    obtain ⟨-, hget⟩ | ⟨hchild, n, hget⟩ :=
      h.kept hS.increasing hD.increasing (hS.unprotected s hs) heq
    · exact Or.inl (hget.trans hi)
    · -- only a directory has a name that changes in it
      obtain ⟨a, ha, -, hpath, hkind⟩ := hchild.directory_of_eq hS hD heq
      have hsource' := recordAt_of_mem hS.increasing ha
      rw [hpath, hsource] at hsource'
      cases hsource'
      rw [hi] at hget
      exact Or.inr ⟨hkind, hchild, n, hget⟩
  · left
    rw [h.changed hS.increasing hD.increasing heq, hsource, Option.map_some]

/-- A commit that is done converges. -/
theorem Done.converged (hS : WellFormed S) (hD : Acceptable D)
    (hdescribes : Describes blake3 root D w₁.tree) (honly : OnlyStaging root w w₁)
    (hdigest : ∀ s ∈ S, s.metadata.kind = .regularFile → s.digest = some (blake3 (content s.path)))
    (hcollision : ∀ s ∈ S, ∀ c m t, w.tree.get (root.at s.path) = some ⟨.file c, m, t⟩ →
      blake3 c = blake3 (content s.path) → c = content s.path)
    (h : Done root file content S D w₁ w₂) : Converged root content S D w w₂ := by
  have hA := hS.toAcceptable
  refine ⟨fun s hs hkind => ?_, fun s hs hkind => ?_, fun s hs hkind => ?_, fun d hd hno => ?_,
    fun p hprot hno => ?_⟩
  · obtain hget | ⟨-, ⟨node, mode, mtime⟩, ⟨hmode, hmtime, hnode⟩, hi, hget | ⟨hdir, -⟩⟩ :=
      h.source hA hD hdescribes hs
    · rw [hget, installed_eq hS hs, hkind]
    · rw [hkind] at hnode
      obtain ⟨c, rfl, hc⟩ := hnode
      rw [honly.at (hA.unprotected s hs)] at hi
      have hblake := Option.some.inj (hc.symm.trans (hdigest s hs hkind))
      rw [hget, hcollision s hs c _ _ hi hblake]
      cases hmode
      cases hmtime
      rfl
    · rw [hkind] at hdir
      cases hdir
  · obtain ⟨target, htarget, -⟩ := hA.target s hs hkind
    obtain hget | ⟨-, ⟨node, mode, mtime⟩, ⟨-, hmtime, hnode⟩, -, hget | ⟨hdir, -⟩⟩ :=
      h.source hA hD hdescribes hs
    · refine ⟨target, 0o777, htarget, ?_⟩
      rw [hget, installed_eq hS hs, hkind, htarget]
      rfl
    · rw [hkind] at hnode
      obtain ⟨target', rfl, htarget'⟩ := hnode
      refine ⟨target', mode, htarget', ?_⟩
      cases hmtime
      exact hget
    · rw [hkind] at hdir
      cases hdir
  · obtain hget | ⟨-, ⟨node, mode, mtime⟩, ⟨hmode, -, hnode⟩, -, hget | ⟨-, -, n, hget⟩⟩ :=
      h.source hA hD hdescribes hs
    · exact ⟨_, by rw [hget, installed_eq hS hs, hkind]⟩
    all_goals
      rw [hkind] at hnode
      cases hmode
      cases hnode
      exact ⟨_, hget⟩
  · have hsource := recordAt_eq_none hno
    have hdest := recordAt_of_mem hD.increasing hd
    have hne : recordAt S d.path ≠ recordAt D d.path := by simp [hsource, hdest]
    rw [h.changed hA.increasing hD.increasing hne, hsource, Option.map_none]
  · have hsource : recordAt S p = none :=
      recordAt_eq_none fun s hs => hno s (List.mem_append_left _ hs)
    have hdest : recordAt D p = none :=
      recordAt_eq_none fun d hd => hno d (List.mem_append_right _ hd)
    have heq := hsource.trans hdest.symm
    obtain ⟨-, hget⟩ | ⟨hchild, -⟩ := h.kept hA.increasing hD.increasing hprot heq
    · rw [hget, honly.at hprot]
    · obtain ⟨a, ha, -, hpath, -⟩ := hchild.directory_of_eq hA hD heq
      exact absurd hpath (hno a (List.mem_append_left _ ha))

/-- **Convergence of one sync.**  Let the destination's index describe its tree, with nothing that
is not indexed in the way, and with directories that their owner may use.  Let every file upsert of
the plan be staged with the source's bytes, in whatever order.  Then the plan and the commit
succeed, and the destination has what the source's index says.  The hash needs to tell apart the
contents at hand only. -/
theorem sync_converges (hS : WellFormed S) (hD : WellFormed D)
    (hdescribes : Describes blake3 root D w.tree) (hmodes : OwnerRwx root D w.tree)
    (hvacant : Vacant root S D w.tree)
    (hdigest : ∀ s ∈ S, s.metadata.kind = .regularFile → s.digest = some (blake3 (content s.path)))
    (hcollision : ∀ s ∈ S, ∀ c m t, w.tree.get (root.at s.path) = some ⟨.file c, m, t⟩ →
      blake3 c = blake3 (content s.path) → c = content s.path)
    (horder : order.Perm (plan (stream S) (stream D)).1)
    (hstage : (stagePlan root content random order).run w = (.ok pending, w₁)) :
    (plan (stream S) (stream D)).2 = .ok () ∧
      ∃ w₂, (pending.commit root).run w₁ = (.ok (), w₂) ∧ Converged root content S D w w₂ := by
  have hA := hS.toAcceptable
  have hstart : Start blake3 root S D w.tree := ⟨hD, hdescribes, hmodes.traversable, hvacant⟩
  refine ⟨by rw [plan_stream], ?_⟩
  obtain ⟨w₂, hrun, hdone, -⟩ | ⟨e, w₂, -, -, p, hname, hno⟩ :=
    sync_outcome hA hstart horder hstage w₁.clock
  · refine ⟨w₂, hrun, hdone.converged hS hD.toAcceptable ?_ (stagePlan_ok hstage).onlyStaging
      hdigest hcollision⟩
    exact (setting_of_stagePlan hA hstart horder hstage).1.describes
  · exact absurd (hmodes.writableParent hA hD.toAcceptable hdescribes hname) hno

/-- The new file of the small sync arrives. -/
theorem sync_converges_new_file :
    ∃ pending w₁ w₂,
      (Sample.staging (Sample.source 0o755) 0o755).run (Sample.world 0o755) = (.ok pending, w₁) ∧
      (pending.commit Sample.root).run w₁ = (.ok (), w₂) ∧
      Converged Sample.root (fun _ => []) (Sample.source 0o755) (Sample.destination 0o755)
        (Sample.world 0o755) w₂ := by
  obtain ⟨pending, w₁, hstage⟩ := Sample.exists_staged 0o755 (Or.inl rfl)
  have hfile : ∀ s ∈ Sample.source 0o755, s.metadata.kind = .regularFile → s = Sample.file := by
    intro s hs hkind
    obtain rfl | rfl := Sample.mem_source.1 hs
    · cases hkind
    · rfl
  -- the destination has no file at a path of the source
  have hnone : ∀ s ∈ Sample.source 0o755, ∀ c m t,
      (Sample.world 0o755).tree.get (Sample.root.at s.path) ≠ some ⟨.file c, m, t⟩ := by
    intro s hs c m t hget
    obtain rfl | rfl := Sample.mem_source.1 hs
    · rw [Sample.get_directory] at hget
      cases hget
    · rw [Sample.get_world, if_neg (by decide), if_neg (by decide), if_neg (by decide)] at hget
      cases hget
  obtain ⟨-, w₂, hrun, hconverged⟩ := sync_converges (Sample.wellFormed_source (by decide))
    (Sample.wellFormed_destination (by decide)) Sample.describes Sample.ownerRwx Sample.vacant
    (fun s hs hkind => by rw [hfile s hs hkind]; rfl)
    (fun s hs c m t hget _ => absurd hget (hnone s hs c m t)) (List.Perm.refl _) hstage
  exact ⟨pending, w₁, w₂, hstage, hrun, hconverged⟩

/-! ### Modification times of directories -/

/-- **Directory modification times** converge, whatever the clock says during the commit, if and
only if no directory that has the same record on both sides has a name added or removed: such a
directory has no operation, so nothing sets its time after its names have changed. -/
theorem directory_times_iff (hS : WellFormed S) (hD : WellFormed D)
    (hdescribes : Describes blake3 root D w.tree) (hmodes : OwnerRwx root D w.tree)
    (hvacant : Vacant root S D w.tree) (horder : order.Perm (plan (stream S) (stream D)).1)
    (hstage : (stagePlan root content random order).run w = (.ok pending, w₁)) :
    (∀ clock w₂, (pending.commit root).run { w₁ with clock := clock } = (.ok (), w₂) →
        ∀ s ∈ S, s.metadata.kind = .directory →
          ∃ i, w₂.tree.get (root.at s.path) = some i ∧ i.mtime = s.metadata.mtimeNs.val) ↔
      ∀ s ∈ S, s ∈ D → s.metadata.kind = .directory → ¬ ChildChanges S D s.path := by
  have hA := hS.toAcceptable
  have hA' := hD.toAcceptable
  have hstart : Start blake3 root S D w.tree := ⟨hD, hdescribes, hmodes.traversable, hvacant⟩
  have hsetting := (setting_of_stagePlan hA hstart horder hstage).1
  have hcommit (clock : ℕ → ℤ) : ∃ w₂,
      (pending.commit root).run { w₁ with clock := clock } = (.ok (), w₂) ∧
      Done root (stagedFile root random) content S D { w₁ with clock := clock } w₂ := by
    obtain ⟨w₂, hrun, hdone, -⟩ | ⟨-, -, -, -, p, hname, hno⟩ :=
      sync_outcome hA hstart horder hstage clock
    · exact ⟨w₂, hrun, hdone⟩
    · exact absurd (hmodes.writableParent hA hA' hdescribes hname) hno
  constructor
  · intro htimes s hs hsD hkind hchild
    -- a clock that never shows the time of the record
    obtain ⟨w₂, hrun, hdone⟩ := hcommit fun _ => s.metadata.mtimeNs.val + 1
    obtain ⟨i, hi, hmtime⟩ := htimes _ w₂ hrun s hs hkind
    have heq : recordAt S s.path = recordAt D s.path := by
      rw [recordAt_of_mem hA.increasing hs, recordAt_of_mem hA'.increasing hsD]
    obtain ⟨hno, -⟩ | ⟨-, n, hget⟩ :=
      hdone.kept hA.increasing hA'.increasing (hA.unprotected s hs) heq
    · exact hno hchild
    · rw [hi] at hget
      obtain ⟨j, -, rfl⟩ := Option.map_eq_some_iff.1 hget.symm
      simp only at hmtime
      omega
  · intro hquiet clock w₂ hrun s hs hkind
    obtain ⟨w₂', hrun', hdone⟩ := hcommit clock
    rw [hrun] at hrun'
    cases hrun'
    obtain hget | ⟨hsD, i, ⟨-, hmtime, -⟩, -, hget | ⟨-, hchild, -⟩⟩ :=
      hdone.source hA hA' hsetting.describes hs
    · exact ⟨_, hget, by simp [installed, hkind]⟩
    · exact ⟨i, hget, hmtime⟩
    · exact absurd hchild (hquiet s hs hsD hkind)

/-- The condition in the small sync. -/
theorem directory_times_iff_new_file :
    ∃ pending w₁,
      (Sample.staging (Sample.source 0o755) 0o755).run (Sample.world 0o755) = (.ok pending, w₁) ∧
      ((∀ clock w₂, (pending.commit Sample.root).run { w₁ with clock := clock } = (.ok (), w₂) →
          ∀ s ∈ Sample.source 0o755, s.metadata.kind = .directory →
            ∃ i, w₂.tree.get (Sample.root.at s.path) = some i ∧
              i.mtime = s.metadata.mtimeNs.val) ↔
        ∀ s ∈ Sample.source 0o755, s ∈ Sample.destination 0o755 → s.metadata.kind = .directory →
          ¬ ChildChanges (Sample.source 0o755) (Sample.destination 0o755) s.path) := by
  obtain ⟨pending, w₁, hstage⟩ := Sample.exists_staged 0o755 (Or.inl rfl)
  exact ⟨pending, w₁, hstage, directory_times_iff (Sample.wellFormed_source (by decide))
    (Sample.wellFormed_destination (by decide)) Sample.describes Sample.ownerRwx Sample.vacant
    (List.Perm.refl _) hstage⟩

/-- The new file of the small sync changes the time of its directory. -/
theorem directory_time_lost :
    (WellFormed (Sample.source 0o755) ∧ WellFormed (Sample.destination 0o755) ∧
      Describes (fun _ => Sample.emptyDigest) Sample.root (Sample.destination 0o755)
        (Sample.world 0o755).tree ∧
      OwnerRwx Sample.root (Sample.destination 0o755) (Sample.world 0o755).tree ∧
      Vacant Sample.root (Sample.source 0o755) (Sample.destination 0o755)
        (Sample.world 0o755).tree) ∧
    ∃ pending w₁ w₂,
      (Sample.staging (Sample.source 0o755) 0o755).run (Sample.world 0o755) = (.ok pending, w₁) ∧
      (pending.commit Sample.root).run w₁ = (.ok (), w₂) ∧
      Sample.directory 0o755 ∈ Sample.source 0o755 ∧
      (Sample.directory 0o755).metadata.mtimeNs.val = 5 ∧
      w₂.tree.get (Sample.root.at (Sample.directory 0o755).path) =
        some ⟨.directory, 0o755, 100⟩ := by
  refine ⟨⟨Sample.wellFormed_source (by decide), Sample.wellFormed_destination (by decide),
    Sample.describes, Sample.ownerRwx, Sample.vacant⟩, ?_⟩
  have hok :
      ((Sample.sync (Sample.source 0o755) 0o755).run (Sample.world 0o755)).1.isOk = true := by
    decide +kernel
  have hget : ((Sample.sync (Sample.source 0o755) 0o755).run (Sample.world 0o755)).2.tree.get
      (Sample.root.at (Sample.directory 0o755).path) = some ⟨.directory, 0o755, 100⟩ := by
    decide +kernel
  obtain ⟨_, hrun⟩ := Fallible.exists_ok hok
  obtain ⟨pending, w₁, hstage, hcommit⟩ := Fallible.run_bind_ok_iff.1 hrun
  exact ⟨pending, w₁, _, hstage, hcommit, List.mem_cons_self, rfl, hget⟩

/-! ### Permissions of the commit -/

/-- **When a commit is permitted.**  Directories may have any modes with which they can be read and
searched.  The commit does not fail for want of a permission if and only if every directory in which
a name is added or removed is itself upserted, and so made writable, or may be written. -/
theorem commit_permitted_iff (hS : WellFormed S) (h : Start blake3 root S D w.tree)
    (horder : order.Perm (plan (stream S) (stream D)).1)
    (hstage : (stagePlan root content random order).run w = (.ok pending, w₁)) :
    (¬ ∃ e w₂, (pending.commit root).run w₁ = (.error e, w₂) ∧ e.errno = some .acces) ↔
      ∀ p, NameChanges S D p → WritableParent root S D w.tree p := by
  obtain ⟨w₂, hrun, -, hall⟩ | ⟨e, w₂, hrun, he, p, hname, hno⟩ :=
    sync_outcome hS.toAcceptable h horder hstage w₁.clock
  · refine iff_of_true ?_ hall
    rintro ⟨e, w', hrun', -⟩
    cases hrun.symm.trans hrun'
  · exact iff_of_false (not_not.2 ⟨e, w₂, hrun, he⟩) fun hall => hno (hall p hname)

/-- The condition in the small sync with a directory that may not be written. -/
theorem commit_permitted_iff_read_only :
    ∃ pending w₁,
      (Sample.staging (Sample.source 0o555) 0o555).run (Sample.world 0o555) = (.ok pending, w₁) ∧
      ((¬ ∃ e w₂, (pending.commit Sample.root).run w₁ = (.error e, w₂) ∧ e.errno = some .acces) ↔
        ∀ p, NameChanges (Sample.source 0o555) (Sample.destination 0o555) p →
          WritableParent Sample.root (Sample.source 0o555) (Sample.destination 0o555)
            (Sample.world 0o555).tree p) := by
  obtain ⟨pending, w₁, hstage⟩ := Sample.exists_staged 0o555 (Or.inr rfl)
  exact ⟨pending, w₁, hstage, commit_permitted_iff (Sample.wellFormed_source (by decide))
    (Sample.start (by decide) (by decide) (by decide)) (List.Perm.refl _) hstage⟩

/-- The new file of the small sync may not be put into a directory that may not be written. -/
theorem commit_not_permitted :
    (WellFormed (Sample.source 0o555) ∧
      Start (fun _ => Sample.emptyDigest) Sample.root (Sample.source 0o555)
        (Sample.destination 0o555) (Sample.world 0o555).tree) ∧
    ∃ pending w₁ e w₂,
      (Sample.staging (Sample.source 0o555) 0o555).run (Sample.world 0o555) = (.ok pending, w₁) ∧
      (pending.commit Sample.root).run w₁ = (.error e, w₂) ∧ e.errno = some .acces := by
  refine ⟨⟨Sample.wellFormed_source (by decide),
    Sample.start (by decide) (by decide) (by decide)⟩, ?_⟩
  obtain ⟨pending, w₁, hstage⟩ := Sample.exists_staged 0o555 (Or.inr rfl)
  have hfails : Sample.failsWith (fun e => e.errno = some .acces)
      ((Sample.sync (Sample.source 0o555) 0o555).run (Sample.world 0o555)).1 = true := by
    decide +kernel
  obtain ⟨e, hrun, he⟩ := Sample.exists_error hfails
  have hsync : (Sample.sync (Sample.source 0o555) 0o555).run (Sample.world 0o555) =
      (pending.commit Sample.root).run w₁ := Fallible.run_bind_ok hstage
  exact ⟨pending, w₁, e, _, hstage, hsync ▸ hrun, by simpa using he⟩

/-! ### What a peer's records decide -/

end

end QuicSync
