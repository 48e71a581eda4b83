import QuicSync.Sync.Indexes

/-!
# The file system during a commit

`Progress` is the invariant of a commit: what is at every path, by how far the traversal is with
the round of the path.  One lemma says that replacing the entry of a round keeps it
(`Progress.step`).

* `Setting`: what a commit starts from.
* `Setting.reach` and `Setting.writableAt_iff`: when the traversal is inside the rounds above a
  round, resolution gets to its parent, and the parent may be written if and only if it is widened
  or was writable (`WritableParent`).
-/

namespace QuicSync

open Posix

/-! ### What a round leaves behind -/

/-- The inode that an upsert of the record installs. -/
def installed (content : RelativePath → Bytes) (a : IndexRecord) : Inode :=
  match a.metadata.kind with
  | .directory => ⟨.directory, a.metadata.mode &&& 0o7777, a.metadata.mtimeNs.val⟩
  | .regularFile => ⟨.file (content a.path), a.metadata.mode &&& 0o7777, a.metadata.mtimeNs.val⟩
  | .symlink => ⟨.symlink (a.symlinkTarget.getD []), 0o777, a.metadata.mtimeNs.val⟩

namespace Round

/-- The round adds or removes the name of its path: it is not a directory on both sides. -/
def structural (r : Round) : Bool :=
  r.sourceKind ≠ some .directory ∨ r.destinationKind ≠ some .directory

/-- The name has been added or removed: a directory of the destination goes when the round is
left, everything else when it is entered. -/
def renamed (r : Round) (stage : Stage) : Bool :=
  r.structural ∧ if r.destinationKind = some .directory then stage = .after else stage ≠ .before

/-- The entry at the path of a round, given what it was before the commit. -/
def Shows (content : RelativePath → Bytes) (r : Round) (initial : Option Inode) :
    Stage → Option Inode → Prop
  | .before, e => SameEntry initial e
  | .inside, e => if r.sourceKind = some .directory then
      ∃ i, e = some i ∧ i.IsDir ∧ ∀ a ∈ r.source, i.mode = widened a.metadata
    else SameEntry initial e
  | .after, e => e = r.source.map (installed content)

section

variable {content : RelativePath → Bytes} {r : Round} {initial e : Option Inode}

theorem shows_inside_directory (h : r.sourceKind = some .directory) :
    r.Shows content initial .inside e ↔
      ∃ i, e = some i ∧ i.IsDir ∧ ∀ a ∈ r.source, i.mode = widened a.metadata := by
  simp only [Shows, h, if_true]

theorem shows_inside_other (h : r.sourceKind ≠ some .directory) :
    r.Shows content initial .inside e ↔ SameEntry initial e := by
  simp only [Shows, h, if_false]

/-- What an unfinished round shows does not depend on the modification time of a directory. -/
theorem Shows.touched {i : Inode} (h : r.Shows content initial .inside (some i)) (hi : i.IsDir)
    (m : ℤ) : r.Shows content initial .inside (some { i with mtime := m }) := by
  by_cases hdir : r.sourceKind = some .directory
  · rw [shows_inside_directory hdir] at h ⊢
    obtain ⟨j, hj, hjdir, hmode⟩ := h
    cases hj
    exact ⟨_, rfl, hjdir, hmode⟩
  · rw [shows_inside_other hdir] at h ⊢
    exact h.trans (SameEntry.touched hi m)

end

end Round

section

variable (root : RootHandle) (file : RelativePath → StagedFile) (content : RelativePath → Bytes)
  (keys : List Round)

/-- Neither the path of a round nor in the directory for temporary files. -/
def Outside (q : Path) : Prop :=
  (∀ r ∈ keys, q ≠ root.at r.path) ∧ ¬ root.path ++ [stagingName] <+: q

/-- A name in the directory has been added or removed. -/
def Touched (phase : Round → Stage) (q : Path) : Prop :=
  ∃ r ∈ keys, (parentOf root r.path).directory = q ∧ r.renamed (phase r) = true

/-- The file system during a commit that started on `w₀`. -/
structure Progress (w₀ : World) (phase : Round → Stage) (w : World) : Prop where
  clock : w.clock = w₀.clock
  /-- The entries of rounds. -/
  entry : ∀ r ∈ keys, r.Shows content (w₀.tree.get (root.at r.path)) (phase r)
    (w.tree.get (root.at r.path))
  /-- Other entries are the same, but a directory is touched when its names change. -/
  other : ∀ q, Outside root keys q →
    ¬ Touched root keys phase q ∧ w.tree.get q = w₀.tree.get q ∨
    Touched root keys phase q ∧ ∃ n, w.tree.get q =
      (w₀.tree.get q).map fun i => { i with mtime := w₀.clock n }
  /-- Files that are not installed yet are there. -/
  staged : ∀ r ∈ keys, r.sourceKind = some .regularFile → phase r ≠ .after →
    Ready root (file r.path) (content r.path) w

variable {root file content keys}

theorem root_at_injective {p q : RelativePath} (h : root.at p = root.at q) : p = q :=
  RelativePath.components_injective (List.append_cancel_left h)

/-- A file stays ready while its directory and it are the same. -/
theorem Ready.of_same {f : StagedFile} {c : Bytes} {w w' : World} (h : Ready root f c w)
    (hdir : SameEntry (w.tree.get f.directory) (w'.tree.get f.directory))
    (hfile : w'.tree.get (f.directory ++ [f.name]) = w.tree.get (f.directory ++ [f.name])) :
    Ready root f c w' := by
  obtain ⟨i, hi, hidir, hsearch⟩ := h.enterable
  obtain ⟨j, hj, hwrite⟩ := h.writableAt
  obtain rfl : i = j := Option.some.inj (hi.symm.trans hj)
  rw [hi] at hdir
  obtain ⟨i', hi', hnode, hmode, -⟩ := SameEntry.some_iff.1 hdir
  refine ⟨h.directory, ⟨i', hi', ?_, ?_⟩, ⟨i', hi', ?_⟩, ?_⟩
  · unfold Inode.IsDir at hidir ⊢
    rw [hnode, hidir]
  · unfold Inode.Searchable at hsearch ⊢
    rw [hmode]
    exact hsearch
  · unfold Inode.Writable at hwrite ⊢
    rw [hmode]
    exact hwrite
  · rw [hfile]
    exact h.entry

/-- The names of staged files differ. -/
def Distinct (file : RelativePath → StagedFile) (keys : List Round) : Prop :=
  ∀ r ∈ keys, ∀ r' ∈ keys, r.sourceKind = some .regularFile → r'.sourceKind = some .regularFile →
    r.path ≠ r'.path → (file r.path).name ≠ (file r'.path).name

/-- The path of a round determines it. -/
def Separate (keys : List Round) : Prop := ∀ r ∈ keys, ∀ r' ∈ keys, r.path = r'.path → r = r'

theorem Touched.update_of_ne {phase : Round → Stage} {r : Round} {stage : Stage} {q : Path}
    (hq : q ≠ (parentOf root r.path).directory) :
    Touched root keys (Function.update phase r stage) q ↔ Touched root keys phase q := by
  unfold Touched
  refine exists_congr fun r' => and_congr_right fun _ => and_congr_right fun hparent => ?_
  have hne : r' ≠ r := by
    rintro rfl
    exact hq hparent.symm
  rw [Function.update_of_ne hne]

theorem Touched.update_of_eq {phase : Round → Stage} {r : Round} {stage : Stage} {q : Path}
    (h : r.renamed stage = r.renamed (phase r)) :
    Touched root keys (Function.update phase r stage) q ↔ Touched root keys phase q := by
  unfold Touched
  refine exists_congr fun r' => and_congr_right fun _ => and_congr_right fun _ => ?_
  by_cases hne : r' = r
  · rw [hne, Function.update_self, h]
  · rw [Function.update_of_ne hne]

/-- Entries that are not those of rounds are the same up to the times of directories. -/
theorem Progress.sameEntry {w₀ w : World} {phase : Round → Stage}
    (h : Progress root file content keys w₀ phase w) {q : Path} (hq : Outside root keys q)
    (hdir : w₀.tree.IsDir q) :
    SameEntry (w₀.tree.get q) (w.tree.get q) := by
  obtain ⟨-, hget⟩ | ⟨-, n, hget⟩ := h.other q hq
  · exact SameEntry.of_eq hget.symm
  · rw [hget]
    exact Tree.sameEntry_map_touch hdir

/-- What a visit does to the file system: the entry of its round is replaced. -/
structure Visited (root : RootHandle) (file : RelativePath → StagedFile)
    (content : RelativePath → Bytes) (w₀ : World) (r : Round) (stage stage' : Stage)
    (w w' : World) : Prop where
  parent : w.tree.IsDir (parentOf root r.path).directory
  replaces : ∃ own new, Replaces root r.path (r.renamed stage' && !r.renamed stage) own new w w' ∧
    r.Shows content (w₀.tree.get (root.at r.path)) stage' new ∧
    ∀ f ∈ own, f = file r.path ∧ f.directory = root.path ++ [stagingName] ∧
      r.sourceKind = some .regularFile ∧ stage' = .after
  mono : r.renamed stage = true → r.renamed stage' = true

section

variable {w₀ w w' : World} {phase : Round → Stage} {r k : Round} {stage : Stage}

/-- Other entries, outside the directory for temporary files, are not changed by a visit. -/
theorem Visited.get_of_ne (hvisit : Visited root file content w₀ r (phase r) stage w w') {q : Path}
    (hq : q ≠ root.at r.path) (hparent : q ≠ (parentOf root r.path).directory)
    (hout : ¬ root.path ++ [stagingName] <+: q) : w'.tree.get q = w.tree.get q := by
  obtain ⟨own, new, hrep, -, hown⟩ := hvisit.replaces
  refine hrep.other q hq hparent fun f hf => ?_
  obtain ⟨-, hdir, -⟩ := hown f hf
  refine ⟨fun heq => hout ?_, fun heq => hout ?_⟩
  · rw [heq, hdir]
  · rw [heq, hdir]
    exact List.prefix_append _ _

/-- The parent of an entry that is visited is inside, if it is the entry of a round. -/
theorem inside_of_parent (hk : k ∈ keys) (hr : r ∈ keys) (hseparate : Separate keys)
    (habove : ∀ a ∈ keys, Above (fun r : Round => r.path.components) a r → phase a = .inside)
    (hkr : k ≠ r) (hparent : root.at k.path = (parentOf root r.path).directory) :
    phase k = .inside := by
  have hcomponents : k.path.components = r.path.components.dropLast :=
    List.append_cancel_left hparent
  refine habove k hk ⟨?_, fun heq => hkr (hseparate k hk r hr ?_)⟩
  · simp only [hcomponents]
    exact List.dropLast_prefix _
  · exact RelativePath.components_injective heq

/-- A visit keeps the entries of rounds: its own is replaced, and its parent may be touched. -/
theorem Progress.step_entry (h : Progress root file content keys w₀ phase w) (hr : r ∈ keys)
    (hprot : ∀ k ∈ keys, Unprotected k.path) (hseparate : Separate keys)
    (habove : ∀ a ∈ keys, Above (fun r : Round => r.path.components) a r → phase a = .inside)
    (hvisit : Visited root file content w₀ r (phase r) stage w w') (hk : k ∈ keys) :
    k.Shows content (w₀.tree.get (root.at k.path)) (Function.update phase r stage k)
      (w'.tree.get (root.at k.path)) := by
  obtain ⟨own, new, hrep, hshows, -⟩ := hvisit.replaces
  by_cases hkr : k = r
  · subst hkr
    rw [Function.update_self, hrep.entry]
    exact hshows
  · rw [Function.update_of_ne hkr]
    have hentry := h.entry k hk
    have hne : root.at k.path ≠ root.at r.path := fun heq =>
      hkr (hseparate k hk r hr (root_at_injective heq))
    by_cases hparent : root.at k.path = (parentOf root r.path).directory
    · rw [inside_of_parent hk hr hseparate habove hkr hparent] at hentry ⊢
      obtain ⟨i, hi, hidir⟩ := hvisit.parent
      rw [hparent] at hentry ⊢
      rw [Option.mem_def.1 hi] at hentry
      cases htouch : r.renamed stage && !r.renamed (phase r) with
      | true =>
        obtain ⟨n, hn⟩ := hrep.touched htouch
        rw [hn, Option.mem_def.1 hi]
        exact hentry.touched hidir _
      | false =>
        rw [hrep.untouched htouch, Option.mem_def.1 hi]
        exact hentry
    · rw [hvisit.get_of_ne hne hparent (not_staging root (hprot k hk))]
      exact hentry

/-- A visit keeps what is said about other entries: a directory is touched when its names change. -/
theorem Progress.step_other (h : Progress root file content keys w₀ phase w) (hr : r ∈ keys)
    (hvisit : Visited root file content w₀ r (phase r) stage w w') {q : Path}
    (hq : Outside root keys q) :
    ¬ Touched root keys (Function.update phase r stage) q ∧ w'.tree.get q = w₀.tree.get q ∨
    Touched root keys (Function.update phase r stage) q ∧ ∃ n, w'.tree.get q =
      (w₀.tree.get q).map fun i => { i with mtime := w₀.clock n } := by
  obtain ⟨own, new, hrep, -, -⟩ := hvisit.replaces
  have hne : q ≠ root.at r.path := hq.1 r hr
  by_cases hparent : q = (parentOf root r.path).directory
  · cases htouch : r.renamed stage && !r.renamed (phase r) with
    | true =>
      have hnow : Touched root keys (Function.update phase r stage) q := by
        refine ⟨r, hr, hparent.symm, ?_⟩
        rw [Function.update_self]
        exact (Bool.and_eq_true_iff.1 htouch).1
      obtain ⟨n, hn⟩ := hrep.touched htouch
      rw [← hparent, h.clock] at hn
      refine Or.inr ⟨hnow, n, ?_⟩
      obtain ⟨-, hget⟩ | ⟨-, m, hget⟩ := h.other q hq
      · rw [hn, hget]
      · rw [hn, hget, Option.map_map]
        rfl
    | false =>
      have hsame : r.renamed stage = r.renamed (phase r) := by
        cases hs : r.renamed (phase r) with
        | true => exact hvisit.mono hs
        | false => simpa [hs] using htouch
      have hget := hrep.untouched htouch
      rw [← hparent] at hget
      rw [Touched.update_of_eq hsame, hget]
      exact h.other q hq
  · rw [Touched.update_of_ne hparent, hvisit.get_of_ne hne hparent hq.2]
    exact h.other q hq

/-- A visit keeps the files that are not installed yet. -/
theorem Progress.step_staged (h : Progress root file content keys w₀ phase w) (hr : r ∈ keys)
    (hprot : ∀ k ∈ keys, Unprotected k.path) (hseparate : Separate keys)
    (hdistinct : Distinct file keys) (hopen : phase r ≠ .after)
    (hvisit : Visited root file content w₀ r (phase r) stage w w') (hk : k ∈ keys)
    (hkind : k.sourceKind = some .regularFile) (hphase : Function.update phase r stage k ≠ .after) :
    Ready root (file k.path) (content k.path) w' := by
  obtain ⟨own, new, hrep, -, hown⟩ := hvisit.replaces
  have hready : Ready root (file k.path) (content k.path) w := by
    refine h.staged k hk hkind fun hafter => ?_
    by_cases hkr : k = r
    · exact hopen (hkr ▸ hafter)
    · rw [Function.update_of_ne hkr] at hphase
      exact hphase hafter
  have hat (l : List Bytes) : root.path ++ [stagingName] ++ l ≠ root.at r.path :=
    staging_ne_at (hprot r hr)
  have hparent (l : List Bytes) :
      root.path ++ [stagingName] ++ l ≠ (parentOf root r.path).directory :=
    staging_ne_parent (hprot r hr)
  have hdirectory := hready.directory
  refine hready.of_same ?_ ?_
  · cases hcase : own with
    | none =>
      refine SameEntry.of_eq (hrep.other _ ?_ ?_ (by simp [hcase])).symm
      · simpa [hdirectory] using hat []
      · simpa [hdirectory] using hparent []
    | some f =>
      have hsame := hrep.staging f hcase
      rwa [(hown f hcase).2.1, ← hdirectory] at hsame
  · refine hrep.other _ (hdirectory ▸ hat _) (hdirectory ▸ hparent _) fun f hf => ?_
    obtain ⟨rfl, hdir, hsource, rfl⟩ := hown f hf
    have hkr : k ≠ r := by
      rintro rfl
      exact hphase (Function.update_self ..)
    have hname := hdistinct k hk r hr hkind hsource fun heq => hkr (hseparate k hk r hr heq)
    rw [hdirectory, hdir]
    refine ⟨(Tree.ne_append_singleton _ _).symm, fun heq => hname ?_⟩
    simpa using heq

/-- **A visit keeps the invariant.** -/
theorem Progress.step (h : Progress root file content keys w₀ phase w) (hr : r ∈ keys)
    (hprot : ∀ k ∈ keys, Unprotected k.path) (hseparate : Separate keys)
    (hdistinct : Distinct file keys) (hopen : phase r ≠ .after)
    (habove : ∀ a ∈ keys, Above (fun r : Round => r.path.components) a r → phase a = .inside)
    (hvisit : Visited root file content w₀ r (phase r) stage w w') :
    Progress root file content keys w₀ (Function.update phase r stage) w' := by
  obtain ⟨own, new, hrep, -, -⟩ := hvisit.replaces
  exact ⟨hrep.clock.trans h.clock, fun k hk => h.step_entry hr hprot hseparate habove hvisit hk,
    fun q hq => h.step_other hr hvisit hq,
    fun k hk => h.step_staged hr hprot hseparate hdistinct hopen hvisit hk⟩

end

end

/-! ### The directories above a visit -/

/-- The owner may write the parent of the path when it comes to it: it is the root and may be
written, or it is upserted, or it is a directory of the destination that may be written. -/
def WritableParent (root : RootHandle) (S D : List IndexRecord) (t : Tree) (path : RelativePath) :
    Prop :=
  (path.components.dropLast = [] ∧ t.WritableAt root.path) ∨
    (∃ a ∈ S, a.path.components = path.components.dropLast ∧ a.metadata.kind = .directory ∧
      a ∉ D) ∨
    ∃ b ∈ D, b.path.components = path.components.dropLast ∧ b.metadata.kind = .directory ∧
      b.metadata.mode.toNat.testBit 7 = true

/-- What a commit starts from. -/
structure Setting (blake3 : Bytes → Digest) (root : RootHandle) (file : RelativePath → StagedFile)
    (content : RelativePath → Bytes) (S D : List IndexRecord) (w₀ : World) : Prop where
  source : Acceptable S
  destination : Acceptable D
  describes : Describes blake3 root D w₀.tree
  traversable : Traversable root D w₀.tree
  vacant : Vacant root S D w₀.tree
  distinct : Distinct file (changedRounds S D)
  ready : ∀ r ∈ changedRounds S D, r.sourceKind = some .regularFile →
    Ready root (file r.path) (content r.path) w₀

theorem testBit_widened (metadata : EntryMetadata) :
    (widened metadata).toNat.testBit 8 = true ∧ (widened metadata).toNat.testBit 7 = true ∧
      (widened metadata).toNat.testBit 6 = true := by
  have h700 : (448 : UInt32).toNat = 448 := rfl
  have h7777 : (4095 : UInt32).toNat = 4095 := rfl
  simp only [widened, UInt32.toNat_and, UInt32.toNat_or, Nat.testBit_and, Nat.testBit_or, h700,
    h7777]
  refine ⟨?_, ?_, ?_⟩
  all_goals
    rw [Bool.and_eq_true, Bool.or_eq_true]
    exact ⟨Or.inr (by decide), by decide⟩

/-- What an index record describes is of its kind. -/
theorem Recorded.isDir_iff {blake3 : Bytes → Digest} {b : IndexRecord} {i : Inode} (h : Recorded blake3 b i) :
    i.IsDir ↔ b.metadata.kind = .directory := by
  obtain ⟨-, -, hnode⟩ := h
  unfold Inode.IsDir
  cases hkind : b.metadata.kind with
  | directory => simpa [hkind] using hnode
  | regularFile =>
    rw [hkind] at hnode
    obtain ⟨c, hc, -⟩ := hnode
    simp [hc]
  | symlink =>
    rw [hkind] at hnode
    obtain ⟨t, ht, -⟩ := hnode
    simp [ht]

namespace Setting

variable {blake3 : Bytes → Digest} {root : RootHandle} {file : RelativePath → StagedFile}
  {content : RelativePath → Bytes} {S D : List IndexRecord} {w₀ w : World} {r : Round}
  {phase : Round → Stage}

theorem round_eq (h : Setting blake3 root file content S D w₀) (hr : r ∈ changedRounds S D) :
    r = roundAt S D r.path ∧ r.source ≠ r.destination :=
  (mem_changedRounds h.source.increasing h.destination.increasing).1 hr

theorem separate (h : Setting blake3 root file content S D w₀) : Separate (changedRounds S D) := by
  intro r hr r' hr' heq
  rw [(h.round_eq hr).1, (h.round_eq hr').1, heq]

theorem unprotected (h : Setting blake3 root file content S D w₀) :
    ∀ r ∈ changedRounds S D, Unprotected r.path := fun _ hr =>
  unprotected_of_mem h.source h.destination hr

theorem progress (h : Setting blake3 root file content S D w₀) :
    Progress root file content (changedRounds S D) w₀ (fun _ => .before) w₀ := by
  refine ⟨rfl, fun r _ => SameEntry.refl _, fun q _ => Or.inl ⟨?_, rfl⟩,
    fun r hr hkind _ => h.ready r hr hkind⟩
  rintro ⟨r, -, -, hrenamed⟩
  simp [Round.renamed] at hrenamed

/-- There is nothing at the path of a new entry. -/
theorem initial_none (h : Setting blake3 root file content S D w₀) (hr : r ∈ changedRounds S D)
    (hdest : r.destination = none) : w₀.tree.get (root.at r.path) = none := by
  obtain ⟨hround, hchanged⟩ := h.round_eq hr
  rw [hdest] at hchanged
  obtain ⟨a, ha⟩ := Option.ne_none_iff_exists'.1 hchanged
  obtain ⟨hmem, hpath⟩ := (source_eq_some_iff h.source.increasing hround).1 ha
  by_contra hsome
  obtain ⟨d, hd, hdpath⟩ := h.vacant.source a hmem (hpath ▸ hsome)
  have hdest' := (destination_eq_some_iff h.destination.increasing hround).2
    ⟨hd, hdpath.trans hpath⟩
  rw [hdest] at hdest'
  cases hdest'

/-- What is at the path of an indexed entry. -/
theorem initial_some (h : Setting blake3 root file content S D w₀) (hr : r = roundAt S D r.path)
    {b : IndexRecord} (hdest : r.destination = some b) :
    ∃ i, w₀.tree.get (root.at r.path) = some i ∧ Recorded blake3 b i ∧
      (b.metadata.kind = .directory → i.Readable ∧ i.Searchable) := by
  obtain ⟨hmem, hpath⟩ := (destination_eq_some_iff h.destination.increasing hr).1 hdest
  obtain ⟨i, hi, hrecorded⟩ := h.describes b hmem
  rw [hpath] at hi
  refine ⟨i, hi, hrecorded, fun hkind => ?_⟩
  obtain ⟨j, hj, -, hperm⟩ := h.traversable.2 b hmem hkind
  rw [hpath, hi] at hj
  cases hj
  exact hperm

/-- A directory of the destination above a visit that is not upserted. -/
theorem permissions_destination (h : Setting blake3 root file content S D w₀) {p : RelativePath}
    {b : IndexRecord} (hb : (roundAt S D p).destination = some b)
    (hkind : b.metadata.kind = .directory) {e : Option Inode}
    (hsame : SameEntry (w₀.tree.get (root.at p)) e)
    (hsource : ∀ a ∈ S, a.path = p → a.metadata.kind = .directory → a ∈ D) :
    ∃ i, e = some i ∧ i.IsDir ∧ i.Readable ∧ i.Searchable ∧
      (i.Writable ↔ (∃ a ∈ S, a.path = p ∧ a.metadata.kind = .directory ∧ a ∉ D) ∨
        ∃ b ∈ D, b.path = p ∧ b.metadata.kind = .directory ∧
          b.metadata.mode.toNat.testBit 7 = true) := by
  obtain ⟨i, hi, hrecorded, hperm⟩ := h.initial_some rfl hb
  obtain ⟨hread, hsearch⟩ := hperm hkind
  have hi' : w₀.tree.get (root.at p) = some i := hi
  rw [hi'] at hsame
  obtain ⟨j, hj, hjdir, hjread, hjsearch, hjwrite⟩ :=
    hsame.permissions (hrecorded.isDir_iff.2 hkind)
  refine ⟨j, hj, hjdir, hjread.2 hread, hjsearch.2 hsearch, ?_⟩
  rw [hjwrite]
  obtain ⟨hmem, hpath⟩ := (destination_eq_some_iff h.destination.increasing rfl).1 hb
  unfold Inode.Writable
  rw [hrecorded.1]
  constructor
  · intro hwrite
    exact Or.inr ⟨b, hmem, hpath, hkind, hwrite⟩
  · rintro (⟨a, ha, hapath, hakind, hout⟩ | ⟨b', hb', hbpath, -, hwrite⟩)
    · exact absurd (hsource a ha hapath hakind) hout
    · have hb'' := (destination_eq_some_iff (S := S) (r := roundAt S D p)
        h.destination.increasing rfl).2 ⟨hb', hbpath⟩
      rw [hb] at hb''
      cases hb''
      exact hwrite

/-- The directories above a visit may be read and searched, and written under the condition of
`WritableParent`. -/
theorem permissions_above (h : Setting blake3 root file content S D w₀)
    (hprogress : Progress root file content (changedRounds S D) w₀ phase w)
    (hr : r ∈ changedRounds S D)
    (habove : ∀ a ∈ changedRounds S D, Above (fun r : Round => r.path.components) a r →
      phase a = .inside)
    {p : RelativePath} (hp : p.components <+: r.path.components) (hne : p ≠ r.path) :
    ∃ i, w.tree.get (root.at p) = some i ∧ i.IsDir ∧ i.Readable ∧ i.Searchable ∧
      (i.Writable ↔ (∃ a ∈ S, a.path = p ∧ a.metadata.kind = .directory ∧ a ∉ D) ∨
        ∃ b ∈ D, b.path = p ∧ b.metadata.kind = .directory ∧
          b.metadata.mode.toNat.testBit 7 = true) := by
  have hincreasing := h.source.increasing
  have hincreasing' := h.destination.increasing
  have hdirectory := directory_above h.source h.destination hr hp hne
  by_cases hchanged : (roundAt S D p).source ≠ (roundAt S D p).destination
  · -- the round of the directory is inside
    have hmem : roundAt S D p ∈ changedRounds S D :=
      (mem_changedRounds hincreasing hincreasing').2 ⟨rfl, hchanged⟩
    have hinside : phase (roundAt S D p) = .inside :=
      habove _ hmem ⟨hp, fun heq => hne (RelativePath.components_injective heq)⟩
    have hentry := hprogress.entry _ hmem
    rw [hinside] at hentry
    by_cases hsource : (roundAt S D p).sourceKind = some .directory
    · rw [Round.shows_inside_directory hsource] at hentry
      obtain ⟨i, hi, hidir, hmode⟩ := hentry
      obtain ⟨a, ha, hapath, hkind⟩ := (sourceKind_eq_some_iff hincreasing rfl).1 hsource
      have hasource : (roundAt S D p).source = some a :=
        (source_eq_some_iff hincreasing rfl).2 ⟨ha, hapath⟩
      obtain ⟨hread, hwrite, hsearch⟩ := testBit_widened a.metadata
      rw [← hmode a hasource] at hread hwrite hsearch
      refine ⟨i, hi, hidir, hread, hsearch, fun _ => Or.inl ⟨a, ha, hapath, hkind, fun haD => ?_⟩,
        fun _ => hwrite⟩
      refine hchanged (hasource.trans ?_)
      exact ((destination_eq_some_iff hincreasing' rfl).2 ⟨haD, hapath⟩).symm
    · rw [Round.shows_inside_other hsource] at hentry
      obtain hsource' | ⟨hdest, -⟩ := hdirectory
      · exact absurd hsource' hsource
      · obtain ⟨b, hb, hkind⟩ := Option.map_eq_some_iff.1 hdest
        refine h.permissions_destination hb hkind hentry fun a ha hapath hakind => ?_
        exact absurd ((sourceKind_eq_some_iff hincreasing rfl).2 ⟨a, ha, hapath, hakind⟩) hsource
  · -- the directory is the same on both sides
    rw [not_not] at hchanged
    have hdest : (roundAt S D p).destinationKind = some .directory := by
      obtain hsource | ⟨hdest, -⟩ := hdirectory
      · unfold Round.sourceKind at hsource
        rwa [hchanged] at hsource
      · exact hdest
    obtain ⟨b, hb, hkind⟩ := Option.map_eq_some_iff.1 hdest
    have hout : Outside root (changedRounds S D) (root.at p) := by
      refine ⟨fun k hk heq => ?_, ?_⟩
      · obtain ⟨hround, hk'⟩ := h.round_eq hk
        rw [hround, ← root_at_injective heq] at hk'
        exact hk' hchanged
      · obtain ⟨hmem, hpath⟩ := (destination_eq_some_iff hincreasing' rfl).1 hb
        have hprot := h.destination.unprotected b hmem
        rw [hpath] at hprot
        exact not_staging root hprot
    obtain ⟨i, hi, hrecorded, -⟩ := h.initial_some rfl hb
    refine h.permissions_destination hb hkind (hprogress.sameEntry hout
      ⟨i, hi, hrecorded.isDir_iff.2 hkind⟩) fun a ha hapath hakind => ?_
    have ha' := (source_eq_some_iff (D := D) (r := roundAt S D p) hincreasing rfl).2 ⟨ha, hapath⟩
    rw [hchanged] at ha'
    exact ((destination_eq_some_iff hincreasing' rfl).1 ha').1

/-- The root may be passed, and written as at the start. -/
theorem permissions_root (h : Setting blake3 root file content S D w₀)
    (hprogress : Progress root file content (changedRounds S D) w₀ phase w) :
    Passable w.tree root.path ∧ (w.tree.WritableAt root.path ↔ w₀.tree.WritableAt root.path) := by
  have hout : Outside root (changedRounds S D) root.path := by
    refine ⟨fun k _ heq => k.path.ne_nil ?_, fun hpre => ?_⟩
    · exact List.append_right_eq_self.1 heq.symm
    · have hlen := hpre.length_le
      rw [List.length_append, List.length_singleton] at hlen
      omega
  obtain ⟨i, hi, hdir, hread, hsearch⟩ := h.traversable.1
  have hsame := hprogress.sameEntry hout ⟨i, hi, hdir⟩
  rw [hi] at hsame
  obtain ⟨j, hj, hjdir, hjread, hjsearch, hjwrite⟩ := hsame.permissions hdir
  refine ⟨⟨j, hj, hjdir, hjread.2 hread, hjsearch.2 hsearch⟩, ?_⟩
  unfold Tree.WritableAt
  rw [hi, hj]
  simpa using hjwrite

/-- Resolution gets to a visit. -/
theorem reach (h : Setting blake3 root file content S D w₀)
    (hprogress : Progress root file content (changedRounds S D) w₀ phase w)
    (hr : r ∈ changedRounds S D)
    (habove : ∀ a ∈ changedRounds S D, Above (fun r : Round => r.path.components) a r →
      phase a = .inside) : Reach root r.path w := by
  refine ⟨h.unprotected r hr, fun k hk => ?_⟩
  by_cases hzero : r.path.components.take k = []
  · rw [hzero, List.append_nil]
    exact (h.permissions_root hprogress).1
  · let p : RelativePath :=
      ⟨r.path.components.take k, hzero, fun c hc => r.path.legal c (List.mem_of_mem_take hc)⟩
    have hne : p ≠ r.path := by
      intro heq
      have hlen := congrArg (fun p => p.components.length) heq
      simp only [p, List.length_take] at hlen
      omega
    obtain ⟨i, hi, hdir, hread, hsearch, -⟩ :=
      h.permissions_above hprogress hr habove (p := p) (List.take_prefix _ _) hne
    exact ⟨i, hi, hdir, hread, hsearch⟩

/-- The parent of a visit may be written under the condition of `WritableParent`. -/
theorem writableAt_iff (h : Setting blake3 root file content S D w₀)
    (hprogress : Progress root file content (changedRounds S D) w₀ phase w)
    (hr : r ∈ changedRounds S D)
    (habove : ∀ a ∈ changedRounds S D, Above (fun r : Round => r.path.components) a r →
      phase a = .inside) :
    w.tree.WritableAt (parentOf root r.path).directory ↔
      WritableParent root S D w₀.tree r.path := by
  unfold WritableParent
  have hdirectory : (parentOf root r.path).directory = root.path ++ r.path.components.dropLast := rfl
  rw [hdirectory]
  by_cases hnil : r.path.components.dropLast = []
  · have hno {x : IndexRecord} : x.path.components ≠ [] := x.path.ne_nil
    rw [hnil, List.append_nil, (h.permissions_root hprogress).2]
    simp [hno]
  · let p : RelativePath := ⟨r.path.components.dropLast, hnil, fun c hc =>
      r.path.legal c (List.mem_of_mem_dropLast hc)⟩
    have hne : p ≠ r.path := by
      intro heq
      exact Tree.ne_dropLast r.path.ne_nil (congrArg RelativePath.components heq).symm
    obtain ⟨i, hi, -, -, -, hwrite⟩ :=
      h.permissions_above hprogress hr habove (p := p) (List.dropLast_prefix _) hne
    have hpath {x : IndexRecord} : x.path = p ↔ x.path.components = r.path.components.dropLast :=
      ⟨fun h => congrArg _ h, fun h => RelativePath.components_injective h⟩
    have hat : w.tree.WritableAt (root.path ++ r.path.components.dropLast) ↔ i.Writable := by
      unfold Tree.WritableAt
      rw [show w.tree.get (root.path ++ r.path.components.dropLast) = some i from hi]
      simp
    rw [hat, hwrite]
    simp only [hpath, hnil, false_and, false_or]

end Setting

end QuicSync
