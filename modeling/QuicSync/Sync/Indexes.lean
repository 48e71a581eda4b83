import QuicSync.Sync.Outcomes
import QuicSync.Sync.Replay

/-!
# Indexes and the trees they describe

* `Acceptable`: the checks on an index that the commit stage makes, or relies on.  `WellFormed`: an
  acceptable index with records as a scan builds them.
* `Describes`: an index describes the entries of a tree at its paths.  Entries at other paths are
  not indexed; `Vacant` says where there are none.
* `changedRounds`: the rounds of two indexes for which something has to be done; they are a
  `Script`, and only a container has others below it.
-/

namespace QuicSync

open Posix

/-- An index that can be committed: in canonical order, with the parent directories of every
record, without protected components, with a target without NUL bytes for every link, and with
modification times that the system can represent. -/
structure Acceptable (S : List IndexRecord) : Prop where
  increasing : Increasing S
  closed : ∀ r ∈ S, ∀ p : RelativePath, p.components <+: r.path.components → p ≠ r.path →
    ∃ a ∈ S, a.path = p ∧ a.metadata.kind = .directory
  unprotected : ∀ r ∈ S, Unprotected r.path
  target : ∀ r ∈ S, r.metadata.kind = .symlink → ∃ t, r.symlinkTarget = some t ∧ 0 ∉ t
  mtime : ∀ r ∈ S, r.metadata.mtimeNs.InRange

/-- An acceptable index whose records are as a scan builds them. -/
structure WellFormed (S : List IndexRecord) : Prop extends Acceptable S where
  no_target : ∀ r ∈ S, r.metadata.kind ≠ .symlink → r.symlinkTarget = none
  mode : ∀ r ∈ S, r.metadata.mode &&& 0o7777 = r.metadata.mode

/-- A scan records the inode so. -/
def Recorded (blake3 : Bytes → Digest) (r : IndexRecord) (i : Inode) : Prop :=
  i.mode = r.metadata.mode ∧ i.mtime = r.metadata.mtimeNs.val ∧
    match r.metadata.kind with
    | .directory => i.node = .directory
    | .regularFile => ∃ content, i.node = .file content ∧ r.digest = some (blake3 content)
    | .symlink => ∃ target, i.node = .symlink target ∧ r.symlinkTarget = some target

/-- The index describes the entries at its paths. -/
def Describes (blake3 : Bytes → Digest) (root : RootHandle) (D : List IndexRecord) (t : Tree) :
    Prop :=
  ∀ r ∈ D, ∃ i, t.get (root.at r.path) = some i ∧ Recorded blake3 r i

/-- The owner may read and search the root and every indexed directory. -/
def Traversable (root : RootHandle) (D : List IndexRecord) (t : Tree) : Prop :=
  Passable t root.path ∧
    ∀ r ∈ D, r.metadata.kind = .directory → Passable t (root.at r.path)

/-- No entry that is not indexed is in the way: none at a path of the source's index, and none in a
directory that is deleted or replaced. -/
structure Vacant (root : RootHandle) (S D : List IndexRecord) (t : Tree) : Prop where
  source : ∀ s ∈ S, t.get (root.at s.path) ≠ none → ∃ d ∈ D, d.path = s.path
  deleted : ∀ d ∈ D, d.metadata.kind = .directory →
    (∀ s ∈ S, s.path = d.path → s.metadata.kind ≠ .directory) →
    ∀ name, t.get (root.at d.path ++ [name]) ≠ none →
      ∃ b ∈ D, b.path.components = d.path.components ++ [name]

/-- The rounds for which something has to be done. -/
def changedRounds (S D : List IndexRecord) : List Round := (merge S D).filter Round.changed

section

variable {S D : List IndexRecord} {r : Round} {p : RelativePath}

/-! ### The changed rounds -/

/-- Equal records have no operations. -/
theorem operations_filter (rounds : List Round) (n : UInt64) :
    operations rounds n = operations (rounds.filter Round.changed) n := by
  induction rounds generalizing n with
  | nil => rfl
  | cons r rounds ih =>
    by_cases h : r.changed = true
    · rw [List.filter_cons_of_pos h, operations, operations, ih]
    · have heq : r.source = r.destination := by simpa [Round.changed] using h
      have hops : roundOperations r.source r.destination n = ([], n) := if_pos heq
      rw [List.filter_cons_of_neg h, operations, hops, List.nil_append, ih]

theorem mem_changedRounds (hS : Increasing S) (hD : Increasing D) :
    r ∈ changedRounds S D ↔ r = roundAt S D r.path ∧ r.source ≠ r.destination := by
  unfold changedRounds
  rw [List.mem_filter, mem_merge hS hD]
  have hchanged : r.changed = true ↔ r.source ≠ r.destination := by simp [Round.changed]
  rw [hchanged]
  constructor
  · rintro ⟨⟨hr, -⟩, hne⟩
    exact ⟨hr, hne⟩
  · rintro ⟨hr, hne⟩
    refine ⟨⟨hr, ?_⟩, hne⟩
    by_contra hnone
    rw [not_or, not_not, not_not] at hnone
    exact hne (hnone.1.trans hnone.2.symm)

/-- The record of an index with increasing paths at a path. -/
theorem recordAt_eq_some_iff (hS : Increasing S) {a : IndexRecord} :
    recordAt S p = some a ↔ a ∈ S ∧ a.path = p := by
  constructor
  · exact recordAt_eq_some
  · rintro ⟨ha, rfl⟩
    exact recordAt_of_mem hS ha

theorem source_eq_some_iff (hS : Increasing S) (hr : r = roundAt S D r.path) {a : IndexRecord} :
    r.source = some a ↔ a ∈ S ∧ a.path = r.path := by
  rw [hr]
  exact recordAt_eq_some_iff hS

theorem destination_eq_some_iff (hD : Increasing D) (hr : r = roundAt S D r.path)
    {b : IndexRecord} : r.destination = some b ↔ b ∈ D ∧ b.path = r.path := by
  rw [hr]
  exact recordAt_eq_some_iff hD

theorem changedRounds_script (hS : Increasing S) (hD : Increasing D) :
    Script (changedRounds S D) := by
  refine ⟨(merge_increasing hS hD).filter _, fun r hr => ?_, fun r hr => ?_⟩
  · obtain ⟨hround, -⟩ := (mem_changedRounds hS hD).1 hr
    exact ⟨fun a ha => ((source_eq_some_iff hS hround).1 ha).2,
      fun b hb => ((destination_eq_some_iff hD hround).1 hb).2⟩
  · exact ((mem_changedRounds hS hD).1 hr).2

/-- A path above an indexed one is that of a directory in the same index. -/
theorem isDirectory_of_above (hS : Acceptable S) (hr : r = roundAt S D r.path)
    (hsource : r.source ≠ none) (hp : p.components <+: r.path.components) (hne : p ≠ r.path) :
    ∃ a ∈ S, a.path = p ∧ a.metadata.kind = .directory := by
  obtain ⟨a, ha⟩ := Option.ne_none_iff_exists'.1 hsource
  obtain ⟨hmem, hpath⟩ := (source_eq_some_iff hS.increasing hr).1 ha
  exact hS.closed a hmem p (hpath ▸ hp) (hpath ▸ hne)

theorem isDirectory_of_above' (hD : Acceptable D) (hr : r = roundAt S D r.path)
    (hdest : r.destination ≠ none) (hp : p.components <+: r.path.components) (hne : p ≠ r.path) :
    ∃ b ∈ D, b.path = p ∧ b.metadata.kind = .directory := by
  obtain ⟨b, hb⟩ := Option.ne_none_iff_exists'.1 hdest
  obtain ⟨hmem, hpath⟩ := (destination_eq_some_iff hD.increasing hr).1 hb
  exact hD.closed b hmem p (hpath ▸ hp) (hpath ▸ hne)

theorem sourceKind_eq_some_iff (hS : Increasing S) (hr : r = roundAt S D r.path) {k : EntryKind} :
    r.sourceKind = some k ↔ ∃ a ∈ S, a.path = r.path ∧ a.metadata.kind = k := by
  unfold Round.sourceKind
  rw [Option.map_eq_some_iff]
  simp only [source_eq_some_iff hS hr, and_assoc]

theorem destinationKind_eq_some_iff (hD : Increasing D) (hr : r = roundAt S D r.path)
    {k : EntryKind} :
    r.destinationKind = some k ↔ ∃ b ∈ D, b.path = r.path ∧ b.metadata.kind = k := by
  unfold Round.destinationKind
  rw [Option.map_eq_some_iff]
  simp only [destination_eq_some_iff hD hr, and_assoc]

/-- The round at a path above that of a changed round has a directory on the side of a record of
the changed round. -/
theorem directory_above (hS : Acceptable S) (hD : Acceptable D) (hr : r ∈ changedRounds S D)
    (hp : p.components <+: r.path.components) (hne : p ≠ r.path) :
    (roundAt S D p).sourceKind = some .directory ∨
      (roundAt S D p).destinationKind = some .directory ∧ r.source = none := by
  obtain ⟨hround, hchanged⟩ := (mem_changedRounds hS.increasing hD.increasing).1 hr
  by_cases hsource : r.source = none
  · have hdest : r.destination ≠ none := fun h => hchanged (hsource.trans h.symm)
    exact Or.inr ⟨(destinationKind_eq_some_iff hD.increasing rfl).2
      (isDirectory_of_above' hD hround hdest hp hne), hsource⟩
  · exact Or.inl ((sourceKind_eq_some_iff hS.increasing rfl).2
      (isDirectory_of_above hS hround hsource hp hne))

/-- Only containers have changed rounds below them. -/
theorem container_of_above (hS : Acceptable S) (hD : Acceptable D) :
    ∀ a ∈ changedRounds S D, ∀ d ∈ changedRounds S D,
      Above (fun r : Round => r.path.components) a d → a.container = true := by
  intro a ha d hd hab
  obtain ⟨hround, -⟩ := (mem_changedRounds hS.increasing hD.increasing).1 ha
  have hdir := directory_above hS hD hd hab.1 fun h => hab.2 (congrArg _ h)
  rw [← hround] at hdir
  unfold Round.container
  obtain h | ⟨h, -⟩ := hdir
  · simp [h]
  · simp [h]

/-- The visits of the changed rounds are nested. -/
theorem nested_changedRounds (hS : Acceptable S) (hD : Acceptable D) :
    Nested (fun r : Round => r.path.components) Round.container (changedRounds S D)
      (fun _ => .before)
      (visits (fun r : Round => r.path.components) Round.container [] (changedRounds S D)) :=
  nested_visits (changedRounds_script hS.increasing hD.increasing).sorted
    (container_of_above hS hD)

theorem unprotected_of_mem (hS : Acceptable S) (hD : Acceptable D) (hr : r ∈ changedRounds S D) :
    Unprotected r.path := by
  obtain ⟨hround, hchanged⟩ := (mem_changedRounds hS.increasing hD.increasing).1 hr
  by_cases hsource : r.source = none
  · have hdest : r.destination ≠ none := fun h => hchanged (hsource.trans h.symm)
    obtain ⟨b, hb⟩ := Option.ne_none_iff_exists'.1 hdest
    obtain ⟨hmem, hpath⟩ := (destination_eq_some_iff hD.increasing hround).1 hb
    exact hpath ▸ hD.unprotected b hmem
  · obtain ⟨a, ha⟩ := Option.ne_none_iff_exists'.1 hsource
    obtain ⟨hmem, hpath⟩ := (source_eq_some_iff hS.increasing hround).1 ha
    exact hpath ▸ hS.unprotected a hmem

end

end QuicSync
