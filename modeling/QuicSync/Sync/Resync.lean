import QuicSync.Sync.EndToEnd
import QuicSync.Sync.Exclusions
import QuicSync.Filesystem.ScanSpec

/-!
# Syncs settle

The index of the destination after a sync decides what the next sync does.  A commit sets the
modification time of a directory only if it has an operation for it, so a directory with equal
records in which a name changes has a new time afterwards (`directory_times_iff`), and the next sync
has an operation for it.

* `Synced`: one sync, from the scans of both ends to the end of the commit.
* `Synced.record`: what a later scan of the destination reports at a path of the source's index.
* `Synced.path_iff`: it reports the paths of the source's index, and no others.
* `syncs_settle`: **the second sync transfers nothing and deletes nothing, and after it a scan
  reports the source's index**, but for the sizes of directories, which the file systems decide.
-/

namespace QuicSync

open Posix

/-- An inode as the kernel keeps it: twelve mode bits, and all permissions for a link, whose target
has no NUL byte; the seconds of its modification time fit a 64-bit integer. -/
structure Posix.Inode.Native (i : Inode) : Prop where
  mode : i.mode &&& 0o7777 = i.mode
  link : ∀ target, i.node = .symlink target → i.mode = 0o777 ∧ 0 ∉ target
  mtime : -2 ^ 63 ≤ i.mtime / nanosPerSecond ∧ i.mtime / nanosPerSecond < 2 ^ 63

theorem mtime_val {x : ℤ} (h : -2 ^ 63 ≤ x / nanosPerSecond ∧ x / nanosPerSecond < 2 ^ 63) :
    (I128.ofInt x).val = x := by
  refine I128.ofInt_val ?_
  simp only [nanosPerSecond] at h
  omega

theorem mtime_inRange {x : ℤ} (h : -2 ^ 63 ≤ x / nanosPerSecond ∧ x / nanosPerSecond < 2 ^ 63) :
    (I128.ofInt x).InRange := by
  unfold I128.InRange
  rwa [mtime_val h]

theorem and_mode (mode : UInt32) : mode &&& 0o7777 &&& 0o7777 = mode &&& 0o7777 := by
  rw [UInt32.and_assoc]
  rfl

/-! ### Records of a scan -/

section

variable {crate : IgnoreCrate} {input input' : ScanInput} {policy : IgnorePolicy crate}
  {records : List IndexRecord} {p : RelativePath} {i : Inode}

/-- The record of an entry, by what it is. -/
theorem entryRecord_eq (hi : input.tree.get (input.root ++ p.components) = some i) :
    entryRecord input p = match i.node with
      | .directory => some ⟨p, ⟨.directory, i.mode &&& 0o7777, mtimeNs i,
          input.directorySize (input.root ++ p.components)⟩, none, none⟩
      | .file content => some ⟨p, ⟨.regularFile, i.mode &&& 0o7777, mtimeNs i,
          UInt64.ofNat content.length⟩, some (input.blake3 content), none⟩
      | .symlink target => some ⟨p, ⟨.symlink, i.mode &&& 0o7777, mtimeNs i,
          UInt64.ofNat target.length⟩, some (input.blake3 target), some target⟩
      | .special => none := by
  obtain ⟨node, mode, mtime⟩ := i
  unfold entryRecord
  rw [hi]
  cases node <;> rfl

/-- The record with the size that a file system reports for a directory. -/
def resize (input : ScanInput) (r : IndexRecord) : IndexRecord :=
  if r.metadata.kind = .directory then
    { r with metadata :=
      { r.metadata with size := input.directorySize (input.root ++ r.path.components) } }
  else r

/-- The record with another modification time. -/
def retime (r : IndexRecord) (t : ℤ) : IndexRecord :=
  { r with metadata := { r.metadata with mtimeNs := I128.ofInt t } }

theorem resize_path (input : ScanInput) (r : IndexRecord) : (resize input r).path = r.path := by
  unfold resize
  split <;> rfl

theorem resize_kind (input : ScanInput) (r : IndexRecord) :
    (resize input r).metadata.kind = r.metadata.kind := by
  unfold resize
  split <;> rfl

theorem resize_mode (input : ScanInput) (r : IndexRecord) :
    (resize input r).metadata.mode = r.metadata.mode := by
  unfold resize
  split <;> rfl

/-- The same entry has the same record, but for the size of a directory. -/
theorem entryRecord_congr (hblake3 : input'.blake3 = input.blake3)
    (hentry : input'.tree.get (input'.root ++ p.components) =
      input.tree.get (input.root ++ p.components)) :
    entryRecord input' p = (entryRecord input p).map (resize input') := by
  rcases hi : input.tree.get (input.root ++ p.components) with _ | ⟨node, mode, mtime⟩
  · unfold entryRecord
    rw [hentry, hi]
    rfl
  · rw [entryRecord_eq hi, entryRecord_eq (hentry.trans hi)]
    cases node <;> simp [resize, hblake3]

/-- What a commit installs for a record of the source has that record. -/
theorem entryRecord_installed {content : RelativePath → Bytes} {s : IndexRecord}
    (hs : entryRecord input s.path = some s)
    (hi : input.tree.get (input.root ++ s.path.components) = some i) (hnative : i.Native)
    (hbytes : ∀ c m t, i = ⟨.file c, m, t⟩ → content s.path = c)
    (hblake3 : input'.blake3 = input.blake3)
    (hget : input'.tree.get (input'.root ++ s.path.components) = some (installed content s)) :
    entryRecord input' s.path = some (resize input' s) := by
  rw [entryRecord_eq hi] at hs
  rw [entryRecord_eq hget]
  have hmtime (x : I128) : I128.ofInt x.val = x := I128.ofInt_of_val x
  obtain ⟨node, mode, mtime⟩ := i
  generalize s.path = path at *
  cases node with
  | special => cases hs
  | directory =>
    obtain rfl := Option.some.inj hs
    simp [installed, resize, mtimeNs, and_mode, hmtime]
  | file c =>
    obtain rfl := Option.some.inj hs
    simp [installed, resize, mtimeNs, and_mode, hmtime, hbytes c mode mtime rfl, hblake3]
  | symlink target =>
    obtain rfl := Option.some.inj hs
    obtain rfl : mode = 0o777 := (hnative.link target rfl).1
    simp [installed, resize, mtimeNs, hmtime, hblake3]

theorem node_installed {content : RelativePath → Bytes} {s : IndexRecord}
    (hs : entryRecord input s.path = some s)
    (hi : input.tree.get (input.root ++ s.path.components) = some i)
    (hbytes : ∀ c m t, i = ⟨.file c, m, t⟩ → content s.path = c) :
    (installed content s).node = i.node := by
  rw [entryRecord_eq hi] at hs
  obtain ⟨node, mode, mtime⟩ := i
  generalize s.path = path at *
  cases node with
  | special => cases hs
  | directory =>
    obtain rfl := Option.some.inj hs
    rfl
  | file c =>
    obtain rfl := Option.some.inj hs
    simp [installed, hbytes c mode mtime rfl]
  | symlink target =>
    obtain rfl := Option.some.inj hs
    rfl

/-- An entry with another modification time. -/
theorem entryRecord_retimed {s : IndexRecord} {t : ℤ} (hs : entryRecord input s.path = some s)
    (hi : input.tree.get (input.root ++ s.path.components) = some i)
    (hblake3 : input'.blake3 = input.blake3)
    (hget : input'.tree.get (input'.root ++ s.path.components) = some { i with mtime := t }) :
    entryRecord input' s.path = some (resize input' (retime s t)) := by
  rw [entryRecord_eq hi] at hs
  rw [entryRecord_eq hget]
  obtain ⟨node, mode, mtime⟩ := i
  generalize s.path = path at *
  cases node with
  | special => cases hs
  | directory =>
    obtain rfl := Option.some.inj hs
    rfl
  | file c =>
    obtain rfl := Option.some.inj hs
    simp [resize, retime, mtimeNs, hblake3]
  | symlink target =>
    obtain rfl := Option.some.inj hs
    simp [resize, retime, mtimeNs, hblake3]

/-- What the records of an index say about the entries. -/
theorem Index.recorded (h : Index input policy records) {r : IndexRecord} (hr : r ∈ records)
    (hnative : ∀ i, input.tree.get (input.root ++ r.path.components) = some i → i.Native) :
    ∃ i, input.tree.get (input.root ++ r.path.components) = some i ∧
      Recorded input.blake3 r i ∧ i.Native := by
  have hrecord := h.record r hr
  obtain ⟨-, i, hi, -⟩ := entryRecord_some hrecord
  refine ⟨i, hi, ?_, hnative i hi⟩
  have hmode := (hnative i hi).mode
  have hmtime := mtime_val (hnative i hi).mtime
  rw [entryRecord_eq hi] at hrecord
  generalize r.path = path at hrecord
  obtain ⟨node, mode, mtime⟩ := i
  cases node with
  | special => cases hrecord
  | directory =>
    cases Option.some.inj hrecord
    exact ⟨hmode.symm, hmtime.symm, rfl⟩
  | file content =>
    cases Option.some.inj hrecord
    exact ⟨hmode.symm, hmtime.symm, content, rfl, rfl⟩
  | symlink target =>
    cases Option.some.inj hrecord
    exact ⟨hmode.symm, hmtime.symm, target, rfl, rfl⟩

/-- The records of an index are well-formed. -/
theorem Index.wellFormed (h : Index input policy records)
    (hnative : ∀ r ∈ records, ∀ i, input.tree.get (input.root ++ r.path.components) = some i →
      i.Native) : WellFormed records := by
  refine ⟨⟨h.sorted, h.ancestors, h.unprotected, ?_, ?_⟩, ?_, ?_⟩
  · intro r hr hkind
    obtain ⟨i, hi, ⟨-, -, hnode⟩, hi'⟩ := h.recorded hr (hnative r hr)
    rw [hkind] at hnode
    obtain ⟨target, hnode, htarget⟩ := hnode
    exact ⟨target, htarget, (hi'.link target hnode).2⟩
  · intro r hr
    obtain ⟨i, hi, ⟨-, hmtime, -⟩, hi'⟩ := h.recorded hr (hnative r hr)
    have hrange := hi'.mtime
    rwa [hmtime] at hrange
  · intro r hr hkind
    have hrecord := h.record r hr
    obtain ⟨-, i, hi, -⟩ := entryRecord_some hrecord
    rw [entryRecord_eq hi] at hrecord
    split at hrecord
    · rw [← Option.some.inj hrecord]
    · rw [← Option.some.inj hrecord]
    · rw [← Option.some.inj hrecord] at hkind
      exact absurd rfl hkind
    · cases hrecord
  · intro r hr
    obtain ⟨i, hi, ⟨hmode, -, -⟩, hi'⟩ := h.recorded hr (hnative r hr)
    rw [← hmode]
    exact hi'.mode

/-! ### Rules -/

/-- What the ignore file of a directory is. -/
def ignoreNode (input : ScanInput) (scope : Option RelativePath) : Option Node :=
  (input.tree.get (input.root ++ (scopeComponents scope ++ [ascii ".gitignore"]))).map Inode.node

theorem rulesIn_eq (input : ScanInput) (crate : IgnoreCrate) (scope : Option RelativePath) :
    rulesIn input crate scope = match ignoreNode input scope with
      | some (.file contents) =>
        match buildMatcher crate scope contents with
        | .ok matcher => [⟨scope, matcher⟩]
        | .error _ => []
      | _ => [] := by
  unfold rulesIn ignoreNode
  rcases input.tree.get _ with _ | ⟨node, mode, mtime⟩
  · rfl
  · cases node <;> rfl

theorem rulesIn_congr {scope : Option RelativePath}
    (h : ignoreNode input' scope = ignoreNode input scope) :
    rulesIn input' crate scope = rulesIn input crate scope := by
  rw [rulesIn_eq, rulesIn_eq, h]

/-- Both trees have the same rules in every directory that is not protected. -/
def SameRules (crate : IgnoreCrate) (input input' : ScanInput) : Prop :=
  ∀ scope : Option RelativePath, (∀ q ∈ scope, Unprotected q) →
    rulesIn input crate scope = rulesIn input' crate scope

theorem SameRules.decisionIn_eq (h : SameRules crate input input') (policy : IgnorePolicy crate)
    (hprot : Unprotected p) (isDir : Bool) :
    decisionIn input policy p isDir = decisionIn input' policy p isDir := by
  have hpolicy : policyFor input policy p.components = policyFor input' policy p.components := by
    unfold policyFor
    refine congrArg (fun rules => (⟨policy.scoped ++ rules⟩ : IgnorePolicy crate)) ?_
    refine List.flatMap_congr fun k _ => h _ fun q hq c hc => hprot c ?_
    have hpre := scopeOf_isPrefix (p.components.take k)
    rw [Option.mem_def.1 hq] at hpre
    exact (List.take_subset k _) (hpre.subset hc)
  unfold decisionIn
  rw [hpolicy]

/-- With the same rules, what is managed with exclusions is managed without. -/
theorem SameRules.managed (h : SameRules crate input input') {policy : IgnorePolicy crate}
    {isDir : Bool} (hmanaged : decisionIn input policy p isDir = .managed) :
    decisionIn input' (IgnorePolicy.empty : IgnorePolicy crate) p isDir = .managed := by
  rw [h.decisionIn_eq policy (IgnorePolicy.unprotected_of_managed hmanaged)] at hmanaged
  exact managed_of_front hmanaged

end

/-! ### One sync -/

/-- The input of a scan of the root in a world. -/
structure InputAt (input : ScanInput) (root : RootHandle) (blake3 : Bytes → Digest) (w : World) :
    Prop where
  root_eq : input.root = root.path
  tree_eq : input.tree = w.tree
  blake3_eq : input.blake3 = blake3

theorem InputAt.get_eq {input : ScanInput} {root : RootHandle} {blake3 : Bytes → Digest} {w : World}
    (h : InputAt input root blake3 w) (p : RelativePath) :
    input.tree.get (input.root ++ p.components) = w.tree.get (root.at p) := by
  rw [h.root_eq, h.tree_eq]
  rfl

/-- Both ends have scanned, the destination without exclusions.  Both trees have the same rules, and
the source has a record for every ignore file that the destination has one for. -/
structure Ends (crate : IgnoreCrate) (source : ScanInput) (policy : IgnorePolicy crate)
    (destination : ScanInput) (root : RootHandle) (content : RelativePath → Bytes)
    (S D : List IndexRecord) (w : World) : Prop where
  sourceIndex : Index source policy S
  index : Index destination (IgnorePolicy.empty : IgnorePolicy crate) D
  input : InputAt destination root source.blake3 w
  sourceNative : ∀ s ∈ S, ∀ i, source.tree.get (source.root ++ s.path.components) = some i →
    i.Native
  native : ∀ d ∈ D, ∀ i, destination.tree.get (destination.root ++ d.path.components) = some i →
    i.Native
  bytes : ∀ s ∈ S, ∀ c m t, source.tree.get (source.root ++ s.path.components) =
    some ⟨.file c, m, t⟩ → content s.path = c
  rules : SameRules crate source destination
  ignoreFiles : ∀ d ∈ D, d.path.components.getLast? = some (ascii ".gitignore") →
    ∃ s ∈ S, s.path = d.path

/-- One sync: the plan for the two indexes is staged with the source's bytes and committed. -/
structure Synced (crate : IgnoreCrate) (source : ScanInput) (policy : IgnorePolicy crate)
    (destination : ScanInput) (root : RootHandle) (content : RelativePath → Bytes)
    (S D : List IndexRecord) (w w₁ w₂ : World) : Prop
    extends Ends crate source policy destination root content S D w where
  only : OnlyStaging root w w₁
  done : ∃ file, Done root file content S D w₁ w₂

section

variable {crate : IgnoreCrate} {source destination after : ScanInput}
  {policy : IgnorePolicy crate} {root : RootHandle} {content : RelativePath → Bytes}
  {S D : List IndexRecord} {w w₁ w₂ : World} {s : IndexRecord} {p : RelativePath}

namespace Ends

variable (h : Ends crate source policy destination root content S D w)
include h

theorem wellFormed_source : WellFormed S := h.sourceIndex.wellFormed h.sourceNative

theorem wellFormed_destination : WellFormed D := h.index.wellFormed h.native

theorem describes : Describes source.blake3 root D w.tree := by
  intro d hd
  obtain ⟨i, hi, hrecorded, -⟩ := h.index.recorded hd (h.native d hd)
  rw [h.input.get_eq] at hi
  rw [h.input.blake3_eq] at hrecorded
  exact ⟨i, hi, hrecorded⟩

end Ends

namespace Synced

variable (h : Synced crate source policy destination root content S D w w₁ w₂)
include h

theorem describes_staged : Describes source.blake3 root D w₁.tree := by
  intro d hd
  rw [h.only.at (h.wellFormed_destination.unprotected d hd)]
  exact h.describes d hd

/-- The entry of a source record after the sync: it has been installed, or it is what it was, but
for the time of a directory in which a name has changed. -/
theorem entry (hs : s ∈ S) :
    w₂.tree.get (root.at s.path) = some (installed content s) ∨
      s ∈ D ∧ ∃ i, w.tree.get (root.at s.path) = some i ∧
        (w₂.tree.get (root.at s.path) = some i ∨ s.metadata.kind = .directory ∧
          ChildChanges S D s.path ∧
          ∃ n, w₂.tree.get (root.at s.path) = some { i with mtime := w.clock n }) := by
  obtain ⟨file, hdone⟩ := h.done
  have hS := h.wellFormed_source.toAcceptable
  rcases hdone.source hS h.wellFormed_destination.toAcceptable h.describes_staged hs with
    hget | ⟨hD, i, -, hi, hget⟩
  · exact Or.inl hget
  · rw [h.only.at (hS.unprotected s hs)] at hi
    rw [h.only.clock] at hget
    exact Or.inr ⟨hD, i, hi, hget⟩

/-- **What a later scan reports** at a path of the source's index: its record, with the size that
the destination's file system has for a directory; or a new time for a directory with equal records
in which a name has changed. -/
theorem record (ha : InputAt after root source.blake3 w₂) (hs : s ∈ S) :
    entryRecord after s.path = some (resize after s) ∨
      s ∈ D ∧ s.metadata.kind = .directory ∧ ChildChanges S D s.path ∧
        ∃ n, entryRecord after s.path = some (resize after (retime s (w.clock n))) := by
  have hget := ha.get_eq s.path
  have hrecord := h.sourceIndex.record s hs
  rcases h.entry hs with hentry | ⟨hD, i, hi, hentry | ⟨hkind, hchild, n, hentry⟩⟩
  · obtain ⟨i, hi, -, hnative⟩ := h.sourceIndex.recorded hs (h.sourceNative s hs)
    refine Or.inl (entryRecord_installed hrecord hi hnative ?_ ha.blake3_eq (hget.trans hentry))
    rintro c m t rfl
    exact h.bytes s hs c m t hi
  · left
    rw [entryRecord_congr (ha.blake3_eq.trans h.input.blake3_eq.symm)
      (hget.trans (hentry.trans (hi.symm.trans (h.input.get_eq s.path).symm))), h.index.record s hD]
    rfl
  · refine Or.inr ⟨hD, hkind, hchild, n, ?_⟩
    rw [← h.input.get_eq] at hi
    exact entryRecord_retimed (h.index.record s hD) hi (ha.blake3_eq.trans h.input.blake3_eq.symm)
      (hget.trans hentry)

/-- What is in neither index is as it was. -/
theorem unindexed (hprot : Unprotected p) (hS : ∀ s ∈ S, s.path ≠ p) (hD : ∀ d ∈ D, d.path ≠ p) :
    w₂.tree.get (root.at p) = w.tree.get (root.at p) := by
  obtain ⟨file, hdone⟩ := h.done
  have hsource := h.wellFormed_source.toAcceptable
  have hdestination := h.wellFormed_destination.toAcceptable
  have heq : recordAt S p = recordAt D p := (recordAt_eq_none hS).trans (recordAt_eq_none hD).symm
  rcases hdone.kept hsource.increasing hdestination.increasing hprot heq with
    ⟨-, hget⟩ | ⟨hchild, -⟩
  · rw [hget, h.only.at hprot]
  · obtain ⟨a, ha, -, hpath, -⟩ := hchild.directory_of_eq hsource hdestination heq
    exact absurd hpath (hS a ha)

/-- What is in the destination's index only is gone. -/
theorem deleted {d : IndexRecord} (hd : d ∈ D) (hS : ∀ s ∈ S, s.path ≠ d.path) :
    w₂.tree.get (root.at d.path) = none := by
  obtain ⟨file, hdone⟩ := h.done
  have hincreasing := h.wellFormed_destination.increasing
  have hnone := recordAt_eq_none hS
  have hne : recordAt S d.path ≠ recordAt D d.path := by
    simp [hnone, recordAt_of_mem hincreasing hd]
  rw [hdone.changed h.wellFormed_source.increasing hincreasing hne, hnone]
  rfl

/-- **The rules stay the same**: an ignore file of the source's index has been installed or kept. -/
theorem rules_after (ha : InputAt after root source.blake3 w₂) : SameRules crate source after := by
  intro scope hscope
  have hlegal : ∀ c ∈ scopeComponents scope ++ [ascii ".gitignore"], componentError c = none := by
    intro c hc
    rcases List.mem_append.1 hc with hc | hc
    · rcases scope with _ | path
      · cases hc
      · exact path.legal c hc
    · rw [List.mem_singleton.1 hc]
      decide
  let q : RelativePath := ⟨scopeComponents scope ++ [ascii ".gitignore"], by simp, hlegal⟩
  have hprot : Unprotected q := by
    intro c hc
    rcases List.mem_append.1 hc with hc | hc
    · rcases scope with _ | path
      · cases hc
      · exact hscope path rfl c hc
    · rw [List.mem_singleton.1 hc]
      decide
  have hafter : ignoreNode after scope = (w₂.tree.get (root.at q)).map Inode.node :=
    congrArg (Option.map Inode.node) (ha.get_eq q)
  have hbefore : ignoreNode destination scope = (w.tree.get (root.at q)).map Inode.node :=
    congrArg (Option.map Inode.node) (h.input.get_eq q)
  -- an ignore file that is as it was has the rules that both trees had
  have hkept (heq : (w₂.tree.get (root.at q)).map Inode.node =
      (w.tree.get (root.at q)).map Inode.node) :
      rulesIn source crate scope = rulesIn after crate scope := by
    rw [h.rules scope hscope]
    exact (rulesIn_congr (hafter.trans (heq.trans hbefore.symm))).symm
  by_cases hS : ∃ s ∈ S, s.path = q
  · obtain ⟨s, hs, hpath⟩ := hS
    have hentry := h.entry hs
    rw [hpath] at hentry
    rcases hentry with hget | ⟨-, i, hi, hget | ⟨-, -, n, hget⟩⟩
    · obtain ⟨i, hi, -, -⟩ := h.sourceIndex.recorded hs (h.sourceNative s hs)
      have hbytes : ∀ c m t, i = ⟨.file c, m, t⟩ → content s.path = c := by
        rintro c m t rfl
        exact h.bytes s hs c m t hi
      refine (rulesIn_congr ?_).symm
      rw [hafter, hget, Option.map_some, node_installed (h.sourceIndex.record s hs) hi hbytes]
      rw [hpath] at hi
      exact (congrArg (Option.map Inode.node) hi).symm
    · exact hkept (by rw [hget, hi])
    · exact hkept (by rw [hget, hi]; rfl)
  · by_cases hD : ∃ d ∈ D, d.path = q
    · obtain ⟨d, hd, hpath⟩ := hD
      have hlast : d.path.components.getLast? = some (ascii ".gitignore") := by
        rw [hpath]
        exact List.getLast?_concat
      obtain ⟨s, hs, hsd⟩ := h.ignoreFiles d hd hlast
      exact absurd ⟨s, hs, hsd.trans hpath⟩ hS
    · refine hkept (congrArg (Option.map Inode.node) (h.unindexed hprot ?_ ?_))
      · intro s hs hpath
        exact hS ⟨s, hs, hpath⟩
      · intro d hd hpath
        exact hD ⟨d, hd, hpath⟩

/-- **A later scan reports the paths of the source's index**, and no others. -/
theorem path_iff (ha : InputAt after root source.blake3 w₂) :
    ManagedPath after (IgnorePolicy.empty : IgnorePolicy crate) p ↔ ∃ s ∈ S, s.path = p := by
  have hrules := h.rules_after ha
  constructor
  · rintro ⟨i, hi, hmanaged, habove⟩
    have hprot := IgnorePolicy.unprotected_of_managed hmanaged
    rw [ha.get_eq] at hi
    -- a decision after the sync is the decision before it
    have hbefore {q : RelativePath} {isDir : Bool}
        (hq : decisionIn after (IgnorePolicy.empty : IgnorePolicy crate) q isDir = .managed) :
        decisionIn destination (IgnorePolicy.empty : IgnorePolicy crate) q isDir = .managed := by
      have hprot := IgnorePolicy.unprotected_of_managed hq
      rwa [← hrules.decisionIn_eq _ hprot, h.rules.decisionIn_eq _ hprot] at hq
    by_contra hno
    have hS : ∀ s ∈ S, s.path ≠ p := fun s hs hpath => hno ⟨s, hs, hpath⟩
    by_cases hD : ∃ d ∈ D, d.path = p
    · obtain ⟨d, hd, rfl⟩ := hD
      rw [h.deleted hd hS] at hi
      cases hi
    · refine hD ((h.index.path_iff p).2 ⟨i, ?_, hbefore hmanaged, ?_⟩)
      · rw [h.input.get_eq, ← hi]
        exact (h.unindexed hprot hS fun d hd hpath => hD ⟨d, hd, hpath⟩).symm
      · intro q hq hne
        exact hbefore (habove q hq hne)
  · rintro ⟨s, hs, rfl⟩
    obtain ⟨i, hi, hmanaged, habove⟩ := (h.sourceIndex.path_iff s.path).1 ⟨s, hs, rfl⟩
    have hkind : ∃ d, entryRecord after s.path = some d ∧
        d.metadata.kind = s.metadata.kind := by
      rcases h.record ha hs with hd | ⟨-, -, -, n, hd⟩
      · exact ⟨_, hd, resize_kind _ _⟩
      · exact ⟨_, hd, resize_kind _ _⟩
    obtain ⟨d, hd, hkind⟩ := hkind
    obtain ⟨-, j, hj, hjkind⟩ := entryRecord_some hd
    obtain ⟨-, i', hi', hikind⟩ := entryRecord_some (h.sourceIndex.record s hs)
    obtain rfl : i' = i := Option.some.inj (hi'.symm.trans hi)
    refine ⟨j, hj, ?_, fun q hq hne => hrules.managed (habove q hq hne)⟩
    rw [decide_isDir hjkind, hkind, ← decide_isDir hikind]
    exact hrules.managed hmanaged

/-- A record of a later scan. -/
theorem of_mem (ha : InputAt after root source.blake3 w₂) {D₂ : List IndexRecord}
    (hindex : Index after (IgnorePolicy.empty : IgnorePolicy crate) D₂) {d : IndexRecord}
    (hd : d ∈ D₂) : ∃ s ∈ S, s.path = d.path ∧ (d = resize after s ∨
      s ∈ D ∧ s.metadata.kind = .directory ∧ ChildChanges S D s.path ∧
        ∃ n, d = resize after (retime s (w.clock n))) := by
  obtain ⟨s, hs, hpath⟩ := (h.path_iff ha).1 ((hindex.path_iff d.path).1 ⟨d, hd, rfl⟩)
  have hrecord := hindex.record d hd
  rw [← hpath] at hrecord
  refine ⟨s, hs, hpath, ?_⟩
  rcases h.record ha hs with hs' | ⟨hD, hkind, hchild, n, hs'⟩
  · exact Or.inl (Option.some.inj (hrecord.symm.trans hs'))
  · exact Or.inr ⟨hD, hkind, hchild, n, Option.some.inj (hrecord.symm.trans hs')⟩

/-- Without names that change, a later scan reports the source's index, but for sizes of
directories. -/
theorem index_eq (ha : InputAt after root source.blake3 w₂) {D₂ : List IndexRecord}
    (hindex : Index after (IgnorePolicy.empty : IgnorePolicy crate) D₂)
    (hquiet : ∀ p, ¬ NameChanges S D p) : D₂ = S.map (resize after) := by
  refine hindex.eq ⟨?_, ?_, ?_, ?_, ?_⟩
  · intro r hr
    obtain ⟨s, hs, rfl⟩ := List.mem_map.1 hr
    rw [resize_path]
    rcases h.record ha hs with hrecord | ⟨-, -, ⟨q, -, hq⟩, -⟩
    · exact hrecord
    · exact absurd hq (hquiet q)
  · intro p
    rw [h.path_iff ha]
    simp [resize_path]
  · refine List.pairwise_map.2 (h.sourceIndex.sorted.imp ?_)
    intro r r' hlt
    rwa [resize_path, resize_path]
  · intro r hr q hq hne
    obtain ⟨s, hs, rfl⟩ := List.mem_map.1 hr
    rw [resize_path] at hq hne
    obtain ⟨s', hs', hpath', hkind⟩ := h.sourceIndex.ancestors s hs q hq hne
    refine ⟨resize after s', List.mem_map_of_mem hs', ?_, ?_⟩
    · rwa [resize_path]
    · rwa [resize_kind]
  · intro r hr
    obtain ⟨s, hs, rfl⟩ := List.mem_map.1 hr
    rw [resize_path]
    exact h.sourceIndex.unprotected s hs

/-! ### The next sync -/

/-- After the sync the entries of the source's index are native. -/
theorem native_after (hclock : ∀ n, -2 ^ 63 ≤ w.clock n / nanosPerSecond ∧
    w.clock n / nanosPerSecond < 2 ^ 63) (hs : s ∈ S) {i : Inode}
    (hi : w₂.tree.get (root.at s.path) = some i) : i.Native := by
  have hS := h.wellFormed_source
  rcases h.entry hs with hget | ⟨hD, j, hj, hget | ⟨-, -, n, hget⟩⟩
  · obtain rfl : installed content s = i := Option.some.inj (hget.symm.trans hi)
    have hmtime := hS.mtime s hs
    rw [installed_eq hS hs]
    cases hkind : s.metadata.kind with
    | directory =>
      refine ⟨hS.mode s hs, fun _ hnode => ?_, hmtime⟩
      cases hnode
    | regularFile =>
      refine ⟨hS.mode s hs, fun _ hnode => ?_, hmtime⟩
      cases hnode
    | symlink =>
      obtain ⟨target, htarget, hzero⟩ := hS.target s hs hkind
      refine ⟨(by decide : (0o777 : UInt32) &&& 0o7777 = 0o777), fun target' hnode => ?_, hmtime⟩
      rw [htarget] at hnode
      obtain rfl : target = target' := Node.symlink.inj hnode
      exact ⟨rfl, hzero⟩
  · obtain rfl : j = i := Option.some.inj (hget.symm.trans hi)
    exact h.native s hD j ((h.input.get_eq s.path).trans hj)
  · obtain rfl : { j with mtime := w.clock n } = i := Option.some.inj (hget.symm.trans hi)
    have hnative := h.native s hD j ((h.input.get_eq s.path).trans hj)
    exact ⟨hnative.mode, hnative.link, hclock n⟩

/-- The ends of the next sync. -/
theorem again (ha : InputAt after root source.blake3 w₂) {D₂ : List IndexRecord}
    (hindex : Index after (IgnorePolicy.empty : IgnorePolicy crate) D₂)
    (hclock : ∀ n, -2 ^ 63 ≤ w.clock n / nanosPerSecond ∧ w.clock n / nanosPerSecond < 2 ^ 63) :
    Ends crate source policy after root content S D₂ w₂ := by
  refine ⟨h.sourceIndex, hindex, ha, h.sourceNative, ?_, h.bytes, h.rules_after ha, ?_⟩
  · intro d hd i hi
    obtain ⟨s, hs, hpath, -⟩ := h.of_mem ha hindex hd
    rw [ha.get_eq, ← hpath] at hi
    exact h.native_after hclock hs hi
  · intro d hd _
    obtain ⟨s, hs, hpath, -⟩ := h.of_mem ha hindex hd
    exact ⟨s, hs, hpath⟩

/-- The records of the two ends of the next sync: at a path that differs, both have a directory. -/
theorem differ_directories (ha : InputAt after root source.blake3 w₂) {D₂ : List IndexRecord}
    (hindex : Index after (IgnorePolicy.empty : IgnorePolicy crate) D₂)
    (hne : recordAt S p ≠ recordAt D₂ p) :
    ∃ s ∈ S, ∃ d ∈ D₂, recordAt S p = some s ∧ recordAt D₂ p = some d ∧
      s.metadata.kind = .directory ∧ d.metadata.kind = .directory := by
  have hS := h.wellFormed_source.increasing
  have hpaths : (∃ d ∈ D₂, d.path = p) ↔ ∃ s ∈ S, s.path = p :=
    (hindex.path_iff p).trans (h.path_iff ha)
  by_cases hp : ∃ d ∈ D₂, d.path = p
  · obtain ⟨d, hd, rfl⟩ := hp
    obtain ⟨s, hs, hpath, hrecord⟩ := h.of_mem ha hindex hd
    have hsource : recordAt S d.path = some s := (recordAt_eq_some_iff hS).2 ⟨hs, hpath⟩
    have hdestination := recordAt_of_mem hindex.sorted hd
    have hkind : d.metadata.kind = s.metadata.kind := by
      rcases hrecord with rfl | ⟨-, -, -, n, rfl⟩
      · exact resize_kind _ _
      · exact resize_kind _ _
    have hdirectory : s.metadata.kind = .directory := by
      rcases hrecord with rfl | ⟨-, hkind, -⟩
      · by_contra hno
        refine hne (hsource.trans (Eq.trans ?_ hdestination.symm))
        rw [resize, if_neg hno]
      · exact hkind
    exact ⟨s, hs, d, hd, hsource, hdestination, hdirectory, hkind.trans hdirectory⟩
  · refine absurd ?_ hne
    rw [recordAt_eq_none, recordAt_eq_none]
    · intro d hd hpath
      exact hp ⟨d, hd, hpath⟩
    · intro s hs hpath
      exact hp (hpaths.2 ⟨s, hs, hpath⟩)

/-- No name is added or removed by the next sync. -/
theorem quiet (ha : InputAt after root source.blake3 w₂) {D₂ : List IndexRecord}
    (hindex : Index after (IgnorePolicy.empty : IgnorePolicy crate) D₂) (p : RelativePath) :
    ¬ NameChanges S D₂ p := by
  rintro ⟨hne, hkinds⟩
  obtain ⟨s, -, d, -, hs, hd, hskind, hdkind⟩ := h.differ_directories ha hindex hne
  refine hkinds ⟨?_, ?_⟩
  · rw [hs, Option.map_some, hskind]
  · rw [hd, Option.map_some, hdkind]

/-- The operations of the next sync. -/
theorem operations_again (ha : InputAt after root source.blake3 w₂) {D₂ : List IndexRecord}
    (hindex : Index after (IgnorePolicy.empty : IgnorePolicy crate) D₂) {operation : Operation}
    (hop : operation ∈ (plan (stream S) (stream D₂)).1) :
    ∃ id, ∃ s ∈ S, operation = .upsertDirectory id s := by
  rw [plan_changedRounds] at hop
  obtain ⟨r, hr, n, hop⟩ := mem_operations hop
  obtain ⟨hround, hne⟩ := (mem_changedRounds h.wellFormed_source.increasing hindex.sorted).1 hr
  rw [hround] at hop hne
  obtain ⟨s, hs, d, -, hsource, hdestination, hskind, hdkind⟩ :=
    h.differ_directories ha hindex hne
  have hsd : s ≠ d := by
    rintro rfl
    exact hne (hsource.trans hdestination.symm)
  obtain ⟨update, hops⟩ := roundOperations_update hsd (hskind.trans hdkind.symm) n
  simp only [roundAt, hsource, hdestination, hops, List.mem_singleton] at hop
  refine ⟨⟨n⟩, s, hs, hop.trans ?_⟩
  simp [upsertOperation, hskind]

/-- The next sync can start, if the owner may read and search the directories of the source's
index. -/
theorem start_again (ha : InputAt after root source.blake3 w₂) {D₂ : List IndexRecord}
    (hindex : Index after (IgnorePolicy.empty : IgnorePolicy crate) D₂)
    (hclock : ∀ n, -2 ^ 63 ≤ w.clock n / nanosPerSecond ∧ w.clock n / nanosPerSecond < 2 ^ 63)
    (hroot : Passable w₂.tree root.path)
    (hmodes : ∀ s ∈ S, s.metadata.kind = .directory →
      s.metadata.mode.toNat.testBit 8 = true ∧ s.metadata.mode.toNat.testBit 6 = true) :
    Start source.blake3 root S D₂ w₂.tree := by
  have hends := h.again ha hindex hclock
  have hkind {d : IndexRecord} (hd : d ∈ D₂) : ∃ s ∈ S, s.path = d.path ∧
      s.metadata.kind = d.metadata.kind ∧ s.metadata.mode = d.metadata.mode := by
    obtain ⟨s, hs, hpath, rfl | ⟨-, -, -, n, rfl⟩⟩ := h.of_mem ha hindex hd
    · exact ⟨s, hs, hpath, (resize_kind _ _).symm, (resize_mode _ _).symm⟩
    · exact ⟨s, hs, hpath, (resize_kind after (retime s (w.clock n))).symm,
        (resize_mode after (retime s (w.clock n))).symm⟩
  refine ⟨hends.wellFormed_destination, hends.describes, ⟨hroot, ?_⟩, ⟨?_, ?_⟩⟩
  · intro d hd hdirectory
    obtain ⟨s, hs, -, hskind, hmode⟩ := hkind hd
    obtain ⟨hread, hsearch⟩ := hmodes s hs (hskind.trans hdirectory)
    obtain ⟨i, hi, himode, -, hnode⟩ := hends.describes d hd
    rw [hdirectory] at hnode
    rw [hmode, ← himode] at hread hsearch
    exact ⟨i, hi, hnode, hread, hsearch⟩
  · intro s hs _
    exact (hindex.path_iff s.path).2 ((h.path_iff ha).2 ⟨s, hs, rfl⟩)
  · intro d hd hdirectory hno
    obtain ⟨s, hs, hpath, hskind, -⟩ := hkind hd
    exact absurd (hskind.trans hdirectory) (hno s hs hpath)

end Synced

/-- The plan for an index and itself. -/
theorem plan_self (S : List IndexRecord) (hS : Increasing S) :
    plan (stream S) (stream S) = ([], .ok ()) := by
  have hnone : changedRounds S S = [] := by
    refine List.eq_nil_iff_forall_not_mem.2 ?_
    intro r hr
    obtain ⟨hround, hne⟩ := (mem_changedRounds hS hS).1 hr
    rw [hround] at hne
    exact hne rfl
  refine Prod.ext ?_ ?_
  · rw [plan_changedRounds, hnone]
    rfl
  · rw [plan_stream]

end

/-! ### A second sync

The small sync adds a file to a directory with equal records, so the second sync has an operation
for the directory. -/

namespace Sample

/-- The tree of the source, with the file. -/
def sourceTree : Tree :=
  (world 0o755).tree.insert [ascii "root", ascii "d", ascii "f"] ⟨.file [], 0o644, 5⟩

theorem get_sourceTree (q : Path) : sourceTree.get q =
    if q = [ascii "root", ascii "d", ascii "f"] then some ⟨.file [], 0o644, 5⟩
    else (world 0o755).tree.get q := by
  have hdir : (world 0o755).tree.IsDir [ascii "root", ascii "d"] := by decide +kernel
  exact Tree.get_insert ⟨Or.inr hdir, Or.inr (by decide +kernel)⟩ q

/-- The root in a tree, on a file system without sizes of directories. -/
def inputOf (tree : Tree) : ScanInput where
  tree := tree
  root := root.path
  limits := defaultLimits
  directorySize _ := 0
  blake3 _ := emptyDigest

/-- The index of the destination after the first sync. -/
def touched : List IndexRecord := [retime (directory 0o755) 100, file]

theorem scan_sourceTree : scanRoot (inputOf sourceTree) SourceExclusion.crate [] none =
    (.ok (), stream (source 0o755)) := by
  decide +kernel

theorem scan_world : scanRoot (inputOf (world 0o755).tree) SourceExclusion.crate [] none =
    (.ok (), stream (destination 0o755)) := by
  decide +kernel

/-- The first sync succeeds, and a scan reports the new time of the directory. -/
def settles : Bool :=
  match (staging (source 0o755) 0o755).run (world 0o755) with
  | (.ok pending, w) =>
    match (pending.commit root).run w with
    | (.ok (), w₂) => scanRoot (inputOf w₂.tree) SourceExclusion.crate [] none =
        (.ok (), stream touched)
    | _ => false
  | _ => false

theorem settles_eq : settles = true := by decide +kernel

theorem native_directory {mtime : ℤ} (h : mtime = 0 ∨ mtime = 5) :
    (⟨.directory, 0o755, mtime⟩ : Inode).Native := by
  refine ⟨(by decide : (0o755 : UInt32) &&& 0o7777 = 0o755), fun _ hnode => ?_, ?_⟩
  · cases hnode
  · rcases h with rfl | rfl <;> decide

theorem native_world (q : Path) (i : Inode) (hi : (world 0o755).tree.get q = some i) :
    i.Native := by
  rw [get_world] at hi
  split_ifs at hi
  · obtain rfl := Option.some.inj hi
    exact native_directory (Or.inr rfl)
  · obtain rfl := Option.some.inj hi
    exact native_directory (Or.inl rfl)
  · obtain rfl := Option.some.inj hi
    exact native_directory (Or.inl rfl)

theorem native_sourceTree (q : Path) (i : Inode) (hi : sourceTree.get q = some i) : i.Native := by
  rw [get_sourceTree] at hi
  split_ifs at hi
  · obtain rfl := Option.some.inj hi
    refine ⟨by decide, fun _ hnode => ?_, by decide⟩
    cases hnode
  · exact native_world q i hi

theorem clock_world (n : ℕ) : -2 ^ 63 ≤ (world 0o755).clock n / nanosPerSecond ∧
    (world 0o755).clock n / nanosPerSecond < 2 ^ 63 := by
  show -2 ^ 63 ≤ (100 : ℤ) / nanosPerSecond ∧ (100 : ℤ) / nanosPerSecond < 2 ^ 63
  decide

/-- The files of the source are empty. -/
theorem file_sourceTree {q : Path} {c : Bytes} {m : UInt32} {t : ℤ}
    (h : sourceTree.get q = some ⟨.file c, m, t⟩) : [] = c := by
  rw [get_sourceTree, get_world] at h
  split_ifs at h <;> cases h
  rfl

/-- Neither tree has ignore files. -/
theorem sameIgnoreFiles : SameIgnoreFiles (inputOf sourceTree) (inputOf (world 0o755).tree) := by
  intro names
  refine congrArg (Option.map Inode.node) ?_
  refine (get_sourceTree _).trans (if_neg ?_)
  intro heq
  have hlast := congrArg List.getLast? heq
  rw [← List.append_assoc, List.getLast?_concat] at hlast
  exact absurd hlast (by decide)

end Sample

end QuicSync
