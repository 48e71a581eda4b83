import QuicSync.Sync.Unmanaged

/-!
# Exclusions of the source's configuration

The source scans with the exclusions of its configuration, the destination without any: each side
decides by its own rules.  The exclusions come before the rules of ignore files, and a later rule
overrides an earlier one, so a path that the ignore files alone ignore is ignored with exclusions
too (`managed_of_exclusions`).

* `destination_ignored_survives`: **what the destination's own policy ignores is left alone**,
  whatever the source excludes, when both trees have the same ignore files.
* `excluded_entry_deleted`: an entry that only the exclusions ignore is not.
-/

namespace QuicSync

open Posix

section

variable {crate : IgnoreCrate} {source destination : ScanInput} {path : RelativePath} {isDir : Bool}

/-- One more rule set keeps the order of two results. -/
theorem override_mono (rules : ScopedRuleSet crate) {ignored ignored' : Bool}
    (h : ignored = true → ignored' = true)
    (hignored : IgnorePolicy.override path isDir ignored rules = true) :
    IgnorePolicy.override path isDir ignored' rules = true := by
  unfold IgnorePolicy.override at hignored ⊢
  cases hscope : scopedPath path rules.scope with
  | none =>
    rw [hscope] at hignored
    exact h hignored
  | some relative =>
    simp only [hscope] at hignored ⊢
    cases hmatch : crate.matchedPathOrAnyParents rules.matcher relative isDir with
    | none =>
      rw [hmatch] at hignored
      exact h hignored
    | ignore => rfl
    | whitelist =>
      rw [hmatch] at hignored
      cases hignored

theorem foldl_override_mono (rules : List (ScopedRuleSet crate)) {ignored ignored' : Bool}
    (h : ignored = true → ignored' = true)
    (hignored : rules.foldl (IgnorePolicy.override path isDir) ignored = true) :
    rules.foldl (IgnorePolicy.override path isDir) ignored' = true := by
  induction rules generalizing ignored ignored' with
  | nil => exact h hignored
  | cons rule rules ih =>
    rw [List.foldl_cons] at hignored ⊢
    exact ih (override_mono rule h) hignored

/-- Rules in front of others make fewer paths managed. -/
theorem managed_of_front {front rules : List (ScopedRuleSet crate)}
    (h : IgnorePolicy.decisionFor ⟨front ++ rules⟩ path isDir = .managed) :
    IgnorePolicy.decisionFor ⟨rules⟩ path isDir = .managed := by
  have hprot := IgnorePolicy.unprotected_of_managed h
  rw [← isProtected_eq_false_iff] at hprot
  unfold IgnorePolicy.decisionFor at h ⊢
  rw [hprot] at h ⊢
  simp only [Bool.false_eq_true, if_false] at h ⊢
  split_ifs at h with hfront
  refine if_neg fun hrules => hfront ?_
  have hnone : false = true → front.foldl (IgnorePolicy.override path isDir) false = true :=
    fun h => nomatch h
  rw [List.foldl_append]
  exact foldl_override_mono rules hnone hrules

/-- Both trees have the same ignore files. -/
def SameIgnoreFiles (source destination : ScanInput) : Prop :=
  ∀ directory : List Bytes,
    (source.tree.get (source.root ++ (directory ++ [ascii ".gitignore"]))).map Inode.node =
      (destination.tree.get (destination.root ++ (directory ++ [ascii ".gitignore"]))).map Inode.node

theorem SameIgnoreFiles.rulesIn_eq (h : SameIgnoreFiles source destination) (crate : IgnoreCrate)
    (scope : Option RelativePath) : rulesIn source crate scope = rulesIn destination crate scope := by
  have hnode := h (scopeComponents scope)
  unfold rulesIn
  cases hs : source.tree.get (source.root ++ (scopeComponents scope ++ [ascii ".gitignore"])) with
  | none =>
    cases hd : destination.tree.get
        (destination.root ++ (scopeComponents scope ++ [ascii ".gitignore"])) with
    | none => rfl
    | some j =>
      rw [hs, hd] at hnode
      cases hnode
  | some i =>
    cases hd : destination.tree.get
        (destination.root ++ (scopeComponents scope ++ [ascii ".gitignore"])) with
    | none =>
      rw [hs, hd] at hnode
      cases hnode
    | some j =>
      rw [hs, hd] at hnode
      obtain ⟨node, mode, mtime⟩ := i
      obtain ⟨node', mode', mtime'⟩ := j
      obtain rfl : node = node' := Option.some.inj hnode
      cases node with
      | file contents => rfl
      | directory => rfl
      | symlink target => rfl
      | special => rfl

/-- With the same ignore files, what the source manages the destination manages, whatever the source
excludes. -/
theorem managed_of_exclusions (h : SameIgnoreFiles source destination) (policy : IgnorePolicy crate)
    (hmanaged : decisionIn source policy path isDir = .managed) :
    decisionIn destination (IgnorePolicy.empty : IgnorePolicy crate) path isDir = .managed := by
  have hrules : rulesIn source crate = rulesIn destination crate := by
    funext scope
    exact h.rulesIn_eq crate scope
  unfold decisionIn policyFor at hmanaged ⊢
  rw [hrules] at hmanaged
  exact managed_of_front hmanaged

end

/-- **What the destination ignores is left alone.**  Let both trees have the same ignore files, and
let the source exclude whatever its configuration says.  Then an entry of the destination whose path
the destination's own policy ignores is there after the commit, the same, whether the commit
succeeds or fails. -/
theorem destination_ignored_survives {crate : IgnoreCrate} {source destination : ScanInput}
    {exclusions : List String} {closesAfter closesAfter' : Option ℕ} {root : RootHandle}
    {S D : List IndexRecord} {content : RelativePath → Bytes}
    {random : RelativePath → Vector UInt8 16} {order : List Operation} {pending : PendingCommit}
    {w w₁ : World} (hroot : destination.root = root.path) (htree : destination.tree = w.tree)
    (hsourceDir : source.tree.IsDir source.root) (hdestinationDir : w.tree.IsDir root.path)
    (hfiles : SameIgnoreFiles source destination)
    (hsource : scanRoot source crate exclusions closesAfter = (.ok (), stream S))
    (hdestination : scanRoot destination crate [] closesAfter' = (.ok (), stream D))
    (horder : order.Perm (plan (stream S) (stream D)).1)
    (hstage : (stagePlan root content random order).run w = (.ok pending, w₁))
    (path : RelativePath) (i : Inode) (hentry : w.tree.get (root.at path) = some i)
    (hignored : decisionIn destination (IgnorePolicy.empty : IgnorePolicy crate) path i.IsDir =
      .ignored) :
    SameEntry (w.tree.get (root.at path))
      (((pending.commit root).run w₁).2.tree.get (root.at path)) := by
  obtain ⟨policy, -, records, hrecords, hS⟩ := scanRoot_ok hsourceDir hsource
  obtain rfl := stream_injective hrecords
  obtain ⟨policy', hpolicy', records', hrecords', hD⟩ :=
    scanRoot_ok (htree ▸ hroot ▸ hdestinationDir) hdestination
  obtain rfl := stream_injective hrecords'
  obtain rfl : IgnorePolicy.empty = policy' := Except.ok.inj hpolicy'
  refine unemitted_survives hroot htree hS hD (fun _ _ => managed_of_exclusions hfiles policy)
    horder hstage _ ?_ (by simp [hentry])
  -- the entry is not emitted, since its record would be managed
  intro d hd heq
  obtain ⟨-, hrecord, hmanaged, -⟩ := (hD.mem_iff d).1 hd
  obtain rfl : d.path = path := RelativePath.ext (List.append_cancel_left heq)
  obtain ⟨-, j, hj, hkind⟩ := entryRecord_some hrecord
  rw [hroot, htree] at hj
  obtain rfl : i = j := Option.some.inj (hentry.symm.trans hj)
  rw [← decide_isDir hkind, hignored] at hmanaged
  cases hmanaged

/-! ### An excluded file -/

namespace SourceExclusion

/-- A library for rules that are names at the top of the tree. -/
def crate : IgnoreCrate where
  GitignoreBuilder := List Bytes
  Gitignore := List Bytes
  new _ := []
  addLine rules _ line := .ok (rules ++ [line.toUTF8.toList])
  build rules := .ok rules
  matchedPathOrAnyParents rules path _ := if path ∈ rules then .ignore else .none

/-- A root directory with an ignore file. -/
def base : Tree :=
  ((Tree.empty.insert [] ⟨.directory, 0o755, 0⟩).insert [ascii "root"]
    ⟨.directory, 0o755, 0⟩).insert [ascii "root", ascii ".gitignore"] ⟨.file (ascii "y\n"), 0o644, 5⟩

def input (tree : Tree) : ScanInput where
  tree := tree
  root := [ascii "root"]
  limits := defaultLimits
  directorySize _ := 0
  blake3 _ := .zero

/-- The source has nothing but the ignore file. -/
def source : ScanInput := input base

/-- The destination has a file that the source excludes, and one that the ignore file ignores. -/
def destination : ScanInput :=
  input ((base.insert [ascii "root", ascii "x"] ⟨.file [1], 0o644, 5⟩).insert
    [ascii "root", ascii "y"] ⟨.file [2], 0o644, 5⟩)

def root : RootHandle := ⟨[ascii "root"]⟩

def world : World := ⟨destination.tree, [], fun _ => 100⟩

def ignoreRecord : IndexRecord :=
  ⟨⟨[ascii ".gitignore"], by decide, by decide⟩, ⟨.regularFile, 0o644, .ofUInt64 5, 2⟩,
    some .zero, none⟩

def excludedRecord : IndexRecord :=
  ⟨DirectoryRule.record.path, ⟨.regularFile, 0o644, .ofUInt64 5, 1⟩,
    some .zero, none⟩

theorem scan_source : scanRoot source crate ["x"] none = (.ok (), stream [ignoreRecord]) := by
  decide +kernel

theorem scan_destination :
    scanRoot destination crate [] none = (.ok (), stream [ignoreRecord, excludedRecord]) := by
  decide +kernel

theorem get_destination (q : Path) : destination.tree.get q =
    if q = [ascii "root", ascii "y"] then some ⟨.file [2], 0o644, 5⟩
    else if q = [ascii "root", ascii "x"] then some ⟨.file [1], 0o644, 5⟩ else base.get q := by
  unfold destination input
  rw [Tree.get_insert (by decide +kernel), Tree.get_insert (by decide +kernel)]

theorem sameIgnoreFiles : SameIgnoreFiles source destination := by
  intro directory
  have hlast (p : Path) : [ascii "root"] ++ (directory ++ [ascii ".gitignore"]) = p →
      p.getLast? = some (ascii ".gitignore") := by
    rintro rfl
    rw [← List.append_assoc, List.getLast?_concat]
  have hget : destination.tree.get ([ascii "root"] ++ (directory ++ [ascii ".gitignore"])) =
      base.get ([ascii "root"] ++ (directory ++ [ascii ".gitignore"])) := by
    rw [get_destination, if_neg, if_neg]
    · intro h
      exact absurd (hlast _ h) (by decide)
    · intro h
      exact absurd (hlast _ h) (by decide)
  exact congrArg (Option.map Inode.node) hget.symm

/-- Stage the plan of the two scans. -/
def staging : Except QuicSyncError PendingCommit × World :=
  (stagePlan root (fun _ => []) (fun _ => Vector.replicate 16 0)
    (plan (stream [ignoreRecord]) (stream [ignoreRecord, excludedRecord])).1).run world

theorem staging_ok : ∃ pending w₁, staging = (.ok pending, w₁) ∧
    ((pending.commit root).run w₁).2.tree.get [ascii "root", ascii "x"] = none := by
  have hrun : (match staging with
      | (.ok pending, w₁) =>
        (((pending.commit root).run w₁).2.tree.get [ascii "root", ascii "x"]).isNone
      | (.error _, _) => false) = true := by decide +kernel
  cases hstage : staging with
  | mk result w₁ =>
    rw [hstage] at hrun
    cases result with
    | error e => cases hrun
    | ok pending => exact ⟨pending, w₁, rfl, Option.isNone_iff_eq_none.1 hrun⟩

end SourceExclusion

/-- A file that the source excludes and does not have is deleted at the destination. -/
theorem excluded_entry_deleted :
    ¬ ∀ (crate : IgnoreCrate) (source destination : ScanInput) (exclusions : List String)
      (closesAfter closesAfter' : Option ℕ) (root : RootHandle) (S D : List IndexRecord)
      (content : RelativePath → Bytes) (random : RelativePath → Vector UInt8 16)
      (order : List Operation) (pending : PendingCommit) (w w₁ : World),
      destination.root = root.path → destination.tree = w.tree →
      source.tree.IsDir source.root → w.tree.IsDir root.path → SameIgnoreFiles source destination →
      scanRoot source crate exclusions closesAfter = (.ok (), stream S) →
      scanRoot destination crate [] closesAfter' = (.ok (), stream D) →
      order.Perm (plan (stream S) (stream D)).1 →
      (stagePlan root content random order).run w = (.ok pending, w₁) →
      ∀ (path : RelativePath) (i : Inode), w.tree.get (root.at path) = some i →
        scanDecision destination crate exclusions path i.IsDir = .ok .ignored →
        SameEntry (w.tree.get (root.at path))
          (((pending.commit root).run w₁).2.tree.get (root.at path)) := by
  intro h
  obtain ⟨pending, w₁, hstage, hgone⟩ := SourceExclusion.staging_ok
  have hsame := h _ _ _ ["x"] none none SourceExclusion.root _ _ _ _ _ pending SourceExclusion.world
    w₁ rfl rfl (by decide +kernel) (by decide +kernel) SourceExclusion.sameIgnoreFiles
    SourceExclusion.scan_source SourceExclusion.scan_destination (List.Perm.refl _) hstage
    ⟨[ascii "x"], by decide, by decide⟩ ⟨.file [1], 0o644, 5⟩ (by decide +kernel)
    (by decide +kernel)
  rw [show SourceExclusion.root.at ⟨[ascii "x"], by decide, by decide⟩ =
    [ascii "root", ascii "x"] from rfl, hgone] at hsame
  exact absurd (SameEntry.none_iff.1 hsame.symm) (by decide +kernel)

/-- The file that the ignore file ignores survives the same run. -/
theorem destination_ignored_survives_exclusion :
    ∃ pending w₁, SourceExclusion.staging = (.ok pending, w₁) ∧
      SameEntry (some ⟨.file [2], 0o644, 5⟩)
        (((pending.commit SourceExclusion.root).run w₁).2.tree.get [ascii "root", ascii "y"]) := by
  obtain ⟨pending, w₁, hstage, -⟩ := SourceExclusion.staging_ok
  refine ⟨pending, w₁, hstage, ?_⟩
  have hentry : SourceExclusion.world.tree.get [ascii "root", ascii "y"] =
      some ⟨.file [2], 0o644, 5⟩ := by decide +kernel
  rw [← hentry]
  exact destination_ignored_survives rfl rfl (by decide +kernel) (by decide +kernel)
    SourceExclusion.sameIgnoreFiles SourceExclusion.scan_source SourceExclusion.scan_destination
    (List.Perm.refl _) hstage ⟨[ascii "y"], by decide, by decide⟩ _ hentry (by decide +kernel)

end QuicSync
