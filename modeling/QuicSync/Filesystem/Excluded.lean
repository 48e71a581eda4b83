import QuicSync.Filesystem.ScanSpec

/-!
# Excluded entries

Two trees that differ only in entries that are not managed, and in what is below them, have the same
index.  A scan looks at an entry before it decides about it, so that it fails on an excluded entry
of a kind that the synchronization model does not support, or with a path beyond the limits; on
trees that differ in entries that can be looked at, it succeeds on both or on neither.

* `AlikeExcept` : the trees differ only in excluded entries;
* `scan_alike_except_excluded` : scans of such trees.
-/

namespace QuicSync

open Posix

section

variable {crate : IgnoreCrate} {input input' : ScanInput} {policy : IgnorePolicy crate}

/-- The path is not that of an ignore file, and is excluded wherever it is that of an entry. -/
structure ExcludedAt (input : ScanInput) (policy : IgnorePolicy crate) (q : RelativePath) :
    Prop where
  not_ignoreFile : q.components.getLast? ≠ some (ascii ".gitignore")
  not_managed : ∀ i, input.tree.get (input.root ++ q.components) = some i →
    decisionIn input policy q (decide i.IsDir) ≠ .managed

/-- The path is that of an excluded entry of two trees, or below one. -/
def Hidden (input input' : ScanInput) (policy : IgnorePolicy crate) (names : List Name) : Prop :=
  ∃ q : RelativePath, q.components <+: names ∧ ExcludedAt input policy q ∧
    ExcludedAt input' policy q

/-- The trees differ only in excluded entries and what is below them. -/
structure AlikeExcept (input input' : ScanInput) (policy : IgnorePolicy crate) : Prop where
  root : input.root = input'.root
  limits : input.limits = input'.limits
  directorySize : input.directorySize = input'.directorySize
  blake3 : input.blake3 = input'.blake3
  entries : ∀ names, input.tree.get (input.root ++ names) = input'.tree.get (input'.root ++ names) ∨
    Hidden input input' policy names

/-- Where a directory that is visited has an entry that it does not have in another tree, a scan can
look at it. -/
def Inspectable (input input' : ScanInput) (policy : IgnorePolicy crate) : Prop :=
  ∀ scope name i, VisitedDir input policy scope →
    input.tree.get (input.root ++ (scopeComponents scope ++ [name])) = some i →
    input'.tree.get (input'.root ++ (scopeComponents scope ++ [name])) ≠ some i →
    (∃ path, appendComponent scope name input.limits = .ok path) ∧
      input.tree.Enterable (input.root ++ scopeComponents scope) ∧ kindOf i.node ≠ none

theorem Hidden.symm {names : List Name} (h : Hidden input input' policy names) :
    Hidden input' input policy names := by
  obtain ⟨q, hq, hex, hex'⟩ := h
  exact ⟨q, hq, hex', hex⟩

theorem Hidden.mono {names names' : List Name} (h : Hidden input input' policy names)
    (hpre : names <+: names') : Hidden input input' policy names' := by
  obtain ⟨q, hq, hex⟩ := h
  exact ⟨q, hq.trans hpre, hex⟩

theorem not_hidden_nil : ¬ Hidden input input' policy [] := by
  rintro ⟨q, hq, -⟩
  exact q.ne_nil (List.prefix_nil.1 hq)

theorem AlikeExcept.symm (h : AlikeExcept input input' policy) :
    AlikeExcept input' input policy :=
  ⟨h.root.symm, h.limits.symm, h.directorySize.symm, h.blake3.symm, fun names =>
    (h.entries names).imp Eq.symm Hidden.symm⟩

/-! ### What is not hidden -/

theorem AlikeExcept.get_eq (h : AlikeExcept input input' policy) {names : List Name}
    (hn : ¬ Hidden input input' policy names) :
    input'.tree.get (input'.root ++ names) = input.tree.get (input.root ++ names) :=
  ((h.entries names).resolve_right hn).symm

/-- An ignore file is hidden only with its directory. -/
theorem Hidden.of_ignoreFile {names : List Name}
    (h : Hidden input input' policy (names ++ [ascii ".gitignore"])) :
    Hidden input input' policy names := by
  obtain ⟨q, hq, hex, hex'⟩ := h
  obtain heq | hq := List.prefix_concat_iff.1 hq
  · exact absurd (by rw [heq, List.getLast?_concat]) hex.not_ignoreFile
  · exact ⟨q, hq, hex, hex'⟩

theorem AlikeExcept.rulesIn_eq (h : AlikeExcept input input' policy) {scope : Option RelativePath}
    (hn : ¬ Hidden input input' policy (scopeComponents scope)) :
    rulesIn input' crate scope = rulesIn input crate scope := by
  unfold rulesIn
  rw [h.get_eq fun hh => hn hh.of_ignoreFile]

/-- The rules for the entries of a directory that is not hidden. -/
theorem AlikeExcept.policyFor_eq (h : AlikeExcept input input' policy) {names : List Name}
    (name : Name) (hn : ¬ Hidden input input' policy names) :
    policyFor input' policy (names ++ [name]) = policyFor input policy (names ++ [name]) := by
  unfold policyFor
  congr 2
  refine List.flatMap_congr fun k hk => h.rulesIn_eq fun hh => ?_
  rw [List.mem_range, List.length_append, List.length_singleton] at hk
  rw [List.take_append_of_le_length (Nat.lt_succ_iff.1 hk)] at hh
  exact hn (hh.mono ((scopeOf_isPrefix _).trans (List.take_prefix k names)))

theorem AlikeExcept.decisionIn_eq (h : AlikeExcept input input' policy) {names : List Name}
    {name : Name} {q : RelativePath} (hq : q.components = names ++ [name])
    (hn : ¬ Hidden input input' policy names) (isDir : Bool) :
    decisionIn input' policy q isDir = decisionIn input policy q isDir := by
  unfold decisionIn
  rw [hq, h.policyFor_eq name hn]

/-- A path is not hidden where it and the directories above it are managed. -/
theorem ManagedPath.not_hidden {p : RelativePath} (h : ManagedPath input policy p) :
    ¬ Hidden input input' policy p.components := by
  rintro ⟨q, hq, hex, -⟩
  by_cases hne : q = p
  · subst hne
    obtain ⟨i, hi, hmanaged, -⟩ := h
    exact hex.not_managed i hi hmanaged
  · obtain ⟨⟨i, hi, hmanaged, -⟩, -⟩ := h.above hq hne
    exact hex.not_managed i hi hmanaged

theorem visited_some_iff {p : RelativePath} :
    VisitedDir input policy (some p) ↔
      ManagedPath input policy p ∧ input.tree.IsDir (input.root ++ p.components) := by
  constructor
  · rintro ⟨hdir, hmanaged⟩
    obtain ⟨i, hi, hidir⟩ := id hdir
    refine ⟨⟨i, hi, ?_, fun q hq _ => hmanaged q hq⟩, hdir⟩
    rw [decide_eq_true hidir]
    exact hmanaged p List.prefix_rfl
  · rintro ⟨⟨i, hi, hmanaged, habove⟩, hdir⟩
    refine ⟨hdir, fun q hq => ?_⟩
    by_cases hne : q = p
    · subst hne
      obtain ⟨j, hj, hjdir⟩ := hdir
      rw [hi] at hj
      cases hj
      rwa [decide_eq_true hjdir] at hmanaged
    · exact habove q hq hne

theorem VisitedDir.not_hidden {scope : Option RelativePath} (h : VisitedDir input policy scope) :
    ¬ Hidden input input' policy (scopeComponents scope) := by
  cases scope with
  | none => exact not_hidden_nil
  | some p => exact (visited_some_iff.1 h).1.not_hidden

/-! ### The index -/

/-- The decision about a path at or above one that is not hidden. -/
theorem AlikeExcept.decisionIn_eq_of_prefix (h : AlikeExcept input input' policy)
    {p q : RelativePath} (hn : ¬ Hidden input input' policy p.components)
    (hq : q.components <+: p.components) (isDir : Bool) :
    decisionIn input' policy q isDir = decisionIn input policy q isDir := by
  have hconcat := List.dropLast_append_getLast q.ne_nil
  refine h.decisionIn_eq hconcat.symm (fun hh => hn ?_) isDir
  exact hh.mono ((List.dropLast_prefix _).trans hq)

theorem ManagedPath.alike (h : AlikeExcept input input' policy) {p : RelativePath}
    (hp : ManagedPath input policy p) : ManagedPath input' policy p := by
  have hn : ¬ Hidden input input' policy p.components := hp.not_hidden
  obtain ⟨i, hi, hmanaged, habove⟩ := hp
  refine ⟨i, (h.get_eq hn).trans hi, ?_, fun q hq hne => ?_⟩
  · rwa [h.decisionIn_eq_of_prefix hn List.prefix_rfl]
  · rw [h.decisionIn_eq_of_prefix hn hq]
    exact habove q hq hne

theorem AlikeExcept.managedPath_iff (h : AlikeExcept input input' policy) {p : RelativePath} :
    ManagedPath input' policy p ↔ ManagedPath input policy p :=
  ⟨ManagedPath.alike h.symm, ManagedPath.alike h⟩

theorem AlikeExcept.entryRecord_eq (h : AlikeExcept input input' policy) {p : RelativePath}
    (hn : ¬ Hidden input input' policy p.components) :
    entryRecord input' p = entryRecord input p := by
  unfold entryRecord
  rw [h.get_eq hn]
  simp only [len, h.root, h.directorySize, h.blake3]

/-- Trees that differ only in excluded entries have the same index. -/
theorem Index.alike (h : AlikeExcept input input' policy) {records : List IndexRecord}
    (hindex : Index input policy records) : Index input' policy records := by
  refine ⟨fun r hr => ?_, fun p => ?_, hindex.sorted, hindex.ancestors, hindex.unprotected⟩
  · have hmanaged := (hindex.path_iff r.path).1 ⟨r, hr, rfl⟩
    rw [h.entryRecord_eq hmanaged.not_hidden]
    exact hindex.record r hr
  · rw [hindex.path_iff, h.managedPath_iff]

/-! ### Success -/

theorem VisitedDir.alike (h : AlikeExcept input input' policy) {scope : Option RelativePath}
    (hvisited : VisitedDir input policy scope) : VisitedDir input' policy scope := by
  have hn : ¬ Hidden input input' policy (scopeComponents scope) := hvisited.not_hidden
  have hdir : input'.tree.IsDir (input'.root ++ scopeComponents scope) := by
    unfold Tree.IsDir
    rw [h.get_eq hn]
    exact hvisited.1
  cases scope with
  | none =>
    rw [visited_none_iff]
    simpa [scopeComponents] using hdir
  | some p => exact visited_some_iff.2 ⟨(visited_some_iff.1 hvisited).1.alike h, hdir⟩

/-- An entry of a directory that is not hidden, in one tree and then in the other. -/
theorem EntryOk.alike (h : AlikeExcept input input' policy) {scope : Option RelativePath}
    {name : Name} (hn : ¬ Hidden input input' policy (scopeComponents scope))
    (hget : input'.tree.get (input'.root ++ (scopeComponents scope ++ [name])) =
      input.tree.get (input.root ++ (scopeComponents scope ++ [name])))
    (hok : EntryOk input policy scope name) : EntryOk input' policy scope name := by
  refine ⟨?_, ?_, fun i hi => ?_, fun path i hpath hi hkind hmanaged => ?_⟩
  · rw [← h.limits]
    exact hok.fits
  · unfold Tree.Enterable
    rw [h.get_eq hn]
    exact hok.enterable
  · exact hok.supported i (hget.symm.trans hi)
  · rw [h.decisionIn_eq hpath hn] at hmanaged
    rw [hpath] at hi
    exact hok.readable path i hpath (by rw [hpath, ← hget]; exact hi) hkind hmanaged

theorem DirectoryOk.alike (h : AlikeExcept input input' policy)
    (hinspect : Inspectable input' input policy) {scope : Option RelativePath}
    (hvisited : VisitedDir input' policy scope) (hok : DirectoryOk input policy scope) :
    DirectoryOk input' policy scope := by
  have hn : ¬ Hidden input input' policy (scopeComponents scope) := fun hh =>
    hvisited.not_hidden hh.symm
  refine ⟨fun i hi => ?_, fun contents mode mtime hfile => ?_, fun name hname => ?_⟩
  · rw [h.get_eq hn] at hi
    exact hok.readable i hi
  · rw [h.get_eq fun hh => hn hh.of_ignoreFile] at hfile
    exact hok.ignoreFile contents mode mtime hfile
  · obtain ⟨i, hi⟩ := mem_children_iff.1 (mem_sortNames.2 hname)
    obtain hsame | hdiffer := eq_or_ne
      (input.tree.get (input.root ++ (scopeComponents scope ++ [name]))) (some i)
    · have hmem := mem_sortNames.1 (mem_children_iff.2 ⟨i, hsame⟩)
      exact (hok.entries name hmem).alike h hn (hi.trans hsame.symm)
    · -- the entry is excluded, so that it need not be read
      obtain ⟨hfits, henter, hkind⟩ := hinspect scope name i hvisited hi hdiffer
      refine ⟨hfits, henter, fun j hj => ?_, fun path j hpath hj hfile hmanaged => ?_⟩
      · rw [hi] at hj
        cases hj
        exact hkind
      · obtain hsame | hhidden := h.entries (scopeComponents scope ++ [name])
        · exact absurd (hsame.trans hi) hdiffer
        · obtain ⟨q, hq, hex', hex⟩ := hhidden
          obtain hq | hq := List.prefix_concat_iff.1 hq
          · obtain rfl : q = path := RelativePath.components_injective (hq.trans hpath.symm)
            have hdir : ¬ j.IsDir := by
              rw [isDir_iff_kindOf, hfile]
              exact fun hf => nomatch hf
            refine absurd ?_ (hex.not_managed j hj)
            rw [decide_eq_false hdir]
            exact hmanaged
          · exact absurd ⟨q, hq, hex', hex⟩ hn

theorem Scannable.alike (h : AlikeExcept input input' policy)
    (hinspect : Inspectable input' input policy) (hok : Scannable input policy) :
    Scannable input' policy := by
  intro scope hvisited
  exact (hok scope (hvisited.alike h.symm)).alike h hinspect hvisited

theorem Scannable.inspectable (h : Scannable input policy) : Inspectable input input' policy := by
  intro scope name i hvisited hi _
  have hmem := mem_sortNames.1 (mem_children_iff.2 ⟨i, hi⟩)
  have hok := (h scope hvisited).entries name hmem
  exact ⟨hok.fits, hok.enterable, hok.supported i hi⟩

variable {configuredExclusions : List String} {closesAfter : Option ℕ}

theorem scanRoot_alike
    (h : ∀ policy : IgnorePolicy crate,
      IgnorePolicy.withConfiguredExclusions configuredExclusions = .ok policy →
      AlikeExcept input input' policy ∧ Inspectable input' input policy) {items : List IndexItem}
    (hscan : scanRoot input crate configuredExclusions closesAfter = (.ok (), items)) :
    scanRoot input' crate configuredExclusions closesAfter = (.ok (), items) := by
  obtain ⟨policy, records, hpolicy, hdir, hscannable, hindex, hstays, rfl⟩ :=
    scanRoot_ok_iff.1 hscan
  obtain ⟨halike, hinspect⟩ := h policy hpolicy
  refine scanRoot_ok_iff.2 ⟨policy, records, hpolicy, ?_, hscannable.alike halike hinspect,
    hindex.alike halike, hstays, rfl⟩
  exact visited_none_iff.1 ((visited_none_iff.2 hdir : VisitedDir input policy none).alike halike)

end

namespace SampleScan

/-- The sample with something else in place of the file that is ignored. -/
def inputWith (i : Inode) : ScanInput :=
  { input with tree := input.tree.insert [ascii "root", ascii "y"] i }

/-- The path that is ignored. -/
def ignoredPath : RelativePath := ⟨[ascii "y"], by decide, by decide⟩

theorem get_inputWith (i : Inode) (names : List Name) :
    (inputWith i).tree.get ((inputWith i).root ++ names) =
      if names = [ascii "y"] then some i else input.tree.get (input.root ++ names) := by
  have hdir : input.tree.IsDir [ascii "root"] := by decide +kernel
  have hchild : ¬ input.tree.HasChild [ascii "root", ascii "y"] := by decide +kernel
  show (input.tree.insert [ascii "root", ascii "y"] i).get (ascii "root" :: names) = _
  rw [Tree.get_insert ⟨Or.inr hdir, Or.inr hchild⟩]
  simp [input]

theorem alike_inputWith {i : Inode}
    (h : ∀ isDir, decisionIn (inputWith i) (IgnorePolicy.empty : IgnorePolicy crate) ignoredPath
      isDir = .ignored) :
    AlikeExcept input (inputWith i) (IgnorePolicy.empty : IgnorePolicy crate) := by
  have hignored : ∀ isDir, decisionIn input (IgnorePolicy.empty : IgnorePolicy crate) ignoredPath
      isDir = .ignored := by decide +kernel
  refine ⟨rfl, rfl, rfl, rfl, fun names => ?_⟩
  by_cases hnames : names = [ascii "y"]
  · subst hnames
    refine Or.inr ⟨ignoredPath, List.prefix_rfl, ⟨by decide, fun j _ => ?_⟩,
      ⟨by decide, fun j _ => ?_⟩⟩
    · rw [hignored]
      exact fun hf => nomatch hf
    · rw [h]
      exact fun hf => nomatch hf
  · rw [get_inputWith, if_neg hnames]
    exact Or.inl rfl

/-- The entry that the samples differ in lies in the root directory. -/
theorem at_ignoredPath {scope : Option RelativePath} {name : Name}
    (h : scopeComponents scope ++ [name] = [ascii "y"]) :
    (∃ path, appendComponent scope name defaultLimits = .ok path) ∧ scopeComponents scope = [] := by
  have hscope : scopeComponents scope = [] := by
    simpa using congrArg List.dropLast h
  refine ⟨⟨ignoredPath, appendComponent_eq_ok_iff.2 ⟨h.symm, by decide, by decide⟩⟩, hscope⟩

theorem inspectable_inputWith {i : Inode} (hkind : kindOf i.node ≠ none)
    (henter : (inputWith i).tree.Enterable [ascii "root"]) :
    Inspectable input (inputWith i) (IgnorePolicy.empty : IgnorePolicy crate) ∧
      Inspectable (inputWith i) input (IgnorePolicy.empty : IgnorePolicy crate) := by
  have hinput : input.tree.Enterable [ascii "root"] :=
    ⟨⟨.directory, 0o755, 0⟩, by decide +kernel, rfl, by decide⟩
  constructor
  · intro scope name j _ hj hne
    by_cases hnames : scopeComponents scope ++ [name] = [ascii "y"]
    · obtain ⟨hfits, hscope⟩ := at_ignoredPath hnames
      rw [hscope, List.append_nil]
      refine ⟨hfits, hinput, ?_⟩
      rw [hnames, get_input, if_pos rfl] at hj
      cases hj
      exact fun hf => nomatch hf
    · rw [get_inputWith, if_neg hnames] at hne
      exact absurd hj hne
  · intro scope name j _ hj hne
    rw [get_inputWith] at hj
    by_cases hnames : scopeComponents scope ++ [name] = [ascii "y"]
    · obtain ⟨hfits, hscope⟩ := at_ignoredPath hnames
      rw [hscope, List.append_nil]
      refine ⟨hfits, henter, ?_⟩
      rw [if_pos hnames] at hj
      cases hj
      exact hkind
    · rw [if_neg hnames] at hj
      exact absurd hj hne

/-- A named pipe that is ignored. -/
def pipe : Inode := ⟨.special, 0o644, 5⟩

/-- A symbolic link that is ignored. -/
def link : Inode := ⟨.symlink (ascii "x"), 0o777, 5⟩

theorem scan_input : ∃ items, scanRoot input crate [] none = (.ok (), items) := by
  have hok : (scanRoot input crate [] none).1.isOk = true := by decide +kernel
  rcases hscan : scanRoot input crate [] none with ⟨_ | _, items⟩
  · rw [hscan] at hok
    cases hok
  · exact ⟨items, rfl⟩

theorem scan_pipe (items : List IndexItem) :
    scanRoot (inputWith pipe) crate [] none ≠ (.ok (), items) := by
  have hok : (scanRoot (inputWith pipe) crate [] none).1.isOk = false := by decide +kernel
  intro hscan
  rw [hscan] at hok
  cases hok

end SampleScan

end QuicSync
