import QuicSync.Filesystem.Scan

/-!
# When a scan succeeds

A scan looks at every entry of the directories it visits before it decides about it, so that what it
needs is a matter of the visited directories: they may be read, their ignore files may be read and
are accepted, and every entry has a path within the limits, can be looked at and is of a supported
kind; what is managed may be read.

* `Scannable` : this, for every visited directory;
* `scanDirectory_run` : the scan of a directory succeeds if the visited directories at and below it
  are such, and `scannableBelow_of_ok` is the converse.
-/

namespace QuicSync

open Posix

section

variable {crate : IgnoreCrate} (input : ScanInput) (policy : IgnorePolicy crate)

/-- A directory that a scan comes to: the root, or one that is managed together with its
ancestors. -/
def VisitedDir (scope : Option RelativePath) : Prop :=
  input.tree.IsDir (input.root ++ scopeComponents scope) ∧
    ∀ q : RelativePath, q.components <+: scopeComponents scope →
      decisionIn input policy q true = .managed

/-- The ignore file of a directory, if it is a regular file, may be read and is accepted. -/
def IgnoreFileOk (crate : IgnoreCrate) (scope : Option RelativePath) : Prop :=
  ∀ contents mode mtime,
    input.tree.get (input.root ++ (scopeComponents scope ++ [ascii ".gitignore"])) =
      some ⟨.file contents, mode, mtime⟩ →
    (⟨.file contents, mode, mtime⟩ : Inode).Readable ∧
      ∃ matcher, buildMatcher crate scope contents = .ok matcher

/-- An entry that a scan can look at, and read where it is managed. -/
structure EntryOk (scope : Option RelativePath) (name : Name) : Prop where
  fits : ∃ path, appendComponent scope name input.limits = .ok path
  enterable : input.tree.Enterable (input.root ++ scopeComponents scope)
  supported : ∀ i, input.tree.get (input.root ++ (scopeComponents scope ++ [name])) = some i →
    kindOf i.node ≠ none
  readable : ∀ (path : RelativePath) (i : Inode), path.components = scopeComponents scope ++ [name] →
    input.tree.get (input.root ++ path.components) = some i →
    kindOf i.node = some .regularFile → decisionIn input policy path false = .managed → i.Readable

/-- A directory that a scan can look into. -/
structure DirectoryOk (scope : Option RelativePath) : Prop where
  readable : ∀ i, input.tree.get (input.root ++ scopeComponents scope) = some i → i.Readable
  ignoreFile : IgnoreFileOk input crate scope
  entries : ∀ name ∈ input.tree.children (input.root ++ scopeComponents scope),
    EntryOk input policy scope name

/-- Every directory that a scan comes to is one it can look into. -/
def Scannable : Prop := ∀ scope, VisitedDir input policy scope → DirectoryOk input policy scope

variable {input policy}

/-- The consumer stays until `n` more messages have been sent. -/
def Room (s : Scanner crate) (n : ℕ) : Prop :=
  ∀ k ∈ s.output.closesAfter, s.output.items.length + n < k

theorem Room.not_isClosed {s : Scanner crate} {n : ℕ} (h : Room s n) :
    s.output.isClosed = false := by
  unfold Output.isClosed
  cases hk : s.output.closesAfter with
  | none => rfl
  | some k =>
    have := h k hk
    simp only [Option.any_some, decide_eq_false_iff_not]
    omega

theorem Room.mono {s : Scanner crate} {m n : ℕ} (h : Room s n) (hm : m ≤ n) : Room s m :=
  fun k hk => by
    have := h k hk
    omega

theorem room_sent {s : Scanner crate} {records : List IndexRecord} {n : ℕ} :
    Room (s.sent records) n ↔ Room s (records.length + n) := by
  simp only [Room, Scanner.sent, List.length_append, List.length_map, Nat.add_assoc]

theorem mapError_ok_iff {ε ε' α : Type} {f : ε → ε'} {x : Except ε α} {a : α} :
    x.mapError f = .ok a ↔ x = .ok a := by
  refine ⟨mapError_eq_ok, ?_⟩
  rintro rfl
  rfl

theorem emit_run {s : Scanner crate} {message : IndexMessage} (h : s.output.isClosed = false) :
    (emit message).run s =
      (.ok (), { s with output := { s.output with items := s.output.items ++ [.ok message] } }) := by
  unfold emit
  rw [Fallible.run_bind_ok (Fallible.run_get s), h]
  rfl

/-! ### One entry -/

section Entry

variable {path : RelativePath} {i : Inode}

/-- The metadata of an entry can be read where the entry can be reached and is of a supported
kind. -/
theorem metadataFor_ok_iff (hi : input.tree.get (input.root ++ path.components) = some i) :
    (∃ m, metadataFor input path = .ok m) ↔
      input.tree.Reachable input.root path.components ∧ kindOf i.node ≠ none := by
  have hplain := plainNames_path path
  constructor
  · rintro ⟨⟨metadata, target⟩, h⟩
    obtain ⟨hkind, -⟩ := entryRecord_of_ok hi h
    obtain ⟨j, hstat, -⟩ := bind_eq_ok_iff.1 h
    obtain ⟨hreach, -⟩ := (lstat_eq_ok_iff hplain path.ne_nil hi).1 (mapError_eq_ok hstat)
    exact ⟨hreach, by simp [hkind]⟩
  · rintro ⟨hreach, hkind⟩
    have hstat := mapError_ok_iff (f := Scan.pathFailure "cannot inspect '"
      (input.root ++ path.components)).2 ((lstat_eq_ok_iff hplain path.ne_nil hi).2 ⟨hreach, rfl⟩)
    obtain ⟨node, mode, mtime⟩ := i
    cases node with
    | special => exact absurd rfl hkind
    | directory => exact ⟨_, bind_eq_ok_iff.2 ⟨_, hstat, rfl⟩⟩
    | file content => exact ⟨_, bind_eq_ok_iff.2 ⟨_, hstat, rfl⟩⟩
    | symlink target =>
      have hlink : readSymlinkTarget input path = .ok target :=
        mapError_ok_iff.2 ((readlink_eq_ok_iff hplain path.ne_nil hi).2 ⟨hreach, rfl⟩)
      refine ⟨(⟨.symlink, mode &&& 0o7777, mtimeNs ⟨.symlink target, mode, mtime⟩,
        UInt64.ofNat target.length⟩, some target), bind_eq_ok_iff.2 ⟨_, hstat, ?_⟩⟩
      simp only [metadataFrom, kindOf, hlink]
      rfl

/-- The digest of an entry that can be reached is computed unless it is a file that may not be
read. -/
theorem digestFor_ok_iff (hi : input.tree.get (input.root ++ path.components) = some i)
    (hreach : input.tree.Reachable input.root path.components) {kind : EntryKind}
    (hkind : kindOf i.node = some kind) (target : Option Bytes) :
    (∃ digest, digestFor input path kind target = .ok digest) ↔
      (kind = .regularFile → i.Readable) := by
  have hplain := plainNames_path path
  cases kind with
  | directory => exact iff_of_true ⟨_, rfl⟩ fun h => nomatch h
  | symlink => exact iff_of_true ⟨_, rfl⟩ fun h => nomatch h
  | regularFile =>
    obtain ⟨node, mode, mtime⟩ := i
    cases node with
    | directory => cases hkind
    | symlink target => cases hkind
    | special => cases hkind
    | file content =>
      constructor
      · rintro ⟨digest, hdigest⟩ -
        cases hread : readFile input.tree input.root path.components with
        | error e =>
          simp only [digestFor, digestFile, hread] at hdigest
          cases hdigest
        | ok content' => exact ((readFile_eq_ok_iff hplain hi).1 hread).2.1
      · intro hreadable
        have hread := (readFile_eq_ok_iff hplain hi).2 ⟨hreach, hreadable rfl, rfl⟩
        simp only [digestFor, digestFile, hread]
        exact ⟨_, rfl⟩

/-- A scan of one entry that succeeds could look at it, and read it where it is managed. -/
theorem entryOk_of_ok {scanBelow : RelativePath → ScanM crate Unit} {scope : Option RelativePath}
    {name : Name} {s s' : Scanner crate}
    (hpolicy : s.policy = policyFor input policy (scopeComponents scope ++ [name]))
    (hi : input.tree.get (input.root ++ (scopeComponents scope ++ [name])) = some i)
    (h : (scanEntry input scanBelow scope name).run s = (.ok (), s')) :
    EntryOk input policy scope name := by
  obtain ⟨path, metadata, target, happend, hmetadata, hsteps⟩ := scanEntry_steps h
  have hcomponents := appendComponent_ok happend
  rw [← hcomponents] at hi hpolicy
  obtain ⟨hreach, hkind⟩ := (metadataFor_ok_iff hi).1 ⟨_, hmetadata⟩
  obtain ⟨hkind', -⟩ := entryRecord_of_ok hi hmetadata
  refine ⟨⟨path, happend⟩, ?_, fun j hj => ?_, fun q j hq hj hfile hmanaged => ?_⟩
  · rw [hcomponents, Tree.reachable_concat] at hreach
    exact hreach.2
  · rw [← hcomponents, hi] at hj
    cases hj
    exact hkind
  · obtain rfl : q = path := RelativePath.components_injective (hq.trans hcomponents.symm)
    rw [hi] at hj
    cases hj
    have hkindEq : metadata.kind = .regularFile := Option.some.inj (hkind'.symm.trans hfile)
    have hdecision : s.policy.decision q metadata.kind = .managed := by
      rw [hpolicy, hkindEq]
      exact hmanaged
    obtain ⟨hnot, -⟩ | ⟨-, digest, hdigest, -⟩ := hsteps
    · exact absurd hdecision hnot
    · exact (digestFor_ok_iff hi hreach hkind' target).1 ⟨digest, hdigest⟩ hkindEq

/-- An entry that a scan can look at has a record. -/
theorem EntryOk.exists_record {scope : Option RelativePath} {name : Name}
    (hok : EntryOk input policy scope name)
    (hi : input.tree.get (input.root ++ (scopeComponents scope ++ [name])) = some i) :
    ∃ path r, appendComponent scope name input.limits = .ok path ∧
      path.components = scopeComponents scope ++ [name] ∧ entryRecord input path = some r := by
  obtain ⟨path, hpath⟩ := hok.fits
  have hcomponents := appendComponent_ok hpath
  obtain ⟨kind, hkind⟩ := Option.ne_none_iff_exists'.1 (hok.supported i hi)
  rw [← hcomponents] at hi
  obtain ⟨r, hr, -⟩ := exists_entryRecord hi hkind
  exact ⟨path, r, hpath, hcomponents, hr⟩

/-- What the scan of an entry does that it can look at: it sends the record of a managed one and
goes into a directory. -/
theorem scanEntry_run (scanBelow : RelativePath → ScanM crate Unit) {scope : Option RelativePath}
    {name : Name} {s : Scanner crate} {r : IndexRecord} (hok : EntryOk input policy scope name)
    (hpolicy : s.policy = policyFor input policy (scopeComponents scope ++ [name]))
    (hreach : input.tree.Reachable input.root (scopeComponents scope))
    (hopen : s.output.isClosed = false)
    (hpath : path.components = scopeComponents scope ++ [name])
    (hr : entryRecord input path = some r) :
    (scanEntry input scanBelow scope name).run s =
      if decisionIn input policy path (r.metadata.kind = .directory) = .managed then
        if r.metadata.kind = .directory then (scanBelow path).run (s.sent [r])
        else (.ok (), s.sent [r])
      else (.ok (), s) := by
  obtain ⟨-, i, hi, hkind⟩ := entryRecord_some hr
  obtain ⟨path', happend⟩ := hok.fits
  obtain rfl : path' = path :=
    RelativePath.components_injective ((appendComponent_ok happend).trans hpath.symm)
  have hreach' : input.tree.Reachable input.root path'.components := by
    rw [hpath, Tree.reachable_concat]
    exact ⟨hreach, hok.enterable⟩
  rw [← hpath] at hpolicy
  obtain ⟨⟨metadata, target⟩, hmetadata⟩ := (metadataFor_ok_iff hi).2 ⟨hreach', by simp [hkind]⟩
  obtain ⟨hkind', hrecord⟩ := entryRecord_of_ok hi hmetadata
  have hrkind : r.metadata.kind = metadata.kind := Option.some.inj (hkind.symm.trans hkind')
  have hdecision : s.policy.decision path' metadata.kind =
      decisionIn input policy path' (metadata.kind = .directory) := by
    rw [hpolicy]
    rfl
  unfold scanEntry
  rw [Fallible.run_bind_ok (Fallible.run_get s), hopen, if_neg Bool.false_ne_true,
    Fallible.run_bind_ok ((Fallible.run_lift _ _).trans (by rw [happend])),
    Fallible.run_bind_ok ((Fallible.run_lift _ _).trans (by rw [hmetadata]; rfl)), hrkind]
  simp only [hdecision]
  cases hd : decisionIn input policy path' (metadata.kind = .directory) with
  | ignored => rfl
  | «protected» => rfl
  | managed =>
    have hreadable : metadata.kind = .regularFile → i.Readable := fun hfile => by
      have hnot : decide (metadata.kind = .directory) = false := by rw [hfile]; rfl
      rw [hnot] at hd
      exact hok.readable path' i hpath hi (hfile ▸ hkind') hd
    obtain ⟨digest, hdigest⟩ := (digestFor_ok_iff hi hreach' hkind' target).2 hreadable
    obtain rfl : r = ⟨path', metadata, digest, target⟩ :=
      Option.some.inj (hr.symm.trans (hrecord digest hdigest))
    rw [if_pos rfl, Fallible.run_bind_ok ((Fallible.run_lift _ _).trans (by rw [hdigest])),
      Fallible.run_bind_ok (emit_run hopen)]
    split <;> rfl

end Entry

/-! ### The ignore file of a directory -/

theorem addIgnoreContents_ok_iff {scope : Option RelativePath} {contents : Bytes}
    (before : IgnorePolicy crate) :
    (∃ after, before.addIgnoreContents scope contents = .ok after) ↔
      ∃ matcher, buildMatcher crate scope contents = .ok matcher := by
  constructor
  · rintro ⟨after, h⟩
    obtain ⟨matcher, hbuild, -⟩ := bind_eq_ok_iff.1 h
    exact ⟨matcher, hbuild⟩
  · rintro ⟨matcher, hbuild⟩
    exact ⟨_, bind_eq_ok_iff.2 ⟨matcher, hbuild, rfl⟩⟩

/-- An ignore file whose rules are added may be read and is accepted. -/
theorem ignoreFileOk_of_ok {scope : Option RelativePath} {s s' : Scanner crate}
    (h : (addIgnoreFile input scope
      (sortNames (input.tree.children (input.root ++ scopeComponents scope)))).run s =
        (.ok (), s')) : IgnoreFileOk input crate scope := by
  intro contents mode mtime hi
  have hplain := plainNames_ignoreFile scope
  unfold addIgnoreFile at h
  rw [if_pos (mem_children_iff.2 ⟨_, hi⟩)] at h
  obtain ⟨j, s₁, hstat, h₁⟩ := Fallible.run_bind_ok_iff.1 h
  obtain ⟨-, rfl⟩ := (lstat_eq_ok_iff hplain (by simp) hi).1 (mapError_eq_ok (lift_ok hstat).1)
  have hfile : kindOf (Inode.node ⟨.file contents, mode, mtime⟩) = some .regularFile := rfl
  rw [if_pos hfile] at h₁
  obtain ⟨contents', s₂, hread, h₂⟩ := Fallible.run_bind_ok_iff.1 h₁
  obtain ⟨-, hreadable, rfl⟩ :=
    (readFile_eq_ok_iff hplain hi).1 (mapError_eq_ok (lift_ok hread).1)
  rw [Fallible.run_bind_ok (Fallible.run_get _)] at h₂
  obtain ⟨after, s₃, hadd, -⟩ := Fallible.run_bind_ok_iff.1 h₂
  exact ⟨hreadable, (addIgnoreContents_ok_iff _).1 ⟨after, (lift_ok hadd).1⟩⟩

/-- The rules of an ignore file that may be read and is accepted are added. -/
theorem addIgnoreFile_run {scope : Option RelativePath} (s : Scanner crate)
    (hok : IgnoreFileOk input crate scope)
    (hreach : (∃ i, input.tree.get
      (input.root ++ (scopeComponents scope ++ [ascii ".gitignore"])) = some i) →
        input.tree.Reachable input.root (scopeComponents scope ++ [ascii ".gitignore"])) :
    ∃ s', (addIgnoreFile input scope
      (sortNames (input.tree.children (input.root ++ scopeComponents scope)))).run s =
        (.ok (), s') := by
  have hplain := plainNames_ignoreFile scope
  unfold addIgnoreFile
  split
  · rename_i hmem
    obtain ⟨i, hi⟩ := mem_children_iff.1 hmem
    have hreach' := hreach ⟨i, hi⟩
    have hstat := (lstat_eq_ok_iff hplain (by simp) hi).2 ⟨hreach', rfl⟩
    rw [Fallible.run_bind_ok ((Fallible.run_lift _ _).trans (by rw [hstat]; rfl))]
    obtain ⟨node, mode, mtime⟩ := i
    cases node with
    | directory => exact ⟨_, rfl⟩
    | symlink target => exact ⟨_, rfl⟩
    | special => exact ⟨_, rfl⟩
    | file contents =>
      obtain ⟨hreadable, hmatcher⟩ := hok contents mode mtime hi
      have hread := (readFile_eq_ok_iff hplain hi).2 ⟨hreach', hreadable, rfl⟩
      obtain ⟨after, hadd⟩ := (addIgnoreContents_ok_iff s.policy).2 hmatcher
      have hfile : kindOf (Inode.node ⟨.file contents, mode, mtime⟩) = some .regularFile := rfl
      rw [if_pos hfile, Fallible.run_bind_ok ((Fallible.run_lift _ _).trans (by rw [hread]; rfl)),
        Fallible.run_bind_ok (Fallible.run_get _),
        Fallible.run_bind_ok ((Fallible.run_lift _ _).trans (by rw [hadd]))]
      exact ⟨_, rfl⟩
  · exact ⟨s, rfl⟩

/-! ### Directories -/

/-- What the scan of a directory does that it can look into. -/
theorem scanDirectory_succ {n : ℕ} {scope : Option RelativePath} (s : Scanner crate)
    (hok : DirectoryOk input policy scope)
    (hdir : input.tree.IsDir (input.root ++ scopeComponents scope))
    (hreach : input.tree.Reachable input.root (scopeComponents scope)) :
    (scanDirectory input (n + 1) scope).run s =
      (scanEntries input (fun path => scanDirectory input n (some path)) scope
          (sortNames (input.tree.children (input.root ++ scopeComponents scope))) >>= fun _ =>
        Fallible.modify fun s' => { s' with policy := s'.policy.restore s.policy.checkpoint }).run
        (s.inside input scope) := by
  have hplain := plainNames_scope scope
  obtain ⟨i, hi, hidir⟩ := hdir
  have hread := (readDir_eq_ok_iff hplain hi hidir).2 ⟨hreach, hok.readable i hi, rfl⟩
  obtain ⟨s', hrun⟩ := addIgnoreFile_run s hok.ignoreFile fun hmem => by
    rw [Tree.reachable_concat]
    exact ⟨hreach, (hok.entries _ (mem_sortNames.1 (mem_children_iff.2 hmem))).enterable⟩
  obtain rfl : s' = s.inside input scope := addIgnoreFile_ok hrun
  rw [scanDirectory, Fallible.run_bind_ok (Fallible.run_get s),
    Fallible.run_bind_ok ((Fallible.run_lift _ _).trans (by rw [hread]; rfl)),
    Fallible.run_bind_ok hrun]

/-- The rules for the entries of a directory, in a scan with a policy. -/
def insidePolicy (input : ScanInput) (policy : IgnorePolicy crate)
    (scope : Option RelativePath) : IgnorePolicy crate :=
  ⟨(policyFor input policy (scopeComponents scope)).scoped ++ rulesIn input crate scope⟩

theorem insidePolicy_eq (policy : IgnorePolicy crate) (scope : Option RelativePath) (name : Name) :
    insidePolicy input policy scope =
      policyFor input policy (scopeComponents scope ++ [name]) := by
  rw [policyFor_append, scopeOf_scopeComponents]
  rfl

theorem inside_policy {s : Scanner crate} {scope : Option RelativePath}
    (hpolicy : s.policy = policyFor input policy (scopeComponents scope)) :
    (s.inside input scope).policy = insidePolicy input policy scope := by
  rw [insidePolicy, ← hpolicy]
  rfl

/-- A directory in a visited one is visited where it is managed. -/
theorem VisitedDir.child {scope : Option RelativePath} {path : RelativePath} {name : Name}
    (h : VisitedDir input policy scope) (hpath : path.components = scopeComponents scope ++ [name])
    (hdir : input.tree.IsDir (input.root ++ path.components))
    (hmanaged : decisionIn input policy path true = .managed) :
    VisitedDir input policy (some path) := by
  refine ⟨hdir, fun q hq => ?_⟩
  rw [show scopeComponents (some path) = path.components from rfl, hpath,
    List.prefix_concat_iff] at hq
  obtain hq | hq := hq
  · obtain rfl : q = path := RelativePath.components_injective (hq.trans hpath.symm)
    exact hmanaged
  · exact h.2 q hq

/-- The visited directories at and below a directory. -/
def ScannableBelow (input : ScanInput) (policy : IgnorePolicy crate)
    (scope : Option RelativePath) : Prop :=
  ∀ scope', scopeComponents scope <+: scopeComponents scope' → VisitedDir input policy scope' →
    DirectoryOk input policy scope'

/-- The entries of a directory are scanned one after the other under its rules. -/
theorem scanEntries_mem {scanBelow : RelativePath → ScanM crate Unit}
    {scope : Option RelativePath} {names : List Name} {s s' : Scanner crate}
    (hkeeps : ∀ name ∈ names, ∀ s₁ s₂ : Scanner crate, s₁.policy = s.policy →
      (scanEntry input scanBelow scope name).run s₁ = (.ok (), s₂) → s₂.policy = s₁.policy)
    (h : (scanEntries input scanBelow scope names).run s = (.ok (), s')) :
    ∀ name ∈ names, ∃ s₁ s₂ : Scanner crate, s₁.policy = s.policy ∧
      (scanEntry input scanBelow scope name).run s₁ = (.ok (), s₂) := by
  induction names generalizing s with
  | nil => exact fun name hname => absurd hname List.not_mem_nil
  | cons first names ih =>
    obtain ⟨_, s₁, hfirst, hrest⟩ := Fallible.run_bind_ok_iff.1 h
    have hs₁ := hkeeps first List.mem_cons_self s s₁ rfl hfirst
    intro name hname
    obtain rfl | hname := List.mem_cons.1 hname
    · exact ⟨s, s₁, rfl, hfirst⟩
    · obtain ⟨s₂, s₃, hs₂, hrun⟩ := ih (fun name hname s₂ s₃ hs₂ =>
        hkeeps name (List.mem_cons_of_mem _ hname) s₂ s₃ (hs₂.trans hs₁)) hrest name hname
      exact ⟨s₂, s₃, hs₂.trans hs₁, hrun⟩

/-- A scan of a directory that succeeds could look into every directory it came to, by induction
on the depth. -/
theorem scannableBelow_of_ok {n : ℕ} {scope : Option RelativePath} {s s' : Scanner crate}
    (hpolicy : s.policy = policyFor input policy (scopeComponents scope))
    (hvisited : VisitedDir input policy scope)
    (h : (scanDirectory input n scope).run s = (.ok (), s')) :
    ScannableBelow input policy scope := by
  induction n generalizing scope s s' with
  | zero => cases h
  | succ n ih =>
    obtain ⟨hreach, hreadable, hignore, s₁, hentries, -⟩ := scanDirectory_steps hvisited.1 h
    -- each entry is scanned under the rules of the directory
    have heach : ∀ name ∈ sortNames (input.tree.children (input.root ++ scopeComponents scope)),
        ∃ s₄ s₅ : Scanner crate,
          s₄.policy = policyFor input policy (scopeComponents scope ++ [name]) ∧
          (scanEntry input (fun path => scanDirectory input n (some path)) scope name).run s₄ =
            (.ok (), s₅) := by
      intro name hname
      obtain ⟨s₄, s₅, hs₄, hentry⟩ := scanEntries_mem (fun name hname s₄ s₅ hs₄ hentry => by
        obtain ⟨records, rfl, -⟩ := scanEntry_ok
          (hs₄.trans (s.inside_policyFor hpolicy name)) (mem_children_iff.1 hname)
          (fun path s₆ hpath hs₆ hdir hbelow => scanDirectory_ok (some path)
            (by rw [hs₆, hs₄, s.inside_policyFor hpolicy name, ← hpath]; rfl) hdir hbelow) hentry
        rfl) hentries name hname
      exact ⟨s₄, s₅, hs₄.trans (s.inside_policyFor hpolicy name), hentry⟩
    have hok : DirectoryOk input policy scope := by
      refine ⟨hreadable, ignoreFileOk_of_ok hignore, fun name hname => ?_⟩
      obtain ⟨s₄, s₅, hs₄, hentry⟩ := heach name (mem_sortNames.2 hname)
      obtain ⟨j, hj⟩ := mem_children_iff.1 (mem_sortNames.2 hname)
      exact entryOk_of_ok hs₄ hj hentry
    intro scope' hbelow hvisited'
    obtain ⟨rest, hrest⟩ := hbelow
    cases rest with
    | nil =>
      rw [List.append_nil] at hrest
      rw [← scopeOf_scopeComponents scope', ← hrest, scopeOf_scopeComponents]
      exact hok
    | cons name rest =>
      -- the directory lies at or below a managed directory in this one, which has been scanned
      rw [List.append_cons] at hrest
      have hpre : scopeComponents scope ++ [name] <+: scopeComponents scope' :=
        ⟨rest, hrest⟩
      obtain ⟨p, rfl⟩ : ∃ p, scope' = some p := by
        cases scope' with
        | none => simp [scopeComponents] at hrest
        | some p => exact ⟨p, rfl⟩
      let first : RelativePath := ⟨scopeComponents scope ++ [name], by simp, fun c hc =>
        p.legal c (hpre.subset hc)⟩
      have hdir : input.tree.IsDir (input.root ++ first.components) := by
        have hdir' := hvisited'.1
        rw [← hrest, ← List.append_assoc] at hdir'
        exact hdir'.of_append
      have hmanaged : decisionIn input policy first true = .managed := hvisited'.2 first hpre
      obtain ⟨j, hj, -⟩ := id hdir
      have hname := mem_children_iff.2 ⟨j, hj⟩
      obtain ⟨s₄, s₅, hs₄, hentry⟩ := heach name hname
      obtain ⟨path, r, hpath, hr, hsteps⟩ := scanEntry_record hs₄ ⟨j, hj⟩ hentry
      obtain rfl : path = first := RelativePath.components_injective hpath
      have hkind : r.metadata.kind = .directory := (isDir_iff_of_entryRecord hr).1 hdir
      have hs₅ : (s₄.sent [r]).policy = policyFor input policy (scopeComponents (some first)) := hs₄
      rw [decide_eq_true hkind, if_pos hkind] at hsteps
      obtain ⟨hnot, -⟩ | ⟨-, hrun⟩ := hsteps
      · exact absurd hmanaged hnot
      · exact ih hs₅ (hvisited.child rfl hdir hmanaged) hrun (some p) hpre hvisited'

/-- The entries of a directory are scanned if each of them is. -/
theorem scanEntries_run {scanBelow : RelativePath → ScanM crate Unit}
    {scope : Option RelativePath} {names : List Name} {rules : IgnorePolicy crate}
    (h : ∀ name ∈ names, ∃ records : List IndexRecord, ∀ s : Scanner crate, s.policy = rules →
      Room s records.length →
      (scanEntry input scanBelow scope name).run s = (.ok (), s.sent records)) :
    ∃ records : List IndexRecord, ∀ s : Scanner crate, s.policy = rules → Room s records.length →
      (scanEntries input scanBelow scope names).run s = (.ok (), s.sent records) := by
  induction names with
  | nil => exact ⟨[], fun s _ _ => by rw [Scanner.sent_nil]; rfl⟩
  | cons name names ih =>
    obtain ⟨hfirst, hrest⟩ := List.forall_mem_cons.1 h
    obtain ⟨records, hrecords⟩ := hfirst
    obtain ⟨records', hrecords'⟩ := ih hrest
    refine ⟨records ++ records', fun s hs hroom => ?_⟩
    rw [List.length_append] at hroom
    rw [scanEntries, Fallible.run_bind_ok (hrecords s hs (hroom.mono (Nat.le_add_right _ _))),
      hrecords' (s.sent records) hs (room_sent.2 hroom), Scanner.sent_sent]

/-- A directory is scanned if every visited directory at and below it is one the scan can look into,
by induction on the depth that is left. -/
theorem scanDirectory_run {n : ℕ} {scope : Option RelativePath}
    (hfuel : input.limits.maxComponents.toNat < n + (scopeComponents scope).length)
    (hlen : (scopeComponents scope).length ≤ input.limits.maxComponents.toNat)
    (hvisited : VisitedDir input policy scope)
    (hreach : input.tree.Reachable input.root (scopeComponents scope))
    (hok : ScannableBelow input policy scope) :
    ∃ records : List IndexRecord, ∀ s : Scanner crate,
      s.policy = policyFor input policy (scopeComponents scope) → Room s records.length →
      (scanDirectory input n scope).run s = (.ok (), s.sent records) := by
  induction n generalizing scope with
  | zero => omega
  | succ n ih =>
    have hhere : DirectoryOk input policy scope := hok scope List.prefix_rfl hvisited
    have hentry : ∀ name ∈ sortNames (input.tree.children (input.root ++ scopeComponents scope)),
        ∃ records : List IndexRecord, ∀ s : Scanner crate,
          s.policy = insidePolicy input policy scope → Room s records.length →
          (scanEntry input (fun path => scanDirectory input n (some path)) scope name).run s =
            (.ok (), s.sent records) := by
      intro name hname
      obtain ⟨i, hi⟩ := mem_children_iff.1 hname
      have hentryOk := hhere.entries name (mem_sortNames.1 hname)
      obtain ⟨path, r, happend, hpath, hr⟩ := hentryOk.exists_record hi
      have heq (s : Scanner crate) (hs : s.policy = insidePolicy input policy scope)
          (hopen : s.output.isClosed = false) :=
        scanEntry_run (fun path => scanDirectory input n (some path)) hentryOk
          (hs.trans (insidePolicy_eq policy scope name)) hreach hopen hpath hr
      by_cases hmanaged : decisionIn input policy path (r.metadata.kind = .directory) = .managed
      · by_cases hkind : r.metadata.kind = .directory
        · have hdir := (isDir_iff_of_entryRecord hr).2 hkind
          have hmanagedDir : decisionIn input policy path true = .managed := by
            rwa [decide_eq_true hkind] at hmanaged
          obtain ⟨-, hpathLen, -⟩ := appendComponent_eq_ok_iff.1 happend
          have hscope : scopeComponents (some path) = scopeComponents scope ++ [name] := hpath
          have hfuel' : input.limits.maxComponents.toNat <
              n + (scopeComponents (some path)).length := by
            rw [hscope, List.length_append, List.length_singleton]
            omega
          obtain ⟨records, hrecords⟩ := ih hfuel' hpathLen (hvisited.child hpath hdir hmanagedDir)
            (by rw [hscope, Tree.reachable_concat]; exact ⟨hreach, hentryOk.enterable⟩)
            (fun scope' hbelow => hok scope'
              ((hscope ▸ List.prefix_append _ _ : _ <+: scopeComponents (some path)).trans hbelow))
          refine ⟨r :: records, fun s hs hroom => ?_⟩
          rw [heq s hs hroom.not_isClosed, if_pos hmanaged, if_pos hkind,
            hrecords (s.sent [r]) ?_ ?_, Scanner.sent_sent]
          · rfl
          · exact hs.trans ((insidePolicy_eq policy scope name).trans (by rw [hscope]))
          · rw [room_sent, List.length_singleton, Nat.add_comm]
            exact hroom
        · exact ⟨[r], fun s hs hroom => by
            rw [heq s hs hroom.not_isClosed, if_pos hmanaged, if_neg hkind]⟩
      · exact ⟨[], fun s hs hroom => by
          rw [heq s hs hroom.not_isClosed, if_neg hmanaged, Scanner.sent_nil]⟩
    obtain ⟨records, hrecords⟩ := scanEntries_run hentry
    refine ⟨records, fun s hs hroom => ?_⟩
    rw [scanDirectory_succ s hhere hvisited.1 hreach,
      Fallible.run_bind_ok (hrecords _ (inside_policy hs) hroom), Fallible.run_modify,
      s.restore_inside]

end

end QuicSync
