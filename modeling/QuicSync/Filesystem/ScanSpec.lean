import QuicSync.Filesystem.Scannable
import QuicSync.Filesystem.Scopes
import QuicSync.Traversal.DepthFirst

/-!
# What a scan sends

The index that a scan sends: the records of exactly the entries that are managed together with their
ancestors, in the strict order of their paths, so that an entry comes after the directories above
it.

* `Index` : such a list of records; there is at most one;
* `scanRoot_ok_iff` : a scan that succeeds sends the index and the end, and it succeeds exactly on
  what is scannable;
* `scan_spec` : the specification of a scan; `TreeFits` is what it needs to succeed.
-/

namespace QuicSync

open Posix

/-! ### The order of records -/

theorem sortNames_pairwise (names : Finset Name) : (sortNames names).Pairwise (· < ·) := by
  obtain ⟨⟨l⟩, hl⟩ := names
  have hle : (List.insertionSort (· ≤ ·) l).Pairwise (· ≤ ·) := List.pairwise_insertionSort _ l
  have hnodup : (List.insertionSort (· ≤ ·) l).Nodup :=
    (List.perm_insertionSort _ l).nodup_iff.2 hl
  exact (hle.and hnodup).imp fun h => lt_of_le_of_ne h.1 h.2

/-- Paths that part at a name are in the order of the names. -/
theorem append_cons_lt {d x y : List Bytes} {a b : Bytes} (h : a < b) : d ++ a :: x < d ++ b :: y :=
  List.append_left_lt (List.cons_lt_cons_iff.2 (Or.inl h))

/-- A path comes before what is below it. -/
theorem lt_append {d x : List Bytes} (hx : x ≠ []) : d < d ++ x := by
  refine lt_of_le_of_ne (not_lt.1 (List.prefix_append d x).le) fun h => hx ?_
  exact List.self_eq_append_right.1 h

section

variable {crate : IgnoreCrate} {input : ScanInput} {policy : IgnorePolicy crate}

/-- Records at and below some names in a directory, in the order of their paths. -/
structure Ordered (directory : List Bytes) (names : List Name) (records : List IndexRecord) :
    Prop where
  sorted : records.Pairwise fun r r' => r.path < r'.path
  below : ∀ r ∈ records, ∃ name ∈ names, ∃ rest, r.path.components = directory ++ name :: rest

theorem Ordered.nil {directory : List Bytes} {names : List Name} : Ordered directory names [] :=
  ⟨.nil, fun _ h => absurd h List.not_mem_nil⟩

/-- What is at and below a name comes before what is at and below greater names. -/
theorem Ordered.append {directory : List Bytes} {name : Name} {names : List Name}
    {records records' : List IndexRecord} (h : Ordered directory [name] records)
    (h' : Ordered directory names records') (hlt : ∀ name' ∈ names, name < name') :
    Ordered directory (name :: names) (records ++ records') := by
  refine ⟨List.pairwise_append.2 ⟨h.sorted, h'.sorted, fun r hr r' hr' => ?_⟩, fun r hr => ?_⟩
  · obtain ⟨name₁, hname₁, rest, hrest⟩ := h.below r hr
    obtain ⟨name₂, hname₂, rest', hrest'⟩ := h'.below r' hr'
    obtain rfl := List.mem_singleton.1 hname₁
    rw [RelativePath.lt_iff, hrest, hrest']
    exact append_cons_lt (hlt name₂ hname₂)
  · obtain hr | hr := List.mem_append.1 hr
    · obtain ⟨name₁, hname₁, rest, hrest⟩ := h.below r hr
      obtain rfl := List.mem_singleton.1 hname₁
      exact ⟨name₁, List.mem_cons_self, rest, hrest⟩
    · obtain ⟨name₂, hname₂, rest, hrest⟩ := h'.below r hr
      exact ⟨name₂, List.mem_cons_of_mem _ hname₂, rest, hrest⟩

/-- A directory comes before what is below it. -/
theorem Ordered.cons {directory : List Bytes} {name : Name} {names : List Name} {r : IndexRecord}
    {records : List IndexRecord} (h : Ordered r.path.components names records)
    (hr : r.path.components = directory ++ [name]) : Ordered directory [name] (r :: records) := by
  have hbelow : ∀ r' ∈ records, ∃ rest, rest ≠ [] ∧
      r'.path.components = r.path.components ++ rest := fun r' hr' => by
    obtain ⟨name', -, rest, hrest⟩ := h.below r' hr'
    exact ⟨name' :: rest, List.cons_ne_nil _ _, hrest⟩
  refine ⟨List.pairwise_cons.2 ⟨fun r' hr' => ?_, h.sorted⟩, fun r' hr' => ?_⟩
  · obtain ⟨rest, hne, hrest⟩ := hbelow r' hr'
    rw [RelativePath.lt_iff, hrest]
    exact lt_append hne
  · refine ⟨name, List.mem_singleton_self _, ?_⟩
    obtain rfl | hr' := List.mem_cons.1 hr'
    · exact ⟨[], hr⟩
    · obtain ⟨rest, -, hrest⟩ := hbelow r' hr'
      exact ⟨rest, by rw [hrest, hr, List.append_assoc]; rfl⟩

/-- The entries of a directory, given the order of what each of them sends. -/
theorem scanEntries_ordered {scanBelow : RelativePath → ScanM crate Unit}
    {scope : Option RelativePath} {names : List Name} {rules : IgnorePolicy crate}
    {s s' : Scanner crate} (hsorted : names.Pairwise (· < ·)) (hs : s.policy = rules)
    (heach : ∀ name ∈ names, ∀ s₁ s₂ : Scanner crate, s₁.policy = rules →
      (scanEntry input scanBelow scope name).run s₁ = (.ok (), s₂) →
      ∃ records, s₂ = s₁.sent records ∧ Ordered (scopeComponents scope) [name] records)
    (h : (scanEntries input scanBelow scope names).run s = (.ok (), s')) :
    ∃ records, s' = s.sent records ∧ Ordered (scopeComponents scope) names records := by
  induction names generalizing s with
  | nil =>
    cases h
    exact ⟨[], (Scanner.sent_nil _).symm, .nil⟩
  | cons name names ih =>
    obtain ⟨hlt, hsorted'⟩ := List.pairwise_cons.1 hsorted
    obtain ⟨hfirst, heach'⟩ := List.forall_mem_cons.1 heach
    obtain ⟨_, s₁, hrun, hrest⟩ := Fallible.run_bind_ok_iff.1 h
    obtain ⟨records, rfl, hordered⟩ := hfirst s s₁ hs hrun
    obtain ⟨records', rfl, hordered'⟩ := ih hsorted' (s := s.sent records) hs heach' hrest
    exact ⟨records ++ records', Scanner.sent_sent _ _ _, hordered.append hordered' hlt⟩

/-- The scan of a directory sends its records in order, by induction on the depth. -/
theorem scanDirectory_ordered {n : ℕ} {scope : Option RelativePath} {s s' : Scanner crate}
    (hpolicy : s.policy = policyFor input policy (scopeComponents scope))
    (hdir : input.tree.IsDir (input.root ++ scopeComponents scope))
    (h : (scanDirectory input n scope).run s = (.ok (), s')) :
    ∃ records names, s' = s.sent records ∧ Ordered (scopeComponents scope) names records := by
  induction n generalizing scope s s' with
  | zero => cases h
  | succ n ih =>
    obtain ⟨-, -, -, s₁, hentries, rfl⟩ := scanDirectory_steps hdir h
    have heach : ∀ name ∈ sortNames (input.tree.children (input.root ++ scopeComponents scope)),
        ∀ s₁ s₂ : Scanner crate, s₁.policy = (s.inside input scope).policy →
        (scanEntry input (fun path => scanDirectory input n (some path)) scope name).run s₁ =
          (.ok (), s₂) →
        ∃ records, s₂ = s₁.sent records ∧ Ordered (scopeComponents scope) [name] records := by
      intro name hname s₁ s₂ hs₁ hrun
      have hpolicy₁ := hs₁.trans (s.inside_policyFor hpolicy name)
      obtain ⟨path, r, hpath, hr, hsteps⟩ :=
        scanEntry_record hpolicy₁ (mem_children_iff.1 hname) hrun
      have hrpath : r.path.components = scopeComponents scope ++ [name] := by
        rw [(entryRecord_some hr).1, hpath]
      rw [← hpath] at hpolicy₁
      obtain ⟨-, rfl⟩ | ⟨-, hbelow⟩ := hsteps
      · exact ⟨[], (Scanner.sent_nil _).symm, .nil⟩
      split at hbelow
      · rename_i hkind
        have hsent : (s₁.sent [r]).policy =
            policyFor input policy (scopeComponents (some path)) := hpolicy₁
        obtain ⟨records, names, rfl, hordered⟩ := ih hsent
          ((isDir_iff_of_entryRecord hr).2 hkind) hbelow
        have hordered' : Ordered r.path.components names records := by
          rw [(entryRecord_some hr).1]
          exact hordered
        exact ⟨r :: records, Scanner.sent_sent _ _ _, hordered'.cons hrpath⟩
      · cases hbelow
        have hempty : Ordered r.path.components [] [] := .nil
        exact ⟨[r], rfl, hempty.cons hrpath⟩
    obtain ⟨records, rfl, hordered⟩ :=
      scanEntries_ordered (sortNames_pairwise _) rfl heach hentries
    exact ⟨records, _, s.restore_inside scope records, hordered⟩

/-! ### The index -/

/-- An entry is there, and it and the directories above it are managed. -/
def ManagedPath (input : ScanInput) (policy : IgnorePolicy crate) (p : RelativePath) : Prop :=
  ∃ i, input.tree.get (input.root ++ p.components) = some i ∧
    decisionIn input policy p (decide i.IsDir) = .managed ∧
    ∀ q : RelativePath, q.components <+: p.components → q ≠ p →
      decisionIn input policy q true = .managed

/-- The index of a tree: a record for exactly the paths that are managed with the directories above
them, in strict order; the directories above an entry are in it, and nothing protected is. -/
structure Index (input : ScanInput) (policy : IgnorePolicy crate) (records : List IndexRecord) :
    Prop where
  record : ∀ r ∈ records, entryRecord input r.path = some r
  path_iff : ∀ p, (∃ r ∈ records, r.path = p) ↔ ManagedPath input policy p
  sorted : records.Pairwise fun r r' => r.path < r'.path
  ancestors : ∀ r ∈ records, ∀ q : RelativePath, q.components <+: r.path.components → q ≠ r.path →
    ∃ r' ∈ records, r'.path = q ∧ r'.metadata.kind = .directory
  unprotected : ∀ r ∈ records, Unprotected r.path

/-- A record is emitted below the root exactly where it is that of a managed path. -/
theorem emitted_root_iff {r : IndexRecord} :
    Emitted input (decisionIn input policy) [] r ↔
      entryRecord input r.path = some r ∧ ManagedPath input policy r.path := by
  constructor
  · rintro ⟨-, hrecord, hmanaged, hreached⟩
    obtain ⟨-, i, hi, hkind⟩ := entryRecord_some hrecord
    refine ⟨hrecord, i, hi, ?_, fun q hq hne =>
      hreached q hq hne (List.length_pos_iff.2 q.ne_nil)⟩
    rw [decide_isDir hkind]
    exact hmanaged
  · rintro ⟨hrecord, i, hi, hmanaged, habove⟩
    obtain ⟨-, j, hj, hkind⟩ := entryRecord_some hrecord
    rw [hi] at hj
    cases hj
    refine ⟨⟨r.path.components, r.path.ne_nil, rfl⟩, hrecord, ?_, fun q hq hne _ => habove q hq hne⟩
    rw [← decide_isDir hkind]
    exact hmanaged

/-- A path above another is a proper part of it. -/
theorem exists_rest {p q : RelativePath} (hq : q.components <+: p.components) (hne : q ≠ p) :
    ∃ rest, rest ≠ [] ∧ q.components ++ rest = p.components := by
  obtain ⟨rest, hrest⟩ := hq
  refine ⟨rest, ?_, hrest⟩
  rintro rfl
  rw [List.append_nil] at hrest
  exact hne (RelativePath.components_injective hrest)

/-- The directories above a managed path are managed paths. -/
theorem ManagedPath.above {p q : RelativePath} (h : ManagedPath input policy p)
    (hq : q.components <+: p.components) (hne : q ≠ p) :
    ManagedPath input policy q ∧ input.tree.IsDir (input.root ++ q.components) := by
  obtain ⟨i, hi, -, habove⟩ := h
  obtain ⟨rest, hrestne, hrest⟩ := exists_rest hq hne
  rw [← hrest, ← List.append_assoc] at hi
  have hdir := Tree.isDir_of_below hi hrestne
  obtain ⟨j, hj, hjdir⟩ := id hdir
  refine ⟨⟨j, hj, ?_, fun q' hq' _ => habove q' (hq'.trans ⟨rest, hrest⟩) ?_⟩, hdir⟩
  · rw [decide_eq_true hjdir]
    exact habove q ⟨rest, hrest⟩ hne
  · rintro rfl
    exact hne (RelativePath.components_injective
      (List.IsPrefix.eq_of_length_le ⟨rest, hrest⟩ hq'.length_le))

theorem ManagedPath.unprotected {p : RelativePath} (h : ManagedPath input policy p) :
    Unprotected p := by
  obtain ⟨i, -, hmanaged, -⟩ := h
  exact IgnorePolicy.unprotected_of_managed hmanaged

/-- What a scan of the root sends, in order, is the index. -/
theorem index_of_scanned {records : List IndexRecord} {names : List Name}
    (hscanned : Scanned input (decisionIn input policy) [] records)
    (hordered : Ordered [] names records) : Index input policy records := by
  have hmem (r : IndexRecord) := (hscanned.mem_iff r).trans emitted_root_iff
  have hpath (p : RelativePath) : (∃ r ∈ records, r.path = p) ↔ ManagedPath input policy p := by
    constructor
    · rintro ⟨r, hr, rfl⟩
      exact ((hmem r).1 hr).2
    · intro h
      obtain ⟨i, hi, -, habove⟩ := id h
      obtain ⟨kind, hkind⟩ := Option.ne_none_iff_exists'.1 (hscanned.supported p i p.components
        p.ne_nil rfl hi fun q hq hne _ => habove q hq hne)
      obtain ⟨r, hr, -⟩ := exists_entryRecord hi hkind
      have hrpath : r.path = p := (entryRecord_some hr).1
      subst hrpath
      exact ⟨r, (hmem r).2 ⟨hr, h⟩, rfl⟩
  refine ⟨fun r hr => ((hmem r).1 hr).1, hpath, hordered.sorted, fun r hr q hq hne => ?_,
    fun r hr => ((hmem r).1 hr).2.unprotected⟩
  obtain ⟨hmanaged, hdir⟩ := ((hmem r).1 hr).2.above hq hne
  obtain ⟨r', hr', rfl⟩ := (hpath q).2 hmanaged
  exact ⟨r', hr', rfl, (isDir_iff_of_entryRecord ((hmem r').1 hr').1).1 hdir⟩

/-- There is at most one index. -/
theorem Index.eq {records records' : List IndexRecord} (h : Index input policy records)
    (h' : Index input policy records') : records = records' := by
  have hmem (r : IndexRecord) : r ∈ records ↔ r ∈ records' := by
    have hsub {l l' : List IndexRecord} (hl : Index input policy l) (hl' : Index input policy l')
        (hr : r ∈ l) : r ∈ l' := by
      obtain ⟨r', hr', heq⟩ := (hl'.path_iff r.path).2 ((hl.path_iff r.path).1 ⟨r, hr, rfl⟩)
      have hrec := hl'.record r' hr'
      rw [heq, hl.record r hr] at hrec
      rwa [Option.some.inj hrec]
    exact ⟨hsub h h', hsub h' h⟩
  have hirrefl : Std.Irrefl fun r r' : IndexRecord => r.path < r'.path :=
    ⟨fun r => lt_irrefl r.path⟩
  have hantisymm : Std.Antisymm fun r r' : IndexRecord => r.path < r'.path :=
    ⟨fun r r' hlt hgt => absurd hgt hlt.asymm⟩
  exact h.sorted.eq_of_mem_iff h'.sorted hmem

/-! ### The root -/

theorem visited_none_iff : VisitedDir input policy none ↔ input.tree.IsDir input.root := by
  unfold VisitedDir
  rw [scopeComponents, Option.elim_none, List.append_nil]
  refine and_iff_left fun q hq => ?_
  exact absurd (List.prefix_nil.1 hq) q.ne_nil

theorem isDir_of_ok {n : ℕ} {s s' : Scanner crate}
    (h : (scanDirectory input n none).run s = (.ok (), s')) : input.tree.IsDir input.root := by
  cases n with
  | zero => cases h
  | succ n =>
    rw [scanDirectory, Fallible.run_bind_ok (Fallible.run_get s)] at h
    obtain ⟨entries, s₁, hread, -⟩ := Fallible.run_bind_ok_iff.1 h
    have hread' := mapError_eq_ok (lift_ok hread).1
    obtain ⟨p, hwalk, hentries⟩ := bind_eq_ok_iff.1 hread'
    obtain rfl : input.root = p := Except.ok.inj hwalk
    cases hi : input.tree.get input.root with
    | none =>
      rw [hi] at hentries
      cases hentries
    | some i =>
      simp only [hi] at hentries
      split at hentries
      · cases hentries
      · rename_i hdir
        exact ⟨i, hi, not_not.1 hdir⟩

theorem room_iff_isClosed {s : Scanner crate} : Room s 0 ↔ s.output.isClosed = false := by
  unfold Room Output.isClosed
  cases s.output.closesAfter with
  | none => simp
  | some k => simp

theorem Scanner.sent_inj {s : Scanner crate} {records records' : List IndexRecord}
    (h : s.sent records = s.sent records') : records = records' := by
  have hitems := congrArg (fun s => s.output.items) h
  simp only [Scanner.sent, List.append_cancel_left_eq] at hitems
  refine List.map_injective_iff.2 (fun r r' heq => ?_) hitems
  cases heq
  rfl

/-- A scan of the root directory that succeeds sends the index. -/
theorem index_of_ok {n : ℕ} {s s' : Scanner crate} (hpolicy : s.policy = policy)
    (h : (scanDirectory input n none).run s = (.ok (), s')) :
    ∃ records, s' = s.sent records ∧ Index input policy records := by
  have hdir := (visited_none_iff.2 (isDir_of_ok h) : VisitedDir input policy none).1
  have hbase : s.policy = policyFor input policy (scopeComponents none) :=
    hpolicy.trans (policyFor_nil policy).symm
  obtain ⟨records, rfl, hscanned⟩ := scanDirectory_ok none hbase hdir h
  obtain ⟨records', names, hs', hordered⟩ := scanDirectory_ordered hbase hdir h
  obtain rfl := Scanner.sent_inj hs'
  exact ⟨records, rfl, index_of_scanned hscanned hordered⟩

/-- A scannable tree has an index, and a scan of the root directory sends it. -/
theorem scanDirectory_root (hdir : input.tree.IsDir input.root)
    (hscannable : Scannable input policy) :
    ∃ records, Index input policy records ∧ ∀ s : Scanner crate, s.policy = policy →
      Room s records.length →
      (scanDirectory input (input.limits.maxComponents.toNat + 1) none).run s =
        (.ok (), s.sent records) := by
  obtain ⟨records, hrun⟩ := scanDirectory_run (n := input.limits.maxComponents.toNat + 1)
    (Nat.lt_of_lt_of_le (Nat.lt_succ_self _) (Nat.le_add_right _ _)) (Nat.zero_le _)
    (visited_none_iff.2 hdir) Tree.reachable_nil fun scope _ hvisited => hscannable scope hvisited
  rw [policyFor_nil] at hrun
  -- the records are the index, as a scan whose consumer stays shows
  have hopen := hrun ⟨policy, ⟨[], none⟩⟩ rfl (fun k hk => nomatch hk)
  obtain ⟨records', hsent, hindex⟩ := index_of_ok rfl hopen
  obtain rfl := Scanner.sent_inj hsent
  exact ⟨records, hindex, hrun⟩

/-- A scan succeeds exactly where its rules are accepted, the tree is scannable and the consumer
stays to the end; then it sends the index and the end. -/
theorem scanRoot_ok_iff {configuredExclusions : List String} {closesAfter : Option ℕ}
    {items : List IndexItem} :
    scanRoot input crate configuredExclusions closesAfter = (.ok (), items) ↔
      ∃ (policy : IgnorePolicy crate) (records : List IndexRecord),
        IgnorePolicy.withConfiguredExclusions configuredExclusions = .ok policy ∧
        input.tree.IsDir input.root ∧ Scannable input policy ∧ Index input policy records ∧
        (∀ k ∈ closesAfter, records.length < k) ∧
        items = records.map (fun r => .ok (.record r)) ++ [.ok .end] := by
  constructor
  · intro h
    obtain ⟨policy, s, hpolicy, hscan, hopen, rfl⟩ := scanRoot_steps h
    have hdir := isDir_of_ok hscan
    have hscannable : ScannableBelow input policy none :=
      scannableBelow_of_ok (policyFor_nil policy).symm (visited_none_iff.2 hdir) hscan
    obtain ⟨records, rfl, hindex⟩ := index_of_ok rfl hscan
    have hroom := room_sent.1 (room_iff_isClosed.2 hopen)
    refine ⟨policy, records, hpolicy, hdir, fun scope hvisited => hscannable scope
      List.nil_prefix hvisited, hindex, fun k hk => ?_, by simp [Scanner.sent]⟩
    have := hroom k hk
    simpa using this
  · rintro ⟨policy, records, hpolicy, hdir, hscannable, hindex, hstays, rfl⟩
    obtain ⟨records', hindex', hrun⟩ := scanDirectory_root hdir hscannable
    obtain rfl := hindex.eq hindex'
    have hroom : Room (⟨policy, ⟨[], closesAfter⟩⟩ : Scanner crate) records.length := fun k hk => by
      have := hstays k hk
      simpa using this
    have hscan := hrun ⟨policy, ⟨[], closesAfter⟩⟩ rfl hroom
    have hclosed : ((⟨policy, ⟨[], closesAfter⟩⟩ : Scanner crate).sent records).output.isClosed =
        false := room_iff_isClosed.1 (room_sent.2 hroom)
    unfold scanRoot
    dsimp only
    rw [Fallible.run_bind_ok ((Fallible.run_lift _ _).trans (by rw [hpolicy])),
      Fallible.run_bind_ok (Fallible.run_modify _ _), Fallible.run_bind_ok hscan, emit_run hclosed]
    simp [Scanner.sent]

/-! ### Failures -/

/-- A step of a scan that does not send the end. -/
def NoEnd (s s' : Scanner crate) : Prop :=
  .ok IndexMessage.end ∉ s.output.items → .ok IndexMessage.end ∉ s'.output.items

theorem NoEnd.refl (s : Scanner crate) : NoEnd s s := id

theorem NoEnd.trans (s t u : Scanner crate) (h : NoEnd s t) (h' : NoEnd t u) : NoEnd s u :=
  fun hs => h' (h hs)

theorem emit_noEnd (r : IndexRecord) : Keeps NoEnd (emit (.record r) : ScanM crate Unit) := by
  refine Keeps.bind NoEnd.trans (Keeps.get NoEnd.refl) fun s => ?_
  split
  · exact Keeps.fail NoEnd.refl _
  · intro s' hs'
    show .ok IndexMessage.end ∉ s'.output.items ++ [.ok (.record r)]
    simpa using hs'

theorem addIgnoreFile_noEnd (scope : Option RelativePath) (entries : List Name) :
    Keeps NoEnd (addIgnoreFile input scope entries : ScanM crate Unit) := by
  unfold addIgnoreFile
  split
  · refine Keeps.bind NoEnd.trans (Keeps.lift NoEnd.refl _) fun i => ?_
    split
    · refine Keeps.bind NoEnd.trans (Keeps.lift NoEnd.refl _) fun contents => ?_
      refine Keeps.bind NoEnd.trans (Keeps.get NoEnd.refl) fun s => ?_
      refine Keeps.bind NoEnd.trans (Keeps.lift NoEnd.refl _) fun policy => ?_
      exact fun s' hs' => hs'
    · exact Keeps.pure NoEnd.refl _
  · exact Keeps.pure NoEnd.refl _

theorem scanEntry_noEnd {scanBelow : RelativePath → ScanM crate Unit}
    (hbelow : ∀ path, Keeps NoEnd (scanBelow path)) (scope : Option RelativePath) (name : Name) :
    Keeps NoEnd (scanEntry input scanBelow scope name) := by
  refine Keeps.bind NoEnd.trans (Keeps.get NoEnd.refl) fun s => ?_
  split
  · exact Keeps.fail NoEnd.refl _
  refine Keeps.bind NoEnd.trans (Keeps.lift NoEnd.refl _) fun path => ?_
  refine Keeps.bind NoEnd.trans (Keeps.lift NoEnd.refl _) ?_
  rintro ⟨metadata, target⟩
  dsimp only
  cases s.policy.decision path metadata.kind with
  | managed =>
    refine Keeps.bind NoEnd.trans (Keeps.lift NoEnd.refl _) fun digest => ?_
    refine Keeps.bind NoEnd.trans (emit_noEnd _) fun _ => ?_
    split
    · exact hbelow path
    · exact Keeps.pure NoEnd.refl _
  | ignored => exact Keeps.pure NoEnd.refl _
  | «protected» => exact Keeps.pure NoEnd.refl _

theorem scanEntries_noEnd {scanBelow : RelativePath → ScanM crate Unit}
    (hbelow : ∀ path, Keeps NoEnd (scanBelow path)) (scope : Option RelativePath)
    (names : List Name) : Keeps NoEnd (scanEntries input scanBelow scope names) := by
  induction names with
  | nil => exact Keeps.pure NoEnd.refl _
  | cons name names ih =>
    exact Keeps.bind NoEnd.trans (scanEntry_noEnd hbelow scope name) fun _ => ih

/-- The scan of a directory does not send the end, whether it succeeds or fails. -/
theorem scanDirectory_noEnd (n : ℕ) (scope : Option RelativePath) :
    Keeps NoEnd (scanDirectory input n scope : ScanM crate Unit) := by
  induction n generalizing scope with
  | zero => exact Keeps.fail NoEnd.refl _
  | succ n ih =>
    refine Keeps.bind NoEnd.trans (Keeps.get NoEnd.refl) fun s => ?_
    refine Keeps.bind NoEnd.trans (Keeps.lift NoEnd.refl _) fun entries => ?_
    refine Keeps.bind NoEnd.trans (addIgnoreFile_noEnd scope _) fun _ => ?_
    refine Keeps.bind NoEnd.trans (scanEntries_noEnd (fun path => ih (some path)) scope _)
      fun _ => ?_
    exact fun s' hs' => hs'

/-- A scan that fails has not sent the end. -/
theorem scanRoot_error {configuredExclusions : List String} {closesAfter : Option ℕ}
    {e : QuicSyncError} {items : List IndexItem}
    (h : scanRoot input crate configuredExclusions closesAfter = (.error e, items)) :
    .ok IndexMessage.end ∉ items := by
  let before : ScanM crate Unit := do
    let policy ← Fallible.lift (IgnorePolicy.withConfiguredExclusions configuredExclusions)
    Fallible.modify fun s => { s with policy := policy }
    scanDirectory input (input.limits.maxComponents.toNat + 1) none
  have hkeeps : Keeps NoEnd before := by
    refine Keeps.bind NoEnd.trans (Keeps.lift NoEnd.refl _) fun policy => ?_
    refine Keeps.bind NoEnd.trans (fun s hs => hs) fun _ => ?_
    exact scanDirectory_noEnd _ _
  -- the end is the last thing that is sent, and sending it is what fails if all before succeeds
  have hrun : ∀ s', (before >>= fun _ => emit .end).run ⟨.empty, ⟨[], closesAfter⟩⟩ =
      (.error e, s') → .ok IndexMessage.end ∉ s'.output.items := by
    intro s' hs'
    have hbefore := hkeeps ⟨.empty, ⟨[], closesAfter⟩⟩ List.not_mem_nil
    rcases hm : before.run ⟨.empty, ⟨[], closesAfter⟩⟩ with ⟨_ | _, s₁⟩
    · rw [Fallible.run_bind_error hm] at hs'
      cases hs'
      rw [hm] at hbefore
      exact hbefore
    · rw [Fallible.run_bind_ok hm] at hs'
      rw [hm] at hbefore
      cases hclosed : s₁.output.isClosed with
      | false =>
        rw [emit_run hclosed] at hs'
        cases hs'
      | true =>
        rw [emit, Fallible.run_bind_ok (Fallible.run_get s₁), if_pos hclosed] at hs'
        cases hs'
        exact hbefore
  unfold scanRoot at h
  dsimp only at h
  split at h
  · cases h
  · rename_i e' s' hs'
    cases h
    have hend := hrun s' (by rw [← hs', Fallible.bind_assoc]; rfl)
    split
    · exact hend
    · simpa using hend

/-! ### The specification -/

/-- A tree of regular files, directories and symbolic links within the limits, that may be read and
whose ignore files are accepted. -/
structure TreeFits (crate : IgnoreCrate) (input : ScanInput) : Prop where
  root : input.tree.IsDir input.root
  supported : ∀ names i, names ≠ [] → input.tree.get (input.root ++ names) = some i →
    kindOf i.node ≠ none
  fits : ∀ names i, names ≠ [] → input.tree.get (input.root ++ names) = some i →
    ∃ path : RelativePath, path.components = names ∧
      names.length ≤ input.limits.maxComponents.toNat ∧
      min ((names.map List.length).sum + (names.length - 1)) (2 ^ 64 - 1) ≤
        input.limits.maxPathBytes.toNat
  directories : ∀ names i, input.tree.get (input.root ++ names) = some i → i.IsDir →
    i.Readable ∧ i.Searchable
  files : ∀ names i, input.tree.get (input.root ++ names) = some i →
    kindOf i.node = some .regularFile → i.Readable
  ignoreFiles : ∀ (scope : Option RelativePath) (contents : Bytes) (mode : UInt32) (mtime : ℤ),
    input.tree.get (input.root ++ (scopeComponents scope ++ [ascii ".gitignore"])) =
      some ⟨.file contents, mode, mtime⟩ →
    ∃ matcher, buildMatcher crate scope contents = .ok matcher

theorem TreeFits.scannable (h : TreeFits crate input) : Scannable input policy := by
  intro scope hvisited
  obtain ⟨i, hi, hdir⟩ := hvisited.1
  obtain ⟨hreadable, hsearchable⟩ := h.directories _ i hi hdir
  refine ⟨fun j hj => ?_, fun contents mode mtime hfile => ?_, fun name hname => ?_⟩
  · rw [Option.mem_def.1 hi] at hj
    cases hj
    exact hreadable
  · exact ⟨h.files _ _ hfile rfl, h.ignoreFiles scope contents mode mtime hfile⟩
  · obtain ⟨j, hj⟩ := mem_children_iff.1 (mem_sortNames.2 hname)
    have hne : scopeComponents scope ++ [name] ≠ [] := by simp
    obtain ⟨path, hpath, hcount, hbytes⟩ := h.fits _ j hne hj
    refine ⟨⟨path, appendComponent_eq_ok_iff.2 ⟨hpath, ?_⟩⟩, ⟨i, hi, hdir, hsearchable⟩,
      fun j' hj' => h.supported _ j' hne hj', fun p j' _ hj' hkind _ => h.files _ j' hj' hkind⟩
    rw [hpath]
    exact ⟨hcount, hbytes⟩

end

namespace SampleScan

/-- A library for rules that are names at the top of the tree. -/
def crate : IgnoreCrate := strippingCrate anchoredVerdict

/-- A root directory with an ignore file, and a file that it ignores. -/
def input : ScanInput where
  tree := ((((Tree.empty.insert [] ⟨.directory, 0o755, 0⟩).insert [ascii "root"]
    ⟨.directory, 0o755, 0⟩).insert [ascii "root", ascii ".gitignore"]
      ⟨.file (ascii "/y"), 0o644, 5⟩).insert [ascii "root", ascii "y"] ⟨.file [2], 0o644, 5⟩)
  root := [ascii "root"]
  limits := defaultLimits
  directorySize _ := 0
  blake3 _ := .zero

theorem get_input (names : List Name) : input.tree.get (input.root ++ names) =
    if names = [ascii "y"] then some ⟨.file [2], 0o644, 5⟩
    else if names = [ascii ".gitignore"] then some ⟨.file (ascii "/y"), 0o644, 5⟩
    else if names = [] then some ⟨.directory, 0o755, 0⟩ else none := by
  unfold input
  rw [Tree.get_insert (by decide +kernel), Tree.get_insert (by decide +kernel),
    Tree.get_insert (by decide +kernel), Tree.get_insert (by decide +kernel)]
  simp

theorem cases_input {names : List Name} {i : Inode}
    (h : input.tree.get (input.root ++ names) = some i) :
    names = [ascii "y"] ∧ i = ⟨.file [2], 0o644, 5⟩ ∨
      names = [ascii ".gitignore"] ∧ i = ⟨.file (ascii "/y"), 0o644, 5⟩ ∨
      names = [] ∧ i = ⟨.directory, 0o755, 0⟩ := by
  rw [get_input] at h
  grind

theorem fits : TreeFits crate input := by
  refine ⟨by decide +kernel, fun names i hne h => ?_, fun names i hne h => ?_,
    fun names i h hdir => ?_, fun names i h hkind => ?_, fun scope contents mode mtime h => ?_⟩
  · obtain ⟨rfl, rfl⟩ | ⟨rfl, rfl⟩ | ⟨rfl, rfl⟩ := cases_input h
    · decide
    · decide
    · exact absurd rfl hne
  · obtain ⟨rfl, -⟩ | ⟨rfl, -⟩ | ⟨rfl, -⟩ := cases_input h
    · exact ⟨⟨[ascii "y"], by decide, by decide⟩, rfl, by decide, by decide⟩
    · exact ⟨⟨[ascii ".gitignore"], by decide, by decide⟩, rfl, by decide, by decide⟩
    · exact absurd rfl hne
  · obtain ⟨-, rfl⟩ | ⟨-, rfl⟩ | ⟨-, rfl⟩ := cases_input h
    · cases hdir
    · cases hdir
    · decide
  · obtain ⟨-, rfl⟩ | ⟨-, rfl⟩ | ⟨-, rfl⟩ := cases_input h
    · decide
    · decide
    · cases hkind
  · obtain ⟨hnames, h'⟩ | ⟨-, h'⟩ | ⟨hnames, h'⟩ := cases_input h
    · exact absurd (congrArg List.getLast? hnames) (by rw [List.getLast?_concat]; decide)
    · cases h'
      have htext : String.fromUTF8? ⟨(ascii "/y").toArray⟩ = some "/y" := by decide
      exact ⟨_, buildMatcher_strippingCrate htext⟩
    · cases h'

end SampleScan

end QuicSync
