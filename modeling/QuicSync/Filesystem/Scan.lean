import QuicSync.Config
import QuicSync.Filesystem.Ignore
import QuicSync.Posix.Reads
import QuicSync.Protocol.Messages
import Mathlib.Data.List.Sort

/-!
# Streamed indexing

A scan walks a tree in canonical order and sends a record for every managed entry through a channel
while its consumer runs.  The rules of a directory are added before its entries are looked at and
discarded when it is completed.

A scan reads by path name; the path of the root is taken to resolve to it.  `Output` is the channel:
what has been sent, and when the consumer closes it.

* `decisionIn`: the decision for a path as a function of the tree and the configured exclusions.
* `scanRoot_ok`: a scan that succeeds emits a record for exactly the entries that are managed and
  whose ancestors are.
-/

namespace QuicSync

open Posix

/-- What a scan reads. -/
structure ScanInput where
  tree : Tree
  root : Path
  limits : Limits
  /-- The size that the file system reports for a directory. -/
  directorySize : Path → UInt64
  blake3 : Bytes → Digest

/-- The sending side of an index channel. -/
structure Output where
  /-- What has been sent. -/
  items : List IndexItem
  /-- After how many items the consumer closes the channel, if it does. -/
  closesAfter : Option ℕ

/-- The consumer has closed the channel. -/
def Output.isClosed (output : Output) : Bool :=
  output.closesAfter.any fun n => n ≤ output.items.length

/-- The state of a scan. -/
structure Scanner (crate : IgnoreCrate) where
  policy : IgnorePolicy crate
  output : Output

/-- A computation of a scan. -/
abbrev ScanM (crate : IgnoreCrate) := Fallible QuicSyncError (Scanner crate)

/-- The names of a directory in the order of their bytes. -/
def sortNames (names : Finset Name) : List Name :=
  Quot.liftOn names.val (List.insertionSort (· ≤ ·)) fun l l' h =>
    List.Perm.eq_of_pairwise (fun _ _ _ _ => le_antisymm) (List.pairwise_insertionSort _ l)
      (List.pairwise_insertionSort _ l')
      (((List.perm_insertionSort _ l).trans h).trans (List.perm_insertionSort _ l').symm)

theorem mem_sortNames {names : Finset Name} {name : Name} :
    name ∈ sortNames names ↔ name ∈ names := by
  obtain ⟨⟨l⟩, hl⟩ := names
  exact List.mem_insertionSort _

namespace Scan

/-- An error for a path with an error number. -/
def pathFailure (before : String) (path : Path) (error : Errno) : QuicSyncError :=
  QuicSyncError.new .io none (.component before (slash :: componentsToPath path) "': " (some error))

def limitExceeded (diagnostic : String) : QuicSyncError :=
  QuicSyncError.new .resourceLimitExceeded none (.text diagnostic)

/-- The consumer of the index has gone. -/
def consumerClosed : QuicSyncError :=
  QuicSyncError.new .operationFailed none (.text "index consumer closed")

end Scan

/-- A 128-bit integer from an integer, which wraps around. -/
def I128.ofInt (x : ℤ) : I128 :=
  ⟨x.bmod (2 ^ 128), by
    have hlow := Int.le_bmod (x := x) (m := 2 ^ 128) (by decide)
    have hhigh := Int.bmod_lt (x := x) (m := 2 ^ 128) (by decide)
    omega⟩

section

variable {crate : IgnoreCrate} (input : ScanInput)

/-! ### Metadata and digests -/

def mtimeNs (i : Inode) : I128 := I128.ofInt i.mtime

/-- The kind of an inode that the synchronization model supports. -/
def kindOf : Node → Option EntryKind
  | .directory => some .directory
  | .file _ => some .regularFile
  | .symlink _ => some .symlink
  | .special => none

/-- The size that the file system reports. -/
def len (path : RelativePath) (i : Inode) : UInt64 :=
  match i.node with
  | .file content => UInt64.ofNat content.length
  | .symlink target => UInt64.ofNat target.length
  | .directory | .special => input.directorySize (input.root ++ path.components)

def readSymlinkTarget (path : RelativePath) : Except QuicSyncError Bytes :=
  (readlink input.tree input.root path.components).mapError
    (Scan.pathFailure "cannot read symbolic link '" (input.root ++ path.components))

def metadataFrom (path : RelativePath) (i : Inode) :
    Except QuicSyncError (EntryMetadata × Option Bytes) := do
  let kind ← (match kindOf i.node with
    | some kind => .ok kind
    | none => .error (QuicSyncError.new .unsupportedFilesystem none
        (.component "unsupported filesystem entry '"
          (slash :: componentsToPath (input.root ++ path.components)) "'" none)))
  let symlinkTarget ← (if kind = .symlink then (readSymlinkTarget input path).map some
    else .ok none)
  let size := symlinkTarget.elim (len input path i) fun target => UInt64.ofNat target.length
  .ok (⟨kind, i.mode &&& 0o7777, mtimeNs i, size⟩, symlinkTarget)

def metadataFor (path : RelativePath) : Except QuicSyncError (EntryMetadata × Option Bytes) := do
  let i ← (lstat input.tree input.root path.components).mapError
    (Scan.pathFailure "cannot inspect '" (input.root ++ path.components))
  metadataFrom input path i

def digestFile (path : RelativePath) : Except QuicSyncError Digest :=
  ((readFile input.tree input.root path.components).map input.blake3).mapError
    (Scan.pathFailure "cannot open file '" (input.root ++ path.components))

def digestFor (path : RelativePath) (kind : EntryKind) (symlinkTarget : Option Bytes) :
    Except QuicSyncError (Option Digest) :=
  match kind with
  | .directory => .ok none
  | .regularFile => (digestFile input path).map some
  | .symlink => .ok (symlinkTarget.map input.blake3)

/-! ### Traversal -/

/-- Extend a path by a component, within the limits. -/
def appendComponent (scope : Option RelativePath) (component : Bytes) (limits : Limits) :
    Except QuicSyncError RelativePath :=
  let components := scopeComponents scope ++ [component]
  if components.length > limits.maxComponents.toNat then
    .error (Scan.limitExceeded ("path of " ++ toString components.length ++
      " components exceeds the " ++ toString limits.maxComponents.toNat ++ "-component limit"))
  else
    let pathBytes := min ((components.map List.length).sum + (components.length - 1)) (2 ^ 64 - 1)
    if pathBytes > limits.maxPathBytes.toNat then
      .error (Scan.limitExceeded ("path of " ++ toString pathBytes ++ " bytes exceeds the " ++
        toString limits.maxPathBytes.toNat ++ "-byte limit"))
    else
      (RelativePath.new components).mapError fun error =>
        QuicSyncError.new .invalidPath none
          (.text ("invalid directory entry path: " ++ error.message))

/-- Send a message to the consumer. -/
def emit (message : IndexMessage) : ScanM crate Unit := do
  let s ← Fallible.get
  if s.output.isClosed then Fallible.fail Scan.consumerClosed
  else Fallible.modify fun s =>
    { s with output := { s.output with items := s.output.items ++ [.ok message] } }

/-- Add the rules of the ignore file of a directory, without following links. -/
def addIgnoreFile (scope : Option RelativePath) (entries : List Name) : ScanM crate Unit :=
  if ascii ".gitignore" ∈ entries then do
    let path := scopeComponents scope ++ [ascii ".gitignore"]
    let inspect (error : Errno) : QuicSyncError :=
      QuicSyncError.new .io none (.system "cannot inspect ignore file: " error)
    let read (error : Errno) : QuicSyncError :=
      QuicSyncError.new .io none (.system "cannot read ignore file: " error)
    let i ← Fallible.lift ((lstat input.tree input.root path).mapError inspect)
    if kindOf i.node = some .regularFile then do
      let contents ← Fallible.lift ((readFile input.tree input.root path).mapError read)
      let s ← Fallible.get
      let policy ← Fallible.lift (s.policy.addIgnoreContents scope contents)
      Fallible.modify fun s => { s with policy := policy }
    else pure ()
  else pure ()

/-- Look at one entry of a directory; `scanBelow` scans a directory below it. -/
def scanEntry (scanBelow : RelativePath → ScanM crate Unit) (scope : Option RelativePath)
    (name : Name) : ScanM crate Unit := do
  let s ← Fallible.get
  if s.output.isClosed then Fallible.fail Scan.consumerClosed
  else do
    let path ← Fallible.lift (appendComponent scope name input.limits)
    let (metadata, symlinkTarget) ← Fallible.lift ((metadataFor input path).mapError fun error =>
      error.withContext ⟨none, some path⟩)
    match s.policy.decision path metadata.kind with
    | .managed => do
      let digest ← Fallible.lift (digestFor input path metadata.kind symlinkTarget)
      emit (.record ⟨path, metadata, digest, symlinkTarget⟩)
      if metadata.kind = .directory then scanBelow path else pure ()
    | .ignored | .«protected» => pure ()

/-- Look at the entries of a directory one after the other. -/
def scanEntries (scanBelow : RelativePath → ScanM crate Unit) (scope : Option RelativePath) :
    List Name → ScanM crate Unit
  | [] => pure ()
  | name :: names => do
    scanEntry input scanBelow scope name
    scanEntries scanBelow scope names

/-- Scan a directory and what is below it.  The number bounds the depth of the recursion; the limit
on the components of a path is reached first. -/
def scanDirectory : ℕ → Option RelativePath → ScanM crate Unit
  | 0, _ => Fallible.fail (Scan.limitExceeded "")
  | n + 1, scope => do
    let s ← Fallible.get
    let checkpoint := s.policy.checkpoint
    let entries ← Fallible.lift ((readDir input.tree input.root (scopeComponents scope)).mapError
      (Scan.pathFailure "cannot read directory '" (input.root ++ scopeComponents scope)))
    let entries := sortNames entries
    addIgnoreFile input scope entries
    scanEntries input (fun path => scanDirectory n (some path)) scope entries
    Fallible.modify fun s => { s with policy := s.policy.restore checkpoint }

/-- Scan the root.  A failure is sent to the consumer too. -/
def scanRoot (crate : IgnoreCrate) (configuredExclusions : List String) (closesAfter : Option ℕ) :
    Except QuicSyncError Unit × List IndexItem :=
  let scan : ScanM crate Unit := do
    let policy ← Fallible.lift (IgnorePolicy.withConfiguredExclusions configuredExclusions)
    Fallible.modify fun s => { s with policy := policy }
    scanDirectory input (input.limits.maxComponents.toNat + 1) none
    emit .end
  match scan.run ⟨.empty, ⟨[], closesAfter⟩⟩ with
  | (.ok (), s) => (.ok (), s.output.items)
  | (.error e, s) =>
    (.error e, if s.output.isClosed then s.output.items else s.output.items ++ [.error e])

/-! ### What a scan decides -/

/-- The directory with the components; the root has none. -/
def scopeOf (components : List Bytes) : Option RelativePath :=
  (RelativePath.new components).toOption

/-- The rules of the ignore file in a directory. -/
def rulesIn (crate : IgnoreCrate) (scope : Option RelativePath) : List (ScopedRuleSet crate) :=
  match input.tree.get (input.root ++ (scopeComponents scope ++ [ascii ".gitignore"])) with
  | some ⟨.file contents, _, _⟩ =>
    match buildMatcher crate scope contents with
    | .ok matcher => [⟨scope, matcher⟩]
    | .error _ => []
  | _ => []

/-- The rules for the entries with the components: those given, then those of the directories from
the root down. -/
def policyFor (policy : IgnorePolicy crate) (components : List Bytes) : IgnorePolicy crate :=
  ⟨policy.scoped ++ (List.range components.length).flatMap fun k =>
    rulesIn input crate (scopeOf (components.take k))⟩

/-- The decision for a path in a tree. -/
def decisionIn (policy : IgnorePolicy crate) (path : RelativePath) (isDir : Bool) :
    IgnoreDecision :=
  (policyFor input policy path.components).decisionFor path isDir

/-- The decision for a path that a scan with configured exclusions makes. -/
def scanDecision (crate : IgnoreCrate) (configuredExclusions : List String) (path : RelativePath)
    (isDir : Bool) : Except QuicSyncError IgnoreDecision :=
  (IgnorePolicy.withConfiguredExclusions configuredExclusions : Except _ (IgnorePolicy crate)).map
    fun policy => decisionIn input policy path isDir

/-- The record of an entry. -/
def entryRecord (path : RelativePath) : Option IndexRecord :=
  match input.tree.get (input.root ++ path.components) with
  | none => none
  | some i =>
    let record (kind : EntryKind) (digest : Option Digest) (target : Option Bytes) : IndexRecord :=
      ⟨path, ⟨kind, i.mode &&& 0o7777, mtimeNs i, len input path i⟩, digest, target⟩
    match i.node with
    | .directory => some (record .directory none none)
    | .file content => some (record .regularFile (some (input.blake3 content)) none)
    | .symlink target => some (record .symlink (some (input.blake3 target)) (some target))
    | .special => none

/-- The directories on the way from a directory to the entry are managed. -/
def Reached (decide : RelativePath → Bool → IgnoreDecision) (directory : List Bytes)
    (path : RelativePath) : Prop :=
  ∀ q : RelativePath, q.components <+: path.components → q ≠ path →
    directory.length < q.components.length → decide q true = .managed

/-- The record is that of an entry below a directory, managed and reached from the directory through
managed directories. -/
structure Emitted (decide : RelativePath → Bool → IgnoreDecision) (directory : List Bytes)
    (r : IndexRecord) : Prop where
  below : ∃ names, names ≠ [] ∧ r.path.components = directory ++ names
  record : entryRecord input r.path = some r
  managed : decide r.path (r.metadata.kind = .directory) = .managed
  reached : Reached decide directory r.path

/-- The records are those that are emitted below a directory, and the entries that are reached are of
kinds that the synchronization model supports. -/
structure Scanned (decide : RelativePath → Bool → IgnoreDecision) (directory : List Bytes)
    (records : List IndexRecord) : Prop where
  mem_iff : ∀ r, r ∈ records ↔ Emitted input decide directory r
  supported : ∀ (path : RelativePath) (i : Inode) (names : List Bytes), names ≠ [] →
    path.components = directory ++ names → input.tree.get (input.root ++ path.components) = some i →
    Reached decide directory path → kindOf i.node ≠ none

variable {input}

theorem scopeOf_path (path : RelativePath) : scopeOf path.components = some path := by
  unfold scopeOf
  rw [RelativePath.new_eq_ok_iff.2 rfl]
  rfl

theorem scopeOf_scopeComponents (scope : Option RelativePath) :
    scopeOf (scopeComponents scope) = scope := by
  cases scope with
  | none => rfl
  | some path => exact scopeOf_path path

theorem scopeComponents_scopeOf {names : List Bytes} (h : ∀ c ∈ names, componentError c = none) :
    scopeComponents (scopeOf names) = names := by
  by_cases hne : names = []
  · subst hne
    rfl
  · exact congrArg scopeComponents (scopeOf_path ⟨names, hne, h⟩)

/-- The directory with the components, if they are those of a path, and else the root. -/
theorem scopeOf_isPrefix (names : List Bytes) : scopeComponents (scopeOf names) <+: names := by
  unfold scopeOf
  cases hnew : RelativePath.new names with
  | error e => exact List.nil_prefix
  | ok path =>
    rw [← RelativePath.new_eq_ok_iff.1 hnew]
    exact List.prefix_rfl

/-- The rules of a directory are for the entries in it. -/
theorem policyFor_append (policy : IgnorePolicy crate) (components : List Bytes) (name : Bytes) :
    policyFor input policy (components ++ [name]) =
      ⟨(policyFor input policy components).scoped ++ rulesIn input crate (scopeOf components)⟩ := by
  unfold policyFor
  rw [List.length_append, List.length_singleton, List.range_succ, List.flatMap_append,
    List.flatMap_singleton, List.take_left, ← List.append_assoc]
  have hinherited : (List.range components.length).flatMap (fun k =>
        rulesIn input crate (scopeOf ((components ++ [name]).take k))) =
      (List.range components.length).flatMap fun k =>
        rulesIn input crate (scopeOf (components.take k)) := by
    refine List.flatMap_congr fun k hk => ?_
    rw [List.take_append_of_le_length (List.mem_range.1 hk).le]
  rw [hinherited]

theorem entryRecord_some {path : RelativePath} {r : IndexRecord}
    (h : entryRecord input path = some r) :
    r.path = path ∧ ∃ i, input.tree.get (input.root ++ path.components) = some i ∧
      kindOf i.node = some r.metadata.kind := by
  unfold entryRecord at h
  split at h
  · cases h
  · rename_i i hi
    refine ⟨?_, i, hi, ?_⟩
    · split at h <;> cases h <;> rfl
    · split at h <;> rename_i hnode <;> cases h <;> rw [hnode] <;> rfl

theorem exists_entryRecord {path : RelativePath} {i : Inode} {kind : EntryKind}
    (hi : input.tree.get (input.root ++ path.components) = some i)
    (hkind : kindOf i.node = some kind) :
    ∃ r, entryRecord input path = some r ∧ r.metadata.kind = kind := by
  obtain ⟨node, mode, mtime⟩ := i
  cases node with
  | special => cases hkind
  | directory =>
    cases hkind
    simp [entryRecord, hi]
  | file content =>
    cases hkind
    simp [entryRecord, hi]
  | symlink target =>
    cases hkind
    simp [entryRecord, hi]

theorem isDir_iff_kindOf {i : Inode} : i.IsDir ↔ kindOf i.node = some .directory := by
  unfold Inode.IsDir
  cases i.node <;> simp [kindOf]

theorem decide_isDir {i : Inode} {kind : EntryKind} (h : kindOf i.node = some kind) :
    decide i.IsDir = decide (kind = .directory) := by
  rw [decide_eq_decide, isDir_iff_kindOf, h, Option.some_inj]

/-- The record of a directory. -/
theorem isDir_iff_of_entryRecord {path : RelativePath} {r : IndexRecord}
    (h : entryRecord input path = some r) :
    input.tree.IsDir (input.root ++ path.components) ↔ r.metadata.kind = .directory := by
  obtain ⟨-, j, hj, hkind⟩ := entryRecord_some h
  unfold Tree.IsDir
  rw [hj]
  simp [isDir_iff_kindOf, hkind]

/-- The first directory on the way to an entry. -/
theorem Reached.first {decide : RelativePath → Bool → IgnoreDecision} {directory rest : List Bytes}
    {name : Bytes} {path : RelativePath} (h : Reached decide directory path)
    (hpath : path.components = directory ++ name :: rest) (hrest : rest ≠ []) :
    ∃ first : RelativePath, first.components = directory ++ [name] ∧
      path.components = first.components ++ rest ∧ decide first true = .managed ∧
      Reached decide first.components path := by
  have hpath' : path.components = directory ++ [name] ++ rest := by
    rw [hpath, List.append_cons directory name rest]
  have hpre : directory ++ [name] <+: path.components := hpath' ▸ List.prefix_append _ _
  let first : RelativePath := ⟨directory ++ [name], by simp, fun c hc =>
    path.legal c (hpre.subset hc)⟩
  have hlen : directory.length < first.components.length := by simp [first]
  have hne : first ≠ path := by
    intro heq
    rw [← heq] at hpath'
    exact hrest (List.append_right_eq_self.1 hpath'.symm)
  exact ⟨first, rfl, hpath', h first hpre hne hlen, fun q hq hqne hqlen =>
    h q hq hqne (hlen.trans hqlen)⟩

/-- What is emitted below a directory: a managed entry in it, or what is emitted below a managed
directory in it. -/
theorem emitted_iff {decide : RelativePath → Bool → IgnoreDecision} {directory : List Bytes}
    {r : IndexRecord} :
    Emitted input decide directory r ↔
      ∃ path : RelativePath, (∃ name, path.components = directory ++ [name]) ∧
        (entryRecord input path = some r ∧
            decide path (r.metadata.kind = .directory) = .managed ∨
          input.tree.IsDir (input.root ++ path.components) ∧ decide path true = .managed ∧
            Emitted input decide path.components r) := by
  constructor
  · rintro ⟨⟨names, hne, hpath⟩, hrecord, hmanaged, hreached⟩
    obtain ⟨name, rest, rfl⟩ := List.exists_cons_of_ne_nil hne
    by_cases hrest : rest = []
    · subst hrest
      exact ⟨r.path, ⟨name, hpath⟩, Or.inl ⟨hrecord, hmanaged⟩⟩
    · obtain ⟨first, hfirst, hpath', hdecide, hreached'⟩ := hreached.first hpath hrest
      refine ⟨first, ⟨name, hfirst⟩, Or.inr ⟨?_, hdecide, ⟨rest, hrest, hpath'⟩, hrecord, hmanaged,
        hreached'⟩⟩
      obtain ⟨-, i, hi, -⟩ := entryRecord_some hrecord
      rw [hpath', ← List.append_assoc] at hi
      exact Tree.isDir_of_below hi hrest
  · rintro ⟨path, ⟨name, hpath⟩, ⟨hrecord, hmanaged⟩ | ⟨-, hmanaged, hbelow⟩⟩
    · obtain ⟨hr, -⟩ := entryRecord_some hrecord
      subst hr
      refine ⟨⟨[name], by simp, hpath⟩, hrecord, hmanaged, fun q hq hne hlen => absurd ?_ hne⟩
      refine RelativePath.components_injective (hq.eq_of_length (le_antisymm hq.length_le ?_))
      rw [hpath, List.length_append, List.length_singleton]
      omega
    · obtain ⟨⟨names, hne, hr⟩, hrecord, hmanaged', habove⟩ := hbelow
      have hr' : r.path.components = directory ++ name :: names := by
        rw [hr, hpath, List.append_cons directory name names]
      refine ⟨⟨name :: names, by simp, hr'⟩, hrecord, hmanaged', fun q hq hqne hlen => ?_⟩
      by_cases hlen' : path.components.length < q.components.length
      · exact habove q hq hqne hlen'
      · have hpre : path.components <+: r.path.components := hr ▸ List.prefix_append _ _
        have heq : q = path := by
          refine RelativePath.components_injective ?_
          refine (List.prefix_of_prefix_length_le hq hpre (not_lt.1 hlen')).eq_of_length ?_
          rw [hpath, List.length_append, List.length_singleton] at hlen' ⊢
          omega
        rw [heq]
        exact hmanaged

/-! ### What a scan emits -/

/-- A scan after it has sent records. -/
def Scanner.sent (s : Scanner crate) (records : List IndexRecord) : Scanner crate :=
  { s with output := { s.output with
      items := s.output.items ++ records.map fun r => .ok (.record r) } }

theorem Scanner.sent_nil (s : Scanner crate) : s.sent [] = s := by
  simp [Scanner.sent]

theorem Scanner.sent_sent (s : Scanner crate) (records records' : List IndexRecord) :
    (s.sent records).sent records' = s.sent (records ++ records') := by
  simp [Scanner.sent]

theorem emit_ok {s s' : Scanner crate} {message : IndexMessage}
    (h : (emit message).run s = (.ok (), s')) :
    s.output.isClosed = false ∧
      s' = { s with output := { s.output with items := s.output.items ++ [.ok message] } } := by
  unfold emit at h
  rw [Fallible.run_bind_ok (Fallible.run_get s)] at h
  split at h
  · cases h
  · rename_i hopen
    cases h
    exact ⟨Bool.eq_false_of_not_eq_true hopen, rfl⟩

/-- A path is extended exactly where the longer one is within the limits. -/
theorem appendComponent_eq_ok_iff {scope : Option RelativePath} {component : Bytes}
    {limits : Limits} {path : RelativePath} :
    appendComponent scope component limits = .ok path ↔
      path.components = scopeComponents scope ++ [component] ∧
        path.components.length ≤ limits.maxComponents.toNat ∧
        min ((path.components.map List.length).sum + (path.components.length - 1)) (2 ^ 64 - 1) ≤
          limits.maxPathBytes.toNat := by
  simp only [appendComponent]
  constructor
  · intro h
    split at h
    · cases h
    · rename_i hcount
      split at h
      · cases h
      · rename_i hbytes
        cases hnew : RelativePath.new (scopeComponents scope ++ [component]) with
        | error e =>
          rw [hnew] at h
          cases h
        | ok p =>
          rw [hnew] at h
          cases h
          rw [RelativePath.new_eq_ok_iff.1 hnew]
          exact ⟨rfl, not_lt.1 hcount, not_lt.1 hbytes⟩
  · rintro ⟨hpath, hcount, hbytes⟩
    rw [RelativePath.new_eq_ok_iff.2 hpath, ← hpath, if_neg (not_lt.2 hcount),
      if_neg (not_lt.2 hbytes)]
    rfl

theorem appendComponent_ok {scope : Option RelativePath} {component : Bytes} {limits : Limits}
    {path : RelativePath} (h : appendComponent scope component limits = .ok path) :
    path.components = scopeComponents scope ++ [component] :=
  (appendComponent_eq_ok_iff.1 h).1

theorem mapError_eq_ok {ε ε' α : Type} {f : ε → ε'} {x : Except ε α} {a : α}
    (h : x.mapError f = .ok a) : x = .ok a := by
  cases x with
  | error e => cases h
  | ok b =>
    cases h
    rfl

theorem lift_ok {α : Type} {x : Except QuicSyncError α} {s s' : Scanner crate} {a : α}
    (h : (Fallible.lift x : ScanM crate α).run s = (.ok a, s')) : x = .ok a ∧ s' = s := by
  rw [Fallible.run_lift] at h
  obtain ⟨hx, hs⟩ := Prod.mk.inj h
  exact ⟨hx, hs.symm⟩

theorem plainNames_path (path : RelativePath) : PlainNames path.components :=
  fun _ hc => path.plain hc

/-- The metadata and the digest of an entry make its record. -/
theorem entryRecord_of_ok {path : RelativePath} {i : Inode} {metadata : EntryMetadata}
    {target : Option Bytes} (hi : input.tree.get (input.root ++ path.components) = some i)
    (h : metadataFor input path = .ok (metadata, target)) :
    kindOf i.node = some metadata.kind ∧
      ∀ digest, digestFor input path metadata.kind target = .ok digest →
        entryRecord input path = some ⟨path, metadata, digest, target⟩ := by
  have hplain := plainNames_path path
  obtain ⟨j, hstat, h⟩ := bind_eq_ok_iff.1 h
  obtain ⟨-, rfl⟩ := (lstat_eq_ok_iff hplain path.ne_nil hi).1 (mapError_eq_ok hstat)
  unfold metadataFrom at h
  obtain ⟨kind, hkind, h⟩ := bind_eq_ok_iff.1 h
  obtain ⟨target', htarget, h⟩ := bind_eq_ok_iff.1 h
  cases h
  have hnode : kindOf j.node = some kind := by
    cases hk : kindOf j.node with
    | none =>
      rw [hk] at hkind
      cases hkind
    | some k =>
      rw [hk] at hkind
      exact congrArg some (Except.ok.inj hkind)
  refine ⟨hnode, fun digest hdigest => ?_⟩
  obtain ⟨node, mode, mtime⟩ := j
  cases node with
  | special => cases hnode
  | directory =>
    cases hnode
    cases htarget
    cases hdigest
    simp [entryRecord, hi, len]
  | file content =>
    cases hnode
    cases htarget
    cases hread : readFile input.tree input.root path.components with
    | error e =>
      simp only [digestFor, digestFile, hread] at hdigest
      cases hdigest
    | ok content' =>
      simp only [digestFor, digestFile, hread] at hdigest
      cases hdigest
      obtain ⟨-, -, rfl⟩ := (readFile_eq_ok_iff hplain hi).1 hread
      simp [entryRecord, hi, len]
  | symlink link =>
    cases hnode
    rw [if_pos rfl] at htarget
    unfold readSymlinkTarget at htarget
    cases hread : readlink input.tree input.root path.components with
    | error e =>
      rw [hread] at htarget
      cases htarget
    | ok link' =>
      rw [hread] at htarget
      cases htarget
      cases hdigest
      cases ((readlink_eq_ok_iff hplain path.ne_nil hi).1 hread).2
      simp [entryRecord, hi, len]

theorem plainNames_scope (scope : Option RelativePath) : PlainNames (scopeComponents scope) := by
  cases scope with
  | none => exact fun c hc => absurd hc List.not_mem_nil
  | some path => exact plainNames_path path

theorem plainNames_ignoreFile (scope : Option RelativePath) :
    PlainNames (scopeComponents scope ++ [ascii ".gitignore"]) := by
  intro c hc
  obtain hc | hc := List.mem_append.1 hc
  · exact plainNames_scope scope c hc
  · obtain rfl := List.mem_singleton.1 hc
    decide

theorem mem_children_iff {scope : Option RelativePath} {name : Name} :
    name ∈ sortNames (input.tree.children (input.root ++ scopeComponents scope)) ↔
      ∃ i, input.tree.get (input.root ++ (scopeComponents scope ++ [name])) = some i := by
  rw [mem_sortNames, Tree.mem_children, List.append_assoc]

/-- The rules for the entries of a directory. -/
def Scanner.inside (s : Scanner crate) (input : ScanInput) (scope : Option RelativePath) :
    Scanner crate :=
  { s with policy := ⟨s.policy.scoped ++ rulesIn input crate scope⟩ }

/-- The rules of a directory's ignore file are added. -/
theorem addIgnoreFile_ok {scope : Option RelativePath} {s s' : Scanner crate}
    (h : (addIgnoreFile input scope
      (sortNames (input.tree.children (input.root ++ scopeComponents scope)))).run s =
        (.ok (), s')) :
    s' = s.inside input scope := by
  have hplain := plainNames_ignoreFile scope
  unfold addIgnoreFile at h
  unfold Scanner.inside rulesIn
  by_cases hmem : ascii ".gitignore" ∈
      sortNames (input.tree.children (input.root ++ scopeComponents scope))
  · rw [if_pos hmem] at h
    obtain ⟨i, hi⟩ := mem_children_iff.1 hmem
    obtain ⟨j, s₁, hstat, h₁⟩ := Fallible.run_bind_ok_iff.1 h
    obtain ⟨hstat', rfl⟩ := lift_ok hstat
    obtain ⟨-, rfl⟩ := (lstat_eq_ok_iff hplain (by simp) hi).1 (mapError_eq_ok hstat')
    rw [hi]
    obtain ⟨node, mode, mtime⟩ := j
    by_cases hfile : kindOf node = some .regularFile
    · rw [if_pos hfile] at h₁
      obtain ⟨contents, s₂, hread, h₂⟩ := Fallible.run_bind_ok_iff.1 h₁
      obtain ⟨hread', rfl⟩ := lift_ok hread
      rw [Fallible.run_bind_ok (Fallible.run_get _)] at h₂
      obtain ⟨policy, s₃, hadd, h₃⟩ := Fallible.run_bind_ok_iff.1 h₂
      obtain ⟨hadd', rfl⟩ := lift_ok hadd
      cases h₃
      obtain ⟨matcher, hbuild, hpolicy⟩ := bind_eq_ok_iff.1 hadd'
      cases hpolicy
      cases node with
      | file content =>
        obtain ⟨-, -, rfl⟩ := (readFile_eq_ok_iff hplain hi).1 (mapError_eq_ok hread')
        simp [hbuild]
      | directory => cases hfile
      | symlink target => cases hfile
      | special => cases hfile
    · rw [if_neg hfile] at h₁
      cases h₁
      cases node with
      | file content => exact absurd rfl hfile
      | directory => simp
      | symlink target => simp
      | special => simp
  · rw [if_neg hmem] at h
    cases h
    have hnone : input.tree.get (input.root ++ (scopeComponents scope ++ [ascii ".gitignore"])) =
        none := by
      by_contra hsome
      exact hmem (mem_children_iff.2 (Option.ne_none_iff_exists'.1 hsome))
    simp [hnone]

/-- What the scan of one entry has done when it succeeds. -/
theorem scanEntry_steps {scanBelow : RelativePath → ScanM crate Unit}
    {scope : Option RelativePath} {name : Name} {s s' : Scanner crate}
    (h : (scanEntry input scanBelow scope name).run s = (.ok (), s')) :
    ∃ path metadata target, appendComponent scope name input.limits = .ok path ∧
      metadataFor input path = .ok (metadata, target) ∧
      (s.policy.decision path metadata.kind ≠ .managed ∧ s' = s ∨
        s.policy.decision path metadata.kind = .managed ∧
          ∃ digest, digestFor input path metadata.kind target = .ok digest ∧
            (if metadata.kind = .directory then scanBelow path else pure ()).run
              (s.sent [⟨path, metadata, digest, target⟩]) = (.ok (), s')) := by
  unfold scanEntry at h
  rw [Fallible.run_bind_ok (Fallible.run_get s)] at h
  split at h
  · cases h
  obtain ⟨path, s₁, hpath, h₁⟩ := Fallible.run_bind_ok_iff.1 h
  obtain ⟨hpath', rfl⟩ := lift_ok hpath
  obtain ⟨⟨metadata, target⟩, s₂, hmetadata, h₂⟩ := Fallible.run_bind_ok_iff.1 h₁
  obtain ⟨hmetadata', rfl⟩ := lift_ok hmetadata
  refine ⟨path, metadata, target, hpath', mapError_eq_ok hmetadata', ?_⟩
  cases hdecision : s₂.policy.decision path metadata.kind with
  | ignored =>
    simp only [hdecision] at h₂
    cases h₂
    exact Or.inl ⟨by simp, rfl⟩
  | «protected» =>
    simp only [hdecision] at h₂
    cases h₂
    exact Or.inl ⟨by simp, rfl⟩
  | managed =>
    simp only [hdecision] at h₂
    obtain ⟨digest, s₃, hdigest, h₃⟩ := Fallible.run_bind_ok_iff.1 h₂
    obtain ⟨hdigest', rfl⟩ := lift_ok hdigest
    obtain ⟨_, s₄, hemit, h₄⟩ := Fallible.run_bind_ok_iff.1 h₃
    obtain rfl : s₄ = s₃.sent [⟨path, metadata, digest, target⟩] := (emit_ok hemit).2
    exact Or.inr ⟨rfl, digest, hdigest', h₄⟩

/-- The same in terms of the record of the entry and of the decision for it. -/
theorem scanEntry_record {policy : IgnorePolicy crate}
    {scanBelow : RelativePath → ScanM crate Unit} {scope : Option RelativePath} {name : Name}
    {s s' : Scanner crate}
    (hpolicy : s.policy = policyFor input policy (scopeComponents scope ++ [name]))
    (hentry : ∃ i, input.tree.get (input.root ++ (scopeComponents scope ++ [name])) = some i)
    (h : (scanEntry input scanBelow scope name).run s = (.ok (), s')) :
    ∃ path r, path.components = scopeComponents scope ++ [name] ∧
      entryRecord input path = some r ∧
      (decisionIn input policy path (r.metadata.kind = .directory) ≠ .managed ∧ s' = s ∨
        decisionIn input policy path (r.metadata.kind = .directory) = .managed ∧
          (if r.metadata.kind = .directory then scanBelow path else pure ()).run (s.sent [r]) =
            (.ok (), s')) := by
  obtain ⟨i, hi⟩ := hentry
  obtain ⟨path, metadata, target, happend, hmetadata, hsteps⟩ := scanEntry_steps h
  have hpath := appendComponent_ok happend
  rw [← hpath] at hi hpolicy
  obtain ⟨hkind, hrecord⟩ := entryRecord_of_ok hi hmetadata
  have hdecision : s.policy.decision path metadata.kind =
      decisionIn input policy path (metadata.kind = .directory) := by
    rw [hpolicy]
    rfl
  rw [hdecision] at hsteps
  obtain ⟨hmanaged, hs'⟩ | ⟨hmanaged, digest, hdigest, hrun⟩ := hsteps
  · obtain ⟨r, hr, hrkind⟩ := exists_entryRecord hi hkind
    rw [← hrkind] at hmanaged
    exact ⟨path, r, hpath, hr, Or.inl ⟨hmanaged, hs'⟩⟩
  · exact ⟨path, _, hpath, hrecord digest hdigest, Or.inr ⟨hmanaged, hrun⟩⟩

/-- What the scan of one entry emits: nothing if it is not managed; its record and what is emitted
below it if it is. -/
def EmittedAt (input : ScanInput) (decide : RelativePath → Bool → IgnoreDecision)
    (directory : List Bytes) (name : Bytes) (r : IndexRecord) : Prop :=
  ∃ path : RelativePath, path.components = directory ++ [name] ∧
    (entryRecord input path = some r ∧ decide path (r.metadata.kind = .directory) = .managed ∨
      input.tree.IsDir (input.root ++ path.components) ∧ decide path true = .managed ∧
        Emitted input decide path.components r)

/-- As `Scanned`, for what is at and below some names in a directory. -/
structure ScannedAt (input : ScanInput) (decide : RelativePath → Bool → IgnoreDecision)
    (directory : List Bytes) (names : List Bytes) (records : List IndexRecord) : Prop where
  mem_iff : ∀ r, r ∈ records ↔ ∃ name ∈ names, EmittedAt input decide directory name r
  supported : ∀ (path : RelativePath) (i : Inode) (rest : List Bytes), ∀ name ∈ names,
    path.components = directory ++ name :: rest →
    input.tree.get (input.root ++ path.components) = some i → Reached decide directory path →
    kindOf i.node ≠ none

/-- An entry that is reached through a name is the name's, or it is below the name's, where the scan
has been. -/
theorem supported_at {decide : RelativePath → Bool → IgnoreDecision} {directory : List Bytes}
    {name : Name} {path : RelativePath} {own : IndexRecord}
    (hcomponents : path.components = directory ++ [name]) (hown : entryRecord input path = some own)
    (hscan : decide path true = .managed → input.tree.IsDir (input.root ++ path.components) →
      ∃ records, Scanned input decide path.components records)
    (q : RelativePath) (j : Inode) (rest : List Bytes) (name' : Bytes) (hname : name' ∈ [name])
    (hq : q.components = directory ++ name' :: rest)
    (hj : input.tree.get (input.root ++ q.components) = some j)
    (hreached : Reached decide directory q) : kindOf j.node ≠ none := by
  have hunique (q : RelativePath) (hq : q.components = directory ++ [name]) : q = path :=
    RelativePath.components_injective (hq.trans hcomponents.symm)
  obtain rfl := List.mem_singleton.1 hname
  by_cases hrest : rest = []
  · subst hrest
    obtain ⟨-, i, hi, hkind⟩ := entryRecord_some hown
    rw [hunique q hq, hi] at hj
    cases hj
    simp [hkind]
  · obtain ⟨first, hfirst, hpath, hdecide, hreached'⟩ := hreached.first hq hrest
    obtain rfl := hunique first hfirst
    have hdir : input.tree.IsDir (input.root ++ first.components) := by
      rw [hpath, ← List.append_assoc] at hj
      exact Tree.isDir_of_below hj hrest
    obtain ⟨records, hscanned⟩ := hscan hdecide hdir
    exact hscanned.supported q j rest hrest hpath hj hreached'

/-- One entry, given what the scan of a directory emits. -/
theorem scanEntry_ok {policy : IgnorePolicy crate} {scanBelow : RelativePath → ScanM crate Unit}
    {scope : Option RelativePath} {name : Name} {s s' : Scanner crate}
    (hpolicy : s.policy = policyFor input policy (scopeComponents scope ++ [name]))
    (hentry : ∃ i, input.tree.get (input.root ++ (scopeComponents scope ++ [name])) = some i)
    (hbelow : ∀ (path : RelativePath) (s₁ : Scanner crate),
      path.components = scopeComponents scope ++ [name] → s₁.policy = s.policy →
      input.tree.IsDir (input.root ++ path.components) →
      (scanBelow path).run s₁ = (.ok (), s') →
      ∃ records, s' = s₁.sent records ∧
        Scanned input (decisionIn input policy) path.components records)
    (h : (scanEntry input scanBelow scope name).run s = (.ok (), s')) :
    ∃ records, s' = s.sent records ∧
      ScannedAt input (decisionIn input policy) (scopeComponents scope) [name] records := by
  obtain ⟨path, own, hcomponents, hown, hsteps⟩ := scanEntry_record hpolicy hentry h
  have hisDir := isDir_iff_of_entryRecord hown
  -- the only path with these components is the entry's
  have hunique (q : RelativePath) (hq : q.components = scopeComponents scope ++ [name]) :
      q = path := RelativePath.components_injective (hq.trans hcomponents.symm)
  have hmem_singleton {r : IndexRecord} : (∃ name' ∈ [name], EmittedAt input
      (decisionIn input policy) (scopeComponents scope) name' r) ↔
      EmittedAt input (decisionIn input policy) (scopeComponents scope) name r := by simp
  obtain ⟨hmanaged, hs'⟩ | ⟨hmanaged, hrun⟩ := hsteps
  · have hnot (hdecided : decisionIn input policy path true = .managed)
        (hdir : input.tree.IsDir (input.root ++ path.components)) : False := by
      rw [decide_eq_true (hisDir.1 hdir)] at hmanaged
      exact hmanaged hdecided
    refine ⟨[], by rw [hs', Scanner.sent_nil], fun r => iff_of_false List.not_mem_nil ?_,
      supported_at hcomponents hown fun hdecided hdir => (hnot hdecided hdir).elim⟩
    rw [hmem_singleton]
    rintro ⟨q, hq, hr⟩
    obtain rfl := hunique q hq
    obtain ⟨hr, hdecided⟩ | ⟨hdir, hdecided, -⟩ := hr
    · obtain rfl := Option.some.inj (hr.symm.trans hown)
      exact hmanaged hdecided
    · exact hnot hdecided hdir
  · by_cases hdir : own.metadata.kind = .directory
    · rw [if_pos hdir] at hrun
      have hmanagedDir : decisionIn input policy path true = .managed := by
        rw [decide_eq_true hdir] at hmanaged
        exact hmanaged
      obtain ⟨records, hs', hscanned⟩ := hbelow path (s.sent [own]) hcomponents rfl
        (hisDir.2 hdir) hrun
      refine ⟨own :: records, ?_, fun r => ?_,
        supported_at hcomponents hown fun _ _ => ⟨records, hscanned⟩⟩
      · rw [hs', Scanner.sent_sent]
        rfl
      · rw [List.mem_cons, hscanned.mem_iff, hmem_singleton]
        constructor
        · rintro (rfl | hr)
          · exact ⟨path, hcomponents, Or.inl ⟨hown, hmanaged⟩⟩
          · exact ⟨path, hcomponents, Or.inr ⟨hisDir.2 hdir, hmanagedDir, hr⟩⟩
        · rintro ⟨q, hq, hr⟩
          obtain rfl := hunique q hq
          obtain ⟨hr, -⟩ | ⟨-, -, hr⟩ := hr
          · exact Or.inl (Option.some.inj (hr.symm.trans hown))
          · exact Or.inr hr
    · rw [if_neg hdir] at hrun
      cases hrun
      refine ⟨_, rfl, fun r => ?_,
        supported_at hcomponents hown fun _ hr => absurd (hisDir.1 hr) hdir⟩
      rw [List.mem_singleton, hmem_singleton]
      constructor
      · rintro rfl
        exact ⟨path, hcomponents, Or.inl ⟨hown, hmanaged⟩⟩
      · rintro ⟨q, hq, hr⟩
        obtain rfl := hunique q hq
        obtain ⟨hr, -⟩ | ⟨hr, -⟩ := hr
        · exact Option.some.inj (hr.symm.trans hown)
        · exact absurd (hisDir.1 hr) hdir

/-- The entries of a directory, given what the scan of a directory emits. -/
theorem scanEntries_ok {policy : IgnorePolicy crate} {scanBelow : RelativePath → ScanM crate Unit}
    {scope : Option RelativePath} {names : List Name} {s s' : Scanner crate}
    (hpolicy : ∀ name, s.policy = policyFor input policy (scopeComponents scope ++ [name]))
    (hentry : ∀ name ∈ names,
      ∃ i, input.tree.get (input.root ++ (scopeComponents scope ++ [name])) = some i)
    (hbelow : ∀ (path : RelativePath) (s₁ s₂ : Scanner crate),
      s₁.policy = policyFor input policy path.components →
      input.tree.IsDir (input.root ++ path.components) →
      (scanBelow path).run s₁ = (.ok (), s₂) →
      ∃ records, s₂ = s₁.sent records ∧
        Scanned input (decisionIn input policy) path.components records)
    (h : (scanEntries input scanBelow scope names).run s = (.ok (), s')) :
    ∃ records, s' = s.sent records ∧
      ScannedAt input (decisionIn input policy) (scopeComponents scope) names records := by
  induction names generalizing s with
  | nil =>
    cases h
    exact ⟨[], (Scanner.sent_nil _).symm, by simp, by simp⟩
  | cons name names ih =>
    obtain ⟨_, s₁, hfirst, hrest⟩ := Fallible.run_bind_ok_iff.1 h
    obtain ⟨records, hs₁, hscanned⟩ := scanEntry_ok (hpolicy name)
      (hentry name List.mem_cons_self)
      (fun path s₂ hpath hs₂ => hbelow path s₂ s₁ (by rw [hs₂, hpolicy name, hpath])) hfirst
    obtain ⟨records', hs', hscanned'⟩ := ih (fun name => hs₁ ▸ hpolicy name)
      (fun name hname => hentry name (List.mem_cons_of_mem _ hname)) hrest
    refine ⟨records ++ records', by rw [hs', hs₁, Scanner.sent_sent], fun r => ?_,
      fun path i rest name' hname => ?_⟩
    · rw [List.mem_append, hscanned.mem_iff, hscanned'.mem_iff]
      simp
    · obtain rfl | hname := List.mem_cons.1 hname
      · exact hscanned.supported path i rest name' (List.mem_singleton_self _)
      · exact hscanned'.supported path i rest name' hname

/-- What the scan of a directory has done when it succeeds: its ignore file is read, its entries are
scanned in order, and the rules that have been added are discarded. -/
theorem scanDirectory_steps {n : ℕ} {scope : Option RelativePath} {s s' : Scanner crate}
    (hdir : input.tree.IsDir (input.root ++ scopeComponents scope))
    (h : (scanDirectory input (n + 1) scope).run s = (.ok (), s')) :
    input.tree.Reachable input.root (scopeComponents scope) ∧
      (∀ i ∈ input.tree.get (input.root ++ scopeComponents scope), i.Readable) ∧
      (addIgnoreFile input scope
        (sortNames (input.tree.children (input.root ++ scopeComponents scope)))).run s =
          (.ok (), s.inside input scope) ∧
      ∃ s₁, (scanEntries input (fun path => scanDirectory input n (some path)) scope
          (sortNames (input.tree.children (input.root ++ scopeComponents scope)))).run
            (s.inside input scope) = (.ok (), s₁) ∧
        s' = { s₁ with policy := s₁.policy.restore s.policy.checkpoint } := by
  rw [scanDirectory, Fallible.run_bind_ok (Fallible.run_get s)] at h
  obtain ⟨entries, s₁, hread, h₁⟩ := Fallible.run_bind_ok_iff.1 h
  obtain ⟨hread', rfl⟩ := lift_ok hread
  obtain ⟨i, hi, hidir⟩ := hdir
  obtain ⟨hreach, hreadable, rfl⟩ :=
    (readDir_eq_ok_iff (plainNames_scope scope) hi hidir).1 (mapError_eq_ok hread')
  obtain ⟨_, s₂, hignore, h₂⟩ := Fallible.run_bind_ok_iff.1 h₁
  obtain rfl := addIgnoreFile_ok hignore
  obtain ⟨_, s₃, hentries, h₃⟩ := Fallible.run_bind_ok_iff.1 h₂
  refine ⟨hreach, fun j hj => ?_, hignore, s₃, hentries, ?_⟩
  · obtain rfl := Option.some.inj ((Option.mem_def.1 hi).symm.trans hj)
    exact hreadable
  · cases h₃
    rfl

theorem Scanner.inside_policyFor (s : Scanner crate) {policy : IgnorePolicy crate}
    {scope : Option RelativePath}
    (hpolicy : s.policy = policyFor input policy (scopeComponents scope)) (name : Name) :
    (s.inside input scope).policy = policyFor input policy (scopeComponents scope ++ [name]) := by
  rw [policyFor_append, scopeOf_scopeComponents, ← hpolicy]
  rfl

/-- Behind a directory the rules are those before it. -/
theorem Scanner.restore_inside (s : Scanner crate) (scope : Option RelativePath)
    (records : List IndexRecord) :
    { (s.inside input scope).sent records with
      policy := ((s.inside input scope).sent records).policy.restore s.policy.checkpoint } =
      s.sent records := by
  simp [Scanner.sent, Scanner.inside, IgnorePolicy.restore, IgnorePolicy.checkpoint]

/-- **The scan of a directory**, by induction on the depth: it emits what is managed below it, and
leaves the rules as they were. -/
theorem scanDirectory_ok {policy : IgnorePolicy crate} {n : ℕ} (scope : Option RelativePath)
    {s s' : Scanner crate} (hpolicy : s.policy = policyFor input policy (scopeComponents scope))
    (hdir : input.tree.IsDir (input.root ++ scopeComponents scope))
    (h : (scanDirectory input n scope).run s = (.ok (), s')) :
    ∃ records, s' = s.sent records ∧
      Scanned input (decisionIn input policy) (scopeComponents scope) records := by
  induction n generalizing scope s s' with
  | zero => cases h
  | succ n ih =>
    obtain ⟨-, -, -, s₁, hentries, rfl⟩ := scanDirectory_steps hdir h
    obtain ⟨records, rfl, hscanned⟩ := scanEntries_ok (s.inside_policyFor hpolicy)
      (fun name => mem_children_iff.1)
      (fun path s₄ s₅ hs₄ hpath hrun => ih (some path) hs₄ hpath hrun) hentries
    refine ⟨records, s.restore_inside scope records, fun r => ?_,
      fun path i names hne hpath hi hreached => ?_⟩
    · rw [hscanned.mem_iff, emitted_iff]
      constructor
      · rintro ⟨name, -, path, hpath, hr⟩
        exact ⟨path, ⟨name, hpath⟩, hr⟩
      · rintro ⟨path, ⟨name, hpath⟩, hr⟩
        refine ⟨name, mem_children_iff.2 ?_, path, hpath, hr⟩
        rw [← hpath]
        obtain ⟨hr, -⟩ | ⟨⟨i, hi, -⟩, -⟩ := hr
        · obtain ⟨-, i, hi, -⟩ := entryRecord_some hr
          exact ⟨i, hi⟩
        · exact ⟨i, hi⟩
    · obtain ⟨name, rest, rfl⟩ := List.exists_cons_of_ne_nil hne
      refine hscanned.supported path i rest name (mem_children_iff.2 ?_) hpath hi hreached
      by_cases hrest : rest = []
      · subst hrest
        rw [hpath] at hi
        exact ⟨i, hi⟩
      · rw [hpath, List.append_cons _ name rest, ← List.append_assoc] at hi
        obtain ⟨j, hj, -⟩ := Tree.isDir_of_below hi hrest
        exact ⟨j, hj⟩

/-- What a scan of the root has done when it succeeds. -/
theorem scanRoot_steps {configuredExclusions : List String} {closesAfter : Option ℕ}
    {items : List IndexItem}
    (h : scanRoot input crate configuredExclusions closesAfter = (.ok (), items)) :
    ∃ (policy : IgnorePolicy crate) (s : Scanner crate),
      IgnorePolicy.withConfiguredExclusions configuredExclusions = .ok policy ∧
      (scanDirectory input (input.limits.maxComponents.toNat + 1) none).run
        ⟨policy, ⟨[], closesAfter⟩⟩ = (.ok (), s) ∧
      s.output.isClosed = false ∧ items = s.output.items ++ [.ok .end] := by
  unfold scanRoot at h
  simp only at h
  split at h
  · rename_i s' hrun
    cases h
    obtain ⟨policy, s₁, hpolicy, h₁⟩ := Fallible.run_bind_ok_iff.1 hrun
    obtain ⟨hpolicy', rfl⟩ := lift_ok hpolicy
    rw [Fallible.run_bind_ok (Fallible.run_modify _ _)] at h₁
    obtain ⟨_, s₂, hscan, hend⟩ := Fallible.run_bind_ok_iff.1 h₁
    obtain ⟨hopen, rfl⟩ := emit_ok hend
    exact ⟨policy, s₂, hpolicy', hscan, hopen, rfl⟩
  · cases h

theorem policyFor_nil (policy : IgnorePolicy crate) :
    policyFor input policy (scopeComponents none) = policy := by
  simp [policyFor, scopeComponents]

/-- **A scan that succeeds** sends the records of exactly the managed entries below the root, and
then the end. -/
theorem scanRoot_ok {configuredExclusions : List String} {closesAfter : Option ℕ}
    {items : List IndexItem} (hdir : input.tree.IsDir input.root)
    (h : scanRoot input crate configuredExclusions closesAfter = (.ok (), items)) :
    ∃ policy : IgnorePolicy crate,
      IgnorePolicy.withConfiguredExclusions configuredExclusions = .ok policy ∧
      ∃ records : List IndexRecord, items = records.map (fun r => .ok (.record r)) ++ [.ok .end] ∧
        Scanned input (decisionIn input policy) [] records := by
  obtain ⟨policy, s, hpolicy, hscan, -, rfl⟩ := scanRoot_steps h
  obtain ⟨records, rfl, hscanned⟩ := scanDirectory_ok none (policyFor_nil policy).symm
    (by simpa [scopeComponents] using hdir) hscan
  exact ⟨policy, hpolicy, records, by simp [Scanner.sent], hscanned⟩

end

end QuicSync
