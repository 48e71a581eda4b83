import QuicSync.Filesystem.Scan
import QuicSync.Sync.Confinement
import QuicSync.Sync.Requesting

/-!
# What a scan leaves out survives

A destination entry that its scan does not emit, because it or an ancestor is ignored or protected,
is still there after a commit, whether the commit succeeds or fails.

An operation touches the entry at its own path only, so the operations at the path of such an entry
are what matters.  The destination's index has no record of it, so they are upserts of records that
the source's scan emits.  Where both scans use the same decision function, the source has a directory
at the path if and only if the destination does not; and no upsert replaces a directory by
something else, or something else by a directory.

* `commitAll_intact`: a commit keeps an entry that its operations do not fit.
* `unmanaged_survives`: a whole sync keeps every entry that is not emitted.
-/

namespace QuicSync

open Posix

/-- The operation would make a directory of an entry that is none, or the other way round. -/
def Operation.Mismatched (operation : Operation) (i : Inode) : Prop :=
  match operation with
  | .upsertDirectory .. => ¬ i.IsDir
  | .upsertFile .. | .upsertSymlink .. => i.IsDir
  | .delete .. => False

section

variable {root : RootHandle} {own : List Name} {P : RelativePath → Prop} {w w' : World}
  {path : RelativePath} {file : StagedFile} {α : Type} {i : Inode} {q : Path}

/-- Allowed changes elsewhere leave an entry alone. -/
theorem sameEntry_of_evolves (h : Evolves (Allowed root own P) w w')
    (hP : ∀ p, P p → root.at p ≠ q) (hown : ∀ name ∈ own, q ≠ stagedPath root name) :
    SameEntry (w.tree.get q) (w'.tree.get q) := by
  refine h.preserves (P := fun t t' => SameEntry (t.get q) (t'.get q))
    (fun _ => SameEntry.refl _) fun t u v htu huv => htu.trans ?_
  cases huv with
  | own h => exact h q not_false hown
  | entry p hp _ _ h => exact h q (fun heq => hP p hp heq.symm) hown

/-! ### Upserts that do not fit -/

/-- The computation fails and makes allowed changes only. -/
abbrev RefusesAt (root : RootHandle) (own : List Name) (P : RelativePath → Prop) (m : FsM α)
    (w : World) : Prop :=
  Refuses (Evolves (Allowed root own P)) m w

theorem RefusesAt.bind {β : Type} {m : FsM α} {f : α → FsM β} (hm : Confines root own P m w)
    (hf : ∀ a w', m.run w = (.ok a, w') → RefusesAt root own P (f a) w') :
    RefusesAt root own P (m >>= f) w :=
  Refuses.bind (R := Evolves (Allowed root own P)) (fun _ _ _ => Evolves.trans) hm hf

theorem RefusesAt.resolveParent {f : ValidatedParent → FsM α}
    (h : Unprotected path → RefusesAt root own P (f (parentOf root path)) w) :
    RefusesAt root own P (resolveParent root path >>= f) w := by
  refine RefusesAt.bind (Confines.of_state (resolveParent_state root path w)) fun parent w' hrun => ?_
  obtain ⟨rfl, hprot, rfl⟩ := resolveParent_ok hrun
  exact h hprot

theorem RefusesAt.call {f : World → Except Errno World} {error : Errno → QuicSyncError}
    (h : ∀ w', f w ≠ .ok w') : RefusesAt root own P (call f error) w := by
  cases hf : f w with
  | ok w' => exact absurd hf (h w')
  | error e =>
    refine ⟨error e, w, ?_, Evolves.refl w⟩
    rw [run_call, hf]

theorem RefusesAt.query {f : World → Except Errno α} {error : Errno → QuicSyncError}
    (h : ∀ a, f w ≠ .ok a) : RefusesAt root own P (query f error) w := by
  cases hf : f w with
  | ok a => exact absurd hf (h a)
  | error e =>
    refine ⟨error e, w, ?_, Evolves.refl w⟩
    rw [run_query, hf]
    rfl

/-- A call that cannot succeed changes nothing, also where its failure is tolerated. -/
theorem RefusesAt.tolerate {tolerated : Errno} {f : World → Except Errno World}
    {error : Errno → QuicSyncError} {g : Unit → FsM α} (h : ∀ w', f w ≠ .ok w')
    (hg : RefusesAt root own P (g ()) w) :
    RefusesAt root own P (tolerate tolerated f error >>= g) w := by
  refine RefusesAt.bind (Confines.tolerate fun w' hf => absurd hf (h w')) fun _ w' hrun => ?_
  rw [run_tolerate] at hrun
  cases hf : f w with
  | ok w₁ => exact absurd hf (h w₁)
  | error e =>
    rw [hf] at hrun
    simp only at hrun
    split at hrun
    · cases hrun
      exact hg
    · cases hrun

theorem refuses_upsertDirectory {metadata : EntryMetadata} (hi : w.tree.get (root.at path) = some i)
    (hdir : ¬ i.IsDir) : RefusesAt root own P (upsertDirectory root path metadata) w := by
  refine RefusesAt.resolveParent fun _ => RefusesAt.tolerate (fun w' hmkdir => ?_)
    (Refuses.left (RefusesAt.query fun p hopen => ?_))
  · obtain ⟨-, hnone, -⟩ := (mkdirat_eq_ok_iff (plain_leaf root path)).1 hmkdir
    rw [parentOf_directory_leaf, hi] at hnone
    cases hnone
  · obtain ⟨-, ⟨j, hj, hjdir, -⟩, -⟩ := (openat_directory_eq_ok_iff (plain_leaf root path)).1 hopen
    rw [parentOf_directory_leaf, hi] at hj
    cases hj
    exact hdir hjdir

theorem refuses_symlink {record : IndexRecord} (hi : w.tree.get (root.at record.path) = some i)
    (hdir : i.IsDir) : RefusesAt root own P (symlink root record) w := by
  unfold symlink
  refine RefusesAt.bind (Confines.of_state rfl) fun target w₁ hrun => ?_
  obtain rfl : w = w₁ := congrArg Prod.snd hrun
  refine RefusesAt.bind (Confines.of_state rfl) fun target' w₂ hrun' => ?_
  obtain rfl : w = w₂ := congrArg Prod.snd hrun'
  refine RefusesAt.resolveParent fun _ => RefusesAt.tolerate (fun w' hunlink => ?_)
    (Refuses.left (RefusesAt.call fun w' hlink => ?_))
  · obtain ⟨-, -, ⟨j, hj, hjdir⟩, -⟩ := (unlinkat_eq_ok_iff (plain_leaf root record.path)).1 hunlink
    rw [parentOf_directory_leaf, hi] at hj
    cases hj
    exact absurd (hjdir.1 hdir) (by decide)
  · obtain ⟨-, hnone, -⟩ := (symlinkat_eq_ok_iff (plain_leaf root record.path)).1 hlink
    rw [parentOf_directory_leaf, hi] at hnone
    cases hnone

/-- The path of an entry without a protected component is not that of a temporary file. -/
theorem at_ne_stagedPath (hprot : Unprotected path) (name : Name) :
    root.at path ≠ stagedPath root name :=
  (staging_ne_at hprot).symm

theorem refuses_install {metadata : EntryMetadata} (hfile : Owned root own file)
    (hi : w.tree.get (root.at path) = some i) (hdir : i.IsDir) :
    RefusesAt root own P (file.install root path metadata) w := by
  unfold StagedFile.install
  refine Refuses.onError (R := Evolves (Allowed root own P)) (fun _ _ _ => Evolves.trans) ?_
    fun w => confines_drop hfile
  split
  swap
  · exact ⟨_, w, rfl, Evolves.refl w⟩
  refine RefusesAt.bind (Confines.query _ _) fun descriptor w₁ hopen =>
    RefusesAt.bind (confines_setFileMetadata_staged hfile hopen) fun _ w₂ hset =>
    RefusesAt.resolveParent fun hprot => RefusesAt.call fun w' hrename => ?_
  -- the entry is still a directory when the file is moved over it
  obtain ⟨-, rfl⟩ := query_ok hopen
  have hstaged : Evolves (Allowed root own fun _ => False) w₁ w₂ := by
    have hconfines : Confines root own (fun _ => False) (setFileMetadata descriptor metadata) w₁ :=
      confines_setFileMetadata_staged hfile hopen
    unfold Confines KeepsAt at hconfines
    rwa [hset] at hconfines
  have hsame := sameEntry_of_evolves hstaged (q := root.at path) (fun _ h => h.elim)
    fun name _ => at_ne_stagedPath hprot name
  rw [hi] at hsame
  obtain ⟨j, hj, hjdir, -⟩ := hsame.permissions hdir
  obtain ⟨-, -, -, -, hno, -⟩ :=
    (renameat_eq_ok_iff file.plain_name (plain_leaf root path)).1 hrename
  rw [parentOf_directory_leaf] at hno
  exact hno ⟨j, hj, hjdir⟩

/-! ### A commit -/

/-- The committer has nothing to do at a path, and the entry there is what it was. -/
structure Intact (root : RootHandle) (own : List Name) (q : Path) (i : Inode) (s : Site) :
    Prop where
  good : s.Good root own fun p => root.at p ≠ q
  entry : SameEntry (some i) (s.world.tree.get q)

/-- Steps that keep the entry intact. -/
def KeepsIntact (root : RootHandle) (own : List Name) (q : Path) (i : Inode) (s s' : Site) : Prop :=
  Intact root own q i s → Intact root own q i s'

theorem KeepsIntact.refl (s : Site) : KeepsIntact root own q i s s := id

theorem KeepsIntact.trans (s s' s'' : Site) (h : KeepsIntact root own q i s s')
    (h' : KeepsIntact root own q i s' s'') : KeepsIntact root own q i s s'' :=
  fun hs => h' (h hs)

/-- Steps at other paths keep the entry intact. -/
theorem KeepsIntact.of_steps (hown : ∀ name ∈ own, q ≠ stagedPath root name) {s s' : Site}
    (h : Steps root own (fun p => root.at p ≠ q) s s') : KeepsIntact root own q i s s' := by
  intro hs
  obtain ⟨hgood, hev⟩ := h hs.good
  exact ⟨hgood, hs.entry.trans (sameEntry_of_evolves hev (fun _ hp => hp) hown)⟩

/-- An upsert that does not fit the entry at its path. -/
theorem keepsIntact_install (hown : ∀ name ∈ own, root.at path ≠ stagedPath root name)
    {operation : Operation} {file : Option StagedFile} (hpath : operation.path = path)
    (hmismatch : operation.Mismatched i) (hfile : ∀ f ∈ file, Owned root own f) :
    Keeps (KeepsIntact root own (root.at path) i) (Committer.install operation file) := by
  intro s hs
  obtain rfl := hs.good.root_eq
  obtain ⟨j, hj, hnode, -⟩ := SameEntry.some_iff.1 hs.entry
  have hdir : j.IsDir ↔ i.IsDir := by
    unfold Inode.IsDir
    rw [hnode]
  -- what is refused leaves the committer as it is
  have hworld {m : FsM Unit}
      (h : RefusesAt s.committer.root own
        (fun p => s.committer.root.at p ≠ s.committer.root.at path) m s.world) :
      ∃ e s', (onWorld m).run s = (.error e, s') ∧
        Intact s.committer.root own (s.committer.root.at path) i s' := by
    obtain ⟨e, w', hrun, hev⟩ := h
    have hsteps : Steps s.committer.root own
        (fun p => s.committer.root.at p ≠ s.committer.root.at path) s { s with world := w' } :=
      fun hgood => ⟨⟨hgood.root_eq, hgood.pending⟩, hev⟩
    refine ⟨e, { s with world := w' }, ?_, KeepsIntact.of_steps hown hsteps hs⟩
    unfold onWorld
    rw [Fallible.run_zoom, hrun]
  have hreplacing : s.committer.replacingDirectory path = false := by
    unfold Committer.replacingDirectory
    split
    · rename_i d ds hpending
      have hd := (hs.good.pending d (hpending ▸ List.mem_cons_self)).1
      have hne : d.path ≠ path := fun heq => hd (congrArg _ heq)
      simp [hne]
    · rfl
  have hinstall : Intact s.committer.root own (s.committer.root.at path) i
      ((Committer.install operation file).run s).2 := by
    unfold Committer.install
    rw [Fallible.run_bind_ok (Fallible.run_get s)]
    cases operation with
    | delete id p kind => exact hmismatch.elim
    | upsertDirectory id record =>
      obtain rfl : record.path = path := hpath
      obtain ⟨e, s', hrun, hs'⟩ := hworld (m := upsertDirectory s.committer.root record.path
        record.metadata) (refuses_upsertDirectory hj (mt hdir.1 hmismatch))
      simp only
      rw [Fallible.run_bind_error hrun]
      exact hs'
    | upsertFile update id record =>
      obtain rfl : record.path = path := hpath
      cases file with
      | none => exact hs
      | some f =>
        obtain ⟨e, s', hrun, hs'⟩ := hworld (m := f.install s.committer.root record.path
          record.metadata) (refuses_install (hfile f rfl) hj (hdir.2 hmismatch))
        simp only [hreplacing, Bool.false_eq_true, if_false]
        rw [hrun]
        exact hs'
    | upsertSymlink id record =>
      obtain rfl : record.path = path := hpath
      obtain ⟨e, s', hrun, hs'⟩ := hworld (m := symlink s.committer.root record)
        (refuses_symlink hj (hdir.2 hmismatch))
      simp only [hreplacing, Bool.false_eq_true, if_false]
      rw [hrun]
      exact hs'
  exact hinstall

theorem keepsIntact_apply (hown : ∀ name ∈ own, q ≠ stagedPath root name) {operation : Operation}
    {file : Option StagedFile} (hop : root.at operation.path = q → operation.Mismatched i)
    (hfile : ∀ f ∈ file, Owned root own f) :
    Keeps (KeepsIntact root own q i) (Committer.apply operation file) := by
  by_cases hpath : root.at operation.path = q
  · subst hpath
    refine Keeps.bind KeepsIntact.trans
      (fun s => KeepsIntact.of_steps hown (steps_prepare hfile s)) fun _ =>
      Keeps.bind KeepsIntact.trans
        (fun s => KeepsIntact.of_steps hown (steps_previous operation.path s)) fun _ => ?_
    exact keepsIntact_install hown rfl (hop rfl) hfile
  · exact fun s => KeepsIntact.of_steps hown (steps_apply hpath hfile s)

theorem keepsIntact_applyAll (hown : ∀ name ∈ own, q ≠ stagedPath root name)
    {changes : List Change} (hop : ∀ c ∈ changes, root.at c.1.path = q → c.1.Mismatched i)
    (hfile : ∀ c ∈ changes, ∀ f ∈ c.2, Owned root own f) :
    Keeps (KeepsIntact root own q i) (applyAll changes) := by
  induction changes with
  | nil => exact Keeps.pure KeepsIntact.refl ()
  | cons c changes ih =>
    obtain ⟨operation, file⟩ := c
    have hfile' : ∀ c ∈ changes, ∀ f ∈ c.2, Owned root own f := fun c hc =>
      hfile c (List.mem_cons_of_mem _ hc)
    refine Keeps.bind KeepsIntact.trans (Keeps.onError KeepsIntact.trans
      (keepsIntact_apply hown (hop _ List.mem_cons_self) (hfile _ List.mem_cons_self)) fun s => ?_)
      fun _ => ih (fun c hc => hop c (List.mem_cons_of_mem _ hc)) hfile'
    exact KeepsIntact.of_steps hown (steps_onWorld (fun _ => confines_dropChanges hfile'))

/-- **A commit keeps an entry** that its operations do not fit, whether it succeeds or fails. -/
theorem commitAll_intact (hown : ∀ name ∈ own, q ≠ stagedPath root name)
    {changes : List Change} (hop : ∀ c ∈ changes, root.at c.1.path = q → c.1.Mismatched i)
    (hfile : ∀ c ∈ changes, ∀ f ∈ c.2, Owned root own f) (hi : SameEntry (some i) (w.tree.get q)) :
    SameEntry (some i) (((commitAll changes).run ⟨Committer.new root, w⟩).2.world.tree.get q) := by
  have hkeeps : Keeps (KeepsIntact root own q i) (commitAll changes) :=
    Keeps.onError KeepsIntact.trans
      (Keeps.bind KeepsIntact.trans (keepsIntact_applyAll hown hop hfile) fun _ s =>
        KeepsIntact.of_steps hown (steps_finishPending _ s))
      fun s => KeepsIntact.of_steps hown (steps_drop s)
  exact (hkeeps ⟨Committer.new root, w⟩ ⟨⟨rfl, by simp [Committer.new]⟩, hi⟩).entry

end

/-! ### A sync -/

theorem stream_injective : Function.Injective stream := by
  intro S S' h
  have hmap := List.append_cancel_right h
  refine List.map_injective_iff.2 (fun r r' hr => ?_) hmap
  simpa using hr

section

variable {crate : IgnoreCrate} {source destination : ScanInput}
  {exclusions exclusions' : List String} {closesAfter closesAfter' : Option ℕ} {root : RootHandle}
  {S D : List IndexRecord} {i : Inode} {decide decide' : RelativePath → Bool → IgnoreDecision}

/-- Where the destination manages all that the source manages, an operation at the path of an entry
that the destination does not emit does not fit it. -/
theorem mismatched_of_plan (hS : Scanned source decide [] S) (hD : Scanned destination decide' [] D)
    (hle : ∀ path isDir, decide path isDir = .managed → decide' path isDir = .managed)
    {operation : Operation} (hop : operation ∈ (plan (stream S) (stream D)).1)
    (hi : destination.tree.get (destination.root ++ operation.path.components) = some i)
    (hnot : ∀ d ∈ D, d.path ≠ operation.path) : operation.Mismatched i := by
  obtain ⟨a, ha, id, update, rfl⟩ | ⟨b, hb, id, rfl⟩ := plan_origin hop
  · rw [path_upsertOperation] at hi hnot
    obtain ⟨-, -, hmanagedS, hreachedS⟩ := (hS.mem_iff a).1 ha
    have hmanaged := hle _ _ hmanagedS
    have hreached : Reached decide' [] a.path := fun q hq hne hlt => hle _ _ (hreachedS q hq hne hlt)
    obtain ⟨kind, hkind⟩ := Option.ne_none_iff_exists'.1
      (hD.supported a.path i a.path.components a.path.ne_nil rfl hi hreached)
    -- an entry of the same nature would have been emitted
    have hdiffer : ¬ (i.IsDir ↔ a.metadata.kind = .directory) := by
      intro hsame
      obtain ⟨r, hr, hrkind⟩ := exists_entryRecord hi hkind
      obtain ⟨hrpath, -⟩ := entryRecord_some hr
      have hdir : r.metadata.kind = .directory ↔ a.metadata.kind = .directory := by
        rw [← hsame, isDir_iff_kindOf, hkind, hrkind, Option.some_inj]
      refine hnot r ((hD.mem_iff r).2 ?_) hrpath
      refine ⟨⟨r.path.components, r.path.ne_nil, rfl⟩, by rw [hrpath, hr], ?_, by rwa [hrpath]⟩
      rw [hrpath]
      simpa only [hdir] using hmanaged
    unfold Operation.Mismatched upsertOperation
    cases hakind : a.metadata.kind with
    | directory => simpa [hakind] using hdiffer
    | regularFile => simpa [hakind] using hdiffer
    | symlink => simpa [hakind] using hdiffer
  · exact absurd rfl (hnot b hb)

/-- Where the destination manages all that the source manages, an entry that the destination's scan
did not emit is there after the commit. -/
theorem unemitted_survives {content : RelativePath → Bytes}
    {random : RelativePath → Vector UInt8 16} {order : List Operation} {pending : PendingCommit}
    {w w₁ : World} (hroot : destination.root = root.path) (htree : destination.tree = w.tree)
    (hS : Scanned source decide [] S) (hD : Scanned destination decide' [] D)
    (hle : ∀ path isDir, decide path isDir = .managed → decide' path isDir = .managed)
    (horder : order.Perm (plan (stream S) (stream D)).1)
    (hstage : (stagePlan root content random order).run w = (.ok pending, w₁)) (q : Path)
    (hnot : ∀ d ∈ D, root.at d.path ≠ q) (hentry : w.tree.get q ≠ none) :
    SameEntry (w.tree.get q) (((pending.commit root).run w₁).2.tree.get q) := by
  have hstaged := stagePlan_ok hstage
  obtain ⟨hkept, hfresh⟩ := hstaged.existing q hentry
  obtain ⟨i, hi⟩ := Option.ne_none_iff_exists'.1 hentry
  -- the changes are those of the plan, with their own files
  have hchange : ∀ c ∈ pending.changes, c.1 ∈ (plan (stream S) (stream D)).1 ∧
      ∀ f ∈ c.2, c.1 ∈ order.reverse ∧ c.1.isUpsertFile = true ∧
        f = stagedFile root random c.1.path := by
    intro c hc
    obtain ⟨o, ho, rfl⟩ := List.mem_map.1 (hstaged.changes.mem_iff.1 hc)
    refine ⟨horder.mem_iff.1 (List.mem_reverse.1 ho), fun f hf => ?_⟩
    have hfile : o.isUpsertFile = true ∧ f = stagedFile root random o.path := by
      cases hkind : o.isUpsertFile with
      | false => simp [withFile, hkind] at hf
      | true => exact ⟨rfl, by simpa [withFile, hkind, eq_comm] using hf⟩
    exact ⟨ho, hfile⟩
  let own : List Name := pending.changes.filterMap fun c => c.2.map StagedFile.name
  have howned : ∀ c ∈ pending.changes, ∀ f ∈ c.2, Owned root own f := by
    intro c hc f hf
    obtain ⟨-, -, rfl⟩ := (hchange c hc).2 f hf
    refine ⟨rfl, List.mem_filterMap.2 ⟨c, hc, ?_⟩⟩
    rw [Option.mem_def.1 hf]
    rfl
  have hown : ∀ name ∈ own, q ≠ stagedPath root name := by
    intro name hname
    obtain ⟨c, hc, hname⟩ := List.mem_filterMap.1 hname
    obtain ⟨f, hf, rfl⟩ := Option.map_eq_some_iff.1 hname
    obtain ⟨ho, hupsert, rfl⟩ := (hchange c hc).2 f hf
    exact hfresh c.1 ho hupsert
  rw [hi] at hkept ⊢
  refine commitAll_intact hown (fun c hc hpath => ?_) howned hkept
  refine mismatched_of_plan hS hD hle (hchange c hc).1 ?_ fun d hd heq => hnot d hd (heq ▸ hpath)
  rw [hroot, htree]
  exact (congrArg w.tree.get hpath).trans hi

/-- **Ignored and protected entries survive.**  Let both scans succeed and make the same decision
for every path, given whether it is a directory.  Then every entry of the destination that its scan
did not emit is there after the commit, the same, whether the commit succeeds or fails. -/
theorem unmanaged_survives {content : RelativePath → Bytes}
    {random : RelativePath → Vector UInt8 16} {order : List Operation} {pending : PendingCommit}
    {w w₁ : World} (hroot : destination.root = root.path) (htree : destination.tree = w.tree)
    (hsourceDir : source.tree.IsDir source.root) (hdestinationDir : w.tree.IsDir root.path)
    (hsource : scanRoot source crate exclusions closesAfter = (.ok (), stream S))
    (hdestination : scanRoot destination crate exclusions' closesAfter' = (.ok (), stream D))
    (hsame : ∀ path isDir, scanDecision source crate exclusions path isDir =
      scanDecision destination crate exclusions' path isDir)
    (horder : order.Perm (plan (stream S) (stream D)).1)
    (hstage : (stagePlan root content random order).run w = (.ok pending, w₁)) (q : Path)
    (hnot : ∀ d ∈ D, root.at d.path ≠ q) (hentry : w.tree.get q ≠ none) :
    SameEntry (w.tree.get q) (((pending.commit root).run w₁).2.tree.get q) := by
  obtain ⟨policy, hpolicy, records, hrecords, hS⟩ := scanRoot_ok hsourceDir hsource
  obtain rfl := stream_injective hrecords
  obtain ⟨policy', hpolicy', records', hrecords', hD⟩ :=
    scanRoot_ok (htree ▸ hroot ▸ hdestinationDir) hdestination
  obtain rfl := stream_injective hrecords'
  have hdecide : decisionIn source policy = decisionIn destination policy' := by
    funext path isDir
    have h := hsame path isDir
    unfold scanDecision at h
    rw [hpolicy, hpolicy'] at h
    exact Except.ok.inj h
  rw [hdecide] at hS
  exact unemitted_survives hroot htree hS hD (fun _ _ h => h) horder hstage q hnot hentry

end

/-! ### A rule for directories only -/

namespace DirectoryRule

/-- A library whose every rule set ignores the directory `x`. -/
def crate : IgnoreCrate where
  GitignoreBuilder := Unit
  Gitignore := Unit
  new _ := ()
  addLine _ _ _ := .ok ()
  build _ := .ok ()
  matchedPathOrAnyParents _ path isDir := if isDir ∧ path = ascii "x" then .ignore else .none

theorem addLines_crate (source : Option Bytes) (builder : Unit) (rest : List String) :
    addLines crate source builder rest = .ok () := by
  induction rest with
  | nil => rfl
  | cons line rest ih => exact ih

def policy : IgnorePolicy crate := ⟨[⟨none, ()⟩]⟩

theorem policy_eq : IgnorePolicy.withConfiguredExclusions ["x/"] = .ok policy := by
  have htext : String.fromUTF8? ⟨(String.intercalate "\n" ["x/"]).toUTF8.toList.toArray⟩ =
      some "x/" := by decide +kernel
  have hmatcher : buildMatcher crate none (String.intercalate "\n" ["x/"]).toUTF8.toList =
      .ok () := by
    unfold buildMatcher
    rw [htext]
    change (addLines crate none () (lines "x/")).bind _ = _
    rw [addLines_crate]
    rfl
  show (buildMatcher crate none _).bind _ = _
  rw [hmatcher]
  rfl
/-- A root directory with the one entry `x`. -/
def input (x : Inode) : ScanInput where
  tree := ((Tree.empty.insert [] ⟨.directory, 0o755, 0⟩).insert [ascii "root"]
    ⟨.directory, 0o755, 0⟩).insert [ascii "root", ascii "x"] x
  root := [ascii "root"]
  limits := defaultLimits
  directorySize _ := 0
  blake3 _ := .zero

/-- The file at the source. -/
def file : Inode := ⟨.file [], 0o644, 5⟩

/-- The directory at the destination. -/
def directory : Inode := ⟨.directory, 0o755, 5⟩

def record : IndexRecord :=
  ⟨⟨[ascii "x"], by decide, by decide⟩, ⟨.regularFile, 0o644, .ofUInt64 5, 0⟩,
    some .zero, none⟩

def root : RootHandle := ⟨[ascii "root"]⟩

def world : World := ⟨(input directory).tree, [], fun _ => 100⟩

/-- Stage the plan of the two scans. -/
def staging : FsM PendingCommit :=
  stagePlan root (fun _ => []) (fun _ => Vector.replicate 16 0)
    (plan (stream [record]) (stream [])).1

theorem scan_source :
    scanRoot (input file) crate ["x/"] none = (.ok (), stream [record]) := by
  unfold scanRoot
  rw [policy_eq]
  decide +kernel

theorem scan_destination :
    scanRoot (input directory) crate ["x/"] none = (.ok (), stream []) := by
  unfold scanRoot
  rw [policy_eq]
  decide +kernel

theorem get_input (x : Inode) (q : Path) : (input x).tree.get q =
    if q = [ascii "root", ascii "x"] then some x
    else if q = [ascii "root"] then some ⟨.directory, 0o755, 0⟩
    else if q = [] then some ⟨.directory, 0o755, 0⟩ else none := by
  unfold input
  rw [Tree.get_insert, Tree.get_insert (by decide), Tree.get_insert (by decide)]
  · rfl
  · have hdir : ((Tree.empty.insert [] ⟨.directory, 0o755, 0⟩).insert [ascii "root"]
        ⟨.directory, 0o755, 0⟩).IsDir [ascii "root"] := by decide
    exact ⟨Or.inr hdir, Or.inr (by decide)⟩

/-- There is no ignore file. -/
theorem rulesIn_input (x : Inode) (scope : Option RelativePath) :
    rulesIn (input x) crate scope = [] := by
  have hlast (p : Path) : [ascii "root"] ++ (scopeComponents scope ++ [ascii ".gitignore"]) = p →
      p.getLast? = some (ascii ".gitignore") := by
    rintro rfl
    rw [← List.append_assoc, List.getLast?_concat]
  have hnot : (input x).tree.get
      ((input x).root ++ (scopeComponents scope ++ [ascii ".gitignore"])) = none := by
    rw [get_input, if_neg, if_neg, if_neg]
    · exact fun h => absurd (hlast _ h) (by decide)
    · exact fun h => absurd (hlast _ h) (by decide)
    · exact fun h => absurd (hlast _ h) (by decide)
  unfold rulesIn
  rw [hnot]

theorem scanDecision_input (x y : Inode) (path : RelativePath) (isDir : Bool) :
    scanDecision (input x) crate ["x/"] path isDir =
      scanDecision (input y) crate ["x/"] path isDir := by
  have h : decisionIn (input x) policy path isDir = decisionIn (input y) policy path isDir := by
    unfold decisionIn policyFor
    simp only [rulesIn_input]
  unfold scanDecision
  rw [policy_eq]
  exact congrArg Except.ok h

end DirectoryRule

/-- The source has a file where the destination has a directory, and the rules ignore directories of
the name: the file is sent and the directory is kept. -/
theorem unmanaged_survives_directory :
    ∃ pending w₁, DirectoryRule.staging.run DirectoryRule.world = (.ok pending, w₁) ∧
      SameEntry (some DirectoryRule.directory)
        (((pending.commit DirectoryRule.root).run w₁).2.tree.get [ascii "root", ascii "x"]) := by
  have hok : (DirectoryRule.staging.run DirectoryRule.world).1.isOk = true := by decide +kernel
  obtain ⟨pending, hstage⟩ := Fallible.exists_ok hok
  have hget : DirectoryRule.world.tree.get [ascii "root", ascii "x"] =
      some DirectoryRule.directory := by
    change (DirectoryRule.input DirectoryRule.directory).tree.get _ = _
    rw [DirectoryRule.get_input]
    exact if_pos rfl
  refine ⟨pending, _, hstage, hget ▸ ?_⟩
  exact unmanaged_survives rfl rfl (by decide) (by decide) DirectoryRule.scan_source
    DirectoryRule.scan_destination (DirectoryRule.scanDecision_input _ _) (List.Perm.refl _)
    hstage _ (by simp) (by rw [hget]; exact Option.some_ne_none _)

end QuicSync
