import QuicSync.Sync.Commit
import QuicSync.Sync.Planner
import QuicSync.Traversal.DepthFirst

/-!
# The order in which a plan is carried out

A committer that is given the operations of rounds carries out commands on the file system in the
order of a depth-first traversal of the rounds: `Round.enter` when it comes to a round, and
`Round.leave` when it leaves the directory of a round that had to wait for its descendants.

`commitAll_yields` says that a commit gives the result of these commands: the stack of the
committer is that of the traversal.
-/

namespace QuicSync

open Posix

namespace Round

/-- The kind of the source's entry. -/
def sourceKind (r : Round) : Option EntryKind := r.source.map fun a => a.metadata.kind

/-- The kind of the destination's entry. -/
def destinationKind (r : Round) : Option EntryKind := r.destination.map fun b => b.metadata.kind

/-- The two indexes differ. -/
def changed (r : Round) : Bool := r.source ≠ r.destination

/-- There is a directory on some side, so something has to wait for the descendants. -/
def container (r : Round) : Bool :=
  r.sourceKind = some .directory ∨ r.destinationKind = some .directory

/-- The records of a round are at its path. -/
def Coherent (r : Round) : Prop :=
  (∀ a ∈ r.source, a.path = r.path) ∧ ∀ b ∈ r.destination, b.path = r.path

/-- The entry of the destination that is removed at once: it is no directory and not of the kind of
the source's. -/
def removal (root : RootHandle) (r : Round) : FsM Unit :=
  if r.destinationKind = none ∨ r.destinationKind = some .directory ∨
    r.sourceKind = r.destinationKind then pure ()
  else unlink root r.path false

/-- The entry of the source that is installed at once: it does not replace a directory. -/
def installation (root : RootHandle) (file : RelativePath → StagedFile) (r : Round) : FsM Unit :=
  match r.source with
  | none => pure ()
  | some a => match a.metadata.kind with
    | .directory => upsertDirectory root r.path a.metadata
    | .regularFile => if r.destinationKind = some .directory then pure ()
      else (file r.path).install root r.path a.metadata
    | .symlink => if r.destinationKind = some .directory then pure () else symlink root a

/-- What is carried out when the traversal comes to a round. -/
def enter (root : RootHandle) (file : RelativePath → StagedFile) (r : Round) : FsM Unit := do
  removal root r
  installation root file r

/-- What waits for the descendants of a round. -/
def leaveActions (file : RelativePath → StagedFile) (r : Round) : List Action :=
  match r.source with
  | none => if r.destinationKind = some .directory then [.delete] else []
  | some a => match a.metadata.kind with
    | .directory => [.metadata a.metadata]
    | .regularFile => if r.destinationKind = some .directory then
        [.delete, .file (file r.path) a.metadata] else []
    | .symlink => if r.destinationKind = some .directory then [.delete, .symlink a] else []

/-- What is carried out when the traversal leaves a round. -/
def leave (root : RootHandle) (file : RelativePath → StagedFile) (r : Round) : FsM Unit :=
  runActions root r.path (r.leaveActions file)

end Round

/-- Carry out the commands of the visits. -/
def runVisits (root : RootHandle) (file : RelativePath → StagedFile) : List (Visit Round) → FsM Unit
  | [] => pure ()
  | .enter r :: rest => do
    r.enter root file
    runVisits root file rest
  | .leave r :: rest => do
    r.leave root file
    runVisits root file rest

/-- An operation with the staged file for its path, if it needs one. -/
def withFile (file : RelativePath → StagedFile) (operation : Operation) : Change :=
  (operation, if operation.isUpsertFile then some (file operation.path) else none)

/-! ### Computations of the committer that come down to commands -/

section

variable {m m' : CommitM Unit} {s : Site} {f g : FsM Unit} {c c' : Committer} {w : World}

/-- The computation does what the commands do, and the committer is `c'` afterwards. -/
def Sim (m : CommitM Unit) (s : Site) (f : FsM Unit) (c' : Committer) : Prop :=
  (∀ w', f.run s.world = (.ok (), w') → m.run s = (.ok (), ⟨c', w'⟩)) ∧
    ∀ e w', f.run s.world = (.error e, w') → ∃ s', m.run s = (.error e, s')

/-- The computation has the result of the commands, and the file system when they succeed. -/
def Yields (m : CommitM Unit) (s : Site) (f : FsM Unit) : Prop :=
  (∀ w', f.run s.world = (.ok (), w') → ∃ c', m.run s = (.ok (), ⟨c', w'⟩)) ∧
    ∀ e w', f.run s.world = (.error e, w') → ∃ s', m.run s = (.error e, s')

/-- The computation starts with the commands and goes on as it does with the committer `c'`. -/
def Begins (m : CommitM Unit) (s : Site) (f : FsM Unit) (c' : Committer) : Prop :=
  (∀ w', f.run s.world = (.ok (), w') → m.run s = m.run ⟨c', w'⟩) ∧
    ∀ e w', f.run s.world = (.error e, w') → ∃ s', m.run s = (.error e, s')

/-- Another computation with the same run. -/
theorem Sim.of_run {s₁ : Site} (h : Sim m' s₁ f c') (hworld : s.world = s₁.world)
    (hrun : m.run s = m'.run s₁) : Sim m s f c' := by
  unfold Sim at h ⊢
  rw [hrun, hworld]
  exact h

theorem Sim.onError {cleanup : CommitM Unit} (h : Sim m s f c') :
    Sim (m.onError cleanup) s f c' := by
  refine ⟨fun w' hf => Fallible.run_onError_ok (h.1 w' hf), fun e w' hf => ?_⟩
  obtain ⟨s', hs'⟩ := h.2 e w' hf
  exact ⟨_, Fallible.run_onError_error hs'⟩

/-- A computation that succeeds does so because the commands do. -/
theorem Sim.of_ok {s' : Site} (h : Sim m s f c') (hm : m.run s = (.ok (), s')) :
    f.run s.world = (.ok (), s'.world) ∧ s'.committer = c' := by
  cases hf : f.run s.world with
  | mk r w' =>
    cases r with
    | ok u =>
      cases (h.1 w' hf).symm.trans hm
      exact ⟨rfl, rfl⟩
    | error e =>
      obtain ⟨s₁, hs₁⟩ := h.2 e w' hf
      cases hs₁.symm.trans hm

theorem Sim.yields (h : Sim m s f c') (h' : ∀ w', Yields m' ⟨c', w'⟩ g) :
    Yields (m >>= fun _ => m') s (f >>= fun _ => g) := by
  refine ⟨fun w' hrun => ?_, fun e w' hrun => ?_⟩
  · obtain ⟨_, w₁, hf, hg⟩ := Fallible.run_bind_ok_iff.1 hrun
    rw [Fallible.run_bind_ok (h.1 w₁ hf)]
    exact (h' w₁).1 w' hg
  · obtain hf | ⟨_, w₁, hf, hg⟩ := Fallible.run_bind_error_iff.1 hrun
    · obtain ⟨s', hm⟩ := h.2 e w' hf
      exact ⟨s', Fallible.run_bind_error hm⟩
    · rw [Fallible.run_bind_ok (h.1 w₁ hf)]
      exact (h' w₁).2 e w' hg

theorem Begins.bind {k : CommitM Unit} (h : Begins m s f c') :
    Begins (m >>= fun _ => k) s f c' := by
  refine ⟨fun w' hf => ?_, fun e w' hf => ?_⟩
  · rw [Fallible.run_bind, Fallible.run_bind, h.1 w' hf]
  · obtain ⟨s', hs'⟩ := h.2 e w' hf
    exact ⟨s', Fallible.run_bind_error hs'⟩

theorem Begins.onError {cleanup : CommitM Unit} (h : Begins m s f c') :
    Begins (m.onError cleanup) s f c' := by
  refine ⟨fun w' hf => ?_, fun e w' hf => ?_⟩
  · rw [Fallible.run_onError, Fallible.run_onError, h.1 w' hf]
  · obtain ⟨s', hs'⟩ := h.2 e w' hf
    exact ⟨_, Fallible.run_onError_error hs'⟩

theorem Begins.yields (h : Begins m s f c') (h' : ∀ w', Yields m ⟨c', w'⟩ g) :
    Yields m s (f >>= fun _ => g) := by
  refine ⟨fun w' hrun => ?_, fun e w' hrun => ?_⟩
  · obtain ⟨_, w₁, hf, hg⟩ := Fallible.run_bind_ok_iff.1 hrun
    rw [h.1 w₁ hf]
    exact (h' w₁).1 w' hg
  · obtain hf | ⟨_, w₁, hf, hg⟩ := Fallible.run_bind_error_iff.1 hrun
    · exact h.2 e w' hf
    · rw [h.1 w₁ hf]
      exact (h' w₁).2 e w' hg

theorem sim_onWorld : Sim (onWorld f) ⟨c, w⟩ f c := by
  have hrun : (onWorld f).run ⟨c, w⟩ = ((f.run w).1, ⟨c, (f.run w).2⟩) := rfl
  refine ⟨fun w' hf => ?_, fun e w' hf => ⟨⟨c, w'⟩, ?_⟩⟩
  · rw [hrun, hf]
  · rw [hrun, hf]

theorem sim_onCommitter (u : Committer → Committer) :
    Sim (onCommitter u) ⟨c, w⟩ (pure ()) (u c) := by
  refine ⟨fun w' hf => ?_, fun e w' hf => by cases hf⟩
  cases hf
  rfl

/-- A command and then a change of the committer. -/
theorem sim_onWorld_onCommitter (u : Committer → Committer) :
    Sim (onWorld f >>= fun _ => onCommitter u) ⟨c, w⟩ f (u c) := by
  obtain ⟨hok, herror⟩ := sim_onWorld (f := f) (c := c) (w := w)
  refine ⟨fun w' hf => ?_, fun e w' hf => ?_⟩
  · rw [Fallible.run_bind_ok (hok w' hf)]
    rfl
  · obtain ⟨s', hs'⟩ := herror e w' hf
    exact ⟨s', Fallible.run_bind_error hs'⟩

/-! ### The stack -/

theorem sim_finishDirectory {d : Directory} {ds : List Directory} (hpending : c.pending = d :: ds) :
    Sim Committer.finishDirectory ⟨c, w⟩ (runActions c.root d.path d.actions)
      { c with pending := ds } := by
  exact sim_onWorld.of_run rfl (Committer.run_finishDirectory_cons hpending)

theorem begins_finishPending (leave : Directory → Bool) (w : World) {d : Directory}
    {ds : List Directory} (hpending : c.pending = d :: ds) (hleave : leave d = true) :
    Begins (Committer.finishPending leave) ⟨c, w⟩ (runActions c.root d.path d.actions)
      { c with pending := ds } := by
  have hrun : (Committer.finishPending leave).run ⟨c, w⟩ =
      (Committer.finishDirectory >>= fun _ => Committer.finishWhile leave ds).run ⟨c, w⟩ := by
    unfold Committer.finishPending
    rw [Fallible.run_bind_ok (Fallible.run_get _)]
    simp only [hpending, Committer.finishWhile, hleave, if_true]
  obtain ⟨hok, herror⟩ := sim_finishDirectory (w := w) hpending
  refine ⟨fun w' hf => ?_, fun e w' hf => ?_⟩
  · rw [hrun, Fallible.run_bind_ok (hok w' hf)]
    rfl
  · obtain ⟨s', hs'⟩ := herror e w' hf
    exact ⟨s', by rw [hrun, Fallible.run_bind_error hs']⟩

theorem finishPending_stop {leave : Directory → Bool} (h : ∀ d ∈ c.pending.head?, leave d = false) :
    (Committer.finishPending leave).run ⟨c, w⟩ = (.ok (), ⟨c, w⟩) := by
  unfold Committer.finishPending
  rw [Fallible.run_bind_ok (Fallible.run_get _)]
  cases hpending : c.pending with
  | nil => rfl
  | cons d ds =>
    rw [hpending] at h
    simp only [Committer.finishWhile, h d rfl, Bool.false_eq_true, if_false]
    rfl

/-! ### One operation -/

/-- The checks of `apply` pass for the operation. -/
structure Applicable (c : Committer) (change : Change) : Prop where
  previous : ∀ p ∈ c.previous, p ≤ change.1.path
  file : change.1.isUpsertFile = change.2.isSome

/-- The first half of `apply` finishes the directories that the path is not in. -/
theorem prepare_run {change : Change} (h : Applicable c change) :
    (Committer.prepare change.1 change.2).run ⟨c, w⟩ =
      (Committer.finishPending fun directory =>
        !(directory.path.components.isPrefixOf change.1.path.components)).run ⟨c, w⟩ := by
  have hprevious : (c.previous.any fun previous => decide (previous > change.1.path)) = false := by
    rw [Option.any_eq_false]
    intro p hp
    simpa using h.previous p hp
  unfold Committer.prepare
  rw [Fallible.run_bind_ok (Fallible.run_get _)]
  simp only [hprevious, Bool.false_eq_true, if_false, h.file, ne_eq, not_true_eq_false]

/-- An operation whose path is not in the innermost directory starts with finishing it. -/
theorem begins_apply {change : Change} {d : Directory} {ds : List Directory}
    (h : Applicable c change) (hpending : c.pending = d :: ds)
    (hpath : ¬ d.path.components <+: change.1.path.components) :
    Begins (Committer.apply change.1 change.2) ⟨c, w⟩ (runActions c.root d.path d.actions)
      { c with pending := ds } := by
  have hleave : (!(d.path.components.isPrefixOf change.1.path.components)) = true := by
    rw [Bool.not_eq_true', Bool.eq_false_iff, Ne, List.isPrefixOf_iff_prefix]
    exact hpath
  have h' : Applicable { c with pending := ds } change := ⟨h.previous, h.file⟩
  unfold Committer.apply
  refine Begins.bind (Begins.onError ?_)
  obtain ⟨hok, herror⟩ := begins_finishPending
    (fun d => !(d.path.components.isPrefixOf change.1.path.components)) w hpending hleave
  refine ⟨fun w' hf => ?_, fun e w' hf => ?_⟩
  · rw [prepare_run h, prepare_run h']
    exact hok w' hf
  · rw [prepare_run h]
    exact herror e w' hf

/-- An operation whose path is in every directory on the stack is installed. -/
theorem sim_apply (change : Change) (h : Applicable c change)
    (htop : ∀ d ∈ c.pending.head?, d.path.components <+: change.1.path.components)
    (hinstall : Sim (Committer.install change.1 change.2)
      ⟨{ c with previous := some change.1.path }, w⟩ f c') :
    Sim (Committer.apply change.1 change.2) ⟨c, w⟩ f c' := by
  have hstop : (Committer.finishPending fun directory =>
      !(directory.path.components.isPrefixOf change.1.path.components)).run ⟨c, w⟩ =
      (.ok (), ⟨c, w⟩) := finishPending_stop fun d hd => by simpa using htop d hd
  have hrun : (Committer.apply change.1 change.2).run ⟨c, w⟩ =
      (Committer.install change.1 change.2).run
        ⟨{ c with previous := some change.1.path }, w⟩ := by
    unfold Committer.apply
    rw [Fallible.run_bind_ok (Fallible.run_onError_ok ((prepare_run h).trans hstop))]
    rfl
  exact hinstall.of_run rfl hrun

/-- The first change of a commit is carried out, and then the others. -/
theorem Sim.applyAll {change : Change} {changes : List Change}
    (h : Sim (Committer.apply change.1 change.2) s f c')
    (h' : ∀ w', Yields (QuicSync.applyAll changes >>= fun _ => m') ⟨c', w'⟩ g) :
    Yields (QuicSync.applyAll (change :: changes) >>= fun _ => m') s (f >>= fun _ => g) := by
  have hclean : Sim (Fallible.onError (Committer.apply change.1 change.2)
      (onWorld (dropChanges changes))) s f c' := h.onError
  have hyields := hclean.yields h'
  have hcons : QuicSync.applyAll (change :: changes) =
      (Fallible.onError (Committer.apply change.1 change.2) (onWorld (dropChanges changes)) >>=
        fun _ => QuicSync.applyAll changes) := rfl
  rw [hcons, Fallible.bind_assoc]
  exact hyields

theorem begins_applyAll {change : Change} {changes : List Change}
    (h : Begins (Committer.apply change.1 change.2) s f c') :
    Begins (QuicSync.applyAll (change :: changes) >>= fun _ => m') s f c' :=
  Begins.bind (Begins.bind (Begins.onError h))

/-! ### One round -/

namespace Committer

theorem defer_push {path : RelativePath} (action : Action)
    (h : ∀ d ∈ c.pending.head?, d.path ≠ path) :
    c.defer path action = { c with pending := ⟨path, [action]⟩ :: c.pending } := by
  unfold defer
  cases hpending : c.pending with
  | nil => rfl
  | cons d ds =>
    rw [hpending] at h
    exact if_neg (h d rfl)

theorem defer_append {path : RelativePath} {action : Action} {actions : List Action}
    {pending : List Directory} (h : c.pending = ⟨path, actions⟩ :: pending) :
    c.defer path action = { c with pending := ⟨path, actions ++ [action]⟩ :: pending } := by
  unfold defer
  rw [h]
  exact if_pos rfl

theorem replacingDirectory_of_ne {path : RelativePath} (h : ∀ d ∈ c.pending.head?, d.path ≠ path) :
    c.replacingDirectory path = false := by
  unfold replacingDirectory
  cases hpending : c.pending with
  | nil => rfl
  | cons d ds =>
    rw [hpending] at h
    simp [h d rfl]

end Committer

section

variable {a : IndexRecord}

theorem sim_delete_directory (id : OperationId) (path : RelativePath) :
    Sim (Committer.install (.delete id path .directory) none) ⟨c, w⟩ (pure ())
      (c.defer path .delete) :=
  (sim_onCommitter fun c => c.defer path .delete).of_run rfl rfl

theorem sim_delete (id : OperationId) (path : RelativePath) {kind : EntryKind} (hkind : kind ≠ .directory) :
    Sim (Committer.install (.delete id path kind) none) ⟨c, w⟩ (unlink c.root path false) c := by
  cases kind with
  | directory => exact absurd rfl hkind
  | regularFile => exact sim_onWorld.of_run rfl rfl
  | symlink => exact sim_onWorld.of_run rfl rfl

theorem sim_upsertDirectory (id : OperationId) :
    Sim (Committer.install (.upsertDirectory id a) none) ⟨c, w⟩
      (upsertDirectory c.root a.path a.metadata) (c.defer a.path (.metadata a.metadata)) :=
  (sim_onWorld_onCommitter fun c => c.defer a.path (.metadata a.metadata)).of_run rfl rfl

end

/-! ### Rounds -/


section

variable {root : RootHandle} {file : RelativePath → StagedFile} {pending : List Directory}
  {previous : Option RelativePath} {r : Round} {changes : List Change}

/-- The stack between the deletion and the upsert of a round. -/
def Round.deleting (r : Round) (pending : List Directory) : List Directory :=
  if r.destinationKind = some .directory ∧ r.sourceKind ≠ some .directory then
    ⟨r.path, [.delete]⟩ :: pending
  else pending

/-- The stack when a round has been entered. -/
def Round.entered (file : RelativePath → StagedFile) (r : Round) (pending : List Directory) :
    List Directory :=
  if r.container then ⟨r.path, r.leaveActions file⟩ :: pending else pending

/-- A round that comes next: its records are at its path, which is not before the last one and lies
below the directories on the stack. -/
structure Next (pending : List Directory) (previous : Option RelativePath) (r : Round) : Prop where
  coherent : r.Coherent
  previous : ∀ p ∈ previous, p ≤ r.path
  top : ∀ d ∈ pending.head?, d.path.components <+: r.path.components ∧ d.path ≠ r.path

theorem Next.top_deleting (h : Next pending previous r) :
    ∀ d ∈ (r.deleting pending).head?, d.path.components <+: r.path.components := by
  unfold Round.deleting
  intro d hd
  split at hd
  · cases hd
    exact List.prefix_rfl
  · exact (h.top d hd).1

/-- While a directory is being deleted, what replaces it waits; otherwise it is installed. -/
theorem sim_replacing (root : RootHandle) (w : World) (f : FsM Unit) (action : Action)
    (h : Next pending previous r)
    (hsource : r.sourceKind ≠ some .directory)
    (hrun : m.run ⟨⟨root, r.deleting pending, some r.path⟩, w⟩ = Fallible.run
      (if Committer.replacingDirectory ⟨root, r.deleting pending, some r.path⟩ r.path then
        onCommitter fun c => c.defer r.path action
      else onWorld f) ⟨⟨root, r.deleting pending, some r.path⟩, w⟩) :
    Sim m ⟨⟨root, r.deleting pending, some r.path⟩, w⟩
      (if r.destinationKind = some .directory then pure () else f)
      ⟨root, if r.destinationKind = some .directory then ⟨r.path, [.delete, action]⟩ :: pending
        else pending, some r.path⟩ := by
  by_cases hdir : r.destinationKind = some .directory
  · have hpending : r.deleting pending = ⟨r.path, [.delete]⟩ :: pending := if_pos ⟨hdir, hsource⟩
    have hcond : Committer.replacingDirectory ⟨root, r.deleting pending, some r.path⟩ r.path =
        true := by
      simp [Committer.replacingDirectory, hpending]
    rw [if_pos hcond] at hrun
    have hsim := (sim_onCommitter fun c => c.defer r.path action).of_run rfl hrun
    rw [Committer.defer_append hpending] at hsim
    rw [if_pos hdir, if_pos hdir]
    exact hsim
  · have hpending : r.deleting pending = pending := if_neg fun h' => hdir h'.1
    have hcond : ¬ Committer.replacingDirectory ⟨root, r.deleting pending, some r.path⟩ r.path =
        true := by
      rw [Committer.replacingDirectory_of_ne fun d hd => (h.top d (hpending ▸ hd)).2]
      exact Bool.false_ne_true
    rw [if_neg hcond] at hrun
    rw [if_neg hdir, if_neg hdir]
    rw [hpending] at hrun ⊢
    exact sim_onWorld.of_run rfl hrun

/-- The upsert of a round: what `install` does is what is installed at once and what waits. -/
theorem sim_upsert {a : IndexRecord} (id : OperationId) (update : Bool)
    (h : Next pending previous r) (ha : r.source = some a) :
    Sim (Committer.install (withFile file (upsertOperation id a update)).1
        (withFile file (upsertOperation id a update)).2)
      ⟨⟨root, r.deleting pending, some r.path⟩, w⟩ (r.installation root file)
      ⟨root, r.entered file pending, some r.path⟩ := by
  have hpath : a.path = r.path := h.coherent.1 a ha
  have hsource : r.sourceKind = some a.metadata.kind := by
    unfold Round.sourceKind
    rw [ha]
    rfl
  cases hkind : a.metadata.kind with
  | directory =>
    have hsim := sim_upsertDirectory (a := a) (c := ⟨root, pending, some r.path⟩) (w := w) id
    rw [hpath, Committer.defer_push _ fun d hd => (h.top d hd).2] at hsim
    simpa [upsertOperation, hkind, withFile, Operation.isUpsertFile, Round.deleting, hsource,
      Round.installation, ha, Round.entered, Round.container, Round.leaveActions] using hsim
  | regularFile =>
    rw [hkind] at hsource
    have hop : withFile file (upsertOperation id a update) =
        (.upsertFile update id a, some (file r.path)) := by
      simp [upsertOperation, hkind, withFile, Operation.isUpsertFile, Operation.path, hpath]
    have hsim : Sim (Committer.install (.upsertFile update id a) (some (file r.path))) _ _ _ :=
      sim_replacing root w ((file r.path).install root r.path a.metadata)
        (.file (file r.path) a.metadata) h (by simp [hsource]) (hpath ▸ rfl)
    rw [hop]
    by_cases hdir : r.destinationKind = some .directory <;>
      simpa [Round.installation, ha, hkind, Round.entered, Round.container, hsource,
        Round.leaveActions, hdir] using hsim
  | symlink =>
    rw [hkind] at hsource
    have hop : withFile file (upsertOperation id a update) = (.upsertSymlink id a, none) := by
      simp [upsertOperation, hkind, withFile, Operation.isUpsertFile]
    have hsim : Sim (Committer.install (.upsertSymlink id a) none) _ _ _ :=
      sim_replacing root w (symlink root a) (.symlink a) h (by simp [hsource]) (hpath ▸ rfl)
    rw [hop]
    by_cases hdir : r.destinationKind = some .directory <;>
      simpa [Round.installation, ha, hkind, Round.entered, Round.container, hsource,
        Round.leaveActions, hdir] using hsim

/-- The deletion of a round. -/
theorem sim_deletion {b : IndexRecord} (id : OperationId) (h : Next pending previous r)
    (hb : r.destination = some b) (hkind : r.sourceKind ≠ some b.metadata.kind) :
    Sim (Committer.install (.delete id r.path b.metadata.kind) none)
      ⟨⟨root, pending, some r.path⟩, w⟩ (r.removal root)
      ⟨root, r.deleting pending, some r.path⟩ := by
  have hdest : r.destinationKind = some b.metadata.kind := by
    unfold Round.destinationKind
    rw [hb]
    rfl
  by_cases hdir : b.metadata.kind = .directory
  · have hsim := sim_delete_directory (c := ⟨root, pending, some r.path⟩) (w := w) id r.path
    rw [Committer.defer_push _ fun d hd => (h.top d hd).2] at hsim
    rw [hdir] at hdest hkind ⊢
    simpa [Round.removal, Round.deleting, hdest, hkind] using hsim
  · have hsim := sim_delete (c := ⟨root, pending, some r.path⟩) (w := w) id r.path hdir
    simpa [Round.removal, Round.deleting, hdest, hkind, hdir] using hsim

theorem roundOperations_create (a : IndexRecord) (n : UInt64) :
    (roundOperations (some a) none n).1 = [upsertOperation ⟨n⟩ a false] := rfl

theorem roundOperations_delete (b : IndexRecord) (n : UInt64) :
    (roundOperations none (some b) n).1 = [.delete ⟨n⟩ b.path b.metadata.kind] := by
  simp [roundOperations]

theorem roundOperations_update {a b : IndexRecord} (hne : a ≠ b)
    (hkind : a.metadata.kind = b.metadata.kind) (n : UInt64) :
    ∃ update, (roundOperations (some a) (some b) n).1 = [upsertOperation ⟨n⟩ a update] := by
  simp [roundOperations, hne, hkind]

theorem roundOperations_replace {a b : IndexRecord} (hkind : a.metadata.kind ≠ b.metadata.kind)
    (n : UInt64) : ∃ update, (roundOperations (some a) (some b) n).1 =
      [.delete ⟨n⟩ b.path b.metadata.kind, upsertOperation ⟨n + 1⟩ a update] := by
  have hne : a ≠ b := fun h => hkind (congrArg (fun r => r.metadata.kind) h)
  simp [roundOperations, hne, hkind]

theorem path_upsertOperation (id : OperationId) (a : IndexRecord) (update : Bool) :
    (upsertOperation id a update).path = a.path := by
  unfold upsertOperation
  cases a.metadata.kind <;> rfl

theorem withFile_file (file : RelativePath → StagedFile) (operation : Operation) :
    operation.isUpsertFile = (withFile file operation).2.isSome := by
  unfold withFile
  cases operation.isUpsertFile <;> rfl

theorem sim_apply_deletion {b : IndexRecord} (root : RootHandle)
    (file : RelativePath → StagedFile) (w : World) (id : OperationId) (h : Next pending previous r)
    (hb : r.destination = some b) (hkind : r.sourceKind ≠ some b.metadata.kind) :
    Sim (Committer.apply (withFile file (.delete id b.path b.metadata.kind)).1
        (withFile file (.delete id b.path b.metadata.kind)).2) ⟨⟨root, pending, previous⟩, w⟩
      (r.removal root) ⟨root, r.deleting pending, some r.path⟩ := by
  rw [h.coherent.2 b hb]
  exact sim_apply (.delete id r.path b.metadata.kind, none) ⟨h.previous, rfl⟩
    (fun d hd => (h.top d hd).1) (sim_deletion id h hb hkind)

theorem sim_apply_upsert {a : IndexRecord} {previous' : Option RelativePath} (root : RootHandle)
    (file : RelativePath → StagedFile) (w : World) (id : OperationId) (update : Bool)
    (h : Next pending previous r) (ha : r.source = some a)
    (hprevious : ∀ p ∈ previous', p ≤ r.path) :
    Sim (Committer.apply (withFile file (upsertOperation id a update)).1
        (withFile file (upsertOperation id a update)).2)
      ⟨⟨root, r.deleting pending, previous'⟩, w⟩ (r.installation root file)
      ⟨root, r.entered file pending, some r.path⟩ := by
  have hpath : (withFile file (upsertOperation id a update)).1.path = r.path :=
    (path_upsertOperation id a update).trans (h.coherent.1 a ha)
  refine sim_apply _ ⟨hpath ▸ hprevious, withFile_file file _⟩ (hpath ▸ h.top_deleting) ?_
  rw [hpath]
  exact sim_upsert id update h ha

/-- **The operations of a round** come down to entering it. -/
theorem yields_enter (n : UInt64) (h : Next pending previous r) (hchanged : r.source ≠ r.destination)
    (hrest : ∀ w', Yields (QuicSync.applyAll changes >>= fun _ => m')
      ⟨⟨root, r.entered file pending, some r.path⟩, w'⟩ g) :
    Yields (QuicSync.applyAll ((roundOperations r.source r.destination n).1.map (withFile file) ++
        changes) >>= fun _ => m') ⟨⟨root, pending, previous⟩, w⟩
      (r.enter root file >>= fun _ => g) := by
  have henter : (r.enter root file >>= fun _ => g) =
      (r.removal root >>= fun _ => r.installation root file >>= fun _ => g) :=
    Fallible.bind_assoc _ _ _
  have hsource : r.sourceKind = r.source.map fun a => a.metadata.kind := rfl
  have hdest : r.destinationKind = r.destination.map fun b => b.metadata.kind := rfl
  rw [henter]
  cases hb : r.destination with
  | none =>
    rw [hb] at hdest hchanged
    obtain ⟨a, ha⟩ := Option.ne_none_iff_exists'.1 hchanged
    have hdeleting : r.deleting pending = pending := by simp [Round.deleting, hdest]
    have hremoval : r.removal root = pure () := by simp [Round.removal, hdest]
    rw [ha, roundOperations_create, hremoval]
    have hsim := sim_apply_upsert root file w ⟨n⟩ false h ha h.previous
    rw [hdeleting] at hsim
    exact hsim.applyAll hrest
  | some b =>
    rw [hb] at hdest
    by_cases hkind : r.sourceKind = some b.metadata.kind
    · -- an entry of the same kind is updated
      obtain ⟨a, ha, hab⟩ := Option.map_eq_some_iff.1 (hsource ▸ hkind)
      have hdeleting : r.deleting pending = pending := by
        simp [Round.deleting, hdest, hkind]
      have hremoval : r.removal root = pure () := by simp [Round.removal, hdest, hkind]
      rw [ha, hb] at hchanged
      obtain ⟨update, hops⟩ := roundOperations_update (fun h => hchanged (congrArg some h)) hab n
      rw [ha, hops, hremoval]
      have hsim := sim_apply_upsert root file w ⟨n⟩ update h ha h.previous
      rw [hdeleting] at hsim
      exact hsim.applyAll hrest
    · have hdeletion := sim_apply_deletion root file w ⟨n⟩ h hb hkind
      cases ha : r.source with
      | none =>
        have hentered : r.entered file pending = r.deleting pending := by
          by_cases hdir : r.destinationKind = some .directory <;>
            simp [Round.entered, Round.deleting, Round.container, Round.leaveActions, hsource, ha,
              hdir]
        have hinstallation : r.installation root file = pure () := by simp [Round.installation, ha]
        rw [roundOperations_delete, hinstallation]
        rw [hentered] at hrest
        exact hdeletion.applyAll hrest
      | some a =>
        have hab : a.metadata.kind ≠ b.metadata.kind := fun heq => hkind (by rw [hsource, ha, ← heq]; rfl)
        obtain ⟨update, hops⟩ := roundOperations_replace hab n
        rw [hops]
        refine hdeletion.applyAll fun w' => ?_
        exact (sim_apply_upsert root file w' ⟨n + 1⟩ update h ha (by simp)).applyAll hrest

/-- A changed round has a first operation, at its path. -/
theorem exists_roundOperations (n : UInt64) (hcoherent : r.Coherent)
    (hchanged : r.source ≠ r.destination) : ∃ operation rest,
      (roundOperations r.source r.destination n).1 = operation :: rest ∧ operation.path = r.path := by
  obtain ⟨hsource, hdest⟩ := hcoherent
  cases hb : r.destination with
  | none =>
    rw [hb] at hchanged
    obtain ⟨a, ha⟩ := Option.ne_none_iff_exists'.1 hchanged
    exact ⟨_, [], by rw [ha, roundOperations_create],
      (path_upsertOperation _ _ _).trans (hsource a ha)⟩
  | some b =>
    cases ha : r.source with
    | none => exact ⟨_, [], roundOperations_delete b n, hdest b hb⟩
    | some a =>
      by_cases hkind : a.metadata.kind = b.metadata.kind
      · rw [ha, hb] at hchanged
        obtain ⟨update, hops⟩ := roundOperations_update (fun h => hchanged (congrArg some h)) hkind n
        exact ⟨_, [], hops, (path_upsertOperation _ _ _).trans (hsource a ha)⟩
      · obtain ⟨update, hops⟩ := roundOperations_replace hkind n
        exact ⟨_, _, hops, hdest b hb⟩

/-- The stack of the committer for the rounds that the traversal is inside. -/
def waiting (file : RelativePath → StagedFile) (stack : List Round) : List Directory :=
  stack.map fun s => ⟨s.path, s.leaveActions file⟩

theorem entered_waiting (stack : List Round) : r.entered file (waiting file stack) =
    waiting file (if r.container then r :: stack else stack) := by
  unfold Round.entered
  split <;> rfl

/-- The rounds a commit has to go through: changed, at their paths and in order. -/
structure Script (keys : List Round) : Prop where
  sorted : keys.Pairwise fun a b => a.path < b.path
  coherent : ∀ k ∈ keys, k.Coherent
  changed : ∀ k ∈ keys, k.source ≠ k.destination

theorem Script.tail {k : Round} {keys : List Round} (h : Script (k :: keys)) : Script keys :=
  ⟨(List.pairwise_cons.1 h.sorted).2, fun a ha => h.coherent a (List.mem_cons_of_mem _ ha),
    fun a ha => h.changed a (List.mem_cons_of_mem _ ha)⟩

/-- The first round is entered and the others follow. -/
theorem yields_next {k : Round} {keys stack : List Round} (n : UInt64) (hkeys : Script (k :: keys))
    (hlt : ∀ s ∈ stack, ∀ a ∈ k :: keys, s.path < a.path)
    (hprevious : ∀ p ∈ previous, ∀ a ∈ k :: keys, p ≤ a.path)
    (htop : ∀ s ∈ stack.head?, s.path.components <+: k.path.components)
    (hrest : ∀ n w', Yields (QuicSync.applyAll ((operations keys n).map (withFile file)) >>=
        fun _ => Committer.finish)
      ⟨⟨root, waiting file (if k.container then k :: stack else stack), some k.path⟩, w'⟩ g) :
    Yields (QuicSync.applyAll ((operations (k :: keys) n).map (withFile file)) >>= fun _ =>
        Committer.finish) ⟨⟨root, waiting file stack, previous⟩, w⟩
      (k.enter root file >>= fun _ => g) := by
  have hk : Next (waiting file stack) previous k := by
    refine ⟨hkeys.coherent k List.mem_cons_self, fun p hp => hprevious p hp k List.mem_cons_self,
      fun d hd => ?_⟩
    obtain ⟨s, hs, rfl⟩ := Option.map_eq_some_iff.1 ((List.head?_map ..).symm.trans hd)
    exact ⟨htop s hs, (hlt s (List.mem_of_mem_head? hs) k List.mem_cons_self).ne⟩
  rw [operations, List.map_append]
  refine yields_enter n hk (hkeys.changed k List.mem_cons_self) fun w' => ?_
  rw [entered_waiting]
  exact hrest _ w'

/-- The stack stays before the rounds that are left when the first one is entered. -/
theorem Script.lt_entered {k : Round} {keys stack : List Round} (hkeys : Script (k :: keys))
    (hlt : ∀ s ∈ stack, ∀ a ∈ k :: keys, s.path < a.path) :
    (∀ s ∈ if k.container then k :: stack else stack, ∀ a ∈ keys, s.path < a.path) ∧
      ∀ p ∈ some k.path, ∀ a ∈ keys, p ≤ a.path := by
  have hk := (List.pairwise_cons.1 hkeys.sorted).1
  refine ⟨fun s hs a ha => ?_, fun p hp a ha => ?_⟩
  · split at hs
    · obtain rfl | hs := List.mem_cons.1 hs
      · exact hk a ha
      · exact hlt s hs a (List.mem_cons_of_mem _ ha)
    · exact hlt s hs a (List.mem_cons_of_mem _ ha)
  · cases hp
    exact (hk a ha).le

/-- Feeding the operations of rounds and finishing yields the commands of the visits. -/
theorem yields_visits (root : RootHandle) (file : RelativePath → StagedFile)
    (previous : Option RelativePath) (w : World) (stack keys : List Round) (hkeys : Script keys)
    (n : UInt64) (hlt : ∀ s ∈ stack, ∀ k ∈ keys, s.path < k.path)
    (hprevious : ∀ p ∈ previous, ∀ k ∈ keys, p ≤ k.path) :
    Yields (QuicSync.applyAll ((operations keys n).map (withFile file)) >>= fun _ =>
        Committer.finish) ⟨⟨root, waiting file stack, previous⟩, w⟩
      (runVisits root file (visits (fun r => r.path.components) Round.container stack keys)) := by
  induction stack, keys using visits.induct (fun r => r.path.components) Round.container
    generalizing previous n w with
  | case1 =>
    rw [visits]
    refine ⟨fun w' hf => ?_, fun e w' hf => by cases hf⟩
    cases hf
    exact ⟨_, rfl⟩
  | case2 s stack ih =>
    rw [visits]
    have hbegins := begins_finishPending (c := ⟨root, waiting file (s :: stack), previous⟩)
      (fun _ => true) w rfl rfl
    exact hbegins.yields fun w' => ih _ w' hkeys n (by simp) (by simp)
  | case3 k keys ih =>
    rw [visits]
    obtain ⟨hlt', hprevious'⟩ := hkeys.lt_entered hlt
    exact yields_next n hkeys hlt hprevious (by simp) fun n w' =>
      ih _ w' hkeys.tail n hlt' hprevious'
  | case4 s stack k keys hpre ih =>
    rw [visits, if_pos hpre]
    obtain ⟨hlt', hprevious'⟩ := hkeys.lt_entered hlt
    exact yields_next n hkeys hlt hprevious (by simpa using hpre) fun n w' =>
      ih _ w' hkeys.tail n hlt' hprevious'
  | case5 s stack k keys hpre ih =>
    rw [visits, if_neg hpre]
    obtain ⟨operation, rest, hops, hpath⟩ := exists_roundOperations n
      (hkeys.coherent k List.mem_cons_self) (hkeys.changed k List.mem_cons_self)
    have hrest : ∀ w', Yields (QuicSync.applyAll ((operations (k :: keys) n).map (withFile file)) >>=
        fun _ => Committer.finish) ⟨⟨root, waiting file stack, previous⟩, w'⟩ _ := fun w' =>
      ih _ w' hkeys n (fun a ha => hlt a (List.mem_cons_of_mem _ ha)) hprevious
    rw [operations, hops, List.map_append, List.map_cons, List.cons_append] at hrest ⊢
    have happly : Applicable ⟨root, waiting file (s :: stack), previous⟩ (withFile file operation) := by
      refine ⟨fun p hp => ?_, withFile_file file operation⟩
      exact hpath ▸ hprevious p hp k List.mem_cons_self
    have hbegins := begins_apply (w := w) happly rfl (hpath ▸ hpre)
    exact (begins_applyAll hbegins).yields hrest

end

end

/-- **A commit yields the commands of the visits**, from the empty stack on. -/
theorem commitAll_yields (root : RootHandle) (file : RelativePath → StagedFile) {keys : List Round}
    (hkeys : Script keys) (n : UInt64) (w : World) :
    Yields (commitAll ((operations keys n).map (withFile file))) ⟨Committer.new root, w⟩
      (runVisits root file (visits (fun r => r.path.components) Round.container [] keys)) := by
  obtain ⟨hok, herror⟩ := yields_visits root file none w [] keys hkeys n (by simp) (by simp)
  refine ⟨fun w' hf => ?_, fun e w' hf => ?_⟩
  · obtain ⟨c', hc'⟩ := hok w' hf
    exact ⟨c', Fallible.run_onError_ok hc'⟩
  · obtain ⟨s', hs'⟩ := herror e w' hf
    exact ⟨_, Fallible.run_onError_error hs'⟩

end QuicSync
