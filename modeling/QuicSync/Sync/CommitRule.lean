import QuicSync.Sync.Confinement

/-!
# What a commit keeps

A relation between file systems is kept by a whole commit, whatever its operations are and whether
or not it succeeds, if it is reflexive and transitive and each of the few computations that a
committer is made of keeps it (`CommitRule`).  `CommitRule.commitAll` is the rule.

What a computation keeps may depend on what it is for.  `installs` says which staged file may be
installed where and with which metadata, `drops` which staged files may be removed, and `links`
which links may be made.  `Site.Fits` is the invariant: what waits on the stack is of this kind.
-/

namespace QuicSync

open Posix

/-- A relation that the computations of a committer keep. -/
structure CommitRule (root : RootHandle) (R : World → World → Prop)
    (installs : StagedFile → RelativePath → EntryMetadata → Prop) (drops : StagedFile → Prop)
    (links : IndexRecord → Prop) : Prop where
  refl : ∀ w, R w w
  trans : ∀ w w' w'', R w w' → R w' w'' → R w w''
  unlink : ∀ path removedir, Keeps R (unlink root path removedir)
  upsertDirectory : ∀ path metadata, Keeps R (upsertDirectory root path metadata)
  directoryMetadata : ∀ path metadata, Keeps R (directoryMetadata root path metadata)
  symlink : ∀ record, links record → Keeps R (symlink root record)
  install : ∀ file path metadata, installs file path metadata →
    Keeps R (file.install root path metadata)
  drop : ∀ file, drops file → Keeps R file.drop

section

variable {root : RootHandle} {R : World → World → Prop}
  {installs : StagedFile → RelativePath → EntryMetadata → Prop} {drops : StagedFile → Prop}
  {links : IndexRecord → Prop}

/-- What waits for a directory is of the kind. -/
def ActionFits (installs : StagedFile → RelativePath → EntryMetadata → Prop)
    (drops : StagedFile → Prop) (links : IndexRecord → Prop) (path : RelativePath) :
    Action → Prop
  | .file file metadata => installs file path metadata ∧ drops file
  | .symlink record => links record
  | .delete | .metadata _ => True

/-- What waits on the stack is of the kind. -/
structure Site.Fits (root : RootHandle)
    (installs : StagedFile → RelativePath → EntryMetadata → Prop) (drops : StagedFile → Prop)
    (links : IndexRecord → Prop) (s : Site) : Prop where
  root_eq : s.committer.root = root
  pending : ∀ d ∈ s.committer.pending, ∀ a ∈ d.actions, ActionFits installs drops links d.path a

/-- An operation and the staged file that comes with it are of the kind. -/
structure ChangeFits (installs : StagedFile → RelativePath → EntryMetadata → Prop)
    (drops : StagedFile → Prop) (links : IndexRecord → Prop) (change : Change) : Prop where
  drops : ∀ file ∈ change.2, drops file
  installs : ∀ update id record, change.1 = .upsertFile update id record → ∀ file ∈ change.2,
    installs file record.path record.metadata
  links : ∀ id record, change.1 = .upsertSymlink id record → links record

/-- Steps that keep the invariant of the committer and the relation. -/
def Moves (root : RootHandle) (R : World → World → Prop)
    (installs : StagedFile → RelativePath → EntryMetadata → Prop) (drops : StagedFile → Prop)
    (links : IndexRecord → Prop) (s s' : Site) : Prop :=
  s.Fits root installs drops links → s'.Fits root installs drops links ∧ R s.world s'.world

/-- Putting an action on the stack. -/
theorem Site.Fits.defer {s : Site} {path : RelativePath} {action : Action}
    (hs : s.Fits root installs drops links) (h : ActionFits installs drops links path action) :
    Site.Fits root installs drops links { s with committer := s.committer.defer path action } := by
  have hnew : ∀ a ∈ [action], ActionFits installs drops links path a := by
    intro a ha
    obtain rfl := List.mem_singleton.1 ha
    exact h
  unfold Committer.defer
  cases hp : s.committer.pending with
  | nil =>
    refine ⟨hs.root_eq, fun d hd => ?_⟩
    obtain rfl := List.mem_singleton.1 hd
    exact hnew
  | cons d ds =>
    have hd := hs.pending d (hp ▸ List.mem_cons_self)
    simp only
    split
    · rename_i heq
      refine ⟨hs.root_eq, fun d' hd' => ?_⟩
      obtain rfl | hd' := List.mem_cons.1 hd'
      · intro a ha
        obtain ha | ha := List.mem_append.1 ha
        · exact hd a ha
        · exact heq ▸ hnew a ha
      · exact hs.pending d' (hp ▸ List.mem_cons_of_mem _ hd')
    · refine ⟨hs.root_eq, fun d' hd' => ?_⟩
      obtain rfl | hd' := List.mem_cons.1 hd'
      · exact hnew
      · exact hs.pending d' (hp ▸ hd')

/-- A computation on the file system leaves the committer alone. -/
theorem moves_onWorld {α : Type} {m : FsM α} {s : Site}
    (h : s.Fits root installs drops links → KeepsAt R m s.world) :
    KeepsAt (Moves root R installs drops links) (QuicSync.onWorld m) s :=
  fun hs => ⟨⟨hs.root_eq, hs.pending⟩, h hs⟩

namespace CommitRule

variable (rule : CommitRule root R installs drops links)

include rule

theorem moves_refl (s : Site) : Moves root R installs drops links s s :=
  fun h => ⟨h, rule.refl _⟩

theorem moves_trans (s s' s'' : Site) (h : Moves root R installs drops links s s')
    (h' : Moves root R installs drops links s' s'') : Moves root R installs drops links s s'' := by
  intro hs
  obtain ⟨hs', hR⟩ := h hs
  obtain ⟨hs'', hR'⟩ := h' hs'
  exact ⟨hs'', rule.trans _ _ _ hR hR'⟩

/-! ### On the file system -/

theorem dropFile {file : Option StagedFile} (h : ∀ f ∈ file, drops f) :
    Keeps R (QuicSync.dropFile file) := by
  cases file with
  | none => exact Keeps.pure rule.refl ()
  | some f => exact rule.drop f (h f rfl)

theorem dropActions {path : RelativePath} {actions : List Action}
    (h : ∀ a ∈ actions, ActionFits installs drops links path a) :
    Keeps R (QuicSync.dropActions actions) := by
  induction actions with
  | nil => exact Keeps.pure rule.refl ()
  | cons a actions ih =>
    have hrest := ih fun a ha => h a (List.mem_cons_of_mem _ ha)
    cases a with
    | file file metadata =>
      exact Keeps.bind rule.trans (rule.drop file (h _ List.mem_cons_self).2) fun _ => hrest
    | delete => exact hrest
    | metadata metadata => exact hrest
    | symlink record => exact hrest

theorem dropPending {pending : List Directory}
    (h : ∀ d ∈ pending, ∀ a ∈ d.actions, ActionFits installs drops links d.path a) :
    Keeps R (QuicSync.dropPending pending) := by
  induction pending with
  | nil => exact Keeps.pure rule.refl ()
  | cons d pending ih =>
    refine Keeps.bind rule.trans (ih fun d hd => h d (List.mem_cons_of_mem _ hd)) fun _ => ?_
    exact rule.dropActions (h d List.mem_cons_self)

theorem dropChanges {changes : List Change} (h : ∀ c ∈ changes, ∀ f ∈ c.2, drops f) :
    Keeps R (QuicSync.dropChanges changes) := by
  induction changes with
  | nil => exact Keeps.pure rule.refl ()
  | cons c changes ih =>
    exact Keeps.bind rule.trans (rule.dropFile (h c List.mem_cons_self)) fun _ =>
      ih fun c hc => h c (List.mem_cons_of_mem _ hc)

theorem runAction {path : RelativePath} {action : Action}
    (h : ActionFits installs drops links path action) : Keeps R (QuicSync.runAction root path action) := by
  cases action with
  | delete => exact rule.unlink path true
  | metadata metadata => exact rule.directoryMetadata path metadata
  | file file metadata => exact rule.install file path metadata h.1
  | symlink record => exact rule.symlink record h

theorem runActions {path : RelativePath} {actions : List Action}
    (h : ∀ a ∈ actions, ActionFits installs drops links path a) :
    Keeps R (QuicSync.runActions root path actions) := by
  induction actions with
  | nil => exact Keeps.pure rule.refl ()
  | cons a actions ih =>
    have hrest : ∀ a ∈ actions, ActionFits installs drops links path a := fun a ha =>
      h a (List.mem_cons_of_mem _ ha)
    refine Keeps.bind rule.trans ?_ fun _ => ih hrest
    exact Keeps.onError rule.trans (rule.runAction (h a List.mem_cons_self))
      (rule.dropActions hrest)

/-! ### The committer -/

theorem finishDirectory : Keeps (Moves root R installs drops links) Committer.finishDirectory := by
  intro s hs
  cases hp : s.committer.pending with
  | nil =>
    rw [Committer.run_finishDirectory_nil hp]
    exact ⟨hs, rule.refl _⟩
  | cons d pending =>
    rw [Committer.run_finishDirectory_cons hp]
    have hd := hs.pending d (hp ▸ List.mem_cons_self)
    have hmoves : KeepsAt (Moves root R installs drops links)
        (QuicSync.onWorld (QuicSync.runActions s.committer.root d.path d.actions))
        { s with committer := { s.committer with pending := pending } } := by
      refine moves_onWorld fun _ => ?_
      rw [hs.root_eq]
      exact rule.runActions hd _
    exact hmoves ⟨hs.root_eq, fun d' hd' => hs.pending d' (hp ▸ List.mem_cons_of_mem _ hd')⟩

theorem finishPending (leave : Directory → Bool) :
    Keeps (Moves root R installs drops links) (Committer.finishPending leave) := by
  have hwhile (ds : List Directory) :
      Keeps (Moves root R installs drops links) (Committer.finishWhile leave ds) := by
    induction ds with
    | nil => exact Keeps.pure rule.moves_refl ()
    | cons d ds ih =>
      unfold Committer.finishWhile
      split
      · exact Keeps.bind rule.moves_trans rule.finishDirectory fun _ => ih
      · exact Keeps.pure rule.moves_refl ()
  exact Keeps.bind rule.moves_trans (Keeps.get rule.moves_refl) fun s => hwhile _

theorem defer {s : Site} {path : RelativePath} {action : Action}
    (h : ActionFits installs drops links path action) :
    KeepsAt (Moves root R installs drops links) (onCommitter fun c => c.defer path action) s :=
  fun hs => ⟨hs.defer h, rule.refl _⟩

theorem install_operation {operation : Operation} {file : Option StagedFile}
    (h : ChangeFits installs drops links (operation, file)) :
    Keeps (Moves root R installs drops links) (Committer.install operation file) := by
  intro s
  refine KeepsAt.bind rule.moves_trans (Keeps.get rule.moves_refl s) fun s' s'' hget => ?_
  cases hget
  have hworld {m : FsM Unit} (hm : s.committer.root = root → Keeps R m) :
      KeepsAt (Moves root R installs drops links) (onWorld m) s :=
    moves_onWorld fun hs => hm hs.root_eq s.world
  cases operation with
  | delete id path kind =>
    cases kind with
    | directory => exact rule.defer trivial
    | regularFile => exact hworld fun hroot => hroot ▸ rule.unlink path false
    | symlink => exact hworld fun hroot => hroot ▸ rule.unlink path false
  | upsertDirectory id record =>
    refine KeepsAt.bind rule.moves_trans
      (hworld fun hroot => hroot ▸ rule.upsertDirectory record.path record.metadata)
      fun _ _ _ => rule.defer trivial
  | upsertFile update id record =>
    cases file with
    | none => exact Keeps.pure rule.moves_refl () s
    | some file =>
      have hinstalls := h.installs update id record rfl file rfl
      change KeepsAt _ (if _ then _ else _) s
      split
      · exact rule.defer ⟨hinstalls, h.drops file rfl⟩
      · exact hworld fun hroot => hroot ▸ rule.install file record.path record.metadata hinstalls
  | upsertSymlink id record =>
    have hlinks := h.links id record rfl
    change KeepsAt _ (if _ then _ else _) s
    split
    · exact rule.defer hlinks
    · exact hworld fun hroot => hroot ▸ rule.symlink record hlinks

theorem prepare {operation : Operation} {file : Option StagedFile} (h : ∀ f ∈ file, drops f) :
    Keeps (Moves root R installs drops links)
      (Fallible.onError (Committer.prepare operation file) (onWorld (QuicSync.dropFile file))) := by
  refine Keeps.onError rule.moves_trans ?_ fun s => moves_onWorld fun _ => rule.dropFile h _
  refine Keeps.bind rule.moves_trans (Keeps.get rule.moves_refl) fun s => ?_
  split
  · exact Keeps.fail rule.moves_refl _
  · split
    · exact Keeps.fail rule.moves_refl _
    · exact rule.finishPending _

theorem apply {operation : Operation} {file : Option StagedFile}
    (h : ChangeFits installs drops links (operation, file)) :
    Keeps (Moves root R installs drops links) (Committer.apply operation file) := by
  refine Keeps.bind rule.moves_trans (rule.prepare h.drops) fun _ =>
    Keeps.bind rule.moves_trans ?_ fun _ => rule.install_operation h
  intro s hs
  exact ⟨⟨hs.root_eq, hs.pending⟩, rule.refl _⟩

theorem applyAll {changes : List Change} (h : ∀ c ∈ changes, ChangeFits installs drops links c) :
    Keeps (Moves root R installs drops links) (QuicSync.applyAll changes) := by
  induction changes with
  | nil => exact Keeps.pure rule.moves_refl ()
  | cons c changes ih =>
    have hrest : ∀ c ∈ changes, ChangeFits installs drops links c := fun c hc =>
      h c (List.mem_cons_of_mem _ hc)
    refine Keeps.bind rule.moves_trans (Keeps.onError rule.moves_trans
      (rule.apply (h _ List.mem_cons_self)) fun s => ?_) fun _ => ih hrest
    exact moves_onWorld fun _ => rule.dropChanges (fun c hc => (hrest c hc).drops) _

theorem drop_committer : Keeps (Moves root R installs drops links) Committer.drop := by
  intro s
  refine KeepsAt.bind rule.moves_trans (Keeps.get rule.moves_refl s) fun s' s'' hget => ?_
  cases hget
  exact moves_onWorld fun hs => rule.dropPending hs.pending _

/-- **The rule of a commit**: what its computations keep, the whole commit keeps, also if it fails. -/
theorem commitAll {changes : List Change} (h : ∀ c ∈ changes, ChangeFits installs drops links c)
    (w : World) : R w ((QuicSync.commitAll changes).run ⟨Committer.new root, w⟩).2.world := by
  have hkeeps : Keeps (Moves root R installs drops links) (QuicSync.commitAll changes) :=
    Keeps.onError rule.moves_trans (Keeps.bind rule.moves_trans (rule.applyAll h) fun _ =>
      rule.finishPending _) rule.drop_committer
  exact (hkeeps ⟨Committer.new root, w⟩ ⟨rfl, fun d hd => by cases hd⟩).2

end CommitRule

end

end QuicSync
