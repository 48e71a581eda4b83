import QuicSync.Sync.Replay
import QuicSync.Traversal.Deferred

/-!
# The dependency order of a commit

A committer is an instance of work that waits for what lies below it: the requests are the changes,
what is done at once are `Command`s, and what waits are the `Action`s of the directories on its
stack (`committing`).

* `apply_refines` : an operation that is applied successfully is served as the instance says: the
  stack afterwards is its stack, and the file system is that of carrying out its events;
* `applyAll_refines` : so is a sequence of operations;
* `commit_dependency_order` : the order in which a commit carries out what it defers.
-/

namespace QuicSync

open Posix

/-- What an operation does at once. -/
inductive Command where
  /-- Remove an entry that is not a directory. -/
  | remove
  /-- Create a directory, or take one that is there. -/
  | create (metadata : EntryMetadata)
  /-- Install a file or a link. -/
  | install (action : Action)

/-- A primitive action of a commit, at a path. -/
abbrev CommitEvent := Event RelativePath Command Action

/-- Carry out a primitive action. -/
def runEvent (root : RootHandle) (e : CommitEvent) : FsM Unit :=
  match e.work with
  | .now .remove => unlink root e.key false
  | .now (.create metadata) => upsertDirectory root e.key metadata
  | .now (.install action) => runAction root e.key action
  | .deferred action => runAction root e.key action

/-- Carry out primitive actions in order. -/
def runEvents (root : RootHandle) : List CommitEvent → FsM Unit
  | [] => pure ()
  | e :: es => do
    runEvent root e
    runEvents root es

def Action.isDelete : Action → Bool
  | .delete => true
  | _ => false

/-- A file or a link waits where a directory waits to be removed. -/
def replacement (waiting : List Action) (action : Action) : Option Command × Option Action :=
  if waiting.any Action.isDelete then (none, some action) else (some (.install action), none)

/-- What an operation does at once and what waits for the descendants of its path. -/
def commitShare (waiting : List Action) : Change → Option Command × Option Action
  | (.delete _ _ .directory, _) => (none, some .delete)
  | (.delete .., _) => (some .remove, none)
  | (.upsertDirectory _ record, _) =>
    (some (.create record.metadata), some (.metadata record.metadata))
  | (.upsertFile _ _ record, some file) => replacement waiting (.file file record.metadata)
  | (.upsertFile .., none) => (none, none)
  | (.upsertSymlink _ record, _) => replacement waiting (.symlink record)

/-- The changes of a commit as requests, in which work waits for what lies below it. -/
def committing : Deferral Bytes RelativePath Change Command Action where
  path := RelativePath.components
  injective := RelativePath.components_injective
  key change := change.1.path
  share := commitShare

/-- A directory on the stack with what waits there. -/
def Directory.frame (d : Directory) : Frame RelativePath Action := ⟨d.path, d.actions⟩

/-- The stack of a committer. -/
def Committer.stack (c : Committer) : List (Frame RelativePath Action) :=
  c.pending.map Directory.frame

/-! ### Carrying out events -/

section

variable {root : RootHandle} {w w' w₁ : World}

theorem runEvents_append {es es' : List CommitEvent} (h : (runEvents root es).run w = (.ok (), w₁))
    (h' : (runEvents root es').run w₁ = (.ok (), w')) :
    (runEvents root (es ++ es')).run w = (.ok (), w') := by
  induction es generalizing w with
  | nil =>
    cases h
    exact h'
  | cons e es ih =>
    obtain ⟨_, w₂, he, hes⟩ := Fallible.run_bind_ok_iff.1 h
    exact Fallible.run_bind_ok_iff.2 ⟨(), w₂, he, ih hes⟩

theorem runEvents_singleton {e : CommitEvent} (h : (runEvent root e).run w = (.ok (), w')) :
    (runEvents root [e]).run w = (.ok (), w') :=
  Fallible.run_bind_ok_iff.2 ⟨(), w', h, rfl⟩

/-- The actions of a directory are carried out as its events. -/
theorem runActions_ok {path : RelativePath} {actions : List Action}
    (h : (runActions root path actions).run w = (.ok (), w')) :
    (runEvents root (Frame.events ⟨path, actions⟩)).run w = (.ok (), w') := by
  induction actions generalizing w with
  | nil => exact h
  | cons action actions ih =>
    obtain ⟨_, w₁, haction, hrest⟩ := Fallible.run_bind_ok_iff.1 h
    exact Fallible.run_bind_ok_iff.2
      ⟨(), w₁, Fallible.run_onError_ok_iff.1 haction, ih hrest⟩

end

/-! ### The stack -/

section

variable {c : Committer} {w : World} {s : Site}

/-- What waits at the innermost directory decides whether it is being replaced. -/
theorem replacingDirectory_eq (path : RelativePath) :
    c.replacingDirectory path = (waitingOnTop path c.stack).any Action.isDelete := by
  unfold Committer.replacingDirectory Committer.stack
  rcases c.pending with _ | ⟨d, ds⟩
  · rfl
  · by_cases hpath : d.path = path
    · simp only [List.map_cons, waitingOnTop, Directory.frame, hpath, true_and, if_true,
        Bool.decide_eq_true]
      rfl
    · simp [waitingOnTop, Directory.frame, hpath]

/-- An action is put on the stack as the instance does. -/
theorem stack_defer (path : RelativePath) (action : Action) :
    (c.defer path action).stack = push path action c.stack := by
  unfold Committer.defer Committer.stack
  rcases c.pending with _ | ⟨d, ds⟩
  · rfl
  · by_cases hpath : d.path = path
    · simp [push, Directory.frame, hpath]
    · simp [push, Directory.frame, hpath]

/-- Directories are finished from the innermost one on, while they are to be left. -/
theorem finishWhile_ok {leave : Directory → Bool} {ds : List Directory} (hpending : c.pending = ds)
    (h : (Committer.finishWhile leave ds).run ⟨c, w⟩ = (.ok (), s)) :
    s.committer = { c with pending := ds.dropWhile leave } ∧
      (runEvents c.root (((ds.takeWhile leave).map Directory.frame).flatMap Frame.events)).run w =
        (.ok (), s.world) := by
  induction ds generalizing c w with
  | nil =>
    cases h
    obtain ⟨root, pending, previous⟩ := c
    cases hpending
    exact ⟨rfl, rfl⟩
  | cons d ds ih =>
    by_cases hleave : leave d = true
    · rw [Committer.finishWhile, if_pos hleave] at h
      obtain ⟨_, s₁, hfinish, hrest⟩ := Fallible.run_bind_ok_iff.1 h
      obtain ⟨hactions, hcommitter⟩ := (sim_finishDirectory hpending).of_ok hfinish
      obtain ⟨c₁, w₁⟩ := s₁
      cases hcommitter
      obtain ⟨hs, hevents⟩ := ih rfl hrest
      rw [List.takeWhile_cons_of_pos hleave, List.dropWhile_cons_of_pos hleave]
      exact ⟨hs, runEvents_append (runActions_ok hactions) hevents⟩
    · rw [Committer.finishWhile, if_neg hleave] at h
      cases h
      rw [List.takeWhile_cons_of_neg hleave, List.dropWhile_cons_of_neg hleave, ← hpending]
      exact ⟨rfl, rfl⟩

theorem finishPending_ok {leave : Directory → Bool}
    (h : (Committer.finishPending leave).run ⟨c, w⟩ = (.ok (), s)) :
    s.committer = { c with pending := c.pending.dropWhile leave } ∧
      (runEvents c.root
        (((c.pending.takeWhile leave).map Directory.frame).flatMap Frame.events)).run w =
          (.ok (), s.world) := by
  unfold Committer.finishPending at h
  rw [Fallible.run_bind_ok (Fallible.run_get _)] at h
  exact finishWhile_ok rfl h

/-! ### One operation -/

/-- The first half of `apply` succeeds only if its checks pass. -/
theorem prepare_ok {change : Change}
    (h : (Committer.prepare change.1 change.2).run ⟨c, w⟩ = (.ok (), s)) :
    Applicable c change ∧ (Committer.finishPending fun directory =>
      !(directory.path.components.isPrefixOf change.1.path.components)).run ⟨c, w⟩ =
        (.ok (), s) := by
  have hcheck : Applicable c change := by
    unfold Committer.prepare at h
    rw [Fallible.run_bind_ok (Fallible.run_get _)] at h
    split at h
    · cases h
    · rename_i hprevious
      split at h
      · cases h
      · rename_i hfile
        refine ⟨fun p hp => ?_, not_not.1 hfile⟩
        rw [Bool.not_eq_true, Option.any_eq_false] at hprevious
        simpa using hprevious p hp
  exact ⟨hcheck, prepare_run hcheck ▸ h⟩

/-- What an operation does at once, as events. -/
def nowEvents (path : RelativePath) (command : Option Command) : List CommitEvent :=
  (command.map fun item => ⟨path, .now item⟩).toList

/-- A file or a link waits behind the removal of a directory, or is installed at once. -/
theorem replacement_ok {path : RelativePath} {action : Action}
    (h : Fallible.run (if c.replacingDirectory path then onCommitter fun c => c.defer path action
      else onWorld (runAction c.root path action)) ⟨c, w⟩ = (.ok (), s)) :
    let share := replacement (waitingOnTop path c.stack) action
    s.committer = share.2.elim c (fun action => c.defer path action) ∧
      (runEvents c.root (nowEvents path share.1)).run w = (.ok (), s.world) := by
  rw [replacingDirectory_eq] at h
  unfold replacement
  split at h
  · rename_i hdelete
    rw [if_pos hdelete]
    obtain ⟨hf, hc⟩ := (sim_onCommitter fun c => c.defer path action).of_ok h
    exact ⟨hc, hf⟩
  · rename_i hdelete
    rw [if_neg hdelete]
    obtain ⟨hf, hc⟩ := sim_onWorld.of_ok h
    exact ⟨hc, runEvents_singleton hf⟩

/-- The second half of `apply` shares an operation out as the instance does. -/
theorem install_ok {change : Change} (hfile : change.1.isUpsertFile = change.2.isSome)
    (h : (Committer.install change.1 change.2).run ⟨c, w⟩ = (.ok (), s)) :
    let share := commitShare (waitingOnTop change.1.path c.stack) change
    s.committer = share.2.elim c (fun action => c.defer change.1.path action) ∧
      (runEvents c.root (nowEvents change.1.path share.1)).run w = (.ok (), s.world) := by
  obtain ⟨operation, file⟩ := change
  cases operation with
  | upsertFile update id record =>
    cases file with
    | none => cases hfile
    | some file => exact replacement_ok h
  | upsertSymlink id record => exact replacement_ok h
  | upsertDirectory id record =>
    cases file with
    | some file => cases hfile
    | none =>
      obtain ⟨hf, hc⟩ := (sim_upsertDirectory id).of_ok h
      exact ⟨hc, runEvents_singleton hf⟩
  | delete id path kind =>
    cases file with
    | some file => cases hfile
    | none =>
      by_cases hkind : kind = .directory
      · subst hkind
        obtain ⟨hf, hc⟩ := (sim_delete_directory id path).of_ok h
        exact ⟨hc, hf⟩
      · obtain ⟨hf, hc⟩ := (sim_delete id path hkind).of_ok h
        have hshare : commitShare (waitingOnTop path c.stack) (.delete id path kind, none) =
            (some .remove, none) := by
          cases kind <;> first | rfl | exact absurd rfl hkind
        simp only [Operation.path, hshare]
        exact ⟨hc, runEvents_singleton hf⟩

theorem leaves_frame (change : Change) :
    (fun directory : Directory =>
      !(directory.path.components.isPrefixOf change.1.path.components)) =
        committing.leaves change ∘ Directory.frame := by
  funext d
  rw [Function.comp_apply, Bool.eq_iff_iff, Deferral.leaves_iff, Bool.not_eq_true',
    Bool.eq_false_iff, Ne, List.isPrefixOf_iff_prefix]
  rfl

/-- **An operation is applied as the instance serves it**: the stack is its stack, and the file
system is the one that its events lead to. -/
theorem apply_refines {change : Change}
    (h : (Committer.apply change.1 change.2).run ⟨c, w⟩ = (.ok (), s)) :
    Applicable c change ∧ s.committer.root = c.root ∧
      s.committer.previous = some change.1.path ∧
      s.committer.stack = committing.next c.stack change ∧
      (runEvents c.root (committing.served c.stack change)).run w = (.ok (), s.world) := by
  unfold Committer.apply at h
  obtain ⟨_, ⟨c₁, w₁⟩, hprepare, h⟩ := Fallible.run_bind_ok_iff.1 h
  obtain ⟨happly, hfinish⟩ := prepare_ok (Fallible.run_onError_ok_iff.1 hprepare)
  obtain ⟨hc₁, hleft⟩ := finishPending_ok hfinish
  cases hc₁
  obtain ⟨_, s₂, hprevious, h⟩ := Fallible.run_bind_ok_iff.1 h
  cases hprevious
  obtain ⟨hcommitter, hnow⟩ := install_ok happly.file h
  rw [leaves_frame] at hleft hcommitter hnow
  -- the directories that are kept, and those that are left
  have hkept : Committer.stack ⟨c.root, c.pending.dropWhile (committing.leaves change ∘
      Directory.frame), some change.1.path⟩ = committing.kept c.stack change :=
    List.dropWhile_map.symm
  have htaken : (c.pending.takeWhile (committing.leaves change ∘ Directory.frame)).map
      Directory.frame = c.stack.takeWhile (committing.leaves change) :=
    List.takeWhile_map.symm
  rw [hkept] at hcommitter hnow
  rw [htaken] at hleft
  have hshared : committing.shared c.stack change =
      commitShare (waitingOnTop change.1.path (committing.kept c.stack change)) change := rfl
  rw [← hshared] at hcommitter hnow
  have hevents := runEvents_append hleft hnow
  cases hitem : (committing.shared c.stack change).2 with
  | none =>
    rw [hitem] at hcommitter
    have hnext : committing.next c.stack change = committing.kept c.stack change := by
      rw [Deferral.next, hitem, Option.elim_none]
    rw [hcommitter, hnext]
    exact ⟨happly, rfl, rfl, hkept, hevents⟩
  | some action =>
    rw [hitem] at hcommitter
    have hnext : committing.next c.stack change =
        push change.1.path action (committing.kept c.stack change) := by
      rw [Deferral.next, hitem, Option.elim_some]
      rfl
    rw [hcommitter, hnext, ← hkept]
    exact ⟨happly, Committer.root_defer _ _ _, Committer.previous_defer _ _ _, stack_defer _ _,
      hevents⟩

/-! ### A whole commit -/

/-- A sequence of operations that is applied successfully is in order, and it is served as the
instance says. -/
theorem applyAll_refines {changes : List Change}
    (h : (applyAll changes).run ⟨c, w⟩ = (.ok (), s)) :
    (∀ p ∈ c.previous, ∀ change ∈ changes, p ≤ change.1.path) ∧
      (changes.Pairwise fun a b => a.1.path ≤ b.1.path) ∧ s.committer.root = c.root ∧
      s.committer.stack = committing.after c.stack changes ∧
      (runEvents c.root (committing.events c.stack changes)).run w = (.ok (), s.world) := by
  induction changes generalizing c w with
  | nil =>
    cases h
    exact ⟨by simp, .nil, rfl, rfl, rfl⟩
  | cons change changes ih =>
    obtain ⟨_, ⟨c₁, w₁⟩, happly, hrest⟩ := Fallible.run_bind_ok_iff.1 h
    obtain ⟨happlicable, hroot, hprevious, hstack, hserved⟩ :=
      apply_refines (Fallible.run_onError_ok_iff.1 happly)
    obtain ⟨hlater, hsorted, hroot', hstack', hevents⟩ := ih hrest
    have hle := hlater change.1.path hprevious
    rw [hroot, hstack] at hevents
    rw [hstack] at hstack'
    refine ⟨fun p hp a ha => ?_, List.pairwise_cons.2 ⟨hle, hsorted⟩, hroot'.trans hroot, hstack',
      runEvents_append hserved hevents⟩
    have hfirst := happlicable.previous p hp
    obtain rfl | ha := List.mem_cons.1 ha
    · exact hfirst
    · exact hfirst.trans (hle a ha)

/-- The operations before the others are applied successfully if all of them are. -/
theorem applyAll_append_ok {before behind : List Change} {s₀ : Site}
    (h : (applyAll (before ++ behind)).run s₀ = (.ok (), s)) :
    ∃ s₁, (applyAll before).run s₀ = (.ok (), s₁) := by
  induction before generalizing s₀ with
  | nil => exact ⟨s₀, rfl⟩
  | cons change before ih =>
    obtain ⟨_, s₁, happly, hrest⟩ := Fallible.run_bind_ok_iff.1 h
    obtain ⟨s₂, hbefore⟩ := ih hrest
    refine ⟨s₂, Fallible.run_bind_ok_iff.2 ⟨(), s₁, ?_, hbefore⟩⟩
    exact Fallible.run_onError_ok (Fallible.run_onError_ok_iff.1 happly)

/-- A commit that succeeds has carried out the trace of its changes. -/
theorem commitAll_refines {changes : List Change}
    (h : (commitAll changes).run ⟨c, w⟩ = (.ok (), s)) :
    ∃ s₁, (applyAll changes).run ⟨c, w⟩ = (.ok (), s₁) ∧
      (runEvents c.root (committing.trace c.stack changes)).run w = (.ok (), s.world) := by
  obtain ⟨_, ⟨c₁, w₁⟩, happly, hfinish⟩ :=
    Fallible.run_bind_ok_iff.1 (Fallible.run_onError_ok_iff.1 h)
  obtain ⟨-, -, hroot, hstack, hevents⟩ := applyAll_refines happly
  obtain ⟨-, hleft⟩ := finishPending_ok hfinish
  refine ⟨_, happly, runEvents_append hevents ?_⟩
  have hall : c₁.pending.takeWhile (fun _ => true) = c₁.pending := by simp
  rw [hall, hroot] at hleft
  rw [← hstack]
  exact hleft

/-- After each operation, the directories on the stack lie strictly above each other and above the
operation's path or at it. -/
theorem chain_applied {root : RootHandle} {before : List Change} {change : Change}
    (h : (applyAll (before ++ [change])).run ⟨Committer.new root, w⟩ = (.ok (), s)) :
    (s.committer.pending.Pairwise fun inner outer =>
        Above RelativePath.components outer.path inner.path) ∧
      ∀ d ∈ s.committer.pending, d.path.components <+: change.1.path.components := by
  have hstack : s.committer.stack = committing.after [] (before ++ [change]) :=
    (applyAll_refines h).2.2.2.1
  rw [Deferral.after_concat] at hstack
  have hchain : committing.Chain (committing.after [] before) := Deferral.chain_after .nil before
  constructor
  · have hnext := Deferral.chain_next hchain change
    rw [← hstack] at hnext
    exact List.pairwise_map.1 hnext
  · intro d hd
    have hmem : d.frame ∈ s.committer.stack := List.mem_map_of_mem hd
    rw [hstack] at hmem
    exact Deferral.prefix_of_mem_next hchain hmem

end

/-- **The dependency order of a commit.**  When a commit succeeds,

* after each operation the directories on the stack lie strictly above each other, the innermost
  first, and the operation's path is one of them or lies below them; the stack and the file system
  are those of the instance;
* the file system at the end is that of carrying out the trace: its events are at the paths of the
  operations;
* what was deferred at a directory is carried out once, in the order in which it was deferred;
* it is carried out after everything strictly below the directory, and before everything at the
  path of a later operation outside it. -/
theorem commit_dependency_order (root : RootHandle) (changes : List Change) (w : World) (s : Site)
    (h : (commitAll changes).run ⟨Committer.new root, w⟩ = (.ok (), s)) :
    (∀ before change behind, changes = before ++ change :: behind →
      ∃ s₁, (applyAll (before ++ [change])).run ⟨Committer.new root, w⟩ = (.ok (), s₁) ∧
        (s₁.committer.pending.Pairwise fun inner outer =>
          Above RelativePath.components outer.path inner.path) ∧
        (∀ d ∈ s₁.committer.pending, d.path.components <+: change.1.path.components) ∧
        s₁.committer.stack = committing.after [] (before ++ [change]) ∧
        (runEvents root (committing.events [] (before ++ [change]))).run w = (.ok (), s₁.world)) ∧
    (runEvents root (committing.trace [] changes)).run w = (.ok (), s.world) ∧
    (∀ e ∈ committing.trace [] changes, ∃ change ∈ changes, e.key = change.1.path) ∧
    (∀ directory, (committing.trace [] changes).filterMap (Event.deferredAt directory) =
      (committing.deferrals [] changes).filterMap fun p =>
        if p.1 = directory then some p.2 else none) ∧
    ∀ (i j : ℕ) (e e' : CommitEvent), (committing.trace [] changes)[i]? = some e →
      (committing.trace [] changes)[j]? = some e' → e.Deferred →
      (Above RelativePath.components e.key e'.key → j < i) ∧
      ∀ (a b : ℕ) (change change' : Change), a < b → changes[a]? = some change → changes[b]? = some change' →
        change.1.path = e.key → change'.1.path = e'.key →
        ¬ e.key.components <+: e'.key.components → i < j := by
  obtain ⟨s₀, happly, hevents⟩ := commitAll_refines h
  obtain ⟨-, hsorted, -⟩ := applyAll_refines happly
  have hchain : committing.Chain [] := .nil
  have horder := Deferral.inOrder_trace hchain hsorted (by simp)
  refine ⟨?_, hevents, ?_, ?_, ?_⟩
  · rintro before change behind rfl
    rw [List.append_cons] at happly
    obtain ⟨s₁, hbefore⟩ := applyAll_append_ok happly
    obtain ⟨-, -, -, hstack, hworld⟩ := applyAll_refines hbefore
    obtain ⟨hpairwise, hprefix⟩ := chain_applied hbefore
    exact ⟨s₁, hbefore, hpairwise, hprefix, hstack, hworld⟩
  · intro e he
    obtain ⟨f, hf, -⟩ | hkey := Deferral.key_of_mem_trace he
    · cases hf
    · exact hkey
  · intro directory
    exact Deferral.deferredAt_trace hchain changes directory
  · intro i j e e' hi hj hdeferred
    refine ⟨fun habove => Deferral.lt_of_above horder hi hj hdeferred habove, ?_⟩
    intro a b change change' hab ha hb hpath hpath' hout
    obtain ⟨hlta, rfl⟩ := List.getElem?_eq_some_iff.1 ha
    obtain ⟨hltb, rfl⟩ := List.getElem?_eq_some_iff.1 hb
    have hle := List.pairwise_iff_getElem.1 hsorted a b hlta hltb hab
    rw [hpath, hpath'] at hle
    refine Deferral.lt_of_outside horder hi hj hdeferred (lt_of_le_of_ne hle fun heq => ?_) hout
    have hcomponents : e.key.components = e'.key.components := heq
    exact hout (hcomponents ▸ List.prefix_rfl)

namespace ReplacedDirectory

def record (components : List Bytes) (hne : components ≠ [])
    (legal : ∀ c ∈ components, componentError c = none) (kind : EntryKind)
    (target : Option Bytes) : IndexRecord :=
  ⟨⟨components, hne, legal⟩, ⟨kind, 0o755, .ofUInt64 5, 0⟩, none, target⟩

/-- A new directory. -/
def directory : IndexRecord := record [ascii "new"] (by decide) (by decide) .directory none

/-- A link in the new directory. -/
def inner : IndexRecord :=
  record [ascii "new", ascii "link"] (by decide) (by decide) .symlink (some (ascii "t"))

/-- A link in place of a directory. -/
def link : IndexRecord := record [ascii "old"] (by decide) (by decide) .symlink (some (ascii "t"))

/-- The changes that bring them about. -/
def changes : List Change :=
  [(.upsertDirectory ⟨0⟩ directory, none), (.upsertSymlink ⟨1⟩ inner, none),
    (.delete ⟨2⟩ link.path .directory, none), (.upsertSymlink ⟨3⟩ link, none)]

def root : RootHandle := ⟨[ascii "root"]⟩

/-- A root directory with the one entry `old`, a directory. -/
def world : World :=
  ⟨((Tree.empty.insert [] ⟨.directory, 0o755, 0⟩).insert [ascii "root"]
    ⟨.directory, 0o755, 0⟩).insert [ascii "root", ascii "old"] ⟨.directory, 0o755, 0⟩, [], fun _ => 0⟩

theorem commit_isOk : ((commitAll changes).run ⟨Committer.new root, world⟩).1.isOk = true := by
  decide +kernel

end ReplacedDirectory

open ReplacedDirectory in
/-- A link in place of a directory waits behind the directory's removal. -/
theorem commit_dependency_order_replaced :
    ∃ s, (commitAll changes).run ⟨Committer.new root, world⟩ = (.ok (), s) ∧
      (runEvents root (committing.trace [] changes)).run world = (.ok (), s.world) ∧
      (committing.trace [] changes).filterMap (Event.deferredAt link.path) =
        [.delete, .symlink link] := by
  obtain ⟨_, hrun⟩ := Fallible.exists_ok commit_isOk
  obtain ⟨-, htrace, -, hdeferred, -⟩ := commit_dependency_order root changes world _ hrun
  exact ⟨_, hrun, htrace, (hdeferred link.path).trans rfl⟩

end QuicSync
