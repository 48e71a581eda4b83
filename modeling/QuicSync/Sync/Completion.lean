import QuicSync.Sync.Barrier
import QuicSync.Sync.Determinism

/-!
# The order of completion

The jobs of a session complete in any order, and the requesting task retains what they return in
that order, among the operations that need no content.  `PendingCommit` is keyed by the identifiers
of the operations, which count up: it holds the plan in its order whatever the order of completion.

* `Inv.inOrder`: what the requesting task holds when it returns is the plan, each file upsert with
  the file received for it.
* `exists_counterpart`: between two sessions with one plan and the same content, each temporary file
  has a counterpart, so `commit_congr` applies.
-/

namespace QuicSync

open Posix

/-- An operation with what has been received for it. -/
abbrev Retained := Operation × Option (Transfer.ReceivedFile × Bytes)

namespace Retained

/-- The change that is committed. -/
def change (r : Retained) : Change := (r.1, r.2.map fun f => f.1.file)

/-- The temporary file, with its content. -/
def files (r : Retained) : List (StagedFile × Bytes) := (r.2.map fun f => (f.1.file, f.2)).toList

/-- The content received. -/
def content (r : Retained) : Option Bytes := r.2.map (·.2)

end Retained

/-- What is retained for a plan: its operations in their order, each file upsert with the file
received for its identifier and path, and every other operation with no file. -/
structure InOrder (plan : List Operation) (retained : List Retained) : Prop where
  operations : retained.map (·.1) = plan
  upsert : ∀ r ∈ retained, r.2.isSome = r.1.isUpsertFile
  own : ∀ r ∈ retained, ∀ f ∈ r.2, f.1.id = r.1.id ∧ f.1.path = r.1.path

namespace Destination

variable {n : ℕ} {cfg : Serving} {w₀ : World} {s : Destination n}

/-- The task has taken the whole plan when it returns. -/
theorem Inv.taken_eq (h : s.Inv cfg w₀) (htask : s.requesting.task = .returned (.ok ())) :
    s.requesting.taken = s.emitted := by
  have hqueue := (h.drained (Or.inr htask)).1
  rw [← h.flow, hqueue, List.append_nil]

theorem Inv.pairwise_ids (h : s.Inv cfg w₀) (htask : s.requesting.task = .returned (.ok ())) :
    (s.emitted.map fun o => o.id.get).Pairwise (· < ·) := by
  have hnodup := h.accounts.ids
  rw [h.taken_eq htask] at hnodup
  rw [h.ids] at hnodup ⊢
  exact pairwise_idsFrom_zero hnodup

theorem Inv.retained_perm (h : s.Inv cfg w₀) (htask : s.requesting.task = .returned (.ok ())) :
    (s.requesting.retained.map (·.1)).Perm s.emitted := by
  have hflow := h.accounts.flow (by rw [htask]; rfl)
  have hcurrent : s.requesting.task.current = [] := by rw [htask]; rfl
  rwa [h.taken_eq htask, hcurrent, h.slots.idle htask, List.map_nil, List.append_nil,
    List.append_nil] at hflow

/-- **What is retained is the plan**, in its order. -/
theorem Inv.inOrder (h : s.Inv cfg w₀) (htask : s.requesting.task = .returned (.ok ())) :
    ∃ retained : List Retained, retained.Perm s.requesting.retained ∧ InOrder s.emitted retained ∧
      s.requesting.pending.changes = retained.map Retained.change := by
  -- sorted by the identifiers, which are distinct
  let le : Retained → Retained → Bool := fun a b => a.1.id.get ≤ b.1.id.get
  have hids := h.pairwise_ids htask
  have hperm := h.retained_perm htask
  have hsort : (s.requesting.retained.mergeSort le).Perm s.requesting.retained :=
    List.mergeSort_perm _ _
  generalize hretained : s.requesting.retained.mergeSort le = retained at hsort
  have hle : retained.Pairwise fun a b => a.1.id.get ≤ b.1.id.get := by
    have hsorted := @List.pairwise_mergeSort _ le
      (fun a b c hab hbc => decide_eq_true (UInt64.le_trans (of_decide_eq_true hab)
        (of_decide_eq_true hbc)))
      (fun a b => by
        obtain hab | hba := UInt64.le_total a.1.id.get b.1.id.get
        · exact Bool.or_eq_true_iff.2 (Or.inl (decide_eq_true hab))
        · exact Bool.or_eq_true_iff.2 (Or.inr (decide_eq_true hba))) s.requesting.retained
    rw [hretained] at hsorted
    exact hsorted.imp fun hab => of_decide_eq_true hab
  have hne : retained.Pairwise fun a b => a.1.id.get ≠ b.1.id.get := by
    have hnodup : (retained.map fun r => r.1.id.get).Nodup := by
      have hmap := ((hsort.map (·.1)).trans hperm).map fun o => o.id.get
      rw [List.map_map] at hmap
      refine hmap.nodup_iff.2 (hids.imp fun hlt heq => UInt64.ne_of_lt hlt heq)
    exact List.pairwise_map.1 hnodup
  have hlt : retained.Pairwise fun a b => a.1.id.get < b.1.id.get :=
    (hle.and hne).imp fun hab => UInt64.lt_of_le_of_ne hab.1 hab.2
  refine ⟨retained, hsort, ⟨?_, fun r hr => ?_, fun r hr => ?_⟩, ?_⟩
  · have hplan : s.emitted.Pairwise fun a b => a.id.get < b.id.get := List.pairwise_map.1 hids
    exact List.Perm.eq_of_pairwise (fun a b _ _ hab hba => absurd hab (UInt64.lt_asymm hba))
      (List.pairwise_map.2 hlt) hplan ((hsort.map (·.1)).trans hperm)
  · exact (h.accounts.kept r (hsort.mem_iff.1 hr)).1
  · exact (h.accounts.kept r (hsort.mem_iff.1 hr)).2
  · exact List.Perm.eq_of_pairwise (fun a b _ _ hab hba => absurd hab (UInt64.lt_asymm hba))
      s.requesting.pending.sorted (List.pairwise_map.2 hlt)
      (h.accounts.changes.trans (hsort.map Retained.change).symm)

end Destination

/-! ### Two sessions with one plan -/

theorem Retained.files_change (r : Retained) : Change.files r.change = r.files.map (·.1) := by
  obtain ⟨operation, _ | f⟩ := r <;> rfl

theorem Retained.files_changes (l : List Retained) :
    (l.map Retained.change).flatMap Change.files = (l.flatMap Retained.files).map (·.1) := by
  rw [List.flatMap_map, List.map_flatMap]
  exact congrArg (List.flatMap · l) (funext Retained.files_change)

open Classical in
/-- Each file of one session has its counterpart in the other. -/
theorem exists_counterpart {l l' : List Retained} (hoperations : l'.map (·.1) = l.map (·.1))
    (hcontent : ∀ r ∈ l, ∀ r' ∈ l', r'.1 = r.1 → r'.content = r.content)
    (hnodup : ((l.flatMap Retained.files).map (·.1)).Nodup) :
    ∃ (counterpart : StagedFile → StagedFile) (bytes : StagedFile → Bytes),
      l'.map Retained.change = (l.map Retained.change).map (Change.rename counterpart) ∧
      (∀ f ∈ l.flatMap Retained.files, bytes f.1 = f.2) ∧
      l'.flatMap Retained.files =
        (l.flatMap Retained.files).map fun f => (counterpart f.1, f.2) := by
  induction l generalizing l' with
  | nil =>
    obtain rfl : l' = [] := List.map_eq_nil_iff.1 hoperations
    exact ⟨id, fun _ => [], rfl, (fun _ hf => nomatch hf), rfl⟩
  | cons r l ih =>
    cases l' with
    | nil => cases hoperations
    | cons r' l' =>
      obtain ⟨hoperation, hrest⟩ := List.cons.inj hoperations
      have hhead := hcontent r List.mem_cons_self r' List.mem_cons_self hoperation
      rw [List.flatMap_cons, List.map_append] at hnodup
      obtain ⟨hfiles, hnodup', hdisjoint⟩ := List.nodup_append.1 hnodup
      obtain ⟨counterpart, bytes, hchanges, hbytes, hpairs⟩ := ih hrest
        (fun a ha b hb => hcontent a (List.mem_cons_of_mem _ ha) b (List.mem_cons_of_mem _ hb))
        hnodup'
      obtain ⟨operation, received⟩ := r
      obtain ⟨operation', received'⟩ := r'
      obtain rfl : operation' = operation := hoperation
      cases received with
      | none =>
        obtain rfl : received' = none := Option.map_eq_none_iff.1 hhead
        refine ⟨counterpart, bytes, ?_, hbytes, hpairs⟩
        rw [List.map_cons, List.map_cons, List.map_cons, hchanges]
        rfl
      | some f =>
        obtain ⟨f', rfl, hsame⟩ := Option.map_eq_some_iff.1 hhead
        -- the new file is none of the others
        have hnew : ∀ g ∈ l.flatMap Retained.files, g.1 ≠ f.1.file := by
          intro g hg heq
          refine hdisjoint f.1.file ?_ g.1 (List.mem_map_of_mem hg) heq.symm
          exact List.mem_cons_self
        refine ⟨Function.update counterpart f.1.file f'.1.file,
          Function.update bytes f.1.file f.2, ?_, fun g hg => ?_, ?_⟩
        · rw [List.map_cons, List.map_cons, List.map_cons, hchanges]
          refine congrArg₂ List.cons ?_ ?_
          · simp only [Retained.change, Change.rename, Option.map_some, Function.update_self]
          · refine List.map_congr_left fun change hchange => ?_
            obtain ⟨a, ha, rfl⟩ := List.mem_map.1 hchange
            obtain ⟨operation, _ | g⟩ := a
            · rfl
            · have hne := hnew (g.1.file, g.2)
                (List.mem_flatMap.2 ⟨_, ha, List.mem_cons_self⟩)
              simp only [Retained.change, Change.rename, Option.map_some,
                Function.update_of_ne hne]
        · obtain rfl | hg := List.mem_cons.1 hg
          · exact Function.update_self _ _ _
          · rw [Function.update_of_ne (hnew g hg)]
            exact hbytes g hg
        · rw [List.flatMap_cons, List.flatMap_cons, List.map_append, hpairs]
          refine congrArg₂ (· ++ ·) ?_ ?_
          · simp only [Retained.files, Option.map_some, Option.toList_some, List.map_cons,
              List.map_nil, Function.update_self]
            exact congrArg (fun b => [(f'.1.file, b)]) hsame
          · refine List.map_congr_left fun g hg => ?_
            rw [Function.update_of_ne (hnew g hg)]

namespace Destination

variable {n n' : ℕ} {cfg cfg' : Serving} {w₀ : World} {s : Destination n} {s' : Destination n'}

/-- The temporary files of the operations retained, in the order of the plan. -/
theorem Inv.filesReady {retained : List Retained} (h : s.Inv cfg w₀) (hcommitted : s.committed = none)
    (htask : s.requesting.task = .returned (.ok ()))
    (hperm : retained.Perm s.requesting.retained) :
    FilesReady cfg.root (retained.flatMap Retained.files) s.requesting.world := by
  have hfiles := (h.stages hcommitted).files
  rw [Requester.files, h.slots.idle htask, List.flatMap_nil, List.append_nil] at hfiles
  exact hfiles.perm (hperm.symm.flatMap_right Retained.files)

/-- Two sessions with one plan and the same content are ready for commits that do the same. -/
theorem Inv.stocked (h : s.Inv cfg w₀) (h' : s'.Inv cfg' w₀) (hroot : cfg'.root = cfg.root)
    (hcommitted : s.committed = none) (hcommitted' : s'.committed = none)
    (htask : s.requesting.task = .returned (.ok ()))
    (htask' : s'.requesting.task = .returned (.ok ())) (hplan : s'.emitted = s.emitted)
    (hcontent : ∀ r ∈ s.requesting.retained, ∀ r' ∈ s'.requesting.retained, r'.1 = r.1 →
      Retained.content r' = Retained.content r) :
    ∃ counterpart bytes,
      s'.requesting.pending.changes =
        s.requesting.pending.changes.map (Change.rename counterpart) ∧
      Stocked cfg.root counterpart bytes (s.requesting.pending.changes.flatMap Change.files)
        s.requesting.world s'.requesting.world := by
  obtain ⟨retained, hperm, horder, hchanges⟩ := h.inOrder htask
  obtain ⟨retained', hperm', horder', hchanges'⟩ := h'.inOrder htask'
  have hready := h.filesReady hcommitted htask hperm
  have hready' := h'.filesReady hcommitted' htask' hperm'
  rw [hroot] at hready'
  have hnodup : ((retained.flatMap Retained.files).map (·.1)).Nodup := by
    refine List.Nodup.of_map StagedFile.name ?_
    rw [List.map_map]
    exact hready.names
  obtain ⟨counterpart, bytes, hrename, hbytes, hpairs⟩ := exists_counterpart
    (horder'.operations.trans (hplan.trans horder.operations.symm))
    (fun r hr r' hr' => hcontent r (hperm.mem_iff.1 hr) r' (hperm'.mem_iff.1 hr')) hnodup
  refine ⟨counterpart, bytes, by rw [hchanges', hchanges, hrename], ?_, ?_, ?_⟩
  · have hstaging := (h'.stages hcommitted').onlyStaging
    rw [hroot] at hstaging
    exact (h.stages hcommitted).onlyStaging.alike.symm.trans hstaging.alike
  · rw [hchanges, Retained.files_changes, List.map_map]
    have hmap : (retained.flatMap Retained.files).map
        ((fun f => (f, bytes f)) ∘ fun f : StagedFile × Bytes => f.1) =
        retained.flatMap Retained.files := by
      refine (List.map_congr_left fun f hf => ?_).trans (List.map_id _)
      exact Prod.ext rfl (hbytes f hf)
    rwa [hmap]
  · rw [hchanges, Retained.files_changes, List.map_map]
    have hmap : (retained.flatMap Retained.files).map
        ((fun f => (counterpart f, bytes f)) ∘ fun f : StagedFile × Bytes => f.1) =
        retained'.flatMap Retained.files := by
      rw [hpairs]
      refine List.map_congr_left fun f hf => ?_
      exact Prod.ext rfl (hbytes f hf)
    rwa [hmap]

theorem commitStep_committed (s : Destination n) :
    (s.commitStep cfg (.ok ())).committed =
      some ((s.requesting.pending.commit cfg.root).run s.requesting.world).1 := by
  unfold Destination.commitStep
  cases (s.requesting.pending.commit cfg.root).run s.requesting.world with
  | mk result w => cases result <;> rfl

theorem commitStep_world (s : Destination n) :
    (s.commitStep cfg (.ok ())).requesting.world =
      ((s.requesting.pending.commit cfg.root).run s.requesting.world).2 := by
  unfold Destination.commitStep
  cases (s.requesting.pending.commit cfg.root).run s.requesting.world with
  | mk result w => cases result <;> rfl

/-- **The order of completion does not matter, and nothing is lost.**  In every run: there are never
more jobs than there may be, and no operation is refused.  When the requesting task has returned, the
changes to commit are the operations that the planner has sent, each once and in their order, each
file upsert with the file received for it and every other operation with none.  When the planner has
returned, it has sent the plan of the two indexes.  Two sessions on the same tree that get to the
commit with one plan and the same content commit with the same outcome and leave the same entries,
whatever happened before in which order. -/
theorem completion_order (cfg : Serving) (connection : Connection) (w : World)
    (s : Destination cfg.capacity) (h : s.Reachable cfg connection w) :
    s.requesting.jobs.length ≤ cfg.capacity ∧ s.requesting.refused = none ∧
    (s.requesting.task = .returned (.ok ()) →
      (s.emitted.map Operation.id).Nodup ∧
      ∃ retained : List Retained, retained.Perm s.requesting.retained ∧
        InOrder s.emitted retained ∧
        s.requesting.pending.changes = retained.map Retained.change) ∧
    (s.planning = .returned (.ok ()) →
      ∃ S D, s.readRemote = stream S ∧ s.readLocal = stream D ∧
        s.emitted = QuicSync.operations (merge S D) 0) ∧
    ∀ (cfg' : Serving) (connection' : Connection) (s' : Destination cfg'.capacity),
      s'.Reachable cfg' connection' w → cfg'.root = cfg.root →
      s.phase = .committing → s'.phase = .committing → s'.emitted = s.emitted →
      (∀ r ∈ s.requesting.retained, ∀ r' ∈ s'.requesting.retained, r'.1 = r.1 →
        Retained.content r' = Retained.content r) →
      let t := s.commitStep cfg (.ok ())
      let t' := s'.commitStep cfg' (.ok ())
      t'.committed = t.committed ∧ Resembles cfg.root t.requesting.world t'.requesting.world ∧
        (t.committed = some (.ok ()) → Alike cfg.root t.requesting.world t'.requesting.world) := by
  have hinv := h.inv
  refine ⟨hinv.slots.jobs, hinv.accounts.refused, fun htask => ⟨?_, hinv.inOrder htask⟩,
    fun hplanning => ?_, fun cfg' connection' s' h' hroot hphase hphase' hplan hcontent => ?_⟩
  · have hids := hinv.pairwise_ids htask
    have hnodup : (s.emitted.map fun o => o.id.get).Nodup :=
      hids.imp fun hlt heq => UInt64.ne_of_lt hlt heq
    refine List.Nodup.of_map OperationId.get ?_
    rwa [List.map_map]
  · have hplan := hinv.plan
    rwa [hplanning] at hplan
  · have hinv' := h'.inv
    have hjoined {n : ℕ} {cfg : Serving} {w : World} {s : Destination n} (h : s.Inv cfg w)
        (hphase : s.phase = .committing) :
        s.committed = none ∧ s.requesting.task = .returned (.ok ()) := by
      have hcommits := h.commits
      rw [hphase] at hcommits
      exact ⟨hcommits, resultOf_requesting (h.joined (Or.inl (by rw [hphase]; rfl)) .requesting)⟩
    obtain ⟨hcommitted, htask⟩ := hjoined hinv hphase
    obtain ⟨hcommitted', htask'⟩ := hjoined hinv' hphase'
    obtain ⟨counterpart, bytes, hchanges, hstocked⟩ :=
      hinv.stocked hinv' hroot hcommitted hcommitted' htask htask' hplan hcontent
    obtain ⟨hresult, hresembles, halike⟩ := commit_congr hchanges hstocked
    intro t t'
    have ht : t.committed = _ ∧ t.requesting.world = _ :=
      ⟨commitStep_committed s, commitStep_world s⟩
    have ht' : t'.committed = _ ∧ t'.requesting.world = _ :=
      ⟨commitStep_committed s', commitStep_world s'⟩
    rw [ht.1, ht.2, ht'.1, ht'.2, hroot, hresult]
    exact ⟨rfl, hresembles, fun hok => halike (Option.some.inj hok)⟩

end Destination

/-! ### Two orders of completion

The source of the sample has a second file, and its two files are received in one order and in the
other. -/

namespace Sample

def secondFile : IndexRecord :=
  ⟨⟨[ascii "d", ascii "g"], by decide, by decide⟩, ⟨.regularFile, 0o644, .ofUInt64 5, 0⟩,
    some emptyDigest, none⟩

def secondUpsert : Operation := .upsertFile false ⟨1⟩ secondFile

/-- What happens up to the point where both files have been requested. -/
def untilRequested : List ServeEvent :=
  [.start [Wire.startFrame] (.ok [7]) (.ok ()), .request .openArea, .scan, .scan, .scan,
    .readIndex (.ok (frame (IndexMessage.record (directory 0o755)) ++
      frame (IndexMessage.record file) ++ frame (IndexMessage.record secondFile) ++
      frame IndexMessage.end)), .forward, .forward, .forward, .forward, .confirm (.ok true) none,
    .accept none] ++ List.replicate 12 .plan ++ [.endPlan none, .closeOperations,
    .request (.receive upsert), .request (.openStream (.ok ())), .request (.receive secondUpsert),
    .request (.openStream (.ok ())), .request .ended]

def firstWins : List ServeEvent :=
  [.request (.job 0 (.create (Vector.replicate 16 0))), .request (.job 0 .finish),
    .request (.join 0), .request (.job 0 (.create (Vector.replicate 16 1))),
    .request (.job 0 .finish), .request (.join 0), .request .finish, .join]

def secondWins : List ServeEvent :=
  [.request (.job 0 (.create (Vector.replicate 16 2))),
    .request (.job 1 (.create (Vector.replicate 16 3))), .request (.job 1 .finish),
    .request (.join 1), .request (.job 0 .finish), .request (.join 0), .request .finish, .join]

/-- The session after the files have been received. -/
def session (order : List ServeEvent) : Option (Destination serving.capacity) :=
  (untilRequested ++ order).foldlM (Destination.step serving)
    (Destination.start serving connection (world 0o755))

/-- A session is about to commit the plan with files received in a given order, and the commit
succeeds. -/
def arrives (received : List (Operation × Option Bytes)) (s : Destination serving.capacity) : Bool :=
  (s.step serving (.commit (.ok ()))).isSome && decide (s.emitted = [upsert, secondUpsert]) &&
    decide ((s.requesting.retained.map fun r => (r.1, Retained.content r)) = received) &&
    (s.commitStep serving (.ok ())).committed.any fun
      | .ok () => true
      | .error _ => false

theorem arrives_firstWins : (session firstWins).any
    (arrives [(upsert, some []), (secondUpsert, some [])]) = true := by
  decide +kernel

theorem arrives_secondWins : (session secondWins).any
    (arrives [(secondUpsert, some []), (upsert, some [])]) = true := by
  decide +kernel

end Sample

open Sample in
/-- The two sessions receive their files in different orders and end with the same tree. -/
theorem completion_order_two_files : ∃ s s' : Destination serving.capacity,
    s.Reachable serving connection (world 0o755) ∧ s'.Reachable serving connection (world 0o755) ∧
      s.requesting.retained.map (·.1) = [upsert, secondUpsert] ∧
      s'.requesting.retained.map (·.1) = [secondUpsert, upsert] ∧
      (s.commitStep serving (.ok ())).committed = some (.ok ()) ∧
      (s'.commitStep serving (.ok ())).committed = some (.ok ()) ∧
      Alike root (s.commitStep serving (.ok ())).requesting.world
        (s'.commitStep serving (.ok ())).requesting.world := by
  obtain ⟨s, hs, harrives⟩ := (Option.any_eq_true _ _).1 arrives_firstWins
  obtain ⟨s', hs', harrives'⟩ := (Option.any_eq_true _ _).1 arrives_secondWins
  have hreach : s.Reachable serving connection (world 0o755) := ⟨_, hs⟩
  have hreach' : s'.Reachable serving connection (world 0o755) := ⟨_, hs'⟩
  simp only [arrives, Bool.and_eq_true, decide_eq_true_eq] at harrives harrives'
  obtain ⟨⟨⟨hcommit, hplan⟩, hretained⟩, hok⟩ := harrives
  obtain ⟨⟨⟨hcommit', hplan'⟩, hretained'⟩, -⟩ := harrives'
  have hone {s : Destination serving.capacity} {order : List (Operation × Option Bytes)}
      (hretained : (s.requesting.retained.map fun r => (r.1, Retained.content r)) = order)
      (hempty : ∀ a ∈ order, a.2 = some []) :
      s.requesting.retained.map (·.1) = order.map (·.1) ∧
        ∀ r ∈ s.requesting.retained, Retained.content r = some [] := by
    refine ⟨?_, fun r hr => ?_⟩
    · rw [← hretained, List.map_map]
      rfl
    · exact hempty (r.1, Retained.content r) (hretained ▸ List.mem_map_of_mem hr)
  obtain ⟨hoperations, hcontent⟩ := hone hretained (by decide)
  obtain ⟨hoperations', hcontent'⟩ := hone hretained' (by decide)
  obtain ⟨-, -, -, -, htwo⟩ :=
    Destination.completion_order serving connection (world 0o755) s hreach
  obtain ⟨hsame, -, halike⟩ := htwo serving connection s' hreach' rfl
    (Destination.commit_isSome_iff.1 hcommit) (Destination.commit_isSome_iff.1 hcommit')
    (hplan'.trans hplan.symm) fun r hr r' hr' _ => (hcontent' r' hr').trans (hcontent r hr).symm
  have hcommitted : (s.commitStep serving (.ok ())).committed = some (.ok ()) := by
    obtain ⟨result, hresult, hany⟩ := (Option.any_eq_true _ _).1 hok
    cases result with
    | ok _ => exact hresult
    | error e => cases hany
  exact ⟨s, s', hreach, hreach', hoperations, hoperations', hcommitted, hsame.trans hcommitted,
    halike hcommitted⟩

end QuicSync
