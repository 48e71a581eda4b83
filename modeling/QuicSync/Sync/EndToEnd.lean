import QuicSync.Sync.Cleanup
import QuicSync.Sync.Indexing

/-!
# One sync of two ends

`sync_converges` is about a plan that is staged and committed by one task.  This module carries it to
the session: two scans, two index streams, the planner, jobs that end in any order, the commit and
the acknowledgment.

* `Destination.Made`: what the commit of a session was run on, and what it did.
* `setting_of_retained`: what the requesting task has retained for a plan is what a commit starts
  from.
* `Session.all_or_nothing`: in every run, the destination's entries are as they were, or they are
  what the source's index says; and they are the latter if the source returns successfully.
-/

namespace QuicSync

open Posix

/-! ### The files of a plan -/

open Classical in
/-- Some function has given values at distinct keys. -/
theorem exists_eq_of_nodup {α β γ : Type} [Nonempty γ] (key : α → β) (value : α → γ) {l : List α}
    (h : (l.map key).Nodup) : ∃ f : β → γ, ∀ a ∈ l, f (key a) = value a := by
  refine ⟨fun k => if hk : ∃ a ∈ l, key a = k then value hk.choose else Classical.arbitrary γ, ?_⟩
  intro a ha
  have hk : ∃ b ∈ l, key b = key a := ⟨a, ha, rfl⟩
  obtain ⟨hmem, heq⟩ := hk.choose_spec
  simp only [dif_pos hk]
  exact congrArg value (List.inj_on_of_nodup_map h hmem ha heq)

/-- The paths of the file upserts. -/
def upsertPaths (operations : List Operation) : List RelativePath :=
  (operations.filter Operation.isUpsertFile).map Operation.path

theorem upsertPaths_append (l l' : List Operation) :
    upsertPaths (l ++ l') = upsertPaths l ++ upsertPaths l' := by
  simp [upsertPaths]

theorem upsertPaths_upsert {r : Round} (hcoherent : r.Coherent) {a : IndexRecord}
    (ha : r.source = some a) (id : OperationId) (update : Bool) :
    (upsertPaths [upsertOperation id a update]).Sublist [r.path] := by
  rw [← hcoherent.1 a ha, ← path_upsertOperation id a update]
  exact (List.filter_sublist (l := [_])).map Operation.path

/-- A round has at most one file upsert, at its path. -/
theorem upsertPaths_round {r : Round} (hcoherent : r.Coherent) (hchanged : r.source ≠ r.destination)
    (n : UInt64) :
    (upsertPaths (roundOperations r.source r.destination n).1).Sublist [r.path] := by
  rcases hsource : r.source with _ | a
  · rcases hdest : r.destination with _ | b
    · exact absurd (hsource.trans hdest.symm) hchanged
    · rw [roundOperations_delete]
      exact List.nil_sublist _
  · have hupsert := upsertPaths_upsert hcoherent hsource
    rcases hdest : r.destination with _ | b
    · rw [roundOperations_create]
      exact hupsert _ _
    · by_cases hkind : a.metadata.kind = b.metadata.kind
      · have hab : a ≠ b := by
          rintro rfl
          exact hchanged (hsource.trans hdest.symm)
        obtain ⟨update, hops⟩ := roundOperations_update hab hkind n
        rw [hops]
        exact hupsert _ _
      · obtain ⟨update, hops⟩ := roundOperations_replace hkind n
        rw [hops]
        exact hupsert _ _

theorem upsertPaths_operations {keys : List Round} (h : Script keys) (n : UInt64) :
    (upsertPaths (operations keys n)).Sublist (keys.map Round.path) := by
  induction keys generalizing n with
  | nil => exact List.Sublist.slnil
  | cons k keys ih =>
    rw [operations, upsertPaths_append, List.map_cons, ← List.singleton_append]
    exact (upsertPaths_round (h.coherent k List.mem_cons_self)
      (h.changed k List.mem_cons_self) n).append (ih h.tail _)

/-- A plan upserts each file once. -/
theorem nodup_upsertPaths {keys : List Round} (h : Script keys) (n : UInt64) :
    (upsertPaths (operations keys n)).Nodup := by
  refine (upsertPaths_operations h n).nodup (List.pairwise_map.2 ?_)
  exact h.sorted.imp fun hlt => ne_of_lt hlt

/-- Different operations have temporary files of different names. -/
theorem FilesReady.disjoint {root : RootHandle} {retained : List Retained} {w : World}
    (h : FilesReady root (retained.flatMap Retained.files) w) {a a' : Retained} (ha : a ∈ retained)
    (ha' : a' ∈ retained) (hne : a ≠ a') :
    ∀ f ∈ a.files, ∀ f' ∈ a'.files, f.1.name ≠ f'.1.name := by
  have hnames := h.names
  rw [List.map_flatMap, List.nodup_flatMap] at hnames
  have : Std.Symm (Function.onFun List.Disjoint fun r : Retained =>
      r.files.map fun f => f.1.name) := ⟨fun _ _ h => h.symm⟩
  have hdisjoint := hnames.2.forall ha ha' hne
  intro f hf f' hf' heq
  exact hdisjoint (List.mem_map_of_mem hf) (heq ▸ List.mem_map_of_mem hf')

/-! ### What a commit starts from -/

section

variable {blake3 : Bytes → Digest} {root : RootHandle} {S D : List IndexRecord}
  {content : RelativePath → Bytes} {w w₁ : World} {file : RelativePath → StagedFile}

theorem plan_changedRounds (S D : List IndexRecord) :
    (plan (stream S) (stream D)).1 = operations (changedRounds S D) 0 := by
  rw [plan_stream, operations_filter]
  rfl

/-- Staging leaves what the destination's index describes as it is. -/
theorem Start.setting (h : Start blake3 root S D w.tree) (hS : Acceptable S)
    (honly : OnlyStaging root w w₁) (hdistinct : Distinct file (changedRounds S D))
    (hready : ∀ r ∈ changedRounds S D, r.sourceKind = some .regularFile →
      Ready root (file r.path) (content r.path) w₁) :
    Setting blake3 root file content S D w₁ := by
  have hD := h.destination.toAcceptable
  refine ⟨hS, hD, ?_, honly.traversable hD.unprotected h.traversable, ⟨?_, ?_⟩, hdistinct, hready⟩
  · intro d hd
    rw [honly.at (hD.unprotected d hd)]
    exact h.describes d hd
  · intro s hs hne
    rw [honly.at (hS.unprotected s hs)] at hne
    exact h.vacant.source s hs hne
  · intro d hd hkind hsource name hne
    rw [honly.below (hD.unprotected d hd)] at hne
    exact h.vacant.deleted d hd hkind hsource name hne

/-- **What is retained for a plan is a setting of its commit**, if the temporary files are in place
with the source's bytes. -/
theorem setting_of_retained {retained : List Retained} (hS : Acceptable S)
    (h : Start blake3 root S D w.tree) (honly : OnlyStaging root w w₁)
    (horder : InOrder (operations (changedRounds S D) 0) retained)
    (hready : FilesReady root (retained.flatMap Retained.files) w₁)
    (hcontent : ∀ r ∈ retained, ∀ f ∈ r.2, f.2 = content r.1.path) :
    ∃ file, Setting blake3 root file content S D w₁ ∧
      retained.map Retained.change = planned file S D := by
  have hscript := changedRounds_script hS.increasing h.destination.increasing
  let upserts := retained.filter fun r => r.1.isUpsertFile
  -- each file upsert has its file, and its path is that of no other
  have hfiles {r : Retained} (hr : r ∈ retained) (hupsert : r.1.isUpsertFile = true) :
      ∃ f, r.2 = some f := by
    rw [← horder.upsert r hr] at hupsert
    exact Option.isSome_iff_exists.1 hupsert
  have hnodup : (upserts.map fun r => r.1.path).Nodup := by
    have hpaths := nodup_upsertPaths hscript 0
    rw [← horder.operations] at hpaths
    simpa [upsertPaths, List.filter_map, Function.comp_def] using hpaths
  have : Nonempty StagedFile := ⟨⟨[], Vector.replicate 16 0⟩⟩
  obtain ⟨file, hfile⟩ := exists_eq_of_nodup (fun r : Retained => r.1.path)
    (fun r : Retained => (r.2.map fun f => f.1.file).getD (Classical.arbitrary _)) hnodup
  have hown {r : Retained} (hr : r ∈ retained) {f : Transfer.ReceivedFile × Bytes}
      (hf : r.2 = some f) : file r.1.path = f.1.file := by
    have hupsert : r.1.isUpsertFile = true := by
      rw [← horder.upsert r hr, hf]
      rfl
    have hvalue := hfile r (List.mem_filter.2 ⟨hr, hupsert⟩)
    rwa [hf] at hvalue
  -- what is retained for a round that upserts a file
  have hround {r : Round} (hr : r ∈ changedRounds S D) (hkind : r.sourceKind = some .regularFile) :
      ∃ a ∈ retained, ∃ f, a.2 = some f ∧ a.1.path = r.path := by
    obtain ⟨operation, hmem, hupsert, hpath⟩ :=
      exists_upsertFile hr (hscript.coherent r hr) (hscript.changed r hr) hkind 0
    rw [← horder.operations] at hmem
    obtain ⟨a, ha, rfl⟩ := List.mem_map.1 hmem
    obtain ⟨f, hf⟩ := hfiles ha hupsert
    exact ⟨a, ha, f, hf, hpath⟩
  refine ⟨file, h.setting hS honly ?_ ?_, ?_⟩
  · intro r hr r' hr' hkind hkind' hne
    obtain ⟨a, ha, f, hf, hpath⟩ := hround hr hkind
    obtain ⟨a', ha', f', hf', hpath'⟩ := hround hr' hkind'
    have hdisjoint := hready.disjoint ha ha' (fun heq => hne (by rw [← hpath, ← hpath', heq]))
    rw [← hpath, ← hpath', hown ha hf, hown ha' hf']
    exact hdisjoint (f.1.file, f.2) (by simp [Retained.files, hf]) (f'.1.file, f'.2)
      (by simp [Retained.files, hf'])
  · intro r hr hkind
    obtain ⟨a, ha, f, hf, hpath⟩ := hround hr hkind
    rw [← hpath, hown ha hf, ← hcontent a ha f hf]
    refine hready.ready (f.1.file, f.2) (List.mem_flatMap.2 ⟨a, ha, ?_⟩)
    simp [Retained.files, hf]
  · rw [planned, plan_changedRounds, ← horder.operations, List.map_map]
    refine List.map_congr_left ?_
    intro a ha
    rcases hf : a.2 with _ | f
    · have hnot := horder.upsert a ha
      rw [hf] at hnot
      simp [Retained.change, withFile, hf, ← hnot]
    · have hupsert := horder.upsert a ha
      rw [hf] at hupsert
      simp [Retained.change, withFile, hf, ← hupsert, hown ha hf]

end

/-! ### What a session commits -/

namespace Destination

variable {n : ℕ} {cfg : Serving} {w₀ : World} {s s' : Destination n}

/-- A step makes the commit, or leaves what has been committed as it is. -/
theorem Effect.committed_or (hinv : s.Inv cfg w₀) (h : Effect cfg s s') :
    s.phase = .committing ∧
        s'.requesting = { s.requesting with
          world := ((s.requesting.pending.commit cfg.root).run s.requesting.world).2 } ∧
        s'.committed = some ((s.requesting.pending.commit cfg.root).run s.requesting.world).1 ∨
      s'.committed = s.committed ∧ (s.committed ≠ none → s'.requesting = s.requesting) := by
  cases h with
  | commit hphase hrequesting hcommitted _ => exact Or.inl ⟨hphase, hrequesting, hcommitted⟩
  | other hrequesting hcommitted _ _ => exact Or.inr ⟨hcommitted, fun _ => hrequesting⟩
  | request event _ hcommitted _ hevent =>
    refine Or.inr ⟨hcommitted, fun hne => ?_⟩
    rcases hevent with hrunning | ⟨hjobs, -⟩
    · exact absurd (hinv.uncommitted hrunning) hne
    · exact absurd (hinv.idle hne) hjobs
  | dropped hphase _ hcommitted _ =>
    refine Or.inr ⟨hcommitted, fun hne => ?_⟩
    have hcommits := hinv.commits
    rcases hphase with hphase | hphase
    · rw [hphase] at hcommits
      exact absurd hcommits hne
    · rw [hphase] at hcommits
      exact absurd hcommits hne

/-- The commit was run on a tree that differs from the first in the directory for temporary files
only, where the files were in place. -/
def Made (cfg : Serving) (w₀ : World) (s : Destination n) : Prop :=
  ∀ result, s.committed = some result → ∃ w₁, OnlyStaging cfg.root w₀ w₁ ∧
    FilesReady cfg.root (s.requesting.retained.flatMap Retained.files) w₁ ∧
    (s.requesting.pending.commit cfg.root).run w₁ = (result, s.requesting.world)

theorem Made.step {event : ServeEvent} (h : s.Made cfg w₀) (hinv : s.Inv cfg w₀)
    (hstep : s.step cfg event = some s') : s'.Made cfg w₀ := by
  intro result hresult
  rcases (step_effect hstep).committed_or hinv with
    ⟨hphase, hrequesting, hcommitted⟩ | ⟨hcommitted, hrequesting⟩
  · have hnone : s.committed = none := by
      have hcommits := hinv.commits
      rwa [hphase] at hcommits
    have htask : s.requesting.task = .returned (.ok ()) :=
      resultOf_requesting (hinv.joined (Or.inl (by rw [hphase]; rfl)) .requesting)
    rw [hresult] at hcommitted
    rw [hrequesting]
    refine ⟨s.requesting.world, (hinv.stages hnone).onlyStaging,
      hinv.filesReady hnone htask (List.Perm.refl _), ?_⟩
    exact Prod.ext (Option.some.inj hcommitted).symm rfl
  · rw [hcommitted] at hresult
    rw [hrequesting (by rw [hresult]; exact Option.some_ne_none _)]
    exact h result hresult

theorem Reachable.made {connection : Connection} {s : Destination cfg.capacity}
    (h : s.Reachable cfg connection w₀) : s.Made cfg w₀ := by
  have hboth : s.Inv cfg w₀ ∧ s.Made cfg w₀ := by
    refine Reaches.invariant (I := fun s => s.Inv cfg w₀ ∧ s.Made cfg w₀) h
      ⟨inv_start cfg connection w₀, ?_⟩ fun _ _ _ hi hstep => ⟨hi.1.step hstep, hi.2.step hi.1 hstep⟩
    intro result hresult
    cases hresult
  exact hboth.2

end Destination

/-! ### Both ends -/

/-- A complete stream that another one begins with is the other one. -/
theorem eq_of_stream_prefix {S S' : List IndexRecord} (h : stream S <+: stream S') : S = S' := by
  induction S generalizing S' with
  | nil =>
    rcases S' with _ | ⟨r', S'⟩
    · rfl
    · simp [stream] at h
  | cons r S ih =>
    rcases S' with _ | ⟨r', S'⟩
    · simp [stream] at h
    · have hcons : r = r' ∧ stream S <+: stream S' := by
        simpa [stream, List.cons_prefix_cons] using h
      rw [hcons.1, ih hcons.2]

namespace Session

variable {cfg : Parties} {connection connection' : Connection} {w : World}
  {s : Session cfg.source.capacity cfg.destination.capacity} {S D : List IndexRecord}

/-- The source does not succeed without a commit that does. -/
theorem Reachable.committed_of_returned (h : s.Reachable cfg connection connection' w)
    (hphase : s.source.phase = .returned (.ok ())) : s.destination.committed = some (.ok ()) :=
  h.committed_of_served (Source.resultOf_serving (h.inv.2.1.returned hphase .serving))

/-- What a session commits is the plan for the indexes of the two scans, on the tree that it has
found. -/
theorem Reachable.setting {blake3 : Bytes → Digest} {content : RelativePath → Bytes}
    (h : s.Reachable cfg connection connection' w) (hsource : cfg.source.scan.2 = stream S)
    (hdestination : cfg.destination.scan.2 = stream D) (hS : Acceptable S)
    (hstart : Start blake3 cfg.destination.root S D w.tree)
    (hcontent : ∀ r ∈ s.destination.requesting.retained, ∀ f ∈ r.2, f.2 = content r.1.path)
    {result : Except QuicSyncError Unit} (hresult : s.destination.committed = some result) :
    ∃ file w₁, OnlyStaging cfg.destination.root w w₁ ∧
      Setting blake3 cfg.destination.root file content S D w₁ ∧
      s.destination.requesting.pending.changes = planned file S D ∧
      (s.destination.requesting.pending.commit cfg.destination.root).run w₁ =
        (result, s.destination.requesting.world) := by
  have hinv := h.inv.2.2
  have hne : s.destination.committed ≠ none := by
    rw [hresult]
    exact Option.some_ne_none _
  -- the planner has read both scans to their ends
  have hplan := hinv.plan
  rw [Destination.resultOf_planning (hinv.joined (Or.inr hne) .planning)] at hplan
  obtain ⟨S', D', hremote, hlocal, hemitted⟩ := hplan
  obtain rfl : S' = S := eq_of_stream_prefix (hsource ▸ hremote ▸ h.readRemote)
  obtain rfl : D' = D := eq_of_stream_prefix (hdestination ▸ hlocal ▸ h.readLocal)
  rw [operations_filter] at hemitted
  obtain ⟨retained, hperm, horder, hchanges⟩ :=
    hinv.inOrder (Destination.resultOf_requesting (hinv.joined (Or.inr hne) .requesting))
  rw [hemitted] at horder
  obtain ⟨w₁, honly, hfiles, hrun⟩ := h.parts.2.2.made result hresult
  obtain ⟨file, hsetting, hplanned⟩ := setting_of_retained hS hstart honly horder
    (hfiles.perm (hperm.symm.flatMap_right Retained.files))
    fun r hr => hcontent r (hperm.mem_iff.1 hr)
  exact ⟨file, w₁, honly, hsetting, hchanges.trans hplanned, hrun⟩

/-- **A sync is all or nothing.**  Let the scans of both ends send whole indexes, let the
destination's index describe its tree, with nothing that is not indexed in the way and with
directories that their owner may use, and let the jobs receive the source's bytes.  Then in every
state of every run of both ends, whatever fails and in whatever order: nothing has been committed and
the destination's entries are as they were, or the commit has succeeded and the destination has what
the source's index says.  If the source returns successfully, the latter is the case. -/
theorem all_or_nothing {blake3 : Bytes → Digest} {content : RelativePath → Bytes}
    (cfg : Parties) (connection connection' : Connection) (w : World)
    (s : Session cfg.source.capacity cfg.destination.capacity)
    (h : s.Reachable cfg connection connection' w) (hsource : cfg.source.scan.2 = stream S)
    (hdestination : cfg.destination.scan.2 = stream D) (hS : WellFormed S) (hD : WellFormed D)
    (hdescribes : Describes blake3 cfg.destination.root D w.tree)
    (hmodes : OwnerRwx cfg.destination.root D w.tree)
    (hvacant : Vacant cfg.destination.root S D w.tree)
    (hdigest : ∀ r ∈ S, r.metadata.kind = .regularFile → r.digest = some (blake3 (content r.path)))
    (hcollision : ∀ r ∈ S, ∀ c m t, w.tree.get (cfg.destination.root.at r.path) =
      some ⟨.file c, m, t⟩ → blake3 c = blake3 (content r.path) → c = content r.path)
    (hcontent : ∀ r ∈ s.destination.requesting.retained, ∀ f ∈ r.2, f.2 = content r.1.path) :
    (s.destination.committed = none ∧
        OnlyStaging cfg.destination.root w s.destination.requesting.world ∨
      s.destination.committed = some (.ok ()) ∧
        Converged cfg.destination.root content S D w s.destination.requesting.world) ∧
    (s.source.phase = .returned (.ok ()) →
      Converged cfg.destination.root content S D w s.destination.requesting.world) := by
  have hA := hS.toAcceptable
  have hstart : Start blake3 cfg.destination.root S D w.tree :=
    ⟨hD, hdescribes, hmodes.traversable, hvacant⟩
  have hcommitted {result : Except QuicSyncError Unit}
      (hresult : s.destination.committed = some result) : result = .ok () ∧
        Converged cfg.destination.root content S D w s.destination.requesting.world := by
    obtain ⟨file, w₁, honly, hsetting, hplanned, hrun⟩ :=
      h.setting hsource hdestination hA hstart hcontent hresult
    rcases hsetting.commit_outcome hplanned with
      ⟨w₂, phase, hrun', hprogress, hafter, -⟩ | ⟨e, w₂, -, -, r, hr, hstructural, hno⟩
    · rw [hrun] at hrun'
      obtain ⟨rfl, rfl⟩ := Prod.mk.inj hrun'
      exact ⟨rfl, Done.converged hS hD.toAcceptable hsetting.describes honly hdigest hcollision
        ⟨phase, hprogress, hafter⟩⟩
    · -- every directory may be written
      obtain ⟨hround, hchanged⟩ := hsetting.round_eq hr
      obtain ⟨i, hi, hdir, -⟩ := hstart.traversable.1
      have hname : NameChanges S D r.path := by
        rw [nameChanges_iff, ← hround]
        exact ⟨hchanged, hstructural⟩
      have hwritable := hmodes.writableParent hA hD.toAcceptable hdescribes hname
      exact absurd ((honly.writableParent_iff ⟨i, hi, hdir⟩).2 hwritable) hno
  constructor
  · rcases hresult : s.destination.committed with _ | result
    · exact Or.inl ⟨rfl, (h.inv.2.2.stages hresult).onlyStaging⟩
    · obtain ⟨rfl, hconverged⟩ := hcommitted hresult
      exact Or.inr ⟨rfl, hconverged⟩
  · intro hphase
    exact (hcommitted (h.committed_of_returned hphase)).2

end Session

namespace Sample

/-- The source has succeeded, and what the destination has received is empty. -/
def arrived (s : Session parties.source.capacity parties.destination.capacity) : Bool :=
  match s.source.phase with
  | .returned (.ok ()) =>
    s.destination.requesting.retained.all fun r => r.2.all fun f => f.2.isEmpty
  | _ => false

theorem arrived_untilReturned :
    (bothAfter (untilScanned ++ untilServed ++ untilReturned)).any arrived = true := by
  decide +kernel

/-- The destination has no file at a path of the source. -/
theorem no_file {r : IndexRecord} (hr : r ∈ source mode) (c : Bytes) (m : UInt32) (t : ℤ) :
    (world mode).tree.get (root.at r.path) ≠ some ⟨.file c, m, t⟩ := by
  intro hget
  rcases mem_source.1 hr with rfl | rfl
  · rw [get_directory] at hget
    cases hget
  · rw [get_world, if_neg (by decide), if_neg (by decide), if_neg (by decide)] at hget
    cases hget

end Sample

open Sample in
/-- The session of the sample ends with the new file at the destination. -/
theorem all_or_nothing_sample :
    ∃ s : Session parties.source.capacity parties.destination.capacity,
      s.Reachable parties connection connection (world 0o755) ∧
      s.source.phase = .returned (.ok ()) ∧
      Converged root (fun _ => []) (source 0o755) (destination 0o755) (world 0o755)
        s.destination.requesting.world := by
  obtain ⟨s, hs, harrived⟩ := (Option.any_eq_true _ _).1 arrived_untilReturned
  unfold arrived at harrived
  split at harrived
  · rename_i hphase
    refine ⟨s, ⟨_, hs⟩, hphase, ?_⟩
    refine (Session.all_or_nothing parties connection connection (world 0o755) s ⟨_, hs⟩ rfl rfl
      (wellFormed_source (by decide)) (wellFormed_destination (by decide)) describes ownerRwx vacant
      ?_ ?_ ?_).2 hphase
    · intro r hr hkind
      rcases mem_source.1 hr with rfl | rfl
      · cases hkind
      · rfl
    · intro r hr c m t hget
      exact absurd hget (no_file hr c m t)
    · intro r hr f hf
      have hempty := List.all_eq_true.1 harrived r hr
      rw [Option.mem_def.1 hf] at hempty
      exact List.isEmpty_iff.1 hempty
  · cases harrived

end QuicSync
