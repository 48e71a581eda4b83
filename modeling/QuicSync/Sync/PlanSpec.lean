import QuicSync.Sync.Convergence
import Mathlib.Data.Finset.Sort

/-!
# What a plan is

An account of the planner by path, without lookahead or rounds: `pathwisePlan` walks the paths of both
indexes in order, takes the operations that the two records of a path call for, and then numbers
all operations.

`plan_spec` says that the planner computes this on strictly increasing indexes that end.
-/

namespace QuicSync

/-- The paths of two indexes, in order, each once. -/
def unionPaths (S D : List IndexRecord) : List RelativePath :=
  ((S ++ D).map IndexRecord.path).toFinset.sort (· ≤ ·)

/-- The operations for the records of the two sides at one path, before they are numbered. -/
def pathOperations : Option IndexRecord → Option IndexRecord → List (OperationId → Operation)
  | none, none => []
  | none, some d => [fun id => .delete id d.path d.metadata.kind]
  | some s, none => [fun id => upsertOperation id s false]
  | some s, some d =>
    if s = d then []
    else if s.metadata.kind = d.metadata.kind then
      [fun id => upsertOperation id s (d.metadata.kind = .regularFile)]
    else
      [fun id => .delete id d.path d.metadata.kind,
        fun id => upsertOperation id s (d.metadata.kind = .regularFile)]

/-- Number operations from `n` on. -/
def number (n : UInt64) (drafts : List (OperationId → Operation)) : List Operation :=
  drafts.mapIdx fun k draft => draft ⟨n + UInt64.ofNat k⟩

/-- The operations for two indexes, path by path. -/
def pathwisePlan (S D : List IndexRecord) : List Operation :=
  number 0 ((unionPaths S D).flatMap fun p => pathOperations (recordAt S p) (recordAt D p))

section

variable {S D : List IndexRecord}

/-! ### Rounds and paths -/

theorem mem_unionPaths {p : RelativePath} :
    p ∈ unionPaths S D ↔ recordAt S p ≠ none ∨ recordAt D p ≠ none := by
  have hat (l : List IndexRecord) : recordAt l p ≠ none ↔ ∃ r ∈ l, r.path = p := by
    simp [recordAt, List.find?_eq_none]
  rw [hat, hat]
  simp only [unionPaths, Finset.mem_sort, List.mem_toFinset, List.mem_map, List.mem_append]
  constructor
  · rintro ⟨r, hr | hr, rfl⟩
    · exact Or.inl ⟨r, hr, rfl⟩
    · exact Or.inr ⟨r, hr, rfl⟩
  · rintro (⟨r, hr, rfl⟩ | ⟨r, hr, rfl⟩)
    · exact ⟨r, Or.inl hr, rfl⟩
    · exact ⟨r, Or.inr hr, rfl⟩

theorem paths_merge (hS : Increasing S) (hD : Increasing D) :
    (merge S D).map Round.path = unionPaths S D := by
  have hlt : ((merge S D).map Round.path).Pairwise (· < ·) :=
    List.pairwise_map.2 (merge_increasing hS hD)
  have hmem (p : RelativePath) : p ∈ (merge S D).map Round.path ↔ p ∈ unionPaths S D := by
    rw [mem_unionPaths, List.mem_map]
    constructor
    · rintro ⟨r, hr, rfl⟩
      obtain ⟨hround, hsome⟩ := (mem_merge hS hD).1 hr
      rw [hround] at hsome
      exact hsome
    · intro hp
      exact ⟨roundAt S D p, (mem_merge hS hD).2 ⟨rfl, hp⟩, rfl⟩
  have hnodup : (unionPaths S D).Nodup := Finset.sort_nodup _ _
  refine ((List.perm_ext_iff_of_nodup (hlt.imp ne_of_lt) hnodup).2 hmem).eq_of_pairwise
    (fun a b _ _ => le_antisymm) (hlt.imp le_of_lt) ?_
  exact Finset.pairwise_sort _ _

/-- The rounds are those of the paths in order. -/
theorem merge_eq_map (hS : Increasing S) (hD : Increasing D) :
    merge S D = (unionPaths S D).map (roundAt S D) := by
  rw [← paths_merge hS hD, List.map_map]
  conv_lhs => rw [← List.map_id (merge S D)]
  exact List.map_congr_left fun r hr => ((mem_merge hS hD).1 hr).1

/-! ### Numbering -/

theorem number_append (n : UInt64) (l l' : List (OperationId → Operation)) :
    number n (l ++ l') = number n l ++ number (n + UInt64.ofNat l.length) l' := by
  unfold number
  rw [List.mapIdx_append]
  refine congrArg _ (congrArg (fun f => l'.mapIdx f) ?_)
  funext k draft
  rw [Nat.add_comm, UInt64.ofNat_add, UInt64.add_assoc]

theorem length_number (n : UInt64) (l : List (OperationId → Operation)) :
    (number n l).length = l.length := List.length_mapIdx

theorem roundOperations_eq (a b : Option IndexRecord) (n : UInt64) :
    roundOperations a b n =
      (number n (pathOperations a b), n + UInt64.ofNat (pathOperations a b).length) := by
  have htwo : n + 1 + 1 = n + 2 := by
    rw [UInt64.add_assoc]
    rfl
  unfold roundOperations pathOperations number
  cases a with
  | none => cases b <;> simp
  | some a =>
    cases b with
    | none => simp
    | some b =>
      by_cases hab : a = b
      · simp [hab]
      · by_cases hkind : a.metadata.kind = b.metadata.kind
        · simp [hab, hkind]
        · simp [hab, hkind, htwo]

theorem operations_eq (rounds : List Round) (n : UInt64) :
    operations rounds n =
      number n (rounds.flatMap fun r => pathOperations r.source r.destination) := by
  induction rounds generalizing n with
  | nil => rfl
  | cons r rounds ih =>
    rw [operations, roundOperations_eq, ih, List.flatMap_cons, number_append]

/-- The planner sends the planned operations. -/
theorem plan_eq_pathwisePlan (hS : Increasing S) (hD : Increasing D) :
    plan (stream S) (stream D) = (pathwisePlan S D, .ok ()) := by
  rw [plan_stream, operations_eq, merge_eq_map hS hD, List.flatMap_map]
  rfl

/-! ### The operations of a path -/

theorem exists_draft {operation : Operation} {n : UInt64} {l : List (OperationId → Operation)}
    (h : operation ∈ number n l) : ∃ draft ∈ l, ∃ id, operation = draft id := by
  obtain ⟨k, hk, rfl⟩ := List.mem_mapIdx.1 h
  exact ⟨l[k], List.getElem_mem hk, _, rfl⟩

/-- The operations of a path are for it. -/
theorem path_of_mem_pathOperations {p : RelativePath} {draft : OperationId → Operation}
    (h : draft ∈ pathOperations (recordAt S p) (recordAt D p)) (id : OperationId) :
    (draft id).path = p := by
  have hupsert (s : IndexRecord) (update : Bool) : (upsertOperation id s update).path = s.path :=
    path_upsertOperation id s update
  have hS {s : IndexRecord} (hs : recordAt S p = some s) : s.path = p := (recordAt_eq_some hs).2
  have hD {d : IndexRecord} (hd : recordAt D p = some d) : d.path = p := (recordAt_eq_some hd).2
  cases hs : recordAt S p with
  | none =>
    cases hd : recordAt D p with
    | none =>
      rw [hs, hd] at h
      cases h
    | some d =>
      rw [hs, hd] at h
      obtain rfl := List.mem_singleton.1 h
      exact hD hd
  | some s =>
    cases hd : recordAt D p with
    | none =>
      rw [hs, hd] at h
      obtain rfl := List.mem_singleton.1 h
      exact (hupsert s false).trans (hS hs)
    | some d =>
      rw [hs, hd] at h
      unfold pathOperations at h
      simp only at h
      split at h
      · cases h
      · split at h
        · obtain rfl := List.mem_singleton.1 h
          exact (hupsert s _).trans (hS hs)
        · obtain rfl | h := List.mem_cons.1 h
          · exact hD hd
          · obtain rfl := List.mem_singleton.1 h
            exact (hupsert s _).trans (hS hs)

theorem length_pathOperations_le (a b : Option IndexRecord) : (pathOperations a b).length ≤ 2 := by
  unfold pathOperations
  repeat' split
  all_goals simp

/-- The paths of the operations: those of the indexes, each repeated for its operations. -/
theorem paths_pathwisePlan : (pathwisePlan S D).map Operation.path = (unionPaths S D).flatMap fun p =>
    List.replicate (pathOperations (recordAt S p) (recordAt D p)).length p := by
  have hpaths (n : UInt64) (paths : List RelativePath) :
      (number n (paths.flatMap fun p => pathOperations (recordAt S p) (recordAt D p))).map
        Operation.path = paths.flatMap fun p =>
          List.replicate (pathOperations (recordAt S p) (recordAt D p)).length p := by
    induction paths generalizing n with
    | nil => rfl
    | cons p paths ih =>
      rw [List.flatMap_cons, number_append, List.map_append, ih, List.flatMap_cons]
      refine congrArg (· ++ _) (List.eq_replicate_iff.2 ⟨?_, fun q hq => ?_⟩)
      · rw [List.length_map, length_number]
      · obtain ⟨operation, hop, rfl⟩ := List.mem_map.1 hq
        obtain ⟨draft, hdraft, id, rfl⟩ := exists_draft hop
        exact path_of_mem_pathOperations hdraft id
  exact hpaths 0 _

theorem count_flatMap_replicate_le {α : Type} [DecidableEq α] {l : List α} (hl : l.Nodup)
    (f : α → ℕ) (a : α) : (l.flatMap fun x => List.replicate (f x) x).count a ≤ f a := by
  induction l with
  | nil => exact Nat.zero_le _
  | cons x l ih =>
    obtain ⟨hx, hl⟩ := List.nodup_cons.1 hl
    rw [List.flatMap_cons, List.count_append, List.count_replicate]
    split
    · rename_i hxa
      obtain rfl := beq_iff_eq.1 hxa
      have hzero : (l.flatMap fun y => List.replicate (f y) y).count x = 0 := by
        refine List.count_eq_zero.2 fun hmem => ?_
        obtain ⟨y, hy, hxy⟩ := List.mem_flatMap.1 hmem
        obtain rfl := List.eq_of_mem_replicate hxy
        exact hx hy
      rw [hzero, Nat.add_zero]
    · rw [Nat.zero_add]
      exact ih hl

/-- A file upsert replaces the content of a file that the destination has at its path, or creates
one. -/
theorem update_iff {update : Bool} {id : OperationId} {r : IndexRecord} (hD : Increasing D)
    (h : .upsertFile update id r ∈ pathwisePlan S D) :
    update = true ↔ ∃ d ∈ D, d.path = r.path ∧ d.metadata.kind = .regularFile := by
  obtain ⟨draft, hdraft, id', heq⟩ := exists_draft h
  obtain ⟨p, -, hdraft⟩ := List.mem_flatMap.1 hdraft
  have hpath : r.path = p := by
    rw [← path_of_mem_pathOperations hdraft id', ← heq]
    rfl
  -- what the destination has at the path decides
  have hat : (∃ d ∈ D, d.path = r.path ∧ d.metadata.kind = .regularFile) ↔
      (recordAt D p).any (fun d => d.metadata.kind = .regularFile) = true := by
    rw [hpath]
    constructor
    · rintro ⟨d, hd, rfl, hkind⟩
      rw [recordAt_of_mem hD hd]
      simpa using hkind
    · intro hany
      cases hd : recordAt D p with
      | none =>
        rw [hd] at hany
        cases hany
      | some d =>
        rw [hd] at hany
        obtain ⟨hmem, hdp⟩ := recordAt_eq_some hd
        exact ⟨d, hmem, hdp, by simpa using hany⟩
  have hupsert (s : IndexRecord) (update' : Bool)
      (hs : Operation.upsertFile update id r = upsertOperation id' s update') :
      update = update' := by
    unfold upsertOperation at hs
    split at hs <;> cases hs
    rfl
  rw [hat]
  cases hs : recordAt S p with
  | none =>
    cases hd : recordAt D p with
    | none =>
      rw [hs, hd] at hdraft
      cases hdraft
    | some d =>
      rw [hs, hd] at hdraft
      obtain rfl := List.mem_singleton.1 hdraft
      cases heq
  | some s =>
    cases hd : recordAt D p with
    | none =>
      rw [hs, hd] at hdraft
      obtain rfl := List.mem_singleton.1 hdraft
      rw [hupsert s false heq]
      rfl
    | some d =>
      rw [hs, hd] at hdraft
      unfold pathOperations at hdraft
      simp only at hdraft
      split at hdraft
      · cases hdraft
      · split at hdraft
        · obtain rfl := List.mem_singleton.1 hdraft
          rw [hupsert s _ heq]
          rfl
        · obtain rfl | hdraft := List.mem_cons.1 hdraft
          · cases heq
          · obtain rfl := List.mem_singleton.1 hdraft
            rw [hupsert s _ heq]
            rfl

/-- **The planner's specification.**  On strictly increasing indexes that end, the planner returns
and sends exactly the planned operations.  A file upsert updates if and only if the destination has
a regular file at its path, the identifiers count from zero, the paths do not decrease, and no path
has more than two operations. -/
theorem plan_spec (hS : Increasing S) (hD : Increasing D) :
    plan (stream S) (stream D) = (pathwisePlan S D, .ok ()) ∧
      (∀ update id r, .upsertFile update id r ∈ pathwisePlan S D →
        (update = true ↔ ∃ d ∈ D, d.path = r.path ∧ d.metadata.kind = .regularFile)) ∧
      (pathwisePlan S D).map Operation.id =
        (List.range (pathwisePlan S D).length).map (fun k => ⟨UInt64.ofNat k⟩) ∧
      ((pathwisePlan S D).map Operation.path).Pairwise (· ≤ ·) ∧
      ∀ p, ((pathwisePlan S D).map Operation.path).count p ≤ 2 := by
  have hplan := plan_eq_pathwisePlan hS hD
  refine ⟨hplan, fun update id r h => update_iff hD h, ?_, ?_, fun p => ?_⟩
  · have hids := ids_operations (merge S D) 0
    have hops : operations (merge S D) 0 = pathwisePlan S D := by
      rw [plan_stream] at hplan
      exact (Prod.mk.inj hplan).1
    rw [hops] at hids
    have hmk (l : List Operation) :
        l.map Operation.id = (l.map fun o => o.id.get).map OperationId.mk := by
      rw [List.map_map]
      rfl
    rw [hmk, hids, idsFrom, List.map_map]
    refine List.map_congr_left fun k _ => ?_
    rw [Function.comp_apply, UInt64.zero_add]
  · rw [paths_pathwisePlan, List.flatMap_def, List.pairwise_flatten]
    refine ⟨fun l hl => ?_, ?_⟩
    · obtain ⟨p, -, rfl⟩ := List.mem_map.1 hl
      exact List.pairwise_replicate.2 (Or.inr le_rfl)
    · rw [List.pairwise_map]
      refine (Finset.pairwise_sort _ _).imp fun {p q} hpq x hx y hy => ?_
      rw [List.eq_of_mem_replicate hx, List.eq_of_mem_replicate hy]
      exact hpq
  · rw [paths_pathwisePlan]
    exact (count_flatMap_replicate_le (Finset.sort_nodup _ _) _ p).trans
      (length_pathOperations_le _ _)

end

/-- A file with the path of the directory. -/
def Sample.replacement : IndexRecord := { Sample.file with path := (Sample.directory 0o755).path }

/-- A file takes the place of a directory that the destination has. -/
theorem plan_spec_replacement :
    Increasing [Sample.replacement] ∧ Increasing [Sample.directory 0o755] ∧
      plan (stream [Sample.replacement]) (stream [Sample.directory 0o755]) =
        ([.delete ⟨0⟩ Sample.replacement.path .directory,
          .upsertFile false ⟨1⟩ Sample.replacement], .ok ()) := by
  have hS : Increasing [Sample.replacement] := List.pairwise_singleton _ _
  have hD : Increasing [Sample.directory 0o755] := List.pairwise_singleton _ _
  have hpaths : unionPaths [Sample.replacement] [Sample.directory 0o755] =
      [Sample.replacement.path] := by
    unfold unionPaths
    rw [show (([Sample.replacement] ++ [Sample.directory 0o755]).map IndexRecord.path).toFinset =
      {Sample.replacement.path} by decide, Finset.sort_singleton]
  refine ⟨hS, hD, (plan_spec hS hD).1.trans ?_⟩
  unfold pathwisePlan
  rw [hpaths]
  decide

end QuicSync
