import QuicSync.Error
import QuicSync.Protocol.Messages

/-!
# Merge planning

`plan` merges two ordered indexes into a stream of operations, with one record of lookahead on
each side.  It is an asynchronous task, so it is a machine here: `PlanState` holds the lookahead,
the next identifier and the reads and sends to do before the next round; `PlanState.run` runs it
on whole streams.

* `merge` pairs the records of two indexes by path and `operations` gives each pair its
  operations: this is what `plan` does on streams that end (`plan_stream`), whatever the records.
* `merge_*`: on strictly increasing indexes every path has one round, in increasing order.
-/

namespace QuicSync

namespace Planner

/-- An error of this module. -/
def failure (message : String) : QuicSyncError :=
  QuicSyncError.new .operationFailed (some .planning) (.text message)

end Planner

/-- What the planner does between two rounds. -/
inductive PlanEvent where
  | readSource
  | readDestination
  | send (operation : Operation)
  deriving DecidableEq

/-- The state of the planner. -/
structure PlanState where
  /-- The source record of lookahead. -/
  left : Option IndexRecord
  /-- The destination record of lookahead. -/
  right : Option IndexRecord
  /-- The next identifier. -/
  nextId : UInt64
  /-- What to do before the next round. -/
  todo : List PlanEvent

/-- The operation that installs a record. -/
def upsertOperation (id : OperationId) (record : IndexRecord) (update : Bool) : Operation :=
  match record.metadata.kind with
  | .directory => .upsertDirectory id record
  | .regularFile => .upsertFile update id record
  | .symlink => .upsertSymlink id record

/-- The operations for the records of the two sides at one path, and the next identifier. -/
def roundOperations (a b : Option IndexRecord) (nextId : UInt64) : List Operation × UInt64 :=
  if a = b then ([], nextId)
  else
    let update := b.any fun r => r.metadata.kind = .regularFile
    let (deletes, nextId) := match b with
      | some record =>
        if (a.map fun a => a.metadata.kind) ≠ some record.metadata.kind then
          ([Operation.delete ⟨nextId⟩ record.path record.metadata.kind], nextId + 1)
        else ([], nextId)
      | none => ([], nextId)
    match a with
    | some record => (deletes ++ [upsertOperation ⟨nextId⟩ record update], nextId + 1)
    | none => (deletes, nextId)

namespace PlanState

/-- Before the first round both sides are read. -/
def start : PlanState := ⟨none, none, 0, [.readSource, .readDestination]⟩

/-- The next round: the sides that are consumed, their operations, and reads to replace them.
Without lookahead on either side the planner returns. -/
def advance (s : PlanState) : Option PlanState :=
  let consume : Option (Bool × Bool) := match s.left, s.right with
    | some a, some b => some (a.path ≤ b.path, b.path ≤ a.path)
    | some _, none => some (true, false)
    | none, some _ => some (false, true)
    | none, none => none
  consume.map fun (consumeSource, consumeDestination) =>
    let a := if consumeSource then s.left else none
    let b := if consumeDestination then s.right else none
    let (operations, nextId) := roundOperations a b s.nextId
    { left := if consumeSource then none else s.left
      right := if consumeDestination then none else s.right
      nextId := nextId
      todo := operations.map .send ++ (if consumeSource then [.readSource] else []) ++
        if consumeDestination then [.readDestination] else [] }

/-- The record in an item, or none at the end.  A stream that closes has no item. -/
def read (item : Option IndexItem) : Except QuicSyncError (Option IndexRecord) :=
  match item with
  | none => .error (Planner.failure "index closed before End")
  | some (.error e) => .error e
  | some (.ok (.record record)) => .ok (some record)
  | some (.ok .end) => .ok none

theorem length_roundOperations (a b : Option IndexRecord) (n : UInt64) :
    (roundOperations a b n).1.length ≤ (if a.isSome then 1 else 0) + if b.isSome then 1 else 0 := by
  unfold roundOperations
  cases a <;> cases b <;> simp
  all_goals repeat' split
  all_goals simp

/-- What is left to do on given streams. -/
def size (s : PlanState) (source destination : List IndexItem) : ℕ :=
  5 * (source.length + destination.length + (if s.left.isSome then 1 else 0) +
    if s.right.isSome then 1 else 0) + s.todo.length

theorem size_advance {s s' : PlanState} (htodo : s.todo = []) (h : s.advance = some s')
    (source destination : List IndexItem) :
    s'.size source destination < s.size source destination := by
  have hlen (a b : Option IndexRecord) := length_roundOperations a b s.nextId
  unfold advance at h
  unfold size
  cases hl : s.left <;> cases hr : s.right <;> rw [hl, hr] at h <;>
    simp only [Option.map_none, Option.map_some, reduceCtorEq, Option.some.injEq] at h
  all_goals subst h
  · have := hlen none (some ‹_›)
    simp [htodo] at this ⊢
    omega
  · have := hlen (some ‹_›) none
    simp [htodo] at this ⊢
    omega
  · rename_i a b
    have h₁ := hlen (some a) (some b)
    have h₂ := hlen (some a) none
    have h₃ := hlen none (some b)
    have htotal := le_total a.path b.path
    by_cases hab : a.path ≤ b.path <;> by_cases hba : b.path ≤ a.path <;>
      simp [htodo, hab, hba] at h₁ h₂ h₃ htotal ⊢ <;> omega

/-- Run the planner on whole streams whose consumer takes everything: the operations sent and the
result. -/
def run (s : PlanState) (source destination : List IndexItem) :
    List Operation × Except QuicSyncError Unit :=
  match _htodo : s.todo with
  | [] =>
    match _h : s.advance with
    | none => ([], .ok ())
    | some s' => s'.run source destination
  | .send operation :: todo =>
    let (operations, result) := { s with todo := todo }.run source destination
    (operation :: operations, result)
  | .readSource :: todo =>
    match source with
    | [] => ([], (read none).map fun _ => ())
    | item :: source =>
      match read (some item) with
      | .error e => ([], .error e)
      | .ok left => { s with left := left, todo := todo }.run source destination
  | .readDestination :: todo =>
    match destination with
    | [] => ([], (read none).map fun _ => ())
    | item :: destination =>
      match read (some item) with
      | .error e => ([], .error e)
      | .ok right => { s with right := right, todo := todo }.run source destination
termination_by s.size source destination
decreasing_by
  · exact size_advance _htodo _h source destination
  · simp [size, _htodo]
  · simp only [size, _htodo, List.length_cons]
    split <;> split <;> omega
  · simp only [size, _htodo, List.length_cons]
    split <;> split <;> omega

end PlanState

/-- Plan on whole streams. -/
def plan (source destination : List IndexItem) : List Operation × Except QuicSyncError Unit :=
  PlanState.start.run source destination

/-! ### Rounds -/

/-- What the two indexes say about one path. -/
structure Round where
  path : RelativePath
  source : Option IndexRecord
  destination : Option IndexRecord
  deriving DecidableEq

/-- Pair the records of two indexes by path. -/
def merge : List IndexRecord → List IndexRecord → List Round
  | [], [] => []
  | a :: l, [] => ⟨a.path, some a, none⟩ :: merge l []
  | [], b :: r => ⟨b.path, none, some b⟩ :: merge [] r
  | a :: l, b :: r =>
    if a.path ≤ b.path then
      if b.path ≤ a.path then ⟨a.path, some a, some b⟩ :: merge l r
      else ⟨a.path, some a, none⟩ :: merge l (b :: r)
    else ⟨b.path, none, some b⟩ :: merge (a :: l) r
termination_by l r => l.length + r.length

/-- The operations of rounds, with identifiers from `n` on. -/
def operations : List Round → UInt64 → List Operation
  | [], _ => []
  | r :: rounds, n =>
    (roundOperations r.source r.destination n).1 ++
      operations rounds (roundOperations r.source r.destination n).2

/-- The items of a complete index stream. -/
def stream (records : List IndexRecord) : List IndexItem :=
  records.map (fun r => .ok (.record r)) ++ [.ok .end]

/-- What is left of a stream behind the lookahead. -/
def behind : List IndexRecord → List IndexItem
  | [] => []
  | _ :: records => stream records

theorem behind_cons (r : IndexRecord) (records : List IndexRecord) :
    behind (r :: records) = stream records := rfl

namespace PlanState

variable {left right : Option IndexRecord} {n : UInt64} {todo : List PlanEvent}

theorem run_send (operation : Operation) (source destination : List IndexItem) :
    run ⟨left, right, n, .send operation :: todo⟩ source destination =
      (operation :: (run ⟨left, right, n, todo⟩ source destination).1,
        (run ⟨left, right, n, todo⟩ source destination).2) := by
  rw [run]

theorem run_sends (ops : List Operation) (source destination : List IndexItem) :
    run ⟨left, right, n, ops.map .send ++ todo⟩ source destination =
      (ops ++ (run ⟨left, right, n, todo⟩ source destination).1,
        (run ⟨left, right, n, todo⟩ source destination).2) := by
  induction ops with
  | nil => rfl
  | cons op ops ih =>
    rw [List.map_cons, List.cons_append, run_send, ih]
    rfl

theorem run_readSource (records : List IndexRecord) (destination : List IndexItem) :
    run ⟨left, right, n, .readSource :: todo⟩ (stream records) destination =
      run ⟨records.head?, right, n, todo⟩ (behind records) destination := by
  rw [run]
  cases records <;> rfl

theorem run_readDestination (source : List IndexItem) (records : List IndexRecord) :
    run ⟨left, right, n, .readDestination :: todo⟩ source (stream records) =
      run ⟨left, records.head?, n, todo⟩ source (behind records) := by
  rw [run]
  cases records <;> rfl

theorem run_advance {s : PlanState} (source destination : List IndexItem)
    (h : advance ⟨left, right, n, []⟩ = some s) :
    run ⟨left, right, n, []⟩ source destination = s.run source destination := by
  rw [run]
  simp only
  split
  · rename_i h'
    rw [h] at h'
    cases h'
  · rename_i h'
    rw [h] at h'
    cases h'
    rfl

theorem advance_source {a : IndexRecord} (h : ∀ b ∈ right, a.path < b.path) :
    advance ⟨some a, right, n, []⟩ = some ⟨none, right, (roundOperations (some a) none n).2,
      (roundOperations (some a) none n).1.map .send ++ [.readSource]⟩ := by
  cases right with
  | none => simp [advance]
  | some b =>
    have hab := h b rfl
    simp [advance, hab.le, not_le.2 hab]

theorem advance_destination {b : IndexRecord} (h : ∀ a ∈ left, b.path < a.path) :
    advance ⟨left, some b, n, []⟩ = some ⟨left, none, (roundOperations none (some b) n).2,
      (roundOperations none (some b) n).1.map .send ++ [.readDestination]⟩ := by
  cases left with
  | none => simp [advance]
  | some a =>
    have hba := h a rfl
    simp [advance, hba.le, not_le.2 hba]

theorem advance_both {a b : IndexRecord} (h : a.path = b.path) :
    advance ⟨some a, some b, n, []⟩ = some ⟨none, none, (roundOperations (some a) (some b) n).2,
      (roundOperations (some a) (some b) n).1.map .send ++ [.readSource, .readDestination]⟩ := by
  simp [advance, h]

/-- The machine between rounds computes the operations of the rounds that are left. -/
theorem run_merge (S D : List IndexRecord) (n : UInt64) :
    run ⟨S.head?, D.head?, n, []⟩ (behind S) (behind D) = (operations (merge S D) n, .ok ()) := by
  induction S, D using merge.induct generalizing n with
  | case1 =>
    rw [run, merge]
    rfl
  | case2 a l ih =>
    rw [merge, List.head?_cons, run_advance _ _ (advance_source (by simp)), run_sends,
      behind_cons, run_readSource, ih]
    rfl
  | case3 b r ih =>
    rw [merge, List.head?_cons, run_advance _ _ (advance_destination (by simp)), run_sends,
      behind_cons, run_readDestination, ih]
    rfl
  | case4 a l b r hab hba ih =>
    rw [merge, if_pos hab, if_pos hba, List.head?_cons, List.head?_cons,
      run_advance _ _ (advance_both (le_antisymm hab hba)), run_sends, behind_cons, behind_cons,
      run_readSource, run_readDestination, ih]
    rfl
  | case5 a l b r hab hba ih =>
    have hlt : ∀ b' ∈ some b, a.path < b'.path := by simpa using not_le.1 hba
    rw [merge, if_pos hab, if_neg hba, List.head?_cons, List.head?_cons,
      run_advance _ _ (advance_source hlt), run_sends, behind_cons a, run_readSource,
      ← List.head?_cons (a := b) (l := r), ih]
    rfl
  | case6 a l b r hab ih =>
    have hlt : ∀ a' ∈ some a, b.path < a'.path := by simpa using not_le.1 hab
    rw [merge, if_neg hab, List.head?_cons, List.head?_cons,
      run_advance _ _ (advance_destination hlt), run_sends, behind_cons b, run_readDestination,
      ← List.head?_cons (a := a) (l := l), ih]
    rfl

end PlanState

/-- **On complete streams the planner accepts every sequence of records** and sends the operations
of their rounds. -/
theorem plan_stream (S D : List IndexRecord) :
    plan (stream S) (stream D) = (operations (merge S D) 0, .ok ()) := by
  unfold plan PlanState.start
  rw [PlanState.run_readSource, PlanState.run_readDestination, PlanState.run_merge]

/-! ### Where operations come from -/

theorem mem_of_mem_merge {S D : List IndexRecord} {r : Round} (h : r ∈ merge S D) :
    (∀ a ∈ r.source, a ∈ S) ∧ ∀ b ∈ r.destination, b ∈ D := by
  induction S, D using merge.induct with
  | case1 =>
    rw [merge] at h
    cases h
  | case2 a l ih =>
    rw [merge] at h
    obtain rfl | h := List.mem_cons.1 h
    · simp
    · exact ⟨fun x hx => List.mem_cons_of_mem _ ((ih h).1 x hx), (ih h).2⟩
  | case3 b r' ih =>
    rw [merge] at h
    obtain rfl | h := List.mem_cons.1 h
    · simp
    · exact ⟨(ih h).1, fun x hx => List.mem_cons_of_mem _ ((ih h).2 x hx)⟩
  | case4 a l b r' hab hba ih =>
    rw [merge, if_pos hab, if_pos hba] at h
    obtain rfl | h := List.mem_cons.1 h
    · simp
    · exact ⟨fun x hx => List.mem_cons_of_mem _ ((ih h).1 x hx),
        fun x hx => List.mem_cons_of_mem _ ((ih h).2 x hx)⟩
  | case5 a l b r' hab hba ih =>
    rw [merge, if_pos hab, if_neg hba] at h
    obtain rfl | h := List.mem_cons.1 h
    · simp
    · exact ⟨fun x hx => List.mem_cons_of_mem _ ((ih h).1 x hx), (ih h).2⟩
  | case6 a l b r' hab ih =>
    rw [merge, if_neg hab] at h
    obtain rfl | h := List.mem_cons.1 h
    · simp
    · exact ⟨(ih h).1, fun x hx => List.mem_cons_of_mem _ ((ih h).2 x hx)⟩

theorem mem_operations {rounds : List Round} {n : UInt64} {operation : Operation}
    (h : operation ∈ operations rounds n) :
    ∃ r ∈ rounds, ∃ m, operation ∈ (roundOperations r.source r.destination m).1 := by
  induction rounds generalizing n with
  | nil => cases h
  | cons r rounds ih =>
    obtain h | h := List.mem_append.1 h
    · exact ⟨r, List.mem_cons_self, n, h⟩
    · obtain ⟨r', hr', hm⟩ := ih h
      exact ⟨r', List.mem_cons_of_mem _ hr', hm⟩

/-- The operations of a round upsert the source's record or delete the destination's. -/
theorem mem_roundOperations {a b : Option IndexRecord} {n : UInt64} {operation : Operation}
    (h : operation ∈ (roundOperations a b n).1) :
    (∃ r ∈ a, ∃ id update, operation = upsertOperation id r update) ∨
      ∃ r ∈ b, ∃ id, operation = .delete id r.path r.metadata.kind := by
  unfold roundOperations at h
  split at h
  · cases h
  · cases a with
    | none =>
      cases b with
      | none => cases h
      | some r =>
        simp only [Option.map_none, ne_eq, reduceCtorEq, not_false_eq_true, if_true,
          List.mem_singleton] at h
        exact Or.inr ⟨r, rfl, _, h⟩
    | some r =>
      obtain h | h := List.mem_append.1 h
      · cases b with
        | none => cases h
        | some r' =>
          simp only at h
          split at h
          · exact Or.inr ⟨r', rfl, _, List.mem_singleton.1 h⟩
          · cases h
      · exact Or.inl ⟨r, rfl, _, _, List.mem_singleton.1 h⟩

/-- An operation of a plan upserts a record of the source or deletes one of the destination. -/
theorem plan_origin {S D : List IndexRecord} {operation : Operation}
    (h : operation ∈ (plan (stream S) (stream D)).1) :
    (∃ a ∈ S, ∃ id update, operation = upsertOperation id a update) ∨
      ∃ b ∈ D, ∃ id, operation = .delete id b.path b.metadata.kind := by
  rw [plan_stream] at h
  obtain ⟨r, hr, m, h⟩ := mem_operations h
  obtain ⟨hsource, hdestination⟩ := mem_of_mem_merge hr
  obtain ⟨a, ha, h⟩ | ⟨b, hb, h⟩ := mem_roundOperations h
  · exact Or.inl ⟨a, hsource a ha, h⟩
  · exact Or.inr ⟨b, hdestination b hb, h⟩

/-! ### Rounds of strictly increasing indexes -/

/-- The record of an index at a path. -/
def recordAt (records : List IndexRecord) (path : RelativePath) : Option IndexRecord :=
  records.find? fun r => r.path = path

/-- The paths of an index strictly increase. -/
def Increasing (records : List IndexRecord) : Prop := records.Pairwise fun a b => a.path < b.path

theorem recordAt_of_mem {S : List IndexRecord} (hS : Increasing S) {r : IndexRecord} (hr : r ∈ S) :
    recordAt S r.path = some r := by
  induction S with
  | nil => cases hr
  | cons a S ih =>
    obtain ⟨ha, hS⟩ := List.pairwise_cons.1 hS
    obtain rfl | hr := List.mem_cons.1 hr
    · exact List.find?_cons_of_pos (by simp)
    · rw [recordAt, List.find?_cons_of_neg (by simpa using (ha r hr).ne)]
      exact ih hS hr

theorem recordAt_eq_some {S : List IndexRecord} {p : RelativePath} {r : IndexRecord}
    (h : recordAt S p = some r) : r ∈ S ∧ r.path = p :=
  ⟨List.mem_of_find?_eq_some h, by simpa using List.find?_some h⟩

theorem recordAt_cons {a : IndexRecord} {S : List IndexRecord} {p : RelativePath} :
    recordAt (a :: S) p = if a.path = p then some a else recordAt S p := by
  unfold recordAt
  rw [List.find?_cons]
  split <;> simp_all

/-- The round of two indexes at a path. -/
def roundAt (S D : List IndexRecord) (p : RelativePath) : Round :=
  ⟨p, recordAt S p, recordAt D p⟩

theorem recordAt_of_lt {S : List IndexRecord} {p : RelativePath} (h : ∀ r ∈ S, p < r.path) :
    recordAt S p = none :=
  List.find?_eq_none.2 fun r hr => by simpa using (h r hr).ne'

/-- What the first round of a merge is, and what is left for the others. -/
structure NextRound (S D : List IndexRecord) (r : Round) (S' D' : List IndexRecord) : Prop where
  merge_eq : merge S D = r :: merge S' D'
  shorter : S'.length + D'.length < S.length + D.length
  source_increasing : Increasing S'
  destination_increasing : Increasing D'
  source_lt : ∀ a ∈ S', r.path < a.path
  destination_lt : ∀ b ∈ D', r.path < b.path
  round_eq : r = roundAt S D r.path
  nonempty : r.source ≠ none ∨ r.destination ≠ none
  source_rest : ∀ p ≠ r.path, recordAt S p = recordAt S' p
  destination_rest : ∀ p ≠ r.path, recordAt D p = recordAt D' p

theorem recordAt_cons_ne {a : IndexRecord} {S : List IndexRecord} {p : RelativePath}
    (h : p ≠ a.path) : recordAt (a :: S) p = recordAt S p := by
  rw [recordAt_cons, if_neg h.symm]

theorem recordAt_cons_self (a : IndexRecord) (S : List IndexRecord) :
    recordAt (a :: S) a.path = some a := by
  rw [recordAt_cons, if_pos rfl]

theorem exists_nextRound {S D : List IndexRecord} (hS : Increasing S) (hD : Increasing D)
    (hne : S ≠ [] ∨ D ≠ []) : ∃ r S' D', NextRound S D r S' D' := by
  have hlt {a : IndexRecord} {l : List IndexRecord} (h : Increasing (a :: l)) :
      ∀ b ∈ l, a.path < b.path := (List.pairwise_cons.1 h).1
  have htail {a : IndexRecord} {l : List IndexRecord} (h : Increasing (a :: l)) : Increasing l :=
    (List.pairwise_cons.1 h).2
  -- records behind a path that is before the first one
  have hall {p : RelativePath} {b : IndexRecord} {r : List IndexRecord} (hp : p < b.path)
      (h : Increasing (b :: r)) : ∀ c ∈ b :: r, p < c.path := by
    intro c hc
    obtain rfl | hc := List.mem_cons.1 hc
    · exact hp
    · exact hp.trans (hlt h c hc)
  match S, D with
  | [], [] => simp at hne
  | a :: l, [] =>
    refine ⟨⟨a.path, some a, none⟩, l, [], by rw [merge], by simp, htail hS, hD, hlt hS, by simp,
      ?_, Or.inl (by simp), fun p hp => recordAt_cons_ne hp, fun p hp => rfl⟩
    rw [roundAt, recordAt_cons_self]
    rfl
  | [], b :: r =>
    refine ⟨⟨b.path, none, some b⟩, [], r, by rw [merge], by simp, hS, htail hD, by simp, hlt hD,
      ?_, Or.inr (by simp), fun p hp => rfl, fun p hp => recordAt_cons_ne hp⟩
    rw [roundAt, recordAt_cons_self]
    rfl
  | a :: l, b :: r =>
    obtain h | h | h := lt_trichotomy a.path b.path
    · refine ⟨⟨a.path, some a, none⟩, l, b :: r, ?_, by simp, htail hS, hD, hlt hS, hall h hD,
        ?_, Or.inl (by simp), fun p hp => recordAt_cons_ne hp, fun p hp => rfl⟩
      · rw [merge, if_pos h.le, if_neg (not_le.2 h)]
      · rw [roundAt, recordAt_cons_self, recordAt_of_lt (hall h hD)]
    · refine ⟨⟨a.path, some a, some b⟩, l, r, ?_, by simp; omega, htail hS, htail hD, hlt hS,
        fun c hc => h ▸ hlt hD c hc, ?_, Or.inl (by simp), fun p hp => recordAt_cons_ne hp,
        fun p hp => recordAt_cons_ne (h ▸ hp)⟩
      · rw [merge, if_pos h.le, if_pos h.ge]
      · rw [roundAt, recordAt_cons_self]
        rw [h, recordAt_cons_self]
    · refine ⟨⟨b.path, none, some b⟩, a :: l, r, ?_, by simp, hS, htail hD, hall h hS, hlt hD,
        ?_, Or.inr (by simp), fun p hp => rfl, fun p hp => recordAt_cons_ne hp⟩
      · rw [merge, if_neg (not_le.2 h)]
      · rw [roundAt, recordAt_cons_self, recordAt_of_lt (hall h hS)]

/-- Induction over the rounds of two increasing indexes. -/
theorem merge_induction {motive : List IndexRecord → List IndexRecord → Prop}
    (nil : motive [] [])
    (next : ∀ S D r S' D', NextRound S D r S' D' → motive S' D' → motive S D)
    (S D : List IndexRecord) (hS : Increasing S) (hD : Increasing D) : motive S D := by
  induction hn : S.length + D.length using Nat.strong_induction_on generalizing S D with
  | _ n ih =>
    by_cases hne : S ≠ [] ∨ D ≠ []
    · obtain ⟨r, S', D', h⟩ := exists_nextRound hS hD hne
      exact next S D r S' D' h (ih _ (hn ▸ h.shorter) S' D' h.source_increasing
        h.destination_increasing rfl)
    · obtain ⟨rfl, rfl⟩ : S = [] ∧ D = [] := by simpa using hne
      exact nil

/-- The records of a path below all the records are those of no round. -/
theorem lt_of_mem_merge {S D : List IndexRecord} (hS : Increasing S) (hD : Increasing D)
    {p : RelativePath} (hpS : ∀ a ∈ S, p < a.path) (hpD : ∀ b ∈ D, p < b.path) :
    ∀ r ∈ merge S D, p < r.path := by
  revert hpS hpD
  refine merge_induction (motive := fun S D => (∀ a ∈ S, p < a.path) → (∀ b ∈ D, p < b.path) →
    ∀ r ∈ merge S D, p < r.path) ?_ ?_ S D hS hD
  · intro _ _ r hr
    rw [merge] at hr
    cases hr
  · intro S D r S' D' h ih hpS hpD r' hr'
    have hr : p < r.path := by
      have hround := h.round_eq
      obtain hsome | hsome := h.nonempty
      · obtain ⟨a, ha⟩ := Option.ne_none_iff_exists'.1 hsome
        rw [hround] at ha
        obtain ⟨hmem, hpath⟩ := recordAt_eq_some ha
        exact hpath ▸ hpS a hmem
      · obtain ⟨b, hb⟩ := Option.ne_none_iff_exists'.1 hsome
        rw [hround] at hb
        obtain ⟨hmem, hpath⟩ := recordAt_eq_some hb
        exact hpath ▸ hpD b hmem
    rw [h.merge_eq, List.mem_cons] at hr'
    obtain rfl | hr' := hr'
    · exact hr
    · exact ih (fun a ha => hr.trans (h.source_lt a ha))
        (fun b hb => hr.trans (h.destination_lt b hb)) r' hr'

/-- The paths of the rounds strictly increase. -/
theorem merge_increasing {S D : List IndexRecord} (hS : Increasing S) (hD : Increasing D) :
    (merge S D).Pairwise fun a b => a.path < b.path := by
  refine merge_induction (motive := fun S D => (merge S D).Pairwise fun a b => a.path < b.path)
    ?_ ?_ S D hS hD
  · rw [merge]
    exact .nil
  · intro S D r S' D' h ih
    rw [h.merge_eq]
    refine List.pairwise_cons.2 ⟨?_, ih⟩
    exact lt_of_mem_merge h.source_increasing h.destination_increasing h.source_lt h.destination_lt

/-- A round says what the indexes say about its path, and some index has a record there. -/
theorem mem_merge {S D : List IndexRecord} (hS : Increasing S) (hD : Increasing D) {r : Round} :
    r ∈ merge S D ↔ r = roundAt S D r.path ∧ (r.source ≠ none ∨ r.destination ≠ none) := by
  revert r
  refine merge_induction (motive := fun S D => ∀ {r : Round}, r ∈ merge S D ↔
    r = roundAt S D r.path ∧ (r.source ≠ none ∨ r.destination ≠ none)) ?_ ?_ S D hS hD
  · intro r
    rw [merge]
    simp only [List.not_mem_nil, false_iff, not_and, not_or, not_not]
    intro hr
    rw [hr]
    exact ⟨rfl, rfl⟩
  · intro S D r S' D' h ih r'
    rw [h.merge_eq, List.mem_cons]
    by_cases hpath : r'.path = r.path
    · constructor
      · rintro (rfl | hr')
        · exact ⟨h.round_eq, h.nonempty⟩
        · have hlt := lt_of_mem_merge h.source_increasing h.destination_increasing h.source_lt
            h.destination_lt r' hr'
          exact absurd hpath hlt.ne'
      · rintro ⟨hr', -⟩
        refine Or.inl ?_
        rw [hr', h.round_eq, hpath]
    · have hround : roundAt S' D' r'.path = roundAt S D r'.path := by
        unfold roundAt
        rw [h.source_rest _ hpath, h.destination_rest _ hpath]
      rw [ih, hround]
      constructor
      · rintro (rfl | h')
        · exact absurd rfl hpath
        · exact h'
      · exact Or.inr

end QuicSync
