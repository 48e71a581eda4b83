import QuicSync.Sync.Requesting

/-!
# The planner step by step

In a session the planner reads and sends one item at a time, and other tasks run in between.
`PlanState.Tracks` ties a state of the planner to what it has read and sent so far: on any
continuation of the two streams the whole plan is what has been sent, followed by what the state
goes on to send.  It holds at the start and is kept by each read, send and round (`Tracks.start`,
`.readSource`, `.readDestination`, `.send`, `.advance`).

`Tracks.complete`: a planner that has nothing left to do has read both streams up to their end and
has sent the plan for them.
-/

namespace QuicSync

/-- Records of a stream that goes on. -/
def items (records : List IndexRecord) : List IndexItem := records.map fun r => .ok (.record r)

theorem items_append (records : List IndexRecord) (r : IndexRecord) :
    items records ++ [.ok (.record r)] = items (records ++ [r]) := by
  simp [items]

namespace PlanState

/-- What has been read of one side, with the lookahead it gave and whether a read is to come. -/
def Side (reads : Bool) (lookahead : Option IndexRecord) (read : List IndexItem) : Prop :=
  (∃ records, read = items records ∧ (lookahead.isSome = true ∨ reads = true)) ∨
    ∃ records, read = stream records ∧ lookahead = none ∧ reads = false

/-- A state of the planner, with what it has read and sent. -/
structure Tracks (p : PlanState) (source destination : List IndexItem) (sent : List Operation) :
    Prop where
  replay : ∀ source' destination', plan (source ++ source') (destination ++ destination') =
    (sent ++ (p.run source' destination').1, (p.run source' destination').2)
  shape : ∃ (operations : List Operation) (readsSource readsDestination : Bool),
    p.todo = operations.map .send ++ (if readsSource then [.readSource] else []) ++
      (if readsDestination then [.readDestination] else []) ∧
    Side readsSource p.left source ∧ Side readsDestination p.right destination ∧
    (sent ++ operations).map (fun o => o.id.get) = idsFrom 0 (sent ++ operations).length ∧
    p.nextId = UInt64.ofNat (sent ++ operations).length

variable {p p' : PlanState} {source destination : List IndexItem} {sent : List Operation}
  {todo : List PlanEvent}

theorem Side.item {lookahead : Option IndexRecord} {read : List IndexItem} {item : IndexItem}
    {next : Option IndexRecord} (h : Side true lookahead read)
    (hread : PlanState.read (some item) = .ok next) : Side false next (read ++ [item]) := by
  obtain ⟨records, rfl, -⟩ | ⟨_, _, _, hreads⟩ := h
  · match item, hread with
    | .ok (.record r), hread =>
      cases hread
      exact Or.inl ⟨records ++ [r], items_append records r, Or.inl rfl⟩
    | .ok .end, hread =>
      cases hread
      exact Or.inr ⟨records, rfl, rfl, rfl⟩
    | .error e, hread => cases hread
  · cases hreads

theorem Side.consume {lookahead : Option IndexRecord} {read : List IndexItem}
    (h : Side false lookahead read) (hsome : lookahead.isSome = true) : Side true none read := by
  obtain ⟨records, rfl, -⟩ | ⟨_, _, hnone, _⟩ := h
  · exact Or.inl ⟨records, rfl, Or.inr rfl⟩
  · rw [hnone] at hsome
    cases hsome

theorem Side.ended {read : List IndexItem} (h : Side false none read) :
    ∃ records, read = stream records := by
  obtain ⟨_, _, h | h⟩ | ⟨records, hread, -⟩ := h
  · cases h
  · cases h
  · exact ⟨records, hread⟩

/-! ### Each step -/

theorem Tracks.start : Tracks start [] [] [] where
  replay := fun _ _ => rfl
  shape := ⟨[], true, true, rfl, Or.inl ⟨[], rfl, Or.inr rfl⟩, Or.inl ⟨[], rfl, Or.inr rfl⟩, rfl, rfl⟩

theorem Tracks.send {operation : Operation} (h : Tracks p source destination sent)
    (htodo : p.todo = .send operation :: todo) :
    Tracks { p with todo := todo } source destination (sent ++ [operation]) := by
  obtain ⟨left, right, nextId, _⟩ := p
  obtain rfl : _ = _ := htodo
  refine ⟨fun source' destination' => ?_, ?_⟩
  · rw [h.replay, run_send, List.append_assoc]
    rfl
  · obtain ⟨operations, readsSource, readsDestination, hshape, hsource, hdestination, hids, hnext⟩ :=
      h.shape
    cases operations with
    | cons operation' operations =>
      obtain ⟨hop, hrest⟩ := List.cons.inj hshape
      obtain rfl := PlanEvent.send.inj hop
      refine ⟨operations, readsSource, readsDestination, hrest, hsource, hdestination, ?_, ?_⟩
      · rw [List.append_assoc]
        exact hids
      · rw [List.append_assoc]
        exact hnext
    | nil =>
      cases readsSource with
      | true => cases hshape
      | false =>
        cases readsDestination with
        | true => cases hshape
        | false => cases hshape

theorem Tracks.readSource {item : IndexItem} {left : Option IndexRecord}
    (h : Tracks p source destination sent) (htodo : p.todo = .readSource :: todo)
    (hread : PlanState.read (some item) = .ok left) :
    Tracks { p with left := left, todo := todo } (source ++ [item]) destination sent := by
  obtain ⟨left₀, right, nextId, _⟩ := p
  obtain rfl : _ = _ := htodo
  refine ⟨fun source' destination' => ?_, ?_⟩
  · have hrun : run ⟨left₀, right, nextId, .readSource :: todo⟩ (item :: source') destination' =
        run ⟨left, right, nextId, todo⟩ source' destination' := by
      rw [run]
      simp only [hread]
    rw [List.append_assoc, List.singleton_append, h.replay, hrun]
  · obtain ⟨operations, readsSource, readsDestination, hshape, hsource, hdestination, hids, hnext⟩ :=
      h.shape
    cases operations with
    | cons _ operations => cases hshape
    | nil =>
      cases readsSource with
      | true =>
        have hrest := (List.cons.inj hshape).2
        exact ⟨[], false, readsDestination, hrest, hsource.item hread, hdestination, hids, hnext⟩
      | false =>
        cases readsDestination with
        | true => cases hshape
        | false => cases hshape

theorem Tracks.readDestination {item : IndexItem} {right : Option IndexRecord}
    (h : Tracks p source destination sent) (htodo : p.todo = .readDestination :: todo)
    (hread : PlanState.read (some item) = .ok right) :
    Tracks { p with right := right, todo := todo } source (destination ++ [item]) sent := by
  obtain ⟨left, right₀, nextId, _⟩ := p
  obtain rfl : _ = _ := htodo
  refine ⟨fun source' destination' => ?_, ?_⟩
  · have hrun : run ⟨left, right₀, nextId, .readDestination :: todo⟩ source' (item :: destination') =
        run ⟨left, right, nextId, todo⟩ source' destination' := by
      rw [run]
      simp only [hread]
    rw [List.append_assoc, List.singleton_append, h.replay, hrun]
  · obtain ⟨operations, readsSource, readsDestination, hshape, hsource, hdestination, hids, hnext⟩ :=
      h.shape
    cases operations with
    | cons _ operations => cases hshape
    | nil =>
      cases readsSource with
      | true => cases hshape
      | false =>
        cases readsDestination with
        | true =>
          have hrest := (List.cons.inj hshape).2
          exact ⟨[], false, false, hrest, hsource, hdestination.item hread, hids, hnext⟩
        | false => cases hshape

/-- What a round does: it consumes sides that have a record. -/
theorem advance_eq_some (h : p.advance = some p') : ∃ consumeSource consumeDestination : Bool,
    (consumeSource = true → p.left.isSome = true) ∧
    (consumeDestination = true → p.right.isSome = true) ∧
    p'.left = (if consumeSource then none else p.left) ∧
    p'.right = (if consumeDestination then none else p.right) ∧
    ∃ a b, p'.nextId = (roundOperations a b p.nextId).2 ∧
      p'.todo = (roundOperations a b p.nextId).1.map .send ++
        (if consumeSource then [.readSource] else []) ++
        (if consumeDestination then [.readDestination] else []) := by
  unfold advance at h
  simp only at h
  obtain ⟨⟨consumeSource, consumeDestination⟩, hconsume, rfl⟩ := Option.map_eq_some_iff.1 h
  refine ⟨consumeSource, consumeDestination, ?_, ?_, rfl, rfl, _, _, rfl, rfl⟩
  · rintro rfl
    cases hleft : p.left with
    | some a => rfl
    | none =>
      rw [hleft] at hconsume
      cases hright : p.right <;> rw [hright] at hconsume <;> cases hconsume
  · rintro rfl
    cases hright : p.right with
    | some b => rfl
    | none =>
      rw [hright] at hconsume
      cases hleft : p.left <;> rw [hleft] at hconsume <;> cases hconsume

theorem advance_eq_none (h : p.advance = none) : p.left = none ∧ p.right = none := by
  unfold advance at h
  rw [Option.map_eq_none_iff] at h
  cases hleft : p.left with
  | some a => cases hright : p.right <;> rw [hleft, hright] at h <;> cases h
  | none =>
    cases hright : p.right with
    | some b =>
      rw [hleft, hright] at h
      cases h
    | none => exact ⟨rfl, rfl⟩

/-- With nothing to do, nothing is to be read or sent. -/
theorem Tracks.idle (h : Tracks p source destination sent) (htodo : p.todo = []) :
    Side false p.left source ∧ Side false p.right destination ∧
      sent.map (fun o => o.id.get) = idsFrom 0 sent.length ∧
      p.nextId = UInt64.ofNat sent.length := by
  obtain ⟨operations, readsSource, readsDestination, hshape, hsource, hdestination, hids, hnext⟩ :=
    h.shape
  rw [htodo, eq_comm, List.append_eq_nil_iff, List.append_eq_nil_iff, List.map_eq_nil_iff] at hshape
  obtain ⟨⟨rfl, hreadsSource⟩, hreadsDestination⟩ := hshape
  rw [List.append_nil] at hids hnext
  cases readsSource with
  | true => cases hreadsSource
  | false =>
    cases readsDestination with
    | true => cases hreadsDestination
    | false => exact ⟨hsource, hdestination, hids, hnext⟩

theorem Tracks.advance (h : Tracks p source destination sent) (htodo : p.todo = [])
    (hadvance : p.advance = some p') : Tracks p' source destination sent := by
  refine ⟨fun source' destination' => ?_, ?_⟩
  · obtain ⟨left, right, nextId, _⟩ := p
    obtain rfl : _ = _ := htodo
    rw [h.replay, run_advance _ _ hadvance]
  · obtain ⟨hsource, hdestination, hids, hnext⟩ := h.idle htodo
    obtain ⟨consumeSource, consumeDestination, hleft, hright, hleft', hright', a, b, hnext', htodo'⟩ :=
      advance_eq_some hadvance
    obtain ⟨hround, hroundNext⟩ := ids_roundOperations a b p.nextId
    refine ⟨_, consumeSource, consumeDestination, htodo', ?_, ?_, ?_, ?_⟩
    · cases consumeSource with
      | true =>
        rw [hleft']
        exact hsource.consume (hleft rfl)
      | false =>
        rw [hleft']
        exact hsource
    · cases consumeDestination with
      | true =>
        rw [hright']
        exact hdestination.consume (hright rfl)
      | false =>
        rw [hright']
        exact hdestination
    · rw [List.map_append, hids, hround, List.length_append, idsFrom_add, hnext, UInt64.zero_add]
    · rw [hnext', hroundNext, hnext, List.length_append, UInt64.ofNat_add]

/-- The identifiers of what has been sent are consecutive. -/
theorem Tracks.ids (h : Tracks p source destination sent) :
    sent.map (fun o => o.id.get) = idsFrom 0 sent.length := by
  obtain ⟨operations, _, _, -, -, -, hids, -⟩ := h.shape
  rw [List.map_append, List.length_append, idsFrom_add] at hids
  refine (List.append_inj hids ?_).1
  simp [idsFrom]

/-- **A planner that is done has read both streams to their end** and has sent their plan. -/
theorem Tracks.complete (h : Tracks p source destination sent) (htodo : p.todo = [])
    (hadvance : p.advance = none) : ∃ S D, source = stream S ∧ destination = stream D ∧
      sent = operations (merge S D) 0 := by
  obtain ⟨hleft, hright⟩ := advance_eq_none hadvance
  obtain ⟨hsource, hdestination, -, -⟩ := h.idle htodo
  rw [hleft] at hsource
  rw [hright] at hdestination
  obtain ⟨S, rfl⟩ := hsource.ended
  obtain ⟨D, rfl⟩ := hdestination.ended
  have hrun : p.run [] [] = ([], .ok ()) := by
    obtain ⟨left, right, nextId, _⟩ := p
    obtain rfl : _ = _ := htodo
    obtain rfl : left = none := hleft
    obtain rfl : right = none := hright
    rw [run]
    rfl
  have hplan := h.replay [] []
  rw [List.append_nil, List.append_nil, hrun, List.append_nil, plan_stream] at hplan
  exact ⟨S, D, rfl, rfl, (Prod.mk.inj hplan).1.symm⟩

end PlanState

end QuicSync
