import QuicSync.Filesystem.Scan
import QuicSync.Sync.PlanRun

/-!
# Interrupted indexes

The planner sends operations while its inputs are still open, so an input may be cut off when
operations for it have been sent: its producer is dropped, or reports an error.

* `PlanState.Tracks.stops`: where a planner stops, and what it has read and sent by then.
* `plan_interrupted`: a planner with an input that is cut off fails, with the error of that input,
  and what it has sent is the start of what it sends for the complete inputs.
-/

namespace QuicSync

/-- The first records of an index, and then an error item with anything behind it or, without one,
the end of the channel. -/
def Cut (records : List IndexRecord) (error : Option QuicSyncError) (input : List IndexItem) : Prop :=
  ∃ k rest, input = items (records.take k) ++ error.elim [] fun e => .error e :: rest

/-- The error for an input that has been cut off: the error item, or that there is no end. -/
def cutError (error : Option QuicSyncError) : QuicSyncError :=
  error.getD (Planner.failure "index closed before End")

/-- An item that is read without an error. -/
def Sound (input : List IndexItem) : Prop := ∀ item ∈ input, ∃ message, item = .ok message

theorem items_take_isPrefix (records : List IndexRecord) (k : ℕ) :
    items (records.take k) <+: stream records := by
  refine ⟨items (records.drop k) ++ [.ok .end], ?_⟩
  rw [← List.append_assoc, items, items, ← List.map_append, List.take_append_drop]
  rfl

/-- What is read without an error of an input that has been cut off is part of the index. -/
theorem Cut.sound_prefix {records : List IndexRecord} {error : Option QuicSyncError}
    {input first rest : List IndexItem} (h : Cut records error input) (hinput : input = first ++ rest)
    (hsound : Sound first) : ∃ k, first <+: items (records.take k) := by
  obtain ⟨k, tail, hcut⟩ := h
  refine ⟨k, ?_⟩
  rw [hinput] at hcut
  obtain ⟨l, hl, -⟩ | ⟨l, hl, htail⟩ := List.append_eq_append_iff.1 hcut
  · exact ⟨l, hl.symm⟩
  · cases l with
    | nil =>
      rw [List.append_nil] at hl
      exact hl ▸ List.prefix_rfl
    | cons item l =>
      -- the first item behind the records is an error
      cases error with
      | none => cases htail
      | some e =>
        obtain ⟨message, hmessage⟩ := hsound item (hl ▸ by simp)
        rw [← (List.cons.inj htail).1] at hmessage
        cases hmessage

theorem sound_items (records : List IndexRecord) : Sound (items records) := by
  intro item hitem
  obtain ⟨r, -, rfl⟩ := List.mem_map.1 hitem
  exact ⟨_, rfl⟩

theorem sound_stream (records : List IndexRecord) : Sound (stream records) := by
  intro item hitem
  obtain hitem | hitem := List.mem_append.1 hitem
  · exact sound_items records item hitem
  · exact ⟨_, List.mem_singleton.1 hitem⟩

theorem end_not_mem_items (records : List IndexRecord) : (.ok .end : IndexItem) ∉ items records := by
  intro hmem
  obtain ⟨r, -, hr⟩ := List.mem_map.1 hmem
  cases hr

/-- An index with its end is not part of an input that has been cut off. -/
theorem Cut.not_stream {records S : List IndexRecord} {error : Option QuicSyncError}
    {input rest : List IndexItem} (h : Cut records error input) : input ≠ stream S ++ rest := by
  intro hinput
  obtain ⟨k, hpre⟩ := h.sound_prefix hinput (sound_stream S)
  exact end_not_mem_items _ (hpre.subset (List.mem_append_right _ (List.mem_singleton_self _)))

/-- A read that fails behind records: nothing is left, or an error item is next. -/
theorem read_eq_error {rest : List IndexItem} {e : QuicSyncError}
    (h : PlanState.read rest.head? = .error e) :
    (rest = [] ∧ e = cutError none) ∨ ∃ rest', rest = .error e :: rest' := by
  match rest, h with
  | [], h => exact Or.inl ⟨rfl, (Except.error.inj h).symm⟩
  | .error e' :: rest, h => exact Or.inr ⟨rest, by rw [Except.error.inj h]⟩
  | .ok (.record r) :: rest, h => cases h
  | .ok .end :: rest, h => cases h

/-- A complete input has no read that fails. -/
theorem stream_read_ok {S records : List IndexRecord} {rest : List IndexItem} {e : QuicSyncError}
    (h : stream S = items records ++ rest) : PlanState.read rest.head? ≠ .error e := by
  intro hread
  obtain ⟨rfl, -⟩ | ⟨rest', rfl⟩ := read_eq_error hread
  · rw [List.append_nil] at h
    have hmem : (.ok .end : IndexItem) ∈ stream S :=
      List.mem_append_right _ (List.mem_singleton_self _)
    exact end_not_mem_items records (h ▸ hmem)
  · obtain ⟨message, hmessage⟩ := sound_stream S (.error e) (h ▸ by simp)
    cases hmessage

/-- The read that fails of an input that has been cut off is the one at the cut. -/
theorem Cut.read_error {S records : List IndexRecord} {error : Option QuicSyncError}
    {input rest : List IndexItem} {e : QuicSyncError} (h : Cut S error input)
    (hinput : input = items records ++ rest) (hread : PlanState.read rest.head? = .error e) :
    e = cutError error := by
  obtain ⟨k, tail, hcut⟩ := h
  rw [hinput] at hcut
  have hnot (e' : QuicSyncError) (l : List IndexRecord) : (.error e' : IndexItem) ∉ items l := by
    intro hmem
    obtain ⟨message, hmessage⟩ := sound_items l _ hmem
    cases hmessage
  obtain ⟨l, htake, hrest⟩ | ⟨l, hrecords, htail⟩ := List.append_eq_append_iff.1 hcut
  · -- the planner has read no more than the records before the cut
    cases l with
    | nil =>
      rw [List.nil_append] at hrest
      subst hrest
      cases error with
      | none =>
        cases hread
        rfl
      | some e' =>
        cases hread
        rfl
    | cons item l =>
      obtain ⟨message, rfl⟩ := sound_items (S.take k) item (htake ▸ by simp)
      obtain ⟨r, -, hr⟩ := List.mem_map.1
        (show (.ok message : IndexItem) ∈ items (S.take k) from htake ▸ by simp)
      cases hr
      rw [hrest] at hread
      cases hread
  · cases error with
    | none =>
      obtain ⟨rfl, rfl⟩ := List.append_eq_nil_iff.1 htail.symm
      cases hread
      rfl
    | some e' =>
      cases l with
      | nil =>
        rw [List.nil_append] at htail
        subst htail
        cases hread
        rfl
      | cons item l =>
        obtain ⟨rfl, -⟩ := List.cons.inj htail
        exact absurd (hrecords ▸ by simp) (hnot e' records)

namespace PlanState

variable {p p' : PlanState} {source destination : List IndexItem} {sent : List Operation}
  {todo : List PlanEvent}

/-- Where a run stops: after both ends, or at a read of a side that fails. -/
inductive Stop (p : PlanState) (source destination : List IndexItem) :
    Except QuicSyncError Unit → Prop where
  | done : p.todo = [] → p.advance = none → Stop p source destination (.ok ())
  | source {todo : List PlanEvent} {e : QuicSyncError} : p.todo = .readSource :: todo →
      read source.head? = .error e → Stop p source destination (.error e)
  | destination {todo : List PlanEvent} {e : QuicSyncError} : p.todo = .readDestination :: todo →
      read destination.head? = .error e → Stop p source destination (.error e)

/-- A run reads the first items of both inputs, up to where it stops. -/
theorem Tracks.stops (h : Tracks p source destination sent) (input input' : List IndexItem) :
    ∃ p' first rest first' rest', input = first ++ rest ∧ input' = first' ++ rest' ∧
      Tracks p' (source ++ first) (destination ++ first') (sent ++ (p.run input input').1) ∧
      Stop p' rest rest' (p.run input input').2 := by
  fun_induction run p input input' generalizing source destination sent with
  | case1 p input input' htodo hadvance =>
    refine ⟨p, [], input, [], input', rfl, rfl, ?_, .done htodo hadvance⟩
    simpa only [List.append_nil] using h
  | case2 p input input' htodo p₁ hadvance ih => exact ih (h.advance htodo hadvance)
  | case3 p input input' operation todo htodo operations result hrun ih =>
    obtain ⟨p', first, rest, first', rest', hinput, hinput', htracks, hstop⟩ := ih (h.send htodo)
    refine ⟨p', first, rest, first', rest', hinput, hinput', ?_, ?_⟩
    · simpa only [List.append_assoc, List.singleton_append, hrun] using htracks
    · simpa only [hrun] using hstop
  | case4 p input' todo htodo =>
    refine ⟨p, [], [], [], input', rfl, rfl, ?_, .source htodo rfl⟩
    simpa only [List.append_nil] using h
  | case5 p input' todo htodo item input e hread =>
    refine ⟨p, [], item :: input, [], input', rfl, rfl, ?_, .source htodo hread⟩
    simpa only [List.append_nil] using h
  | case6 p input' todo htodo item input left hread ih =>
    obtain ⟨p', first, rest, first', rest', rfl, hinput', htracks, hstop⟩ :=
      ih (h.readSource htodo hread)
    refine ⟨p', item :: first, rest, first', rest', rfl, hinput', ?_, hstop⟩
    simpa only [List.append_assoc, List.singleton_append] using htracks
  | case7 p input todo htodo =>
    refine ⟨p, [], input, [], [], rfl, rfl, ?_, .destination htodo rfl⟩
    simpa only [List.append_nil] using h
  | case8 p input todo htodo item input' e hread =>
    refine ⟨p, [], input, [], item :: input', rfl, rfl, ?_, .destination htodo hread⟩
    simpa only [List.append_nil] using h
  | case9 p input todo htodo item input' right hread ih =>
    obtain ⟨p', first, rest, first', rest', hinput, rfl, htracks, hstop⟩ :=
      ih (h.readDestination htodo hread)
    refine ⟨p', first, rest, item :: first', rest', hinput, rfl, ?_, hstop⟩
    simpa only [List.append_assoc, List.singleton_append] using htracks

theorem Side.sound {reads : Bool} {lookahead : Option IndexRecord} {read : List IndexItem}
    (h : Side reads lookahead read) : Sound read := by
  obtain ⟨records, rfl, -⟩ | ⟨records, rfl, -⟩ := h
  · exact sound_items records
  · exact sound_stream records

/-- What has been read of both sides was read without an error. -/
theorem Tracks.sound (h : Tracks p source destination sent) : Sound source ∧ Sound destination := by
  obtain ⟨_, _, _, -, hsource, hdestination, -⟩ := h.shape
  exact ⟨hsource.sound, hdestination.sound⟩

theorem Side.reading {lookahead : Option IndexRecord} {read : List IndexItem}
    (h : Side true lookahead read) : ∃ records, read = items records := by
  obtain ⟨records, hread, -⟩ | ⟨_, _, _, hreads⟩ := h
  · exact ⟨records, hread⟩
  · cases hreads

/-- A side that is about to be read has not ended. -/
theorem Tracks.reading (h : Tracks p source destination sent) :
    (∀ todo, p.todo = .readSource :: todo → ∃ records, source = items records) ∧
      ∀ todo, p.todo = .readDestination :: todo → ∃ records, destination = items records := by
  obtain ⟨operations, readsSource, readsDestination, hshape, hsource, hdestination, -⟩ := h.shape
  refine ⟨fun todo htodo => ?_, fun todo htodo => ?_⟩
  · rw [htodo] at hshape
    cases operations with
    | cons operation operations => cases hshape
    | nil =>
      cases readsSource with
      | true => exact hsource.reading
      | false => cases readsDestination <;> cases hshape
  · rw [htodo] at hshape
    cases operations with
    | cons operation operations => cases hshape
    | nil =>
      cases readsSource with
      | true => cases hshape
      | false =>
        cases readsDestination with
        | true => exact hdestination.reading
        | false => cases hshape

end PlanState

open PlanState

/-- An input as it arrives: the complete index, or a part of it that has been cut off. -/
def Arrives (records : List IndexRecord) (input : List IndexItem) : Prop :=
  input = stream records ∨ ∃ error, Cut records error input

/-- What is read of an input is part of the complete index. -/
theorem Arrives.read_prefix {records : List IndexRecord} {input first rest : List IndexItem}
    (h : Arrives records input) (hinput : input = first ++ rest) (hsound : Sound first) :
    first <+: stream records := by
  obtain rfl | ⟨error, hcut⟩ := h
  · exact ⟨rest, hinput.symm⟩
  · obtain ⟨k, hpre⟩ := hcut.sound_prefix hinput hsound
    exact hpre.trans (items_take_isPrefix records k)

/-- A read that fails is of an input that has been cut off, and gives its error. -/
theorem Arrives.read_error {S records : List IndexRecord} {input rest : List IndexItem}
    {e : QuicSyncError} (h : Arrives S input) (hinput : input = items records ++ rest)
    (hread : PlanState.read rest.head? = .error e) :
    ∃ error, Cut S error input ∧ e = cutError error := by
  obtain rfl | ⟨error, hcut⟩ := h
  · exact absurd hread (stream_read_ok hinput)
  · exact ⟨error, hcut, hcut.read_error hinput hread⟩

/-- **An interrupted index never yields a wrong operation.**  When an input is cut off, the planner
fails with the error of an input that has been cut off, unchanged, and what it has sent is the start
of what it sends for the complete inputs, with the same identifiers. -/
theorem plan_interrupted (S D : List IndexRecord) (source destination : List IndexItem)
    (hsource : Arrives S source) (hdestination : Arrives D destination)
    (hcut : (∃ error, Cut S error source) ∨ ∃ error, Cut D error destination) :
    (∃ e, (plan source destination).2 = .error e ∧
      ((∃ error, Cut S error source ∧ e = cutError error) ∨
        ∃ error, Cut D error destination ∧ e = cutError error)) ∧
      (plan source destination).1 <+: (plan (stream S) (stream D)).1 := by
  obtain ⟨p, first, rest, first', rest', hfirst, hfirst', htracks, hstop⟩ :=
    Tracks.start.stops source destination
  rw [List.nil_append, List.nil_append, List.nil_append] at htracks
  constructor
  · change ∃ e, (start.run source destination).2 = .error e ∧ _
    generalize (start.run source destination).2 = result at hstop
    cases hstop with
    | done htodo hadvance =>
      -- both inputs have been read to their end
      obtain ⟨S', D', rfl, rfl, -⟩ := htracks.complete htodo hadvance
      obtain ⟨error, hcut⟩ | ⟨error, hcut⟩ := hcut
      · exact absurd hfirst hcut.not_stream
      · exact absurd hfirst' hcut.not_stream
    | source htodo hread =>
      obtain ⟨records, rfl⟩ := htracks.reading.1 _ htodo
      exact ⟨_, rfl, Or.inl (hsource.read_error hfirst hread)⟩
    | destination htodo hread =>
      obtain ⟨records, rfl⟩ := htracks.reading.2 _ htodo
      exact ⟨_, rfl, Or.inr (hdestination.read_error hfirst' hread)⟩
  · obtain ⟨hsound, hsound'⟩ := htracks.sound
    obtain ⟨more, hmore⟩ := hsource.read_prefix hfirst hsound
    obtain ⟨more', hmore'⟩ := hdestination.read_prefix hfirst' hsound'
    have hreplay := htracks.replay more more'
    rw [hmore, hmore'] at hreplay
    rw [hreplay]
    exact List.prefix_append _ _

/-- A directory, with nothing below it. -/
def loneDirectory : IndexRecord :=
  ⟨⟨[ascii "lone"], by decide, by decide⟩, ⟨.directory, 0o755, .ofUInt64 0, 0⟩, none, none⟩

/-- An index whose producer fails after its first record. -/
def failedIndex : List IndexItem := items [loneDirectory] ++ [.error Scan.consumerClosed]

/-- An error behind the first record is returned, after the operation for the record. -/
theorem plan_interrupted_after_one :
    (plan failedIndex (stream [])).2 = .error Scan.consumerClosed ∧
      (plan failedIndex (stream [])).1 <+: (plan (stream [loneDirectory]) (stream [])).1 := by
  have hcut : Cut [loneDirectory] (some Scan.consumerClosed) failedIndex := ⟨1, [], rfl⟩
  obtain ⟨⟨e, he, herror⟩, hpre⟩ := plan_interrupted [loneDirectory] [] failedIndex (stream [])
    (Or.inr ⟨_, hcut⟩) (Or.inl rfl) (Or.inl ⟨_, hcut⟩)
  refine ⟨?_, hpre⟩
  obtain ⟨error, hcut', rfl⟩ | ⟨error, hcut', -⟩ := herror
  · have hread : PlanState.read ([.error Scan.consumerClosed] : List IndexItem).head? =
        .error Scan.consumerClosed := rfl
    rw [he, ← hcut'.read_error (show failedIndex = items [loneDirectory] ++ _ from rfl) hread]
  · exact absurd (List.append_nil _).symm hcut'.not_stream

end QuicSync
