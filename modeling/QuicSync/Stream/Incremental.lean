import Mathlib.Data.List.Basic
import Mathlib.Tactic.Common

/-!
# Incremental decoders and how their input is cut

An incremental decoder takes a stream in chunks, and each chunk completes some items or fails.
`Incremental` says that cutting a chunk in two changes nothing but this: the items that the first
half completes are returned even if the second half fails.

A consumer takes the items of one chunk after the other.  Two facts say how far what it sees
depends on the chunks, for chunks of at most `n` elements:

* `drain_eq_iff`: the items seen before the first failure depend on the chunks if and only if one
  chunk can complete an item and then fail.
* `acceptsFirst_iff`: whether the chunk that completes the first item is the last one depends on
  the chunks if and only if the stream goes on behind the first item, without a failure, for less
  than a chunk.
-/

namespace QuicSync

variable {σ β α ε : Type}

/-- A decoder for which the chunks of a stream can be put together. -/
structure Incremental (push : σ → List β → Except ε (List α) × σ) : Prop where
  /-- Nothing happens on an empty chunk. -/
  nil : ∀ s, push s [] = (.ok [], s)
  /-- A chunk may be cut where its first part succeeds. -/
  append_ok : ∀ {s s' ms} a c, push s a = (.ok ms, s') →
    push s (a ++ c) = ((push s' c).1.map (ms ++ ·), (push s' c).2)
  /-- What fails still fails with more behind it. -/
  append_error : ∀ {s s' e} a c, push s a = (.error e, s') → push s (a ++ c) = (.error e, s')

/-- A stream is read in chunks that are not empty and have at most `n` elements. -/
structure Reads (n : ℕ) (stream : List β) (chunks : List (List β)) : Prop where
  flatten : chunks.flatten = stream
  chunk : ∀ c ∈ chunks, c ≠ [] ∧ c.length ≤ n

/-- The items seen before the first failure or the end. -/
def drain (push : σ → List β → Except ε (List α) × σ) : σ → List (List β) → List α
  | _, [] => []
  | s, c :: cs =>
    match push s c with
    | (.error _, _) => []
    | (.ok ms, s') => ms ++ drain push s' cs

/-- The first item seen, the items completed with it, and the chunks left then. -/
def firstSeen (push : σ → List β → Except ε (List α) × σ) :
    σ → List (List β) → Option (α × List (List β))
  | _, [] => none
  | s, c :: cs =>
    match push s c with
    | (.error _, _) => none
    | (.ok [], s') => firstSeen push s' cs
    | (.ok (m :: _), _) => some (m, cs)

/-- The first item seen satisfies `P`, and no chunk is left then. -/
def AcceptsFirst (push : σ → List β → Except ε (List α) × σ) (P : α → Prop) (s : σ)
    (chunks : List (List β)) : Prop :=
  ∃ m, P m ∧ firstSeen push s chunks = some (m, [])

/-- The decoder fails on a chunk. -/
def Fails (push : σ → List β → Except ε (List α) × σ) (s : σ) (c : List β) : Prop :=
  ∃ e, (push s c).1 = .error e

/-- The last element of `a` completes items: those of the elements before, the items it completes,
and the state behind. -/
def Completes (push : σ → List β → Except ε (List α) × σ) (s : σ) (a : List β) (ms ms' : List α)
    (s' : σ) : Prop :=
  ∃ a₀ x s₀, a = a₀ ++ [x] ∧ push s a₀ = (.ok ms, s₀) ∧ push s₀ [x] = (.ok ms', s') ∧ ms' ≠ []

/-- Some chunk of at most `n` elements can complete an item and then fail. -/
def Lossy (push : σ → List β → Except ε (List α) × σ) (n : ℕ) (s : σ) (stream : List β) : Prop :=
  ∃ a c rest ms ms' s', stream = a ++ c ++ rest ∧ Completes push s a ms ms' s' ∧ c.length < n ∧
    Fails push s' c

/-- The stream goes on behind a first item that satisfies `P`, without a failure, for less than a
chunk of `n` elements. -/
def Overrun (push : σ → List β → Except ε (List α) × σ) (P : α → Prop) (n : ℕ) (s : σ)
    (stream : List β) : Prop :=
  ∃ a rest m ms s', stream = a ++ rest ∧ Completes push s a [] (m :: ms) s' ∧ P m ∧ rest ≠ [] ∧
    rest.length < n ∧ ¬ Fails push s' rest

section

variable {push : σ → List β → Except ε (List α) × σ} {n : ℕ} {s s' : σ} {stream : List β}
  {chunks : List (List β)} {ms : List α}

theorem not_fails_iff : ¬ Fails push s stream ↔ ∃ ms s', push s stream = (.ok ms, s') := by
  unfold Fails
  cases h : push s stream with
  | mk r s' =>
    cases r with
    | error e => simp
    | ok ms => simp

/-! ### Cutting a chunk -/

namespace Incremental

theorem fails_append (h : Incremental push) {a c : List β} (ha : push s a = (.ok ms, s')) :
    Fails push s (a ++ c) ↔ Fails push s' c := by
  unfold Fails
  rw [h.append_ok a c ha]
  cases (push s' c).1 with
  | error e => simp [Except.map]
  | ok ms' => simp [Except.map]

theorem push_append (h : Incremental push) {a c : List β} {ms' : List α} {s'' : σ}
    (ha : push s a = (.ok ms, s')) (hc : push s' c = (.ok ms', s'')) :
    push s (a ++ c) = (.ok (ms ++ ms'), s'') := by
  rw [h.append_ok a c ha, hc]
  rfl

/-- What a chunk that succeeds does is what its parts do one after the other. -/
theorem push_append_ok (h : Incremental push) {a c : List β}
    (hac : push s (a ++ c) = (.ok ms, s')) :
    ∃ ms₁ ms₂ s₁, push s a = (.ok ms₁, s₁) ∧ push s₁ c = (.ok ms₂, s') ∧ ms = ms₁ ++ ms₂ := by
  cases ha : push s a with
  | mk r s₁ =>
    cases r with
    | error e =>
      rw [h.append_error a c ha] at hac
      cases hac
    | ok ms₁ =>
      rw [h.append_ok a c ha] at hac
      cases hc : push s₁ c with
      | mk r' s₂ =>
        rw [hc] at hac
        cases r' with
        | error e => cases hac
        | ok ms₂ =>
          cases hac
          exact ⟨ms₁, ms₂, s₁, rfl, hc, rfl⟩

/-! ### Chunks -/

/-- The items of chunks that succeed come first. -/
theorem drain_append (h : Incremental push) {cs cs' : List (List β)}
    (hcs : push s cs.flatten = (.ok ms, s')) :
    drain push s (cs ++ cs') = ms ++ drain push s' cs' := by
  induction cs generalizing s ms with
  | nil =>
    rw [List.flatten_nil, h.nil] at hcs
    cases hcs
    rfl
  | cons c cs ih =>
    rw [List.flatten_cons] at hcs
    obtain ⟨ms₁, ms₂, s₁, hc, hrest, rfl⟩ := h.push_append_ok hcs
    rw [List.cons_append, drain, hc, List.append_assoc]
    exact congrArg _ (ih hrest)

/-- Chunks of one element. -/
def singles (stream : List β) : List (List β) := stream.map fun x => [x]

theorem flatten_singles (stream : List β) : (singles stream).flatten = stream := by
  induction stream with
  | nil => rfl
  | cons x stream ih => exact congrArg (x :: ·) ih

theorem reads_singles (hn : 0 < n) (stream : List β) : Reads n stream (singles stream) := by
  refine ⟨flatten_singles stream, fun c hc => ?_⟩
  obtain ⟨x, -, rfl⟩ := List.mem_map.1 hc
  exact ⟨by simp, hn⟩

theorem drain_singles_append (h : Incremental push) {a c : List β}
    (ha : push s a = (.ok ms, s')) :
    drain push s (singles (a ++ c)) = ms ++ drain push s' (singles c) := by
  unfold singles
  rw [List.map_append]
  exact h.drain_append ((flatten_singles a).symm ▸ ha)

/-- Where single elements are pushed, items that are seen before a failure have an element that
completes them. -/
theorem exists_completes (h : Incremental push) {c : List β} (rest : List β)
    (hne : drain push s (singles (c ++ rest)) ≠ []) (hfail : Fails push s c) :
    ∃ a c' ms ms' s', c = a ++ c' ∧ Completes push s a ms ms' s' ∧ Fails push s' c' := by
  induction c generalizing s with
  | nil =>
    obtain ⟨e, he⟩ := hfail
    rw [h.nil] at he
    cases he
  | cons x c ih =>
    cases hx : push s [x] with
    | mk r s₁ =>
      cases r with
      | error e =>
        refine absurd ?_ hne
        rw [List.cons_append]
        change drain push s ([x] :: singles (c ++ rest)) = []
        rw [drain, hx]
      | ok ms =>
        have hrest : Fails push s₁ c := (h.fails_append (a := [x]) hx).1 hfail
        by_cases hms : ms = []
        · subst hms
          have hne' : drain push s₁ (singles (c ++ rest)) ≠ [] := by
            have hcons := h.drain_singles_append (a := [x]) (c := c ++ rest) hx
            rw [List.nil_append] at hcons
            exact hcons ▸ hne
          obtain ⟨a, c', ms, ms', s', rfl, ⟨a₀, y, s₀, rfl, ha₀, hy, hms'⟩, hfail'⟩ :=
            ih hne' hrest
          exact ⟨x :: (a₀ ++ [y]), c', ms, ms', s', rfl,
            ⟨x :: a₀, y, s₀, rfl, h.push_append (a := [x]) hx ha₀, hy, hms'⟩, hfail'⟩
        · exact ⟨[x], c, [], ms, s₁, rfl, ⟨[], x, s, rfl, h.nil s, hx, hms⟩, hrest⟩

/-- Without a chunk that loses items, chunks do not matter. -/
theorem drain_eq_singles (h : Incremental push) (hloss : ¬ Lossy push n s stream)
    (hreads : Reads n stream chunks) : drain push s chunks = drain push s (singles stream) := by
  induction chunks generalizing s stream with
  | nil =>
    have hnil := hreads.flatten
    rw [List.flatten_nil] at hnil
    rw [← hnil]
    rfl
  | cons c cs ih =>
    have hstream := hreads.flatten
    rw [List.flatten_cons] at hstream
    have hrest : Reads n cs.flatten cs :=
      ⟨rfl, fun d hd => hreads.chunk d (List.mem_cons_of_mem _ hd)⟩
    cases hc : push s c with
    | mk r s₁ =>
      cases r with
      | ok ms =>
        rw [← hstream, h.drain_singles_append hc, drain, hc]
        refine congrArg _ (ih (fun hlossy => hloss ?_) hrest)
        -- what is lost behind the chunk is lost in the whole
        obtain ⟨a, c', rest, ms', ms'', s', hcs, ⟨a₀, x, s₀, rfl, ha₀, hx, hne⟩, hlt, hfail⟩ :=
          hlossy
        refine ⟨c ++ (a₀ ++ [x]), c', rest, ms ++ ms', ms'', s', ?_,
          ⟨c ++ a₀, x, s₀, (List.append_assoc _ _ _).symm, h.push_append hc ha₀, hx, hne⟩, hlt,
          hfail⟩
        rw [← hstream, hcs]
        simp only [List.append_assoc]
      | error e =>
        rw [drain, hc]
        by_contra hne
        have hfail : Fails push s c := ⟨e, by rw [hc]⟩
        obtain ⟨a, c', ms, ms', s', rfl, hcompletes, hfail'⟩ :=
          h.exists_completes cs.flatten (fun hnil => hne (by rw [← hstream, hnil])) hfail
        refine hloss ⟨a, c', cs.flatten, ms, ms', s', hstream.symm, hcompletes, ?_, hfail'⟩
        obtain ⟨a₀, x, s₀, rfl, -⟩ := hcompletes
        have hlen := (hreads.chunk _ List.mem_cons_self).2
        simp only [List.length_append, List.length_singleton] at hlen
        omega

/-- **The items seen before a failure** are the same however the stream is read, if and only if no
chunk can complete an item and then fail. -/
theorem drain_eq_iff (h : Incremental push) :
    (∀ chunks chunks', Reads n stream chunks → Reads n stream chunks' →
      drain push s chunks = drain push s chunks') ↔ ¬ Lossy push n s stream := by
  constructor
  · rintro hsame ⟨a, c, rest, ms, ms', s', rfl, ⟨a₀, x, s₀, rfl, ha₀, hx, hne⟩, hlt, e, he⟩
    have hn : 0 < n := Nat.zero_lt_of_lt hlt
    -- read element by element, and with one chunk from the completing element to the failure
    let together : List (List β) := singles a₀ ++ (x :: c) :: singles rest
    have htogether : Reads n (a₀ ++ [x] ++ c ++ rest) together := by
      refine ⟨by simp [together, flatten_singles], fun d hd => ?_⟩
      rw [List.mem_append, List.mem_cons] at hd
      obtain hd | rfl | hd := hd
      · exact (reads_singles hn a₀).chunk d hd
      · exact ⟨by simp, hlt⟩
      · exact (reads_singles hn rest).chunk d hd
    have hdrain := hsame _ _ (reads_singles hn _) htogether
    have hleft : drain push s (singles (a₀ ++ [x] ++ c ++ rest)) =
        ms ++ (ms' ++ drain push s' (singles (c ++ rest))) := by
      rw [List.append_assoc, List.append_assoc, h.drain_singles_append ha₀,
        h.drain_singles_append hx]
    have hright : drain push s together = ms := by
      have hfail : Fails push s₀ (x :: c) := (h.fails_append (a := [x]) hx).2 ⟨e, he⟩
      obtain ⟨e', he'⟩ := hfail
      rw [h.drain_append ((flatten_singles a₀).symm ▸ ha₀), drain]
      cases hpush : push s₀ (x :: c) with
      | mk r s₁ =>
        rw [hpush] at he'
        rw [show r = .error e' from he']
        exact List.append_nil _
    rw [hleft, hright] at hdrain
    have hnil := List.append_right_eq_self.1 hdrain
    exact hne (List.append_eq_nil_iff.1 hnil).1
  · intro hloss chunks chunks' hreads hreads'
    rw [h.drain_eq_singles hloss hreads, h.drain_eq_singles hloss hreads']

/-! ### The first item -/

/-- Acceptance, chunk by chunk: the last chunk is the first to complete an item. -/
theorem acceptsFirst_concat (h : Incremental push) {P : α → Prop} :
    AcceptsFirst push P s chunks ↔ ∃ cs c s₁ m ms s₂, chunks = cs ++ [c] ∧
      push s cs.flatten = (.ok [], s₁) ∧ push s₁ c = (.ok (m :: ms), s₂) ∧ P m := by
  constructor
  · rintro ⟨m, hm, hfirst⟩
    induction chunks generalizing s with
    | nil => cases hfirst
    | cons c cs ih =>
      rw [firstSeen] at hfirst
      cases hc : push s c with
      | mk r s₁ =>
        rw [hc] at hfirst
        match r, hfirst, hc with
        | .error e, hfirst, _ => cases hfirst
        | .ok [], hfirst, hc =>
          obtain ⟨cs', c', s₂, m', ms, s₃, rfl, hcs', hc', hm'⟩ := ih hfirst
          exact ⟨c :: cs', c', s₂, m', ms, s₃, rfl, h.push_append hc hcs', hc', hm'⟩
        | .ok (m' :: ms), hfirst, hc =>
          cases hfirst
          exact ⟨[], c, s, m, ms, s₁, rfl, h.nil s, hc, hm⟩
  · rintro ⟨cs, c, s₁, m, ms, s₂, rfl, hcs, hc, hm⟩
    refine ⟨m, hm, ?_⟩
    induction cs generalizing s with
    | nil =>
      rw [List.flatten_nil, h.nil] at hcs
      cases hcs
      rw [List.nil_append, firstSeen, hc]
    | cons d cs ih =>
      rw [List.flatten_cons] at hcs
      obtain ⟨ms₁, ms₂, s₃, hd, hrest, hnil⟩ := h.push_append_ok hcs
      obtain ⟨rfl, rfl⟩ := List.append_eq_nil_iff.1 hnil.symm
      rw [List.cons_append, firstSeen, hd]
      exact ih hrest

/-- In a chunk that completes items, some element completes the first one. -/
theorem exists_completes_first (h : Incremental push) {c : List β} {m : α}
    (hc : push s c = (.ok (m :: ms), s')) :
    ∃ a rest ms₁ s₁, c = a ++ rest ∧ Completes push s a [] (m :: ms₁) s₁ ∧
      ¬ Fails push s₁ rest := by
  induction c generalizing s with
  | nil =>
    rw [h.nil] at hc
    cases hc
  | cons x c ih =>
    obtain ⟨ms₁, ms₂, s₁, hx, hrest, heq⟩ := h.push_append_ok (a := [x]) (c := c) hc
    cases ms₁ with
    | nil =>
      rw [List.nil_append] at heq
      rw [← heq] at hrest
      obtain ⟨a, rest, ms₃, s₃, rfl, ⟨a₀, y, s₀, rfl, ha₀, hy, hne⟩, hok⟩ := ih hrest
      exact ⟨x :: (a₀ ++ [y]), rest, ms₃, s₃, rfl,
        ⟨x :: a₀, y, s₀, rfl, h.push_append (a := [x]) hx ha₀, hy, hne⟩, hok⟩
    | cons m' ms₁ =>
      rw [List.cons_append] at heq
      obtain ⟨rfl, rfl⟩ := List.cons.inj heq
      exact ⟨[x], c, ms₁, s₁, rfl, ⟨[], x, s, rfl, h.nil s, hx, by simp⟩,
        not_fails_iff.2 ⟨ms₂, s', hrest⟩⟩

theorem Completes.push_eq (h : Incremental push) {a : List β} {ms' : List α}
    (ha : Completes push s a ms ms' s') : push s a = (.ok (ms ++ ms'), s') := by
  obtain ⟨a₀, x, s₀, rfl, ha₀, hx, -⟩ := ha
  exact h.push_append ha₀ hx

/-- A stream that overruns the first item is accepted in some chunks and not in others. -/
theorem not_overrun_of_acceptsFirst (h : Incremental push) {P : α → Prop}
    (hsame : ∀ chunks chunks', Reads n stream chunks → Reads n stream chunks' →
      (AcceptsFirst push P s chunks ↔ AcceptsFirst push P s chunks')) :
    ¬ Overrun push P n s stream := by
  rintro ⟨a, rest, m, ms, s', rfl, hcompletes, hm, hne, hlt, hok⟩
  have hn : 0 < n := Nat.zero_lt_of_lt hlt
  have ha := Completes.push_eq h hcompletes
  obtain ⟨a₀, x, s₀, rfl, ha₀, hx, -⟩ := hcompletes
  obtain ⟨ms', s'', hrest⟩ := not_fails_iff.1 hok
  -- one chunk from the completing element to the end accepts, single elements do not
  have htogether : Reads n (a₀ ++ [x] ++ rest) (singles a₀ ++ [x :: rest]) := by
    refine ⟨by simp [flatten_singles], fun d hd => ?_⟩
    rw [List.mem_append, List.mem_singleton] at hd
    obtain hd | rfl := hd
    · exact (reads_singles hn a₀).chunk d hd
    · exact ⟨by simp, hlt⟩
  have hlast : push s₀ (x :: rest) = (.ok (m :: (ms ++ ms')), s'') :=
    h.push_append (a := [x]) hx hrest
  have haccepts : AcceptsFirst push P s (singles a₀ ++ [x :: rest]) :=
    h.acceptsFirst_concat.2 ⟨_, _, s₀, m, _, s'', rfl, (flatten_singles a₀).symm ▸ ha₀, hlast, hm⟩
  obtain ⟨cs, c, s₁, m', ms₁, s₂, hchunks, hcs, -, -⟩ :=
    h.acceptsFirst_concat.1 ((hsame _ _ htogether (reads_singles hn _)).1 haccepts)
  -- the chunks before the last one include those of the first item
  obtain ⟨y, hy⟩ : ∃ y, c = [y] := by
    have hmem : c ∈ singles (a₀ ++ [x] ++ rest) := by
      rw [hchunks]
      exact List.mem_append_right _ (List.mem_singleton_self c)
    obtain ⟨y, -, rfl⟩ := List.mem_map.1 hmem
    exact ⟨y, rfl⟩
  subst hy
  have hflat := congrArg List.flatten hchunks
  rw [flatten_singles, List.flatten_append, List.flatten_singleton,
    ← List.dropLast_append_getLast hne, ← List.append_assoc] at hflat
  obtain ⟨hbefore, -⟩ := List.append_inj' hflat rfl
  rw [← hbefore] at hcs
  obtain ⟨ms₂, ms₃, s₃, ha', -, hnil⟩ := h.push_append_ok hcs
  rw [ha] at ha'
  cases ha'
  cases hnil

/-- A stream that does not overrun the first item is accepted in all chunks if it is in some. -/
theorem acceptsFirst_of_not_overrun (h : Incremental push) {P : α → Prop}
    (hover : ¬ Overrun push P n s stream) {chunks chunks' : List (List β)}
    (hreads : Reads n stream chunks) (hreads' : Reads n stream chunks')
    (haccepts : AcceptsFirst push P s chunks) : AcceptsFirst push P s chunks' := by
  obtain ⟨cs, c, s₁, m, ms, s₂, rfl, hcs, hc, hm⟩ := h.acceptsFirst_concat.1 haccepts
  obtain ⟨a, rest, ms₁, s₃, rfl, ⟨a₀, x, s₀, rfl, ha₀, hx, hne⟩, hok⟩ :=
    h.exists_completes_first hc
  have hstream : stream = cs.flatten ++ (a₀ ++ [x]) ++ rest := by
    rw [← hreads.flatten]
    simp
  have hlt : rest.length < n := by
    have hlen := (hreads.chunk _ (List.mem_append_right _ (List.mem_singleton_self _))).2
    simp only [List.length_append, List.length_singleton] at hlen
    omega
  -- the stream ends with the element that completes the first item
  have hrest : rest = [] := by
    by_contra hne'
    refine hover ⟨cs.flatten ++ (a₀ ++ [x]), rest, m, ms₁, s₃, hstream,
      ⟨cs.flatten ++ a₀, x, s₀, (List.append_assoc _ _ _).symm, h.push_append hcs ha₀, hx, hne⟩,
      hm, hne', hlt, hok⟩
  subst hrest
  rw [List.append_nil, ← List.append_assoc] at hstream
  have hbefore : push s (cs.flatten ++ a₀) = (.ok [], s₀) := h.push_append hcs ha₀
  have hne' : chunks' ≠ [] := by
    rintro rfl
    have hnil := hreads'.flatten
    rw [hstream, List.flatten_nil] at hnil
    exact absurd hnil.symm (by simp)
  obtain ⟨cs', c', rfl⟩ : ∃ cs' c', chunks' = cs' ++ [c'] :=
    ⟨_, _, (List.dropLast_append_getLast hne').symm⟩
  have hc'ne := (hreads'.chunk c' (List.mem_append_right _ (List.mem_singleton_self _))).1
  obtain ⟨b, y, rfl⟩ : ∃ b y, c' = b ++ [y] :=
    ⟨_, _, (List.dropLast_append_getLast hc'ne).symm⟩
  have hflat := hreads'.flatten
  rw [List.flatten_append, List.flatten_singleton, hstream, ← List.append_assoc] at hflat
  obtain ⟨heq, hxy⟩ := List.append_inj' hflat rfl
  obtain rfl := List.singleton_inj.1 hxy
  rw [← heq] at hbefore
  obtain ⟨ms₂, ms₃, s₄, hcs', hb, hnil⟩ := h.push_append_ok hbefore
  obtain ⟨rfl, rfl⟩ := List.append_eq_nil_iff.1 hnil.symm
  exact h.acceptsFirst_concat.2
    ⟨cs', b ++ [y], s₄, m, ms₁, s₃, rfl, hcs', h.push_append hb hx, hm⟩

/-- **Whether the first item ends the stream** is the same however the stream is read, if and only
if the stream does not overrun the first item. -/
theorem acceptsFirst_iff (h : Incremental push) {P : α → Prop} :
    (∀ chunks chunks', Reads n stream chunks → Reads n stream chunks' →
      (AcceptsFirst push P s chunks ↔ AcceptsFirst push P s chunks')) ↔
      ¬ Overrun push P n s stream := by
  refine ⟨h.not_overrun_of_acceptsFirst, fun hover chunks chunks' hreads hreads' => ?_⟩
  exact ⟨h.acceptsFirst_of_not_overrun hover hreads hreads',
    h.acceptsFirst_of_not_overrun hover hreads' hreads⟩

end Incremental

end

end QuicSync
