import QuicSync.Protocol.Format
import QuicSync.Stream.Incremental

/-!
# The incremental decoder

`Decoder` takes a stream in chunks of any size and returns the messages whose frames are
complete.  Its state is the part of a frame seen so far: the header bytes, the declared length
once the header is complete, and the payload bytes.

* `Frames L bs ms`: the bytes `bs` are consecutive frames of the messages `ms`.  This is the
  abstract meaning of a stream, with no decoder state in it.
* `Decoder.Good`: the invariant of the state.
* `push_spec`: what the bytes buffered before a push, the chunk and any continuation mean
  together is what the push returns followed by what the bytes buffered after it mean.
* `decoder_accepts_iff`: pushing the chunks of a byte string succeeds exactly when the string can
  be cut into frames that the one-shot decoder accepts, whatever the chunks.
-/

namespace QuicSync

/-- An incremental decoder of one message type. -/
structure Decoder where
  /-- The local limits. -/
  limits : CodecLimits
  /-- The header bytes of the current frame. -/
  header : Bytes
  /-- The declared length, once the header is complete. -/
  expected : Option ℕ
  /-- The payload bytes of the current frame. -/
  payload : Bytes

namespace Decoder

def new (limits : CodecLimits) : Decoder := ⟨limits, [], none, []⟩

def bufferedLen (d : Decoder) : ℕ := d.header.length + d.payload.length

def reset (d : Decoder) : Decoder := { d with header := [], expected := none, payload := [] }

/-- The first half of an iteration of `push`: a header byte, if the declared length is not known
yet.  Indexing past the input or the header panics, and so does reserving more than a vector may
hold. -/
def headerStep (d : Decoder) (input : Bytes) : CodecResult Unit × Decoder × Bytes :=
  if d.expected.isNone then
    match input with
    | [] => (codecPanic, d, input)
    | byte :: input =>
      if d.header.length = maxVarintBytes then (codecError .varintOverflow, d.reset, input)
      else if d.header.length > maxVarintBytes then (codecPanic, d, input)
      else
        let d := { d with header := d.header ++ [byte] }
        if byte &&& 0x80 = 0 then
          match parseVarint d.header with
          | .error e => (.error e, d.reset, input)
          | .ok (declared, _) =>
            match checkFrameLength declared d.limits with
            | .error e => (.error e, d.reset, input)
            | .ok () =>
              let d := { d with expected := some declared.toNat }
              if d.payload.length + declared.toNat ≤ isizeMax then (.ok (), d, input)
              else (codecPanic, d, input)
        else (.ok (), d, input)
  else (.ok (), d, input)

variable {T : Type} [WireMessage T]

/-- The second half of an iteration of `push`: payload bytes up to the declared length, and the
message once they are complete. -/
def payloadStep (d : Decoder) (expected : ℕ) (input : Bytes) :
    CodecResult (Option T) × Decoder × Bytes :=
  match checkedSub expected d.payload.length with
  | .error e => (.error e, d, input)
  | .ok needed =>
    let take := min needed input.length
    let d := { d with payload := d.payload ++ input.take take }
    let input := input.drop take
    if d.payload.length = expected then
      match decodePayload d.payload d.limits with
      | .error e => (.error e, d.reset, input)
      | .ok message => (.ok (some message), d.reset, input)
    else (.ok none, d, input)

/-- One iteration of `push`. -/
def pushStep (d : Decoder) (input : Bytes) : CodecResult (Option T) × Decoder × Bytes :=
  match headerStep d input with
  | (.error e, d, input) => (.error e, d, input)
  | (.ok (), d, input) =>
    match d.expected with
    | none => (.ok none, d, input)
    | some expected => payloadStep d expected input

/-! ### What an iteration does -/

variable {d d' : Decoder} {input input' : Bytes}

theorem headerStep_eq_ok_iff {u : Unit} : headerStep d input = (.ok u, d', input') ↔
    (d.expected ≠ none ∧ d' = d ∧ input' = input) ∨
    ∃ byte, d.expected = none ∧ input = byte :: input' ∧ d.header.length < maxVarintBytes ∧
      ((128 ≤ byte.toNat ∧ d' = { d with header := d.header ++ [byte] }) ∨
        ∃ n : UInt64, byte.toNat < 128 ∧ Leb128.encode n.toNat <+: d.header ++ [byte] ∧
          (n.toNat ≤ d.limits.maxFrameBytes.toNat ∧ 3 ≤ n.toNat) ∧
          d.payload.length + n.toNat ≤ isizeMax ∧
          d' = { d with header := d.header ++ [byte], expected := some n.toNat }) := by
  unfold headerStep
  cases hexp : d.expected with
  | some n =>
    simp only [Option.isNone_some, Bool.false_eq_true, ite_false, Prod.mk.injEq, ne_eq,
      reduceCtorEq, not_false_eq_true, true_and, false_and, exists_const, or_false]
    exact and_congr eq_comm eq_comm
  | none =>
    simp only [Option.isNone_none, ite_true, ne_eq, not_true_eq_false, false_and, false_or,
      true_and]
    cases input with
    | nil => simp [codecPanic]
    | cons byte input =>
      simp only [List.cons.injEq]
      constructor
      · intro h
        split_ifs at h with hfull hpast hstop
        · cases h
        · cases h
        · have hbyte := (continuation_eq_zero_iff byte).1 hstop
          split at h
          · cases h
          · rename_i n used hparse
            obtain ⟨-, hpre⟩ := parseVarint_eq_ok_iff.1 hparse
            split at h
            · cases h
            · rename_i hcheck
              split_ifs at h with hreserve
              · cases h
                exact ⟨byte, ⟨rfl, rfl⟩, by omega, Or.inr ⟨n, hbyte, hpre,
                  checkFrameLength_eq_ok_iff.1 hcheck, hreserve, rfl⟩⟩
              · cases h
        · cases h
          rw [continuation_eq_zero_iff, Nat.not_lt] at hstop
          exact ⟨byte, ⟨rfl, rfl⟩, by omega, Or.inl ⟨hstop, rfl⟩⟩
      · rintro ⟨_, ⟨rfl, rfl⟩, hlen, hcase⟩
        rw [if_neg (by omega), if_neg (by omega)]
        rcases hcase with ⟨hbyte, rfl⟩ | ⟨n, hbyte, hpre, hcheck, hreserve, rfl⟩
        · rw [← Nat.not_lt, ← continuation_eq_zero_iff] at hbyte
          rw [if_neg hbyte]
        · rw [if_pos ((continuation_eq_zero_iff byte).2 hbyte)]
          have hparse := parseVarint_eq_ok_iff.2 ⟨rfl, hpre⟩
          have hok := checkFrameLength_eq_ok_iff (u := ()).2 hcheck
          simp only [hparse, hok, if_pos hreserve]

theorem payloadStep_eq_ok_iff {n : ℕ} {o : Option T} :
    payloadStep d n input = (.ok o, d', input') ↔
    d.payload.length ≤ n ∧
      ((d.payload.length + input.length < n ∧ o = none ∧ input' = [] ∧
          d' = { d with payload := d.payload ++ input }) ∨
        ∃ p m, input = p ++ input' ∧ (d.payload ++ p).length = n ∧ o = some m ∧
          decodePayload (d.payload ++ p) d.limits = .ok m ∧ d' = d.reset) := by
  unfold payloadStep checkedSub
  by_cases hle : d.payload.length ≤ n
  · rw [if_pos hle]
    simp only [hle, true_and]
    by_cases hmore : d.payload.length + input.length < n
    · -- the chunk ends within the payload
      have htake : min (n - d.payload.length) input.length = input.length := by omega
      have hne : (d.payload ++ input).length ≠ n := by
        rw [List.length_append]
        omega
      simp only [htake, List.take_length, List.drop_length, if_neg hne, Prod.mk.injEq,
        Except.ok.injEq, hmore, true_and]
      constructor
      · rintro ⟨rfl, rfl, rfl⟩
        exact Or.inl ⟨rfl, rfl, rfl⟩
      · rintro (⟨rfl, rfl, rfl⟩ | ⟨p, m, rfl, hp, -⟩)
        · exact ⟨rfl, rfl, rfl⟩
        · simp only [List.length_append] at hmore hp
          omega
    · have htake : min (n - d.payload.length) input.length = n - d.payload.length := by omega
      have heq : (d.payload ++ input.take (n - d.payload.length)).length = n := by
        rw [List.length_append, List.length_take]
        omega
      simp only [htake, if_pos heq, hmore, false_and, false_or]
      constructor
      · intro h
        refine ⟨input.take (n - d.payload.length), ?_⟩
        split at h
        · cases h
        · rename_i m hm
          cases h
          exact ⟨m, (List.take_append_drop _ _).symm, heq, rfl, hm, rfl⟩
      · rintro ⟨p, m, rfl, hp, rfl, hm, rfl⟩
        have hlen : n - d.payload.length = p.length := by
          rw [List.length_append] at hp
          omega
        rw [hlen, List.take_left, List.drop_left, hm]
        rfl
  · rw [if_neg hle]
    simp [hle, codecPanic]

theorem pushStep_eq_ok_iff {o : Option T} : pushStep d input = (.ok o, d', input') ↔
    ∃ d₁ input₁, headerStep d input = (.ok (), d₁, input₁) ∧
      ((d₁.expected = none ∧ o = none ∧ d' = d₁ ∧ input' = input₁) ∨
        ∃ n, d₁.expected = some n ∧ payloadStep d₁ n input₁ = (.ok o, d', input')) := by
  unfold pushStep
  obtain ⟨r, d₁, input₁⟩ := headerStep d input
  cases r with
  | error e => simp
  | ok u =>
    simp only [Prod.mk.injEq, true_and]
    constructor
    · intro h
      refine ⟨d₁, input₁, ⟨rfl, rfl⟩, ?_⟩
      split at h
      · rename_i hexp
        cases h
        exact Or.inl ⟨hexp, rfl, rfl, rfl⟩
      · rename_i n hexp
        exact Or.inr ⟨n, hexp, h⟩
    · rintro ⟨_, _, ⟨rfl, rfl⟩, ⟨hexp, rfl, rfl, rfl⟩ | ⟨n, hexp, h⟩⟩
      · simp only [hexp]
      · simp only [hexp, h]

/-- What the loop of `push` has left to do. -/
def todo (d : Decoder) (input : Bytes) : ℕ :=
  2 * input.length + if d.expected.isSome then 1 else 0

theorem todo_le (d : Decoder) (input : Bytes) : d.todo input ≤ 2 * input.length + 1 := by
  unfold todo
  split <;> omega

/-- An iteration that goes on makes progress. -/
theorem todo_pushStep {o : Option T} (hinput : input ≠ [])
    (h : pushStep d input = (.ok o, d', input')) : d'.todo input' < d.todo input := by
  have hle := todo_le d' input'
  obtain ⟨d₁, input₁, hheader, hnext⟩ := pushStep_eq_ok_iff.1 h
  obtain ⟨hexp, rfl, rfl⟩ | ⟨byte, hexp, rfl, -, -⟩ := headerStep_eq_ok_iff.1 hheader
  · obtain ⟨hnone, -⟩ | ⟨n, hn, hpayload⟩ := hnext
    · exact absurd hnone hexp
    · have hpos := List.length_pos_iff.2 hinput
      obtain ⟨-, ⟨-, -, rfl, rfl⟩ | ⟨p, m, rfl, -, -, -, rfl⟩⟩ := payloadStep_eq_ok_iff.1 hpayload
      · simp only [todo, hn, List.length_nil, Option.isSome_some, ite_true]
        omega
      · simp only [todo, hn, reset, List.length_append, Option.isSome_none, Option.isSome_some,
          Bool.false_eq_true, ite_false, ite_true]
        omega
  · have hshort : input'.length ≤ input₁.length := by
      obtain ⟨-, -, -, rfl⟩ | ⟨n, -, hpayload⟩ := hnext
      · exact le_refl _
      · obtain ⟨-, ⟨-, -, rfl, -⟩ | ⟨p, m, rfl, -⟩⟩ := payloadStep_eq_ok_iff.1 hpayload
        · exact Nat.zero_le _
        · simp
    simp only [todo, hexp, List.length_cons]
    unfold todo at hle
    omega

/-- The loop of `push`. -/
def pushLoop (d : Decoder) (input : Bytes) (messages : List T) : CodecResult (List T) × Decoder :=
  if _hinput : input = [] then (.ok messages, d)
  else
    match h : pushStep d input with
    | (.error e, d, _) => (.error e, d)
    | (.ok message, d, input) => pushLoop d input (messages ++ message.toList)
termination_by d.todo input
decreasing_by exact todo_pushStep _hinput h

def push (d : Decoder) (input : Bytes) : CodecResult (List T) × Decoder := pushLoop d input []

def finish (d : Decoder) : CodecResult Unit :=
  if d.header.length = 0 ∧ d.payload = [] ∧ d.expected = none then .ok ()
  else codecError .unexpectedEof

/-- Push chunks one after the other while they succeed, and finish: all the messages returned. -/
def pushAll (d : Decoder) : List Bytes → CodecResult (List T)
  | [] => do
    finish d
    pure []
  | chunk :: chunks =>
    match push d chunk with
    | (.error e, _) => .error e
    | (.ok messages, d) => do pure (messages ++ (← pushAll d chunks))

/-! ### The meaning of a stream -/

end Decoder

/-- Consecutive frames and the messages in them. -/
inductive Frames {T : Type} [WireMessage T] (L : CodecLimits) : Bytes → List T → Prop where
  | nil : Frames L [] []
  | cons {p bs : Bytes} {m : T} {ms : List T} (hmax : p.length ≤ L.maxFrameBytes.toNat)
      (hmin : 3 ≤ p.length) (hm : decodePayload p L = .ok m) (h : Frames L bs ms) :
      Frames L (Leb128.encode p.length ++ p ++ bs) (m :: ms)

section

variable {T : Type} [WireMessage T] {L : CodecLimits} {ms : List T}

/-- What a stream starts with, if anything, is a frame. -/
theorem frames_iff {bs : Bytes} : Frames L bs ms ↔ (bs = [] ∧ ms = []) ∨
    ∃ p bs' m ms', p.length ≤ L.maxFrameBytes.toNat ∧ 3 ≤ p.length ∧
      decodePayload p L = .ok m ∧ Frames L bs' ms' ∧ bs = Leb128.encode p.length ++ p ++ bs' ∧
      ms = m :: ms' := by
  constructor
  · rintro (_ | ⟨hmax, hmin, hm, h⟩)
    · exact Or.inl ⟨rfl, rfl⟩
    · exact Or.inr ⟨_, _, _, _, hmax, hmin, hm, h, rfl, rfl⟩
  · rintro (⟨rfl, rfl⟩ | ⟨p, bs', m, ms', hmax, hmin, hm, h, rfl, rfl⟩)
    · exact .nil
    · exact .cons hmax hmin hm h

/-- After a complete frame the meaning of a stream is its message and the meaning of the rest. -/
theorem frames_append_iff {p bs : Bytes} (hmax : p.length ≤ L.maxFrameBytes.toNat)
    (hmin : 3 ≤ p.length) : Frames L (Leb128.encode p.length ++ p ++ bs) ms ↔
      ∃ m ms', decodePayload p L = .ok m ∧ ms = m :: ms' ∧ Frames L bs ms' := by
  constructor
  · intro h
    obtain ⟨hnil, -⟩ | ⟨q, bs', m, ms', -, -, hm, h', heq, rfl⟩ := frames_iff.1 h
    · simp [Leb128.encode_ne_nil] at hnil
    · have hlen : p.length = q.length := by
        refine Leb128.encode_append_inj (s := Leb128.encode p.length ++ p ++ bs) ?_ ?_
        · rw [List.append_assoc]
          exact List.prefix_append _ _
        · rw [heq, List.append_assoc]
          exact List.prefix_append _ _
      rw [hlen, List.append_assoc, List.append_assoc, List.append_cancel_left_eq] at heq
      obtain ⟨rfl, rfl⟩ := List.append_inj heq hlen
      exact ⟨m, ms', hm, rfl, h'⟩
  · rintro ⟨m, ms', hm, rfl, h⟩
    exact .cons hmax hmin hm h

/-- Frames are what the one-shot decoder accepts, one after the other. -/
theorem frames_iff_decode {w : Slice} : Frames L w.1 ms ↔
    ∃ ws : List Slice, (ws.map Subtype.val).flatten = w.1 ∧
      List.Forall₂ (fun wi mi => decode wi L = .ok mi) ws ms := by
  constructor
  · obtain ⟨bs, hlen⟩ := w
    intro h
    change Frames L bs ms at h
    change ∃ ws : List Slice, (ws.map Subtype.val).flatten = bs ∧ _
    induction h with
    | nil => exact ⟨[], rfl, .nil⟩
    | @cons p bs m ms hmax hmin hm _ ih =>
      simp only [List.length_append] at hlen
      obtain ⟨ws, hws, hall⟩ := ih (by omega)
      have hframe : (Leb128.encode p.length ++ p).length ≤ isizeMax := by
        rw [List.length_append]
        omega
      refine ⟨⟨_, hframe⟩ :: ws, ?_, .cons ?_ hall⟩
      · rw [List.map_cons, List.flatten_cons, hws]
      · exact decode_eq_ok_iff_payload.2 ⟨p, rfl, hmax, hmin, hm⟩
  · rintro ⟨ws, hws, hall⟩
    rw [← hws]
    clear hws
    induction hall with
    | nil => exact .nil
    | @cons wi mi ws ms hdecode _ ih =>
      obtain ⟨p, hp, hmax, hmin, hm⟩ := decode_eq_ok_iff_payload.1 hdecode
      rw [List.map_cons, List.flatten_cons, hp]
      exact .cons hmax hmin hm ih

end

namespace Decoder

variable {T : Type} [WireMessage T] {L : CodecLimits} {d d' : Decoder} {ms : List T}

/-! ### The invariant -/

variable {input input' rest : Bytes}

/-- The bytes of the current frame. -/
def buffered (d : Decoder) : Bytes := d.header ++ d.payload

/-- The state is between frames or inside one: continuation bytes of a header, or a complete
header with an accepted length and a part of the payload. -/
def Good (L : CodecLimits) (d : Decoder) : Prop :=
  d.limits = L ∧
    ((d.expected = none ∧ d.payload = [] ∧ d.header.length ≤ maxVarintBytes ∧
        ∀ b ∈ d.header, 128 ≤ b.toNat) ∨
      ∃ n, d.expected = some n ∧ d.header = Leb128.encode n ∧ n ≤ L.maxFrameBytes.toNat ∧
        3 ≤ n ∧ d.payload.length < n)

theorem good_new (L : CodecLimits) : Good L (new L) :=
  ⟨rfl, Or.inl ⟨rfl, rfl, Nat.zero_le _, by simp [new]⟩⟩

theorem Good.reset (hd : Good L d) : Good L d.reset :=
  ⟨hd.1, Or.inl ⟨rfl, rfl, Nat.zero_le _, by simp [Decoder.reset]⟩⟩

/-- The last byte of a header. -/
theorem Good.header_complete {byte : UInt8} {n : ℕ} (hd : Good L d) (hexp : d.expected = none)
    (hbyte : byte.toNat < 128) (hpre : Leb128.encode n <+: d.header ++ [byte])
    (hlength : n ≤ L.maxFrameBytes.toNat ∧ 3 ≤ n) :
    Good L { d with header := d.header ++ [byte], expected := some n } := by
  obtain ⟨rfl, ⟨-, hpay, -, hcont⟩ | ⟨m, hm, -⟩⟩ := hd
  · refine ⟨rfl, Or.inr ⟨n, rfl, ?_, hlength.1, hlength.2, ?_⟩⟩
    · exact (Leb128.encode_eq_of_stop hcont hbyte hpre).symm
    · simp only [hpay, List.length_nil]
      omega
  · rw [hexp] at hm
    cases hm

/-- A header byte keeps the invariant and is added to the buffer. -/
theorem Good.headerStep {u : Unit} (hd : Good L d)
    (h : headerStep d input = (.ok u, d', input')) :
    Good L d' ∧ d'.buffered ++ input' = d.buffered ++ input := by
  obtain ⟨-, rfl, rfl⟩ | ⟨byte, hexp, rfl, hlen, hcase⟩ := headerStep_eq_ok_iff.1 h
  · exact ⟨hd, rfl⟩
  · have hpay : d.payload = [] := by
      obtain ⟨-, ⟨-, hpay, -⟩ | ⟨n, hn, -⟩⟩ := hd
      · exact hpay
      · rw [hexp] at hn
        cases hn
    obtain ⟨hbyte, rfl⟩ | ⟨n, hbyte, hpre, hlength, -, rfl⟩ := hcase
    · obtain ⟨rfl, ⟨-, -, -, hcont⟩ | ⟨n, hn, -⟩⟩ := hd
      · refine ⟨⟨rfl, Or.inl ⟨hexp, hpay, ?_, ?_⟩⟩, by simp [buffered, hpay]⟩
        · rw [List.length_append, List.length_singleton]
          exact hlen
        · intro b hb
          obtain hb | hb := List.mem_append.1 hb
          · exact hcont b hb
          · rw [List.mem_singleton.1 hb]
            exact hbyte
      · rw [hexp] at hn
        cases hn
    · exact ⟨hd.header_complete hexp hbyte hpre (hd.1 ▸ hlength), by simp [buffered, hpay]⟩

/-- In a stream of frames the header step succeeds. -/
theorem Good.headerStep_of_frames (hd : Good L d) (hinput : input ≠ [])
    (hlen : (d.buffered ++ input ++ rest).length ≤ isizeMax)
    (h : Frames L (d.buffered ++ input ++ rest) ms) :
    ∃ d' input', Decoder.headerStep d input = (.ok (), d', input') := by
  obtain ⟨rfl, ⟨hexp, hpay, hfull, hcont⟩ | ⟨n, hn, -⟩⟩ := hd
  swap
  · exact ⟨d, input, headerStep_eq_ok_iff.2 (Or.inl ⟨by simp [hn], rfl, rfl⟩)⟩
  obtain ⟨byte, input, rfl⟩ := List.exists_cons_of_ne_nil hinput
  obtain ⟨hnil, -⟩ | ⟨p, bs, m, ms', hmax, hmin, -, -, heq, -⟩ := frames_iff.1 h
  · simp at hnil
  have hpre : Leb128.encode p.length <+: d.header ++ byte :: (input ++ rest) := by
    refine ⟨p ++ bs, ?_⟩
    simpa [buffered, hpay] using heq.symm
  have hp : (UInt64.ofNat p.length).toNat = p.length := by
    rw [UInt64.toNat_ofNat']
    exact Nat.mod_eq_of_lt (lt_of_le_of_lt hmax d.limits.maxFrameBytes.toNat_lt)
  have hroom : d.header.length < maxVarintBytes := by
    -- otherwise the numeral would end among the continuation bytes
    refine lt_of_le_of_ne hfull fun hten => Leb128.not_encode_of_continuation hcont (n := p.length) ?_
    refine List.prefix_of_prefix_length_le hpre (List.prefix_append _ _) ?_
    rw [hten, ← hp]
    exact length_encode_toNat_le _
  by_cases hbyte : byte.toNat < 128
  · refine ⟨_, input, headerStep_eq_ok_iff.2 (Or.inr ⟨byte, hexp, rfl, hroom, Or.inr
      ⟨UInt64.ofNat p.length, hbyte, ?_, ?_, ?_, rfl⟩⟩)⟩
    · simp only [hp, Leb128.encode_eq_of_stop hcont hbyte hpre, List.prefix_refl]
    · rw [hp]
      exact ⟨hmax, hmin⟩
    · rw [hp, hpay, List.length_nil, Nat.zero_add]
      rw [heq] at hlen
      simp only [List.length_append] at hlen
      omega
  · exact ⟨_, input, headerStep_eq_ok_iff.2 (Or.inr ⟨byte, hexp, rfl, hroom, Or.inl
      ⟨Nat.le_of_not_lt hbyte, rfl⟩⟩)⟩

/-- The payload step keeps the invariant. -/
theorem Good.payloadStep {n : ℕ} {o : Option T} (hd : Good L d) (hexp : d.expected = some n)
    (h : payloadStep d n input = (.ok o, d', input')) :
    Good L d' ∧ (d'.buffered ++ input').length ≤ (d.buffered ++ input).length := by
  have hreset := hd.reset
  obtain ⟨-, ⟨hmore, -, rfl, rfl⟩ | ⟨p, m, rfl, -, -, -, rfl⟩⟩ := payloadStep_eq_ok_iff.1 h
  · obtain ⟨rfl, ⟨hnone, -⟩ | ⟨_, hn, hheader, hmax, hmin, hpart⟩⟩ := hd
    · rw [hnone] at hexp
      cases hexp
    · obtain rfl := Option.some.inj (hexp.symm.trans hn)
      refine ⟨⟨rfl, Or.inr ⟨n, hn, hheader, hmax, hmin, ?_⟩⟩, by simp [buffered]⟩
      rwa [List.length_append]
  · refine ⟨hreset, ?_⟩
    simp only [buffered, Decoder.reset, List.length_append, List.length_nil]
    omega

/-- The payload step returns the message of a frame that is complete. -/
theorem Good.payloadStep_iff {n : ℕ} (hd : Good L d) (hexp : d.expected = some n) :
    Frames L (d.buffered ++ input ++ rest) ms ↔
      ∃ (o : Option T) (d' : Decoder) (input' : Bytes) (ms' : List T),
        Decoder.payloadStep d n input = (.ok o, d', input') ∧
        ms = o.toList ++ ms' ∧ Frames L (d'.buffered ++ input' ++ rest) ms' := by
  obtain ⟨rfl, ⟨hnone, -⟩ | ⟨_, hn, hheader, hmax, hmin, hpart⟩⟩ := hd
  · rw [hnone] at hexp
    cases hexp
  obtain rfl := Option.some.inj (hexp.symm.trans hn)
  have hsplit (p input' : Bytes) (hp : (d.payload ++ p).length = n) :
      d.buffered ++ (p ++ input') ++ rest = Leb128.encode (d.payload ++ p).length ++
        (d.payload ++ p) ++ (input' ++ rest) := by
    rw [hp, buffered, hheader]
    simp only [List.append_assoc]
  constructor
  · intro h
    by_cases hmore : d.payload.length + input.length < n
    · refine ⟨none, _, [], ms, payloadStep_eq_ok_iff.2 ⟨hpart.le, Or.inl ⟨hmore, rfl, rfl, rfl⟩⟩,
        rfl, ?_⟩
      simpa [buffered, List.append_assoc] using h
    · obtain ⟨p, input', rfl, hp⟩ : ∃ p input', input = p ++ input' ∧
          (d.payload ++ p).length = n := by
        refine ⟨_, _, (List.take_append_drop (n - d.payload.length) input).symm, ?_⟩
        rw [List.length_append, List.length_take]
        omega
      rw [hsplit p input' hp, frames_append_iff (hp ▸ hmax) (hp ▸ hmin)] at h
      obtain ⟨m, ms', hm, rfl, h'⟩ := h
      exact ⟨some m, _, input', ms', payloadStep_eq_ok_iff.2 ⟨hpart.le, Or.inr
        ⟨p, m, rfl, hp, rfl, hm, rfl⟩⟩, rfl, h'⟩
  · rintro ⟨o, d', input', ms', h, rfl, h'⟩
    obtain ⟨-, ⟨-, rfl, rfl, rfl⟩ | ⟨p, m, rfl, hp, rfl, hm, rfl⟩⟩ := payloadStep_eq_ok_iff.1 h
    · simpa [buffered, List.append_assoc] using h'
    · rw [hsplit p input' hp]
      exact .cons (hp ▸ hmax) (hp ▸ hmin) hm h'

/-- An iteration keeps the invariant. -/
theorem Good.pushStep {o : Option T} (hd : Good L d)
    (h : pushStep d input = (.ok o, d', input')) :
    Good L d' ∧ (d'.buffered ++ input').length ≤ (d.buffered ++ input).length := by
  obtain ⟨d₁, input₁, hheader, hnext⟩ := pushStep_eq_ok_iff.1 h
  obtain ⟨hd₁, hbuf⟩ := hd.headerStep hheader
  rw [← hbuf]
  obtain ⟨-, -, rfl, rfl⟩ | ⟨n, hexp, hpay⟩ := hnext
  · exact ⟨hd₁, le_refl _⟩
  · exact hd₁.payloadStep hexp hpay

/-- An iteration returns the message of a frame that is complete. -/
theorem Good.pushStep_iff (hd : Good L d) (hinput : input ≠ [])
    (hlen : (d.buffered ++ input ++ rest).length ≤ isizeMax) :
    Frames L (d.buffered ++ input ++ rest) ms ↔
      ∃ (o : Option T) (d' : Decoder) (input' : Bytes) (ms' : List T),
        Decoder.pushStep d input = (.ok o, d', input') ∧
        ms = o.toList ++ ms' ∧ Frames L (d'.buffered ++ input' ++ rest) ms' := by
  constructor
  · intro h
    obtain ⟨d₁, input₁, hheader⟩ := hd.headerStep_of_frames hinput hlen h
    obtain ⟨hd₁, hbuf⟩ := hd.headerStep hheader
    rw [← hbuf] at h
    cases hexp : d₁.expected with
    | none =>
      exact ⟨none, d₁, input₁, ms, pushStep_eq_ok_iff.2 ⟨d₁, input₁, hheader, Or.inl
        ⟨hexp, rfl, rfl, rfl⟩⟩, rfl, h⟩
    | some n =>
      obtain ⟨o, d', input', ms', hpay, hrest⟩ := (hd₁.payloadStep_iff hexp).1 h
      exact ⟨o, d', input', ms', pushStep_eq_ok_iff.2 ⟨d₁, input₁, hheader, Or.inr
        ⟨n, hexp, hpay⟩⟩, hrest⟩
  · rintro ⟨o, d', input', ms', h, hrest⟩
    obtain ⟨d₁, input₁, hheader, hnext⟩ := pushStep_eq_ok_iff.1 h
    obtain ⟨hd₁, hbuf⟩ := hd.headerStep hheader
    rw [← hbuf]
    obtain ⟨-, rfl, rfl, rfl⟩ | ⟨n, hexp, hpay⟩ := hnext
    · obtain ⟨rfl, h'⟩ := hrest
      exact h'
    · exact (hd₁.payloadStep_iff hexp).2 ⟨o, d', input', ms', hpay, hrest⟩

/-! ### Whole pushes -/

theorem pushLoop_nil (d : Decoder) (acc : List T) : pushLoop d [] acc = (.ok acc, d) := by
  rw [pushLoop, dif_pos rfl]

theorem pushLoop_ok {o : Option T} {acc : List T} (hinput : input ≠ [])
    (h : pushStep d input = (.ok o, d', input')) :
    pushLoop d input acc = pushLoop d' input' (acc ++ o.toList) := by
  rw [pushLoop, dif_neg hinput]
  split
  · rename_i h'
    rw [h] at h'
    cases h'
  · rename_i h'
    rw [h] at h'
    cases h'
    rfl

/-- Inversion of the loop: it ends, or an iteration succeeds and it goes on. -/
theorem pushLoop_eq_ok {acc out : List T} (h : pushLoop d input acc = (.ok out, d')) :
    (input = [] ∧ out = acc ∧ d' = d) ∨ (input ≠ [] ∧ ∃ (o : Option T) (d₁ : Decoder)
      (input₁ : Bytes), pushStep d input = (.ok o, d₁, input₁) ∧
        pushLoop d₁ input₁ (acc ++ o.toList) = (.ok out, d')) := by
  by_cases hinput : input = []
  · subst hinput
    rw [pushLoop_nil] at h
    cases h
    exact Or.inl ⟨rfl, rfl, rfl⟩
  · refine Or.inr ⟨hinput, ?_⟩
    rw [pushLoop, dif_neg hinput] at h
    split at h
    · cases h
    · rename_i o d₁ input₁ hstep
      exact ⟨o, d₁, input₁, hstep, h⟩

/-- A push keeps the invariant, and the messages returned before stay in front. -/
theorem Good.pushLoop (hd : Good L d) {acc out : List T}
    (h : pushLoop d input acc = (.ok out, d')) :
    Good L d' ∧ d'.buffered.length ≤ (d.buffered ++ input).length ∧ acc <+: out := by
  -- induction on what the loop has left to do
  induction htodo : d.todo input using Nat.strong_induction_on generalizing d input acc with
  | _ k ih =>
    obtain ⟨rfl, rfl, rfl⟩ | ⟨hinput, o, d₁, input₁, hstep, hloop⟩ := pushLoop_eq_ok h
    · exact ⟨hd, by simp, List.prefix_refl _⟩
    · obtain ⟨hd₁, hle₁⟩ := hd.pushStep hstep
      obtain ⟨hd', hle', hpre⟩ := ih _ (htodo ▸ todo_pushStep hinput hstep) hd₁ hloop rfl
      exact ⟨hd', hle'.trans hle₁, (List.prefix_append _ _).trans hpre⟩

/-- The messages returned by the loop are those of the frames completed by the input. -/
theorem Good.pushLoop_iff (hd : Good L d) (acc : List T)
    (hlen : (d.buffered ++ input ++ rest).length ≤ isizeMax) :
    Frames L (d.buffered ++ input ++ rest) ms ↔
      ∃ (out : List T) (d' : Decoder) (ms' : List T),
        Decoder.pushLoop d input acc = (.ok (acc ++ out), d') ∧
        ms = out ++ ms' ∧ Frames L (d'.buffered ++ rest) ms' := by
  induction htodo : d.todo input using Nat.strong_induction_on generalizing d input acc ms with
  | _ k ih =>
    have hnext {o : Option T} {d₁ : Decoder} {input₁ : Bytes} {ms₁ : List T} (hinput : input ≠ [])
        (hstep : Decoder.pushStep d input = (.ok o, d₁, input₁)) :
        Frames L (d₁.buffered ++ input₁ ++ rest) ms₁ ↔
          ∃ (out : List T) (d' : Decoder) (ms' : List T),
            Decoder.pushLoop d₁ input₁ (acc ++ o.toList) = (.ok (acc ++ o.toList ++ out), d') ∧
            ms₁ = out ++ ms' ∧ Frames L (d'.buffered ++ rest) ms' := by
      obtain ⟨hd₁, hle₁⟩ := hd.pushStep hstep
      refine ih _ (htodo ▸ todo_pushStep hinput hstep) hd₁ (acc ++ o.toList) ?_ rfl
      simp only [List.length_append] at hle₁ hlen ⊢
      omega
    constructor
    · intro h
      by_cases hinput : input = []
      · subst hinput
        rw [List.append_nil] at h
        exact ⟨[], d, ms, by rw [pushLoop_nil, List.append_nil], rfl, h⟩
      · obtain ⟨o, d₁, input₁, ms₁, hstep, rfl, h₁⟩ := (hd.pushStep_iff hinput hlen).1 h
        obtain ⟨out, d', ms', hloop, rfl, h'⟩ := (hnext hinput hstep).1 h₁
        refine ⟨o.toList ++ out, d', ms', ?_, by rw [List.append_assoc], h'⟩
        rw [pushLoop_ok hinput hstep, hloop, List.append_assoc]
    · rintro ⟨out, d', ms', hloop, rfl, h'⟩
      obtain ⟨rfl, hout, rfl⟩ | ⟨hinput, o, d₁, input₁, hstep, hloop₁⟩ := pushLoop_eq_ok hloop
      · rw [List.append_right_eq_self] at hout
        subst hout
        rwa [List.append_nil]
      · obtain ⟨out₁, hout₁⟩ := ((hd.pushStep hstep).1.pushLoop hloop₁).2.2
        rw [List.append_assoc, List.append_cancel_left_eq] at hout₁
        subst hout₁
        rw [← List.append_assoc] at hloop₁
        refine (hd.pushStep_iff hinput hlen).2 ⟨o, d₁, input₁, _, hstep, List.append_assoc _ _ _, ?_⟩
        exact (hnext hinput hstep).2 ⟨out₁, d', ms', hloop₁, rfl, h'⟩

/-- At the end of a stream of frames nothing is buffered. -/
theorem Good.finish_iff (hd : Good L d) :
    Frames L d.buffered ms ↔ finish d = .ok () ∧ ms = [] := by
  have hfinish : finish d = .ok () ↔ d.header.length = 0 ∧ d.payload = [] ∧ d.expected = none := by
    unfold finish codecError
    split <;> simp_all
  rw [hfinish, List.length_eq_zero_iff]
  obtain ⟨rfl, hstate⟩ := hd
  constructor
  · intro h
    obtain ⟨hnil, rfl⟩ | ⟨p, bs, m, ms', -, -, -, -, heq, -⟩ := frames_iff.1 h
    · obtain ⟨hheader, hpayload⟩ := List.append_eq_nil_iff.1 hnil
      obtain ⟨hexp, -⟩ | ⟨n, -, hn, -⟩ := hstate
      · exact ⟨⟨hheader, hpayload, hexp⟩, rfl⟩
      · exact absurd (hn.symm.trans hheader) (Leb128.encode_ne_nil n)
    · exfalso
      have hpre : Leb128.encode p.length <+: d.buffered := by
        rw [heq, List.append_assoc]
        exact List.prefix_append _ _
      obtain ⟨-, hpay, -, hcont⟩ | ⟨n, -, hn, -, -, hpart⟩ := hstate
      · rw [buffered, hpay, List.append_nil] at hpre
        exact Leb128.not_encode_of_continuation hcont hpre
      · have hpre' : Leb128.encode n <+: d.buffered := by
          rw [buffered, hn]
          exact List.prefix_append _ _
        have hlen := Leb128.encode_append_inj hpre hpre'
        have htotal := congrArg List.length heq
        rw [buffered, hn, hlen] at htotal
        simp only [List.length_append] at htotal
        omega
  · rintro ⟨⟨hheader, hpayload, -⟩, rfl⟩
    rw [buffered, hheader, hpayload]
    exact .nil

/-- Pushing the chunks of a stream and finishing gives its meaning. -/
theorem Good.pushAll_iff (hd : Good L d) (chunks : List Bytes)
    (hlen : (d.buffered ++ chunks.flatten).length ≤ isizeMax) :
    pushAll d chunks = .ok ms ↔ Frames L (d.buffered ++ chunks.flatten) ms := by
  induction chunks generalizing d ms with
  | nil =>
    rw [List.flatten_nil, List.append_nil, hd.finish_iff]
    unfold pushAll
    rw [bind_eq_ok_iff]
    constructor
    · rintro ⟨_, hfinish, hms⟩
      cases hms
      exact ⟨hfinish, rfl⟩
    · rintro ⟨hfinish, rfl⟩
      exact ⟨(), hfinish, rfl⟩
  | cons chunk chunks ih =>
    rw [List.flatten_cons, ← List.append_assoc] at hlen ⊢
    have hpush {out : List T} {d' : Decoder} (h : push d chunk = (.ok out, d')) :
        Good L d' ∧ (d'.buffered ++ chunks.flatten).length ≤ isizeMax := by
      obtain ⟨hd', hle, -⟩ := hd.pushLoop h
      refine ⟨hd', ?_⟩
      rw [List.length_append] at hlen ⊢
      omega
    rw [hd.pushLoop_iff [] hlen]
    unfold pushAll
    constructor
    · intro h
      split at h
      · cases h
      · rename_i out d' hout
        obtain ⟨ms', hms', hms⟩ := bind_eq_ok_iff.1 h
        cases hms
        obtain ⟨hd', hlen'⟩ := hpush hout
        exact ⟨out, d', ms', hout, rfl, (ih hd' hlen').1 hms'⟩
    · rintro ⟨out, d', ms', hout, rfl, h'⟩
      obtain ⟨hd', hlen'⟩ := hpush hout
      have hrest := (ih hd' hlen').2 h'
      change push d chunk = (.ok out, d') at hout
      rw [hout]
      exact bind_eq_ok_iff.2 ⟨ms', hrest, rfl⟩

/-! ### Cutting the input -/

theorem pushLoop_error {acc : List T} {e : Abort CodecError} (hinput : input ≠ [])
    (h : pushStep (T := T) d input = (.error e, d', input')) :
    pushLoop d input acc = (.error e, d') := by
  rw [pushLoop, dif_neg hinput]
  split
  · rename_i h'
    rw [h] at h'
    cases h'
    rfl
  · rename_i h'
    rw [h] at h'
    cases h'

/-- The messages returned before stay in front. -/
theorem pushLoop_acc (d : Decoder) (input : Bytes) (acc : List T) :
    pushLoop d input acc =
      ((pushLoop d input []).1.map (acc ++ ·), (pushLoop (T := T) d input []).2) := by
  induction htodo : d.todo input using Nat.strong_induction_on generalizing d input acc with
  | _ k ih =>
    by_cases hinput : input = []
    · subst hinput
      rw [pushLoop_nil, pushLoop_nil]
      exact congrArg (Except.ok · , d) (List.append_nil acc).symm
    · cases hstep : pushStep (T := T) d input with
      | mk r rest =>
        obtain ⟨d₁, input₁⟩ := rest
        cases r with
        | error e =>
          rw [pushLoop_error hinput hstep, pushLoop_error hinput hstep]
          rfl
        | ok o =>
          have hlt := htodo ▸ todo_pushStep hinput hstep
          rw [pushLoop_ok hinput hstep, pushLoop_ok hinput hstep, ih _ hlt _ _ (acc ++ o.toList) rfl,
            ih _ hlt _ _ ([] ++ o.toList) rfl]
          cases (pushLoop (T := T) d₁ input₁ []).1 with
          | error e => rfl
          | ok ms => exact congrArg (Except.ok ·, _) (List.append_assoc _ _ _)

theorem headerStep_append (a c : Bytes) (ha : a ≠ []) :
    headerStep d (a ++ c) =
      ((headerStep d a).1, (headerStep d a).2.1, (headerStep d a).2.2 ++ c) := by
  cases a with
  | nil => exact absurd rfl ha
  | cons byte a =>
    rw [List.cons_append]
    unfold headerStep
    simp only
    split_ifs <;> (try rfl)
    split
    · rfl
    · split
      · rfl
      · split_ifs <;> rfl

/-- A payload step on more input does the same and leaves the rest, unless the payload is still
incomplete: then it is the next step. -/
theorem payloadStep_append (n : ℕ) (a c : Bytes) :
    payloadStep (T := T) d n (a ++ c) =
        ((payloadStep d n a).1, (payloadStep (T := T) d n a).2.1,
          (payloadStep (T := T) d n a).2.2 ++ c) ∨
      payloadStep (T := T) d n a = (.ok none, { d with payload := d.payload ++ a }, []) ∧
        payloadStep (T := T) d n (a ++ c) =
          payloadStep { d with payload := d.payload ++ a } n c := by
  by_cases hle : d.payload.length ≤ n
  · by_cases hmore : d.payload.length + a.length < n
    · refine Or.inr ⟨payloadStep_eq_ok_iff.2 ⟨hle, Or.inl ⟨hmore, rfl, rfl, rfl⟩⟩, ?_⟩
      have hneeded : min (n - d.payload.length) (a ++ c).length =
          a.length + min (n - (d.payload ++ a).length) c.length := by
        simp only [List.length_append]
        omega
      unfold payloadStep checkedSub
      rw [if_pos hle, if_pos (by rw [List.length_append]; omega)]
      simp only [hneeded, List.take_length_add_append, List.drop_length_add_append,
        List.append_assoc]
    · refine Or.inl ?_
      have htake : min (n - d.payload.length) (a ++ c).length =
          min (n - d.payload.length) a.length := by
        simp only [List.length_append]
        omega
      have hmin : min (n - d.payload.length) a.length ≤ a.length := Nat.min_le_right _ _
      unfold payloadStep checkedSub
      rw [if_pos hle]
      simp only [htake, List.take_append_of_le_length hmin, List.drop_append_of_le_length hmin]
      split_ifs
      · split <;> rfl
      · rfl
  · refine Or.inl ?_
    unfold payloadStep checkedSub
    rw [if_neg hle]
    rfl

/-- An iteration on more input does the same and leaves the rest, unless it takes all of its input
without completing a payload: then it is the next iteration. -/
theorem pushStep_append (a c : Bytes) (ha : a ≠ []) :
    pushStep (T := T) d (a ++ c) =
        ((pushStep d a).1, (pushStep (T := T) d a).2.1, (pushStep (T := T) d a).2.2 ++ c) ∨
      ∃ d', pushStep (T := T) d a = (.ok none, d', []) ∧
        pushStep (T := T) d (a ++ c) = pushStep d' c := by
  unfold pushStep
  rw [headerStep_append a c ha]
  cases hheader : headerStep d a with
  | mk r rest =>
    obtain ⟨d₁, a₁⟩ := rest
    cases r with
    | error e => exact Or.inl rfl
    | ok u =>
      simp only
      cases hexp : d₁.expected with
      | none => exact Or.inl rfl
      | some n =>
        obtain hsame | ⟨hpart, hnext⟩ := payloadStep_append (T := T) (d := d₁) n a₁ c
        · exact Or.inl hsame
        · refine Or.inr ⟨_, hpart, ?_⟩
          -- the length is known, so the next iteration goes on with the payload
          generalize hd₂ : { d₁ with payload := d₁.payload ++ a₁ } = d₂ at hnext
          have hexp₂ : d₂.expected = some n := by
            rw [← hd₂]
            exact hexp
          have hskip : headerStep d₂ c = (.ok (), d₂, c) :=
            headerStep_eq_ok_iff.2 (Or.inl ⟨by simp [hexp₂], rfl, rfl⟩)
          simp only [hskip, hexp₂]
          exact hnext

/-- Input may be pushed in two parts. -/
theorem pushLoop_append (d : Decoder) (a c : Bytes) (acc : List T) :
    pushLoop d (a ++ c) acc =
      match pushLoop d a acc with
      | (.ok ms, d') => pushLoop d' c ms
      | (.error e, d') => (.error e, d') := by
  induction htodo : d.todo a using Nat.strong_induction_on generalizing d a acc with
  | _ k ih =>
    by_cases ha : a = []
    · subst ha
      rw [pushLoop_nil, List.nil_append]
    · have hac : a ++ c ≠ [] := by simp [ha]
      obtain hsame | ⟨d', hpart, hnext⟩ := pushStep_append (T := T) (d := d) a c ha
      · cases hstep : pushStep (T := T) d a with
        | mk r rest =>
          obtain ⟨d₁, a₁⟩ := rest
          rw [hstep] at hsame
          cases r with
          | error e => rw [pushLoop_error ha hstep, pushLoop_error hac hsame]
          | ok o =>
            rw [pushLoop_ok ha hstep, pushLoop_ok hac hsame]
            exact ih _ (htodo ▸ todo_pushStep ha hstep) _ _ _ rfl
      · rw [pushLoop_ok ha hpart, pushLoop_nil, Option.toList_none, List.append_nil]
        simp only
        by_cases hc : c = []
        · subst hc
          rw [List.append_nil] at hac ⊢
          rw [pushLoop_ok ha hpart, pushLoop_nil, pushLoop_nil, Option.toList_none, List.append_nil]
        · cases hstep : pushStep (T := T) d' c with
          | mk r rest =>
            obtain ⟨d₁, c₁⟩ := rest
            rw [hstep] at hnext
            cases r with
            | error e => rw [pushLoop_error hac hnext, pushLoop_error hc hstep]
            | ok o => rw [pushLoop_ok hac hnext, pushLoop_ok hc hstep]

/-- The decoder does not depend on how its input is cut, up to what a failure discards. -/
theorem incremental_push : Incremental (push (T := T)) where
  nil d := pushLoop_nil d []
  append_ok {s s' ms} a c h := by
    unfold push at h ⊢
    rw [pushLoop_append, h]
    exact pushLoop_acc s' c ms
  append_error {s s' e} a c h := by
    unfold push at h ⊢
    rw [pushLoop_append, h]

/-- One byte completes a message, and then the decoder is as it was at the start, or the byte is
kept. -/
theorem Good.push_single (hd : Good L d) {x : UInt8} (h : push d [x] = (.ok ms, d')) :
    (ms = [] ∧ d' ≠ new L) ∨ ((∃ m, ms = [m]) ∧ d' = new L) := by
  obtain ⟨hnil, -⟩ | ⟨-, o, d₁, input₁, hstep, hloop⟩ := pushLoop_eq_ok h
  · cases hnil
  obtain ⟨d₂, input₂, hheader, hnext⟩ := pushStep_eq_ok_iff.1 hstep
  obtain ⟨hlimits, hstate⟩ := hd
  have hdone {o' : Option T} (hempty : Decoder.pushLoop d₁ [] ([] ++ o'.toList) = (.ok ms, d')) :
      ms = o'.toList ∧ d' = d₁ := by
    rw [pushLoop_nil] at hempty
    cases hempty
    exact ⟨rfl, rfl⟩
  obtain ⟨hexp, rfl, rfl⟩ | ⟨byte, hexp, hinput, -, hbyte⟩ := headerStep_eq_ok_iff.1 hheader
  · -- the byte belongs to the payload
    obtain ⟨hnone, -⟩ | ⟨n, hn, hpayload⟩ := hnext
    · exact absurd hnone hexp
    obtain ⟨hnone, -⟩ | ⟨_, hn', -, -, -, hpart⟩ := hstate
    · rw [hnone] at hn
      cases hn
    obtain rfl := Option.some.inj (hn.symm.trans hn')
    obtain ⟨-, ⟨-, rfl, rfl, rfl⟩ | ⟨p, m, hp, hlen, rfl, -, rfl⟩⟩ := payloadStep_eq_ok_iff.1 hpayload
    · obtain ⟨rfl, rfl⟩ := hdone hloop
      refine Or.inl ⟨rfl, fun heq => ?_⟩
      have hkept := congrArg Decoder.payload heq
      exact absurd hkept (by simp [new])
    · have hone : p = [x] ∧ input₁ = [] := by
        cases p with
        | nil =>
          rw [List.append_nil] at hlen
          omega
        | cons y p =>
          obtain ⟨rfl, hrest⟩ := List.cons.inj hp
          obtain ⟨rfl, rfl⟩ := List.append_eq_nil_iff.1 hrest.symm
          exact ⟨rfl, rfl⟩
      obtain ⟨rfl, rfl⟩ := hone
      obtain ⟨rfl, rfl⟩ := hdone hloop
      refine Or.inr ⟨⟨m, rfl⟩, ?_⟩
      rw [← hlimits]
      rfl
  · -- the byte belongs to the header
    obtain ⟨rfl, rfl⟩ := List.cons.inj hinput
    obtain ⟨-, hempty, -⟩ | ⟨n, hn, -⟩ := hstate
    · have hheader₂ : d₂.header ≠ [] := by
        obtain ⟨-, rfl⟩ | ⟨n, -, -, -, -, rfl⟩ := hbyte <;> simp
      have hkept : d₁.header = d₂.header ∧ o = none ∧ input₁ = [] := by
        obtain ⟨-, rfl, rfl, rfl⟩ | ⟨n, hn, hpayload⟩ := hnext
        · exact ⟨rfl, rfl, rfl⟩
        · obtain ⟨-, ⟨-, rfl, rfl, rfl⟩ | ⟨p, m, hp, hlen, -⟩⟩ := payloadStep_eq_ok_iff.1 hpayload
          · exact ⟨rfl, rfl, rfl⟩
          · exfalso
            obtain ⟨rfl, -⟩ := List.append_eq_nil_iff.1 hp.symm
            obtain ⟨-, rfl⟩ | ⟨n', -, -, hmin, -, rfl⟩ := hbyte
            · rw [hexp] at hn
              cases hn
            · obtain rfl := Option.some.inj hn
              rw [List.append_nil, hempty, List.length_nil] at hlen
              omega
      obtain ⟨hkept, rfl, rfl⟩ := hkept
      obtain ⟨rfl, rfl⟩ := hdone hloop
      refine Or.inl ⟨rfl, fun heq => hheader₂ ?_⟩
      rw [← hkept, heq]
      rfl
    · rw [hexp] at hn
      cases hn

end Decoder

/-- **The incremental decoder accepts exactly concatenations of frames, whatever the chunks.** -/
theorem decoder_accepts_iff {T : Type} [WireMessage T] (L : CodecLimits) (w : Slice) (ms : List T)
    (chunks : List Bytes) (hchunks : chunks.flatten = w.1) :
    Decoder.pushAll (Decoder.new L) chunks = .ok ms ↔
      ∃ ws : List Slice, (ws.map Subtype.val).flatten = w.1 ∧
        List.Forall₂ (fun wi mi => decode wi L = .ok mi) ws ms := by
  have hgood := Decoder.good_new L
  have hlen : ((Decoder.new L).buffered ++ chunks.flatten).length ≤ isizeMax := by
    rw [hchunks]
    exact w.2
  rw [hgood.pushAll_iff chunks hlen, ← frames_iff_decode, hchunks]
  rfl

/-- Two frames in three chunks, the first cut inside a payload and the second empty. -/
theorem decoder_accepts_two :
    [[3, 11, 1], [], [0, 3, 7, 1, 0]].flatten = ([3, 11, 1, 0, 3, 7, 1, 0] : Bytes) ∧
    Decoder.pushAll (Decoder.new ⟨128, 32, 4, 4⟩) [[3, 11, 1], [], [0, 3, 7, 1, 0]] =
      .ok [Control.planEnd, Control.startAccepted] :=
  ⟨rfl, (decoder_accepts_iff _ ⟨[3, 11, 1, 0, 3, 7, 1, 0], by decide⟩ _ _ rfl).2
    ⟨[⟨[3, 11, 1, 0], by decide⟩, ⟨[3, 7, 1, 0], by decide⟩], rfl,
      .cons (by decide +kernel) (.cons (by decide +kernel) .nil)⟩⟩

end QuicSync
