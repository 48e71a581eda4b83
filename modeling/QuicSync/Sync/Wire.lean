import QuicSync.Protocol.Decoder
import QuicSync.Transport.Bounds

/-!
# Messages from a stream

An endpoint reads a stream in chunks, as the transport delivers them, and takes messages from it
one at a time.  `Messages` holds the decoder and the messages that a chunk completed but nobody has
taken yet.

`next` discards the messages of a chunk that fails, even those of complete frames, and the
destination's last look at the control stream (`finalControl`) sees the bytes that are still
unread, not those that came with the first message.  So what a session does can depend on the
chunks: `splits_agree_iff` says exactly when it does not.
-/

namespace QuicSync

/-- The text of a codec error. -/
def CodecError.message : CodecError → String
  | invalidLimits => "invalid codec limits"
  | frameTooLarge declared maximum =>
    "frame length " ++ toString declared.toNat ++ " exceeds local limit " ++ toString maximum.toNat
  | varintOverflow => "varint overflows u64"
  | nonCanonicalVarint => "varint is not minimally encoded"
  | unexpectedEof => "unexpected end of frame"
  | trailingBytes => "frame contains trailing bytes"
  | unknownMessageKind kind => "unknown message kind " ++ toString kind.toNat
  | unsupportedVersion version => "unsupported protocol version " ++ toString version.get.toNat
  | invalidValue name => "invalid " ++ name
  | duplicateValue name => "duplicate " ++ name
  | nonCanonicalOrder name => "noncanonical " ++ name ++ " order"
  | limitExceeded name => name ++ " exceeds local limit"

namespace Wire

/-- An error of this module. -/
def failure (message : String) : QuicSyncError :=
  QuicSyncError.new .operationFailed none (.text message)

/-- An error of this module for the end of a codec function. -/
def codecFailure : Abort CodecError → Abort QuicSyncError
  | .error error => .error (failure error.message)
  | .panic => .panic

/-- Encode a message within an endpoint's limits. -/
def encode {T : Type} [WireMessage T] (message : T) (limits : Limits) :
    Except (Abort QuicSyncError) Slice :=
  (QuicSync.encode message (CodecLimits.ofLimits limits)).mapError codecFailure

end Wire

/-! ### What is decoded can be sent -/

namespace Decoder

variable {T : Type} [WireMessage T] [WireFormat T] {L : CodecLimits} {d d' : Decoder}

/-- An iteration returns a message that can be sent under the same limits. -/
theorem Good.sendable_pushStep {input input' : Bytes} {m : T} (hd : Good L d)
    (h : Decoder.pushStep d input = (.ok (some m), d', input')) : Sendable L m := by
  obtain ⟨d₁, input₁, hheader, hnext⟩ := pushStep_eq_ok_iff.1 h
  obtain ⟨⟨hlimits, hstate⟩, -⟩ := hd.headerStep hheader
  obtain ⟨-, hnone, -⟩ | ⟨n, hexp, hpay⟩ := hnext
  · cases hnone
  · obtain ⟨-, ⟨-, hnone, -⟩ | ⟨p, m', -, hlen, hm', hdecode, -⟩⟩ := payloadStep_eq_ok_iff.1 hpay
    · cases hnone
    · obtain rfl := Option.some.inj hm'
      obtain ⟨hnone, -⟩ | ⟨n', hexp', -, hmax, -⟩ := hstate
      · rw [hnone] at hexp
        cases hexp
      · obtain rfl := Option.some.inj (hexp.symm.trans hexp')
        rw [hlimits] at hdecode
        have hword : (d₁.payload ++ p).length < wordSize := by
          rw [hlen]
          exact lt_of_le_of_lt hmax L.maxFrameBytes.toNat_lt
        obtain ⟨⟨hfits, -⟩, hpayload⟩ := (decodePayload_eq_ok_iff hword).1 hdecode
        refine ⟨hfits, ?_⟩
        rw [← hpayload, hlen]
        exact hmax

/-- A push returns messages that can be sent under the same limits. -/
theorem Good.sendable_pushLoop {input : Bytes} {acc out : List T} (hd : Good L d)
    (h : Decoder.pushLoop d input acc = (.ok out, d')) (hacc : ∀ m ∈ acc, Sendable L m) :
    ∀ m ∈ out, Sendable L m := by
  induction htodo : d.todo input using Nat.strong_induction_on generalizing d input acc with
  | _ k ih =>
    obtain ⟨rfl, rfl, rfl⟩ | ⟨hinput, o, d₁, input₁, hstep, hloop⟩ := pushLoop_eq_ok h
    · exact hacc
    · refine ih _ (htodo ▸ todo_pushStep hinput hstep) (hd.pushStep hstep).1 hloop ?_ rfl
      intro m hm
      obtain hm | hm := List.mem_append.1 hm
      · exact hacc m hm
      · obtain rfl := Option.mem_toList.1 hm
        exact hd.sendable_pushStep hstep

/-- The messages of a stream can be sent under the same limits. -/
theorem Good.sendable_drain {chunks : List Bytes} (hd : Good L d) :
    ∀ m ∈ drain (push (T := T)) d chunks, Sendable L m := by
  induction chunks generalizing d with
  | nil =>
    intro m hm
    cases hm
  | cons chunk chunks ih =>
    intro m hm
    rw [drain] at hm
    cases hpush : push (T := T) d chunk with
    | mk result d₁ =>
      rw [hpush] at hm
      cases result with
      | error e => cases hm
      | ok ms =>
        obtain hm | hm := List.mem_append.1 hm
        · exact hd.sendable_pushLoop hpush (fun _ h => absurd h List.not_mem_nil) m hm
        · exact ih (hd.pushLoop hpush).1 m hm

end Decoder

/-- The messages of one stream. -/
structure Messages (T : Type) where
  decoder : Decoder
  /-- Messages that are complete and have not been taken. -/
  pending : List T
  /-- The length of the buffer that chunks are read into. -/
  bufferLen : ℕ

namespace Messages

variable {T : Type} [WireMessage T]

def new (T : Type) (limits : Limits) : Messages T where
  decoder := Decoder.new (CodecLimits.ofLimits limits)
  pending := []
  bufferLen := min limits.maxFrameBytes.toNat (64 * 1024)

/-- Take the next message; `chunks` is what the reads to come return.  Also what is left of them. -/
def next : List Bytes → Messages T → Except (Abort QuicSyncError) T × Messages T × List Bytes
  | [], messages =>
    match messages.pending with
    | message :: pending => (.ok message, { messages with pending := pending }, [])
    | [] => (.error (.error (Wire.failure "stream closed before expected message")), messages, [])
  | chunk :: chunks, messages =>
    match messages.pending with
    | message :: pending => (.ok message, { messages with pending := pending }, chunk :: chunks)
    | [] =>
      match messages.decoder.push chunk with
      -- the messages that the chunk completed before it failed are lost
      | (.error e, decoder) =>
        (.error (Wire.codecFailure e), { messages with decoder := decoder }, chunks)
      | (.ok pending, decoder) =>
        next chunks { messages with decoder := decoder, pending := pending }

variable {messages messages' : Messages T} {chunks chunks' : List Bytes} {message : T}

theorem next_pending {pending : List T} (h : messages.pending = message :: pending) :
    next chunks messages = (.ok message, { messages with pending := pending }, chunks) := by
  cases chunks with
  | nil =>
    unfold next
    simp only [h]
  | cons chunk chunks =>
    unfold next
    simp only [h]

theorem next_closed (h : messages.pending = []) : next [] messages =
    (.error (.error (Wire.failure "stream closed before expected message")), messages, []) := by
  unfold next
  simp only [h]

theorem next_error {chunk : Bytes} {e : Abort CodecError} {decoder : Decoder}
    (h : messages.pending = []) (hpush : messages.decoder.push (T := T) chunk = (.error e, decoder)) :
    next (chunk :: chunks) messages =
      (.error (Wire.codecFailure e), { messages with decoder := decoder }, chunks) := by
  conv_lhs => unfold next
  simp only [h, hpush]

theorem next_push {chunk : Bytes} {pending : List T} {decoder : Decoder}
    (h : messages.pending = []) (hpush : messages.decoder.push chunk = (.ok pending, decoder)) :
    next (chunk :: chunks) messages =
      next chunks { messages with decoder := decoder, pending := pending } := by
  conv_lhs => unfold next
  simp only [h, hpush]

theorem length_next (h : next chunks messages = (.ok message, messages', chunks')) :
    chunks'.length ≤ chunks.length := by
  fun_induction next chunks messages with
  | case1 messages m pending hpending =>
    cases h
    exact le_rfl
  | case2 messages hpending => cases h
  | case3 chunk chunks messages m pending hpending =>
    cases h
    exact le_rfl
  | case4 chunk chunks messages hpending e decoder hpush => cases h
  | case5 chunk chunks messages hpending pending decoder hpush ih =>
    exact (ih h).trans (Nat.le_succ _)

/-- A message that is returned was pending, or chunks have been read. -/
theorem next_ok (h : next chunks messages = (.ok message, messages', chunks')) :
    Prod.Lex (· < ·) (· < ·) (chunks'.length, messages'.pending.length)
      (chunks.length, messages.pending.length) := by
  cases hpending : messages.pending with
  | cons m pending =>
    rw [next_pending hpending] at h
    cases h
    exact Prod.Lex.right _ (Nat.lt_succ_self _)
  | nil =>
    refine Prod.Lex.left _ _ ?_
    rcases chunks with _ | ⟨chunk, chunks⟩
    · rw [next_closed hpending] at h
      cases h
    · rcases hpush : messages.decoder.push (T := T) chunk with ⟨e | pending, decoder⟩
      · rw [next_error hpending hpush] at h
        cases h
      · rw [next_push hpending hpush] at h
        exact Nat.lt_succ_of_le (length_next h)

/-- The messages that successive calls return before the first error. -/
def successive (messages : Messages T) (chunks : List Bytes) : List T :=
  match _h : next chunks messages with
  | (.error _, _, _) => []
  | (.ok message, messages', chunks') => message :: successive messages' chunks'
termination_by (chunks.length, messages.pending.length)
decreasing_by exact next_ok _h

theorem successive_error {e : Abort QuicSyncError}
    (h : next chunks messages = (.error e, messages', chunks')) : successive messages chunks = [] := by
  rw [successive]
  split
  · rfl
  · rename_i h'
    rw [h] at h'
    cases h'

theorem successive_ok (h : next chunks messages = (.ok message, messages', chunks')) :
    successive messages chunks = message :: successive messages' chunks' := by
  rw [successive]
  split
  · rename_i h'
    rw [h] at h'
    cases h'
  · rename_i h'
    rw [h] at h'
    cases h'
    rfl

theorem successive_congr (h : next chunks messages = next chunks' messages') :
    successive messages chunks = successive messages' chunks' := by
  cases hnext : next chunks' messages' with
  | mk r rest =>
    rw [hnext] at h
    cases r with
    | error e => rw [successive_error h, successive_error hnext]
    | ok m => rw [successive_ok h, successive_ok hnext]

/-- Without pending messages, the first call is the first of the chunks to complete one. -/
theorem next_eq_firstSeen (messages : Messages T) (chunks : List Bytes)
    (h : messages.pending = []) :
    ((next chunks messages).1.toOption.map fun m => (m, (next chunks messages).2.2)) =
      firstSeen (Decoder.push (T := T)) messages.decoder chunks := by
  induction chunks generalizing messages with
  | nil =>
    rw [next_closed h]
    rfl
  | cons chunk chunks ih =>
    rw [firstSeen]
    cases hpush : messages.decoder.push (T := T) chunk with
    | mk r decoder =>
      rcases r with e | (_ | ⟨m, pending⟩)
      · rw [next_error h hpush]
        rfl
      · rw [next_push h hpush]
        exact ih _ rfl
      · rw [next_push h hpush, next_pending rfl]
        rfl

/-- What is pending is returned first. -/
theorem successive_pending (messages : Messages T) (chunks : List Bytes) :
    successive messages chunks =
      messages.pending ++ successive { messages with pending := [] } chunks := by
  induction hpending : messages.pending generalizing messages with
  | nil =>
    rw [List.nil_append, ← hpending]
  | cons m pending ih => rw [successive_ok (next_pending hpending), ih _ rfl, List.cons_append]

/-- Successive calls return what is pending and then drain the chunks. -/
theorem successive_eq (messages : Messages T) (chunks : List Bytes) :
    successive messages chunks =
      messages.pending ++ drain (Decoder.push (T := T)) messages.decoder chunks := by
  rw [successive_pending]
  refine congrArg _ ?_
  induction chunks generalizing messages with
  | nil => exact successive_error (next_closed rfl)
  | cons chunk chunks ih =>
    rw [drain]
    cases hpush : messages.decoder.push (T := T) chunk with
    | mk r decoder =>
      cases r with
      | error e => exact successive_error (next_error rfl hpush)
      | ok pending =>
        have hnext : next (chunk :: chunks) { messages with pending := [] } =
            next chunks ⟨decoder, pending, messages.bufferLen⟩ := next_push rfl hpush
        rw [successive_congr hnext, successive_pending]
        exact congrArg _ (ih ⟨decoder, pending, messages.bufferLen⟩)

end Messages

/-! ### The control stream of the destination -/

/-- The first message of a session, and what is left of the control stream. -/
def receiveStart (limits : Limits) (chunks : List Bytes) :
    Except (Abort QuicSyncError) (String × List Bytes) :=
  match Messages.next chunks (Messages.new Control limits) with
  | (.ok (.startSync rootId), _, chunks) => .ok (rootId, chunks)
  | (.ok _, _, _) => .error (.error (Wire.failure "expected StartSync"))
  | (.error e, _, _) => .error e

/-- The last look at the control stream: a read of one byte finds its end. -/
def finalControl : List Bytes → Except (Abort QuicSyncError) Unit
  | [] => .ok ()
  | _ => .error (.error (Wire.failure "unexpected source control message"))

/-- What the destination does with the control stream of a session: the requested root, if the
stream is accepted. -/
def serveControl (limits : Limits) (chunks : List Bytes) : Except (Abort QuicSyncError) String := do
  let (rootId, chunks) ← receiveStart limits chunks
  finalControl chunks
  pure rootId

/-- The message starts a session. -/
def Control.IsStart (message : Control) : Prop := ∃ rootId, message = .startSync rootId

theorem serveControl_iff {limits : Limits} {chunks : List Bytes} :
    (∃ rootId, serveControl limits chunks = .ok rootId) ↔
      AcceptsFirst (Decoder.push (T := Control)) Control.IsStart
        (Decoder.new (CodecLimits.ofLimits limits)) chunks := by
  have hfirst := Messages.next_eq_firstSeen (Messages.new Control limits) chunks rfl
  change _ = firstSeen (Decoder.push (T := Control)) (Decoder.new (CodecLimits.ofLimits limits))
    chunks at hfirst
  unfold AcceptsFirst
  rw [← hfirst]
  have hstart : ∀ rootId, serveControl limits chunks = .ok rootId ↔
      receiveStart limits chunks = .ok (rootId, []) := by
    intro rootId
    unfold serveControl
    rw [bind_eq_ok_iff]
    constructor
    · rintro ⟨⟨rootId', chunks'⟩, hreceive, hrest⟩
      obtain ⟨u, hfinal, hroot⟩ := bind_eq_ok_iff.1 hrest
      cases hroot
      cases chunks' with
      | nil => exact hreceive
      | cons chunk chunks' => cases hfinal
    · intro hreceive
      exact ⟨_, hreceive, rfl⟩
  simp only [hstart]
  unfold receiveStart
  cases hnext : Messages.next chunks (Messages.new Control limits) with
  | mk r rest =>
    obtain ⟨messages', chunks'⟩ := rest
    match r with
    | .error e =>
      constructor
      · rintro ⟨rootId, h⟩
        cases h
      · rintro ⟨message, -, h⟩
        cases h
    | .ok message =>
      constructor
      · rintro ⟨rootId, h⟩
        cases message with
        | startSync rootId' =>
          cases h
          exact ⟨_, ⟨rootId, rfl⟩, rfl⟩
        | startAccepted => cases h
        | operation operation => cases h
        | planEnd => cases h
        | completeAck => cases h
        | failure failure => cases h
      · rintro ⟨_, ⟨rootId, rfl⟩, h⟩
        cases h
        exact ⟨rootId, rfl⟩

/-! ### How the streams are cut -/

section

variable {T : Type} [WireMessage T] {L : CodecLimits}

/-- The bytes are whole frames: the decoder takes them and is then as it was at the start. -/
def WholeFrames (L : CodecLimits) (bytes : Bytes) (messages : List T) : Prop :=
  Decoder.push (Decoder.new L) bytes = (.ok messages, Decoder.new L)

/-- The decoder finds a malformed frame in the bytes. -/
def Malformed (T : Type) [WireMessage T] (L : CodecLimits) (bytes : Bytes) : Prop :=
  Fails (Decoder.push (T := T)) (Decoder.new L) bytes

/-- A byte that completes messages ends a frame. -/
theorem completes_iff {a : Bytes} {ms ms' : List T} {d : Decoder} :
    Completes Decoder.push (Decoder.new L) a ms ms' d ↔
      (∃ m, ms' = [m]) ∧ d = Decoder.new L ∧ WholeFrames L a (ms ++ ms') := by
  have hinc : Incremental (Decoder.push (T := T)) := Decoder.incremental_push
  have hgood {a₀ : Bytes} {d₀ : Decoder} {out : List T}
      (h : Decoder.push (Decoder.new L) a₀ = (.ok out, d₀)) : Decoder.Good L d₀ :=
    ((Decoder.good_new L).pushLoop h).1
  constructor
  · intro h
    have hpush := Incremental.Completes.push_eq hinc h
    obtain ⟨a₀, x, d₀, rfl, ha₀, hx, hne⟩ := h
    obtain ⟨rfl, -⟩ | ⟨hm, rfl⟩ := (hgood ha₀).push_single hx
    · exact absurd rfl hne
    · exact ⟨hm, rfl, hpush⟩
  · rintro ⟨⟨m, rfl⟩, rfl, hwhole⟩
    have hne : a ≠ [] := by
      rintro rfl
      rw [WholeFrames, hinc.nil] at hwhole
      have hnil := Except.ok.inj (Prod.mk.inj hwhole).1
      exact absurd hnil.symm (by simp)
    obtain ⟨a₀, x, rfl⟩ : ∃ a₀ x, a = a₀ ++ [x] :=
      ⟨_, _, (List.dropLast_append_getLast hne).symm⟩
    obtain ⟨ms₁, ms₂, d₀, ha₀, hx, heq⟩ := hinc.push_append_ok hwhole
    obtain ⟨-, hnew⟩ | ⟨⟨m', rfl⟩, -⟩ := (hgood ha₀).push_single hx
    · exact absurd rfl hnew
    · obtain ⟨rfl, hm⟩ := List.append_inj' heq rfl
      obtain rfl := List.singleton_inj.1 hm
      exact ⟨a₀, x, d₀, rfl, ha₀, hx, by simp⟩

/-- Whole frames that are not empty end with a message. -/
theorem WholeFrames.concat {a : Bytes} {ms : List T} (h : WholeFrames L a ms) (hne : a ≠ []) :
    ∃ ms₀ m, ms = ms₀ ++ [m] := by
  have hinc : Incremental (Decoder.push (T := T)) := Decoder.incremental_push
  obtain ⟨a₀, x, rfl⟩ : ∃ a₀ x, a = a₀ ++ [x] := ⟨_, _, (List.dropLast_append_getLast hne).symm⟩
  obtain ⟨ms₁, ms₂, d₀, ha₀, hx, rfl⟩ := hinc.push_append_ok h
  obtain ⟨-, hnew⟩ | ⟨⟨m, rfl⟩, -⟩ := ((Decoder.good_new L).pushLoop ha₀).1.push_single hx
  · exact absurd rfl hnew
  · exact ⟨ms₁, m, rfl⟩

theorem WholeFrames.nil : WholeFrames (T := T) L [] [] := Decoder.incremental_push.nil _

theorem WholeFrames.append {a b : Bytes} {ms ms' : List T} (h : WholeFrames L a ms)
    (h' : WholeFrames L b ms') : WholeFrames L (a ++ b) (ms ++ ms') :=
  Decoder.incremental_push.push_append h h'

/-- The frame of a message is a whole frame. -/
theorem wholeFrames_frame [WireFormat T] {m : T} {w : Slice} (h : encode m L = .ok w) :
    WholeFrames L w.1 [m] := by
  have hdecode : decode w L = .ok m := decode_eq_ok_iff_encode.2 h
  have hall : Decoder.pushAll (Decoder.new L) [w.1] = .ok [m] :=
    (decoder_accepts_iff L w [m] [w.1] (List.flatten_singleton)).2
      ⟨[w], List.flatten_singleton, .cons hdecode .nil⟩
  unfold Decoder.pushAll at hall
  split at hall
  · cases hall
  · rename_i out d hpush
    obtain ⟨ms, hrest, hout⟩ := bind_eq_ok_iff.1 hall
    unfold Decoder.pushAll at hrest
    obtain ⟨_, hfinish, hms⟩ := bind_eq_ok_iff.1 hrest
    obtain rfl := Except.ok.inj hms
    have hmessages : out ++ [] = [m] := Except.ok.inj hout
    rw [List.append_nil] at hmessages
    subst hmessages
    have hgood := ((Decoder.good_new L).pushLoop hpush).1
    -- a decoder that may finish holds nothing
    have hnew : d = Decoder.new L := by
      obtain ⟨limits, header, expected, payload⟩ := d
      obtain rfl : limits = L := hgood.1
      unfold Decoder.finish codecError at hfinish
      simp only [List.length_eq_zero_iff] at hfinish
      split at hfinish
      · rename_i hempty
        obtain ⟨rfl, rfl, rfl⟩ : header = [] ∧ payload = [] ∧ expected = none := by simpa using hempty
        rfl
      · cases hfinish
    rw [WholeFrames, hpush, hnew]

/-- A malformed frame is found within less than `n` bytes behind whole frames. -/
def MalformedBehind (T : Type) [WireMessage T] (L : CodecLimits) (n : ℕ) (bytes : Bytes) : Prop :=
  ∃ (a c rest : Bytes) (ms : List T), bytes = a ++ c ++ rest ∧ a ≠ [] ∧ WholeFrames L a ms ∧
    c.length < n ∧ Malformed T L c

theorem lossy_iff {n : ℕ} {bytes : Bytes} :
    Lossy (Decoder.push (T := T)) n (Decoder.new L) bytes ↔ MalformedBehind T L n bytes := by
  constructor
  · rintro ⟨a, c, rest, ms, ms', d, hbytes, hcompletes, hlt, hfail⟩
    obtain ⟨-, rfl, hwhole⟩ := completes_iff.1 hcompletes
    obtain ⟨a₀, x, -, rfl, -⟩ := hcompletes
    exact ⟨_, c, rest, _, hbytes, by simp, hwhole, hlt, hfail⟩
  · rintro ⟨a, c, rest, ms, hbytes, hne, hwhole, hlt, hfail⟩
    obtain ⟨ms₀, m, rfl⟩ := hwhole.concat hne
    exact ⟨a, c, rest, ms₀, [m], _, hbytes, completes_iff.2 ⟨⟨m, rfl⟩, rfl, hwhole⟩, hlt, hfail⟩

/-- A frame that starts a session is followed by more bytes, less than `n`, without a malformed
frame. -/
def FollowedStart (L : CodecLimits) (n : ℕ) (bytes : Bytes) : Prop :=
  ∃ a rest rootId, bytes = a ++ rest ∧ WholeFrames L a [Control.startSync rootId] ∧ rest ≠ [] ∧
    rest.length < n ∧ ¬ Malformed Control L rest

theorem overrun_iff {n : ℕ} {bytes : Bytes} :
    Overrun (Decoder.push (T := Control)) Control.IsStart n (Decoder.new L) bytes ↔
      FollowedStart L n bytes := by
  constructor
  · rintro ⟨a, rest, m, ms, d, hbytes, hcompletes, ⟨rootId, rfl⟩, hne, hlt, hok⟩
    obtain ⟨⟨m', hm⟩, rfl, hwhole⟩ := completes_iff.1 hcompletes
    obtain ⟨rfl, rfl⟩ := List.cons.inj hm
    exact ⟨a, rest, rootId, hbytes, hwhole, hne, hlt, hok⟩
  · rintro ⟨a, rest, rootId, hbytes, hwhole, hne, hlt, hok⟩
    exact ⟨a, rest, _, [], _, hbytes, completes_iff.2 ⟨⟨_, rfl⟩, rfl, hwhole⟩, ⟨rootId, rfl⟩, hne,
      hlt, hok⟩

end

/-- **When the chunks of a stream do not matter.**  Whether the destination accepts a control
stream is the same however the stream is read, if and only if it does not go on behind a frame that
starts the session with less than a buffer of well-formed bytes.  The messages returned before the
first error are the same however a stream is read, if and only if no malformed frame is found less
than a buffer behind whole frames. -/
theorem splits_agree_iff (limits : Limits) :
    (∀ bytes : Bytes,
      (∀ chunks chunks', Reads (Messages.new Control limits).bufferLen bytes chunks →
          Reads (Messages.new Control limits).bufferLen bytes chunks' →
          ((∃ rootId, serveControl limits chunks = .ok rootId) ↔
            ∃ rootId, serveControl limits chunks' = .ok rootId)) ↔
        ¬ FollowedStart (CodecLimits.ofLimits limits) (Messages.new Control limits).bufferLen
          bytes) ∧
    ∀ (T : Type) [WireMessage T] (bytes : Bytes),
      (∀ chunks chunks', Reads (Messages.new T limits).bufferLen bytes chunks →
          Reads (Messages.new T limits).bufferLen bytes chunks' →
          (Messages.new T limits).successive chunks = (Messages.new T limits).successive chunks') ↔
        ¬ MalformedBehind T (CodecLimits.ofLimits limits) (Messages.new T limits).bufferLen
          bytes := by
  refine ⟨fun bytes => ?_, fun T _ bytes => ?_⟩
  · simp only [serveControl_iff]
    rw [← overrun_iff]
    exact Decoder.incremental_push.acceptsFirst_iff
  · simp only [Messages.successive_eq]
    rw [← lossy_iff]
    exact Decoder.incremental_push.drain_eq_iff

namespace Wire

/-- The frame of a request for the root named `root`. -/
def startFrame : Bytes := [8, 3, 1, 0, 4] ++ ascii "root"

/-- The frame of a second message. -/
def extraFrame : Bytes := [3, 11, 1, 0]

/-- A frame of an unknown kind. -/
def malformedFrame : Bytes := [3, 99, 1, 0]

theorem reads_together (a b : Bytes) (ha : a ≠ []) (hlen : (a ++ b).length ≤ 64 * 1024) :
    Reads (Messages.new Control defaultLimits).bufferLen (a ++ b) [a ++ b] := by
  refine ⟨List.flatten_singleton, fun c hc => ?_⟩
  obtain rfl := List.mem_singleton.1 hc
  exact ⟨by simp [ha], hlen⟩

theorem reads_apart (a b : Bytes) (ha : a ≠ []) (hb : b ≠ [])
    (hlen : (a ++ b).length ≤ 64 * 1024) :
    Reads (Messages.new Control defaultLimits).bufferLen (a ++ b) [a, b] := by
  have hbuffer : (Messages.new Control defaultLimits).bufferLen = 64 * 1024 := rfl
  rw [List.length_append] at hlen
  refine ⟨by simp, fun c hc => ?_⟩
  obtain rfl | hc := List.mem_cons.1 hc
  · exact ⟨ha, by omega⟩
  · obtain rfl := List.mem_singleton.1 hc
    exact ⟨hb, by omega⟩

end Wire

/-- A second message behind the start: accepted when both come in one chunk, refused when they come
in two.  A malformed frame behind the start: the start is lost when both come in one chunk. -/
theorem splits_disagree :
    ¬ ((∀ (limits : Limits) (bytes : Bytes) (chunks chunks' : List Bytes),
          Reads (Messages.new Control limits).bufferLen bytes chunks →
          Reads (Messages.new Control limits).bufferLen bytes chunks' →
          ((∃ rootId, serveControl limits chunks = .ok rootId) ↔
            ∃ rootId, serveControl limits chunks' = .ok rootId)) ∨
      ∀ (limits : Limits) (bytes : Bytes) (chunks chunks' : List Bytes),
        Reads (Messages.new Control limits).bufferLen bytes chunks →
        Reads (Messages.new Control limits).bufferLen bytes chunks' →
        (Messages.new Control limits).successive chunks =
          (Messages.new Control limits).successive chunks') := by
  rintro (h | h)
  · have hiff := h defaultLimits (Wire.startFrame ++ Wire.extraFrame) _ _
      (Wire.reads_together _ _ (by decide) (by decide))
      (Wire.reads_apart _ _ (by decide) (by decide) (by decide))
    have htogether : serveControl defaultLimits [Wire.startFrame ++ Wire.extraFrame] =
        .ok "root" := by decide +kernel
    have hapart : (serveControl defaultLimits [Wire.startFrame, Wire.extraFrame]).toOption =
        none := by decide +kernel
    obtain ⟨rootId, hok⟩ := hiff.1 ⟨_, htogether⟩
    rw [hok] at hapart
    cases hapart
  · have heq := h defaultLimits (Wire.startFrame ++ Wire.malformedFrame) _ _
      (Wire.reads_together _ _ (by decide) (by decide))
      (Wire.reads_apart _ _ (by decide) (by decide) (by decide))
    rw [Messages.successive_eq, Messages.successive_eq] at heq
    revert heq
    decide +kernel

end QuicSync
