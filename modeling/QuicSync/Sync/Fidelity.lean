import QuicSync.Sync.Requesting
import QuicSync.Sync.Transfer

/-!
# What a transfer delivers

The two ends of a transfer stream are computations of their own; what connects them is that each
reads the bytes that the other sends, cut in any way.  `Talks` says what an end takes and sends, in
messages, so that the bytes and their cuts are dealt with once, for one message in each direction.

* `transfer_faithful`: **the destination stages the content of the source's file**, for a request to
  create it and for one to update it, and both ends succeed.
* `receiveFile_refuses`: a destination that is not sent pieces of content up to their end stages
  nothing.
-/

namespace QuicSync

namespace Transfer

open Posix

namespace Wire

/-! ### Messages in the bytes to come -/

/-- The wire after reading. -/
def after (s : Wire) (decoder : Decoder) (pending : List FileTransfer) (incoming : List Bytes) :
    Wire :=
  { s with decoder := decoder, pending := pending, stream := { s.stream with incoming := incoming } }

/-- The messages to come, all of them well-formed. -/
def Holds (s : Wire) (ms : List FileTransfer) : Prop :=
  ∃ rest d, s.decoder.push s.stream.incoming.flatten = (.ok rest, d) ∧ ms = s.pending ++ rest

variable {s s' : Wire} {m : FileTransfer} {ms : List FileTransfer}

/-- The loop of `next` takes the first message to come, wherever the chunks are cut. -/
theorem nextFrom_holds {chunks : List Bytes} {rest : List FileTransfer} {d : Decoder}
    (hpush : s.decoder.push chunks.flatten = (.ok rest, d)) (h : m :: ms = s.pending ++ rest) :
    ∃ decoder pending incoming, nextFrom chunks s = (.ok m, s.after decoder pending incoming) ∧
      Holds (s.after decoder pending incoming) ms := by
  induction chunks generalizing s rest with
  | nil =>
    rw [List.flatten_nil, Decoder.incremental_push.nil] at hpush
    obtain ⟨hrest, -⟩ := Prod.mk.inj hpush
    obtain rfl := Except.ok.inj hrest
    rw [List.append_nil] at h
    refine ⟨s.decoder, ms, [], nextFrom_pending h.symm, [], s.decoder, ?_, (List.append_nil _).symm⟩
    exact Decoder.incremental_push.nil _
  | cons chunk chunks ih =>
    cases hpending : s.pending with
    | cons m' pending =>
      rw [hpending] at h
      obtain ⟨rfl, rfl⟩ := List.cons.inj h
      exact ⟨s.decoder, pending, chunk :: chunks, nextFrom_pending hpending, rest, d, hpush, rfl⟩
    | nil =>
      rw [List.flatten_cons] at hpush
      obtain ⟨ms₁, ms₂, d₁, hchunk, hchunks, rfl⟩ := Decoder.incremental_push.push_append_ok hpush
      rw [hpending, List.nil_append] at h
      rw [nextFrom_push hpending hchunk]
      -- what the chunk completes is pending for the rest of the loop
      exact ih (s := { s with decoder := d₁, pending := ms₁ }) hchunks h

theorem next_holds (h : Holds s (m :: ms)) :
    ∃ decoder pending incoming, next s = (.ok m, s.after decoder pending incoming) ∧
      Holds (s.after decoder pending incoming) ms := by
  obtain ⟨rest, d, hpush, hms⟩ := h
  exact nextFrom_holds hpush hms

/-- Taking a message changes nothing but what is to come. -/
theorem nextFrom_after (chunks : List Bytes) (s : Wire) :
    ∃ decoder pending incoming, (nextFrom chunks s).2 = s.after decoder pending incoming := by
  fun_induction nextFrom chunks s with
  | case1 s m pending hpending => exact ⟨s.decoder, pending, [], rfl⟩
  | case2 s hpending => exact ⟨s.decoder, s.pending, [], rfl⟩
  | case3 chunk chunks s m pending hpending => exact ⟨s.decoder, pending, chunk :: chunks, rfl⟩
  | case4 chunk chunks s hpending e decoder hpush => exact ⟨decoder, s.pending, chunks, rfl⟩
  | case5 chunk chunks s hpending pending decoder hpush ih => exact ih

/-- The wire after sending frames. -/
def sentAll (s : Wire) (frames : List Bytes) : Wire :=
  { s with stream := { s.stream with outgoing := s.stream.outgoing ++ frames } }

/-- The end of a stream that works, under the given limits. -/
structure Open (limits : Limits) (s : Wire) : Prop where
  limits_eq : s.limits = CodecLimits.ofLimits limits
  bounds_eq : s.stream.bounds = TransportBounds.fromLimits limits
  unbroken : s.stream.breaks = none
  size_eq : s.chunkSize = min (limits.maxFrameBytes.toNat - 32) (64 * 1024)

end Wire

/-- The message is encoded in a frame that the transport sends. -/
def Carried (limits : Limits) (m : FileTransfer) : Prop :=
  ∃ w : Slice, encode m (CodecLimits.ofLimits limits) = .ok w ∧
    w.1.length ≤ limits.maxFrameBytes.toNat

section

variable {limits : Limits} {s : Wire} {m : FileTransfer} {ms ms' : List FileTransfer} {α β : Type}
  {a : α} {b : β}

theorem Wire.Open.after {decoder : Decoder} {pending : List FileTransfer} {incoming : List Bytes}
    (h : s.Open limits) : (s.after decoder pending incoming).Open limits :=
  ⟨h.limits_eq, h.bounds_eq, h.unbroken, h.size_eq⟩

theorem Wire.Open.sentAll {frames : List Bytes} (h : s.Open limits) :
    (s.sentAll frames).Open limits :=
  ⟨h.limits_eq, h.bounds_eq, h.unbroken, h.size_eq⟩

theorem Carried.eq_frame {w : Slice} (h : encode m (CodecLimits.ofLimits limits) = .ok w) :
    w.1 = frame m :=
  (encode_eq_ok_iff.1 h).2

theorem send_carried (h : s.Open limits) (hm : Carried limits m) :
    (Wire.send m).run s = (.ok (), s.sentAll [frame m]) := by
  obtain ⟨w, hencode, hlen⟩ := hm
  have hbounded : sendBounded s.stream.bounds (fun _ => s.stream.write) w.1 = .ok () := by
    rw [h.bounds_eq, TransportBounds.accepts_iff.2 hlen]
    unfold TransferStream.write
    rw [h.unbroken]
  rw [← h.limits_eq] at hencode
  simp only [Wire.send, Fallible.run, hencode, hbounded]
  rw [h.limits_eq] at hencode
  rw [Wire.sentAll, Carried.eq_frame hencode]

/-- The frames of messages that are carried are whole frames. -/
theorem wholeFrames_carried (h : ∀ m ∈ ms, Carried limits m) :
    WholeFrames (CodecLimits.ofLimits limits) (ms.map frame).flatten ms := by
  induction ms with
  | nil => exact WholeFrames.nil
  | cons m ms ih =>
    obtain ⟨w, hencode, -⟩ := h m List.mem_cons_self
    rw [List.map_cons, List.flatten_cons, ← Carried.eq_frame hencode]
    exact (wholeFrames_frame hencode).append (ih fun m hm => h m (List.mem_cons_of_mem _ hm))

/-- A new wire holds the messages of the frames to come, however they are cut. -/
theorem holds_new {stream : TransferStream} {size : ℕ} (h : ∀ m ∈ ms, Carried limits m)
    (hincoming : stream.incoming.flatten = (ms.map frame).flatten) :
    Wire.Holds ⟨stream, CodecLimits.ofLimits limits, Decoder.new (CodecLimits.ofLimits limits), [],
      size⟩ ms := by
  refine ⟨ms, Decoder.new (CodecLimits.ofLimits limits), ?_, rfl⟩
  change Decoder.push _ stream.incoming.flatten = _
  rw [hincoming]
  exact wholeFrames_carried h

/-! ### Messages that are carried -/

theorem length_encode_le {n : ℕ} (h : n < 2 ^ 21) : (Leb128.encode n).length ≤ 3 := by
  rw [length_encode_eq_prefixBytes (h.trans (by decide))]
  unfold prefixBytes
  split_ifs <;> omega

/-- A message with few bytes in its fields is carried. -/
theorem carried_of_length (hfits : WireFormat.Fits (CodecLimits.ofLimits limits) m)
    (hlen : (WireFormat.fields m).length + 6 ≤ limits.maxFrameBytes.toNat)
    (hsmall : (WireFormat.fields m).length + 3 < 2 ^ 21) : Carried limits m := by
  have hpayload := length_payload m
  have hencode : (Leb128.encode (payload m).length).length ≤ 3 :=
    length_encode_le (by omega)
  have hframe : (frame m).length = (Leb128.encode (payload m).length).length +
      (payload m).length := List.length_append
  have hslice : (frame m).length ≤ isizeMax := by
    unfold isizeMax
    omega
  have hsend : Sendable (CodecLimits.ofLimits limits) m := by
    refine ⟨hfits, ?_⟩
    change (payload m).length ≤ limits.maxFrameBytes.toNat
    omega
  refine ⟨⟨frame m, hslice⟩, encode_eq_ok_iff.2 ⟨hsend, rfl⟩, ?_⟩
  change (frame m).length ≤ _
  omega

/-- The messages that carry pieces of content. -/
inductive Piece : (Bytes → FileTransfer) → Prop where
  | wholeFile : Piece .wholeFile
  | signature : Piece .signature
  | delta : Piece .delta

/-- A piece of content within the chunk size is carried. -/
theorem carried_piece (hmax : 32 < limits.maxFrameBytes.toNat) {message : Bytes → FileTransfer}
    (hmessage : Piece message) {bytes : Bytes}
    (hlen : bytes.length ≤ min (limits.maxFrameBytes.toNat - 32) (64 * 1024)) :
    Carried limits (message bytes) := by
  have hbytes : (Format.bytes bytes).length ≤ bytes.length + 3 := by
    have hle : (Leb128.encode (bytes.length % wordSize)).length ≤ 3 :=
      length_encode_le (lt_of_le_of_lt (Nat.mod_le _ _) (by omega))
    unfold Format.bytes Format.length
    rw [List.length_append]
    omega
  have hcarried {m : FileTransfer} (hfits : WireFormat.Fits (CodecLimits.ofLimits limits) m)
      (hfields : WireFormat.fields m = Format.bytes bytes) : Carried limits m := by
    refine carried_of_length hfits ?_ ?_
    · rw [hfields]
      omega
    · rw [hfields]
      omega
  cases hmessage with
  | wholeFile => exact hcarried trivial rfl
  | signature => exact hcarried trivial rfl
  | delta => exact hcarried trivial rfl

theorem carried_signatureEnd (hmax : 32 < limits.maxFrameBytes.toNat) :
    Carried limits .signatureEnd := by
  refine carried_of_length trivial ?_ (by decide)
  change 0 + 6 ≤ _
  omega

theorem carried_transferEnd (hmax : 32 < limits.maxFrameBytes.toNat) :
    Carried limits .transferEnd := by
  refine carried_of_length trivial ?_ (by decide)
  change 0 + 6 ≤ _
  omega

theorem carried_transferAccepted (hmax : 32 < limits.maxFrameBytes.toNat) (id : OperationId) :
    Carried limits (.transferAccepted id) := by
  have hid : (WireFormat.fields (FileTransfer.transferAccepted id)).length = 8 :=
    LittleEndian.length_bytes 8 _
  exact carried_of_length trivial (by omega) (by omega)

/-! ### What an end takes and sends -/

/-- The computation sends messages, whatever there is to take. -/
def Sends (limits : Limits) (m : TransferM α) (sends : List FileTransfer) (a : α) : Prop :=
  ∀ s : Wire, s.Open limits → m.run s = (.ok a, s.sentAll (sends.map frame))

/-- The computation takes messages and sends messages. -/
def Talks (limits : Limits) (m : TransferM α) (takes sends : List FileTransfer) (a : α) : Prop :=
  ∀ (s : Wire) (rest : List FileTransfer), s.Open limits → s.Holds (takes ++ rest) →
    ∃ s', m.run s = (.ok a, s') ∧ s'.Open limits ∧ s'.Holds rest ∧
      s'.stream.outgoing = s.stream.outgoing ++ sends.map frame

theorem Sends.pure (a : α) : Sends limits (Pure.pure a) [] a := by
  intro s _
  rw [Fallible.run_pure, Wire.sentAll, List.map_nil, List.append_nil]

theorem Sends.send (hm : Carried limits m) : Sends limits (Wire.send m) [m] () :=
  fun _ hs => send_carried hs hm

theorem Sends.bind {x : TransferM α} {f : α → TransferM β} (hx : Sends limits x ms a)
    (hf : Sends limits (f a) ms' b) : Sends limits (x >>= f) (ms ++ ms') b := by
  intro s hs
  rw [Fallible.run_bind_ok (hx s hs), hf _ hs.sentAll, List.map_append]
  simp only [Wire.sentAll, List.append_assoc]

theorem Sends.talks {x : TransferM α} (h : Sends limits x ms a) : Talks limits x [] ms a := by
  intro s rest hs hholds
  exact ⟨_, h s hs, hs.sentAll, hholds, rfl⟩

theorem Talks.next : Talks limits Wire.next [m] [] m := by
  intro s rest hs hholds
  obtain ⟨decoder, pending, incoming, hnext, hrest⟩ := Wire.next_holds hholds
  exact ⟨_, hnext, hs.after, hrest, (List.append_nil _).symm⟩

theorem Talks.bind {x : TransferM α} {f : α → TransferM β} {takes takes' : List FileTransfer}
    (hx : Talks limits x takes ms a) (hf : Talks limits (f a) takes' ms' b) :
    Talks limits (x >>= f) (takes ++ takes') (ms ++ ms') b := by
  intro s rest hs hholds
  rw [List.append_assoc] at hholds
  obtain ⟨s₁, hrun₁, hs₁, hholds₁, hout₁⟩ := hx s _ hs hholds
  obtain ⟨s₂, hrun₂, hs₂, hholds₂, hout₂⟩ := hf s₁ _ hs₁ hholds₁
  refine ⟨s₂, ?_, hs₂, hholds₂, ?_⟩
  · rw [Fallible.run_bind_ok hrun₁, hrun₂]
  · rw [hout₂, hout₁, List.map_append, List.append_assoc]

/-! ### Pieces of content -/

/-- What an end is given works: reads return the content in pieces, each not empty and within the
buffer, and workers have a buffer. -/
structure Setup.Works (setup : Setup) : Prop where
  reads : ∀ n bytes, 0 < n → Reads n bytes (setup.cut n bytes)
  buffer : 0 < setup.bufferSize

variable {setup : Setup}

theorem collected_complete (hsetup : setup.Works) (chunks : List Bytes) :
    collected setup chunks true = ⟨chunks.flatten, none⟩ := by
  unfold collected
  rw [Input.copy_eq hsetup.buffer, if_pos rfl]
  exact Input.content_new chunks true

theorem Sends.sendAll {message : Bytes → FileTransfer} {chunks : List Bytes}
    (h : ∀ c ∈ chunks, Carried limits (message c)) :
    Sends limits (Wire.sendAll message chunks) (chunks.map message) () := by
  induction chunks with
  | nil => exact Sends.pure ()
  | cons c chunks ih =>
    exact (Sends.send (h c List.mem_cons_self)).bind
      (ih fun c hc => h c (List.mem_cons_of_mem _ hc))

/-- How a content is cut on the way. -/
def pieces (setup : Setup) (limits : Limits) (content : Bytes) : List Bytes :=
  setup.cut (min (limits.maxFrameBytes.toNat - 32) (64 * 1024)) content

theorem reads_pieces (hsetup : setup.Works) (hmax : 32 < limits.maxFrameBytes.toNat)
    (content : Bytes) : Reads (min (limits.maxFrameBytes.toNat - 32) (64 * 1024)) content
      (pieces setup limits content) :=
  hsetup.reads _ _ (by omega)

theorem carried_pieces (hsetup : setup.Works) (hmax : 32 < limits.maxFrameBytes.toNat)
    {message : Bytes → FileTransfer} (hmessage : Piece message) (content : Bytes) :
    ∀ c ∈ pieces setup limits content, Carried limits (message c) := by
  intro c hc
  exact carried_piece hmax hmessage ((reads_pieces hsetup hmax content).chunk c hc).2

theorem Sends.sendContent (hsetup : setup.Works) (hmax : 32 < limits.maxFrameBytes.toNat)
    {message : Bytes → FileTransfer} (hmessage : Piece message) (content : Bytes) :
    Sends limits (sendContent setup message ⟨content, none⟩)
      ((pieces setup limits content).map message) () := by
  intro s hs
  unfold Transfer.sendContent
  rw [Fallible.run_bind_ok (Fallible.run_get s), hs.size_eq]
  simp only [show produce (setup.cut _ content) none = (pieces setup limits content, .ok ()) from
    produce_reads (reads_pieces hsetup hmax content)]
  rw [Fallible.run_bind_ok (Sends.sendAll (carried_pieces hsetup hmax hmessage content) s hs)]
  rfl

/-- A message that carries bytes, and how they are taken from it. -/
structure Carries (bytesOf : FileTransfer → Option Bytes) (message : Bytes → FileTransfer)
    (stop : FileTransfer) : Prop where
  data : ∀ bytes, bytesOf (message bytes) = some bytes
  stop : bytesOf stop = none

theorem carries_signature : Carries signatureBytes .signature .signatureEnd := ⟨fun _ => rfl, rfl⟩

theorem carries_wholeFile : Carries wholeFileBytes .wholeFile .transferEnd := ⟨fun _ => rfl, rfl⟩

theorem carries_delta : Carries deltaBytes .delta .transferEnd := ⟨fun _ => rfl, rfl⟩

section

variable {bytesOf : FileTransfer → Option Bytes} {stop : FileTransfer} {unexpected : String}
  {s' : Wire}

theorem collect_error {e : Abort QuicSyncError} (h : Wire.next s = (.error e, s')) :
    Wire.collect bytesOf stop unexpected s = ([], .error e, s') := by
  rw [Wire.collect]
  split
  · rename_i h'
    rw [h] at h'
    cases h'
    rfl
  · rename_i h'
    rw [h] at h'
    cases h'

theorem collect_ok (h : Wire.next s = (.ok m, s')) :
    Wire.collect bytesOf stop unexpected s =
      match bytesOf m with
      | some bytes => (bytes :: (Wire.collect bytesOf stop unexpected s').1,
          (Wire.collect bytesOf stop unexpected s').2)
      | none => if m = stop then ([], .ok (), s')
          else ([], .error (.error (failure unexpected)), s') := by
  rw [Wire.collect]
  split
  · rename_i h'
    rw [h] at h'
    cases h'
  · rename_i h'
    rw [h] at h'
    cases h'
    rfl

/-- Collecting changes nothing but what is to come. -/
theorem collect_after (bytesOf : FileTransfer → Option Bytes) (stop : FileTransfer)
    (unexpected : String) (s : Wire) : ∃ decoder pending incoming,
    (Wire.collect bytesOf stop unexpected s).2.2 = s.after decoder pending incoming := by
  -- induction on what is left to take
  induction s using WellFounded.induction (InvImage.wf Wire.todo (Prod.lex ⟨_, Nat.lt_wfRel.wf⟩
    ⟨_, Nat.lt_wfRel.wf⟩).wf) with
  | _ s ih =>
    obtain ⟨decoder, pending, incoming, hafter⟩ := Wire.nextFrom_after s.stream.incoming s
    cases hnext : Wire.next s with
    | mk r s₁ =>
      obtain rfl : s₁ = s.after decoder pending incoming :=
        (congrArg Prod.snd hnext).symm.trans hafter
      cases r with
      | error e =>
        rw [collect_error hnext]
        exact ⟨decoder, pending, incoming, rfl⟩
      | ok message =>
        rw [collect_ok hnext]
        split
        · exact ih _ (Wire.todo_next hnext)
        · split_ifs
          · exact ⟨decoder, pending, incoming, rfl⟩
          · exact ⟨decoder, pending, incoming, rfl⟩

/-- Pieces up to their end are collected. -/
theorem collect_holds (unexpected : String) {message : Bytes → FileTransfer}
    (hcarries : Carries bytesOf message stop) {chunks : List Bytes} {rest : List FileTransfer}
    (hs : s.Open limits)
    (h : s.Holds (chunks.map message ++ stop :: rest)) :
    ∃ s', Wire.collect bytesOf stop unexpected s = (chunks, .ok (), s') ∧ s'.Open limits ∧
      s'.Holds rest ∧ s'.stream.outgoing = s.stream.outgoing := by
  induction chunks generalizing s with
  | nil =>
    obtain ⟨decoder, pending, incoming, hnext, hrest⟩ := Wire.next_holds h
    refine ⟨_, ?_, hs.after, hrest, rfl⟩
    rw [collect_ok hnext, hcarries.stop]
    exact if_pos rfl
  | cons c chunks ih =>
    obtain ⟨decoder, pending, incoming, hnext, hrest⟩ := Wire.next_holds h
    obtain ⟨s₂, hcollect, hs₂, hholds₂, hout₂⟩ := ih hs.after hrest
    refine ⟨s₂, ?_, hs₂, hholds₂, hout₂⟩
    rw [collect_ok hnext, hcarries.data, hcollect]

end

/-! ### The source -/

variable {w : World} {root : RootHandle} {id : OperationId} {path : RelativePath}

theorem Talks.receive_create :
    Talks limits receiveRequest [.createRequest id path] [] (id, path, false) :=
  Talks.next.bind (Sends.pure (id, path, false)).talks

theorem Talks.receive_update :
    Talks limits receiveRequest [.updateRequest id path] [] (id, path, true) :=
  Talks.next.bind (Sends.pure (id, path, true)).talks

theorem Talks.finish : Talks limits Wire.finish [] [] () := by
  intro s rest hs hholds
  exact ⟨_, rfl, ⟨hs.limits_eq, hs.bounds_eq, hs.unbroken, hs.size_eq⟩, hholds,
    (List.append_nil _).symm⟩

theorem Talks.awaitAccepted (hmax : 32 < limits.maxFrameBytes.toNat) :
    Talks limits (awaitAccepted id) [.transferAccepted id] [.transferEnd] () := by
  refine (Sends.send (carried_transferEnd hmax)).talks.bind
    (Talks.finish.bind (Talks.next.bind ?_))
  simp only [if_true]
  exact (Sends.pure ()).talks

/-- Waiting for the acknowledgment sends the end of the answer and nothing else. -/
theorem awaitAccepted_outgoing (id : OperationId) (hmax : 32 < limits.maxFrameBytes.toNat)
    (hs : s.Open limits) :
    ((awaitAccepted id).run s).2.stream.outgoing =
      s.stream.outgoing ++ [frame FileTransfer.transferEnd] := by
  unfold Transfer.awaitAccepted
  rw [Fallible.run_bind_ok (send_carried hs (carried_transferEnd hmax)),
    Fallible.run_bind_ok (m := Wire.finish) rfl]
  rw [Fallible.run_bind]
  cases hnext : Wire.next.run { s.sentAll [frame FileTransfer.transferEnd] with
      stream := { (s.sentAll [frame FileTransfer.transferEnd]).stream with finished := true } } with
  | mk r s₁ =>
    obtain ⟨decoder, pending, incoming, hafter⟩ := Wire.nextFrom_after s.stream.incoming
      { s.sentAll [frame FileTransfer.transferEnd] with
        stream := { (s.sentAll [frame FileTransfer.transferEnd]).stream with finished := true } }
    rw [show Wire.nextFrom s.stream.incoming _ = (r, s₁) from hnext] at hafter
    change s₁ = _ at hafter
    subst hafter
    cases r with
    | error e => rfl
    | ok message =>
      simp only
      split
      · split_ifs <;> rfl
      · rfl

theorem sourceContent_namesFile {content : Bytes} (h : NamesFile w.tree root path content) :
    sourceContent w root path = .ok content := by
  unfold sourceContent
  rw [openRegular_eq_some_iff.2 ⟨rfl, content, h⟩]
  exact congrArg Except.ok (contentOf_namesFile h)

/-- After the answer, the source waits for the acknowledgment. -/
theorem sendFile_answered {update : Bool} {content : Bytes} {s₁ s₂ : Wire}
    (hrequest : receiveRequest.run s = (.ok (id, path, update), s₁))
    (hcontent : sourceContent w root path = .ok content)
    (hanswer : (if update then answerUpdate setup content
      else sendContent setup .wholeFile ⟨content, none⟩).run s₁ = (.ok (), s₂)) :
    (sendFile setup w root).run s = (awaitAccepted id).run s₂ := by
  unfold sendFile
  rw [Fallible.run_bind_ok hrequest]
  have hlift : (Fallible.lift ((sourceContent w root path).mapError .error) : TransferM Bytes).run
      s₁ = (.ok content, s₁) := by
    rw [hcontent]
    rfl
  simp only
  rw [Fallible.run_bind_ok hlift]
  cases update with
  | true => exact Fallible.run_bind_ok hanswer
  | false => exact Fallible.run_bind_ok hanswer

/-- The answer to an update: the signature is taken, and the pieces of the delta are sent. -/
theorem Talks.answerUpdate (hsetup : setup.Works) (hmax : 32 < limits.maxFrameBytes.toNat)
    {content delta : Bytes} {chunks : List Bytes}
    (hdelta : setup.librsync.delta content ⟨chunks.flatten, none⟩ = .ok ⟨delta, none⟩) :
    Talks limits (answerUpdate setup content) (chunks.map .signature ++ [.signatureEnd])
      ((pieces setup limits delta).map .delta) () := by
  intro s rest hs hholds
  rw [List.append_assoc] at hholds
  obtain ⟨s₁, hcollect, hs₁, hholds₁, hout₁⟩ :=
    collect_holds "expected signature" carries_signature hs hholds
  have hsend := Sends.sendContent hsetup hmax .delta delta s₁ hs₁
  refine ⟨s₁.sentAll (((pieces setup limits delta).map FileTransfer.delta).map frame), ?_,
    hs₁.sentAll, hholds₁, ?_⟩
  · unfold Transfer.answerUpdate Fallible.run
    simp only [hcollect, collected_complete hsetup, hdelta]
    exact hsend
  · rw [Wire.sentAll, hout₁]

/-- The messages that open a transfer: for an update, with the pieces of the signature. -/
def requests (id : OperationId) (path : RelativePath) : Option (List Bytes) → List FileTransfer
  | none => [.createRequest id path]
  | some chunks => .updateRequest id path :: (chunks.map .signature ++ [.signatureEnd])

/-- The message for a piece of the answer. -/
def answerMessage : Option (List Bytes) → Bytes → FileTransfer
  | none => .wholeFile
  | some _ => .delta

/-- What is sent of a content: the content itself, or its delta against a signature. -/
inductive Answer (librsync : Librsync) (content : Bytes) : Option (List Bytes) → Bytes → Prop where
  | create : Answer librsync content none content
  | update {chunks : List Bytes} {delta : Bytes}
      (h : librsync.delta content ⟨chunks.flatten, none⟩ = .ok ⟨delta, none⟩) :
      Answer librsync content (some chunks) delta

theorem piece_answerMessage (signature : Option (List Bytes)) :
    Piece (answerMessage signature) := by
  cases signature with
  | none => exact .wholeFile
  | some chunks => exact .delta

/-- The source answers a request and then waits for the acknowledgment. -/
theorem sendFile_requests (hsetup : setup.Works) (hmax : 32 < limits.maxFrameBytes.toNat)
    {content answer : Bytes} {signature : Option (List Bytes)} {rest : List FileTransfer}
    (hanswer : Answer setup.librsync content signature answer)
    (hfile : NamesFile w.tree root path content) (hs : s.Open limits)
    (h : s.Holds (requests id path signature ++ rest)) :
    ∃ s₂, (sendFile setup w root).run s = (awaitAccepted id).run s₂ ∧ s₂.Open limits ∧
      s₂.Holds rest ∧ s₂.stream.outgoing = s.stream.outgoing ++
        ((pieces setup limits answer).map (answerMessage signature)).map frame := by
  have hcontent := sourceContent_namesFile hfile
  cases hanswer with
  | create =>
    obtain ⟨s₁, hrequest, hs₁, hholds₁, hout₁⟩ := Talks.receive_create s rest hs h
    have hsend := Sends.sendContent hsetup hmax .wholeFile content s₁ hs₁
    refine ⟨_, sendFile_answered hrequest hcontent hsend, hs₁.sentAll, hholds₁, ?_⟩
    rw [Wire.sentAll, hout₁, List.map_nil, List.append_nil]
    rfl
  | update hdelta =>
    obtain ⟨s₁, hrequest, hs₁, hholds₁, hout₁⟩ := Talks.receive_update s _ hs h
    obtain ⟨s₂, hupdate, hs₂, hholds₂, hout₂⟩ :=
      Talks.answerUpdate hsetup hmax hdelta s₁ rest hs₁ hholds₁
    refine ⟨s₂, sendFile_answered hrequest hcontent hupdate, hs₂, hholds₂, ?_⟩
    rw [hout₂, hout₁, List.map_nil, List.append_nil]
    rfl

/-! ### The destination -/

variable {directory : Path} {random : Option (Vector UInt8 16)} {r : Receiver}

theorem run_onFiles (x : FsM α) (r : Receiver) : (onFiles x).run r =
    (((x.run r.world).1).mapError .error, { r with world := (x.run r.world).2 }) := rfl

/-- The end after sending messages. -/
def Receiver.sent (r : Receiver) (ms : List FileTransfer) : Receiver :=
  { r with wire := r.wire.sentAll (ms.map frame) }

theorem Sends.onWire {x : TransferM α} (h : Sends limits x ms a) (hr : r.wire.Open limits) :
    (onWire x).run r = (.ok a, r.sent ms) := by
  have hrun := h r.wire hr
  unfold Transfer.onWire
  rw [Fallible.run_zoom, hrun]
  rfl

/-- The bytes of a piece of the answer. -/
def answerBytes : Option (List Bytes) → FileTransfer → Option Bytes
  | none => wholeFileBytes
  | some _ => deltaBytes

/-- What the destination says to another message. -/
def answerExpected : Option (List Bytes) → String
  | none => "expected whole-file bytes"
  | some _ => "expected delta"

theorem carries_answer (signature : Option (List Bytes)) :
    Carries (answerBytes signature) (answerMessage signature) .transferEnd := by
  cases signature with
  | none => exact carries_wholeFile
  | some chunks => exact carries_delta

/-- The end of a request: the answer is staged and acknowledged. -/
def finishRequest (signature : Option (List Bytes))
    (worker : List Bytes → Bool → ReceiveM StagedFile) (id : OperationId) (path : RelativePath) :
    ReceiveM ReceivedFile :=
  stageAnswer (answerBytes signature) (answerExpected signature) worker >>= acknowledge id path

/-- The worker for a whole file. -/
def copyWorker (setup : Setup) (directory : Path) (random : Option (Vector UInt8 16))
    (chunks : List Bytes) (complete : Bool) : ReceiveM StagedFile :=
  stageMade directory random (.ok (collected setup chunks complete))

/-- The worker for a delta. -/
def patchWorker (setup : Setup) (directory : Path) (random : Option (Vector UInt8 16))
    (basis : Bytes) (chunks : List Bytes) (complete : Bool) : ReceiveM StagedFile :=
  stageMade directory random (setup.librsync.patch basis (collected setup chunks complete))

theorem receiveFile_create (hr : r.wire.Open limits)
    (hrequest : Carried limits (.createRequest id path)) :
    (receiveFile setup root directory random id path false).run r =
      (finishRequest none (copyWorker setup directory random) id path).run
        (r.sent (requests id path none)) := by
  unfold receiveFile
  exact Fallible.run_bind_ok ((Sends.send hrequest).onWire hr)

theorem basisContent_namesFile {basis : Bytes} (h : NamesFile w.tree root path basis) :
    basisContent root path w = .ok basis := by
  unfold basisContent
  rw [openRegular_eq_some_iff.2 ⟨rfl, basis, h⟩]
  exact congrArg Except.ok (contentOf_namesFile h)

theorem receiveFile_update (hsetup : setup.Works) (hmax : 32 < limits.maxFrameBytes.toNat)
    (hr : r.wire.Open limits) (hrequest : Carried limits (.updateRequest id path))
    {basis signature : Bytes} (hbasis : NamesFile r.world.tree root path basis)
    (hsignature : setup.librsync.signature basis = .ok ⟨signature, none⟩) :
    (receiveFile setup root directory random id path true).run r =
      (finishRequest (some (pieces setup limits signature))
        (patchWorker setup directory random basis) id path).run
        (r.sent (requests id path (some (pieces setup limits signature)))) := by
  have hcontent : (Fallible.lift ((basisContent root path
      (r.sent [.updateRequest id path]).world).mapError .error) : ReceiveM Bytes).run
        (r.sent [.updateRequest id path]) = (.ok basis, r.sent [.updateRequest id path]) := by
    rw [show basisContent root path (r.sent [.updateRequest id path]).world = .ok basis from
      basisContent_namesFile hbasis]
    rfl
  have hmade : (Fallible.lift ((setup.librsync.signature basis).mapError fun message =>
      .error (failure message)) : ReceiveM Content).run (r.sent [.updateRequest id path]) =
        (.ok ⟨signature, none⟩, r.sent [.updateRequest id path]) := by
    rw [hsignature]
    rfl
  have hpieces := (Sends.sendContent hsetup hmax .signature signature).onWire
    (r := r.sent [.updateRequest id path]) hr.sentAll
  have hend := (Sends.send (carried_signatureEnd hmax)).onWire
    (r := (r.sent [.updateRequest id path]).sent
      ((pieces setup limits signature).map .signature)) hr.sentAll.sentAll
  have hsent : ((r.sent [.updateRequest id path]).sent
      ((pieces setup limits signature).map .signature)).sent [.signatureEnd] =
        r.sent (requests id path (some (pieces setup limits signature))) := by
    simp only [Receiver.sent, Wire.sentAll, requests, List.map_append, List.map_cons, List.map_nil,
      List.append_assoc, List.cons_append, List.nil_append]
  unfold receiveFile
  simp only [if_true, Fallible.bind_assoc]
  rw [Fallible.run_bind_ok ((Sends.send hrequest).onWire hr),
    Fallible.run_bind_ok (Fallible.run_get _), Fallible.run_bind_ok hcontent,
    Fallible.run_bind_ok hmade, Fallible.run_bind_ok hpieces, Fallible.run_bind_ok hend, hsent]
  rfl

/-- The worker works on files only. -/
def OnFilesOnly (worker : List Bytes → Bool → ReceiveM StagedFile) : Prop :=
  ∀ chunks complete r, ((worker chunks complete).run r).2.wire = r.wire

theorem onFilesOnly_stageMade (made : List Bytes → Bool → Made) :
    OnFilesOnly fun chunks complete => stageMade directory random (made chunks complete) := by
  intro chunks complete r
  change ((stageMade directory random (made chunks complete)).run r).2.wire = r.wire
  cases made chunks complete with
  | error message => rfl
  | ok content => rfl

theorem acknowledge_run (id : OperationId) (path : RelativePath) (file : StagedFile)
    (hmax : 32 < limits.maxFrameBytes.toNat) (hr : r.wire.Open limits) :
    ∃ r', (acknowledge id path file).run r = (.ok ⟨id, path, file⟩, r') ∧ r'.world = r.world ∧
      r'.wire.stream.outgoing =
        r.wire.stream.outgoing ++ [frame (FileTransfer.transferAccepted id)] := by
  have hsend := Fallible.run_onError_ok (c := onFiles file.drop)
    ((Sends.send (carried_transferAccepted hmax id)).onWire hr)
  have hrun : (acknowledge id path file).run r =
      ((onWire Wire.finish >>= fun _ => pure ⟨id, path, file⟩ : ReceiveM ReceivedFile)).run
        (r.sent [.transferAccepted id]) := Fallible.run_bind_ok hsend
  exact ⟨_, hrun, rfl, rfl⟩

section

variable {bytesOf : FileTransfer → Option Bytes} {unexpected : String}
  {worker : List Bytes → Bool → ReceiveM StagedFile} {chunks : List Bytes} {wire : Wire}

theorem stageAnswer_ok
    (h : Wire.collect bytesOf .transferEnd unexpected r.wire = (chunks, .ok (), wire)) :
    (stageAnswer bytesOf unexpected worker).run r =
      (worker chunks true).run { r with wire := wire } := by
  simp only [stageAnswer, Fallible.run, h]

/-- Without the end of the answer, what the worker has staged all the same is dropped. -/
theorem stageAnswer_error {e : Abort QuicSyncError}
    (h : Wire.collect bytesOf .transferEnd unexpected r.wire = (chunks, .error e, wire)) :
    (stageAnswer bytesOf unexpected worker).run r = (.error e,
      match (worker chunks false).run { r with wire := wire } with
      | (.ok file, r') => ((onFiles file.drop) r').2
      | (.error _, r') => r') := by
  simp only [stageAnswer, Fallible.run, h]
  rcases worker chunks false { r with wire := wire } with ⟨file | e', r'⟩
  · rfl
  · rfl

/-- Staging an answer sends nothing. -/
theorem stageAnswer_wire (bytesOf : FileTransfer → Option Bytes) (unexpected : String)
    (hworker : OnFilesOnly worker) (r : Receiver) :
    ∃ decoder pending incoming, ((stageAnswer bytesOf unexpected worker).run r).2.wire =
      r.wire.after decoder pending incoming := by
  obtain ⟨decoder, pending, incoming, hafter⟩ := collect_after bytesOf .transferEnd unexpected r.wire
  refine ⟨decoder, pending, incoming, ?_⟩
  cases hcollect : Wire.collect bytesOf .transferEnd unexpected r.wire with
  | mk chunks rest =>
    obtain ⟨result, wire⟩ := rest
    rw [hcollect] at hafter
    obtain rfl : wire = _ := hafter
    cases result with
    | ok u =>
      rw [stageAnswer_ok hcollect]
      exact hworker _ _ _
    | error e =>
      rw [stageAnswer_error hcollect]
      have hwire := hworker chunks false { r with wire := r.wire.after decoder pending incoming }
      split
      · rename_i h'
        rw [h'] at hwire
        exact hwire
      · rename_i h'
        rw [h'] at hwire
        exact hwire

end

section

variable {signature : Option (List Bytes)} {worker : List Bytes → Bool → ReceiveM StagedFile}
  {chunks : List Bytes}

/-- A request ends with an acknowledgment or without a word. -/
theorem finishRequest_outgoing (signature : Option (List Bytes)) (id : OperationId)
    (path : RelativePath) (hmax : 32 < limits.maxFrameBytes.toNat)
    (hworker : OnFilesOnly worker) (hr : r.wire.Open limits) :
    ∃ words : List FileTransfer, (words = [] ∨ words = [.transferAccepted id]) ∧
      ((finishRequest signature worker id path).run r).2.wire.stream.outgoing =
        r.wire.stream.outgoing ++ words.map frame := by
  obtain ⟨decoder, pending, incoming, hwire⟩ :=
    stageAnswer_wire (answerBytes signature) (answerExpected signature) hworker r
  unfold finishRequest
  cases hstage : (stageAnswer (answerBytes signature) (answerExpected signature) worker).run r with
  | mk result r₁ =>
    rw [hstage] at hwire
    change r₁.wire = _ at hwire
    cases result with
    | error e =>
      refine ⟨[], Or.inl rfl, ?_⟩
      rw [Fallible.run_bind_error hstage, hwire, List.map_nil, List.append_nil]
      rfl
    | ok file =>
      have hr₁ : r₁.wire.Open limits := hwire ▸ hr.after
      obtain ⟨r₂, hrun, -, hout⟩ := acknowledge_run id path file hmax hr₁
      refine ⟨[.transferAccepted id], Or.inr rfl, ?_⟩
      rw [Fallible.run_bind_ok hstage, hrun]
      change r₂.wire.stream.outgoing = _
      rw [hout, hwire]
      rfl

/-- A complete answer is staged and acknowledged. -/
theorem finishRequest_ok (id : OperationId) (path : RelativePath)
    (hmax : 32 < limits.maxFrameBytes.toNat) (hr : r.wire.Open limits)
    {rest : List FileTransfer} {file : StagedFile} {w : World}
    (hworker : ∀ wire, (worker chunks true).run ⟨wire, r.world⟩ = (.ok file, ⟨wire, w⟩))
    (h : r.wire.Holds (chunks.map (answerMessage signature) ++ .transferEnd :: rest)) :
    ∃ r', (finishRequest signature worker id path).run r = (.ok ⟨id, path, file⟩, r') ∧
      r'.world = w ∧ r'.wire.stream.outgoing =
        r.wire.stream.outgoing ++ [frame (FileTransfer.transferAccepted id)] := by
  obtain ⟨wire, hcollect, hwire, -, hout⟩ :=
    collect_holds (answerExpected signature) (carries_answer signature) hr h
  obtain ⟨r', hack, hworld, hout'⟩ :=
    acknowledge_run id path file (r := ⟨wire, w⟩) hmax hwire
  refine ⟨r', ?_, hworld, ?_⟩
  · unfold finishRequest
    rw [Fallible.run_bind_ok ((stageAnswer_ok hcollect).trans (hworker wire)), hack]
  · rw [hout', hout]

end

/-! ### Answers without an end -/

/-- The messages that arrive, up to a malformed frame. -/
def Wire.toCome (s : Wire) : List FileTransfer :=
  s.pending ++ drain (Decoder.push (T := FileTransfer)) s.decoder s.stream.incoming

theorem nextFrom_toCome {chunks : List Bytes} {s s' : Wire}
    (h : Wire.nextFrom chunks s = (.ok m, s')) :
    s.pending ++ drain (Decoder.push (T := FileTransfer)) s.decoder chunks = m :: s'.toCome := by
  fun_induction Wire.nextFrom chunks s with
  | case1 s m' pending hpending =>
    cases h
    rw [hpending]
    rfl
  | case2 s hpending => cases h
  | case3 chunk chunks s m' pending hpending =>
    cases h
    rw [hpending]
    rfl
  | case4 chunk chunks s hpending e decoder hpush => cases h
  | case5 chunk chunks s hpending pending decoder hpush ih =>
    rw [hpending, List.nil_append, drain, hpush]
    exact ih h

/-- Inversion of collecting: the first message is the end, or a piece before others. -/
theorem collect_eq_ok {bytesOf : FileTransfer → Option Bytes} {stop : FileTransfer}
    {unexpected : String} {chunks : List Bytes} {s s' : Wire}
    (h : Wire.collect bytesOf stop unexpected s = (chunks, .ok (), s')) :
    (Wire.next s = (.ok stop, s') ∧ chunks = []) ∨
      ∃ m bytes chunks' s₁, Wire.next s = (.ok m, s₁) ∧ bytesOf m = some bytes ∧
        chunks = bytes :: chunks' ∧
        Wire.collect bytesOf stop unexpected s₁ = (chunks', .ok (), s') := by
  cases hnext : Wire.next s with
  | mk result s₁ =>
    cases result with
    | error e =>
      rw [collect_error hnext] at h
      cases h
    | ok m =>
      rw [collect_ok hnext] at h
      cases hbytes : bytesOf m with
      | some bytes =>
        rw [hbytes] at h
        obtain ⟨rfl, hrest⟩ := Prod.mk.inj h
        exact Or.inr ⟨m, bytes, _, s₁, rfl, hbytes, rfl, Prod.ext rfl hrest⟩
      | none =>
        simp only [hbytes] at h
        by_cases hstop : m = stop
        · rw [if_pos hstop] at h
          cases h
          exact Or.inl ⟨by rw [hstop], rfl⟩
        · rw [if_neg hstop] at h
          cases h

/-- Collecting succeeds only on pieces up to their end. -/
theorem collect_toCome {bytesOf : FileTransfer → Option Bytes} {message : Bytes → FileTransfer}
    {stop : FileTransfer} {unexpected : String} {chunks : List Bytes} {s s' : Wire}
    (hmessage : ∀ m bytes, bytesOf m = some bytes → m = message bytes)
    (h : Wire.collect bytesOf stop unexpected s = (chunks, .ok (), s')) :
    s.toCome = chunks.map message ++ stop :: s'.toCome := by
  induction chunks generalizing s with
  | nil =>
    obtain ⟨hnext, -⟩ | ⟨_, _, _, _, _, _, hchunks, _⟩ := collect_eq_ok h
    · exact nextFrom_toCome hnext
    · cases hchunks
  | cons c chunks ih =>
    obtain ⟨-, hchunks⟩ | ⟨m, bytes, chunks', s₁, hnext, hbytes, hchunks, hcollect⟩ :=
      collect_eq_ok h
    · cases hchunks
    · obtain ⟨rfl, rfl⟩ := List.cons.inj hchunks
      have hcome : s.toCome = m :: s₁.toCome := nextFrom_toCome hnext
      rw [hcome, ih hcollect, hmessage m c hbytes]
      rfl

/-- The answer to a request: pieces of content, of the kind that the request is for, up to their
end. -/
def Complete (update : Bool) (ms : List FileTransfer) : Prop :=
  ∃ (chunks : List Bytes) (rest : List FileTransfer),
    ms = chunks.map (if update then .delta else .wholeFile) ++ .transferEnd :: rest

theorem answerBytes_some {signature : Option (List Bytes)} {bytes : Bytes}
    (h : answerBytes signature m = some bytes) :
    m = (if signature.isSome then FileTransfer.delta else .wholeFile) bytes := by
  cases signature with
  | none =>
    cases m <;> cases h
    rfl
  | some chunks =>
    cases m <;> cases h
    rfl

/-- Every entry is as it was. -/
def SameFiles (r r' : Receiver) : Prop :=
  ∀ q, SameEntry (r.world.tree.get q) (r'.world.tree.get q)

theorem SameFiles.refl (r : Receiver) : SameFiles r r := fun _ => SameEntry.refl _

theorem SameFiles.trans (r₁ r₂ r₃ : Receiver) (h : SameFiles r₁ r₂) (h' : SameFiles r₂ r₃) :
    SameFiles r₁ r₃ :=
  fun q => (h q).trans (h' q)

/-- What is staged and then dropped leaves nothing behind. -/
theorem stageMade_dropped (made : Made) (r : Receiver) :
    SameFiles r (match (stageMade directory random made).run r with
      | (.ok file, r') => ((onFiles file.drop) r').2
      | (.error _, r') => r') := by
  cases made with
  | error message => exact SameFiles.refl r
  | ok content =>
    change SameFiles r (match (onFiles (StagedFile.receiveIn directory random content)).run r with
      | (.ok file, r') => ((onFiles file.drop) r').2
      | (.error _, r') => r')
    rw [run_onFiles]
    cases hreceive : (StagedFile.receiveIn directory random content).run r.world with
    | mk result w =>
      cases result with
      | error e => exact receiveIn_error hreceive
      | ok file => exact drop_receiveIn hreceive

/-- Without a complete answer a request fails and leaves nothing behind. -/
theorem refuses_finishRequest {signature : Option (List Bytes)} (made : List Bytes → Bool → Made)
    (h : ¬ Complete signature.isSome r.wire.toCome) :
    Refuses SameFiles (finishRequest signature (fun chunks complete =>
      stageMade directory random (made chunks complete)) id path) r := by
  refine Refuses.left ?_
  cases hcollect : Wire.collect (answerBytes signature) .transferEnd (answerExpected signature)
      r.wire with
  | mk chunks rest =>
    obtain ⟨result, wire⟩ := rest
    cases result with
    | ok u =>
      exact absurd ⟨chunks, _, collect_toCome (fun _ _ => answerBytes_some) hcollect⟩ h
    | error e =>
      exact ⟨e, _, stageAnswer_error hcollect,
        stageMade_dropped (made chunks false) { r with wire := wire }⟩

/-- Nothing has happened but that frames have been sent. -/
def OnlySent (r r' : Receiver) : Prop := ∃ frames, r' = ⟨r.wire.sentAll frames, r.world⟩

theorem OnlySent.refl (r : Receiver) : OnlySent r r := by
  refine ⟨[], ?_⟩
  rw [Wire.sentAll, List.append_nil]

theorem OnlySent.trans (r₁ r₂ r₃ : Receiver) (h : OnlySent r₁ r₂) (h' : OnlySent r₂ r₃) :
    OnlySent r₁ r₃ := by
  obtain ⟨frames, rfl⟩ := h
  obtain ⟨frames', rfl⟩ := h'
  refine ⟨frames ++ frames', ?_⟩
  simp only [Wire.sentAll, List.append_assoc]

theorem OnlySent.toCome {r r' : Receiver} (h : OnlySent r r') : r'.wire.toCome = r.wire.toCome := by
  obtain ⟨frames, rfl⟩ := h
  rfl

theorem OnlySent.sameFiles {r r' : Receiver} (h : OnlySent r r') : SameFiles r r' := by
  obtain ⟨frames, rfl⟩ := h
  exact SameFiles.refl r

theorem onlySent_send (m : FileTransfer) : Keeps OnlySent (onWire (Wire.send m)) := by
  intro r
  change OnlySent r ⟨((Wire.send m).run r.wire).2, r.world⟩
  simp only [Wire.send, Fallible.run]
  split
  · exact OnlySent.refl r
  · split
    · exact OnlySent.refl r
    · exact ⟨[_], rfl⟩

theorem onWire_bind {x : TransferM α} {f : α → TransferM β} :
    onWire (x >>= f) = onWire x >>= fun a => onWire (f a) := by
  funext r
  change (onWire (x >>= f)).run r = (onWire x >>= fun a => onWire (f a)).run r
  unfold onWire
  rw [Fallible.run_bind, Fallible.run_zoom, Fallible.run_zoom, Fallible.run_bind]
  cases hx : x.run r.wire with
  | mk result wire =>
    cases result with
    | ok a => rfl
    | error e => rfl

theorem onlySent_sendAll (message : Bytes → FileTransfer) (chunks : List Bytes) :
    Keeps OnlySent (onWire (Wire.sendAll message chunks)) := by
  induction chunks with
  | nil => exact fun r => OnlySent.refl r
  | cons c chunks ih =>
    unfold Wire.sendAll
    rw [onWire_bind]
    exact Keeps.bind OnlySent.trans (onlySent_send _) fun _ => ih

theorem onlySent_sendContent (setup : Setup) (message : Bytes → FileTransfer) (content : Content) :
    Keeps OnlySent (onWire (sendContent setup message content)) := by
  have hlift (result : Except (Abort QuicSyncError) Unit) :
      Keeps OnlySent (onWire (Fallible.lift result)) := fun r => OnlySent.refl r
  intro r
  unfold sendContent
  rw [onWire_bind]
  refine KeepsAt.bind OnlySent.trans (OnlySent.refl r) fun s r₁ hget => ?_
  simp only [onWire_bind]
  exact Keeps.bind OnlySent.trans (onlySent_sendAll _ _) (fun _ => hlift _) r₁

/-- What comes after sending fails. -/
theorem refuses_after {x : ReceiveM α} {f : α → ReceiveM β} {r₀ : Receiver} (hx : Keeps OnlySent x)
    (h : OnlySent r₀ r) (hf : ∀ a r', OnlySent r₀ r' → Refuses SameFiles (f a) r') :
    Refuses SameFiles (x >>= f) r := by
  refine Refuses.bind SameFiles.trans (hx r).sameFiles fun a r' hrun => hf a r' ?_
  have hsent := hx r
  unfold KeepsAt at hsent
  rw [hrun] at hsent
  exact h.trans _ _ _ hsent

/-- **Without a complete answer nothing is staged.** -/
theorem refuses_receiveFile (setup : Setup) (root : RootHandle) (directory : Path)
    (random : Option (Vector UInt8 16)) (id : OperationId) (path : RelativePath) {update : Bool}
    (h : ¬ Complete update r.wire.toCome) :
    Refuses SameFiles (receiveFile setup root directory random id path update) r := by
  unfold receiveFile
  refine refuses_after (onlySent_send _) (OnlySent.refl r) fun _ r₁ h₁ => ?_
  cases update with
  | false =>
    have hnot : ¬ Complete (none : Option (List Bytes)).isSome r₁.wire.toCome := by
      rw [h₁.toCome]
      exact h
    exact refuses_finishRequest (fun chunks complete => .ok (collected setup chunks complete)) hnot
  | true =>
    simp only [if_true, Fallible.bind_assoc]
    refine refuses_after (Keeps.get OnlySent.refl) h₁ fun s r₂ h₂ => ?_
    refine refuses_after (Keeps.lift OnlySent.refl _) h₂ fun basis r₃ h₃ => ?_
    refine refuses_after (Keeps.lift OnlySent.refl _) h₃ fun signature r₄ h₄ => ?_
    refine refuses_after (onlySent_sendContent _ _ _) h₄ fun _ r₅ h₅ => ?_
    refine refuses_after (onlySent_send _) h₅ fun _ r₆ h₆ => ?_
    have hnot : ¬ Complete (some ([] : List Bytes)).isSome r₆.wire.toCome := by
      rw [h₆.toCome]
      exact h
    exact refuses_finishRequest (fun chunks complete =>
      setup.librsync.patch basis (collected setup chunks complete)) hnot

/-! ### Both ends -/

/-- A stream that has just been opened: what its reads return, and how they end. -/
def openedStream (limits : Limits) (incoming : List Bytes) (lost : Option QuicSyncError) :
    TransferStream :=
  ⟨TransportBounds.fromLimits limits, incoming, lost, [], none, false⟩

/-- What the two ends of a transfer are given. -/
structure Exchange where
  limits : Limits
  sourceSetup : Setup
  source : World
  sourceRoot : RootHandle
  setup : Setup
  destination : World
  root : RootHandle
  /-- The directory for temporary files. -/
  directory : Path
  /-- The random bytes of the name of the temporary file. -/
  name : Vector UInt8 16
  id : OperationId
  path : RelativePath
  update : Bool

namespace Exchange

variable (x : Exchange)

/-- The source's end. -/
def send (incoming : List Bytes) (lost : Option QuicSyncError) :
    Except (Abort QuicSyncError) Unit × TransferStream :=
  sendFileOn x.sourceSetup x.limits x.source x.sourceRoot (openedStream x.limits incoming lost)

/-- The destination's end. -/
def receive (incoming : List Bytes) (lost : Option QuicSyncError) :
    Except (Abort QuicSyncError) ReceivedFile × TransferStream × World :=
  receiveFileOn x.setup x.limits x.root x.directory (some x.name) x.id x.path x.update x.destination
    (openedStream x.limits incoming lost)

/-- Each end reads the bytes that the other sends, cut in some way. -/
def Connected (incoming incoming' : List Bytes) (lost lost' : Option QuicSyncError) : Prop :=
  (x.send incoming lost).2.outgoing.flatten = incoming'.flatten ∧
    (x.receive incoming' lost').2.1.outgoing.flatten = incoming.flatten

/-- The request. -/
def request : FileTransfer :=
  if x.update then .updateRequest x.id x.path else .createRequest x.id x.path

/-- The library undoes what it does: a patch of a delta against a signature gives the content, and
the library reads what it is given to its end. -/
def LibrsyncWorks : Prop :=
  ∀ basis content : Bytes, ∃ signature delta : Bytes,
    x.setup.librsync.signature basis = .ok ⟨signature, none⟩ ∧
    x.sourceSetup.librsync.delta content ⟨signature, none⟩ = .ok ⟨delta, none⟩ ∧
    x.setup.librsync.patch basis ⟨delta, none⟩ = .ok ⟨content, none⟩

/-- The file may be transferred: it is there, with the given content, its request fits the limits,
and the destination can stage it. -/
structure Possible (content : Bytes) : Prop where
  limit : 32 < x.limits.maxFrameBytes.toNat
  sourceWorks : x.sourceSetup.Works
  works : x.setup.Works
  request : Carried x.limits x.request
  file : NamesFile x.source.tree x.sourceRoot x.path content
  basis : x.update = true → ∃ basis, NamesFile x.destination.tree x.root x.path basis
  librsync : x.update = true → x.LibrsyncWorks
  enterable : x.destination.tree.Enterable x.directory
  writable : x.destination.tree.WritableAt x.directory
  fresh : x.destination.tree.get (x.directory ++ [StagedFile.name ⟨x.directory, x.name⟩]) = none

/-- How a transfer goes: the pieces of the signature for an update, what the source answers, how the
destination stages the answer, and the file system after that. -/
structure Course (content : Bytes) (signature : Option (List Bytes)) (answer : Bytes)
    (worker : List Bytes → Bool → ReceiveM StagedFile) (w : World) : Prop where
  answers : Answer x.sourceSetup.librsync content signature answer
  carried : ∀ m ∈ requests x.id x.path signature, Carried x.limits m
  requests : ∀ wire : Wire, wire.Open x.limits →
    (receiveFile x.setup x.root x.directory (some x.name) x.id x.path x.update).run
        ⟨wire, x.destination⟩ =
      (finishRequest signature worker x.id x.path).run
        (Receiver.sent ⟨wire, x.destination⟩ (requests x.id x.path signature))
  onFilesOnly : OnFilesOnly worker
  stages : ∀ wire : Wire, (worker (pieces x.sourceSetup x.limits answer) true).run
    ⟨wire, x.destination⟩ = (.ok ⟨x.directory, x.name⟩, ⟨wire, w⟩)
  staged : ∃ mtime, w.tree.get (x.directory ++ [StagedFile.name ⟨x.directory, x.name⟩]) =
    some ⟨.file content, 0o600, mtime⟩

variable {x}

theorem Possible.course {content : Bytes} (h : x.Possible content) :
    ∃ signature answer worker w, x.Course content signature answer worker w := by
  have hpieces (answer : Bytes) : (pieces x.sourceSetup x.limits answer).flatten = answer :=
    (reads_pieces h.sourceWorks h.limit answer).flatten
  -- the file is staged with the content
  obtain ⟨w, hreceive⟩ := receiveIn_run h.enterable h.writable h.fresh content
  obtain ⟨-, -, -, -, -, hstaged, -⟩ := receiveIn_ok hreceive
  have hstages (wire : Wire) : (stageMade x.directory (some x.name) (.ok ⟨content, none⟩)).run
      ⟨wire, x.destination⟩ = (.ok ⟨x.directory, x.name⟩, ⟨wire, w⟩) := by
    change (onFiles (StagedFile.receiveIn x.directory (some x.name) ⟨content, none⟩)).run
      ⟨wire, x.destination⟩ = _
    rw [run_onFiles, hreceive]
    rfl
  have hrequest := h.request
  unfold Exchange.request at hrequest
  cases hupdate : x.update with
  | false =>
    rw [hupdate] at hrequest
    refine ⟨none, content, copyWorker x.setup x.directory (some x.name), w, .create, ?_, ?_,
      onFilesOnly_stageMade _, ?_, hstaged⟩
    · intro m hm
      obtain rfl := List.mem_singleton.1 hm
      exact hrequest
    · intro wire hwire
      rw [hupdate]
      exact receiveFile_create hwire hrequest
    · intro wire
      unfold copyWorker
      rw [collected_complete h.works, hpieces]
      exact hstages wire
  | true =>
    rw [hupdate] at hrequest
    obtain ⟨basis, hbasis⟩ := h.basis hupdate
    obtain ⟨signature, delta, hsignature, hdelta, hpatch⟩ := h.librsync hupdate basis content
    refine ⟨some (pieces x.setup x.limits signature), delta,
      patchWorker x.setup x.directory (some x.name) basis, w, .update ?_, ?_, ?_,
      onFilesOnly_stageMade _, ?_, hstaged⟩
    · rw [(reads_pieces h.works h.limit signature).flatten]
      exact hdelta
    · intro m hm
      obtain rfl | hm := List.mem_cons.1 hm
      · exact hrequest
      · obtain hm | hm := List.mem_append.1 hm
        · obtain ⟨c, hc, rfl⟩ := List.mem_map.1 hm
          exact carried_pieces h.works h.limit .signature signature c hc
        · obtain rfl := List.mem_singleton.1 hm
          exact carried_signatureEnd h.limit
    · intro wire hwire
      rw [hupdate]
      exact receiveFile_update h.works h.limit hwire hrequest hbasis hsignature
    · intro wire
      unfold patchWorker
      rw [collected_complete h.works, hpieces, hpatch]
      exact hstages wire

/-- The wire of a stream that has just been opened. -/
def openedWire (limits : Limits) (incoming : List Bytes) (lost : Option QuicSyncError) : Wire :=
  ⟨openedStream limits incoming lost, CodecLimits.ofLimits limits,
    Decoder.new (CodecLimits.ofLimits limits), [], min (limits.maxFrameBytes.toNat - 32) (64 * 1024)⟩

theorem open_openedWire (limits : Limits) (incoming : List Bytes) (lost : Option QuicSyncError) :
    (openedWire limits incoming lost).Open limits :=
  ⟨rfl, rfl, rfl, rfl⟩

theorem new_openedStream {limits : Limits} (hmax : 32 < limits.maxFrameBytes.toNat)
    (incoming : List Bytes) (lost : Option QuicSyncError) :
    Wire.new (openedStream limits incoming lost) limits = .ok (openedWire limits incoming lost) := by
  unfold Wire.new chunkSize
  rw [if_pos (by omega)]
  rfl

section

variable {content answer : Bytes} {signature : Option (List Bytes)}
  {worker : List Bytes → Bool → ReceiveM StagedFile} {w : World} {incoming : List Bytes}

/-- The messages that the source answers with. -/
def answers (x : Exchange) (signature : Option (List Bytes)) (answer : Bytes) : List FileTransfer :=
  (pieces x.sourceSetup x.limits answer).map (answerMessage signature) ++ [.transferEnd]

theorem Possible.carried_answers (h : x.Possible content) :
    ∀ m ∈ x.answers signature answer, Carried x.limits m := by
  intro m hm
  obtain hm | hm := List.mem_append.1 hm
  · obtain ⟨c, hc, rfl⟩ := List.mem_map.1 hm
    exact carried_pieces h.sourceWorks h.limit (piece_answerMessage signature) answer c hc
  · obtain rfl := List.mem_singleton.1 hm
    exact carried_transferEnd h.limit

/-- The source answers the request, and succeeds once it reads the acknowledgment. -/
theorem Course.send (hcourse : x.Course content signature answer worker w)
    (h : x.Possible content) {words : List FileTransfer}
    (hwords : words = [] ∨ words = [.transferAccepted x.id])
    (hincoming : incoming.flatten =
      ((Transfer.requests x.id x.path signature ++ words).map frame).flatten)
    (lost : Option QuicSyncError) :
    (x.send incoming lost).2.outgoing = (x.answers signature answer).map frame ∧
      (words = [.transferAccepted x.id] → (x.send incoming lost).1 = .ok ()) := by
  have hcarried : ∀ m ∈ Transfer.requests x.id x.path signature ++ words, Carried x.limits m := by
    intro m hm
    obtain hm | hm := List.mem_append.1 hm
    · exact hcourse.carried m hm
    · obtain rfl | rfl := hwords
      · cases hm
      · obtain rfl := List.mem_singleton.1 hm
        exact carried_transferAccepted h.limit x.id
  have hholds : (openedWire x.limits incoming lost).Holds
      (Transfer.requests x.id x.path signature ++ words) := holds_new hcarried hincoming
  obtain ⟨s₂, hrun, hs₂, hholds₂, hout₂⟩ := sendFile_requests h.sourceWorks h.limit hcourse.answers
    h.file (open_openedWire _ _ _) hholds
  have hout := awaitAccepted_outgoing x.id h.limit hs₂
  unfold Exchange.send sendFileOn
  rw [new_openedStream h.limit]
  simp only [hrun]
  refine ⟨?_, ?_⟩
  · rw [hout, hout₂, Exchange.answers, List.map_append]
    rfl
  · rintro rfl
    obtain ⟨s₃, hawait, -⟩ := Talks.awaitAccepted h.limit s₂ [] hs₂ hholds₂
    rw [hawait]

/-- The destination sends its request whatever it reads, and at most an acknowledgment after it. -/
theorem Course.receive_outgoing (hcourse : x.Course content signature answer worker w)
    (h : x.Possible content) (incoming : List Bytes) (lost : Option QuicSyncError) :
    ∃ words : List FileTransfer, (words = [] ∨ words = [.transferAccepted x.id]) ∧
      (x.receive incoming lost).2.1.outgoing =
        (Transfer.requests x.id x.path signature ++ words).map frame := by
  obtain ⟨words, hwords, hout⟩ := finishRequest_outgoing signature x.id x.path
    (r := Receiver.sent ⟨openedWire x.limits incoming lost, x.destination⟩
      (Transfer.requests x.id x.path signature)) h.limit hcourse.onFilesOnly
    (open_openedWire _ _ _).sentAll
  refine ⟨words, hwords, ?_⟩
  unfold Exchange.receive receiveFileOn
  rw [new_openedStream h.limit]
  simp only [hcourse.requests _ (open_openedWire _ _ _)]
  rw [hout, List.map_append]
  rfl

/-- The destination stages and acknowledges the whole answer. -/
theorem Course.receive (hcourse : x.Course content signature answer worker w)
    (h : x.Possible content)
    (hincoming : incoming.flatten = ((x.answers signature answer).map frame).flatten)
    (lost : Option QuicSyncError) :
    (x.receive incoming lost).1 = .ok ⟨x.id, x.path, ⟨x.directory, x.name⟩⟩ ∧
      (x.receive incoming lost).2.2 = w ∧
      (x.receive incoming lost).2.1.outgoing =
        (Transfer.requests x.id x.path signature ++
          [FileTransfer.transferAccepted x.id]).map frame := by
  have hholds : (openedWire x.limits incoming lost).Holds (x.answers signature answer) :=
    holds_new h.carried_answers hincoming
  obtain ⟨r', hrun, hworld, hout⟩ := finishRequest_ok x.id x.path
    (r := Receiver.sent ⟨openedWire x.limits incoming lost, x.destination⟩
      (Transfer.requests x.id x.path signature)) h.limit (open_openedWire _ _ _).sentAll
    hcourse.stages hholds
  unfold Exchange.receive receiveFileOn
  rw [new_openedStream h.limit]
  simp only [hcourse.requests _ (open_openedWire _ _ _), hrun]
  refine ⟨trivial, hworld, ?_⟩
  rw [hout, List.map_append]
  rfl

/-- Ends that are connected succeed, and the destination stages the content. -/
theorem Possible.connected (h : x.Possible content) {incoming incoming' : List Bytes}
    {lost lost' : Option QuicSyncError} (hconnected : x.Connected incoming incoming' lost lost') :
    (x.send incoming lost).1 = .ok () ∧
      (x.receive incoming' lost').1 = .ok ⟨x.id, x.path, ⟨x.directory, x.name⟩⟩ ∧
      ∃ mtime, (x.receive incoming' lost').2.2.tree.get
        (x.directory ++ [StagedFile.name ⟨x.directory, x.name⟩]) =
          some ⟨.file content, 0o600, mtime⟩ := by
  obtain ⟨signature, answer, worker, w, hcourse⟩ := h.course
  obtain ⟨hsource, hdestination⟩ := hconnected
  obtain ⟨words, hwords, hout⟩ := hcourse.receive_outgoing h incoming' lost'
  -- the source has the request, so the destination has the answer, so the source has the rest
  rw [hout] at hdestination
  have hanswers := (hcourse.send h hwords hdestination.symm lost).1
  rw [hanswers] at hsource
  obtain ⟨hresult, hworld, hout'⟩ := hcourse.receive h hsource.symm lost'
  rw [← hout, hout'] at hdestination
  refine ⟨(hcourse.send h (Or.inr rfl) hdestination.symm lost).2 rfl, hresult, ?_⟩
  rw [hworld]
  exact hcourse.staged

/-- Whatever way the bytes are cut, there are bytes that connect the ends. -/
theorem Possible.exists_connected (h : x.Possible content) :
    ∃ requests answers : Bytes, ∀ incoming incoming' lost lost', incoming.flatten = requests →
      incoming'.flatten = answers → x.Connected incoming incoming' lost lost' := by
  obtain ⟨signature, answer, worker, w, hcourse⟩ := h.course
  refine ⟨((Transfer.requests x.id x.path signature ++
    [FileTransfer.transferAccepted x.id]).map frame).flatten,
    ((x.answers signature answer).map frame).flatten, ?_⟩
  intro incoming incoming' lost lost' hincoming hincoming'
  obtain ⟨hanswers, -⟩ := hcourse.send h (Or.inr rfl) hincoming lost
  obtain ⟨-, -, hrequests⟩ := hcourse.receive h hincoming' lost'
  refine ⟨?_, ?_⟩
  · rw [hanswers, hincoming']
  · rw [hrequests, hincoming]

end

end Exchange

end

/-- **Transfers are faithful.**  Where a file may be transferred, there are bytes that connect the
two ends however they are cut, and whenever the ends are connected both succeed and the destination
has staged exactly the content of the source's file.  And whatever a destination reads, if it is not
pieces of content up to their end, it fails and every entry is as it was. -/
theorem transfer_faithful :
    (∀ (x : Exchange) (content : Bytes), x.Possible content →
      (∃ requests answers : Bytes, ∀ incoming incoming' lost lost', incoming.flatten = requests →
        incoming'.flatten = answers → x.Connected incoming incoming' lost lost') ∧
      ∀ incoming incoming' lost lost', x.Connected incoming incoming' lost lost' →
        (x.send incoming lost).1 = .ok () ∧
        ∃ file, (x.receive incoming' lost').1 = .ok ⟨x.id, x.path, file⟩ ∧
          ∃ mtime, (x.receive incoming' lost').2.2.tree.get (file.directory ++ [file.name]) =
            some ⟨.file content, 0o600, mtime⟩) ∧
    ∀ (setup : Setup) (limits : Limits) (root : RootHandle) (directory : Path)
      (random : Option (Vector UInt8 16)) (id : OperationId) (path : RelativePath) (update : Bool)
      (w : World) (stream : TransferStream),
      ¬ Complete update (drain Decoder.push (Decoder.new (CodecLimits.ofLimits limits))
        stream.incoming) →
      ∃ e stream' w', receiveFileOn setup limits root directory random id path update w stream =
          (.error e, stream', w') ∧
        ∀ q, SameEntry (w.tree.get q) (w'.tree.get q) := by
  constructor
  · intro x content h
    refine ⟨h.exists_connected, fun incoming incoming' lost lost' hconnected => ?_⟩
    obtain ⟨hsend, hreceive, hstaged⟩ := h.connected hconnected
    exact ⟨hsend, _, hreceive, hstaged⟩
  · intro setup limits root directory random id path update w stream h
    unfold receiveFileOn
    cases hnew : Wire.new stream limits with
    | error e => exact ⟨.error e, stream, w, rfl, fun _ => SameEntry.refl _⟩
    | ok wire =>
      obtain ⟨size, -, hwire⟩ := bind_eq_ok_iff.1 hnew
      obtain rfl := Except.ok.inj hwire
      obtain ⟨e, r', hrun, hsame⟩ := refuses_receiveFile setup root directory random id path
        (r := ⟨⟨stream, CodecLimits.ofLimits limits, Decoder.new (CodecLimits.ofLimits limits), [],
          size⟩, w⟩) h
      exact ⟨e, r'.wire.stream, r'.world, by simp only [hrun], hsame⟩

/-! ### A transfer of one byte -/

namespace OneByte

/-- Deltas of literal bytes only: the header of a signature without blocks, and a delta with a
command for each byte before its end. -/
def literalDelta (content : Bytes) : Bytes :=
  [0x72, 0x73, 0x02, 0x36] ++ (content.flatMap fun b => [1, b]) ++ [0]

def applyLiterals : Bytes → Except String Bytes
  | 1 :: b :: rest => (applyLiterals rest).map (b :: ·)
  | [0] => .ok []
  | _ => .error "unexpected command"

def librsync : Librsync where
  signature _ := .ok ⟨[0x72, 0x73, 0x01, 0x37, 0, 0, 8, 0, 0, 0, 0, 0x20], none⟩
  delta content _ := .ok ⟨literalDelta content, none⟩
  patch _ delta := (applyLiterals (delta.bytes.drop 4)).map (⟨·, none⟩)

theorem applyLiterals_literalDelta (content : Bytes) :
    applyLiterals ((literalDelta content).drop 4) = .ok content := by
  change applyLiterals ((content.flatMap fun b => [1, b]) ++ [0]) = .ok content
  induction content with
  | nil => rfl
  | cons b content ih =>
    change (applyLiterals ((content.flatMap fun b => [1, b]) ++ [0])).map (b :: ·) = _
    rw [ih]
    rfl

/-- Every read returns one byte. -/
def setup : Setup := ⟨librsync, fun _ bytes => Incremental.singles bytes, 1⟩

/-- A tree with a file at `root/x` and a directory for temporary files. -/
def world (content : Bytes) : World where
  tree := (((Tree.empty.insert [] ⟨.directory, 0o755, 0⟩).insert [ascii "root"]
    ⟨.directory, 0o755, 0⟩).insert [ascii "root", ascii "x"] ⟨.file content, 0o644, 0⟩).insert
      [ascii "root", stagingName] ⟨.directory, 0o700, 0⟩
  past := []
  clock _ := 0

theorem path_ne_nil : [ascii "x"] ≠ [] := by decide

theorem path_legal : ∀ c ∈ [ascii "x"], componentError c = none := by decide

def exchange : Exchange where
  limits := defaultLimits
  sourceSetup := setup
  source := world [7]
  sourceRoot := ⟨[ascii "root"]⟩
  setup := setup
  destination := world []
  root := ⟨[ascii "root"]⟩
  directory := [ascii "root", stagingName]
  name := Vector.replicate 16 0
  id := ⟨0⟩
  path := ⟨[ascii "x"], path_ne_nil, path_legal⟩
  update := true

theorem works : setup.Works := ⟨fun _ _ hn => Incremental.reads_singles hn _, by decide⟩

theorem namesFile (content : Bytes) (hget : (world content).tree.get [ascii "root", ascii "x"] =
    some ⟨.file content, 0o644, 0⟩)
    (hroot : (world content).tree.get [ascii "root"] = some ⟨.directory, 0o755, 0⟩) :
    NamesFile (world content).tree exchange.root exchange.path content := by
  have hread : (0o644 : UInt32).toNat.testBit 8 = true := by decide
  exact ⟨by decide, trivial, ⟨_, hroot, rfl, by decide⟩, 0o644, 0, hget, hread⟩

theorem possible : exchange.Possible [7] where
  limit := by decide
  sourceWorks := works
  works := works
  request := ⟨⟨frame exchange.request, by decide +kernel⟩, by decide +kernel, by decide +kernel⟩
  file := namesFile [7] (by decide +kernel) (by decide +kernel)
  basis _ := ⟨[], namesFile [] (by decide +kernel) (by decide +kernel)⟩
  librsync _ := fun _ content => ⟨_, _, rfl, rfl, by
    change (applyLiterals ((literalDelta content).drop 4)).map (Content.mk · none) = _
    rw [applyLiterals_literalDelta]
    rfl⟩
  enterable := ⟨⟨.directory, 0o700, 0⟩, by decide +kernel, rfl, by decide⟩
  writable := ⟨⟨.directory, 0o700, 0⟩, by decide +kernel, by decide⟩
  fresh := by decide +kernel

end OneByte

/-- A byte is transferred as an update of an empty file, and nothing is staged from a stream that
is closed at once. -/
theorem transfer_faithful_oneByte :
    (∃ requests answers : Bytes, ∀ incoming incoming' lost lost', incoming.flatten = requests →
      incoming'.flatten = answers → OneByte.exchange.Connected incoming incoming' lost lost') ∧
    ∃ e stream' w', receiveFileOn OneByte.setup defaultLimits OneByte.exchange.root
        OneByte.exchange.directory none OneByte.exchange.id OneByte.exchange.path true
        (OneByte.world []) (openedStream defaultLimits [] none) = (.error e, stream', w') ∧
      ∀ q, SameEntry ((OneByte.world []).tree.get q) (w'.tree.get q) := by
  refine ⟨(transfer_faithful.1 OneByte.exchange [7] OneByte.possible).1, ?_⟩
  refine transfer_faithful.2 OneByte.setup defaultLimits OneByte.exchange.root
    OneByte.exchange.directory none OneByte.exchange.id OneByte.exchange.path true
    (OneByte.world []) (openedStream defaultLimits [] none) ?_
  rintro ⟨chunks, rest, h⟩
  exact absurd h.symm (by simp [drain, openedStream])

end Transfer

end QuicSync
