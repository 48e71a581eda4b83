import QuicSync.Sync.Agreement
import QuicSync.Sync.Completion

/-!
# The index between the two ends

The index of the source's tree goes through a channel, a stream of frames, a decoder and another
channel before the planner of the destination reads it.  On this way nothing is lost, repeated,
reordered or altered: what the planner has read is at any time a part, from its start, of what the
source's scan sends (`Session.index_integrity`).  The two ends can have different limits: a record
that one of them does not accept ends the session, it does not change.

* `frames_prefix`: messages whose frames start a stream of frames are the first messages of it.
* `Source.IndexFlow` and `Destination.IndexFlow` are the invariants of the two ends.
-/

namespace QuicSync

open Posix

/-! ### Frames -/

namespace Decoder

variable {T : Type} [WireMessage T] [WireFormat T] {L : CodecLimits} {d d' : Decoder}

/-- What an iteration takes away is the frame of the message that it returns. -/
theorem Good.consumed_pushStep {input input' : Bytes} {o : Option T} (hd : Good L d)
    (h : Decoder.pushStep d input = (.ok o, d', input')) :
    d.buffered ++ input = o.toList.flatMap frame ++ (d'.buffered ++ input') := by
  obtain ⟨d₁, input₁, hheader, hnext⟩ := pushStep_eq_ok_iff.1 h
  obtain ⟨⟨hlimits, hstate⟩, hbuffered⟩ := hd.headerStep hheader
  rw [← hbuffered]
  obtain ⟨-, rfl, rfl, rfl⟩ | ⟨n, hexp, hpay⟩ := hnext
  · rfl
  · obtain ⟨-, ⟨-, rfl, rfl, rfl⟩ | ⟨p, m, rfl, hlen, rfl, hdecode, rfl⟩⟩ :=
      payloadStep_eq_ok_iff.1 hpay
    · simp [buffered]
    · obtain ⟨hnone, -⟩ | ⟨n', hexp', hheader, hmax, -⟩ := hstate
      · rw [hnone] at hexp
        cases hexp
      · obtain rfl := Option.some.inj (hexp.symm.trans hexp')
        rw [hlimits] at hdecode
        have hword : (d₁.payload ++ p).length < wordSize := by
          rw [hlen]
          exact lt_of_le_of_lt hmax L.maxFrameBytes.toNat_lt
        obtain ⟨-, hpayload⟩ := (decodePayload_eq_ok_iff hword).1 hdecode
        simp only [buffered, hheader, Decoder.reset, Option.toList_some, List.flatMap_singleton,
          frame, ← hpayload, hlen, List.nil_append, List.append_assoc]

/-- What a push takes away are the frames of the messages that it returns. -/
theorem Good.consumed_pushLoop {input : Bytes} {acc out : List T} (hd : Good L d)
    (h : Decoder.pushLoop d input acc = (.ok (acc ++ out), d')) :
    d.buffered ++ input = out.flatMap frame ++ d'.buffered := by
  induction htodo : d.todo input using Nat.strong_induction_on generalizing d input acc out with
  | _ k ih =>
    obtain ⟨rfl, hout, rfl⟩ | ⟨hinput, o, d₁, input₁, hstep, hloop⟩ := pushLoop_eq_ok h
    · rw [List.append_right_eq_self] at hout
      subst hout
      rw [List.append_nil]
      rfl
    · obtain ⟨out₁, hout₁⟩ := ((hd.pushStep hstep).1.pushLoop hloop).2.2
      rw [List.append_assoc, List.append_cancel_left_eq] at hout₁
      subst hout₁
      rw [← List.append_assoc] at hloop
      have hrest := ih _ (htodo ▸ todo_pushStep hinput hstep) (hd.pushStep hstep).1 hloop rfl
      rw [hd.consumed_pushStep hstep, hrest, List.flatMap_append, List.append_assoc]

/-- The bytes that are decoded start with the frames of the messages. -/
theorem frames_of_push {bytes : Bytes} {out : List T}
    (h : push (new L) bytes = (.ok out, d)) : out.flatMap frame <+: bytes := by
  have hloop : pushLoop (new L) bytes [] = (.ok ([] ++ out), d) := h
  exact ⟨d.buffered, ((good_new L).consumed_pushLoop hloop).symm⟩

end Decoder

/-- Limits that allow every message that any limits allow. -/
def CodecLimits.widest : CodecLimits :=
  ⟨UInt64.ofNat (2 ^ 64 - 1), UInt64.ofNat (2 ^ 64 - 1), UInt64.ofNat (2 ^ 64 - 1),
    UInt64.ofNat (2 ^ 64 - 1)⟩

theorem Sendable.widest {L : CodecLimits} {m : IndexMessage} (h : Sendable L m) :
    Sendable CodecLimits.widest m := by
  have hle (x : UInt64) : x.toNat ≤ (UInt64.ofNat (2 ^ 64 - 1)).toNat := by
    have hlt := x.toNat_lt
    have hmax : (UInt64.ofNat (2 ^ 64 - 1)).toNat = 2 ^ 64 - 1 := by decide
    omega
  refine ⟨?_, h.2.trans (hle _)⟩
  cases m with
  | record r => exact ⟨h.1.1.trans (hle _), h.1.2.trans (hle _)⟩
  | «end» => trivial

/-- A payload is that of one message, whatever the limits are under which it was sent. -/
theorem payload_injective {L L' : CodecLimits} {m m' : IndexMessage} (hm : Sendable L m)
    (hm' : Sendable L' m') (h : payload m = payload m') : m = m' := by
  have hdecode := (decodePayload_eq_ok_iff hm.widest.length_payload_lt).2
    ⟨⟨hm.widest.1, hm.widest.fieldsFit⟩, rfl⟩
  have hdecode' := (decodePayload_eq_ok_iff hm'.widest.length_payload_lt).2
    ⟨⟨hm'.widest.1, hm'.widest.fieldsFit⟩, rfl⟩
  rw [h, hdecode'] at hdecode
  exact (Except.ok.inj hdecode).symm

/-- Messages whose frames start a stream of frames are the first messages of it. -/
theorem frames_prefix {L L' : CodecLimits} {out ms : List IndexMessage}
    (hout : ∀ m ∈ out, Sendable L m) (hms : ∀ m ∈ ms, Sendable L' m)
    (h : out.flatMap frame <+: ms.flatMap frame) : out <+: ms := by
  induction out generalizing ms with
  | nil => exact List.nil_prefix
  | cons m out ih =>
    have hm := hout m List.mem_cons_self
    cases ms with
    | nil =>
      have hnil := List.prefix_nil.1 h
      simp [frame, Leb128.encode_ne_nil] at hnil
    | cons m' ms =>
      have hm' := hms m' List.mem_cons_self
      simp only [List.flatMap_cons] at h
      -- the headers agree, so the payloads have one length
      have hlength : (payload m).length = (payload m').length := by
        refine Leb128.encode_append_inj (s := frame m' ++ ms.flatMap frame) ?_ ?_
        · refine List.IsPrefix.trans ?_ h
          rw [frame, List.append_assoc]
          exact List.prefix_append _ _
        · rw [frame, List.append_assoc]
          exact List.prefix_append _ _
      have hsame : frame m = frame m' := by
        have hlen : (frame m).length = (frame m').length := by
          rw [frame, frame, List.length_append, List.length_append, hlength]
        obtain ⟨rest, hrest⟩ := h
        rw [List.append_assoc] at hrest
        exact (List.append_inj hrest hlen).1
      rw [hsame] at h
      have hpayload : payload m = payload m' := by
        rw [frame, frame, hlength] at hsame
        exact List.append_cancel_left hsame
      obtain rfl := payload_injective hm hm' hpayload
      rw [List.prefix_append_right_inj] at h
      obtain ⟨rest, rfl⟩ := ih (fun m hm => hout m (List.mem_cons_of_mem _ hm))
        (fun m hm => hms m (List.mem_cons_of_mem _ hm)) h
      exact ⟨rest, rfl⟩

/-- What is written for a message is within its frame, and nothing is written for one that cannot be
sent. -/
theorem Outgoing.send_within {T : Type} [WireMessage T] [WireFormat T] {out out' : Outgoing T}
    {limits : Limits} {message : T} {fault : Option (ℕ × QuicSyncError)}
    {result : Except (Abort QuicSyncError) Unit}
    (h : out.send limits message fault = (result, out')) :
    out' = out ∨ Sendable (CodecLimits.ofLimits limits) message ∧
      out'.bytes <+: out.bytes ++ frame message := by
  cases hencode : Wire.encode message limits with
  | error e =>
    unfold send at h
    rw [hencode] at h
    cases h
    exact Or.inl rfl
  | ok w =>
    have hsendable : Sendable (CodecLimits.ofLimits limits) message := by
      unfold Wire.encode at hencode
      cases hok : QuicSync.encode message (CodecLimits.ofLimits limits) with
      | error e =>
        rw [hok] at hencode
        cases hencode
      | ok w' => exact (encode_eq_ok_iff.1 hok).1
    refine Or.inr ⟨hsendable, ?_⟩
    cases result with
    | ok _ =>
      rw [send_ok h]
    | error e =>
      obtain ⟨n, rfl⟩ := send_error h
      rw [List.prefix_append_right_inj]
      exact List.take_prefix _ _

/-! ### The source -/

namespace Source

variable {n : ℕ} {cfg : Sourcing} {s s' : Source n}

/-- Where the items of the index are. -/
structure IndexFlow (cfg : Sourcing) (s : Source n) : Prop where
  /-- While the index is sent, every item is in one place. -/
  sending : s.indexing = .confirming ∨ s.indexing = .sending →
    s.index.bytes = s.index.sent.flatMap frame ∧
      s.index.sent.map .ok ++ s.channel.queue ++ s.unscanned = cfg.scan.2
  sendable : ∀ m ∈ s.index.sent, Sendable (CodecLimits.ofLimits cfg.limits) m
  /-- What has been written are the first messages of the scan, the last perhaps in part. -/
  written : ∃ ms : List IndexMessage, (∀ m ∈ ms, Sendable (CodecLimits.ofLimits cfg.limits) m) ∧
    ms.map .ok <+: cfg.scan.2 ∧ s.index.bytes <+: ms.flatMap frame

theorem indexFlow_start (cfg : Sourcing) (connection : Connection) :
    (start cfg connection).IndexFlow cfg :=
  ⟨fun _ => ⟨rfl, rfl⟩, fun _ hm => absurd hm List.not_mem_nil,
    [], fun _ hm => absurd hm List.not_mem_nil, List.nil_prefix, List.nil_prefix⟩

/-- A step that does not concern the index. -/
theorem IndexFlow.same (h : s.IndexFlow cfg) (hindex : s'.index = s.index)
    (hindexing : s'.indexing = .confirming ∨ s'.indexing = .sending →
      (s.indexing = .confirming ∨ s.indexing = .sending) ∧
        s'.channel.queue ++ s'.unscanned = s.channel.queue ++ s.unscanned) : s'.IndexFlow cfg := by
  refine ⟨fun hsending => ?_, hindex ▸ h.sendable, hindex ▸ h.written⟩
  obtain ⟨hsending, hqueue⟩ := hindexing hsending
  obtain ⟨hbytes, hflow⟩ := h.sending hsending
  rw [hindex, List.append_assoc, hqueue, ← List.append_assoc]
  exact ⟨hbytes, hflow⟩

theorem IndexFlow.scan (h : s.IndexFlow cfg) (hstep : s.scanStep cfg = some s') :
    s'.IndexFlow cfg := by
  unfold scanStep at hstep
  split at hstep
  · rename_i item items _ hunscanned
    obtain ⟨sent, hsend, rfl⟩ := Option.map_eq_some_iff.1 hstep
    cases sent with
    | error _ => exact h.same rfl fun hsending => ⟨hsending, rfl⟩
    | ok channel =>
      obtain ⟨-, -, hqueue⟩ := Channel.send_ok hsend
      refine h.same rfl fun hsending => ⟨hsending, ?_⟩
      rw [hqueue, hunscanned, List.append_assoc]
      rfl
  · cases hstep
    exact h.same rfl fun hsending => ⟨hsending, rfl⟩
  · cases hstep

theorem IndexFlow.sendIndex {fault : Option (ℕ × QuicSyncError)} (h : s.IndexFlow cfg)
    (hstep : s.sendIndexStep cfg fault = some s') : s'.IndexFlow cfg := by
  unfold sendIndexStep at hstep
  split at hstep
  swap
  · cases hstep
  rename_i hindexing
  obtain ⟨hbytes, hflow⟩ := h.sending (Or.inr hindexing)
  obtain ⟨received, hreceive, rfl⟩ := Option.map_eq_some_iff.1 hstep
  rcases received with _ | ⟨e | message, channel⟩
  · exact h.same rfl fun hsending => by rcases hsending with heq | heq <;> cases heq
  · exact h.same rfl fun hsending => by rcases hsending with heq | heq <;> cases heq
  obtain ⟨hqueue, -⟩ := Channel.receive_item hreceive
  have hnext : (s.index.sent ++ [message]).map .ok <+: cfg.scan.2 := by
    rw [← hflow, hqueue, List.map_append]
    simp
  cases hsend : s.index.send cfg.limits message fault with
  | mk result index =>
    have hwritten : ∃ ms : List IndexMessage, (∀ m ∈ ms, Sendable (CodecLimits.ofLimits cfg.limits) m) ∧
        ms.map .ok <+: cfg.scan.2 ∧
          index.bytes <+: ms.flatMap frame := by
      obtain rfl | ⟨hsendable, hwithin⟩ := Outgoing.send_within hsend
      · exact h.written
      · refine ⟨s.index.sent ++ [message], fun m hm => ?_, hnext, ?_⟩
        · rcases List.mem_append.1 hm with hm | hm
          · exact h.sendable m hm
          · exact List.mem_singleton.1 hm ▸ hsendable
        · rwa [List.flatMap_append, List.flatMap_singleton, ← hbytes]
    cases result with
    | error e =>
      simp only [hsend]
      obtain ⟨k, rfl⟩ := Outgoing.send_error hsend
      refine ⟨fun hsending => ?_, h.sendable, hwritten⟩
      rcases hsending with heq | heq <;> cases heq
    | ok _ =>
      simp only [hsend]
      obtain rfl := Outgoing.send_ok hsend
      have hsendable : Sendable (CodecLimits.ofLimits cfg.limits) message := by
        obtain heq | ⟨hsendable, -⟩ := Outgoing.send_within hsend
        · have hsent := congrArg (fun o => o.sent.length) heq
          simp at hsent
        · exact hsendable
      refine ⟨fun _ => ⟨?_, ?_⟩, fun m hm => ?_, hwritten⟩
      · change s.index.bytes ++ frame message = (s.index.sent ++ [message]).flatMap frame
        rw [hbytes, List.flatMap_append, List.flatMap_singleton]
      · change (s.index.sent ++ [message]).map .ok ++ channel.queue ++ s.unscanned = _
        rw [← hflow, hqueue, List.map_append]
        simp
      · rcases List.mem_append.1 hm with hm | hm
        · exact h.sendable m hm
        · exact List.mem_singleton.1 hm ▸ hsendable

/-- Nothing that the serving task or its jobs do concerns the index. -/
theorem IndexFlow.unconcerned (h : s.IndexFlow cfg) (hindex : s'.index = s.index)
    (hindexing : s'.indexing = s.indexing) (hchannel : s'.channel = s.channel)
    (hunscanned : s'.unscanned = s.unscanned) : s'.IndexFlow cfg := by
  refine h.same hindex fun hsending => ⟨hindexing ▸ hsending, ?_⟩
  rw [hchannel, hunscanned]

/-- The indexing task is over. -/
theorem IndexFlow.over {result : Except (Abort QuicSyncError) Unit} (h : s.IndexFlow cfg)
    (hindex : s'.index = s.index) (hindexing : s'.indexing = .returned result) :
    s'.IndexFlow cfg := by
  refine h.same hindex fun hsending => ?_
  rw [hindexing] at hsending
  rcases hsending with heq | heq <;> cases heq

/-- **Every step keeps it.** -/
theorem IndexFlow.step {event : SourceEvent} (h : s.IndexFlow cfg)
    (hstep : s.step cfg event = some s') : s'.IndexFlow cfg := by
  cases event with
  | start streams fault root =>
    simp only [Source.step] at hstep
    split at hstep
    · cases hstep
      unfold startStep
      repeat' split
      all_goals exact h.unconcerned rfl rfl rfl rfl
    · cases hstep
  | scan => exact h.scan (whenRunning_eq_some.1 hstep).2
  | confirmIndexing handshake closeReason =>
    obtain ⟨-, hconfirm⟩ := whenRunning_eq_some.1 hstep
    split at hconfirm
    · rename_i hindexing
      split at hconfirm
      · cases hconfirm
        exact h.same rfl fun _ => ⟨Or.inl hindexing, rfl⟩
      · cases hconfirm
        exact h.over rfl rfl
    · cases hconfirm
  | sendIndex fault => exact h.sendIndex (whenRunning_eq_some.1 hstep).2
  | finishIndex result =>
    obtain ⟨-, hfinish⟩ := whenRunning_eq_some.1 hstep
    split at hfinish
    · cases hfinish
      exact h.over rfl rfl
    · cases hfinish
  | confirmServing handshake closeReason =>
    obtain ⟨-, hconfirm⟩ := whenRunning_eq_some.1 hstep
    split at hconfirm
    · split at hconfirm <;> cases hconfirm <;> exact h.unconcerned rfl rfl rfl rfl
    · cases hconfirm
  | readControl chunk =>
    obtain ⟨-, hread⟩ := whenRunning_eq_some.1 hstep
    unfold readControlStep at hread
    split at hread
    · simp only at hread
      split at hread <;> cases hread <;> exact h.unconcerned rfl rfl rfl rfl
    · cases hread
      exact h.unconcerned rfl rfl rfl rfl
    · cases hread
      exact h.unconcerned rfl rfl rfl rfl
    · cases hread
  | handle =>
    obtain ⟨-, hhandle⟩ := whenRunning_eq_some.1 hstep
    unfold handleStep at hhandle
    split at hhandle
    · simp only at hhandle
      split at hhandle <;> cases hhandle <;> exact h.unconcerned rfl rfl rfl rfl
    · cases hhandle
  | accept stream =>
    obtain ⟨-, haccept⟩ := whenRunning_eq_some.1 hstep
    unfold acceptStep at haccept
    split at haccept
    · split at haccept
      · split at haccept <;> cases haccept <;> exact h.unconcerned rfl rfl rfl rfl
      · cases haccept
    · cases haccept
  | job i event =>
    have hjob : s.jobStep i event = some s' := hstep
    unfold jobStep at hjob
    split at hjob <;> cases hjob <;> exact h.unconcerned rfl rfl rfl rfl
  | joinJob i =>
    obtain ⟨-, hjoin⟩ := whenRunning_eq_some.1 hstep
    unfold joinJobStep at hjoin
    simp only at hjoin
    split at hjoin
    · cases hjoin
      split <;> exact h.unconcerned rfl rfl rfl rfl
    · cases hjoin
      split <;> exact h.unconcerned rfl rfl rfl rfl
    · cases hjoin
  | drained =>
    obtain ⟨-, hdrained⟩ := whenRunning_eq_some.1 hstep
    split at hdrained <;> cases hdrained
    exact h.unconcerned rfl rfl rfl rfl
  | closed =>
    obtain ⟨-, hclosed⟩ := whenRunning_eq_some.1 hstep
    split at hclosed <;> cases hclosed
    exact h.unconcerned rfl rfl rfl rfl
  | closeChannel =>
    cases hstep
    exact h.same rfl fun hsending => ⟨hsending, rfl⟩
  | fail task e =>
    obtain ⟨-, hfail⟩ := whenRunning_eq_some.1 hstep
    unfold failStep at hfail
    split at hfail
    · cases hfail
    · cases hfail
      exact h.unconcerned rfl rfl rfl rfl
    · cases hfail
      exact h.over rfl rfl
    · cases hfail
      exact h.unconcerned rfl rfl rfl rfl
  | join =>
    obtain ⟨-, hjoin⟩ := whenRunning_eq_some.1 hstep
    split at hjoin <;> cases hjoin
    exact h.unconcerned rfl rfl rfl rfl
  | abort task =>
    obtain ⟨-, habort⟩ := whenRunning_eq_some.1 hstep
    split at habort <;> cases habort
    exact h.unconcerned rfl rfl rfl rfl

end Source

/-! ### The destination -/

namespace Destination

variable {n : ℕ} {cfg : Serving} {s s' : Destination n}

/-- Where the items of the two indexes are. -/
structure IndexFlow (cfg : Serving) (s : Destination n) : Prop where
  /-- The items of the destination's own scan. -/
  scanned : s.readLocal ++ s.localIndex.queue ++ s.unscanned = cfg.scan.2
  /-- While messages are forwarded, all that have been decoded are in one place. -/
  forwarding : s.indexing = .running → ∃ ms : List IndexMessage,
    (Decoder.new (CodecLimits.ofLimits cfg.limits)).push s.indexRead = (.ok ms, s.records.decoder) ∧
      s.readRemote ++ s.remoteIndex.queue ++ s.records.pending.map .ok = ms.map .ok
  /-- What has been forwarded are the first messages of the stream. -/
  forwarded : ∃ (bytes : Bytes) (ms : List IndexMessage) (d : Decoder), bytes <+: s.indexRead ∧
    (Decoder.new (CodecLimits.ofLimits cfg.limits)).push bytes = (.ok ms, d) ∧
      s.readRemote ++ s.remoteIndex.queue <+: ms.map .ok

theorem indexFlow_start (cfg : Serving) (connection : Connection) (w : World) :
    (start cfg connection w).IndexFlow cfg :=
  ⟨rfl, fun _ => ⟨[], Decoder.incremental_push.nil _, rfl⟩,
    [], [], _, List.nil_prefix, Decoder.incremental_push.nil _, List.nil_prefix⟩

/-- A step that moves items from the channels to the planner at most. -/
theorem IndexFlow.same (h : s.IndexFlow cfg)
    (hlocal : s'.readLocal ++ s'.localIndex.queue ++ s'.unscanned =
      s.readLocal ++ s.localIndex.queue ++ s.unscanned)
    (hremote : s'.readRemote ++ s'.remoteIndex.queue = s.readRemote ++ s.remoteIndex.queue)
    (hread : s'.indexRead = s.indexRead) (hrecords : s'.records = s.records)
    (hindexing : s'.indexing = .running → s.indexing = .running) : s'.IndexFlow cfg := by
  refine ⟨hlocal.trans h.scanned, fun hrunning => ?_, ?_⟩
  · rw [hremote, hread, hrecords]
    exact h.forwarding (hindexing hrunning)
  · rw [hremote, hread]
    exact h.forwarded

/-- A step that does not concern the indexes. -/
theorem IndexFlow.unconcerned (h : s.IndexFlow cfg)
    (hlocal : s'.readLocal = s.readLocal ∧ s'.localIndex = s.localIndex ∧
      s'.unscanned = s.unscanned)
    (hremote : s'.readRemote = s.readRemote ∧ s'.remoteIndex = s.remoteIndex)
    (hread : s'.indexRead = s.indexRead) (hrecords : s'.records = s.records)
    (hindexing : s'.indexing = s.indexing) : s'.IndexFlow cfg := by
  obtain ⟨hreadLocal, hlocal, hunscanned⟩ := hlocal
  obtain ⟨hreadRemote, hremote⟩ := hremote
  refine h.same ?_ ?_ hread hrecords fun hrunning => hindexing ▸ hrunning
  · rw [hreadLocal, hlocal, hunscanned]
  · rw [hreadRemote, hremote]

theorem IndexFlow.scan (h : s.IndexFlow cfg) (hstep : s.scanStep cfg = some s') :
    s'.IndexFlow cfg := by
  unfold scanStep at hstep
  split at hstep
  · rename_i item items _ hunscanned
    obtain ⟨sent, hsend, rfl⟩ := Option.map_eq_some_iff.1 hstep
    cases sent with
    | error _ => exact h.same rfl rfl rfl rfl fun hrunning => hrunning
    | ok channel =>
      obtain ⟨-, -, hqueue⟩ := Channel.send_ok hsend
      refine h.same ?_ rfl rfl rfl fun hrunning => hrunning
      rw [hqueue, hunscanned]
      simp
  · cases hstep
    exact h.same rfl rfl rfl rfl fun hrunning => hrunning
  · cases hstep

theorem IndexFlow.readIndex {chunk : Except QuicSyncError Bytes} (h : s.IndexFlow cfg)
    (hstep : s.readIndexStep chunk = some s') : s'.IndexFlow cfg := by
  unfold readIndexStep at hstep
  split at hstep
  · rename_i chunk hindexing hpending
    obtain ⟨ms, hpush, hflow⟩ := h.forwarding hindexing
    obtain ⟨bytes, ms', d, hbytes, hdecoded, hwithin⟩ := h.forwarded
    have hforwarded : ∃ (bytes : Bytes) (ms : List IndexMessage) (d : Decoder),
        bytes <+: s.indexRead ++ chunk ∧
          (Decoder.new (CodecLimits.ofLimits cfg.limits)).push bytes = (.ok ms, d) ∧
          s.readRemote ++ s.remoteIndex.queue <+: ms.map .ok :=
      ⟨bytes, ms', d, hbytes.trans (List.prefix_append _ _), hdecoded, hwithin⟩
    simp only at hstep
    split at hstep
    · rename_i pending decoder hchunk
      cases hstep
      refine ⟨h.scanned, fun _ => ⟨ms ++ pending, ?_, ?_⟩, hforwarded⟩
      · exact Decoder.incremental_push.push_append hpush hchunk
      · change s.readRemote ++ s.remoteIndex.queue ++ pending.map .ok = _
        rw [List.map_append, ← hflow, hpending]
        simp
    · cases hstep
      refine ⟨h.scanned, fun hrunning => ?_, hforwarded⟩
      cases hrunning
  · cases hstep
    refine h.same rfl rfl rfl rfl fun hrunning => ?_
    cases hrunning
  · cases hstep

theorem IndexFlow.forward (h : s.IndexFlow cfg) (hstep : s.forwardStep = some s') :
    s'.IndexFlow cfg := by
  unfold forwardStep at hstep
  split at hstep
  · rename_i record pending hindexing hpending
    obtain ⟨sent, hsend, rfl⟩ := Option.map_eq_some_iff.1 hstep
    obtain ⟨ms, hpush, hflow⟩ := h.forwarding hindexing
    cases sent with
    | error _ =>
      refine h.same rfl rfl rfl rfl fun hrunning => ?_
      cases hrunning
    | ok channel =>
      obtain ⟨-, -, hqueue⟩ := Channel.send_ok hsend
      have hflow' : s.readRemote ++ channel.queue ++ pending.map .ok = ms.map .ok := by
        rw [← hflow, hqueue, hpending]
        simp
      refine ⟨h.scanned, fun _ => ⟨ms, hpush, hflow'⟩, s.indexRead, ms, _, List.prefix_rfl, hpush, ?_⟩
      exact ⟨_, hflow'⟩
  · cases hstep

theorem IndexFlow.plan (h : s.IndexFlow cfg) (hstep : s.planStep = some s') :
    s'.IndexFlow cfg := by
  unfold planStep at hstep
  split at hstep
  swap
  · cases hstep
  split at hstep
  · split at hstep <;> cases hstep <;> exact h.unconcerned ⟨rfl, rfl, rfl⟩ ⟨rfl, rfl⟩ rfl rfl rfl
  · obtain ⟨received, hreceive, rfl⟩ := Option.map_eq_some_iff.1 hstep
    rcases received with _ | ⟨item, channel⟩
    · exact h.unconcerned ⟨rfl, rfl, rfl⟩ ⟨rfl, rfl⟩ rfl rfl rfl
    · obtain ⟨hqueue, -⟩ := Channel.receive_item hreceive
      have hremote : s.readRemote ++ [item] ++ channel.queue =
          s.readRemote ++ s.remoteIndex.queue := by
        rw [hqueue, List.append_assoc]
        rfl
      simp only
      split <;> exact h.same rfl hremote rfl rfl fun hrunning => hrunning
  · obtain ⟨received, hreceive, rfl⟩ := Option.map_eq_some_iff.1 hstep
    rcases received with _ | ⟨item, channel⟩
    · exact h.unconcerned ⟨rfl, rfl, rfl⟩ ⟨rfl, rfl⟩ rfl rfl rfl
    · obtain ⟨hqueue, -⟩ := Channel.receive_item hreceive
      have hlocal : s.readLocal ++ [item] ++ channel.queue ++ s.unscanned =
          s.readLocal ++ s.localIndex.queue ++ s.unscanned := by
        rw [hqueue, List.append_assoc s.readLocal]
        rfl
      simp only
      split <;> exact h.same hlocal rfl rfl rfl fun hrunning => hrunning
  · obtain ⟨sent, -, rfl⟩ := Option.map_eq_some_iff.1 hstep
    cases sent <;> exact h.unconcerned ⟨rfl, rfl, rfl⟩ ⟨rfl, rfl⟩ rfl rfl rfl

theorem IndexFlow.requestStep {event : RequestEvent} (h : s.IndexFlow cfg)
    (hstep : Destination.requestStep cfg s event = some s') : s'.IndexFlow cfg := by
  unfold Destination.requestStep at hstep
  split at hstep
  · split at hstep
    · split at hstep
      · obtain ⟨requesting, -, rfl⟩ := Option.map_eq_some_iff.1 hstep
        exact h.unconcerned ⟨rfl, rfl, rfl⟩ ⟨rfl, rfl⟩ rfl rfl rfl
      · cases hstep
    · cases hstep
  · split at hstep
    · obtain ⟨requesting, -, rfl⟩ := Option.map_eq_some_iff.1 hstep
      exact h.unconcerned ⟨rfl, rfl, rfl⟩ ⟨rfl, rfl⟩ rfl rfl rfl
    · cases hstep
  · obtain ⟨requesting, -, rfl⟩ := Option.map_eq_some_iff.1 hstep
    exact h.unconcerned ⟨rfl, rfl, rfl⟩ ⟨rfl, rfl⟩ rfl rfl rfl

/-- **Every step keeps it.** -/
theorem IndexFlow.step {event : ServeEvent} (h : s.IndexFlow cfg)
    (hstep : s.step cfg event = some s') : s'.IndexFlow cfg := by
  cases event with
  | start chunks fingerprint opened =>
    simp only [Destination.step] at hstep
    split at hstep
    · split at hstep
      · split at hstep <;> cases hstep
        exact h.unconcerned ⟨rfl, rfl, rfl⟩ ⟨rfl, rfl⟩ rfl rfl rfl
      · cases hstep
        exact h.unconcerned ⟨rfl, rfl, rfl⟩ ⟨rfl, rfl⟩ rfl rfl rfl
    · cases hstep
  | scan => exact h.scan (whenRunning_eq_some.1 hstep).2
  | readIndex chunk => exact h.readIndex (whenRunning_eq_some.1 hstep).2
  | forward => exact h.forward (whenRunning_eq_some.1 hstep).2
  | confirm handshake closeReason =>
    obtain ⟨-, hconfirm⟩ := whenRunning_eq_some.1 hstep
    split at hconfirm
    · split at hconfirm <;> cases hconfirm <;>
        exact h.unconcerned ⟨rfl, rfl, rfl⟩ ⟨rfl, rfl⟩ rfl rfl rfl
    · cases hconfirm
  | accept fault =>
    obtain ⟨-, haccept⟩ := whenRunning_eq_some.1 hstep
    split at haccept
    · split at haccept <;> cases haccept <;>
        exact h.unconcerned ⟨rfl, rfl, rfl⟩ ⟨rfl, rfl⟩ rfl rfl rfl
    · cases haccept
  | plan => exact h.plan (whenRunning_eq_some.1 hstep).2
  | endPlan fault =>
    obtain ⟨-, hend⟩ := whenRunning_eq_some.1 hstep
    split at hend
    · cases hend
      exact h.unconcerned ⟨rfl, rfl, rfl⟩ ⟨rfl, rfl⟩ rfl rfl rfl
    · cases hend
  | request event =>
    have hrunning (hstep : s.whenRunning (Destination.requestStep cfg s event) = some s') :
        s'.IndexFlow cfg := h.requestStep (whenRunning_eq_some.1 hstep).2
    cases event with
    | job i event =>
      have hjob : Destination.requestStep cfg s (.job i event) = some s' := hstep
      exact h.requestStep hjob
    | discard i =>
      have hdiscard : Destination.requestStep cfg s (.discard i) = some s' := hstep
      exact h.requestStep hdiscard
    | openArea => exact hrunning hstep
    | receive operation => exact hrunning hstep
    | ended => exact hrunning hstep
    | openStream result => exact hrunning hstep
    | join i => exact hrunning hstep
    | finish => exact hrunning hstep
    | fail e => exact hrunning hstep
  | closeLocal =>
    cases hstep
    exact h.same rfl rfl rfl rfl fun hrunning => hrunning
  | closeRemote =>
    cases hstep
    exact h.same rfl rfl rfl rfl fun hrunning => hrunning
  | closeOperations =>
    cases hstep
    exact h.unconcerned ⟨rfl, rfl, rfl⟩ ⟨rfl, rfl⟩ rfl rfl rfl
  | fail task e =>
    obtain ⟨-, hfail⟩ := whenRunning_eq_some.1 hstep
    unfold failStep at hfail
    split at hfail
    · cases hfail
    · cases hfail
      exact h.unconcerned ⟨rfl, rfl, rfl⟩ ⟨rfl, rfl⟩ rfl rfl rfl
    · cases hfail
      refine h.same rfl rfl rfl rfl fun hrunning => ?_
      cases hrunning
    · cases hfail
      exact h.unconcerned ⟨rfl, rfl, rfl⟩ ⟨rfl, rfl⟩ rfl rfl rfl
    · exact h.requestStep hfail
  | join =>
    obtain ⟨-, hjoin⟩ := whenRunning_eq_some.1 hstep
    split at hjoin <;> cases hjoin
    exact h.unconcerned ⟨rfl, rfl, rfl⟩ ⟨rfl, rfl⟩ rfl rfl rfl
  | abort task =>
    obtain ⟨-, habort⟩ := whenRunning_eq_some.1 hstep
    split at habort <;> cases habort
    exact h.unconcerned ⟨rfl, rfl, rfl⟩ ⟨rfl, rfl⟩ rfl rfl rfl
  | commit opened =>
    simp only [Destination.step] at hstep
    split at hstep
    · cases hstep
      unfold Destination.commitStep
      cases opened with
      | error e => exact h.unconcerned ⟨rfl, rfl, rfl⟩ ⟨rfl, rfl⟩ rfl rfl rfl
      | ok _ =>
        simp only
        split <;> exact h.unconcerned ⟨rfl, rfl, rfl⟩ ⟨rfl, rfl⟩ rfl rfl rfl
    · cases hstep
  | acknowledge fault =>
    simp only [Destination.step] at hstep
    split at hstep
    · split at hstep <;> cases hstep <;>
        exact h.unconcerned ⟨rfl, rfl, rfl⟩ ⟨rfl, rfl⟩ rfl rfl rfl
    · cases hstep
  | close rest =>
    simp only [Destination.step] at hstep
    split at hstep
    · cases hstep
      exact h.unconcerned ⟨rfl, rfl, rfl⟩ ⟨rfl, rfl⟩ rfl rfl rfl
    · cases hstep
      exact h.unconcerned ⟨rfl, rfl, rfl⟩ ⟨rfl, rfl⟩ rfl rfl rfl
    · cases hstep

/-- What is to be committed when all tasks have returned: the plan for what has been read. -/
theorem Inv.planned {w₀ : World} (h : s.Inv cfg w₀)
    (hjoined : s.phase.joined = true ∨ s.committed ≠ none) : ∃ S D,
      s.readRemote = stream S ∧ s.readLocal = stream D ∧
        s.requesting.pending.changes.map (·.1) = QuicSync.operations (merge S D) 0 := by
  have hplan := h.plan
  rw [resultOf_planning (h.joined hjoined .planning)] at hplan
  obtain ⟨S, D, hremote, hlocal, hemitted⟩ := hplan
  obtain ⟨retained, -, horder, hchanges⟩ :=
    h.inOrder (resultOf_requesting (h.joined hjoined .requesting))
  refine ⟨S, D, hremote, hlocal, ?_⟩
  rw [← hemitted, ← horder.operations, hchanges, List.map_map]
  rfl

end Destination

/-! ### Both ends -/

namespace Session

variable {cfg : Parties} {connection connection' : Connection} {w : World}
  {s : Session cfg.source.capacity cfg.destination.capacity}

theorem Reachable.indexFlow (h : s.Reachable cfg connection connection' w) :
    s.source.IndexFlow cfg.source ∧ s.destination.IndexFlow cfg.destination := by
  obtain ⟨-, hsource, hdestination⟩ := h.parts
  exact ⟨Reaches.invariant hsource (Source.indexFlow_start _ _) fun _ _ _ hi hstep => hi.step hstep,
    Reaches.invariant hdestination (Destination.indexFlow_start _ _ _) fun _ _ _ hi hstep =>
      hi.step hstep⟩

/-- The serving task of the source does not succeed without a commit that does. -/
theorem Reachable.committed_of_served (h : s.Reachable cfg connection connection' w)
    (hserving : s.source.serving = .returned (.ok ())) :
    s.destination.committed = some (.ok ()) := by
  obtain ⟨hdelivered, hsource, hdestination⟩ := h.inv
  have hintact : s.source.serving.intact = true := by rw [hserving]; rfl
  by_contra huncommitted
  have hwithin := received_within hdelivered hsource hdestination hintact huncommitted
  rw [hsource.handled.over (Or.inr (Or.inr hserving))] at hwithin
  have hmem : Control.completeAck ∈ expectedControl := List.mem_of_getLast? rfl
  exact absurd (hwithin.subset (List.mem_append_left _ hmem)) (by decide)

/-- What the planner has read of the source's index. -/
theorem Reachable.readRemote (h : s.Reachable cfg connection connection' w) :
    s.destination.readRemote <+: cfg.source.scan.2 := by
  obtain ⟨hsource, hdestination⟩ := h.indexFlow
  obtain ⟨bytes, out, d, hbytes, hpush, hwithin⟩ := hdestination.forwarded
  obtain ⟨ms, hms, hscan, hwritten⟩ := hsource.written
  have hsendable : ∀ m ∈ out, Sendable (CodecLimits.ofLimits cfg.destination.limits) m :=
    (Decoder.good_new _).sendable_pushLoop hpush fun _ hm => absurd hm List.not_mem_nil
  -- from the scan to the planner: written, delivered, decoded, forwarded, read
  have hout : out <+: ms := frames_prefix hsendable hms
    ((Decoder.frames_of_push hpush).trans (hbytes.trans (h.parts.1.2.2.1.trans hwritten)))
  calc s.destination.readRemote <+: s.destination.readRemote ++ s.destination.remoteIndex.queue :=
        List.prefix_append _ _
    _ <+: out.map .ok := hwithin
    _ <+: ms.map .ok := hout.map _
    _ <+: cfg.source.scan.2 := hscan

theorem Reachable.readLocal (h : s.Reachable cfg connection connection' w) :
    s.destination.readLocal <+: cfg.destination.scan.2 := by
  rw [← h.indexFlow.2.scanned, List.append_assoc]
  exact List.prefix_append _ _

/-- **Integrity of the indexes.**  In every run of both ends, under any limits and whatever fails:
what the planner has read of the two indexes is what the two scans send, up to some point.  When
the tasks of the destination have been joined, what is committed is the plan for two whole indexes
that the scans have sent. -/
theorem index_integrity (cfg : Parties) (connection connection' : Connection) (w : World)
    (s : Session cfg.source.capacity cfg.destination.capacity)
    (h : s.Reachable cfg connection connection' w) :
    s.destination.readRemote <+: cfg.source.scan.2 ∧
      s.destination.readLocal <+: cfg.destination.scan.2 ∧
      (s.destination.phase.joined = true ∨ s.destination.committed ≠ none → ∃ S D,
        stream S <+: cfg.source.scan.2 ∧ stream D <+: cfg.destination.scan.2 ∧
          s.destination.requesting.pending.changes.map (·.1) =
            QuicSync.operations (merge S D) 0) := by
  refine ⟨h.readRemote, h.readLocal, fun hjoined => ?_⟩
  obtain ⟨S, D, hremote, hlocal, hchanges⟩ := h.inv.2.2.planned hjoined
  exact ⟨S, D, hremote ▸ h.readRemote, hlocal ▸ h.readLocal, hchanges⟩

end Session

namespace Sample

/-- The commit has been made. -/
def hasCommitted (s : Session parties.source.capacity parties.destination.capacity) : Bool :=
  s.destination.committed.isSome

theorem hasCommitted_untilReturned :
    (bothAfter (untilScanned ++ untilServed ++ untilReturned)).any hasCommitted = true := by
  decide +kernel

end Sample

open Sample in
/-- The session of the sample commits the plan for its two indexes. -/
theorem index_integrity_sample : ∃ s : Session parties.source.capacity parties.destination.capacity,
    s.Reachable parties connection connection (world 0o755) ∧ s.destination.committed ≠ none ∧
      ∃ S D, stream S <+: stream (source 0o755) ∧ stream D <+: stream (destination 0o755) ∧
        s.destination.requesting.pending.changes.map (·.1) = QuicSync.operations (merge S D) 0 := by
  obtain ⟨s, hs, hcommitted⟩ := (Option.any_eq_true _ _).1 hasCommitted_untilReturned
  have hne : s.destination.committed ≠ none := Option.isSome_iff_ne_none.1 hcommitted
  obtain ⟨-, -, hplanned⟩ :=
    Session.index_integrity parties connection connection (world 0o755) s ⟨_, hs⟩
  exact ⟨s, ⟨_, hs⟩, hne, hplanned (Or.inr hne)⟩

end QuicSync
