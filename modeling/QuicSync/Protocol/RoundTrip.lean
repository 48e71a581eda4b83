import QuicSync.Protocol.Format

/-!
# Encoding and decoding are inverse

`WireFormat T` states for a whole message type that its writer appends the format of the fields
and that its reader parses exactly that format; the instances are the three streams.  From it,

* `encode_eq_ok_iff` and `decode_eq_ok_iff`: both the encoder and the one-shot decoder relate a
  message to its frame, `frame m`, under the same condition `Sendable L m`;
* `decode_encode` and `encode_decode`: what is encoded decodes to the same message, and what
  decodes is the encoding of the message it decodes to.
-/

namespace QuicSync

open Format

/-- The wire format of a message type, with the two halves of the codec refining it. -/
class WireFormat (T : Type) [WireMessage T] where
  /-- The bytes of the fields. -/
  fields : T → Bytes
  /-- The paths of the message are within the local limits. -/
  Fits : CodecLimits → T → Prop
  /-- The byte fields of the message are within the frame limit. -/
  FieldsFit : CodecLimits → T → Prop
  /-- The writer appends the fields. -/
  appends : ∀ m : T, Writer.Appends (WireMessage.encodeFields m) (fields m) fun L => Fits L m
  /-- The reader parses the fields of the messages of its kind. -/
  parses : ∀ L k, Parses (Reader.cursor L) (WireMessage.decodeFields k) fields
    fun m => (Fits L m ∧ FieldsFit L m) ∧ WireMessage.kind m = k
  /-- A byte field is no longer than all the fields. -/
  fieldsFit : ∀ L m, (fields m).length ≤ L.maxFrameBytes.toNat → FieldsFit L m

/-! ### The instances -/

namespace Format

variable {L : CodecLimits}

theorem bytesFit_of_length_le {value : Bytes} (h : (bytes value).length ≤ L.maxFrameBytes.toNat) :
    BytesFit L value := by
  rw [bytes, List.length_append] at h
  exact le_trans (Nat.le_add_left _ _) h

theorem targetFits_of_length_le {value : IndexRecord}
    (h : (record value).length ≤ L.maxFrameBytes.toNat) :
    ∀ target ∈ value.symlinkTarget, BytesFit L target := by
  intro target htarget
  refine bytesFit_of_length_le (le_trans ?_ h)
  rw [Option.mem_def] at htarget
  simp only [record, htarget, optional, List.length_append, List.length_cons]
  omega

theorem operationBytesFit_of_length_le {value : Operation}
    (h : (operation value).length ≤ L.maxFrameBytes.toNat) : OperationBytesFit L value := by
  have hbody : (operationBody value).length ≤ L.maxFrameBytes.toNat := by
    refine le_trans ?_ h
    simp only [operation, List.length_cons, List.length_append]
    omega
  cases value with
  | upsertDirectory id r => exact targetFits_of_length_le hbody
  | upsertFile update id r => exact targetFits_of_length_le hbody
  | upsertSymlink id r => exact targetFits_of_length_le hbody
  | delete id p k => trivial

theorem messageFits_of_length_le {value : WireFailure}
    (h : (failure value).length ≤ L.maxFrameBytes.toNat) :
    BytesFit L value.message.toByteArray.data.toList := by
  refine bytesFit_of_length_le (le_trans ?_ h)
  simp only [failure, string, List.length_append]
  omega

end Format

/-- A constructor without fields, read under its kind. -/
theorem parses_unit {T : Type} {L : CodecLimits} {format : T → Bytes} {F : T → Prop} (m : T)
    (hF : ∀ c, F c ↔ c = m) (hformat : format m = []) :
    Parses (Reader.cursor L) (pure m : ReadM T) format F := by
  refine (Parses.pure m).congr hF ?_
  rintro _ rfl
  exact hformat

instance : WireFormat Control where
  fields
    | .startSync rootId => Format.string rootId
    | .startAccepted | .planEnd | .completeAck => []
    | .operation o => Format.operation o
    | .failure f => Format.failure f
  Fits L
    | .operation o => OperationFits L o
    | .failure f => ∀ p ∈ f.path, PathFits L p
    | _ => True
  FieldsFit L
    | .startSync rootId => BytesFit L rootId.toByteArray.data.toList
    | .operation o => OperationBytesFit L o
    | .failure f => BytesFit L f.message.toByteArray.data.toList
    | _ => True
  appends m := by
    cases m with
    | startSync rootId => exact Writer.appends_bytes _
    | startAccepted => exact Writer.appends_pure
    | operation o => exact Writer.appends_operation o
    | planEnd => exact Writer.appends_pure
    | completeAck => exact Writer.appends_pure
    | failure f => exact Writer.appends_failure f
  parses L k := by
    unfold WireMessage.decodeFields instWireMessageControl
    simp only
    split
    · exact Reader.parses_string.map _ (by rintro (_ | _ | _ | _ | _ | _) <;> simp) fun _ _ => rfl
    · exact parses_unit _ (by rintro (_ | _ | _ | _ | _ | _) <;> simp) rfl
    · exact Reader.parses_operation.map _ (by rintro (_ | _ | _ | _ | _ | _) <;> simp) fun _ _ => rfl
    · exact parses_unit _ (by rintro (_ | _ | _ | _ | _ | _) <;> simp) rfl
    · exact parses_unit _ (by rintro (_ | _ | _ | _ | _ | _) <;> simp) rfl
    · refine Reader.parses_failure.map _ (by rintro (_ | _ | _ | _ | _ | _) <;> simp [and_comm])
        fun _ _ => rfl
    · refine Parses.fail (fun r => ⟨_, rfl⟩) ?_
      rintro (_ | _ | _ | _ | _ | _) ⟨-, rfl⟩ <;> contradiction
  fieldsFit L m h := by
    cases m with
    | startSync rootId => exact bytesFit_of_length_le h
    | operation o => exact operationBytesFit_of_length_le h
    | failure f => exact messageFits_of_length_le h
    | startAccepted => trivial
    | planEnd => trivial
    | completeAck => trivial

instance : WireFormat IndexMessage where
  fields
    | .record r => Format.record r
    | .end => []
  Fits L
    | .record r => PathFits L r.path
    | .end => True
  FieldsFit L
    | .record r => ∀ target ∈ r.symlinkTarget, BytesFit L target
    | .end => True
  appends m := by
    cases m with
    | record r => exact Writer.appends_record r
    | «end» => exact Writer.appends_pure
  parses L k := by
    unfold WireMessage.decodeFields instWireMessageIndexMessage
    simp only
    split
    · exact Reader.parses_record.map _ (by rintro (_ | _) <;> simp) fun _ _ => rfl
    · exact parses_unit _ (by rintro (_ | _) <;> simp) rfl
    · refine Parses.fail (fun r => ⟨_, rfl⟩) ?_
      rintro (_ | _) ⟨-, rfl⟩ <;> contradiction
  fieldsFit L m h := by
    cases m with
    | record r => exact targetFits_of_length_le h
    | «end» => trivial

/-- A request names an operation and a path. -/
theorem parses_request {L : CodecLimits} {T : Type} (mk : OperationId → RelativePath → T)
    {format : T → Bytes} {F : T → Prop} (hF : ∀ c, F c ↔ ∃ id p, PathFits L p ∧ c = mk id p)
    (hformat : ∀ id p, format (mk id p) = Format.u64 id.get ++ Format.path p) :
    Parses (Reader.cursor L) (do
      let id ← Reader.operationId
      pure (mk id (← Reader.path)) : ReadM T) format F := by
  refine Reader.parses_operationId.seq (g := fun id c => (format c).drop (Format.u64 id.get).length)
    (fun id _ => Reader.parses_path.map (mk id) (fun _ => Iff.rfl) fun p _ => ?_) (fun c => ?_) ?_
  · rw [hformat, List.drop_left]
  · simp only [hF, true_and]
  · rintro id _ - ⟨p, -, rfl⟩
    rw [hformat, List.drop_left]

instance : WireFormat FileTransfer where
  fields
    | .updateRequest id p | .createRequest id p => Format.u64 id.get ++ Format.path p
    | .signature b | .delta b | .wholeFile b => Format.bytes b
    | .signatureEnd | .transferEnd => []
    | .transferAccepted id => Format.u64 id.get
  Fits L
    | .updateRequest _ p | .createRequest _ p => PathFits L p
    | _ => True
  FieldsFit L
    | .signature b | .delta b | .wholeFile b => BytesFit L b
    | _ => True
  appends m := by
    have hrequest (id : OperationId) (p : RelativePath) :=
      ((Writer.appends_raw (Format.u64 id.get)).bind (Writer.appends_path p)).congr rfl
        (Q := fun L => PathFits L p) (by simp)
    cases m with
    | updateRequest id p => exact hrequest id p
    | createRequest id p => exact hrequest id p
    | wholeFile b => exact Writer.appends_bytes b
    | signature b => exact Writer.appends_bytes b
    | signatureEnd => exact Writer.appends_pure
    | delta b => exact Writer.appends_bytes b
    | transferEnd => exact Writer.appends_pure
    | transferAccepted id => exact Writer.appends_raw _
  parses L k := by
    unfold WireMessage.decodeFields instWireMessageFileTransfer
    simp only
    split
    · exact parses_request _ (by rintro (_ | _ | _ | _ | _ | _ | _ | _) <;> simp) fun _ _ => rfl
    · exact Reader.parses_bytes.map _ (by rintro (_ | _ | _ | _ | _ | _ | _ | _) <;> simp)
        fun _ _ => rfl
    · exact parses_unit _ (by rintro (_ | _ | _ | _ | _ | _ | _ | _) <;> simp) rfl
    · exact Reader.parses_bytes.map _ (by rintro (_ | _ | _ | _ | _ | _ | _ | _) <;> simp)
        fun _ _ => rfl
    · exact parses_unit _ (by rintro (_ | _ | _ | _ | _ | _ | _ | _) <;> simp) rfl
    · exact Reader.parses_operationId.map _ (by rintro (_ | _ | _ | _ | _ | _ | _ | _) <;> simp)
        fun _ _ => rfl
    · exact parses_request _ (by rintro (_ | _ | _ | _ | _ | _ | _ | _) <;> simp) fun _ _ => rfl
    · exact Reader.parses_bytes.map _ (by rintro (_ | _ | _ | _ | _ | _ | _ | _) <;> simp)
        fun _ _ => rfl
    · refine Parses.fail (fun r => ⟨_, rfl⟩) ?_
      rintro (_ | _ | _ | _ | _ | _ | _ | _) ⟨-, rfl⟩ <;> contradiction
  fieldsFit L m h := by
    cases m with
    | wholeFile b => exact bytesFit_of_length_le h
    | signature b => exact bytesFit_of_length_le h
    | delta b => exact bytesFit_of_length_le h
    | updateRequest id p => trivial
    | createRequest id p => trivial
    | signatureEnd => trivial
    | transferEnd => trivial
    | transferAccepted id => trivial

/-! ### Frames -/

section

variable {T : Type} [WireMessage T] [WireFormat T] {L : CodecLimits} {m : T}

/-- The payload of a message: kind, version and fields. -/
def payload (m : T) : Bytes :=
  WireMessage.kind m :: (LittleEndian.bytes versionBytes currentVersion.get.toNat ++
    WireFormat.fields m)

/-- The frame of a message: the payload behind its length. -/
def frame (m : T) : Bytes := Leb128.encode (payload m).length ++ payload m

/-- A message can be sent under the local limits. -/
def Sendable (L : CodecLimits) (m : T) : Prop :=
  WireFormat.Fits L m ∧ (payload m).length ≤ L.maxFrameBytes.toNat

theorem length_payload (m : T) : (payload m).length = 3 + (WireFormat.fields m).length := by
  simp only [payload, versionBytes, List.length_cons, List.length_append,
    LittleEndian.length_bytes]
  omega

theorem Sendable.fieldsFit (h : Sendable L m) : WireFormat.FieldsFit L m := by
  refine WireFormat.fieldsFit L m (le_trans ?_ h.2)
  rw [length_payload]
  exact Nat.le_add_left _ _

theorem Sendable.length_payload_lt (h : Sendable L m) : (payload m).length < wordSize :=
  lt_of_le_of_lt h.2 L.maxFrameBytes.toNat_lt

/-- The encoder writes the frame of exactly the messages that can be sent. -/
theorem encode_eq_ok_iff {w : Slice} : encode m L = .ok w ↔ Sendable L m ∧ w.1 = frame m := by
  have happ := WireFormat.appends m
  have hput {n : ℕ} (hn : n < wordSize) : putVarint (UInt64.ofNat n) [] = Leb128.encode n := by
    rw [putVarint_eq, UInt64.toNat_ofNat', List.nil_append]
    exact congrArg _ (Nat.mod_eq_of_lt hn)
  unfold encode
  simp only [bind_eq_ok_iff, ensure_eq_ok_iff]
  constructor
  · rintro ⟨⟨⟨⟩, out⟩, hwrite, _, hlen, hw⟩
    obtain ⟨hfits, rfl⟩ := (happ _ _ _).1 hwrite
    have hpay : (payload m).length < wordSize := lt_of_le_of_lt hlen L.maxFrameBytes.toNat_lt
    split at hw
    · cases hw
      exact ⟨⟨hfits, hlen⟩, congrArg (· ++ payload m) (hput hpay)⟩
    · cases hw
  · rintro ⟨hsend, hw⟩
    refine ⟨((), ⟨payload m, L⟩), (happ _ _ _).2 ⟨hsend.1, rfl⟩, (), hsend.2, ?_⟩
    have hframe : putVarint (UInt64.ofNat (payload m).length) [] ++ payload m = w.1 := by
      rw [hput hsend.length_payload_lt, hw, frame]
    simp only [hframe, w.2, dite_true]
    rfl

/-- Kind, version and fields, up to the check that nothing is left over. -/
theorem parses_payload : Parses (Reader.cursor L) (do
      let kind ← Reader.u8
      let version : ProtocolVersion := ⟨← Reader.u16⟩
      ensure (version = currentVersion) (.unsupportedVersion version)
      WireMessage.decodeFields kind) (payload (T := T))
    fun m => WireFormat.Fits L m ∧ WireFormat.FieldsFit L m := by
  refine (Reader.parses_u8.bind WireMessage.kind
    (G := fun m : T => WireFormat.Fits L m ∧ WireFormat.FieldsFit L m) fun k _ => ?_).congr
    (by simp) fun _ _ => rfl
  refine (Reader.parses_u16.bind (fun _ : T => currentVersion.get) (G := fun m =>
    (WireFormat.Fits L m ∧ WireFormat.FieldsFit L m) ∧ WireMessage.kind m = k)
    fun v _ => ?_).congr (by simp) fun _ _ => rfl
  refine Parses.lift_bind (fun _ _ => WireFormat.parses L k) fun m => ?_
  simp only [ensure_eq_ok_iff, exists_const]
  constructor
  · rintro ⟨h, rfl⟩
    exact ⟨rfl, h⟩
  · rintro ⟨hv, h⟩
    exact ⟨h, (congrArg ProtocolVersion.get hv).symm⟩

/-- The payload decoder reads exactly the payloads of messages that fit. -/
theorem decodePayload_eq_ok_iff {b : Bytes} (hb : b.length < wordSize) :
    decodePayload b L = .ok m ↔
      (WireFormat.Fits L m ∧ WireFormat.FieldsFit L m) ∧ b = payload m := by
  have hgood : (Reader.cursor L).Good (Reader.new b L) := ⟨Nat.zero_le _, hb, rfl⟩
  have hparse := parses_payload (T := T) _ hgood m
  unfold decodePayload
  simp only [bind_eq_ok_iff, Prod.exists, run_bind_eq_ok_iff] at hparse ⊢
  constructor
  · rintro ⟨_, r, ⟨k, r₁, h₁, v, r₂, h₂, u, r₃, h₃, _, r₄, h₄, _, r₅, hfinish, hpure⟩, hm⟩
    cases hm
    cases hpure
    obtain ⟨hfits, hpre, rfl⟩ := (hparse r₄).1 ⟨k, r₁, h₁, v, r₂, h₂, u, r₃, h₃, h₄⟩
    refine ⟨hfits, (hpre.eq_of_length ?_).symm⟩
    change (if _ then _ else _) = _ at hfinish
    split_ifs at hfinish with hend
    · simpa [Reader.cursor, Reader.new] using hend
    · cases hfinish
  · rintro ⟨hfits, rfl⟩
    obtain ⟨k, r₁, h₁, v, r₂, h₂, u, r₃, h₃, h₄⟩ := (hparse _).2
      ⟨hfits, List.prefix_refl _, rfl⟩
    have hend : Reader.finish.run ((Reader.cursor L).advance (Reader.new (payload m) L)
        (payload m).length) = .ok ((), _) := if_pos (by simp [Reader.cursor, Reader.new])
    exact ⟨m, _, ⟨k, r₁, h₁, v, r₂, h₂, u, r₃, h₃, m, _, h₄, (), _, hend, rfl⟩, rfl⟩

/-- The decoder reads exactly the frames of messages that can be sent. -/
theorem decode_eq_ok_iff {w : Slice} : decode w L = .ok m ↔ Sendable L m ∧ w.1 = frame m := by
  rw [decode_eq_ok_iff_payload]
  constructor
  · rintro ⟨p, hw, hmax, -, hpay⟩
    have hlen : p.length < wordSize := lt_of_le_of_lt hmax L.maxFrameBytes.toNat_lt
    obtain ⟨⟨hfits, -⟩, rfl⟩ := (decodePayload_eq_ok_iff hlen).1 hpay
    exact ⟨⟨hfits, hmax⟩, hw⟩
  · rintro ⟨hsend, hw⟩
    refine ⟨payload m, hw, hsend.2, length_payload m ▸ Nat.le_add_right 3 _, ?_⟩
    rw [decodePayload_eq_ok_iff hsend.length_payload_lt]
    exact ⟨⟨hsend.1, hsend.fieldsFit⟩, rfl⟩

/-- Encoding and decoding are the same relation between messages and frames. -/
theorem decode_eq_ok_iff_encode {w : Slice} : decode w L = .ok m ↔ encode m L = .ok w := by
  rw [decode_eq_ok_iff, encode_eq_ok_iff]

theorem decode_canonical {w : Slice} (h : decode w L = .ok m) :
    encode m L = .ok w ∧ ∀ w', decode w' L = .ok m → w' = w := by
  refine ⟨decode_eq_ok_iff_encode.1 h, fun w' h' => Subtype.ext ?_⟩
  rw [(decode_eq_ok_iff.1 h').2, (decode_eq_ok_iff.1 h).2]

end

/-- **What is encoded decodes to the same message**, on every stream. -/
theorem decode_encode :
    (∀ (L : CodecLimits) (m : Control) (w : Slice), encode m L = .ok w → decode w L = .ok m) ∧
    (∀ (L : CodecLimits) (m : IndexMessage) (w : Slice),
      encode m L = .ok w → decode w L = .ok m) ∧
    (∀ (L : CodecLimits) (m : FileTransfer) (w : Slice),
      encode m L = .ok w → decode w L = .ok m) :=
  ⟨fun _ _ _ => decode_eq_ok_iff_encode.2, fun _ _ _ => decode_eq_ok_iff_encode.2,
    fun _ _ _ => decode_eq_ok_iff_encode.2⟩

/-- A start request under small limits, as in the program's golden vectors. -/
theorem decode_encode_startSync :
    encode (Control.startSync "root") ⟨128, 32, 4, 4⟩ =
      .ok ⟨[8, 3, 1, 0, 4] ++ ascii "root", by decide⟩ ∧
    decode ⟨[8, 3, 1, 0, 4] ++ ascii "root", by decide⟩ ⟨128, 32, 4, 4⟩ =
      .ok (Control.startSync "root") :=
  have h : encode (Control.startSync "root") ⟨128, 32, 4, 4⟩ =
      .ok ⟨[8, 3, 1, 0, 4] ++ ascii "root", by decide⟩ := by decide +kernel
  ⟨h, decode_encode.1 _ _ _ h⟩

/-- **The wire encoding is canonical**, on every stream: what decodes is the encoding of the
message it decodes to, so two byte strings that decode to the same message are the same. -/
theorem encode_decode :
    (∀ (L : CodecLimits) (w : Slice) (m : Control), decode w L = .ok m →
      encode m L = .ok w ∧ ∀ w', decode w' L = .ok m → w' = w) ∧
    (∀ (L : CodecLimits) (w : Slice) (m : IndexMessage), decode w L = .ok m →
      encode m L = .ok w ∧ ∀ w', decode w' L = .ok m → w' = w) ∧
    (∀ (L : CodecLimits) (w : Slice) (m : FileTransfer), decode w L = .ok m →
      encode m L = .ok w ∧ ∀ w', decode w' L = .ok m → w' = w) :=
  ⟨fun _ _ _ => decode_canonical, fun _ _ _ => decode_canonical, fun _ _ _ => decode_canonical⟩

/-- The end of a plan, as in the program's golden vectors. -/
theorem encode_decode_planEnd :
    decode ⟨[3, 11, 1, 0], by decide⟩ ⟨128, 32, 4, 4⟩ = .ok Control.planEnd ∧
    encode Control.planEnd ⟨128, 32, 4, 4⟩ = .ok ⟨[3, 11, 1, 0], by decide⟩ :=
  have h : decode ⟨[3, 11, 1, 0], by decide⟩ ⟨128, 32, 4, 4⟩ = .ok Control.planEnd := by
    decide +kernel
  ⟨h, (encode_decode.1 _ _ _ h).1⟩

end QuicSync
