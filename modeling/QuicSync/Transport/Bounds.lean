import QuicSync.Config
import QuicSync.Protocol.RoundTrip

/-!
# Transport bounds

The transport sends a frame only within its own bounds, which come from the same limits as those of
the codec.  The codec compares the payload of a message with the limit for frames, the transport
compares the whole frame: `send_accepts_iff` says for which messages the two agree.
-/

namespace QuicSync

/-- The codec's limits for an endpoint's limits. -/
def CodecLimits.ofLimits (limits : Limits) : CodecLimits where
  maxFrameBytes := limits.maxFrameBytes
  maxPathBytes := limits.maxPathBytes
  maxComponents := limits.maxComponents
  maxCollectionItems := limits.maxComponents

/-- Locally enforced transport bounds. -/
structure TransportBounds where
  maxFrameBytes : UInt64
  maxParallelTransfers : UInt64
  maxInflightBytes : UInt64
  deriving DecidableEq

def TransportBounds.fromLimits (limits : Limits) : TransportBounds where
  maxFrameBytes := limits.maxFrameBytes
  maxParallelTransfers := limits.maxParallelTransfers
  maxInflightBytes := limits.maxInflightBytes

/-- Send a chunk on a stream, whose `write` may fail with the connection. -/
def sendBounded (bounds : TransportBounds) (write : Bytes → Except QuicSyncError Unit)
    (chunk : Bytes) : Except QuicSyncError Unit :=
  if chunk.length > bounds.maxFrameBytes.toNat then
    .error (QuicSyncError.new .resourceLimitExceeded none (.text (toString chunk.length ++
      " bytes exceed the local frame limit of " ++ toString bounds.maxFrameBytes.toNat)))
  else write chunk

/-- The transport does not refuse the chunk: sending it is writing it. -/
def TransportBounds.Accepts (bounds : TransportBounds) (chunk : Bytes) : Prop :=
  ∀ write, sendBounded bounds write chunk = write chunk

theorem TransportBounds.accepts_iff {bounds : TransportBounds} {chunk : Bytes} :
    bounds.Accepts chunk ↔ chunk.length ≤ bounds.maxFrameBytes.toNat := by
  unfold Accepts sendBounded
  constructor
  · intro h
    by_contra hlt
    have hok := h fun _ => .ok ()
    rw [if_pos (not_le.1 hlt)] at hok
    cases hok
  · intro h write
    rw [if_neg (not_lt.2 h)]

/-- The number of bytes of the length in front of a payload of `n` bytes, for the payloads within
the largest limit that a configuration may set. -/
def prefixBytes (n : ℕ) : ℕ :=
  if n < 2 ^ 7 then 1
  else if n < 2 ^ 14 then 2
  else if n < 2 ^ 21 then 3
  else if n < 2 ^ 28 then 4
  else 5

/-- The length in front of the payload does not fit behind the limit: the payload is within it, but
ends in the last bytes before it. -/
def Crowded (maxFrameBytes : ℕ) (payloadBytes : ℕ) : Prop :=
  payloadBytes ≤ maxFrameBytes ∧ maxFrameBytes < payloadBytes + prefixBytes payloadBytes

instance (m n : ℕ) : Decidable (Crowded m n) := inferInstanceAs (Decidable (_ ∧ _))

theorem length_encode_eq_prefixBytes {n : ℕ} (h : n < 2 ^ 35) :
    (Leb128.encode n).length = prefixBytes n := by
  have hsmall {k : ℕ} (hk : k < 128) : (Leb128.encode k).length = 1 := by
    rw [Leb128.encode_of_lt hk]
    rfl
  have hnext {k : ℕ} (hk : 128 ≤ k) :
      (Leb128.encode k).length = (Leb128.encode (k / 128)).length + 1 := by
    rw [Leb128.encode_of_le hk]
    rfl
  unfold prefixBytes
  split_ifs with h₁ h₂ h₃ h₄
  · exact hsmall h₁
  · rw [hnext (by omega), hsmall (by omega)]
  · rw [hnext (by omega), hnext (by omega), hsmall (by omega)]
  · rw [hnext (by omega), hnext (by omega), hnext (by omega), hsmall (by omega)]
  · rw [hnext (by omega), hnext (by omega), hnext (by omega), hnext (by omega),
      hsmall (by omega)]

section

variable {T : Type} [WireMessage T] [WireFormat T] {limits limits' : Limits}

/-- A frame fits the transport's bounds if and only if the message's payload is not crowded. -/
theorem accepts_encode_iff (hvalid : limits.validate = .ok limits') (m : T) :
    (∀ frame, encode m (CodecLimits.ofLimits limits) = .ok frame →
        (TransportBounds.fromLimits limits).Accepts frame.1) ↔
      ¬ (WireFormat.Fits (CodecLimits.ofLimits limits) m ∧
        Crowded limits.maxFrameBytes.toNat (payload m).length) := by
  obtain ⟨-, ⟨-, hmax⟩, -⟩ := Limits.validate_eq_ok_iff.1 hvalid
  have hmax' : limits.maxFrameBytes.toNat ≤ 2 ^ 30 := hmax
  have hlength (hle : (payload m).length ≤ limits.maxFrameBytes.toNat) :
      (frame m).length = (payload m).length + prefixBytes (payload m).length := by
    unfold frame
    rw [List.length_append, length_encode_eq_prefixBytes (by omega), Nat.add_comm]
  have hfive : prefixBytes (payload m).length ≤ 5 := by
    unfold prefixBytes
    split_ifs <;> omega
  constructor
  · rintro h ⟨hfits, hle, hlt⟩
    have hsize := hlength hle
    have hslice : (frame m).length ≤ isizeMax := by
      rw [hsize]
      unfold isizeMax
      omega
    have hsend := h ⟨frame m, hslice⟩ (encode_eq_ok_iff.2 ⟨⟨hfits, hle⟩, rfl⟩)
    rw [TransportBounds.accepts_iff] at hsend
    have hsend' : (frame m).length ≤ limits.maxFrameBytes.toNat := hsend
    omega
  · intro h w hw
    obtain ⟨⟨hfits, hle⟩, hframe⟩ := encode_eq_ok_iff.1 hw
    have hle' : (payload m).length ≤ limits.maxFrameBytes.toNat := hle
    rw [TransportBounds.accepts_iff, hframe, hlength hle']
    by_contra hlt
    exact h ⟨hfits, hle', not_le.1 hlt⟩

end

/-- **The transport sends what the codec encodes** if and only if the payload does not crowd the
limit: the codec leaves no room for the length in front of it. -/
theorem send_accepts_iff (limits limits' : Limits) (hvalid : limits.validate = .ok limits') :
    (∀ m : Control, (∀ frame, encode m (CodecLimits.ofLimits limits) = .ok frame →
        (TransportBounds.fromLimits limits).Accepts frame.1) ↔
      ¬ (WireFormat.Fits (CodecLimits.ofLimits limits) m ∧
        Crowded limits.maxFrameBytes.toNat (payload m).length)) ∧
    (∀ m : IndexMessage, (∀ frame, encode m (CodecLimits.ofLimits limits) = .ok frame →
        (TransportBounds.fromLimits limits).Accepts frame.1) ↔
      ¬ (WireFormat.Fits (CodecLimits.ofLimits limits) m ∧
        Crowded limits.maxFrameBytes.toNat (payload m).length)) ∧
    (∀ m : FileTransfer, (∀ frame, encode m (CodecLimits.ofLimits limits) = .ok frame →
        (TransportBounds.fromLimits limits).Accepts frame.1) ↔
      ¬ (WireFormat.Fits (CodecLimits.ofLimits limits) m ∧
        Crowded limits.maxFrameBytes.toNat (payload m).length)) :=
  ⟨accepts_encode_iff hvalid, accepts_encode_iff hvalid, accepts_encode_iff hvalid⟩

/-- The smallest limits under which the end of a plan is encoded. -/
def tightLimits : Limits := ⟨3, 1, 1, 1, 1, 1⟩

/-- Under limits that are one byte wider, the end of a plan is sent. -/
theorem send_accepts_planEnd :
    Limits.validate { tightLimits with maxFrameBytes := 4 } =
        .ok { tightLimits with maxFrameBytes := 4 } ∧
      ∀ frame, encode Control.planEnd
        (CodecLimits.ofLimits { tightLimits with maxFrameBytes := 4 }) = .ok frame →
        (TransportBounds.fromLimits { tightLimits with maxFrameBytes := 4 }).Accepts frame.1 := by
  have hvalid : Limits.validate { tightLimits with maxFrameBytes := 4 } =
      .ok { tightLimits with maxFrameBytes := 4 } := by decide +kernel
  have hroom : ¬ Crowded 4 (payload Control.planEnd).length := by decide +kernel
  exact ⟨hvalid, ((send_accepts_iff _ _ hvalid).1 _).2 fun h => hroom h.2⟩

/-- Under the smallest limits the end of a plan is encoded, and refused by the transport. -/
theorem send_refuses_planEnd :
    ¬ ∀ (limits limits' : Limits) (m : Control) (frame : Slice), limits.validate = .ok limits' →
      encode m (CodecLimits.ofLimits limits) = .ok frame →
      (TransportBounds.fromLimits limits).Accepts frame.1 ∧
        frame.1.length ≤ limits.maxFrameBytes.toNat := by
  intro h
  have hencode : encode Control.planEnd (CodecLimits.ofLimits tightLimits) =
      .ok ⟨[3, 11, 1, 0], by decide⟩ := by decide +kernel
  have hle := (h tightLimits tightLimits _ _ (by decide +kernel) hencode).2
  exact absurd hle (by decide)

end QuicSync
