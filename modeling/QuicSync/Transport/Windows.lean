import Mathlib.Algebra.Group.Action.Defs
import Mathlib.Algebra.Order.BigOperators.Group.Finset
import Mathlib.Data.Fintype.Card
import Mathlib.Data.UInt
import QuicSync.Transport.Bounds

/-!
# Flow control

The bounds of an endpoint as the stream and flow-control limits of its connections.  A stream may
hold as many unread bytes as its receive window, and all streams together as many as that of the
connection; the control stream shares the latter with the transfers.

`transfers_leave_credit_iff` says for which limits saturated transfers leave something to the
control stream.  A window has room for a frame even where the share of a stream is smaller, so it
is not for all of them.
-/

namespace QuicSync

open scoped BigOperators

/-- The largest number that the transport's integers can hold. -/
def varIntMax : UInt64 := 2 ^ 62 - 1

/-- A number as one of the transport's integers. -/
def varint (value : UInt64) : UInt64 := if value ≤ varIntMax then value else varIntMax

/-- The settings of a connection that come from the bounds. -/
structure TransportConfig where
  maxConcurrentBidiStreams : UInt64
  maxConcurrentUniStreams : UInt64
  receiveWindow : UInt64
  streamReceiveWindow : UInt64
  sendWindow : UInt64
  deriving DecidableEq

/-- The bounds as stream and flow-control limits. -/
def TransportBounds.tuning (bounds : TransportBounds) : TransportConfig :=
  let transfers := bounds.maxParallelTransfers
  let inflight := bounds.maxInflightBytes
  let perStream := max (inflight / (transfers + 1)) bounds.maxFrameBytes
  { maxConcurrentBidiStreams := varint (transfers + 1)
    maxConcurrentUniStreams := varint 1
    receiveWindow := varint inflight
    streamReceiveWindow := varint perStream
    sendWindow := inflight }

/-- Saturated transfers leave something of the connection's window: with as many streams as may be
open, whatever each holds within its own window. -/
def TransportConfig.LeavesCredit (config : TransportConfig) (transfers : ℕ) : Prop :=
  ∀ unread : Fin transfers → ℕ, (∀ i, unread i ≤ config.streamReceiveWindow.toNat) →
    ∑ i, unread i < config.receiveWindow.toNat

theorem TransportConfig.leavesCredit_iff {config : TransportConfig} {transfers : ℕ} :
    config.LeavesCredit transfers ↔
      transfers * config.streamReceiveWindow.toNat < config.receiveWindow.toNat := by
  constructor
  · intro h
    -- the worst case is that each stream holds its whole window
    have hfull := h (fun _ => config.streamReceiveWindow.toNat) fun _ => le_refl _
    rwa [Finset.sum_const, Finset.card_univ, Fintype.card_fin, smul_eq_mul] at hfull
  · intro h unread hunread
    calc ∑ i, unread i
        ≤ ∑ _i : Fin transfers, config.streamReceiveWindow.toNat :=
          Finset.sum_le_sum fun i _ => hunread i
      _ = transfers * config.streamReceiveWindow.toNat := by
          rw [Finset.sum_const, Finset.card_univ, Fintype.card_fin, smul_eq_mul]
      _ < config.receiveWindow.toNat := h

theorem toNat_varint {value : UInt64} (h : value.toNat < 2 ^ 62) :
    (varint value).toNat = value.toNat := by
  have hle : value ≤ varIntMax := by
    rw [UInt64.le_iff_toNat_le]
    have hmax : varIntMax.toNat = 2 ^ 62 - 1 := by decide +kernel
    omega
  rw [varint, if_pos hle]

/-- An equal share of a window for each transfer and one more stream leaves something of it. -/
theorem mul_share_lt {transfers inflight : ℕ} (h : 0 < inflight) :
    transfers * (inflight / (transfers + 1)) < inflight := by
  have hshare := Nat.mul_div_le inflight (transfers + 1)
  by_cases hzero : inflight / (transfers + 1) = 0
  · rwa [hzero, Nat.mul_zero]
  · have hpos := Nat.pos_of_ne_zero hzero
    rw [Nat.add_mul, Nat.one_mul] at hshare
    omega

section

variable {limits limits' : Limits}

/-- The windows that validated limits give. -/
theorem tuning_windows (hvalid : limits.validate = .ok limits') :
    (TransportBounds.fromLimits limits).tuning.receiveWindow.toNat =
        limits.maxInflightBytes.toNat ∧
      (TransportBounds.fromLimits limits).tuning.streamReceiveWindow.toNat =
        max (limits.maxInflightBytes.toNat / (limits.maxParallelTransfers.toNat + 1))
          limits.maxFrameBytes.toNat := by
  obtain ⟨-, ⟨-, hframe⟩, -, -, -, ⟨-, htransfers⟩, ⟨-, hinflight⟩, -⟩ :=
    Limits.validate_eq_ok_iff.1 hvalid
  simp only [Config.maxFrameBytes, Config.maxParallelWork, Config.maxInflightBytes] at *
  have hsucc : (limits.maxParallelTransfers + 1).toNat = limits.maxParallelTransfers.toNat + 1 := by
    rw [UInt64.toNat_add]
    exact Nat.mod_eq_of_lt (show limits.maxParallelTransfers.toNat + 1 < 2 ^ 64 by omega)
  have hshare : (limits.maxInflightBytes / (limits.maxParallelTransfers + 1)).toNat =
      limits.maxInflightBytes.toNat / (limits.maxParallelTransfers.toNat + 1) := by
    rw [UInt64.toNat_div, hsucc]
  have hmax (a b : UInt64) : (max a b).toNat = max a.toNat b.toNat := by
    show (if a ≤ b then b else a).toNat = _
    split
    · rename_i hab
      rw [max_eq_right (UInt64.le_iff_toNat_le.1 hab)]
    · rename_i hab
      rw [max_eq_left (le_of_lt (not_le.1 fun h => hab (UInt64.le_iff_toNat_le.2 h)))]
  have hdiv := Nat.div_le_self limits.maxInflightBytes.toNat
    (limits.maxParallelTransfers.toNat + 1)
  refine ⟨toNat_varint (show limits.maxInflightBytes.toNat < 2 ^ 62 by omega), ?_⟩
  show (varint (max (limits.maxInflightBytes / (limits.maxParallelTransfers + 1))
    limits.maxFrameBytes)).toNat = _
  rw [toNat_varint, hmax, hshare]
  rw [hmax, hshare]
  omega

/-- **Saturated transfers leave credit to the control stream** if and only if as many frames of the
largest size as there are transfers do not fill the connection's window.  The share of the window
that a stream gets is otherwise raised to the size of a frame. -/
theorem transfers_leave_credit_iff (limits limits' : Limits)
    (hvalid : limits.validate = .ok limits') :
    ((TransportBounds.fromLimits limits).tuning.LeavesCredit limits.maxParallelTransfers.toNat ↔
      limits.maxParallelTransfers.toNat * limits.maxFrameBytes.toNat <
        limits.maxInflightBytes.toNat) ∧
    (limits.maxParallelTransfers.toNat *
        (TransportBounds.fromLimits limits).tuning.streamReceiveWindow.toNat <
        (TransportBounds.fromLimits limits).tuning.receiveWindow.toNat ↔
      limits.maxParallelTransfers.toNat * limits.maxFrameBytes.toNat <
        limits.maxInflightBytes.toNat) := by
  obtain ⟨hreceive, hstream⟩ := tuning_windows hvalid
  obtain ⟨-, -, -, -, -, -, ⟨hinflight, -⟩, -⟩ := Limits.validate_eq_ok_iff.1 hvalid
  have hiff : limits.maxParallelTransfers.toNat *
        (TransportBounds.fromLimits limits).tuning.streamReceiveWindow.toNat <
        (TransportBounds.fromLimits limits).tuning.receiveWindow.toNat ↔
      limits.maxParallelTransfers.toNat * limits.maxFrameBytes.toNat <
        limits.maxInflightBytes.toNat := by
    rw [hreceive, hstream, ← Nat.mul_max_mul_left, max_lt_iff]
    exact and_iff_right (mul_share_lt hinflight)
  exact ⟨TransportConfig.leavesCredit_iff.trans hiff, hiff⟩

end

/-- With frames of half the size, the default limits leave credit to the control stream. -/
theorem transfers_leave_credit_small_frames :
    Limits.validate { defaultLimits with maxFrameBytes := 8 * 1024 * 1024 } =
        .ok { defaultLimits with maxFrameBytes := 8 * 1024 * 1024 } ∧
      (TransportBounds.fromLimits { defaultLimits with
        maxFrameBytes := 8 * 1024 * 1024 }).tuning.LeavesCredit 4 := by
  have hvalid : Limits.validate { defaultLimits with maxFrameBytes := 8 * 1024 * 1024 } =
      .ok { defaultLimits with maxFrameBytes := 8 * 1024 * 1024 } := by decide +kernel
  exact ⟨hvalid, (transfers_leave_credit_iff _ _ hvalid).1.2 (by decide +kernel)⟩

/-- Under the default limits four transfers fill the connection's window. -/
theorem default_transfers_take_all :
    ¬ ∀ limits limits' : Limits, limits.validate = .ok limits' →
      limits.maxParallelTransfers.toNat *
          (TransportBounds.fromLimits limits).tuning.streamReceiveWindow.toNat <
        (TransportBounds.fromLimits limits).tuning.receiveWindow.toNat := by
  intro h
  have hlt := h defaultLimits defaultLimits (by decide +kernel)
  exact absurd hlt (by decide +kernel)

end QuicSync
