import QuicSync.Error
import QuicSync.Effect.Fallible

/-!
# Resource limits

The limits of an endpoint's configuration and their validation.  They are enforced locally: no
input of a peer raises them.
-/

namespace QuicSync

namespace Config

def maxFrameBytes : ℕ := 1024 * 1024 * 1024

def maxPathBytes : ℕ := 1024 * 1024

def maxComponents : ℕ := 4096

def maxParallelWork : ℕ := 1024

def maxInflightBytes : ℕ := 16 * 1024 * 1024 * 1024

/-- An error of this module. -/
def invalid (diagnostic : String) : QuicSyncError :=
  QuicSyncError.new .invalidConfiguration none (.text diagnostic)

/-- A limit is positive and at most the maximum for it. -/
def validateLimit (name : String) (value : UInt64) (maximum : ℕ) : Except QuicSyncError Unit :=
  if value = 0 ∨ value.toNat > maximum then
    .error (invalid (name ++ " must be between 1 and " ++ toString maximum))
  else .ok ()

end Config

/-- Locally enforced resource limits. -/
structure Limits where
  maxFrameBytes : UInt64
  maxPathBytes : UInt64
  maxComponents : UInt64
  maxParallelHashes : UInt64
  maxParallelTransfers : UInt64
  maxInflightBytes : UInt64
  deriving DecidableEq

/-- The limits of a configuration that sets none. -/
def defaultLimits : Limits where
  maxFrameBytes := 16 * 1024 * 1024
  maxPathBytes := 16 * 1024
  maxComponents := 256
  maxParallelHashes := 4
  maxParallelTransfers := 4
  maxInflightBytes := 64 * 1024 * 1024

namespace Limits

open Config in
/-- Check limits against the maxima for them and against each other. -/
def validate (limits : Limits) : Except QuicSyncError Limits := do
  validateLimit "max_frame_bytes" limits.maxFrameBytes Config.maxFrameBytes
  validateLimit "max_path_bytes" limits.maxPathBytes Config.maxPathBytes
  validateLimit "max_components" limits.maxComponents Config.maxComponents
  validateLimit "max_parallel_hashes" limits.maxParallelHashes maxParallelWork
  validateLimit "max_parallel_transfers" limits.maxParallelTransfers maxParallelWork
  validateLimit "max_inflight_bytes" limits.maxInflightBytes Config.maxInflightBytes
  if limits.maxPathBytes > limits.maxFrameBytes then
    .error (invalid "max_path_bytes cannot exceed max_frame_bytes")
  else .ok limits

theorem validateLimit_eq_ok_iff {name : String} {value : UInt64} {maximum : ℕ} {u : Unit} :
    Config.validateLimit name value maximum = .ok u ↔ 0 < value.toNat ∧ value.toNat ≤ maximum := by
  have hzero : value = 0 ↔ value.toNat = 0 := by
    rw [← UInt64.toNat_inj]
    rfl
  unfold Config.validateLimit
  simp only [hzero]
  split
  · rename_i h
    refine iff_of_false (fun h' => nomatch h') ?_
    omega
  · rename_i h
    refine iff_of_true rfl ?_
    omega

/-- Validation accepts limits that are positive, within their maxima, and whose paths fit frames,
and does not change them. -/
theorem validate_eq_ok_iff {limits limits' : Limits} :
    limits.validate = .ok limits' ↔ limits' = limits ∧
      (0 < limits.maxFrameBytes.toNat ∧ limits.maxFrameBytes.toNat ≤ Config.maxFrameBytes) ∧
      (0 < limits.maxPathBytes.toNat ∧ limits.maxPathBytes.toNat ≤ Config.maxPathBytes) ∧
      (0 < limits.maxComponents.toNat ∧ limits.maxComponents.toNat ≤ Config.maxComponents) ∧
      (0 < limits.maxParallelHashes.toNat ∧
        limits.maxParallelHashes.toNat ≤ Config.maxParallelWork) ∧
      (0 < limits.maxParallelTransfers.toNat ∧
        limits.maxParallelTransfers.toNat ≤ Config.maxParallelWork) ∧
      (0 < limits.maxInflightBytes.toNat ∧
        limits.maxInflightBytes.toNat ≤ Config.maxInflightBytes) ∧
      limits.maxPathBytes.toNat ≤ limits.maxFrameBytes.toNat := by
  have hlast : (if limits.maxPathBytes > limits.maxFrameBytes then
        (.error (Config.invalid "max_path_bytes cannot exceed max_frame_bytes") :
          Except QuicSyncError Limits)
      else .ok limits) = .ok limits' ↔
      limits.maxPathBytes.toNat ≤ limits.maxFrameBytes.toNat ∧ limits' = limits := by
    split
    · rename_i h
      have hlt := UInt64.lt_iff_toNat_lt.1 h
      exact iff_of_false (fun h' => nomatch h') fun h' => absurd h'.1 (not_le.2 hlt)
    · rename_i h
      have hle := not_lt.1 fun h' => h (UInt64.lt_iff_toNat_lt.2 h')
      exact ⟨fun h' => ⟨hle, (Except.ok.inj h').symm⟩, fun h' => by rw [h'.2]⟩
  unfold validate
  simp only [bind_eq_ok_iff, hlast, validateLimit_eq_ok_iff, exists_and_left, exists_const]
  tauto

end Limits

end QuicSync
