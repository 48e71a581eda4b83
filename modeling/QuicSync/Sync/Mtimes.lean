import QuicSync.Filesystem.Scan
import QuicSync.Sync.Commit

/-!
# Modification times

A scan reports a modification time as a number of nanoseconds, and the commit stage turns it into
the seconds and the nanoseconds of a call: for files and directories by its magnitude and a
distance from the epoch (`modifiedTime`), for links by division (`symlinkTime`).

`mtimes_agree` says that the two are the same, and that a scan reports the time again.
-/

namespace QuicSync

open Posix

/-- The seconds of a modification time fit a 64-bit integer. -/
def I128.InRange (mtime : I128) : Prop :=
  -2 ^ 63 ≤ mtime.val / nanosPerSecond ∧ mtime.val / nanosPerSecond < 2 ^ 63

instance (mtime : I128) : Decidable mtime.InRange := inferInstanceAs (Decidable (_ ∧ _))

/-- The whole seconds before a modification time, and the nanoseconds behind them. -/
def timeOf (mtime : I128) : SystemTime :=
  ⟨mtime.val / nanosPerSecond, (mtime.val % nanosPerSecond).toNat⟩

/-- The nanoseconds of a time that the file system reports; the product and the sum are those of
128-bit integers. -/
def SystemTime.mtimeNs (t : SystemTime) : I128 :=
  I128.ofInt ((I128.ofInt (t.seconds * nanosPerSecond)).val + t.nanos)

/-! ### Distances from the epoch -/

/-- Before the epoch a part of a second borrows a whole one. -/
theorem epochCheckedSub_eq_some_iff {mtime : I128} {t : SystemTime} (hneg : mtime.val < 0) :
    SystemTime.epochCheckedSub (mtime.val.natAbs / nanosPerSecond)
        (mtime.val.natAbs % nanosPerSecond) = some t ↔
      mtime.InRange ∧ t = timeOf mtime := by
  have hhigh : mtime.val / nanosPerSecond < 2 ^ 63 := by
    simp only [nanosPerSecond]
    omega
  have hrange : mtime.InRange ↔ -2 ^ 63 ≤ mtime.val / nanosPerSecond := and_iff_left hhigh
  unfold SystemTime.epochCheckedSub timeOf
  rw [hrange]
  by_cases hwhole : mtime.val.natAbs % nanosPerSecond = 0
  · have hseconds : mtime.val / nanosPerSecond =
        -((mtime.val.natAbs / nanosPerSecond : ℕ) : ℤ) := by
      simp only [nanosPerSecond] at hwhole ⊢
      omega
    have hnanos : (mtime.val % nanosPerSecond).toNat = 0 := by
      simp only [nanosPerSecond] at hwhole ⊢
      omega
    rw [if_pos hwhole, hseconds, hnanos]
    split
    · rw [Option.some_inj, eq_comm]
      exact (and_iff_right (by omega)).symm
    · exact iff_of_false (by simp) fun h => by omega
  · have hseconds : mtime.val / nanosPerSecond =
        -((mtime.val.natAbs / nanosPerSecond : ℕ) : ℤ) - 1 := by
      simp only [nanosPerSecond] at hwhole ⊢
      omega
    have hnanos : (mtime.val % nanosPerSecond).toNat =
        nanosPerSecond - mtime.val.natAbs % nanosPerSecond := by
      simp only [nanosPerSecond] at hwhole ⊢
      omega
    rw [if_neg hwhole, hseconds, hnanos]
    by_cases hlt : mtime.val.natAbs / nanosPerSecond < 2 ^ 63
    · rw [if_pos hlt.le, if_pos hlt, Option.some_inj, eq_comm]
      exact (and_iff_right (by omega)).symm
    · rw [if_neg hlt, ite_self]
      exact iff_of_false (by simp) fun h => by omega

theorem epochCheckedAdd_eq_some_iff {mtime : I128} {t : SystemTime} (hneg : ¬ mtime.val < 0) :
    SystemTime.epochCheckedAdd (mtime.val.natAbs / nanosPerSecond)
        (mtime.val.natAbs % nanosPerSecond) = some t ↔
      mtime.InRange ∧ t = timeOf mtime := by
  have hseconds : mtime.val / nanosPerSecond =
      ((mtime.val.natAbs / nanosPerSecond : ℕ) : ℤ) := by
    simp only [nanosPerSecond]
    omega
  have hnanos : (mtime.val % nanosPerSecond).toNat = mtime.val.natAbs % nanosPerSecond := by
    simp only [nanosPerSecond]
    omega
  have hnonneg : (0 : ℤ) ≤ ((mtime.val.natAbs / nanosPerSecond : ℕ) : ℤ) := Int.natCast_nonneg _
  unfold SystemTime.epochCheckedAdd I128.InRange timeOf
  rw [hseconds, hnanos]
  split
  · rw [Option.some_inj, eq_comm]
    exact (and_iff_right (by omega)).symm
  · exact iff_of_false (by simp) fun h => by omega

/-! ### The two conversions -/

/-- The conversion for files and directories. -/
theorem modifiedTime_eq_ok_iff {mtime : I128} {t : SystemTime} :
    modifiedTime mtime = .ok t ↔ mtime.InRange ∧ t = timeOf mtime := by
  have hmodified : (if mtime.val < 0 then
        SystemTime.epochCheckedSub (mtime.val.natAbs / nanosPerSecond)
          (mtime.val.natAbs % nanosPerSecond)
      else SystemTime.epochCheckedAdd (mtime.val.natAbs / nanosPerSecond)
        (mtime.val.natAbs % nanosPerSecond)) = some t ↔ mtime.InRange ∧ t = timeOf mtime := by
    split
    · rename_i hneg
      exact epochCheckedSub_eq_some_iff hneg
    · rename_i hneg
      exact epochCheckedAdd_eq_some_iff hneg
  unfold modifiedTime
  dsimp only
  split
  · rw [← hmodified]
    split
    · rename_i t' ht
      rw [ht, Except.ok.injEq, Option.some_inj]
    · rename_i hnone
      rw [hnone]
      simp
  · rename_i hword
    refine iff_of_false (by simp) fun ⟨hrange, _⟩ => hword ?_
    unfold I128.InRange at hrange
    simp only [nanosPerSecond] at hrange ⊢
    omega

/-- The conversion for links. -/
theorem symlinkTime_eq_ok_iff {mtime : I128} {t : SystemTime} :
    symlinkTime mtime = .ok t ↔ mtime.InRange ∧ t = timeOf mtime := by
  unfold symlinkTime
  dsimp only
  split
  · rename_i hrange
    rw [Except.ok.injEq, eq_comm]
    exact (and_iff_right hrange).symm
  · rename_i hrange
    exact iff_of_false (by simp) fun h => hrange h.1

theorem timeOf_toNanos (mtime : I128) : (timeOf mtime).toNanos = mtime.val := by
  obtain ⟨v, hv⟩ := mtime
  simp only [SystemTime.toNanos, timeOf, nanosPerSecond]
  omega

theorem modifiedTime_inRange {mtime : I128} (h : mtime.InRange) :
    ∃ t, modifiedTime mtime = .ok t ∧ t.toNanos = mtime.val :=
  ⟨_, modifiedTime_eq_ok_iff.2 ⟨h, rfl⟩, timeOf_toNanos mtime⟩

theorem symlinkTime_inRange {mtime : I128} (h : mtime.InRange) :
    ∃ t, symlinkTime mtime = .ok t ∧ t.toNanos = mtime.val :=
  ⟨_, symlinkTime_eq_ok_iff.2 ⟨h, rfl⟩, timeOf_toNanos mtime⟩

/-! ### What a scan reports -/

/-- An integer in range does not wrap around. -/
theorem I128.ofInt_val {x : ℤ} (h : -2 ^ 127 ≤ x ∧ x < 2 ^ 127) : (I128.ofInt x).val = x :=
  Int.bmod_eq_of_le (by omega) (by omega)

theorem I128.ofInt_of_val (x : I128) : I128.ofInt x.val = x := I128.ext (I128.ofInt_val x.range)

/-- The seconds and the nanoseconds of a modification time give it again. -/
theorem timeOf_mtimeNs {mtime : I128} (h : mtime.InRange) : (timeOf mtime).mtimeNs = mtime := by
  have hproduct : (I128.ofInt ((timeOf mtime).seconds * nanosPerSecond)).val =
      (timeOf mtime).seconds * nanosPerSecond := by
    obtain ⟨h₁, h₂⟩ := h
    refine I128.ofInt_val ?_
    simp only [timeOf, nanosPerSecond] at h₁ h₂ ⊢
    omega
  unfold SystemTime.mtimeNs
  rw [hproduct]
  exact (congrArg I128.ofInt (timeOf_toNanos mtime)).trans (I128.ofInt_of_val mtime)

/-- **Modification times survive installation.**  The two conversions succeed on the same times,
those whose whole seconds fit 64 bits, with the same seconds and nanoseconds; and a scan reports
the time that they stand for. -/
theorem mtimes_agree (mtime : I128) :
    ((∃ t, modifiedTime mtime = .ok t) ↔ mtime.InRange) ∧
    ((∃ t, symlinkTime mtime = .ok t) ↔ mtime.InRange) ∧
    ∀ t, modifiedTime mtime = .ok t ∨ symlinkTime mtime = .ok t →
      modifiedTime mtime = .ok t ∧ symlinkTime mtime = .ok t ∧
      (-2 ^ 63 ≤ t.seconds ∧ t.seconds < 2 ^ 63) ∧ t.nanos < 1000000000 ∧ t.mtimeNs = mtime ∧
      ∀ i : Inode, i.mtime = t.toNanos → mtimeNs i = mtime := by
  refine ⟨by simp [modifiedTime_eq_ok_iff], by simp [symlinkTime_eq_ok_iff], fun t ht => ?_⟩
  rw [modifiedTime_eq_ok_iff, symlinkTime_eq_ok_iff, or_self] at ht
  obtain ⟨hrange, rfl⟩ := ht
  refine ⟨modifiedTime_eq_ok_iff.2 ⟨hrange, rfl⟩, symlinkTime_eq_ok_iff.2 ⟨hrange, rfl⟩, hrange, ?_,
    timeOf_mtimeNs hrange, fun i hi => ?_⟩
  · simp only [timeOf, nanosPerSecond]
    omega
  · unfold mtimeNs
    rw [hi, timeOf_toNanos, I128.ofInt_of_val]

/-- A nanosecond before the epoch. -/
theorem mtimes_agree_before_epoch :
    modifiedTime ⟨-1, by decide⟩ = .ok ⟨-1, 999999999⟩ ∧
      symlinkTime ⟨-1, by decide⟩ = .ok ⟨-1, 999999999⟩ ∧
      SystemTime.mtimeNs ⟨-1, 999999999⟩ = ⟨-1, by decide⟩ := by
  have hlink : symlinkTime ⟨-1, by decide⟩ = .ok ⟨-1, 999999999⟩ := by rfl
  obtain ⟨hfile, -, -, -, hscan, -⟩ := (mtimes_agree ⟨-1, by decide⟩).2.2 _ (Or.inr hlink)
  exact ⟨hfile, hlink, hscan⟩

end QuicSync
