import QuicSync.Filesystem.Scan
import QuicSync.Filesystem.Scopes
import QuicSync.Protocol.Format
import QuicSync.Transport.Bounds

/-!
# The gates for paths

A path enters the program where a scan extends a directory's path by an entry, where raw bytes
are decoded, and where the codec reads one from a payload; it leaves where the codec writes one.
Each of these checks the path against the limits in its own way: the scan adds up the components
and the separators between them, saturating; the lexical gate measures the bytes it is given; the
codec counts the components alone, the writer in advance and the reader against what is left of
the budget.

* `decodeRelativePath` : the lexical gate;
* `path_gates_agree` : the scan and the lexical gate pass the same paths, and the codec carries
  each of them.
-/

namespace QuicSync

namespace Paths

/-- An error of this module. -/
def limitExceeded (diagnostic : String) : QuicSyncError :=
  QuicSyncError.new .resourceLimitExceeded none (.text diagnostic)

end Paths

/-- Validate raw wire bytes as a root-relative path within the limits. -/
def decodeRelativePath (wire : Slice) (limits : Limits) : Except QuicSyncError RelativePath :=
  if wire.1.length > limits.maxPathBytes.toNat then
    .error (Paths.limitExceeded ("path of " ++ toString wire.1.length ++ " bytes exceeds the " ++
      toString limits.maxPathBytes.toNat ++ "-byte limit"))
  else
    let components := wire.1.splitOn slash
    if components.length > limits.maxComponents.toNat then
      .error (Paths.limitExceeded ("path of " ++ toString components.length ++
        " components exceeds the " ++ toString limits.maxComponents.toNat ++ "-component limit"))
    else do
      -- an absolute path, a trailing separator and a doubled one surface as an empty component
      let path ← (RelativePath.new components).mapError fun error =>
        QuicSyncError.new .invalidPath none (.text ("invalid path: " ++ error.message))
      rejectProtected path
      pure path

/-! ### What each gate passes -/

/-- The lexical gate passes the unprotected paths within the limits. -/
theorem decodeRelativePath_eq_ok_iff {wire : Slice} {limits : Limits} {path : RelativePath} :
    decodeRelativePath wire limits = .ok path ↔
      wire.1.length ≤ limits.maxPathBytes.toNat ∧ path.components = wire.1.splitOn slash ∧
        path.components.length ≤ limits.maxComponents.toNat ∧ Unprotected path := by
  simp only [decodeRelativePath]
  constructor
  · intro h
    split at h
    · cases h
    · rename_i hbytes
      split at h
      · cases h
      · rename_i hcount
        simp only [bind_eq_ok_iff, Reader.mapError_eq_ok_iff, RelativePath.new_eq_ok_iff,
          rejectProtected_eq_ok_iff] at h
        obtain ⟨p, hp, -, hprot, hpath⟩ := h
        cases hpath
        rw [← hp] at hcount
        exact ⟨not_lt.1 hbytes, hp, not_lt.1 hcount, hprot⟩
  · rintro ⟨hbytes, hpath, hcount, hprot⟩
    rw [if_neg (not_lt.2 hbytes), ← hpath, if_neg (not_lt.2 hcount)]
    simp only [bind_eq_ok_iff, Reader.mapError_eq_ok_iff, RelativePath.new_eq_ok_iff,
      rejectProtected_eq_ok_iff]
    exact ⟨path, rfl, (), hprot, rfl⟩

/-- The length of the text of a path counts the separators. -/
theorem length_componentsToPath (cs : List Bytes) :
    (componentsToPath cs).length = (cs.map List.length).sum + (cs.length - 1) := by
  induction cs with
  | nil => rfl
  | cons a cs ih =>
    rcases cs with _ | ⟨b, cs⟩
    · simp [componentsToPath]
    · rw [componentsToPath_cons_cons, List.length_append, List.length_cons, ih]
      simp only [List.map_cons, List.sum_cons, List.length_cons]
      omega

/-- What is within the limits with the separators fits the codec, which does not count them. -/
theorem pathFits_of_length {limits : Limits} {path : RelativePath}
    (hcount : path.components.length ≤ limits.maxComponents.toNat)
    (hbytes : (componentsToPath path.components).length ≤ limits.maxPathBytes.toNat) :
    Format.PathFits (CodecLimits.ofLimits limits) path := by
  refine ⟨hcount, ?_⟩
  rw [length_componentsToPath] at hbytes
  exact le_trans (Nat.le_add_right _ _) hbytes

/-! ### The gates agree -/

/-- The codec carries a path that the lexical gate passes. -/
theorem path_carried {wire : Slice} {limits : Limits} {path : RelativePath}
    (hwire : wire.1 = componentsToPath path.components)
    (hdecode : decodeRelativePath wire limits = .ok path) (w : Writer)
    (hlimits : w.limits = CodecLimits.ofLimits limits) :
    ∃ b, (Writer.path path).run w = .ok ((), w.append b) ∧
      ∀ (payload : Slice) (before behind : Bytes), payload.1 = before ++ b ++ behind →
        Reader.path.run ⟨payload.1, before.length, CodecLimits.ofLimits limits⟩ =
          .ok (path, ⟨payload.1, before.length + b.length, CodecLimits.ofLimits limits⟩) := by
  obtain ⟨hbytes, -, hcount, -⟩ := decodeRelativePath_eq_ok_iff.1 hdecode
  rw [hwire] at hbytes
  have hfits := pathFits_of_length hcount hbytes
  refine ⟨Format.path path, (Writer.appends_path path w () _).2 ⟨hlimits ▸ hfits, rfl⟩, ?_⟩
  intro payload before behind hpayload
  have hgood : (Reader.cursor (CodecLimits.ofLimits limits)).Good
      ⟨payload.1, before.length, CodecLimits.ofLimits limits⟩ := by
    refine ⟨?_, lt_of_le_of_lt payload.2 (by decide), rfl⟩
    simp [hpayload]
  refine (Reader.parses_path _ hgood path _).2 ⟨hfits, ?_, rfl⟩
  change Format.path path <+: payload.1.drop before.length
  rw [hpayload, List.append_assoc, List.drop_left]
  exact List.prefix_append _ _

/-- **The gates for paths agree**: a list of components is that of a path the scan arrives at by
extending a directory's path, and no component is protected, if and only if the lexical gate
passes the components joined by separators as that path; and a path that is passed is accepted by
the writer, and read back unchanged wherever its bytes stand in a payload. -/
theorem path_gates_agree (limits : Limits) (cs : List Bytes) (hne : cs ≠ []) (wire : Slice)
    (hwire : wire.1 = [slash].intercalate cs) :
    ((∃ scope path, scopeComponents scope = cs.dropLast ∧
        appendComponent scope (cs.getLast hne) limits = .ok path ∧ path.components = cs ∧
          Unprotected path) ↔
      ∃ path, decodeRelativePath wire limits = .ok path ∧ path.components = cs) ∧
    ∀ path, decodeRelativePath wire limits = .ok path → path.components = cs →
      ∀ w : Writer, w.limits = CodecLimits.ofLimits limits →
        ∃ b, (Writer.path path).run w = .ok ((), w.append b) ∧
          ∀ (payload : Slice) (before behind : Bytes), payload.1 = before ++ b ++ behind →
            Reader.path.run ⟨payload.1, before.length, CodecLimits.ofLimits limits⟩ =
              .ok (path, ⟨payload.1, before.length + b.length, CodecLimits.ofLimits limits⟩) := by
  have hword : isizeMax < 2 ^ 64 - 1 := by decide
  have hlength : wire.1.length = (cs.map List.length).sum + (cs.length - 1) := by
    rw [hwire]
    exact length_componentsToPath cs
  refine ⟨⟨?_, ?_⟩, ?_⟩
  · rintro ⟨scope, path, -, happend, rfl, hprot⟩
    obtain ⟨-, hcount, hbytes⟩ := appendComponent_eq_ok_iff.1 happend
    -- the text is a slice, so the sum did not saturate
    have hsize := wire.2
    rw [← hlength, min_eq_left (by omega)] at hbytes
    have hsplit : path.components = wire.1.splitOn slash := by
      rw [hwire]
      exact (splitOn_componentsToPath path).symm
    exact ⟨path, decodeRelativePath_eq_ok_iff.2 ⟨hbytes, hsplit, hcount, hprot⟩, rfl⟩
  · rintro ⟨path, hdecode, rfl⟩
    obtain ⟨hbytes, -, hcount, hprot⟩ := decodeRelativePath_eq_ok_iff.1 hdecode
    have hscope : scopeComponents (scopeOf path.components.dropLast) = path.components.dropLast :=
      scopeComponents_scopeOf fun c hc => path.legal c (List.mem_of_mem_dropLast hc)
    refine ⟨scopeOf path.components.dropLast, path, hscope, ?_, rfl, hprot⟩
    refine appendComponent_eq_ok_iff.2 ⟨?_, hcount, ?_⟩
    · rw [hscope, List.dropLast_append_getLast]
    · rw [← hlength]
      exact le_trans (Nat.min_le_left _ _) hbytes
  · rintro path hdecode rfl w hlimits
    exact path_carried hwire hdecode w hlimits

theorem path_gates_agree_nested :
    (∃ path, decodeRelativePath ⟨ascii "a/b", by decide⟩ defaultLimits = .ok path ∧
      path.components = [ascii "a", ascii "b"]) ∧
    ¬ ∃ path, decodeRelativePath ⟨ascii "a/.git", by decide⟩ defaultLimits = .ok path ∧
      path.components = [ascii "a", ascii ".git"] := by
  constructor
  · refine (path_gates_agree defaultLimits [ascii "a", ascii "b"] (by decide)
      ⟨ascii "a/b", by decide⟩ (by decide)).1.1 ⟨some ⟨[ascii "a"], by decide, by decide⟩,
        ⟨[ascii "a", ascii "b"], by decide, by decide⟩, rfl, ?_, rfl, by decide⟩
    exact appendComponent_eq_ok_iff.2 ⟨rfl, by decide, by decide⟩
  · intro h
    obtain ⟨scope, path, -, -, hpath, hprot⟩ := (path_gates_agree defaultLimits
      [ascii "a", ascii ".git"] (by decide) ⟨ascii "a/.git", by decide⟩ (by decide)).1.2 h
    exact hprot (ascii ".git") (by simp [hpath]) (by decide)

end QuicSync
