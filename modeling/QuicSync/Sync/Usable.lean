import Mathlib.Algebra.Order.BigOperators.Group.List
import QuicSync.Filesystem.Scan
import QuicSync.Sync.Transfer

/-!
# Limits that can be used

A configuration's limits bound paths and frames.  A path that the scanner accepts has to fit the
messages about it: the record of its entry and the requests for its content.  The validation of
limits compares the longest path with the longest frame, but a message carries more than the bytes
of the path.  `usable_iff` says which paths fit.
-/

namespace QuicSync

open Format

/-- The number of bytes of a path in a message: a count, and each component behind its length. -/
def encodedPathBytes (path : RelativePath) : ℕ :=
  prefixBytes path.components.length +
    (path.components.map fun component => prefixBytes component.length + component.length).sum

/-- The bytes of a record, without a link target and with a digest, beside those of its path. -/
def recordOverhead : ℕ := 66

/-- An accepted path can be used: the messages about it are encoded, the limits would be accepted
by the codec, and a transfer can be started. -/
structure Usable (limits : Limits) (path : RelativePath) : Prop where
  records : ∀ (metadata : EntryMetadata) (digest : Option Digest), metadata.kind ≠ .symlink →
    ∃ w, encode (IndexMessage.record ⟨path, metadata, digest, none⟩)
      (CodecLimits.ofLimits limits) = .ok w
  creates : ∀ id, ∃ w, encode (FileTransfer.createRequest id path)
    (CodecLimits.ofLimits limits) = .ok w
  updates : ∀ id, ∃ w, encode (FileTransfer.updateRequest id path)
    (CodecLimits.ofLimits limits) = .ok w
  accepted : CodecLimits.new limits.maxFrameBytes limits.maxPathBytes limits.maxComponents
    limits.maxComponents = .ok (CodecLimits.ofLimits limits)
  transfers : ∀ stream, ∃ wire, Transfer.Wire.new stream limits = .ok wire

section

variable {limits limits' : Limits} {scope : Option RelativePath} {component : Bytes}
  {path : RelativePath}

theorem length_component_le (components : List Bytes) :
    ∀ component ∈ components, component.length ≤ (components.map List.length).sum := by
  intro component hmem
  exact List.le_sum_of_mem (List.mem_map_of_mem hmem)

/-- The limits for paths hold of a path that the scanner accepts, and its lengths are small. -/
theorem pathFits_of_accepted (hvalid : limits.validate = .ok limits')
    (h : appendComponent scope component limits = .ok path) :
    PathFits (CodecLimits.ofLimits limits) path ∧ path.components.length < 2 ^ 35 ∧
      ∀ component ∈ path.components, component.length < 2 ^ 35 := by
  obtain ⟨-, -, ⟨-, hpath⟩, ⟨-, hcomponents⟩, -⟩ := Limits.validate_eq_ok_iff.1 hvalid
  obtain ⟨-, hcount, hbytes⟩ := appendComponent_eq_ok_iff.1 h
  have hsum : (path.components.map List.length).sum ≤ limits.maxPathBytes.toNat := by
    simp only [Config.maxPathBytes] at hpath
    omega
  refine ⟨⟨hcount, hsum⟩, ?_, fun component hmem => ?_⟩
  · simp only [Config.maxComponents] at hcomponents
    omega
  · have hle := length_component_le path.components component hmem
    simp only [Config.maxPathBytes] at hpath
    omega

theorem length_formatLength {n : ℕ} (h : n < 2 ^ 35) : (Format.length n).length = prefixBytes n := by
  have hword : n % wordSize = n := Nat.mod_eq_of_lt (lt_trans h (by decide))
  rw [Format.length, hword, length_encode_eq_prefixBytes h]

/-- The format of a path has as many bytes as are counted. -/
theorem length_formatPath (hcount : path.components.length < 2 ^ 35)
    (hlength : ∀ component ∈ path.components, component.length < 2 ^ 35) :
    (Format.path path).length = encodedPathBytes path := by
  have hfields : (path.components.flatMap Format.bytes).length =
      (path.components.map fun component => prefixBytes component.length + component.length).sum := by
    rw [List.length_flatMap]
    refine congrArg _ (List.map_congr_left fun component hmem => ?_)
    rw [Format.bytes, List.length_append, length_formatLength (hlength component hmem)]
  rw [Format.path, List.length_append, length_formatLength hcount, hfields]
  rfl

theorem length_optionalDigest (digest : Option Digest) :
    (Format.optional Digest.bytes digest).length = if digest.isSome then 33 else 1 := by
  cases digest with
  | none => rfl
  | some digest =>
    rw [Format.optional, List.length_cons, digest.size]
    rfl

/-- The payload of a record without a link target. -/
theorem length_record (metadata : EntryMetadata) (digest : Option Digest) :
    (payload (IndexMessage.record ⟨path, metadata, digest, none⟩)).length =
      (Format.path path).length + 33 + (Format.optional Digest.bytes digest).length := by
  rw [length_payload]
  simp only [WireFormat.fields, Format.record, List.length_append, List.length_cons,
    LittleEndian.length_bytes, Format.i128, Format.u64, Format.optional, List.length_nil]
  omega

theorem length_request {m : FileTransfer} {id : OperationId}
    (h : m = .createRequest id path ∨ m = .updateRequest id path) :
    (payload m).length = (Format.path path).length + 11 := by
  have hfields : WireFormat.fields m = Format.u64 id.get ++ Format.path path := by
    rcases h with rfl | rfl
    · rfl
    · rfl
  rw [length_payload, hfields]
  simp only [List.length_append, Format.u64, LittleEndian.length_bytes]
  omega

/-- A message with a payload within the frame limit of a configuration is encoded. -/
theorem encode_isOk {T : Type} [WireMessage T] [WireFormat T] {m : T}
    (hvalid : limits.validate = .ok limits')
    (hfits : WireFormat.Fits (CodecLimits.ofLimits limits) m)
    (hlength : (payload m).length ≤ limits.maxFrameBytes.toNat) :
    ∃ w, encode m (CodecLimits.ofLimits limits) = .ok w := by
  obtain ⟨-, ⟨-, hmax⟩, -⟩ := Limits.validate_eq_ok_iff.1 hvalid
  simp only [Config.maxFrameBytes] at hmax
  have hslice : (frame m).length ≤ isizeMax := by
    have hprefix : prefixBytes (payload m).length ≤ 5 := by
      unfold prefixBytes
      split_ifs <;> omega
    rw [frame, List.length_append, length_encode_eq_prefixBytes (by omega)]
    unfold isizeMax
    omega
  exact ⟨⟨frame m, hslice⟩, encode_eq_ok_iff.2 ⟨⟨hfits, hlength⟩, rfl⟩⟩

theorem codecLimits_accepted (hvalid : limits.validate = .ok limits')
    (h : kindBytes + versionBytes ≤ limits.maxFrameBytes.toNat) :
    CodecLimits.new limits.maxFrameBytes limits.maxPathBytes limits.maxComponents
      limits.maxComponents = .ok (CodecLimits.ofLimits limits) := by
  obtain ⟨-, -, ⟨hpath, -⟩, ⟨hcomponents, -⟩, -, -, -, hle⟩ := Limits.validate_eq_ok_iff.1 hvalid
  have hnonzero {value : UInt64} (hpos : 0 < value.toNat) : value ≠ 0 := by
    rintro rfl
    exact absurd hpos (by decide)
  have hnot : ¬ limits.maxPathBytes > limits.maxFrameBytes := fun hgt =>
    absurd (UInt64.lt_iff_toNat_lt.1 hgt) (not_lt.2 hle)
  unfold CodecLimits.new
  rw [if_neg (not_lt.2 h), if_neg]
  · rfl
  · rintro (hzero | hgt | hzero | hzero)
    · exact hnonzero hpath hzero
    · exact hnot hgt
    · exact hnonzero hcomponents hzero
    · exact hnonzero hcomponents hzero

/-- **Accepted limits can be used for an accepted path** if and only if the path with its lengths
and the other fields of a record are within the frame limit. -/
theorem usable_iff (limits limits' : Limits) (hvalid : limits.validate = .ok limits')
    (scope : Option RelativePath) (component : Bytes) (path : RelativePath)
    (haccepted : appendComponent scope component limits = .ok path) :
    Usable limits path ↔ encodedPathBytes path + recordOverhead ≤ limits.maxFrameBytes.toNat := by
  obtain ⟨hfits, hcount, hlength⟩ := pathFits_of_accepted hvalid haccepted
  have hpath := length_formatPath hcount hlength
  unfold recordOverhead
  constructor
  · intro h
    -- the record with a digest is the longest of the messages
    let digest : Digest := ⟨List.replicate 32 0, List.length_replicate⟩
    obtain ⟨w, hw⟩ := h.records ⟨.directory, 0, ⟨0, by decide⟩, 0⟩ (some digest) (by decide)
    have hle := (encode_eq_ok_iff.1 hw).1.2
    rw [length_record, hpath] at hle
    rw [length_optionalDigest] at hle
    exact hle
  · intro h
    refine ⟨fun metadata digest _ => ?_, fun id => ?_, fun id => ?_, ?_, fun stream => ?_⟩
    · refine encode_isOk hvalid hfits ?_
      rw [length_record, hpath, length_optionalDigest]
      split_ifs <;> omega
    · refine encode_isOk hvalid hfits ?_
      rw [length_request (Or.inl rfl), hpath]
      omega
    · refine encode_isOk hvalid hfits ?_
      rw [length_request (Or.inr rfl), hpath]
      omega
    · refine codecLimits_accepted hvalid ?_
      unfold kindBytes versionBytes
      omega
    · have hchunk : Transfer.chunkSize limits =
          .ok (min (limits.maxFrameBytes.toNat - 32) (64 * 1024)) := by
        rw [Transfer.chunkSize, if_pos (by omega)]
      exact ⟨_, by rw [Transfer.Wire.new, hchunk]; rfl⟩

end

/-- A path of one byte. -/
def shortPath : RelativePath := ⟨[ascii "a"], by decide, by decide⟩

/-- The default limits can be used for a short path. -/
theorem usable_default :
    defaultLimits.validate = .ok defaultLimits ∧
      appendComponent none (ascii "a") defaultLimits = .ok shortPath ∧
      Usable defaultLimits shortPath := by
  have hvalid : defaultLimits.validate = .ok defaultLimits := by decide +kernel
  have haccepted : appendComponent none (ascii "a") defaultLimits = .ok shortPath := by rfl
  exact ⟨hvalid, haccepted, (usable_iff _ _ hvalid _ _ _ haccepted).2 (by decide +kernel)⟩

/-- Limits whose frames hold the longest path and nothing else. -/
def narrowLimits : Limits := ⟨16, 16, 1, 1, 1, 1⟩

/-- Under limits that are accepted, the record of a short path is not encoded. -/
theorem not_usable_narrow :
    ¬ ∀ (limits limits' : Limits) (scope : Option RelativePath) (component : Bytes)
      (path : RelativePath), limits.validate = .ok limits' →
      appendComponent scope component limits = .ok path → Usable limits path := by
  intro h
  have husable := h narrowLimits narrowLimits none (ascii "a") shortPath (by decide +kernel) rfl
  obtain ⟨w, hw⟩ := husable.records ⟨.directory, 0, ⟨0, by decide⟩, 0⟩ none (by decide)
  have hle := (encode_eq_ok_iff.1 hw).1.2
  exact absurd hle (by decide +kernel)

end QuicSync
