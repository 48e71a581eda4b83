import Mathlib.Algebra.Order.Ring.Int
import Mathlib.Data.List.Lex
import Mathlib.Order.Basic
import Mathlib.Tactic.Common

/-!
# Values shared by the subsystems

The wire-neutral values of the program: byte strings, operation identifiers, digests, relative
paths, entry metadata, index records and protocol phases.

Values with an invariant carry it: a `RelativePath` is non-empty and each of its components is a
legal file name, a `Digest` has 32 bytes, an `I128` is in the range of the machine type.  Paths
are ordered as the derived order of a vector of byte vectors orders them: lexicographically by
components, each component lexicographically by unsigned bytes, and a proper prefix first.
-/

namespace QuicSync

/-- A byte string. -/
abbrev Bytes := List UInt8

/-- The bytes of an ASCII string. -/
def ascii (s : String) : Bytes := s.toList.map fun c => UInt8.ofNat c.toNat

instance instLawfulBEqBytes : LawfulBEq Bytes := inferInstance

instance instLinearOrderByte : LinearOrder UInt8 where
  le_refl := UInt8.le_refl
  le_trans _ _ _ := UInt8.le_trans
  le_antisymm _ _ := UInt8.le_antisymm
  le_total := UInt8.le_total
  lt_iff_le_not_ge a b := by
    rw [UInt8.not_le]
    exact ⟨fun h => ⟨UInt8.le_of_lt h, h⟩, fun h => h.2⟩
  toDecidableLE := inferInstance

/-- A 128-bit signed integer. -/
structure I128 where
  /-- The value. -/
  val : ℤ
  /-- The value is in range. -/
  range : -2 ^ 127 ≤ val ∧ val < 2 ^ 127
  deriving DecidableEq

@[ext] theorem I128.ext {a b : I128} (h : a.val = b.val) : a = b := by
  cases a; cases b; simpa using h

/-- A 128-bit integer from a smaller one. -/
def I128.ofUInt64 (n : UInt64) : I128 :=
  ⟨n.toNat, by
    have hn := n.toNat_lt
    omega⟩

/-- Identifies an operation within a session plan. -/
structure OperationId where
  /-- The identifier. -/
  get : UInt64
  deriving DecidableEq

/-- A BLAKE3 digest. -/
structure Digest where
  /-- The bytes of the digest. -/
  bytes : Bytes
  /-- A digest has 32 bytes. -/
  size : bytes.length = 32
  deriving DecidableEq

/-- The digest of zeros. -/
def Digest.zero : Digest := ⟨List.replicate 32 0, rfl⟩

/-- Why a sequence of raw path components is not a valid relative path. -/
inductive PathError where
  | emptyPath
  | emptyComponent
  | currentDirectory
  | parentDirectory
  | separator
  | nul
  deriving DecidableEq, Repr

namespace PathError

/-- The text of the error. -/
def message : PathError → String
  | emptyPath => "path has no components"
  | emptyComponent => "path contains an empty component"
  | currentDirectory => "path contains a current-directory component"
  | parentDirectory => "path contains a parent-directory component"
  | separator => "path component contains a separator"
  | nul => "path component contains a NUL byte"

end PathError

/-- The path separator `/`. -/
def slash : UInt8 := 47

/-- What is wrong with one path component, if anything. -/
def componentError (component : Bytes) : Option PathError :=
  if component.isEmpty then some .emptyComponent
  else if component = ascii "." then some .currentDirectory
  else if component = ascii ".." then some .parentDirectory
  else if slash ∈ component then some .separator
  else if 0 ∈ component then some .nul
  else none

/-- A non-empty, root-relative sequence of raw file-name components. -/
@[ext] structure RelativePath where
  /-- The components, outermost first. -/
  components : List Bytes
  /-- There is at least one component. -/
  ne_nil : components ≠ []
  /-- Every component is a legal file name. -/
  legal : ∀ c ∈ components, componentError c = none
  deriving DecidableEq

namespace RelativePath

/-- Validate raw components; the first offending component decides the error. -/
def new (components : List Bytes) : Except PathError RelativePath :=
  if hne : components = [] then .error .emptyPath
  else match h : components.findSome? componentError with
    | some e => .error e
    | none => .ok ⟨components, hne, by simpa using h⟩

theorem components_injective : Function.Injective components := fun _ _ => RelativePath.ext

instance : LinearOrder RelativePath := LinearOrder.lift' components components_injective

theorem lt_iff {p q : RelativePath} : p < q ↔ p.components < q.components := Iff.rfl

/-- `new` accepts exactly the component lists of relative paths. -/
theorem new_eq_ok_iff {cs : List Bytes} {p : RelativePath} :
    new cs = .ok p ↔ p.components = cs := by
  unfold new
  constructor
  · intro h
    split at h
    · cases h
    · split at h
      · cases h
      · cases h; rfl
  · rintro rfl
    rw [dif_neg p.ne_nil]
    split
    · rename_i e he
      obtain ⟨c, hc, hce⟩ := List.exists_of_findSome?_eq_some he
      rw [p.legal c hc] at hce
      cases hce
    · rfl

end RelativePath

/-- The entry kinds supported by the synchronization model. -/
inductive EntryKind where
  | directory
  | regularFile
  | symlink
  deriving DecidableEq, Repr

/-- Portable metadata for one managed filesystem entry. -/
structure EntryMetadata where
  /-- The kind of the entry. -/
  kind : EntryKind
  /-- Permission bits. -/
  mode : UInt32
  /-- Modification time in nanoseconds since the epoch. -/
  mtimeNs : I128
  /-- Size in bytes. -/
  size : UInt64
  deriving DecidableEq

/-- One canonical entry in a filesystem index. -/
structure IndexRecord where
  /-- Where the entry is. -/
  path : RelativePath
  /-- What the entry is. -/
  metadata : EntryMetadata
  /-- Content digest of a file or a link. -/
  digest : Option Digest
  /-- Target of a link. -/
  symlinkTarget : Option Bytes
  deriving DecidableEq

/-- A synchronization session's protocol phase. -/
inductive Phase where
  | handshake
  | policy
  | indexing
  | planning
  | transferring
  | readyToCommit
  | committing
  | complete
  | failed
  deriving DecidableEq, Repr

end QuicSync
