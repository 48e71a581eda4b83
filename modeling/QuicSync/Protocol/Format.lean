import QuicSync.Grammar.Parses
import QuicSync.Protocol.Codec
import Mathlib.Algebra.BigOperators.Group.List.Basic

/-!
# The wire format

The wire format as a function of the message, apart from the code that writes and reads it:
`Format.record`, `Format.operation`, `Format.failure` and so on give the bytes of a value, and
`Format.PathFits` the local limits a path has to meet.

The two halves of the codec refine it.

* `Writer`: a writer appends the format of its value if the paths in it fit, and fails
  otherwise (the `Writer.*_run` lemmas).
* `Reader`: a reader is an exact parser of the format (the `Reader.parses_*` lemmas), on values
  whose paths fit and whose byte fields are within the frame limit.

`WireFormat` states this for a whole message type, with the instances of the three streams.
-/

namespace QuicSync

namespace Format

/-- A length prefix, of the length cast to 64 bits. -/
def length (n : ℕ) : Bytes := Leb128.encode (n % wordSize)

/-- A byte field. -/
def bytes (value : Bytes) : Bytes := length value.length ++ value

/-- A text field. -/
def string (value : String) : Bytes := bytes value.toByteArray.data.toList

/-- A path: the number of components, then each as a byte field. -/
def path (value : RelativePath) : Bytes :=
  length value.components.length ++ value.components.flatMap bytes

/-- An optional field: a tag, then the value if there is one. -/
def optional {α : Type} (format : α → Bytes) : Option α → Bytes
  | some value => 1 :: format value
  | none => [0]

/-- The tag of an entry kind. -/
def entryKind : EntryKind → UInt8
  | .directory => 1
  | .regularFile => 2
  | .symlink => 3

/-- A 64-bit field. -/
def u64 (value : UInt64) : Bytes := LittleEndian.bytes 8 value.toNat

/-- A signed 128-bit field, in two's complement. -/
def i128 (value : I128) : Bytes := LittleEndian.bytes 16 (value.val % 2 ^ 128).toNat

/-- An index record. -/
def record (value : IndexRecord) : Bytes :=
  path value.path ++ (entryKind value.metadata.kind ::
    (LittleEndian.bytes 4 value.metadata.mode.toNat ++ (i128 value.metadata.mtimeNs ++
      (u64 value.metadata.size ++ (optional Digest.bytes value.digest ++
        optional bytes value.symlinkTarget)))))

/-- The tag of an operation. -/
def operationTag : Operation → UInt8
  | .upsertDirectory .. => 1
  | .upsertFile update .. => if update then 5 else 2
  | .upsertSymlink .. => 3
  | .delete .. => 4

/-- The fields of an operation after its tag and identifier. -/
def operationBody : Operation → Bytes
  | .upsertDirectory _ value | .upsertFile _ _ value | .upsertSymlink _ value => record value
  | .delete _ value kind => path value ++ [entryKind kind]

/-- An operation. -/
def operation (value : Operation) : Bytes :=
  operationTag value :: (u64 value.id.get ++ operationBody value)

/-- A failure report. -/
def failure (value : WireFailure) : Bytes :=
  LittleEndian.bytes 2 value.code.toUInt16.toNat ++ (string value.message ++
    (Writer.phaseTag value.phase :: (optional (fun id => u64 id.get) value.operationId ++
      optional path value.path)))

/-- A path is within the local limits. -/
def PathFits (L : CodecLimits) (value : RelativePath) : Prop :=
  value.components.length ≤ L.maxComponents.toNat ∧
    (value.components.map List.length).sum ≤ L.maxPathBytes.toNat

/-- A byte field is within the frame limit. -/
def BytesFit (L : CodecLimits) (value : Bytes) : Prop := value.length ≤ L.maxFrameBytes.toNat

/-- The paths of an operation are within the local limits. -/
def OperationFits (L : CodecLimits) (value : Operation) : Prop := PathFits L value.path

/-- The link target of an operation is within the frame limit. -/
def OperationBytesFit (L : CodecLimits) : Operation → Prop
  | .upsertDirectory _ value | .upsertFile _ _ value | .upsertSymlink _ value =>
    ∀ target ∈ value.symlinkTarget, BytesFit L target
  | .delete .. => True

end Format

open Format

/-! ### The writer refines the format -/

/-- A writer after more bytes. -/
def Writer.append (w : Writer) (b : Bytes) : Writer := { w with bytes := w.bytes ++ b }

namespace Writer

variable {w w' : Writer} {u : Unit}

/-- The computation appends `b` when `P` holds, and fails otherwise. -/
def Appends (m : WriteM Unit) (b : Bytes) (P : CodecLimits → Prop) : Prop :=
  ∀ w u w', m.run w = .ok (u, w') ↔ P w.limits ∧ w' = w.append b

theorem Appends.bind {m n : WriteM Unit} {b c : Bytes} {P Q : CodecLimits → Prop}
    (hm : Appends m b P) (hn : Appends n c Q) :
    Appends (m >>= fun _ => n) (b ++ c) fun L => P L ∧ Q L := by
  intro w u w'
  rw [run_bind_eq_ok_iff]
  constructor
  · rintro ⟨_, w₁, h₁, h₂⟩
    obtain ⟨hP, rfl⟩ := (hm _ _ _).1 h₁
    obtain ⟨hQ, rfl⟩ := (hn _ _ _).1 h₂
    exact ⟨⟨hP, hQ⟩, by simp [append]⟩
  · rintro ⟨⟨hP, hQ⟩, rfl⟩
    exact ⟨(), w.append b, (hm _ _ _).2 ⟨hP, rfl⟩, (hn _ _ _).2 ⟨hQ, by simp [append]⟩⟩

theorem Appends.congr {m : WriteM Unit} {b b' : Bytes} {P Q : CodecLimits → Prop}
    (h : Appends m b P) (hb : b' = b) (hQ : ∀ L, Q L ↔ P L) : Appends m b' Q := by
  subst hb
  intro w u w'
  rw [h w u w', hQ]

theorem appends_pure : Appends (pure ()) [] fun _ => True := by
  intro w u w'
  simp only [StateT.run_pure, true_and, append, List.append_nil]
  constructor
  · intro h; cases h; rfl
  · rintro rfl; rfl

theorem appends_raw (b : Bytes) : Appends (raw b) b fun _ => True := by
  intro w u w'
  simp only [raw, true_and]
  constructor
  · intro h; cases h; rfl
  · rintro rfl; rfl

theorem appends_length (n : ℕ) : Appends (length n) (Format.length n) fun _ => True := by
  intro w u w'
  have hput : putVarint (UInt64.ofNat n) w.bytes = w.bytes ++ Format.length n := by
    rw [putVarint_eq, UInt64.toNat_ofNat']
    rfl
  simp only [length, true_and, append, ← hput]
  constructor
  · intro h; cases h; rfl
  · rintro rfl; rfl

theorem appends_bytes (b : Bytes) : Appends (bytes' b) (Format.bytes b) fun _ => True :=
  ((appends_length _).bind (appends_raw b)).congr rfl (by simp)

theorem appends_forM_bytes (cs : List Bytes) :
    Appends (cs.forM bytes') (cs.flatMap Format.bytes) fun _ => True := by
  induction cs with
  | nil => exact appends_pure
  | cons c cs ih => exact ((appends_bytes c).bind ih).congr (by simp) (by simp)

/-- The checked sum succeeds when it fits a machine word. -/
theorem foldlM_total_eq_ok_iff (cs : List Bytes) {total : ℕ} (n : ℕ) (htotal : total < wordSize) :
    cs.foldlM (fun total component =>
      if total + component.length < wordSize then pure (total + component.length)
      else codecError (.limitExceeded "path bytes")) total = (.ok n : CodecResult ℕ) ↔
    n = total + (cs.map List.length).sum ∧ n < wordSize := by
  induction cs generalizing total with
  | nil =>
    simp only [List.foldlM_nil, List.map_nil, List.sum_nil, Nat.add_zero]
    constructor
    · intro h; cases h; exact ⟨rfl, htotal⟩
    · rintro ⟨rfl, -⟩; rfl
  | cons c cs ih =>
    rw [List.foldlM_cons]
    by_cases hc : total + c.length < wordSize
    · rw [if_pos hc]
      refine (ih hc).trans ?_
      rw [List.map_cons, List.sum_cons, Nat.add_assoc]
    · rw [if_neg hc]
      constructor
      · intro h; cases h
      · rintro ⟨rfl, h⟩
        rw [List.map_cons, List.sum_cons] at h
        omega

theorem pathTotal_eq_ok_iff {cs : List Bytes} {n : ℕ} :
    pathTotal cs = .ok n ↔ n = (cs.map List.length).sum ∧ n < wordSize := by
  have h := foldlM_total_eq_ok_iff cs n (show 0 < wordSize by decide)
  rwa [Nat.zero_add] at h

theorem appends_path (p : RelativePath) : Appends (path p) (Format.path p) fun L => PathFits L p := by
  intro w u w'
  have hbody := (appends_length p.components.length).bind (appends_forM_bytes p.components)
  have hword := w.limits.maxPathBytes.toNat_lt
  unfold path PathFits
  simp only [run_bind_eq_ok_iff, run_lift_eq_ok_iff, ensure_eq_ok_iff, pathTotal_eq_ok_iff]
  constructor
  · rintro ⟨_, _, hget, _, _, ⟨hcount, rfl⟩, _, _, ⟨⟨rfl, -⟩, rfl⟩, _, _, ⟨hsum, rfl⟩, hrest⟩
    cases hget
    obtain ⟨-, rfl⟩ := (hbody _ _ _).1 (run_bind_eq_ok_iff.2 hrest)
    exact ⟨⟨hcount, hsum⟩, rfl⟩
  · rintro ⟨⟨hcount, hsum⟩, rfl⟩
    refine ⟨w, w, rfl, (), w, ⟨hcount, rfl⟩, _, w, ⟨⟨rfl, ?_⟩, rfl⟩, (), w, ⟨hsum, rfl⟩, ?_⟩
    · unfold wordSize
      omega
    · exact run_bind_eq_ok_iff.1 ((hbody w u _).2 ⟨⟨trivial, trivial⟩, rfl⟩)

theorem appends_optional {α : Type} {write : α → WriteM Unit} {format : α → Bytes}
    {P : α → CodecLimits → Prop} (h : ∀ a, Appends (write a) (format a) (P a)) (o : Option α) :
    Appends (optional o write) (Format.optional format o) fun L => ∀ a ∈ o, P a L := by
  cases o with
  | none => exact (appends_raw [0]).congr rfl (by simp)
  | some a => exact ((appends_raw [1]).bind (h a)).congr rfl (by simp)

theorem appends_entryKind (k : EntryKind) :
    Appends (entryKind k) [Format.entryKind k] fun _ => True := by
  cases k <;> exact appends_raw _

theorem appends_record (r : IndexRecord) :
    Appends (record r) (Format.record r) fun L => PathFits L r.path := by
  have hdigest := appends_optional (fun d : Digest => appends_raw d.bytes) r.digest
  have htarget := appends_optional appends_bytes r.symlinkTarget
  refine ((appends_path r.path).bind ((appends_entryKind _).bind ((appends_raw _).bind
    ((appends_raw _).bind ((appends_raw _).bind (hdigest.bind htarget)))))).congr rfl ?_
  simp

theorem appends_upsert (tag : UInt8) (id : OperationId) (r : IndexRecord) :
    Appends (upsert tag id r) (tag :: (Format.u64 id.get ++ Format.record r))
      fun L => PathFits L r.path :=
  ((appends_raw [tag]).bind ((appends_raw _).bind (appends_record r))).congr rfl (by simp)

theorem appends_operation (o : Operation) :
    Appends (operation o) (Format.operation o) fun L => OperationFits L o := by
  cases o with
  | upsertDirectory id r => exact appends_upsert 1 id r
  | upsertFile update id r => exact appends_upsert _ id r
  | upsertSymlink id r => exact appends_upsert 3 id r
  | delete id p k =>
    exact ((appends_raw [4]).bind ((appends_raw _).bind ((appends_path p).bind
      (appends_entryKind k)))).congr rfl (by simp [OperationFits, Operation.path])

theorem appends_failure (f : WireFailure) :
    Appends (failure f) (Format.failure f) fun L => ∀ p ∈ f.path, PathFits L p := by
  have hid := appends_optional (fun id : OperationId => appends_raw (Format.u64 id.get)) f.operationId
  have hpath := appends_optional appends_path f.path
  refine ((appends_raw _).bind ((appends_bytes _).bind ((appends_raw _).bind
    (hid.bind hpath)))).congr rfl ?_
  simp

end Writer

/-! ### The reader refines the format -/

namespace Reader

/-- What is left of a payload; a good reader has not run past the end of a payload that fits a
machine word. -/
def cursor (L : CodecLimits) : Cursor Reader UInt8 where
  rest r := r.bytes.drop r.offset
  advance r n := { r with offset := r.offset + n }
  Good r := r.offset ≤ r.bytes.length ∧ r.bytes.length < wordSize ∧ r.limits = L
  rest_advance r n := by simp
  advance_zero r := rfl
  advance_advance r m n := by simp [Nat.add_assoc]
  good_advance r n h hn := by
    simp only [List.length_drop] at hn
    exact ⟨by simp only; omega, h.2⟩

variable {L : CodecLimits}

/-- A reader that first consults the limits. -/
theorem parses_limits {α : Type} {q : CodecLimits → ReadM α} {format : α → Bytes} {F : α → Prop}
    (h : Parses (cursor L) (q L) format F) :
    Parses (cursor L) (do let r ← get; q r.limits) format F :=
  Parses.get_bind (fun _ hr => hr.2.2) h

theorem parses_take (n : ℕ) : Parses (cursor L) (take n) id fun b => b.length = n := by
  rintro r ⟨hoff, hword, -⟩ b r'
  have hlen : (r.bytes.drop r.offset).length = r.bytes.length - r.offset := List.length_drop
  change take n r = _ ↔ b.length = n ∧ b <+: r.bytes.drop r.offset ∧ r' = _
  unfold take
  constructor
  · intro h
    split_ifs at h with h₁ h₂
    · cases h
      have hn : ((r.bytes.drop r.offset).take n).length = n := by
        rw [List.length_take, hlen]
        omega
      refine ⟨hn, List.take_prefix _ _, ?_⟩
      simp only [cursor, id_eq, hn]
    all_goals cases h
  · rintro ⟨rfl, hpre, rfl⟩
    have hle := hpre.length_le
    rw [hlen] at hle
    rw [if_pos (by omega), if_pos (by omega), List.prefix_iff_eq_take.1 hpre]
    simp [cursor]

theorem parses_littleEndian (n : ℕ) :
    Parses (cursor L) (littleEndian n) (LittleEndian.bytes n) fun v => v < 256 ^ n := by
  refine (parses_take n).map LittleEndian.value (fun v => ?_) fun b hb => LittleEndian.bytes_value hb
  constructor
  · intro hv
    exact ⟨LittleEndian.bytes n v, by simp, (LittleEndian.value_bytes hv).symm⟩
  · rintro ⟨b, rfl, rfl⟩
    exact LittleEndian.value_lt b

/-- A machine integer of `n` bytes, given by its conversions to and from a number. -/
theorem parses_word {α : Type} {n : ℕ} (ofNat : ℕ → α) (toNat : α → ℕ)
    (hof : ∀ v < 256 ^ n, toNat (ofNat v) = v) (hto : ∀ a, toNat a < 256 ^ n ∧ ofNat (toNat a) = a) :
    Parses (cursor L) (do pure (ofNat (← littleEndian n))) (fun a => LittleEndian.bytes n (toNat a))
      fun _ => True := by
  refine (parses_littleEndian n).map ofNat (fun a => ?_) fun v hv => by rw [hof v hv]
  simp only [true_iff]
  exact ⟨toNat a, (hto a).1, (hto a).2.symm⟩

theorem parses_u8 : Parses (cursor L) u8 (fun b => [b]) fun _ => True := by
  have h := parses_word (L := L) (n := 1) UInt8.ofNat UInt8.toNat
    (fun v hv => by rw [UInt8.toNat_ofNat']; omega) fun b => ⟨b.toNat_lt, UInt8.ofNat_toNat⟩
  refine h.congr (fun _ => Iff.rfl) fun b _ => ?_
  have hb := b.toNat_lt
  simp [LittleEndian.bytes, Nat.mod_eq_of_lt hb]

theorem parses_u16 :
    Parses (cursor L) u16 (fun v => LittleEndian.bytes 2 v.toNat) fun _ => True :=
  parses_word UInt16.ofNat UInt16.toNat (fun v hv => by rw [UInt16.toNat_ofNat']; omega)
    fun v => ⟨v.toNat_lt, UInt16.ofNat_toNat⟩

theorem parses_u32 :
    Parses (cursor L) u32 (fun v => LittleEndian.bytes 4 v.toNat) fun _ => True :=
  parses_word UInt32.ofNat UInt32.toNat (fun v hv => by rw [UInt32.toNat_ofNat']; omega)
    fun v => ⟨v.toNat_lt, UInt32.ofNat_toNat⟩

theorem parses_u64 : Parses (cursor L) u64 Format.u64 fun _ => True :=
  parses_word UInt64.ofNat UInt64.toNat (fun v hv => by rw [UInt64.toNat_ofNat']; omega)
    fun v => ⟨v.toNat_lt, UInt64.ofNat_toNat⟩

/-- The two's complement of a number below `2 ^ 128`. -/
theorem toI128_val_emod {v : ℕ} (hv : v < 2 ^ 128) : ((toI128 v).val % 2 ^ 128).toNat = v := by
  unfold toI128
  split <;> simp only <;> omega

theorem toI128_toNat (a : I128) : toI128 (a.val % 2 ^ 128).toNat = a := by
  have h := a.range
  unfold toI128
  split <;> (ext; simp only; omega)

theorem parses_i128 : Parses (cursor L) i128 Format.i128 fun _ => True :=
  parses_word toI128 (fun a => (a.val % 2 ^ 128).toNat) (fun v hv => toI128_val_emod (by omega))
    fun a => ⟨by omega, toI128_toNat a⟩

theorem parses_length : Parses (cursor L) length Leb128.encode fun n => n < wordSize := by
  rintro r ⟨hoff, hword, -⟩ n r'
  change length r = _ ↔ n < wordSize ∧ Leb128.encode n <+: r.bytes.drop r.offset ∧ r' = _
  unfold length
  rw [if_pos hoff]
  cases hparse : parseVarint (r.bytes.drop r.offset) with
  | error e =>
    simp only [bind, Except.bind, reduceCtorEq, false_iff, not_and]
    intro hn hpre
    have hv : (UInt64.ofNat n).toNat = n := by
      rw [UInt64.toNat_ofNat']
      exact Nat.mod_eq_of_lt hn
    have hok := parseVarint_eq_ok_iff.2 ⟨rfl, hv.symm ▸ hpre⟩
    rw [hparse] at hok
    cases hok
  | ok x =>
    obtain ⟨v, used⟩ := x
    obtain ⟨rfl, hpre⟩ := parseVarint_eq_ok_iff.1 hparse
    simp only [bind, Except.bind, Except.ok.injEq, Prod.mk.injEq]
    constructor
    · rintro ⟨rfl, rfl⟩
      exact ⟨v.toNat_lt, hpre, rfl⟩
    · rintro ⟨-, hpre', rfl⟩
      have := Leb128.encode_append_inj hpre' hpre
      subst this
      exact ⟨rfl, rfl⟩

theorem parses_boundedLength (maximum : ℕ) (name : String) :
    Parses (cursor L) (boundedLength maximum name) Leb128.encode
      fun n => n ≤ maximum ∧ n < wordSize := by
  refine (parses_length.bind (G := fun n => n ≤ maximum) id (g := fun _ => []) ?_).congr
    (fun n => and_comm) (fun _ _ => by simp)
  intro n _
  refine Parses.lift_bind (G := fun _ c => c = n) (fun _ _ => Parses.pure n) fun c => ?_
  simp only [ensure_eq_ok_iff, exists_const, id_eq]
  constructor
  · rintro ⟨h, rfl⟩
    exact ⟨h, rfl⟩
  · rintro ⟨h, rfl⟩
    exact ⟨h, rfl⟩

/-- A byte field with its own bound on the length. -/
theorem parses_boundedBytes (maximum : ℕ) (name : String) :
    Parses (cursor L) (do let n ← boundedLength maximum name; take n) Format.bytes
      fun b => b.length ≤ maximum ∧ b.length < wordSize := by
  refine ((parses_boundedLength maximum name).bind (G := fun _ => True) List.length
    fun n _ => (parses_take n).congr (by simp) fun _ _ => rfl).congr (by simp) ?_
  rintro b ⟨⟨-, hb⟩, -⟩
  rw [Format.bytes, Format.length, Nat.mod_eq_of_lt hb]
  rfl

theorem parses_bytes : Parses (cursor L) bytes' Format.bytes (BytesFit L) := by
  unfold bytes'
  refine parses_limits (q := fun limits => do
    let length ← boundedLength limits.maxFrameBytes.toNat "field bytes"
    take length) ?_
  refine (parses_boundedBytes L.maxFrameBytes.toNat "field bytes").congr (fun b => ?_)
    fun _ _ => rfl
  have hword : L.maxFrameBytes.toNat < wordSize := L.maxFrameBytes.toNat_lt
  unfold BytesFit
  exact ⟨fun h => ⟨h, by omega⟩, fun h => h.1⟩

theorem parses_string :
    Parses (cursor L) string Format.string fun s => BytesFit L s.toByteArray.data.toList := by
  refine (parses_bytes.bind (G := fun _ => True) (fun s : String => s.toByteArray.data.toList)
    (g := fun _ => []) ?_).congr (by simp) (fun _ _ => by simp [Format.string])
  intro b _
  refine Parses.lift fun s => ?_
  constructor
  · intro h
    split at h
    · rename_i s' hs
      cases h
      simp only [String.fromUTF8?, Option.dite_none_right_eq_some, Option.some.injEq] at hs
      obtain ⟨hvalid, rfl⟩ := hs
      exact ⟨trivial, rfl⟩
    · cases h
  · rintro ⟨-, rfl⟩
    have hvalid : (ByteArray.mk s.toByteArray.data.toList.toArray).IsValidUTF8 := by
      simpa using s.isValidUTF8
    simp only [String.fromUTF8?, dif_pos hvalid]
    rfl

theorem parses_digest : Parses (cursor L) digest Digest.bytes fun _ => True := by
  refine ((parses_take 32).bind (G := fun _ => True) Digest.bytes (g := fun _ => []) ?_).congr
    (fun d => by simp [d.size]) (fun _ _ => by simp)
  intro b hb
  refine Parses.lift fun d => ?_
  rw [dif_pos hb]
  constructor
  · intro h
    cases h
    exact ⟨trivial, rfl⟩
  · rintro ⟨-, rfl⟩
    rfl

theorem parses_optional {α : Type} {read : ReadM α} {format : α → Bytes} {F : α → Prop}
    (h : Parses (cursor L) read format F) :
    Parses (cursor L) (optional read) (Format.optional format) fun o => ∀ a ∈ o, F a := by
  let Tagged : UInt8 → Option α → Prop := fun b o =>
    (b = 0 ∧ o = none) ∨ (b = 1 ∧ ∃ a, F a ∧ o = some a)
  let body : Option α → Bytes := fun o => o.elim [] format
  refine parses_u8.seq (g := fun _ => body) (G := Tagged) (fun b _ => ?_) (fun o => ?_) ?_
  · by_cases h0 : b = 0
    · subst h0
      refine (Parses.pure none).congr (fun o => by simp [Tagged]) ?_
      rintro _ rfl
      rfl
    · by_cases h1 : b = 1
      · subst h1
        exact h.map some (fun o => by simp [Tagged]) fun _ _ => rfl
      · refine Parses.fail (fun r => ⟨.error (.invalidValue "optional tag"), ?_⟩) ?_
        · split
          · exact absurd rfl h0
          · exact absurd rfl h1
          · rfl
        · rintro o (⟨rfl, -⟩ | ⟨rfl, -⟩)
          · exact h0 rfl
          · exact h1 rfl
  · cases o with
    | none => exact ⟨fun _ => ⟨0, trivial, Or.inl ⟨rfl, rfl⟩⟩, fun _ => by simp⟩
    | some a =>
      constructor
      · intro ha
        exact ⟨1, trivial, Or.inr ⟨rfl, a, ha a rfl, rfl⟩⟩
      · rintro ⟨b, -, ⟨-, ho⟩ | ⟨-, a', ha', ho⟩⟩
        · cases ho
        · cases ho
          intro x hx
          cases hx
          exact ha'
  · rintro b _ - (⟨rfl, rfl⟩ | ⟨rfl, a, -, rfl⟩) <;> rfl

/-- A tag byte that selects a value, with no further bytes. -/
theorem parses_tag {α : Type} {select : UInt8 → ReadM α} (tag : α → UInt8)
    (h : ∀ b, Parses (cursor L) (select b) (fun _ => []) fun a => tag a = b) :
    Parses (cursor L) (do select (← u8)) (fun a => [tag a]) fun _ => True := by
  refine (parses_u8.bind (G := fun _ => True) tag (g := fun _ => []) fun b _ => ?_).congr
    (by simp) (fun _ _ => by simp)
  exact (h b).congr (by simp) fun _ _ => rfl

theorem parses_entryKind :
    Parses (cursor L) entryKind (fun k => [Format.entryKind k]) fun _ => True := by
  refine parses_tag Format.entryKind fun b => ?_
  split
  · exact (Parses.pure _).congr (fun k => by cases k <;> simp [Format.entryKind]) fun _ _ => rfl
  · exact (Parses.pure _).congr (fun k => by cases k <;> simp [Format.entryKind]) fun _ _ => rfl
  · exact (Parses.pure _).congr (fun k => by cases k <;> simp [Format.entryKind]) fun _ _ => rfl
  · rename_i h1 h2 h3
    refine Parses.fail (fun r => ⟨_, rfl⟩) ?_
    rintro (_ | _ | _) rfl
    · exact h1 rfl
    · exact h2 rfl
    · exact h3 rfl

theorem parses_operationId :
    Parses (cursor L) operationId (fun id => Format.u64 id.get) fun _ => True :=
  parses_u64.map OperationId.mk (fun id => ⟨fun _ => ⟨id.get, trivial, rfl⟩, fun _ => trivial⟩)
    fun _ _ => rfl

/-- The loop of `path`: the components fit what is left of the byte budget. -/
theorem parses_pathComponents (maxPathBytes count : ℕ) (hmax : maxPathBytes < wordSize) :
    ∀ total ≤ maxPathBytes, Parses (cursor L) (pathComponents maxPathBytes count total)
      (List.flatMap Format.bytes) fun cs =>
        cs.length = count ∧ total + (cs.map List.length).sum ≤ maxPathBytes := by
  induction count with
  | zero =>
    intro total htotal
    refine (Parses.pure []).congr (fun cs => ?_) ?_
    · simp only [List.length_eq_zero_iff]
      constructor
      · exact fun h => h.1
      · rintro rfl
        exact ⟨rfl, by simpa using htotal⟩
    · rintro _ rfl
      rfl
  | succ count ih =>
    intro total htotal
    -- one component of `n` bytes, then `count` more from a smaller budget
    have hstep : ∀ n, n ≤ maxPathBytes - total → Parses (cursor L)
        (do let c ← take n; pure (c :: (← pathComponents maxPathBytes count (total + n))))
        (fun cs => cs.headD [] ++ cs.tail.flatMap Format.bytes)
        fun cs => ∃ c t, c.length = n ∧ (t.length = count ∧
          total + n + (t.map List.length).sum ≤ maxPathBytes) ∧ cs = c :: t := by
      intro n hn
      refine (parses_take n).seq (fun c _ => (ih (total + n) (by omega)).map (c :: ·)
        (g := fun cs => cs.tail.flatMap Format.bytes) (fun _ => Iff.rfl) fun _ _ => rfl)
        (fun cs => ?_) ?_
      · simp only [exists_and_left]
      · rintro c _ - ⟨t, -, rfl⟩
        rfl
    refine Parses.lift_bind (G := fun _ cs => cs.length = count + 1 ∧
      total + (cs.map List.length).sum ≤ maxPathBytes) (fun remaining hrem => ?_) ?_
    · obtain ⟨-, rfl⟩ := checkedSub_eq_ok_iff.1 hrem
      refine (parses_boundedLength _ _).seq (fun n hn => hstep n hn.1) (fun cs => ?_) ?_
      · constructor
        · rintro ⟨hlen, hsum⟩
          cases cs with
          | nil => simp at hlen
          | cons c t =>
            simp only [List.length_cons, Nat.add_right_cancel_iff, List.map_cons,
              List.sum_cons] at hlen hsum
            exact ⟨c.length, ⟨by omega, by omega⟩, c, t, rfl, ⟨hlen, by omega⟩, rfl⟩
        · rintro ⟨n, -, c, t, rfl, ⟨hlen, hsum⟩, rfl⟩
          simp only [List.length_cons, List.map_cons, List.sum_cons]
          exact ⟨by omega, by omega⟩
      · rintro n _ ⟨-, hn⟩ ⟨c, t, rfl, -, rfl⟩
        simp [Format.bytes, Format.length, Nat.mod_eq_of_lt hn]
    · intro cs
      simp only [checkedSub_eq_ok_iff, exists_and_right]
      exact ⟨fun h => ⟨⟨_, htotal, rfl⟩, h⟩, fun h => h.2⟩

theorem mapError_eq_ok_iff {ε ε' α : Type} {x : Except ε α} {f : ε → ε'} {a : α} :
    x.mapError f = .ok a ↔ x = .ok a := by
  cases x <;> simp [Except.mapError]

theorem parses_path : Parses (cursor L) path Format.path (PathFits L) := by
  have hword : L.maxPathBytes.toNat < wordSize := L.maxPathBytes.toNat_lt
  have hcount : L.maxComponents.toNat < wordSize := L.maxComponents.toNat_lt
  unfold path
  refine parses_limits (q := fun limits => do
    let count ← boundedLength limits.maxComponents.toNat "path components"
    ensure (count ≠ 0) (.invalidValue "relative path")
    let components ← pathComponents limits.maxPathBytes.toNat count 0
    ((RelativePath.new components).mapError fun _ => .error (.invalidValue "relative path") :
      CodecResult RelativePath)) ?_
  refine ((parses_boundedLength _ _).bind (fun p : RelativePath => p.components.length)
    (G := fun p => (p.components.map List.length).sum ≤ L.maxPathBytes.toNat)
    (g := fun p => p.components.flatMap Format.bytes) fun n _ => ?_).congr (fun p => ?_) ?_
  · refine Parses.lift_bind (G := fun _ p =>
      (p.components.map List.length).sum ≤ L.maxPathBytes.toNat ∧ p.components.length = n)
      (fun _ _ => ?_) fun p => ?_
    · refine ((parses_pathComponents _ n hword 0 (Nat.zero_le _)).bind RelativePath.components
        (G := fun _ => True) (g := fun _ => []) fun cs _ => ?_).congr (fun p => ?_) fun _ _ => ?_
      · exact Parses.lift fun p => by simp [mapError_eq_ok_iff, RelativePath.new_eq_ok_iff]
      · simp [and_comm]
      · simp
    · simp only [ensure_eq_ok_iff, exists_const]
      constructor
      · rintro ⟨hsum, rfl⟩
        exact ⟨by simpa using p.ne_nil, hsum, rfl⟩
      · exact fun h => h.2
  · unfold PathFits
    exact ⟨fun h => ⟨⟨h.1, by omega⟩, h.2⟩, fun h => ⟨h.1.1, h.2⟩⟩
  · rintro p ⟨⟨-, hp⟩, -⟩
    rw [Format.path, Format.length, Nat.mod_eq_of_lt hp]

theorem parses_record : Parses (cursor L) record Format.record fun r =>
    PathFits L r.path ∧ ∀ target ∈ r.symlinkTarget, BytesFit L target := by
  -- the condition on the fields after the path, and that the fields read so far are those of `r`
  let T : IndexRecord → Prop := fun r => ∀ target ∈ r.symlinkTarget, BytesFit L target
  refine (parses_path.bind IndexRecord.path (G := T) fun p _ => ?_).congr (fun _ => Iff.rfl)
    fun _ _ => rfl
  refine (parses_entryKind.bind (·.metadata.kind) (G := fun r => T r ∧ r.path = p)
    fun k _ => ?_).congr (by simp) fun _ _ => rfl
  refine (parses_u32.bind (·.metadata.mode) (G := fun r => (T r ∧ r.path = p) ∧ r.metadata.kind = k)
    fun m _ => ?_).congr (by simp) fun _ _ => rfl
  refine (parses_i128.bind (·.metadata.mtimeNs) (G := fun r =>
    ((T r ∧ r.path = p) ∧ r.metadata.kind = k) ∧ r.metadata.mode = m)
    fun t _ => ?_).congr (by simp) fun _ _ => rfl
  refine (parses_u64.bind (·.metadata.size) (G := fun r =>
    (((T r ∧ r.path = p) ∧ r.metadata.kind = k) ∧ r.metadata.mode = m) ∧ r.metadata.mtimeNs = t)
    fun s _ => ?_).congr (by simp) fun _ _ => rfl
  refine ((parses_optional parses_digest).bind IndexRecord.digest (G := fun r =>
    ((((T r ∧ r.path = p) ∧ r.metadata.kind = k) ∧ r.metadata.mode = m) ∧
      r.metadata.mtimeNs = t) ∧ r.metadata.size = s)
    fun d _ => ?_).congr (by simp) fun _ _ => rfl
  refine (parses_optional parses_bytes).map _ (fun r => ?_) fun _ _ => rfl
  constructor
  · rintro ⟨⟨⟨⟨⟨⟨hT, rfl⟩, rfl⟩, rfl⟩, rfl⟩, rfl⟩, rfl⟩
    exact ⟨r.symlinkTarget, hT, rfl⟩
  · rintro ⟨l, hl, rfl⟩
    exact ⟨⟨⟨⟨⟨⟨hl, rfl⟩, rfl⟩, rfl⟩, rfl⟩, rfl⟩, rfl⟩

/-- The kind of entry that an operation deletes. -/
def deletedKind : Operation → Bytes
  | .delete _ _ kind => [Format.entryKind kind]
  | _ => []

theorem parses_operation : Parses (cursor L) operation Format.operation fun o =>
    OperationFits L o ∧ OperationBytesFit L o := by
  refine (parses_u8.bind operationTag (G := fun o => OperationFits L o ∧ OperationBytesFit L o)
    (g := fun o => Format.u64 o.id.get ++ operationBody o) fun b _ => ?_).congr (by simp)
    fun _ _ => rfl
  refine (parses_operationId.bind Operation.id (G := fun o =>
    (OperationFits L o ∧ OperationBytesFit L o) ∧ operationTag o = b) (g := operationBody)
    fun id _ => ?_).congr (by simp) fun _ _ => rfl
  have hbody : ∀ (mk : IndexRecord → Operation), (∀ r, operationBody (mk r) = Format.record r) →
      (∀ o, ((OperationFits L o ∧ OperationBytesFit L o) ∧ operationTag o = b) ∧ o.id = id ↔
        ∃ r, (PathFits L r.path ∧ ∀ target ∈ r.symlinkTarget, BytesFit L target) ∧ o = mk r) →
      Parses (cursor L) (do pure (mk (← record))) operationBody fun o =>
        ((OperationFits L o ∧ OperationBytesFit L o) ∧ operationTag o = b) ∧ o.id = id :=
    fun mk hmk hiff => parses_record.map mk hiff fun r _ => hmk r
  split
  · refine hbody (.upsertDirectory id) (fun _ => rfl) fun o => ?_
    rcases o with _ | ⟨_ | _, -, -⟩ | _ | _ <;>
      simp [operationTag, Operation.id, OperationFits, OperationBytesFit, Operation.path]
  · refine hbody (.upsertFile false id) (fun _ => rfl) fun o => ?_
    rcases o with _ | ⟨_ | _, -, -⟩ | _ | _ <;>
      simp [operationTag, Operation.id, OperationFits, OperationBytesFit, Operation.path]
  · refine hbody (.upsertSymlink id) (fun _ => rfl) fun o => ?_
    rcases o with _ | ⟨_ | _, -, -⟩ | _ | _ <;>
      simp [operationTag, Operation.id, OperationFits, OperationBytesFit, Operation.path]
  · refine hbody (.upsertFile true id) (fun _ => rfl) fun o => ?_
    rcases o with _ | ⟨_ | _, -, -⟩ | _ | _ <;>
      simp [operationTag, Operation.id, OperationFits, OperationBytesFit, Operation.path]
  · refine (parses_path.seq (g := fun _ o => deletedKind o) (fun p _ => parses_entryKind.map (Operation.delete id p) (fun _ => Iff.rfl)
        fun _ _ => rfl) (fun o => ?_) ?_)
    · rcases o with _ | ⟨_ | _, -, -⟩ | _ | ⟨_, p, k⟩ <;>
        simp [operationTag, Operation.id, OperationFits, OperationBytesFit, Operation.path]
    · rintro p _ - ⟨k, -, rfl⟩
      rfl
  · rename_i h1 h2 h3 h5 h4
    refine Parses.fail (fun r => ⟨_, rfl⟩) ?_
    rintro (_ | ⟨_ | _, _, _⟩ | _ | _) ⟨⟨-, rfl⟩, -⟩
    · exact h1 rfl
    · exact h2 rfl
    · exact h5 rfl
    · exact h3 rfl
    · exact h4 rfl

theorem wireError_eq_ok_iff {v : UInt16} {c : WireErrorCode} :
    wireError v = .ok c ↔ c.toUInt16 = v := by
  constructor
  · intro h
    unfold wireError at h
    split at h <;> cases h <;> rfl
  · rintro rfl
    cases c <;> rfl

theorem phase_eq_ok_iff {v : UInt8} {p : Phase} : phase v = .ok p ↔ Writer.phaseTag p = v := by
  constructor
  · intro h
    unfold phase at h
    split at h <;> cases h <;> rfl
  · rintro rfl
    cases p <;> rfl

theorem parses_failure : Parses (cursor L) failure Format.failure fun f =>
    BytesFit L f.message.toByteArray.data.toList ∧ ∀ p ∈ f.path, PathFits L p := by
  let T : WireFailure → Prop := fun f => ∀ p ∈ f.path, PathFits L p
  refine (parses_u16.bind (fun f : WireFailure => f.code.toUInt16) (G := fun f =>
    BytesFit L f.message.toByteArray.data.toList ∧ T f) fun v _ => ?_).congr (by simp [T])
    fun _ _ => rfl
  refine Parses.lift_bind (G := fun c f => (BytesFit L f.message.toByteArray.data.toList ∧ T f) ∧
    f.code = c) (fun c _ => ?_) fun f => ?_
  swap
  · simp only [wireError_eq_ok_iff]
    constructor
    · rintro ⟨h, rfl⟩
      exact ⟨_, rfl, h, rfl⟩
    · rintro ⟨_, rfl, h, rfl⟩
      exact ⟨h, rfl⟩
  refine (parses_string.bind WireFailure.message (G := fun f => T f ∧ f.code = c)
    fun m _ => ?_).congr (fun f => and_assoc) fun _ _ => rfl
  refine (parses_u8.bind (fun f : WireFailure => Writer.phaseTag f.phase)
    (G := fun f => (T f ∧ f.code = c) ∧ f.message = m) fun v _ => ?_).congr (by simp)
    fun _ _ => rfl
  refine Parses.lift_bind (G := fun ph f => ((T f ∧ f.code = c) ∧ f.message = m) ∧
    f.phase = ph) (fun ph _ => ?_) fun f => ?_
  swap
  · simp only [phase_eq_ok_iff]
    constructor
    · rintro ⟨h, rfl⟩
      exact ⟨_, rfl, h, rfl⟩
    · rintro ⟨_, rfl, h, rfl⟩
      exact ⟨h, rfl⟩
  refine ((parses_optional parses_operationId).bind WireFailure.operationId
    (G := fun f => ((T f ∧ f.code = c) ∧ f.message = m) ∧ f.phase = ph) fun i _ => ?_).congr
    (by simp) fun _ _ => rfl
  refine (parses_optional parses_path).map _ (fun f => ?_) fun _ _ => rfl
  constructor
  · rintro ⟨⟨⟨⟨hT, rfl⟩, rfl⟩, rfl⟩, rfl⟩
    exact ⟨f.path, hT, rfl⟩
  · rintro ⟨p, hp, rfl⟩
    exact ⟨⟨⟨⟨hp, rfl⟩, rfl⟩, rfl⟩, rfl⟩

end Reader

/-! ### Frames -/

theorem checkFrameLength_eq_ok_iff {L : CodecLimits} {n : UInt64} {u : Unit} :
    checkFrameLength n L = .ok u ↔ n.toNat ≤ L.maxFrameBytes.toNat ∧ 3 ≤ n.toNat := by
  have hmax : n > L.maxFrameBytes ↔ L.maxFrameBytes.toNat < n.toNat := UInt64.lt_iff_toNat_lt
  have hmin : n.toNat < kindBytes + versionBytes ↔ n.toNat < 3 := Iff.rfl
  unfold checkFrameLength
  simp only [hmax, hmin]
  constructor
  · intro h
    split_ifs at h with h₁ h₂
    · cases h
    · cases h
    · exact ⟨Nat.le_of_not_lt h₁, Nat.le_of_not_lt h₂⟩
  · rintro ⟨h₁, h₂⟩
    rw [if_neg (Nat.not_lt.2 h₁), if_neg (Nat.not_lt.2 h₂)]

/-- The one-shot decoder accepts a payload of an accepted length behind that length. -/
theorem decode_eq_ok_iff_payload {T : Type} [WireMessage T] {L : CodecLimits} {m : T} {w : Slice} :
    decode w L = .ok m ↔ ∃ p, w.1 = Leb128.encode p.length ++ p ∧
      p.length ≤ L.maxFrameBytes.toNat ∧ 3 ≤ p.length ∧ decodePayload p L = .ok m := by
  unfold decode
  simp only [bind_eq_ok_iff, ensure_eq_ok_iff, Prod.exists, parseVarint_eq_ok_iff,
    checkFrameLength_eq_ok_iff]
  constructor
  · rintro ⟨n, _, ⟨rfl, p, hp⟩, _, ⟨hmax, hmin⟩, _, -, _, -, _, htotal, hpay⟩
    have hlen : p.length = n.toNat := by
      rw [← hp, List.length_append] at htotal
      exact Nat.add_left_cancel htotal
    rw [← hp, List.drop_left, ← hlen, List.take_length] at hpay
    exact ⟨p, by rw [hlen, hp], hlen ▸ hmax, hlen ▸ hmin, hpay⟩
  · rintro ⟨p, hw, hmax, hmin, hpay⟩
    have hn : (UInt64.ofNat p.length).toNat = p.length := by
      rw [UInt64.toNat_ofNat']
      exact Nat.mod_eq_of_lt (lt_of_le_of_lt hmax L.maxFrameBytes.toNat_lt)
    have hlen : w.1.length = (Leb128.encode p.length).length + p.length := by
      rw [hw, List.length_append]
    have hstop : w.1.length < wordSize := lt_of_le_of_lt w.2 (by decide)
    refine ⟨UInt64.ofNat p.length, _, ⟨rfl, ?_⟩, (), ⟨?_, ?_⟩, (), ?_, (), ?_, (), ?_, ?_⟩
    · rw [hn, hw]
      exact List.prefix_append _ _
    · rwa [hn]
    · rwa [hn]
    · rwa [hn, ← hlen]
    · rw [hn, hlen]
    · rw [hn, hlen]
    · rw [hn, hw, List.drop_left, List.take_length, hpay]

end QuicSync
