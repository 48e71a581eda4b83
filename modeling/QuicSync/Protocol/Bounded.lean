import QuicSync.Effect.Never
import QuicSync.Protocol.Decoder

/-!
# What a decoder holds

A peer chooses the bytes that a decoder is fed.  Whatever they are, the decoder holds at most one
header and one payload within its limits, and after an error nothing; the code that decodes them
never indexes, slices or subtracts out of range.

* `Careful`: a reader that never runs out of range, for every reader of the codec.
* `Decoder.run_bounded`: the invariant of the decoder's state over any sequence of pushes, with
  errors in between.

The only panic that is left is the one of a vector that is asked to hold more than any vector can:
it needs limits that no configuration has.
-/

namespace QuicSync

namespace Reader

/-- The reader never panics and never runs past the end of its payload. -/
def Careful {α : Type} (m : ReadM α) (Q : α → Prop) : Prop :=
  Never (· = Abort.panic) (fun r : Reader => r.offset ≤ r.bytes.length) m Q

theorem careful_error {α : Type} (e : CodecError) (Q : α → Prop) :
    Careful (liftM (codecError e : CodecResult α) : ReadM α) Q :=
  Never.lift (fun _ h => by cases h; simp) fun _ h => nomatch h

theorem careful_ensure (c : Prop) [Decidable c] (e : CodecError) :
    Careful (liftM (ensure c e) : ReadM Unit) fun _ => c := by
  refine Never.lift (fun e' h => ?_) fun _ h => ensure_eq_ok_iff.1 h
  unfold ensure codecError at h
  split at h
  · cases h
  · cases h
    simp

theorem careful_take (n : ℕ) : Careful (take n) fun b => b.length = n := by
  intro r hr
  change (∀ e, take n r = .error e → _) ∧ ∀ b r', take n r = .ok (b, r') → _
  unfold take
  split_ifs with hword hlength
  · refine ⟨(fun e h => nomatch h), fun b r' h => ?_⟩
    cases h
    refine ⟨?_, hlength⟩
    show ((r.bytes.drop r.offset).take n).length = n
    rw [List.length_take, List.length_drop]
    omega
  · refine ⟨fun e h => ?_, fun b r' h => nomatch h⟩
    cases h
    simp
  · refine ⟨fun e h => ?_, fun b r' h => nomatch h⟩
    cases h
    simp

theorem careful_littleEndian (n : ℕ) : Careful (littleEndian n) fun _ => True :=
  (careful_take n).bind fun _ _ => Never.pure trivial

theorem careful_u8 : Careful u8 fun _ => True :=
  (careful_littleEndian 1).bind fun _ _ => Never.pure trivial

theorem careful_u16 : Careful u16 fun _ => True :=
  (careful_littleEndian 2).bind fun _ _ => Never.pure trivial

theorem careful_u32 : Careful u32 fun _ => True :=
  (careful_littleEndian 4).bind fun _ _ => Never.pure trivial

theorem careful_u64 : Careful u64 fun _ => True :=
  (careful_littleEndian 8).bind fun _ _ => Never.pure trivial

theorem careful_i128 : Careful i128 fun _ => True :=
  (careful_littleEndian 16).bind fun _ _ => Never.pure trivial

theorem parseVarintLoop_ne_panic (short : Bool) (bytes : Bytes) (index : ℕ) (value : UInt64) :
    parseVarintLoop short index value bytes ≠ .error .panic := by
  induction bytes generalizing index value with
  | nil =>
    intro h
    cases h
  | cons byte rest ih =>
    unfold parseVarintLoop
    intro h
    split at h
    · cases h
    · split at h
      · split at h
        · cases h
        · cases h
      · exact ih _ _ h

/-- The slice starts within the payload, and the numeral is within the slice. -/
theorem careful_length : Careful length fun _ => True := by
  intro r hr
  change (∀ e, length r = .error e → _) ∧ ∀ n r', length r = .ok (n, r') → _
  unfold length
  rw [if_pos hr]
  cases hparse : parseVarint (r.bytes.drop r.offset) with
  | error e =>
    refine ⟨fun e' h he' => ?_, fun n r' h => nomatch h⟩
    cases h
    subst he'
    exact parseVarintLoop_ne_panic _ _ _ _ hparse
  | ok parsed =>
    obtain ⟨value, used⟩ := parsed
    refine ⟨(fun e h => nomatch h), fun n r' h => ?_⟩
    cases h
    obtain ⟨rfl, hpre⟩ := parseVarint_eq_ok_iff.1 hparse
    have hle := hpre.length_le
    rw [List.length_drop] at hle
    refine ⟨trivial, ?_⟩
    show r.offset + _ ≤ r.bytes.length
    omega

theorem careful_boundedLength (maximum : ℕ) (name : String) :
    Careful (boundedLength maximum name) fun n => n ≤ maximum :=
  careful_length.bind fun _ _ => (careful_ensure _ _).bind fun _ hle => Never.pure hle

theorem careful_bytes : Careful bytes' fun _ => True :=
  Never.get.bind fun _ _ => (careful_boundedLength _ _).bind fun n _ =>
    (careful_take n).mono fun _ _ => trivial

theorem careful_string : Careful string fun _ => True := by
  refine careful_bytes.bind fun bytes _ => Never.lift (fun e h => ?_) fun _ _ => trivial
  split at h
  · cases h
  · cases h
    simp

/-- As many bytes are taken as a digest has. -/
theorem careful_digest : Careful digest fun _ => True := by
  refine (careful_take 32).bind fun bytes hlength => Never.lift (fun e h => ?_) fun _ _ => trivial
  rw [dif_pos hlength] at h
  cases h

theorem careful_optional {α : Type} {read : ReadM α} {Q : α → Prop} (h : Careful read Q) :
    Careful (optional read) fun _ => True := by
  refine careful_u8.bind fun tag _ => ?_
  split
  · exact Never.pure trivial
  · exact h.bind fun _ _ => Never.pure trivial
  · exact careful_error _ _

/-- The lengths that have been used up never exceed the limit that they are subtracted from. -/
theorem careful_pathComponents (maxPathBytes count total : ℕ) (h : total ≤ maxPathBytes) :
    Careful (pathComponents maxPathBytes count total) fun _ => True := by
  induction count generalizing total with
  | zero => exact Never.pure trivial
  | succ count ih =>
    have hsub : checkedSub maxPathBytes total = .ok (maxPathBytes - total) :=
      checkedSub_eq_ok_iff.2 ⟨h, rfl⟩
    have hremaining : Careful (liftM (checkedSub maxPathBytes total) : ReadM ℕ)
        fun n => n = maxPathBytes - total := by
      refine Never.lift (fun e he => ?_) fun n hn => (checkedSub_eq_ok_iff.1 hn).2
      rw [hsub] at he
      cases he
    refine hremaining.bind fun remaining hrem => ?_
    refine (careful_boundedLength remaining _).bind fun length hle => ?_
    refine (careful_take length).bind fun component _ => ?_
    refine (ih (total + length) ?_).bind fun _ _ => Never.pure trivial
    omega

theorem careful_path : Careful path fun _ => True := by
  refine Never.get.bind fun r _ => ?_
  refine (careful_boundedLength _ _).bind fun count _ => ?_
  refine (careful_ensure _ _).bind fun _ _ => ?_
  refine (careful_pathComponents _ count 0 (Nat.zero_le _)).bind fun components _ => ?_
  refine Never.lift (fun e h => ?_) fun _ _ => trivial
  cases hnew : RelativePath.new components with
  | ok p =>
    rw [hnew] at h
    cases h
  | error e' =>
    rw [hnew] at h
    cases h
    simp

theorem careful_entryKind : Careful entryKind fun _ => True := by
  refine careful_u8.bind fun tag _ => ?_
  split
  · exact Never.pure trivial
  · exact Never.pure trivial
  · exact Never.pure trivial
  · exact careful_error _ _

theorem careful_record : Careful record fun _ => True :=
  careful_path.bind fun _ _ => careful_entryKind.bind fun _ _ => careful_u32.bind fun _ _ =>
    careful_i128.bind fun _ _ => careful_u64.bind fun _ _ =>
      (careful_optional careful_digest).bind fun _ _ =>
        (careful_optional careful_bytes).bind fun _ _ => Never.pure trivial

theorem careful_operationId : Careful operationId fun _ => True :=
  careful_u64.bind fun _ _ => Never.pure trivial

theorem careful_operation : Careful operation fun _ => True := by
  refine careful_u8.bind fun tag _ => careful_operationId.bind fun id _ => ?_
  split
  · exact careful_record.bind fun _ _ => Never.pure trivial
  · exact careful_record.bind fun _ _ => Never.pure trivial
  · exact careful_record.bind fun _ _ => Never.pure trivial
  · exact careful_record.bind fun _ _ => Never.pure trivial
  · exact careful_path.bind fun _ _ => careful_entryKind.bind fun _ _ => Never.pure trivial
  · exact careful_error _ _

theorem careful_failure : Careful failure fun _ => True := by
  have hcode (value : UInt16) : Careful (liftM (wireError value) : ReadM WireErrorCode)
      fun _ => True := by
    refine Never.lift (fun e h => ?_) fun _ _ => trivial
    unfold wireError codecError at h
    split at h <;> cases h
    simp
  have hphase (value : UInt8) : Careful (liftM (phase value) : ReadM Phase) fun _ => True := by
    refine Never.lift (fun e h => ?_) fun _ _ => trivial
    unfold phase codecError at h
    split at h <;> cases h
    simp
  exact careful_u16.bind fun _ _ => (hcode _).bind fun _ _ => careful_string.bind fun _ _ =>
    careful_u8.bind fun _ _ => (hphase _).bind fun _ _ =>
      (careful_optional careful_operationId).bind fun _ _ =>
        (careful_optional careful_path).bind fun _ _ => Never.pure trivial

theorem careful_finish : Careful finish fun _ => True := by
  intro r hr
  change (∀ e, finish r = .error e → _) ∧ ∀ u r', finish r = .ok (u, r') → _
  unfold finish
  split_ifs
  · refine ⟨(fun e h => nomatch h), fun u r' h => ?_⟩
    cases h
    exact ⟨trivial, hr⟩
  · refine ⟨fun e h => ?_, fun u r' h => nomatch h⟩
    cases h
    simp

end Reader

open Reader

/-! ### The three message types -/

/-- The fields of a message are read without running out of range. -/
def CarefulFields (T : Type) [WireMessage T] : Prop :=
  ∀ kind, Careful (WireMessage.decodeFields kind : ReadM T) fun _ => True

theorem carefulFields_control : CarefulFields Control := by
  intro kind
  unfold WireMessage.decodeFields instWireMessageControl
  simp only
  split
  · exact careful_string.bind fun _ _ => Never.pure trivial
  · exact Never.pure trivial
  · exact careful_operation.bind fun _ _ => Never.pure trivial
  · exact Never.pure trivial
  · exact Never.pure trivial
  · exact careful_failure.bind fun _ _ => Never.pure trivial
  · exact careful_error _ _

theorem carefulFields_index : CarefulFields IndexMessage := by
  intro kind
  unfold WireMessage.decodeFields instWireMessageIndexMessage
  simp only
  split
  · exact careful_record.bind fun _ _ => Never.pure trivial
  · exact Never.pure trivial
  · exact careful_error _ _

theorem carefulFields_transfer : CarefulFields FileTransfer := by
  intro kind
  unfold WireMessage.decodeFields instWireMessageFileTransfer
  simp only
  split
  · exact careful_operationId.bind fun _ _ => careful_path.bind fun _ _ => Never.pure trivial
  · exact careful_bytes.bind fun _ _ => Never.pure trivial
  · exact Never.pure trivial
  · exact careful_bytes.bind fun _ _ => Never.pure trivial
  · exact Never.pure trivial
  · exact careful_operationId.bind fun _ _ => Never.pure trivial
  · exact careful_operationId.bind fun _ _ => careful_path.bind fun _ _ => Never.pure trivial
  · exact careful_bytes.bind fun _ _ => Never.pure trivial
  · exact careful_error _ _

section

variable {T : Type} [WireMessage T]

theorem decodePayload_ne_panic (hfields : CarefulFields T) (payload : Bytes) (limits : CodecLimits) :
    decodePayload (T := T) payload limits ≠ .error .panic := by
  have hread : Careful (do
      let kind ← Reader.u8
      let version : ProtocolVersion := ⟨← Reader.u16⟩
      ensure (version = currentVersion) (.unsupportedVersion version)
      let value ← WireMessage.decodeFields kind
      Reader.finish
      pure value : ReadM T) fun _ => True :=
    careful_u8.bind fun _ _ => careful_u16.bind fun _ _ => (careful_ensure _ _).bind fun _ _ =>
      (hfields _).bind fun _ _ => careful_finish.bind fun _ _ => Never.pure trivial
  obtain ⟨herror, -⟩ := hread (Reader.new payload limits) (Nat.zero_le _)
  intro h
  unfold decodePayload at h
  simp only at h
  generalize hrun : StateT.run _ (Reader.new payload limits) = result at h
  cases result with
  | error e =>
    cases h
    exact herror _ hrun rfl
  | ok r => cases h

/-! ### The decoder -/

namespace Decoder

variable {L : CodecLimits} {d d' : Decoder} {input input' : Bytes} {e : Abort CodecError}

/-- How a push fails: with nothing left, or because a vector is asked to hold too much. -/
def Fails (d' : Decoder) (e : Abort CodecError) : Prop :=
  (e ≠ .panic ∧ d'.header = [] ∧ d'.expected = none ∧ d'.payload = []) ∨
    (e = .panic ∧ ∃ n, d'.expected = some n ∧ isizeMax < n)

theorem fails_reset (d : Decoder) (he : e ≠ .panic) : Fails d.reset e :=
  Or.inl ⟨he, rfl, rfl, rfl⟩

theorem Good.headerStep_error (hd : Good L d) (hinput : input ≠ [])
    (h : Decoder.headerStep d input = (.error e, d', input')) : Good L d' ∧ Fails d' e := by
  have hreset := hd.reset
  obtain ⟨byte, rest, rfl⟩ := List.exists_cons_of_ne_nil hinput
  cases hexp : d.expected with
  | some n =>
    simp only [Decoder.headerStep, hexp, Option.isNone_some, Bool.false_eq_true, if_false] at h
    cases h
  | none =>
    obtain ⟨hlimits, ⟨-, hpay, hlen, hcont⟩ | ⟨n, hn, -⟩⟩ := hd
    swap
    · rw [hexp] at hn
      cases hn
    simp only [Decoder.headerStep, hexp, Option.isNone_none, if_true] at h
    split_ifs at h with hfull hover hstop
    · cases h
      exact ⟨hreset, fails_reset d (by simp)⟩
    · omega
    · split at h
      · rename_i e' hparse
        cases h
        refine ⟨hreset, fails_reset _ ?_⟩
        rintro rfl
        exact parseVarintLoop_ne_panic _ _ _ _ hparse
      · rename_i declared used hparse
        split at h
        · rename_i e' hcheck
          cases h
          refine ⟨hreset, fails_reset _ ?_⟩
          rintro rfl
          unfold checkFrameLength at hcheck
          split_ifs at hcheck <;> cases hcheck
        · rename_i hcheck
          split_ifs at h with hreserve
          · cases h
          · cases h
            rw [hpay, List.length_nil, Nat.zero_add, not_le] at hreserve
            refine ⟨?_, Or.inr ⟨rfl, declared.toNat, rfl, hreserve⟩⟩
            exact Good.header_complete ⟨hlimits, Or.inl ⟨hexp, hpay, hlen, hcont⟩⟩ hexp
              ((continuation_eq_zero_iff byte).1 hstop) (parseVarint_eq_ok_iff.1 hparse).2
              (hlimits ▸ checkFrameLength_eq_ok_iff.1 hcheck)
    · cases h

theorem Good.payloadStep_error (hfields : CarefulFields T) {n : ℕ} (hd : Good L d)
    (hexp : d.expected = some n)
    (h : Decoder.payloadStep (T := T) d n input = (.error e, d', input')) :
    Good L d' ∧ Fails d' e := by
  have hreset := hd.reset
  have hle : d.payload.length ≤ n := by
    obtain ⟨-, ⟨hnone, -⟩ | ⟨m, hm, -, -, -, hlt⟩⟩ := hd
    · rw [hexp] at hnone
      cases hnone
    · obtain rfl := Option.some.inj (hexp.symm.trans hm)
      exact hlt.le
  simp only [Decoder.payloadStep, checkedSub_eq_ok_iff.2 ⟨hle, rfl⟩] at h
  split at h
  · split at h
    · rename_i e' hdecode
      cases h
      refine ⟨hreset, fails_reset _ ?_⟩
      rintro rfl
      exact decodePayload_ne_panic hfields _ _ hdecode
    · cases h
  · cases h

theorem Good.pushStep_error (hfields : CarefulFields T) (hd : Good L d) (hinput : input ≠ [])
    (h : Decoder.pushStep (T := T) d input = (.error e, d', input')) :
    Good L d' ∧ Fails d' e := by
  unfold Decoder.pushStep at h
  split at h
  · rename_i hheader
    cases h
    exact hd.headerStep_error hinput hheader
  · rename_i d₁ input₁ hheader
    obtain ⟨hd₁, -⟩ := hd.headerStep hheader
    split at h
    · cases h
    · rename_i n hexp
      exact hd₁.payloadStep_error hfields hexp h

/-- A push that fails keeps the invariant too. -/
theorem Good.pushLoop_error (hfields : CarefulFields T) (hd : Good L d) {acc : List T}
    (h : Decoder.pushLoop d input acc = (.error e, d')) : Good L d' ∧ Fails d' e := by
  -- induction on what the loop has left to do
  induction htodo : d.todo input using Nat.strong_induction_on generalizing d input acc with
  | _ k ih =>
    by_cases hinput : input = []
    · subst hinput
      rw [pushLoop_nil] at h
      cases h
    · rw [Decoder.pushLoop, dif_neg hinput] at h
      split at h
      · rename_i hstep
        cases h
        exact hd.pushStep_error hfields hinput hstep
      · rename_i o d₁ input₁ hstep
        exact ih _ (htodo ▸ todo_pushStep hinput hstep) (hd.pushStep hstep).1 h rfl

/-- The decoder after chunks have been pushed, whether or not they were accepted. -/
def pushes (T : Type) [WireMessage T] (d : Decoder) (chunks : List Bytes) : Decoder :=
  chunks.foldl (fun d chunk => (push (T := T) d chunk).2) d

theorem good_pushes (hfields : CarefulFields T) (hd : Good L d) (chunks : List Bytes) :
    Good L (pushes T d chunks) := by
  induction chunks generalizing d with
  | nil => exact hd
  | cons chunk chunks ih =>
    refine ih ?_
    show Good L (push (T := T) d chunk).2
    cases hpush : push (T := T) d chunk with
    | mk result d' =>
      cases result with
      | ok messages => exact (hd.pushLoop hpush).1
      | error e => exact (hd.pushLoop_error hfields hpush).1

/-- What a decoder holds after a push, and how the push fails. -/
structure Bounded (L : CodecLimits) (result : CodecResult (List T)) (d : Decoder) : Prop where
  header : d.header.length ≤ 10
  incomplete : d.expected = none → d.payload = [] ∧ ∀ b ∈ d.header, b &&& 0x80 ≠ 0
  complete : ∀ n, d.expected = some n →
    3 ≤ n ∧ n ≤ L.maxFrameBytes.toNat ∧ d.payload.length < n
  buffered : d.bufferedLen < 10 + L.maxFrameBytes.toNat
  failed : ∀ e, result = .error (.error e) →
    d.header.length = 0 ∧ d.expected = none ∧ d.payload = []
  /-- The only panic is that of reserving more than a vector may hold. -/
  panicked : result = .error .panic → ∃ n, d.expected = some n ∧ isizeMax < n

theorem bounded_push (hfields : CarefulFields T) (hL : 3 ≤ L.maxFrameBytes.toNat)
    (chunks : List Bytes) (chunk : Bytes) (result : CodecResult (List T)) (d : Decoder)
    (hpush : push (pushes T (new L) chunks) chunk = (result, d)) : Bounded L result d := by
  have hbefore := good_pushes hfields (good_new L) chunks
  have hafter := good_pushes hfields hbefore [chunk]
  have hd : Good L d := by
    have hlast : pushes T (pushes T (new L) chunks) [chunk] = d := by
      show (push (T := T) (pushes T (new L) chunks) chunk).2 = d
      rw [hpush]
    rwa [hlast] at hafter
  have hfails (e : Abort CodecError) (he : result = .error e) : Fails d e := by
    subst he
    exact (hbefore.pushLoop_error hfields hpush).2
  have hheader : d.header.length ≤ 10 := by
    obtain ⟨-, ⟨-, -, hlen, -⟩ | ⟨n, -, hn, hmax, -⟩⟩ := hd
    · exact hlen
    · have hword : (UInt64.ofNat n).toNat = n := by
        rw [UInt64.toNat_ofNat']
        exact Nat.mod_eq_of_lt (lt_of_le_of_lt hmax L.maxFrameBytes.toNat_lt)
      rw [hn, ← hword]
      exact length_encode_toNat_le _
  have hincomplete (hnone : d.expected = none) :
      d.payload = [] ∧ ∀ b ∈ d.header, 128 ≤ b.toNat := by
    obtain ⟨-, ⟨-, hpay, -, hcont⟩ | ⟨n, hn, -⟩⟩ := hd
    · exact ⟨hpay, hcont⟩
    · rw [hnone] at hn
      cases hn
  have hcomplete (n : ℕ) (hn : d.expected = some n) :
      3 ≤ n ∧ n ≤ L.maxFrameBytes.toNat ∧ d.payload.length < n := by
    obtain ⟨-, ⟨hnone, -⟩ | ⟨m, hm, -, hmax, hmin, hlt⟩⟩ := hd
    · rw [hn] at hnone
      cases hnone
    · obtain rfl := Option.some.inj (hn.symm.trans hm)
      exact ⟨hmin, hmax, hlt⟩
  refine ⟨hheader, fun hnone => ?_, hcomplete, ?_, fun e he => ?_, fun he => ?_⟩
  · refine ⟨(hincomplete hnone).1, fun b hb hzero => ?_⟩
    have hlow := (continuation_eq_zero_iff b).1 hzero
    exact absurd ((hincomplete hnone).2 b hb) (not_le.2 hlow)
  · unfold bufferedLen
    cases hexp : d.expected with
    | none =>
      rw [(hincomplete hexp).1, List.length_nil]
      omega
    | some n =>
      obtain ⟨-, hmax, hlt⟩ := hcomplete n hexp
      omega
  · obtain ⟨-, hheader, hexp, hpay⟩ | ⟨hpanic, -⟩ := hfails _ he
    · exact ⟨by rw [hheader, List.length_nil], hexp, hpay⟩
    · cases hpanic
  · obtain ⟨hne, -⟩ | ⟨-, hreserve⟩ := hfails _ he
    · exact absurd rfl hne
    · exact hreserve

/-- **The decoder's state is bounded** under limits of the codec, for every message type, whatever
is pushed and however often a push fails.  Nothing panics but a vector that is asked to hold more
than any can, and with frames that a vector can hold nothing does. -/
theorem run_bounded (maxFrameBytes maxPathBytes maxComponents maxCollectionItems : UInt64)
    (L : CodecLimits)
    (hnew : CodecLimits.new maxFrameBytes maxPathBytes maxComponents maxCollectionItems = .ok L)
    (chunks : List Bytes) (chunk : Bytes) :
    (∀ result d, push (T := Control) (pushes Control (new L) chunks) chunk = (result, d) →
        Bounded L result d) ∧
      (∀ result d, push (T := IndexMessage) (pushes IndexMessage (new L) chunks) chunk =
        (result, d) → Bounded L result d) ∧
      ∀ result d, push (T := FileTransfer) (pushes FileTransfer (new L) chunks) chunk =
        (result, d) → Bounded L result d := by
  have hL : 3 ≤ L.maxFrameBytes.toNat := by
    unfold CodecLimits.new at hnew
    split_ifs at hnew with hframe
    · cases hnew
    · cases hnew
    · cases hnew
      exact not_lt.1 hframe
  exact ⟨bounded_push carefulFields_control hL chunks chunk,
    bounded_push carefulFields_index hL chunks chunk,
    bounded_push carefulFields_transfer hL chunks chunk⟩

/-- A header that declares too much is refused, and then a frame is cut off in its payload. -/
theorem run_bounded_two_chunks :
    CodecLimits.new 16 16 1 1 = .ok ⟨16, 16, 1, 1⟩ ∧
      ∃ (result : CodecResult (List Control)) (d : Decoder),
        push (pushes Control (new ⟨16, 16, 1, 1⟩) [[17]]) [3, 11] = (result, d) ∧
        Bounded ⟨16, 16, 1, 1⟩ result d ∧ d.expected = some 3 ∧ d.payload = [11] := by
  have hnew : CodecLimits.new 16 16 1 1 = .ok ⟨16, 16, 1, 1⟩ := by decide +kernel
  obtain ⟨hcontrol, -⟩ := run_bounded 16 16 1 1 _ hnew [[17]] [3, 11]
  exact ⟨hnew, _, _, rfl, hcontrol _ _ rfl, by decide +kernel, by decide +kernel⟩

end Decoder

end

end QuicSync
