import QuicSync.Filesystem.Scan
import QuicSync.Sync.Fidelity

/-!
# What a source sends

A connected destination names the files that it wants, and may name any path.  `sendFile` answers
with what `openRegular` opens.

* `sendFile_confined`: **read confinement**: what is sent depends on nothing but the unprotected
  entries below the root.
* `sends_only_managed_iff`: the source does not look at its ignore policy when it answers, so it
  sends only files that its scan emits if and only if the policy ignores no file that a request can
  name.
-/

namespace QuicSync

namespace Transfer

open Posix

/-! ### Confinement -/

theorem sourceContent_congr {w w' : World} {root : RootHandle}
    (h : SameBelow root w.tree w'.tree) (path : RelativePath) :
    sourceContent w root path = sourceContent w' root path := by
  obtain ⟨hopen, hcontent⟩ := openRegular_congr h path
  unfold sourceContent
  rw [← hopen]
  cases hfile : openRegular w root path with
  | error e => rfl
  | ok file =>
    cases file with
    | none => rfl
    | some file => exact congrArg Except.ok (hcontent file hfile)

theorem sendFileOn_congr {w w' : World} {root : RootHandle}
    (h : SameBelow root w.tree w'.tree) (setup : Setup) (limits : Limits)
    (stream : TransferStream) :
    sendFileOn setup limits w root stream = sendFileOn setup limits w' root stream := by
  have hcontent : sourceContent w root = sourceContent w' root := by
    funext path
    exact sourceContent_congr h path
  have hsend : sendFile setup w root = sendFile setup w' root := by
    unfold sendFile
    rw [hcontent]
  unfold sendFileOn
  rw [hsend]

/-- What leads on is a directory. -/
theorem Leads.isDir {t : Tree} {dir : Path} {cs p : List Bytes} (h : Leads t dir cs)
    (hp : p <+: cs) (hne : p ≠ []) : ∃ i, t.get (dir ++ p) = some i ∧ i.IsDir := by
  induction cs generalizing dir p with
  | nil => exact absurd (List.prefix_nil.1 hp) hne
  | cons c cs ih =>
    obtain ⟨-, ⟨i, hi, hdir, -⟩, hrest⟩ := h
    cases p with
    | nil => exact absurd rfl hne
    | cons d p =>
      obtain ⟨rfl, hrestp⟩ := List.cons_prefix_cons.1 hp
      by_cases hpnil : p = []
      · subst hpnil
        exact ⟨i, hi, hdir⟩
      · obtain ⟨j, hj, hjdir⟩ := ih hrest hrestp hpnil
        rw [List.append_assoc] at hj
        exact ⟨j, hj, hjdir⟩

/-- A path through a link, or to one, names no file. -/
theorem not_namesFile_of_symlink {t : Tree} {root : RootHandle} {path : RelativePath}
    {p : List Bytes} {target : Bytes} {mode : UInt32} {mtime : ℤ} (hp : p <+: path.components)
    (hne : p ≠ []) (hlink : t.get (root.path ++ p) = some ⟨.symlink target, mode, mtime⟩)
    (content : Bytes) : ¬ NamesFile t root path content := by
  rintro ⟨-, hleads, -, mode', mtime', hfile, -⟩
  by_cases heq : p = path.components
  · subst heq
    change t.get (root.path ++ path.components) = _ at hfile
    rw [hlink] at hfile
    cases hfile
  · -- a proper part of the path leads on
    have hdrop : p <+: path.components.dropLast := by
      obtain ⟨q, hq⟩ := hp
      have hqne : q ≠ [] := by
        rintro rfl
        exact heq (by rw [← hq, List.append_nil])
      rw [← hq, List.dropLast_append_of_ne_nil hqne]
      exact List.prefix_append _ _
    obtain ⟨i, hi, hdir⟩ := Leads.isDir hleads hdrop hne
    rw [hlink] at hi
    cases hi
    cases hdir

/-- **Read confinement of the source.**  File systems with the same unprotected entries below the
root give the same answer for every path, the same content, and so the same transfer on every
stream.  A protected path is refused, and a path through a link or to one gives no file. -/
theorem sendFile_confined :
    (∀ (w w' : World) (root : RootHandle), SameBelow root w.tree w'.tree →
      (∀ path, openRegular w root path = openRegular w' root path ∧
        ∀ file, openRegular w root path = .ok (some file) →
          contentOf w file = contentOf w' file) ∧
      ∀ setup limits stream, sendFileOn setup limits w root stream =
        sendFileOn setup limits w' root stream) ∧
    (∀ (w : World) (root : RootHandle) (path : RelativePath), ¬ Unprotected path →
      ∃ e, openRegular w root path = .error e) ∧
    ∀ (w : World) (root : RootHandle) (path : RelativePath) (p : List Bytes), p ≠ [] →
      p <+: path.components →
      (∃ target mode mtime, w.tree.get (root.path ++ p) = some ⟨.symlink target, mode, mtime⟩) →
      ∀ file, openRegular w root path ≠ .ok (some file) := by
  refine ⟨?_, ?_, ?_⟩
  · intro w w' root h
    exact ⟨openRegular_congr h, sendFileOn_congr h⟩
  · intro w root path hprot
    unfold openRegular
    cases hreject : rejectProtected path with
    | error e => exact ⟨e, rfl⟩
    | ok u => exact absurd (rejectProtected_eq_ok_iff.1 hreject) hprot
  · rintro w root path p hne hp ⟨target, mode, mtime, hlink⟩ file hfile
    obtain ⟨-, content, hnames⟩ := openRegular_eq_some_iff.1 hfile
    exact not_namesFile_of_symlink hp hne hlink content hnames

/-- The one-byte file system with one more entry. -/
def OneByte.extended (p : Path) (i : Inode) : World :=
  { OneByte.world [7] with tree := (OneByte.world [7]).tree.insert p i }

/-- A file outside the root does not matter, a path into `.git` is refused, and a link to a file
gives no file. -/
theorem sendFile_confined_outside :
    (∀ setup limits stream,
      sendFileOn setup limits (OneByte.world [7]) OneByte.exchange.root stream =
        sendFileOn setup limits (OneByte.extended [ascii "secret"] ⟨.file [1], 0o644, 0⟩)
          OneByte.exchange.root stream) ∧
    (∃ e, openRegular (OneByte.world [7]) OneByte.exchange.root
      ⟨[ascii ".git", ascii "x"], by decide, by decide⟩ = .error e) ∧
    ∀ file, openRegular (OneByte.extended [ascii "root", ascii "y"] ⟨.symlink (ascii "x"), 0o777, 0⟩)
      OneByte.exchange.root ⟨[ascii "y"], by decide, by decide⟩ ≠ .ok (some file) := by
  refine ⟨(sendFile_confined.1 _ _ _ ?_).2, sendFile_confined.2.1 _ _ _ (by decide),
    sendFile_confined.2.2 _ _ _ [ascii "y"] (by decide) (by decide)
      ⟨ascii "x", 0o777, 0, by decide +kernel⟩⟩
  intro p _
  unfold OneByte.extended
  rw [Tree.get_insert (by decide +kernel), if_neg]
  · exact SameEntry.refl _
  · intro h
    exact absurd (List.cons.inj h).1 (by decide)

/-! ### Requests for any path -/

/-- The path of the request on a stream that the source has sent frames for. -/
def answered (setup : Setup) (limits : Limits) (w : World) (root : RootHandle)
    (stream : TransferStream) : Option RelativePath :=
  match Wire.new stream limits with
  | .error _ => none
  | .ok wire =>
    match (receiveRequest.run wire).1 with
    | .error _ => none
    | .ok (_, path, _) =>
      if (sendFileOn setup limits w root stream).2.outgoing = stream.outgoing then none
      else some path

/-- The record of a path is among what a scan sends. -/
def Emits (items : List IndexItem) (path : RelativePath) : Prop :=
  ∃ r : IndexRecord, .ok (.record r) ∈ items ∧ r.path = path

/-- A request can name the path, and the source can open a file there. -/
def OpenToRequests (limits : Limits) (w : World) (root : RootHandle) (path : RelativePath) : Prop :=
  32 < limits.maxFrameBytes.toNat ∧
    Sendable (CodecLimits.ofLimits limits) (FileTransfer.createRequest ⟨0⟩ path) ∧
    ∃ content, NamesFile w.tree root path content

section

variable {setup : Setup} {limits : Limits} {w : World} {root : RootHandle} {path : RelativePath}
  {stream : TransferStream}

theorem new_eq_ok {wire : Wire} (h : Wire.new stream limits = .ok wire) :
    32 < limits.maxFrameBytes.toNat ∧ wire.stream = stream ∧
      wire.toCome = drain Decoder.push (Decoder.new (CodecLimits.ofLimits limits))
        stream.incoming := by
  obtain ⟨size, hsize, hwire⟩ := bind_eq_ok_iff.1 h
  obtain rfl := Except.ok.inj hwire
  refine ⟨?_, rfl, rfl⟩
  unfold chunkSize at hsize
  split_ifs at hsize
  omega

/-- A request for a path that is read can be sent. -/
theorem sendable_request {wire wire' : Wire} {id : OperationId} {update : Bool}
    (hnew : Wire.new stream limits = .ok wire)
    (h : receiveRequest.run wire = (.ok (id, path, update), wire')) :
    Sendable (CodecLimits.ofLimits limits) (FileTransfer.createRequest ⟨0⟩ path) := by
  obtain ⟨m, s₁, hnext, hrequest⟩ := Fallible.run_bind_ok_iff.1 h
  have hcome := (nextFrom_toCome hnext).symm
  change m :: s₁.toCome = wire.toCome at hcome
  have hmem : m ∈ drain Decoder.push (Decoder.new (CodecLimits.ofLimits limits))
      stream.incoming := by
    rw [← (new_eq_ok hnew).2.2, ← hcome]
    exact List.mem_cons_self
  have hsend : Sendable (CodecLimits.ofLimits limits) m :=
    (Decoder.good_new _).sendable_drain m hmem
  -- a request is as long as any other for the same path
  have hlen (id id' : OperationId) : (payload (FileTransfer.createRequest id path)).length =
      (payload (FileTransfer.updateRequest id' path)).length := by
    rw [length_payload, length_payload]
    change 3 + (Format.u64 id.get ++ Format.path path).length =
      3 + (Format.u64 id'.get ++ Format.path path).length
    simp only [List.length_append, Format.u64, LittleEndian.length_bytes]
  cases m with
  | createRequest id' path' =>
    cases hrequest
    exact ⟨hsend.1, (hlen ⟨0⟩ ⟨0⟩).trans_le ((hlen id ⟨0⟩).symm.trans_le hsend.2)⟩
  | updateRequest id' path' =>
    cases hrequest
    exact ⟨hsend.1, (hlen ⟨0⟩ id).trans_le hsend.2⟩
  | wholeFile bytes => cases hrequest
  | signature bytes => cases hrequest
  | signatureEnd => cases hrequest
  | delta bytes => cases hrequest
  | transferEnd => cases hrequest
  | transferAccepted id' => cases hrequest

/-- Reading the request sends nothing. -/
theorem receiveRequest_outgoing {wire wire' : Wire} {request : OperationId × RelativePath × Bool}
    (h : receiveRequest.run wire = (.ok request, wire')) :
    wire'.stream.outgoing = wire.stream.outgoing := by
  obtain ⟨m, s₁, hnext, hrequest⟩ := Fallible.run_bind_ok_iff.1 h
  obtain ⟨decoder, pending, incoming, hafter⟩ := Wire.nextFrom_after wire.stream.incoming wire
  rw [show Wire.nextFrom wire.stream.incoming wire = (.ok m, s₁) from hnext] at hafter
  change s₁ = _ at hafter
  subst hafter
  cases m with
  | createRequest id path =>
    cases hrequest
    rfl
  | updateRequest id path =>
    cases hrequest
    rfl
  | wholeFile bytes => cases hrequest
  | signature bytes => cases hrequest
  | signatureEnd => cases hrequest
  | delta bytes => cases hrequest
  | transferEnd => cases hrequest
  | transferAccepted id => cases hrequest

theorem namesFile_of_sourceContent {content : Bytes}
    (h : sourceContent w root path = .ok content) : ∃ content, NamesFile w.tree root path content := by
  obtain ⟨file, hopen, hfile⟩ := bind_eq_ok_iff.1 h
  cases file with
  | none => cases hfile
  | some file => exact (openRegular_eq_some_iff.1 hopen).2

/-- The source sends frames only for a path that is open to requests. -/
theorem openToRequests_of_answered (h : answered setup limits w root stream = some path) :
    OpenToRequests limits w root path := by
  unfold answered at h
  cases hnew : Wire.new stream limits with
  | error e =>
    rw [hnew] at h
    cases h
  | ok wire =>
    simp only [hnew] at h
    cases hrequest : receiveRequest.run wire with
    | mk result wire₁ =>
      simp only [hrequest] at h
      cases result with
      | error e => cases h
      | ok request =>
        obtain ⟨id, path', update⟩ := request
        simp only at h
        split_ifs at h with hsilent
        obtain rfl := Option.some.inj h
        refine ⟨(new_eq_ok hnew).1, sendable_request hnew hrequest, ?_⟩
        -- without a file the source fails before it sends anything
        cases hcontent : sourceContent w root path' with
        | ok content => exact namesFile_of_sourceContent hcontent
        | error e =>
          refine absurd ?_ hsilent
          have hfail : (Fallible.lift ((sourceContent w root path').mapError .error) :
              TransferM Bytes).run wire₁ = (.error (.error e), wire₁) := by
            rw [hcontent]
            rfl
          have hrun : (sendFile setup w root).run wire = (.error (.error e), wire₁) := by
            unfold sendFile
            rw [Fallible.run_bind_ok hrequest]
            exact Fallible.run_bind_error hfail
          unfold sendFileOn
          simp only [hnew, hrun]
          rw [receiveRequest_outgoing hrequest, (new_eq_ok hnew).2.1]

/-- The source sends frames for every path that is open to requests. -/
theorem exists_answered (hvalid : limits.validate = .ok limits) (hsetup : setup.Works)
    (h : OpenToRequests limits w root path) :
    ∃ stream, answered setup limits w root stream = some path := by
  obtain ⟨hmax, hsend, content, hfile⟩ := h
  obtain ⟨-, ⟨-, hle⟩, -⟩ := Limits.validate_eq_ok_iff.1 hvalid
  -- the request is one frame
  have hslice : (frame (FileTransfer.createRequest ⟨0⟩ path)).length ≤ isizeMax := by
    have hpayload : (payload (FileTransfer.createRequest ⟨0⟩ path)).length ≤
        limits.maxFrameBytes.toNat := hsend.2
    have hleb : (Leb128.encode (payload (FileTransfer.createRequest ⟨0⟩ path)).length).length ≤
        5 := by
      have hlt : (payload (FileTransfer.createRequest ⟨0⟩ path)).length < 2 ^ 35 := by
        unfold Config.maxFrameBytes at hle
        omega
      rw [length_encode_eq_prefixBytes hlt]
      unfold prefixBytes
      split_ifs <;> omega
    unfold frame isizeMax
    unfold Config.maxFrameBytes at hle
    rw [List.length_append]
    omega
  set bytes : Slice := ⟨frame (FileTransfer.createRequest ⟨0⟩ path), hslice⟩ with hbytes
  have hencode : encode (FileTransfer.createRequest ⟨0⟩ path) (CodecLimits.ofLimits limits) =
      .ok bytes := encode_eq_ok_iff.2 ⟨hsend, rfl⟩
  have hholds : (Exchange.openedWire limits [bytes.1] none).Holds
      (requests ⟨0⟩ path none ++ []) := by
    refine ⟨[.createRequest ⟨0⟩ path], Decoder.new (CodecLimits.ofLimits limits), ?_, rfl⟩
    change Decoder.push _ [bytes.1].flatten = _
    rw [List.flatten_singleton]
    exact wholeFrames_frame hencode
  have hopen := Exchange.open_openedWire limits [bytes.1] none
  obtain ⟨s₁, hrequest, -⟩ := Talks.receive_create _ [] hopen hholds
  obtain ⟨s₂, hrun, hs₂, -, hout₂⟩ := sendFile_requests hsetup hmax .create hfile hopen hholds
  have hout := awaitAccepted_outgoing ⟨0⟩ hmax hs₂
  refine ⟨openedStream limits [bytes.1] none, ?_⟩
  have hsent : (sendFileOn setup limits w root (openedStream limits [bytes.1] none)).2.outgoing ≠
      [] := by
    unfold sendFileOn
    rw [Exchange.new_openedStream hmax]
    simp only [hrun, hout]
    simp
  unfold answered
  rw [Exchange.new_openedStream hmax]
  simp only [hrequest]
  exact if_neg hsent

end

/-- Whatever requests are made, the source sends frames only for paths among what its scan sends. -/
def SendsOnlyEmitted (limits : Limits) (w : World) (root : RootHandle) (items : List IndexItem) :
    Prop :=
  ∀ setup : Setup, setup.Works → ∀ streams : List TransferStream,
    ∀ path ∈ streams.filterMap (answered setup limits w root), Emits items path

/-- Where a scan succeeds, it emits a file if and only if its policy manages the file and the
directories that lead to it. -/
theorem emits_iff {input : ScanInput} {crate : IgnoreCrate} {exclusions : List String}
    {closesAfter : Option ℕ} {policy : IgnorePolicy crate} {items : List IndexItem}
    (hdir : input.tree.IsDir input.root)
    (hpolicy : IgnorePolicy.withConfiguredExclusions exclusions = .ok policy)
    (hscan : scanRoot input crate exclusions closesAfter = (.ok (), items)) {path : RelativePath}
    {content : Bytes} {mode : UInt32} {mtime : ℤ}
    (hfile : input.tree.get (input.root ++ path.components) = some ⟨.file content, mode, mtime⟩) :
    Emits items path ↔ decisionIn input policy path false = .managed ∧
      Reached (decisionIn input policy) [] path := by
  obtain ⟨policy', hpolicy', records, rfl, hscanned⟩ := scanRoot_ok hdir hscan
  obtain rfl := Except.ok.inj (hpolicy.symm.trans hpolicy')
  obtain ⟨record, hrecord, hkind⟩ : ∃ r, entryRecord input path = some r ∧
      r.metadata.kind = .regularFile := exists_entryRecord hfile rfl
  have hmem (r : IndexRecord) : Except.ok (IndexMessage.record r) ∈
      records.map (fun r => (.ok (.record r) : IndexItem)) ++ [.ok .end] ↔ r ∈ records := by
    simp
  constructor
  · rintro ⟨r, hr, rfl⟩
    obtain ⟨-, hrecord', hmanaged, hreached⟩ := (hscanned.mem_iff r).1 ((hmem r).1 hr)
    obtain rfl := Option.some.inj (hrecord.symm.trans hrecord')
    rw [hkind] at hmanaged
    exact ⟨hmanaged, hreached⟩
  · rintro ⟨hmanaged, hreached⟩
    obtain ⟨hpath, -⟩ := entryRecord_some hrecord
    refine ⟨record, (hmem record).2 ((hscanned.mem_iff record).2 ⟨?_, ?_, ?_, ?_⟩), hpath⟩
    · exact ⟨path.components, path.ne_nil, by rw [hpath]; rfl⟩
    · rw [hpath]
      exact hrecord
    · rw [hpath, hkind]
      exact hmanaged
    · rw [hpath]
      exact hreached

/-- **When ignored files are not sent.**  Under limits that have been validated, the source sends
frames only for what its scan emits if and only if the scan emits every file that is open to
requests.  Where the scan succeeds, this is so if and only if the policy manages every such file and
the directories that lead to it. -/
theorem sends_only_managed_iff {limits : Limits} (hvalid : limits.validate = .ok limits)
    (crate : IgnoreCrate) (exclusions : List String) (closesAfter : Option ℕ) (w : World)
    (root : RootHandle) (directorySize : Path → UInt64) (blake3 : Bytes → Digest)
    {result : Except QuicSyncError Unit} {items : List IndexItem}
    (hscan : scanRoot ⟨w.tree, root.path, limits, directorySize, blake3⟩ crate exclusions
      closesAfter = (result, items)) :
    (SendsOnlyEmitted limits w root items ↔
      ∀ path, OpenToRequests limits w root path → Emits items path) ∧
    ∀ policy : IgnorePolicy crate, IgnorePolicy.withConfiguredExclusions exclusions = .ok policy →
      w.tree.IsDir root.path → result = .ok () →
      (SendsOnlyEmitted limits w root items ↔ ∀ path, OpenToRequests limits w root path →
        decisionIn ⟨w.tree, root.path, limits, directorySize, blake3⟩ policy path false = .managed ∧
        Reached (decisionIn ⟨w.tree, root.path, limits, directorySize, blake3⟩ policy) [] path) := by
  have hmain : SendsOnlyEmitted limits w root items ↔
      ∀ path, OpenToRequests limits w root path → Emits items path := by
    constructor
    · intro h path hopen
      -- a worker that reads one byte at a time
      let setup : Setup := ⟨⟨fun _ => .error "", fun _ _ => .error "", fun _ _ => .error ""⟩,
        fun _ => Incremental.singles, 1⟩
      have hworks : setup.Works := ⟨fun _ _ hn => Incremental.reads_singles hn _, Nat.one_pos⟩
      obtain ⟨stream, hanswered⟩ := exists_answered hvalid hworks hopen
      exact h setup hworks [stream] path (by simp [hanswered])
    · intro h setup _ streams path hpath
      obtain ⟨stream, -, hanswered⟩ := List.mem_filterMap.1 hpath
      exact h path (openToRequests_of_answered hanswered)
  refine ⟨hmain, ?_⟩
  rintro policy hpolicy hdir rfl
  rw [hmain]
  refine forall_congr' fun path => imp_congr_right fun hopen => ?_
  obtain ⟨-, -, content, -, -, -, mode, mtime, hfile, -⟩ := hopen
  exact emits_iff hdir hpolicy hscan hfile

/-! ### An excluded file -/

namespace Excluded

/-- A library for the rule `x` only. -/
def crate : IgnoreCrate where
  GitignoreBuilder := Unit
  Gitignore := Unit
  new _ := ()
  addLine _ _ _ := .ok ()
  build _ := .ok ()
  matchedPathOrAnyParents _ path _ := if path = ascii "x" then .ignore else .none

def root : RootHandle := ⟨[ascii "root"]⟩

def path : RelativePath := OneByte.exchange.path

def input : ScanInput :=
  ⟨(OneByte.world [7]).tree, root.path, defaultLimits, fun _ => 0, fun _ => .zero⟩

theorem policy_eq : IgnorePolicy.withConfiguredExclusions ["x"] =
    .ok (⟨[⟨none, ()⟩]⟩ : IgnorePolicy crate) := by
  have htext : String.fromUTF8? ⟨(String.intercalate "\n" ["x"]).toUTF8.toList.toArray⟩ =
      some "x" := by decide +kernel
  have hmatcher : buildMatcher crate none (String.intercalate "\n" ["x"]).toUTF8.toList =
      .ok () := by
    unfold buildMatcher
    rw [htext]
    rfl
  unfold IgnorePolicy.withConfiguredExclusions
  rw [if_neg (by decide)]
  unfold IgnorePolicy.addIgnoreContents
  rw [hmatcher]
  rfl

theorem scan_excluded : scanRoot input crate ["x"] none = (.ok (), [.ok .end]) := by
  unfold scanRoot
  rw [policy_eq]
  decide +kernel

/-- A stream with a request for the file. -/
def stream : TransferStream :=
  openedStream defaultLimits [frame (FileTransfer.createRequest ⟨0⟩ path)] none

theorem answered_stream :
    answered OneByte.setup defaultLimits (OneByte.world [7]) root stream = some path := by
  decide +kernel

def record : IndexRecord :=
  ⟨path, ⟨.regularFile, 0o644, .ofUInt64 0, 1⟩, some .zero, none⟩

/-- Without the exclusion the file is emitted. -/
theorem scan_included :
    scanRoot input crate [] none = (.ok (), [.ok (.record record), .ok .end]) := by
  decide +kernel

theorem get_world (q : Path) : (OneByte.world [7]).tree.get q =
    if q = [ascii "root", stagingName] then some ⟨.directory, 0o700, 0⟩
    else if q = [ascii "root", ascii "x"] then some ⟨.file [7], 0o644, 0⟩
    else if q = [ascii "root"] then some ⟨.directory, 0o755, 0⟩
    else if q = [] then some ⟨.directory, 0o755, 0⟩ else none := by
  unfold OneByte.world
  rw [Tree.get_insert (by decide), Tree.get_insert (by decide), Tree.get_insert (by decide),
    Tree.get_insert (by decide)]
  rfl

/-- The file is the only one. -/
theorem eq_path_of_open {p : RelativePath}
    (h : OpenToRequests defaultLimits (OneByte.world [7]) root p) : p = path := by
  obtain ⟨-, -, content, -, -, -, mode, mtime, hfile, -⟩ := h
  change (OneByte.world [7]).tree.get ([ascii "root"] ++ p.components) = _ at hfile
  rw [get_world] at hfile
  split_ifs at hfile with h₁ h₂
  · cases hfile
  · refine RelativePath.ext ?_
    exact List.append_cancel_left h₂
  · cases hfile
  · cases hfile

end Excluded

/-- A file that the configuration excludes is sent to a destination that asks for it. -/
theorem excluded_file_sent :
    ¬ ∀ (limits : Limits) (crate : IgnoreCrate) (exclusions : List String) (closesAfter : Option ℕ)
      (w : World) (root : RootHandle) (directorySize : Path → UInt64) (blake3 : Bytes → Digest),
      limits.validate = .ok limits → SendsOnlyEmitted limits w root
        (scanRoot ⟨w.tree, root.path, limits, directorySize, blake3⟩ crate exclusions
          closesAfter).2 := by
  intro h
  have hemits : Emits (scanRoot Excluded.input Excluded.crate ["x"] none).2 Excluded.path :=
    h defaultLimits Excluded.crate ["x"] none (OneByte.world [7]) Excluded.root
      Excluded.input.directorySize Excluded.input.blake3 (by decide) OneByte.setup OneByte.works
      [Excluded.stream] Excluded.path (by simp [Excluded.answered_stream])
  rw [Excluded.scan_excluded] at hemits
  obtain ⟨r, hr, -⟩ := hemits
  simp at hr

/-- Without exclusions the file is sent, and it is emitted. -/
theorem sends_only_managed_included :
    SendsOnlyEmitted defaultLimits (OneByte.world [7]) Excluded.root
      [.ok (.record Excluded.record), .ok .end] := by
  refine (sends_only_managed_iff (by decide) Excluded.crate [] none (OneByte.world [7])
    Excluded.root _ _ Excluded.scan_included).1.2 ?_
  intro path hopen
  obtain rfl := Excluded.eq_path_of_open hopen
  exact ⟨Excluded.record, List.mem_cons_self, rfl⟩

end Transfer

end QuicSync
