import QuicSync.Sync.Barrier
import QuicSync.Sync.Serving

/-!
# Both ends of a session

The source and the destination of one session, each with its tasks, over streams that deliver in
order.  An event is one of either end, so a run is any interleaving of the two.  What a stream has
delivered is at any time a part, from its start, of what has been written to it (`Delivered`).  Only
reading can break that, so this says what reads may return and leaves everything else free: the
streams and the connection can fail or close at any time, at one end or at both.

* `decoded_within`: a part of the destination's messages is decoded as the first of them.
* `Session.completion_agreement`: a source that succeeds has been told by a destination that has
  committed.
* `Session.handshake_gate`: what happens at each end before its handshake is confirmed.

The content of transfer streams is left free: nothing here depends on it.
-/

namespace QuicSync

open Posix

/-! ### The messages of the destination -/

/-- A message without fields. -/
def Bare (L : CodecLimits) (m : Control) : Prop :=
  WireFormat.Fits L m ∧ WireFormat.fields m = []

theorem bare_expectedControl (L : CodecLimits) : ∀ m ∈ expectedControl, Bare L m := by
  intro m hm
  simp only [expectedControl, List.mem_cons, List.not_mem_nil, or_false] at hm
  rcases hm with rfl | rfl | rfl
  · exact ⟨trivial, rfl⟩
  · exact ⟨trivial, rfl⟩
  · exact ⟨trivial, rfl⟩

theorem wholeFrames_bare {L : CodecLimits} {ms : List Control} (hmax : 3 ≤ L.maxFrameBytes.toNat)
    (h : ∀ m ∈ ms, Bare L m) : WholeFrames L (ms.flatMap frame) ms := by
  induction ms with
  | nil => exact WholeFrames.nil
  | cons m ms ih =>
    obtain ⟨hfits, hfields⟩ := h m List.mem_cons_self
    have hlength : (payload m).length = 3 := by
      rw [length_payload, hfields]
      rfl
    have hslice : (frame m).length ≤ isizeMax := by
      rw [frame, List.length_append, hlength, Leb128.encode_of_lt (by decide)]
      decide
    have hencode : encode m L = .ok ⟨frame m, hslice⟩ :=
      encode_eq_ok_iff.2 ⟨⟨hfits, hlength.trans_le hmax⟩, rfl⟩
    exact (wholeFrames_frame hencode).append (ih fun m hm => h m (List.mem_cons_of_mem _ hm))

/-- A part of a stream of messages is decoded as the first of them. -/
theorem decoded_within {L : CodecLimits} {ms out : List Control} {bytes : Bytes} {d : Decoder}
    (hms : ∀ m ∈ ms, Bare L m) (hbytes : bytes <+: ms.flatMap frame)
    (hpush : Decoder.push (Decoder.new L) bytes = (.ok out, d)) : out <+: ms := by
  cases out with
  | nil => exact List.nil_prefix
  | cons m out =>
    -- a message has been decoded, so the limits allow the others too
    have hmax : 3 ≤ L.maxFrameBytes.toNat := by
      have hsendable := (Decoder.good_new L).sendable_pushLoop hpush (fun _ hm => nomatch hm) m
        List.mem_cons_self
      have hlength := hsendable.2
      rw [length_payload] at hlength
      omega
    obtain ⟨rest, hrest⟩ := hbytes
    have hwhole := wholeFrames_bare hmax hms
    rw [WholeFrames, ← hrest] at hwhole
    obtain ⟨ms₁, ms₂, d₁, hfirst, -, heq⟩ := Decoder.incremental_push.push_append_ok hwhole
    rw [hpush] at hfirst
    cases hfirst
    exact ⟨ms₂, heq.symm⟩

theorem plannedFrames_eq :
    plannedFrames = [Control.startAccepted, Control.planEnd].flatMap frame := by
  simp only [plannedFrames, acceptedFrame, List.flatMap_cons, List.flatMap_nil, List.append_nil]

/-! ### Runs of both ends -/

/-- What the two ends are given. -/
structure Parties where
  source : Sourcing
  destination : Serving

/-- The state of both ends. -/
structure Session (n m : ℕ) where
  source : Source n
  destination : Destination m

/-- An event of one end. -/
inductive SessionEvent where
  | source (event : SourceEvent)
  | destination (event : ServeEvent)

namespace Session

variable {n m : ℕ}

/-- The streams have delivered nothing but what has been written to them, from its start, and no
more transfer streams have been accepted than were opened. -/
def Delivered (s : Session n m) : Prop :=
  s.source.controlRead <+: s.destination.control.bytes ∧
    s.destination.controlRead <+: s.source.control.bytes ∧
    s.destination.indexRead <+: s.source.index.bytes ∧
    s.source.accepted ≤ s.destination.requesting.opened.length

instance (s : Session n m) : Decidable s.Delivered := inferInstanceAs (Decidable (_ ∧ _))

def start (cfg : Parties) (connection connection' : Connection) (w : World) :
    Session cfg.source.capacity cfg.destination.capacity where
  source := .start cfg.source connection
  destination := .start cfg.destination connection' w

/-- One event of an end, as far as the streams allow it. -/
def step (cfg : Parties) (s : Session n m) (event : SessionEvent) : Option (Session n m) :=
  let next : Option (Session n m) := match event with
    | .source event => (s.source.step cfg.source event).map fun source => { s with source := source }
    | .destination event => (s.destination.step cfg.destination event).map fun destination =>
        { s with destination := destination }
  next.filter fun s => decide s.Delivered

/-- The states of a session on a destination that starts with the tree of `w`. -/
def Reachable (cfg : Parties) (connection connection' : Connection) (w : World)
    (s : Session cfg.source.capacity cfg.destination.capacity) : Prop :=
  Reaches (step cfg) (start cfg connection connection' w) s

/-- A step is one of either end. -/
theorem step_cases {cfg : Parties} {s s' : Session n m} {event : SessionEvent}
    (h : s.step cfg event = some s') :
    s'.Delivered ∧
      ((∃ e, s.source.step cfg.source e = some s'.source ∧ s'.destination = s.destination) ∨
        ∃ e, s.destination.step cfg.destination e = some s'.destination ∧ s'.source = s.source) := by
  obtain ⟨hnext, hdelivered⟩ := Option.filter_eq_some_iff.1 h
  refine ⟨of_decide_eq_true hdelivered, ?_⟩
  cases event with
  | source e =>
    obtain ⟨source, hstep, rfl⟩ := Option.map_eq_some_iff.1 hnext
    exact Or.inl ⟨e, hstep, rfl⟩
  | destination e =>
    obtain ⟨destination, hstep, rfl⟩ := Option.map_eq_some_iff.1 hnext
    exact Or.inr ⟨e, hstep, rfl⟩

/-- Each end of a session is in a state that it reaches by itself. -/
theorem Reachable.parts {cfg : Parties} {connection connection' : Connection} {w : World}
    {s : Session cfg.source.capacity cfg.destination.capacity}
    (h : s.Reachable cfg connection connection' w) :
    s.Delivered ∧ s.source.Reachable cfg.source connection ∧
      s.destination.Reachable cfg.destination connection' w := by
  refine Reaches.invariant (I := fun s : Session cfg.source.capacity cfg.destination.capacity =>
    s.Delivered ∧ s.source.Reachable cfg.source connection ∧
      s.destination.Reachable cfg.destination connection' w) h ⟨?_, ?_, ?_⟩ ?_
  · exact ⟨ List.nil_prefix, List.nil_prefix, List.nil_prefix, Nat.le_refl _⟩
  · exact Reaches.refl _ _
  · exact Reaches.refl _ _
  · rintro s e s' ⟨-, hsource, hdestination⟩ hstep
    obtain ⟨hdelivered, ⟨e, hone, heq⟩ | ⟨e, hone, heq⟩⟩ := step_cases hstep
    · exact ⟨hdelivered, hsource.tail hone, by rw [heq]; exact hdestination⟩
    · exact ⟨hdelivered, by rw [heq]; exact hsource, hdestination.tail hone⟩

/-- The invariants of the two ends. -/
theorem Reachable.inv {cfg : Parties} {connection connection' : Connection} {w : World}
    {s : Session cfg.source.capacity cfg.destination.capacity}
    (h : s.Reachable cfg connection connection' w) :
    s.Delivered ∧ s.source.Inv cfg.source ∧ s.destination.Inv cfg.destination w :=
  ⟨h.parts.1, h.parts.2.1.inv, h.parts.2.2.inv⟩

/-- What the source has decoded is what the destination has sent, up to some point. -/
theorem received_within {cfg : Parties} {w : World}
    {s : Session cfg.source.capacity cfg.destination.capacity} (hdelivered : s.Delivered)
    (hsource : s.source.Inv cfg.source) (hdestination : s.destination.Inv cfg.destination w)
    (hintact : s.source.serving.intact = true) (huncommitted : s.destination.committed ≠ some (.ok ())) :
    s.source.handled ++ s.source.messages.pending <+: [.startAccepted, .planEnd] := by
  obtain ⟨-, hbytes⟩ | hcommitted := hdestination.acknowledged
  · rw [plannedFrames_eq] at hbytes
    refine decoded_within (fun m hm => ?_) (hdelivered.1.trans hbytes) (hsource.received hintact)
    exact bare_expectedControl _ m ((List.prefix_append [Control.startAccepted, .planEnd] _).subset hm)
  · exact absurd hcommitted huncommitted

/-- **Agreement on completion.**  In every run of both ends, whatever fails or is lost, a source that
has succeeded belongs to a destination whose commit has succeeded, and every file job that it
accepted has been joined and has succeeded.  And in every run of the source, whatever it reads:
* its loop has taken exactly the three messages it expects when it is over;
* with any other message it fails, and the source does not succeed;
* no message is lost or taken twice: those taken and those waiting are the messages of all bytes
  read from the control stream. -/
theorem completion_agreement (cfg : Parties) (connection connection' : Connection) (w : World) :
    (∀ s : Session cfg.source.capacity cfg.destination.capacity,
      s.Reachable cfg connection connection' w → s.source.phase = .returned (.ok ()) →
      s.destination.committed = some (.ok ()) ∧ s.source.jobs = [] ∧
        s.source.results.length = s.source.accepted ∧
        ∀ result ∈ s.source.results, result = .ok ()) ∧
    ∀ s : Source cfg.source.capacity, s.Reachable cfg.source connection →
      (s.serving = .draining ∨ s.serving = .closing ∨ s.serving = .returned (.ok ()) →
        s.handled = expectedControl) ∧
      (¬ s.handled <+: expectedControl →
        (∃ e, s.serving = .returned (.error e)) ∧
        ∀ s', Reaches (Source.step cfg.source) s s' → s'.phase ≠ .returned (.ok ())) ∧
      (s.serving.intact = true →
        (Decoder.new (CodecLimits.ofLimits cfg.source.limits)).push s.controlRead =
          (.ok (s.handled ++ s.messages.pending), s.messages.decoder)) := by
  refine ⟨fun s h hphase => ?_, fun s h => ?_⟩
  · obtain ⟨hdelivered, hsource, hdestination⟩ := h.inv
    obtain ⟨hhandled, hintact, hjobs, hcount, hresults⟩ := hsource.succeeded hphase
    refine ⟨?_, hjobs, hcount, hresults⟩
    by_contra huncommitted
    -- then the acknowledgment has not been sent, so it cannot have been taken
    have hwithin := received_within hdelivered hsource hdestination hintact huncommitted
    rw [hhandled] at hwithin
    have hmem := hwithin.subset
      (List.mem_append_left _ (List.mem_of_getLast? (a := .completeAck) rfl))
    exact absurd hmem (by decide)
  · refine ⟨h.inv.handled.over, fun hother => ?_, h.inv.received⟩
    have hfailed := h.inv.handled.failed hother
    refine ⟨hfailed, fun s' hreaches => ?_⟩
    obtain ⟨e, hserving⟩ := hfailed
    exact Source.not_succeeded h.inv hserving hreaches

/-- **The handshake gate.**  In every run of both ends, with early data or without: before its
handshake is confirmed, the source has sent nothing but its first message, and the destination has
sent nothing, opened no transfer stream, staged nothing and changed nothing but the directory for
temporary files. -/
theorem handshake_gate (cfg : Parties) (connection connection' : Connection) (w : World)
    (s : Session cfg.source.capacity cfg.destination.capacity)
    (h : s.Reachable cfg connection connection' w) :
    (s.source.confirmed = false →
      s.source.control.sent <+: [.startSync cfg.source.rootId] ∧
      s.source.control.bytes <+: frame (Control.startSync cfg.source.rootId) ∧
      s.source.index = .empty IndexMessage ∧ s.source.accepted = 0 ∧ s.source.responses = []) ∧
    (s.destination.confirmed = false →
      s.destination.control = .empty Control ∧ s.destination.requesting.opened = [] ∧
      s.destination.requesting.jobs = [] ∧ s.destination.requesting.files = [] ∧
      OnlyStaging cfg.destination.root w s.destination.requesting.world) := by
  obtain ⟨-, hsource, hdestination⟩ := h.inv
  refine ⟨fun hconfirmed => ?_, fun hconfirmed => ?_⟩
  · obtain ⟨hindex, -, hresponses, haccepted, -⟩ := hsource.unconfirmed hconfirmed
    exact ⟨hsource.control.1, hsource.control.2, hindex, haccepted, hresponses⟩
  · obtain ⟨hcontrol, hemitted, hplanning⟩ := hdestination.unconfirmed hconfirmed
    -- without operations there is nothing to request
    have htaken : s.destination.requesting.taken = [] := by
      have hflow := hdestination.flow
      rw [hemitted] at hflow
      exact (List.append_eq_nil_iff.1 hflow).1
    have hnone {α : Type} {l : List α} {f : α → Operation}
        (hl : ∀ a ∈ l, f a ∈ s.destination.requesting.taken) : l = [] := by
      refine List.eq_nil_iff_forall_not_mem.2 fun a ha => ?_
      have hmem := hl a ha
      rw [htaken] at hmem
      cases hmem
    obtain ⟨hopened, hjobs, hretained⟩ := hdestination.accounts.origin
    have hjobs := hnone hjobs
    have hfiles : s.destination.requesting.files = [] := by
      unfold Requester.files Requester.retainedFiles
      rw [hjobs, hnone hretained]
      rfl
    have hcommitted : s.destination.committed = none := by
      by_contra hne
      have hresult := hdestination.joined (Or.inr hne) .planning
      have hreturned := Destination.resultOf_planning hresult
      rcases hplanning with heq | ⟨e, heq⟩
      · rw [hreturned] at heq
        cases heq
      · rw [hreturned] at heq
        cases heq
    exact ⟨hcontrol, hnone hopened, hjobs, hfiles, (hdestination.stages hcommitted).onlyStaging⟩

end Session

/-! ### A session of both ends

The destination of the sample with its source.  The index and the request for the file cross each
other on their streams. -/

namespace Sample

def parties : Parties where
  source := ⟨defaultLimits, "root", (.ok (), stream (source 0o755))⟩
  destination := serving

/-- What can happen before the handshakes are confirmed: both ends scan their roots. -/
def untilScanned : List SessionEvent :=
  [.source (.start (.ok ()) none (.ok ())),
    .destination (.start [Wire.startFrame] (.ok [7]) (.ok ())), .destination (.request .openArea),
    .source .scan, .source .scan, .destination .scan, .source .scan, .source .scan,
    .destination .scan, .destination .scan]

/-- The index is sent, and the destination requests the file. -/
def untilServed : List SessionEvent :=
  [.source (.confirmIndexing (.ok true) none), .source (.sendIndex none),
    .source (.sendIndex none), .source (.sendIndex none), .source (.finishIndex (.ok ())),
    .source (.confirmServing (.ok true) none)] ++
  List.map .destination [.readIndex (.ok indexBytes), .forward, .confirm (.ok true) none,
    .accept none, .plan, .plan, .plan, .forward, .plan, .plan, .plan, .plan,
    .request (.receive upsert), .request (.openStream (.ok ()))] ++
  List.map .source [.readControl (.ok (some acceptedFrame)), .handle, .accept (.ok (some ())),
    .job 0 (.respond []), .job 0 (.return (.ok ())), .joinJob 0]

/-- The destination commits, and both ends return. -/
def untilReturned : List SessionEvent :=
  List.map .destination [.request (.job 0 (.create (Vector.replicate 16 0))), .forward, .plan,
    .plan, .request (.job 0 (.write [])), .endPlan none, .closeOperations, .request .ended,
    .request (.job 0 .finish), .request (.join 0), .request .finish, .join, .commit (.ok ()),
    .acknowledge none] ++
  List.map .source [.readControl (.ok (some (frame Control.planEnd))), .handle,
    .readControl (.ok (some (frame Control.completeAck))), .handle, .drained, .closed, .join]

/-- Both ends after some events. -/
def bothAfter (events : List SessionEvent) :
    Option (Session parties.source.capacity parties.destination.capacity) :=
  events.foldlM (Session.step parties)
    (Session.start parties connection connection (world 0o755))

/-- The source has succeeded with one file. -/
def served (s : Session parties.source.capacity parties.destination.capacity) : Bool :=
  decide (s.source.accepted = 1) && match s.source.phase with
    | .returned (.ok ()) => true
    | _ => false

theorem served_untilReturned :
    (bothAfter (untilScanned ++ untilServed ++ untilReturned)).any served = true := by
  decide +kernel

/-- The source has sent its first message, and neither end has confirmed its handshake. -/
def gated (s : Session parties.source.capacity parties.destination.capacity) : Bool :=
  decide (s.source.control.sent = [.startSync "root"]) && !s.source.confirmed &&
    !s.destination.confirmed

theorem gated_untilScanned : (bothAfter untilScanned).any gated = true := by
  decide +kernel

/-- A source that is told the end of a plan first. -/
def outOfOrder : Option (Source parties.source.capacity) :=
  List.foldlM (Source.step parties.source) (Source.start parties.source connection)
    [.start (.ok ()) none (.ok ()), .confirmServing (.ok true) none,
      .readControl (.ok (some (frame Control.planEnd))), .handle]

theorem outOfOrder_any : outOfOrder.any (fun s => decide (s.handled = [.planEnd])) = true := by
  decide +kernel

end Sample

open Sample in
/-- The session of the sample succeeds at both ends, and a source that is told the end of a plan
first fails. -/
theorem completion_agreement_one_file :
    (∃ s : Session parties.source.capacity parties.destination.capacity,
      s.Reachable parties connection connection (world 0o755) ∧
      s.source.phase = .returned (.ok ()) ∧ s.destination.committed = some (.ok ()) ∧
      s.source.results = [.ok ()]) ∧
    ∃ s : Source parties.source.capacity, s.Reachable parties.source connection ∧
      s.handled = [.planEnd] ∧ ∃ e, s.serving = .returned (.error e) := by
  obtain ⟨hboth, hsource⟩ :=
    Session.completion_agreement parties connection connection (world 0o755)
  constructor
  · obtain ⟨s, hs, hserved⟩ := (Option.any_eq_true _ _).1 served_untilReturned
    simp only [served, Bool.and_eq_true, decide_eq_true_eq] at hserved
    have hphase : s.source.phase = .returned (.ok ()) := by
      cases hphase : s.source.phase with
      | returned result =>
        cases result with
        | ok _ => rfl
        | error e => simp [hphase] at hserved
      | _ => simp [hphase] at hserved
    obtain ⟨hcommitted, -, hcount, hresults⟩ := hboth s ⟨_, hs⟩ hphase
    refine ⟨s, ⟨_, hs⟩, hphase, hcommitted, ?_⟩
    rw [hserved.1] at hcount
    exact List.eq_replicate_iff.2 ⟨hcount, hresults⟩
  · obtain ⟨s, hs, hhandled⟩ := (Option.any_eq_true _ _).1 outOfOrder_any
    have hhandled := of_decide_eq_true hhandled
    obtain ⟨-, hother, -⟩ := hsource s ⟨_, hs⟩
    refine ⟨s, ⟨_, hs⟩, hhandled, (hother ?_).1⟩
    rw [hhandled]
    decide

open Sample in
/-- Both ends of the sample get as far as the gate. -/
theorem handshake_gate_sample : ∃ s : Session parties.source.capacity parties.destination.capacity,
    s.Reachable parties connection connection (world 0o755) ∧
      s.source.confirmed = false ∧ s.destination.confirmed = false ∧
      s.source.control.sent = [.startSync "root"] ∧ s.source.index = .empty IndexMessage ∧
      s.destination.control = .empty Control ∧
      OnlyStaging root (world 0o755) s.destination.requesting.world := by
  obtain ⟨s, hs, hgated⟩ := (Option.any_eq_true _ _).1 gated_untilScanned
  simp only [gated, Bool.and_eq_true, decide_eq_true_eq, Bool.not_eq_true'] at hgated
  obtain ⟨⟨hsent, hconfirmed⟩, hconfirmed'⟩ := hgated
  obtain ⟨hsource, hdestination⟩ :=
    Session.handshake_gate parties connection connection (world 0o755) s ⟨_, hs⟩
  obtain ⟨-, -, hindex, -⟩ := hsource hconfirmed
  obtain ⟨hcontrol, -, -, -, honly⟩ := hdestination hconfirmed'
  exact ⟨s, ⟨_, hs⟩, hconfirmed, hconfirmed', hsent, hindex, hcontrol, honly⟩

end QuicSync
