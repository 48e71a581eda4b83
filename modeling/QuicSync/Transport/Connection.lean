import QuicSync.Sync.Wire

/-!
# A session's connection

What the two endpoints of a session use of their connection: the gate at the end of the handshake
(`Connection.confirmHandshake`), a stream in one direction (`Outgoing`), and how a session ends
(`Completion`).

A stream may fail within a frame, so the bytes written can be more than those of the messages that
were sent.
-/

namespace QuicSync

/-- What an endpoint knows of the handshake of its connection. -/
structure Connection where
  /-- The first message was sent before the handshake was over. -/
  attemptedEarly : Bool
  /-- The handshake is still going on: its outcome has to be awaited. -/
  earlyHandshake : Bool
  /-- Whether early data has been accepted, once it is known. -/
  handshakeAccepted : Option Bool

namespace Transport

def unavailable (diagnostic : String) : QuicSyncError :=
  QuicSyncError.new .transportUnavailable none (.text diagnostic)

def authentication (diagnostic : String) : QuicSyncError :=
  QuicSyncError.new .authenticationFailed (some .handshake) (.text diagnostic)

end Transport

namespace Connection

/-- The gate that only the first message may precede.  `handshake` is what waiting for the handshake
returns, and `closeReason` is why the connection has been closed by then, if it has. -/
def confirmHandshake (c : Connection) (handshake : Except QuicSyncError Bool)
    (closeReason : Option QuicSyncError) : Except QuicSyncError Unit × Connection :=
  let accepted : Except QuicSyncError Bool := match c.handshakeAccepted with
    | some accepted => .ok accepted
    | none => if c.earlyHandshake then handshake else .ok true
  match accepted with
  | .error e => (.error e, c)
  | .ok accepted =>
    let c := { c with handshakeAccepted := some accepted }
    match closeReason with
    | some e => (.error e, c)
    | none =>
      -- the server's value says nothing
      if accepted || !c.attemptedEarly then (.ok (), c)
      else (.error (Transport.unavailable "early notification rejected; start a fresh sync"), c)

end Connection

/-- Whether a session ended with an observed completion acknowledgment. -/
inductive Completion where
  | acknowledged
  | unknown
  deriving DecidableEq

/-- A session without an acknowledgment is indeterminate, however cleanly the transport closed. -/
def Completion.intoResult : Completion → Except QuicSyncError Unit
  | acknowledged => .ok ()
  | unknown => .error (QuicSyncError.new .completionUnknown (some .complete)
      (.text "session closed without a completion acknowledgment"))

/-! ### Sending -/

/-- The outgoing direction of a stream: the messages sent, and all the bytes written. -/
structure Outgoing (T : Type) where
  sent : List T
  bytes : Bytes

namespace Outgoing

variable {T : Type} [WireMessage T]

def empty (T : Type) : Outgoing T := ⟨[], []⟩

/-- Send a message.  A fault is a number of bytes after which writing fails, and its error. -/
def send (out : Outgoing T) (limits : Limits) (message : T) (fault : Option (ℕ × QuicSyncError)) :
    Except (Abort QuicSyncError) Unit × Outgoing T :=
  match Wire.encode message limits with
  | .error e => (.error e, out)
  | .ok frame =>
    match sendBounded (TransportBounds.fromLimits limits) (fun _ => .ok ()) frame.1 with
    | .error e => (.error (.error e), out)
    | .ok () =>
      match fault with
      | none => (.ok (), ⟨out.sent ++ [message], out.bytes ++ frame.1⟩)
      | some (n, e) => (.error (.error e), { out with bytes := out.bytes ++ frame.1.take n })

variable [WireFormat T] {out out' : Outgoing T} {limits : Limits} {message : T}
  {fault : Option (ℕ × QuicSyncError)}

theorem encode_frame {w : Slice} (h : Wire.encode message limits = .ok w) :
    w.1 = frame message := by
  unfold Wire.encode at h
  cases hencode : QuicSync.encode message (CodecLimits.ofLimits limits) with
  | error e =>
    rw [hencode] at h
    cases h
  | ok w' =>
    rw [hencode] at h
    cases h
    exact (encode_eq_ok_iff.1 hencode).2

/-- A message that is sent is written as a whole. -/
theorem send_ok (h : out.send limits message fault = (.ok (), out')) :
    out' = ⟨out.sent ++ [message], out.bytes ++ frame message⟩ := by
  unfold send at h
  split at h
  · cases h
  · rename_i w hencode
    split at h
    · cases h
    · split at h
      · cases h
        rw [encode_frame hencode]
      · cases h

/-- Of a message that is not sent, some bytes may have been written. -/
theorem send_error {e : Abort QuicSyncError}
    (h : out.send limits message fault = (.error e, out')) :
    ∃ n, out' = { out with bytes := out.bytes ++ (frame message).take n } := by
  have hnone : out = { out with bytes := out.bytes ++ (frame message).take 0 } := by
    rw [List.take_zero, List.append_nil]
  unfold send at h
  split at h
  · cases h
    exact ⟨0, hnone⟩
  · rename_i w hencode
    split at h
    · cases h
      exact ⟨0, hnone⟩
    · split at h
      · cases h
      · rename_i n e'
        cases h
        exact ⟨n, by rw [encode_frame hencode]⟩

end Outgoing

end QuicSync
