import QuicSync.Process.Shared
import QuicSync.Transport.Connection

/-!
# Sessions of an endpoint

What the connections of a process share and how the calls on them end.  `Session` is what all streams
of one connection share, `Call` is a call that has not returned yet, and `Call.poll` is what a call
does when it is polled.  `Link` is a session with the calls on it, the transfer streams that are held
and the task that watches the connection; `Endpoint` is a process with any number of them and the
token they were given.

The QUIC library is the environment: when a call is polled it may be ready or not, and a connection
may be lost at any time.  It reports one reason for the end of a connection.  When this side closes a
connection that has already ended, the reason may stay the earlier one or become the local close.
-/

namespace QuicSync

namespace Transport

/-! ### Failures -/

/-- How a connection has ended. -/
inductive CloseKind where
  | versionMismatch
  | transportError (code : UInt64)
  | connectionClosed (code : UInt64)
  | applicationClosed (code : UInt64)
  | reset
  | timedOut
  | locallyClosed
  | cidsExhausted
  deriving DecidableEq

/-- The library's error for the end of a connection, with its text. -/
structure ConnectionError where
  kind : CloseKind
  text : String
  deriving DecidableEq

/-- The library's error for writing to a stream, reading from it or waiting for its end. -/
inductive StreamError where
  | connectionLost (error : ConnectionError)
  | other (text : String)
  deriving DecidableEq

/-- TLS alerts are among the codes of transport errors. -/
def isCrypto (code : UInt64) : Bool := 0x100 ≤ code && code < 0x200

def cancelled (action : String) : QuicSyncError :=
  QuicSyncError.new .cancelled none (.text (action ++ ": session was cancelled"))

def configuration (diagnostic : String) : QuicSyncError :=
  QuicSyncError.new .invalidConfiguration none (.text diagnostic)

/-- Maps a failure of the transport onto the stable error codes. -/
class TransportFailure (E : Type) where
  describe : E → String → QuicSyncError

export TransportFailure (describe)

def CloseKind.rejectedHandshake : CloseKind → Bool
  | .transportError code => isCrypto code
  | .connectionClosed code => isCrypto code
  | _ => false

instance instTransportFailureConnectionError : TransportFailure ConnectionError where
  describe error action :=
    if error.kind.rejectedHandshake then
      authentication (action ++ ": peer rejected the TLS handshake")
    else unavailable (action ++ ": " ++ error.text)

instance instTransportFailureStreamError : TransportFailure StreamError where
  describe error action := match error with
    | .connectionLost error => describe error action
    | .other text => unavailable (action ++ ": " ++ text)

/-- The error of a semaphore that has been closed. -/
instance instTransportFailureAcquireError : TransportFailure Unit where
  describe _ action := QuicSyncError.new .internal none
    (.text (action ++ ": transfer capacity is no longer available"))

/-! ### Sessions -/

/-- A handshake that has to be awaited: a future that must not be polled again once it is over. -/
inductive Handshake where
  | pending
  | finished
  deriving DecidableEq

/-- What all streams of one connection share. -/
structure Session where
  bounds : TransportBounds
  /-- This session has cancelled its token. -/
  cancel : Bool
  /-- Why the connection has ended. -/
  closeReason : Option ConnectionError
  transferPermits : Semaphore
  attemptedEarly : Bool
  /-- The handshake, if it was not over when the session started. -/
  earlyHandshake : Option Handshake
  /-- The lock around the handshake. -/
  handshakeLock : Semaphore
  handshakeAccepted : OnceCell Bool
  deriving DecidableEq

namespace Session

def new (bounds : TransportBounds) (handshake : Option Handshake) (attemptedEarly : Bool) :
    Session where
  bounds := bounds
  cancel := false
  closeReason := none
  transferPermits := Semaphore.new bounds.maxParallelTransfers.toNat
  attemptedEarly := attemptedEarly
  earlyHandshake := handshake
  handshakeLock := Semaphore.new 1
  handshakeAccepted := .empty

/-- The connection ended with a clean close, of this program at either side. -/
def closedCleanly (s : Session) : Bool :=
  match s.closeReason with
  | some ⟨.applicationClosed code, _⟩ => code == 0
  | some ⟨.locallyClosed, _⟩ => true
  | _ => false

/-- Why a call stopped: a lost connection explains itself, otherwise the call was cancelled. -/
def interrupted (s : Session) (action : String) : QuicSyncError :=
  match s.closeReason with
  | some error => if s.closedCleanly then cancelled action else describe error action
  | none => cancelled action

/-- A poll of an operation of the library, under the session's token.  The cancellation comes first;
without it the call waits until the operation is `ready`. -/
def guardedIn {E α : Type} [TransportFailure E] (s : Session) (tokenCancelled : Bool)
    (action : String) (ready : Option (Except E α)) : Option (Except QuicSyncError α) :=
  if tokenCancelled then some (.error (s.interrupted action))
  else ready.map fun result => result.mapError (describe · action)

/-- Close the connection.  `report` is what the library reports from then on: the local close, or,
for a connection that has already ended, still the reason it reported before. -/
def close (s : Session) (report : Option ConnectionError) : Option Session :=
  match report with
  | some error => if error.kind = .locallyClosed then some { s with closeReason := error } else none
  | none => if s.closeReason.isSome then some s else none

/-- The session as its two users see it. -/
def connection (s : Session) : Connection where
  attemptedEarly := s.attemptedEarly
  earlyHandshake := s.earlyHandshake.isSome
  handshakeAccepted := s.handshakeAccepted.get

/-- The end of the gate, once it is known whether early data has been accepted. -/
def gate (s : Session) (accepted : Bool) : Except QuicSyncError Unit :=
  match s.closeReason with
  | some error => .error (describe error "handshake")
  | none =>
    if accepted || !s.attemptedEarly then .ok ()
    else .error (unavailable "early notification rejected; start a fresh sync")

end Session

/-! ### Calls -/

/-- The side that starts a transfer. -/
inductive Origin where
  /-- `TransferOpener.open` -/
  | opened
  /-- `TransferAcceptor.accept` -/
  | accepted
  deriving DecidableEq

def Origin.action : Origin → String
  | opened => "open transfer stream"
  | accepted => "accept transfer stream"

/-- A call on a session that has not returned yet. -/
inductive Call where
  /-- A transfer waits for a permit. -/
  | reserving (origin : Origin)
  /-- A transfer with a permit waits for its stream. -/
  | establishing (origin : Origin)
  /-- Any other guarded operation: to send, to receive, to open or flush another stream. -/
  | acting (action : String)
  /-- `confirmHandshake` waits for the outcome of the handshake. -/
  | confirming
  /-- It is to find out the outcome, and waits for the lock. -/
  | locking
  /-- It has the lock and waits for the handshake. -/
  | awaiting
  deriving DecidableEq

/-- What an operation of the library is ready with when it is polled. -/
inductive Ready where
  | pending
  | done
  | failed (error : StreamError)
  | accepted (value : Bool)
  deriving DecidableEq

/-- The result of an operation that is ready. -/
def Ready.result : Ready → Option (Except StreamError Unit)
  | done => some (.ok ())
  | failed error => some (.error error)
  | _ => none

/-- What the library can be ready with: a lost connection is reported with its reason. -/
def Ready.Possible (s : Session) (ready : Ready) : Prop :=
  ∀ error, ready = .failed (.connectionLost error) → s.closeReason = some error

instance Ready.instDecidablePossible (s : Session) : (ready : Ready) → Decidable (ready.Possible s)
  | .failed (.connectionLost error) => decidable_of_iff (s.closeReason = some error)
      ⟨fun h _ he => by cases he; exact h, fun h => h error rfl⟩
  | .failed (.other _) => isTrue fun _ he => nomatch he
  | .pending => isTrue fun _ he => nomatch he
  | .done => isTrue fun _ he => nomatch he
  | .accepted _ => isTrue fun _ he => nomatch he

/-- What a call returns. -/
inductive Outcome where
  /-- A transfer stream, which holds a permit until it is dropped. -/
  | transfer
  /-- `accept` found that the peer is done. -/
  | ended
  /-- The operation has succeeded. -/
  | done
  | failed (error : QuicSyncError)
  /-- The call has panicked. -/
  | panicked
  deriving DecidableEq

def Outcome.ofExcept : Except QuicSyncError Unit → Outcome
  | .ok () => done
  | .error error => failed error

namespace Call

/-- A poll of a call: the session after it, with the call as it goes on or what it returns.  It is
none while the call waits. -/
def poll (tokenCancelled : Bool) (ready : Ready) (s : Session) :
    Call → Option (Session × (Call ⊕ Outcome))
  | reserving origin =>
    match s.guardedIn tokenCancelled "reserve transfer capacity" s.transferPermits.acquire with
    | none => none
    | some (.error error) => some (s, .inr (.failed error))
    | some (.ok permits) => some ({ s with transferPermits := permits }, .inl (establishing origin))
  | establishing origin =>
    match s.guardedIn tokenCancelled origin.action ready.result with
    | none => none
    | some (.ok ()) => some (s, .inr .transfer)
    | some (.error error) =>
      -- the permit is dropped with the call; only a clean close ends the loop of an acceptor
      some ({ s with transferPermits := s.transferPermits.release },
        .inr (if origin = .accepted ∧ s.closedCleanly then .ended else .failed error))
  | acting action =>
    match s.guardedIn tokenCancelled action ready.result with
    | none => none
    | some result => some (s, .inr (Outcome.ofExcept result))
  | confirming =>
    match s.handshakeAccepted with
    | .initialized accepted => some (s, .inr (Outcome.ofExcept (s.gate accepted)))
    | .initializing => none
    | .empty => some ({ s with handshakeAccepted := .initializing }, .inl locking)
  | locking =>
    match s.handshakeLock.acquire with
    | none => none
    | some (.error _) => some (s, .inr .panicked)
    | some (.ok lock) =>
      match s.earlyHandshake with
      | some _ => some ({ s with handshakeLock := lock }, .inl awaiting)
      | none => some ({ s with handshakeAccepted := .initialized true },
          .inr (Outcome.ofExcept (s.gate true)))
  | awaiting =>
    match s.earlyHandshake, ready with
    | some .pending, .accepted value =>
      some ({ s with
          earlyHandshake := some .finished
          handshakeLock := s.handshakeLock.release
          handshakeAccepted := .initialized value },
        .inr (Outcome.ofExcept (s.gate value)))
    | some .pending, _ =>
      if tokenCancelled then
        some ({ s with
            handshakeLock := s.handshakeLock.release
            handshakeAccepted := .empty },
          .inr (.failed (s.interrupted "handshake")))
      else none
    | _, _ => some (s, .inr .panicked)

/-- A call is given up: it is dropped, with what it holds. -/
def abandon (s : Session) : Call → Session
  | establishing _ => { s with transferPermits := s.transferPermits.release }
  | locking => { s with handshakeAccepted := .empty }
  | awaiting => { s with
      handshakeLock := s.handshakeLock.release
      handshakeAccepted := .empty }
  | _ => s

/-- How a call starts. -/
def Starts : Call → Prop
  | reserving _ => True
  | acting _ => True
  | confirming => True
  | _ => False

instance instDecidableStarts : (call : Call) → Decidable call.Starts
  | reserving _ => isTrue trivial
  | acting _ => isTrue trivial
  | confirming => isTrue trivial
  | establishing _ => isFalse id
  | locking => isFalse id
  | awaiting => isFalse id

/-- The call holds a transfer permit. -/
def holdsPermit : Call → Bool
  | establishing _ => true
  | _ => false

/-- The call holds the lock around the handshake. -/
def holdsLock : Call → Bool
  | awaiting => true
  | _ => false

/-- The call is the one that finds out the outcome of the handshake. -/
def initializes : Call → Bool
  | locking => true
  | awaiting => true
  | _ => false

end Call

/-! ### Links -/

/-- A session with everything that uses it. -/
structure Link where
  session : Session
  /-- The session was given the token of its endpoint itself, and not a child of it. -/
  dialled : Bool
  calls : List Call
  /-- The number of transfer streams that are held. -/
  transfers : ℕ
  /-- The task that watches the connection has not seen its end. -/
  watching : Bool
  /-- `Connection::cancel` has been called, and may be about to close the connection. -/
  cancelling : Bool
  /-- The session has not been dropped. -/
  live : Bool

inductive LinkEvent where
  /-- A task calls. -/
  | call (call : Call)
  /-- The `k`-th of the calls is polled. -/
  | poll (k : ℕ) (ready : Ready)
  /-- The `k`-th of the calls is dropped. -/
  | abandon (k : ℕ)
  /-- A transfer stream is dropped. -/
  | dropTransfer
  /-- The connection ends, other than by this side. -/
  | lose (error : ConnectionError)
  /-- The task that watches the connection sees its end. -/
  | watch
  /-- The token of the session is cancelled: the first half of `Connection::cancel`. -/
  | cancel
  /-- This side closes the connection: the second half of `Connection::cancel`, or the end of the
  listener. -/
  | close (report : Option ConnectionError)
  /-- The last that uses the session goes, and the session with it. -/
  | drop (report : Option ConnectionError)
  deriving DecidableEq

namespace Link

def new (session : Session) (dialled : Bool) : Link where
  session := session
  dialled := dialled
  calls := []
  transfers := 0
  watching := true
  cancelling := false
  live := true

def step (tokenCancelled listenerClosed : Bool) (l : Link) :
    LinkEvent → Option (Link × Option Outcome)
  | .call call =>
    if l.live ∧ call.Starts then some ({ l with calls := l.calls ++ [call] }, none) else none
  | .poll k ready =>
    match l.calls[k]? with
    | none => none
    | some call =>
      if ready.Possible l.session then
        match call.poll tokenCancelled ready l.session with
        | none => none
        | some (session, .inl call') =>
          some ({ l with session := session, calls := l.calls.set k call' }, none)
        | some (session, .inr outcome) =>
          some ({ l with
            session := session
            calls := l.calls.eraseIdx k
            transfers := if outcome = .transfer then l.transfers + 1 else l.transfers },
            some outcome)
      else none
  | .abandon k =>
    match l.calls[k]? with
    | none => none
    | some call =>
      some ({ l with session := call.abandon l.session, calls := l.calls.eraseIdx k }, none)
  | .dropTransfer =>
    match l.transfers with
    | 0 => none
    | n + 1 => some ({ l with
        session := { l.session with transferPermits := l.session.transferPermits.release }
        transfers := n }, none)
  | .lose error =>
    if l.session.closeReason = none ∧ error.kind ≠ .locallyClosed then
      some ({ l with session := { l.session with closeReason := error } }, none)
    else none
  | .watch =>
    match l.session.closeReason with
    | none => none
    | some error =>
      if l.watching then
        some ({ l with
          session := { l.session with
            cancel := if error.kind = .locallyClosed then l.session.cancel else true }
          watching := false }, none)
      else none
  | .cancel =>
    if l.live then
      some ({ l with session := { l.session with cancel := true }, cancelling := true }, none)
    else none
  | .close report =>
    if l.live ∧ (l.cancelling ∨ listenerClosed ∧ l.dialled = false) then
      (l.session.close report).map fun session => ({ l with session := session }, none)
    else none
  | .drop report =>
    if l.live ∧ l.calls = [] ∧ l.transfers = 0 then
      (l.session.close report).map fun session =>
        ({ l with session := session, live := false }, none)
    else none

end Link

/-! ### Endpoints -/

/-- The outcome of an operation of the library under a token alone. -/
def guarded {E α : Type} [TransportFailure E] (tokenCancelled : Bool) (action : String)
    (result : Except E α) : Except QuicSyncError α :=
  if tokenCancelled then .error (cancelled action) else result.mapError (describe · action)

/-- The outcome of an operation that does not fail under a token alone. -/
def guardedInfallible {α : Type} (tokenCancelled : Bool) (action : String) (value : α) :
    Except QuicSyncError α :=
  if tokenCancelled then .error (cancelled action) else .ok value

/-- A process: the token that it gave to its listener and to its connections, and the sessions. -/
structure Endpoint where
  /-- The bounds of the listener. -/
  bounds : TransportBounds
  /-- Somebody outside the sessions has cancelled the token. -/
  cancel : Bool
  /-- The listener has been closed. -/
  closed : Bool
  links : List Link

/-- What comes of waiting for a connection. -/
inductive Accepting where
  | stopped
  | refused (error : ConnectionError)
  | early
  | established
  deriving DecidableEq

/-- What comes of starting a connection. -/
inductive Dialling where
  | unusable (text : String)
  | unbound (text : String)
  | unstarted (text : String)
  | refused (error : ConnectionError)
  | early
  | established
  deriving DecidableEq

inductive Event where
  | cancel
  /-- `Listener::close` -/
  | close
  | accept (ready : Accepting)
  | dial (bounds : TransportBounds) (ready : Dialling)
  | link (i : ℕ) (event : LinkEvent)
  deriving DecidableEq

namespace Endpoint

def new (bounds : TransportBounds) : Endpoint := ⟨bounds, false, false, []⟩

/-- The token has been cancelled.  Sessions that were dialled hold the token itself. -/
def tokenCancelled (s : Endpoint) : Bool :=
  s.cancel || s.links.any fun l => l.dialled && l.session.cancel

/-- The token of a session has been cancelled: its own, or the one it is a child of. -/
def cancelledFor (s : Endpoint) (l : Link) : Bool := s.tokenCancelled || l.session.cancel

/-- Accept a connection: the handshake of the new session, if it goes on. -/
def acceptMode (s : Endpoint) (ready : Accepting) : Except QuicSyncError (Option Handshake) :=
  match guardedInfallible s.tokenCancelled "accept connection" ready with
  | .error error => .error error
  | .ok .stopped => .error (unavailable "endpoint stopped accepting connections")
  | .ok .early => .ok (some .pending)
  | .ok (.refused error) => guarded s.tokenCancelled "accept connection" (.error error)
  | .ok .established =>
    guarded s.tokenCancelled "accept connection" (.ok none : Except ConnectionError _)

/-- Start a connection: the handshake of the new session, if it goes on.  With early data the token
is not looked at. -/
def dial (s : Endpoint) (ready : Dialling) : Except QuicSyncError (Option Handshake) :=
  match ready with
  | .unusable text => .error (configuration ("client TLS is unusable for QUIC: " ++ text))
  | .unbound text => .error (unavailable ("bind client endpoint: " ++ text))
  | .unstarted text => .error (unavailable ("start connection: " ++ text))
  | .early => .ok (some .pending)
  | .refused error => guarded s.tokenCancelled "connect to destination" (.error error)
  | .established =>
    guarded s.tokenCancelled "connect to destination" (.ok none : Except ConnectionError _)

def step (s : Endpoint) : Event → Option (Endpoint × Option Outcome)
  | .cancel => some ({ s with cancel := true }, none)
  | .close => some ({ s with closed := true }, none)
  | .accept ready =>
    match s.acceptMode ready with
    | .error error => some (s, some (.failed error))
    | .ok handshake =>
      let link := Link.new (Session.new s.bounds handshake false) false
      some ({ s with links := s.links ++ [link] }, none)
  | .dial bounds ready =>
    match s.dial ready with
    | .error error => some (s, some (.failed error))
    | .ok handshake =>
      let link := Link.new (Session.new bounds handshake handshake.isSome) true
      some ({ s with links := s.links ++ [link] }, none)
  | .link i event =>
    match s.links[i]? with
    | none => none
    | some l => (l.step (s.cancelledFor l) s.closed event).map fun result =>
        ({ s with links := s.links.set i result.1 }, result.2)

/-- The state after an event. -/
def next (s : Endpoint) (event : Event) : Option Endpoint := (s.step event).map Prod.fst

end Endpoint

end Transport

end QuicSync
