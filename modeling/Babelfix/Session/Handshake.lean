import Babelfix.Session.State

/-! # The logon exchange

One type per role (`session/handshake.rs`). The initiator's session exists from
the start; the acceptor's only once the peer's Logon has named it. -/
namespace Babelfix.Session
open Lib

/-- Reject anything that is not a Logon. -/
def expectLogon (msg : Message) : Except Fault Unit :=
  if msg.msgType ≠ "A" then
    .error (.err (.protocolViolation ("First message was not a logon, got: " ++ msg.msgType)))
  else
    .ok ()

def expired (deadline now : Instant) : Except Fault Unit :=
  if deadline ≤ now then
    .error (.err (.connectionFailed "logon exchange did not complete in time"))
  else
    .ok ()

def compId (msg : Message) (f : Field Bytes) (name : String) : Except Fault Bytes :=
  match msg.header.get f with
  | .ok (some value) => .ok value
  | .ok none => .error (.err (.protocolViolation ("Logon message missing " ++ name)))
  | .error e => .error (.err (.invalidMessage e.text))

/-- Our session identity from a peer's Logon: its sender is our target. -/
def sessionIdFromLogon (logon : Message) : Except Fault SessionIdentifier := do
  let senderCompID ← compId logon Fields.targetCompID "TargetCompID"
  let targetCompID ← compId logon Fields.senderCompID "SenderCompID"
  return { beginString := logon.beginString, senderCompID, targetCompID }

/-! ## Initiator -/

/-- The logon exchange from the side that opened the connection. -/
structure InitiatorHandshake where
  state : SessionState
  deadline : Instant

namespace InitiatorHandshake

/-- Announce the session and ask the application for our Logon. -/
def announce : Op Unit := do
  event .connectionEstablished
  SessionState.requestLogon

/-- Open a session: the handshake, and what announcing it wrote. -/
def start (sessionId : SessionIdentifier) (config : SessionConfig) (nextInSeqNum : Nat)
    (logonTimeout : Duration) (now : Instant) : InitiatorHandshake × List Effect :=
  let r := announce.run (SessionState.new sessionId config nextInSeqNum now)
  (⟨r.state, now + logonTimeout⟩, r.out)

def onTimeout (h : InitiatorHandshake) (now : Instant) : Except Fault Unit := expired h.deadline now

/-- Feed an application command; a disconnect simply ends the exchange. -/
def onCommand (cmd : Command) (now : Instant) : Op Progress :=
  match cmd with
  | .disconnect => return .close
  | cmd => SessionState.onCommand cmd now

/-- The peer's Logon completes the exchange. -/
def onPeerLogon (logon : Message) (now : Instant) : Op Progress := do
  Call.lift (expectLogon logon)
  let s ← Call.get
  if s.highestSent = 0 then
    err (.protocolViolation "peer sent its Logon before ours went out")
  event (.rawMessageReceived logon)
  SessionState.start logon now

end InitiatorHandshake

/-! ## Acceptor -/

/-- The peer's Logon, held until the application accepts the session it names. -/
structure PendingLogon where
  sessionId : SessionIdentifier
  logon : Message

/-- The logon exchange from the side that answered the connection. -/
structure AcceptorHandshake where
  deadline : Instant
  pending : Option PendingLogon

namespace AcceptorHandshake

def new (logonTimeout : Duration) (now : Instant) : AcceptorHandshake :=
  { deadline := now + logonTimeout, pending := none }

def onTimeout (h : AcceptorHandshake) (now : Instant) : Except Fault Unit := expired h.deadline now

/-- Read the peer's Logon and work out which session it names. -/
def identify (h : AcceptorHandshake) (logon : Message) : Except Fault AcceptorHandshake := do
  if h.pending.isSome then
    throw (.err (.protocolViolation "peer sent a second message before the session was accepted"))
  expectLogon logon
  let sessionId ← sessionIdFromLogon logon
  return { h with pending := some { sessionId, logon } }

/-- Greet the peer and process its Logon, on the session just made for it. -/
def welcome (logon : Message) (now : Instant) : Op Progress := do
  event .connectionEstablished
  event (.rawMessageReceived logon)
  SessionState.requestLogon
  SessionState.start logon now

/-- Supply the settings for the identified session. -/
def accept (h : AcceptorHandshake) (config : SessionConfig) (nextInSeqNum : Nat) (now : Instant) :
    Except Fault (OpOutcome Progress) :=
  match h.pending with
  | none => .error (.err (.protocolViolation "accept called before the peer identified itself"))
  | some p => .ok ((welcome p.logon now).run (SessionState.new p.sessionId config nextInSeqNum now))

end AcceptorHandshake

end Babelfix.Session
