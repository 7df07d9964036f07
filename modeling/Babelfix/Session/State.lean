import Babelfix.Session.Replay

/-! # The session state machine

Sequence checking, heartbeats, recovery and logout (`session/state.rs`). Every
call on a `SessionState` is an `Op`: it changes the state, writes messages and
events, and returns or stops at a fault, keeping what it did before. Log lines
are left out, and with them the comparison in `send` that only picks one. -/
namespace Babelfix.Session
open Lib

/-- The placeholder a `SendingTime` stamp is written over. -/
def sendingTimePlaceholder : Bytes := ascii "00000000-00:00:00.000000000000"

def missedHeartbeatsBeforeLogout : Nat := 3

/-- Heartbeat deadlines, held as absolute instants. -/
structure Timers where
  interval : Duration
  nextOut : Instant
  nextIn : Instant
  missedHeartbeats : Nat
  deriving DecidableEq, Repr

namespace Timers

def new (interval : Duration) (now : Instant) : Timers :=
  { interval, nextOut := now + interval, nextIn := now + interval, missedHeartbeats := 0 }

def resetOut (t : Timers) (now : Instant) : Timers := { t with nextOut := now + t.interval }

def resetIn (t : Timers) (now : Instant) : Timers :=
  { t with nextIn := now + t.interval, missedHeartbeats := 0 }

end Timers

structure SessionState where
  sessionId : SessionIdentifier
  config : SessionConfig
  /-- The `MsgSeqNum` expected on the next message from the peer. -/
  nextInSeqNum : Nat
  /-- The highest `MsgSeqNum` put on the wire, or 0. -/
  highestSent : Nat
  /-- The highest `MsgSeqNum` accepted for sending, queued messages included. -/
  highestAccepted : Nat
  logonSent : Bool
  peerLogonReceived : Bool
  heartbeatRequested : Bool
  /-- Set once a Logout has been asked for: when the session closes without it. -/
  closing : Option Instant
  /-- Set while a gap is open: the number after which recovery is complete. -/
  rerequestInProgress : Option Nat
  recoveryTrId : Option Bytes
  replay : Option Replay
  peerLogoutPending : Bool
  timers : Timers
  testRequestSeq : Nat
  deriving DecidableEq, Repr

abbrev Op := Call SessionState Effect Fault

abbrev OpOutcome := Outcome SessionState Effect Fault

def err {α : Type} (e : Error) : Op α := Call.fault (.err e)

def event (e : Event) : Op Unit := Call.emit (.event e)

namespace SessionState

def new (sessionId : SessionIdentifier) (config : SessionConfig) (nextInSeqNum : Nat)
    (now : Instant) : SessionState where
  sessionId := sessionId
  config := config
  nextInSeqNum := nextInSeqNum
  highestSent := 0
  highestAccepted := 0
  logonSent := false
  peerLogonReceived := false
  heartbeatRequested := false
  closing := none
  rerequestInProgress := none
  recoveryTrId := none
  replay := none
  peerLogoutPending := false
  timers := Timers.new config.heartbeatInterval now
  testRequestSeq := 0

/-- Whether both Logons have been exchanged. -/
def isLoggedOn (s : SessionState) : Bool := s.logonSent && s.peerLogonReceived

/-- The next instant at which a timeout has something to do. -/
def nextDeadline (s : SessionState) : Option Instant :=
  let heartbeat := min s.timers.nextOut s.timers.nextIn
  some (s.closing.elim heartbeat fun c => min c heartbeat)

def message (s : SessionState) (msgType : String) : Message :=
  Message.new s.config.dict.beginString msgType

/-! ## Admin requests -/

/-- Hand an admin message to the application to number and send. -/
def request (msg : Message) : Op Unit := event (.adminSendRequired msg)

/-- A `TestReqID` unique within the session. -/
def nextTestRequestId (idPrefix : Bytes) : Op Bytes := do
  Call.modify fun s => { s with testRequestSeq := s.testRequestSeq + 1 }
  let s ← Call.get
  return idPrefix ++ writeUint s.testRequestSeq

/-- A TestRequest carrying the given ID. -/
def testRequest (s : SessionState) (trId : Bytes) : Message :=
  let msg := s.message "1"
  { msg with body := msg.body.set Fields.testReqID trId }

/-- Ask for the TestRequest whose answer tells us the peer has caught up. -/
def requestSyncTestRequest : Op Unit := do
  let trId ← nextTestRequestId (ascii "HELO-")
  let s ← Call.get
  Call.modify fun s => { s with recoveryTrId := some trId }
  request (s.testRequest trId)

/-- A Logout carrying a diagnostic reason. -/
def logout (s : SessionState) (text : Bytes) : Message :=
  let msg := s.message "5"
  { msg with body := msg.body.set Fields.text text }

/-- Ask for a Logout and start closing. -/
def requestLogout (text : Bytes) (now : Instant) : Op Unit := do
  let s ← Call.get
  if s.closing.isSome then
    return ()
  Call.modify fun s => { s with closing := some (now + s.config.heartbeatInterval) }
  request (s.logout text)

/-- A Logon carrying the session's negotiated settings. -/
def logonMessage (config : SessionConfig) : Message :=
  let logon := Message.new config.dict.beginString "A"
  let body := logon.body.set Fields.heartBtInt (writeUint (config.heartbeatInterval / nanosPerSec))
  let body := if config.dict.logonHasDefaultApplVerID then
    body.set Fields.defaultApplVerID (ascii "10") else body
  { logon with body := body.set Fields.encryptMethod (ascii "0") }

/-- Ask the application to send our Logon. -/
def requestLogon : Op Unit := do
  let s ← Call.get
  request (logonMessage s.config)

/-! ## Transmission -/

/-- `msg` with the session header fields, as `transmit` hands it to the output. A
`SendingTime` it already carries is kept, and otherwise a slot reserved. -/
def onWire (s : SessionState) (msg : Message) : Unstamped :=
  let precision := if msg.header.has Fields.sendingTime.tag then none else some s.config.timePrecision
  let header := (msg.header.set Fields.senderCompID s.sessionId.senderCompID).set
    Fields.targetCompID s.sessionId.targetCompID
  let header := match precision with
    | some p => header.set Fields.sendingTime (sendingTimePlaceholder.take p.width)
    | none => header
  ⟨{ msg with header }, precision⟩

/-- Put the session header fields onto `msg` and hand it to the output. -/
def transmit (origin : Origin) (msg : Message) : Op Message := do
  let msgSeqNum ← Call.lift (ofField (msg.header.req Fields.msgSeqNum))
  let s ← Call.get
  let wire := s.onWire msg
  Call.modify fun s => { s with highestSent := max s.highestSent msgSeqNum }
  Call.emit (.transmit origin wire)
  event (.rawMessageSent wire.msg)
  return wire.msg

/-- Put a newly sent message on the wire, and note what sending it means. -/
def dispatchOutbound (msg : Message) : Op Progress := do
  let msg ← transmit .fresh msg
  match msg.msgType with
  | "A" => do
    Call.modify fun s => { s with logonSent := true }
    let s ← Call.get
    if s.peerLogonReceived then
      event .loggedOn
    return .continue
  | "0" => do
    Call.modify fun s => { s with heartbeatRequested := false }
    return .continue
  | "5" => return .close
  | _ => return .continue

/-- How Rust prints an optional integer for debugging. -/
def debugInt : Option Int → String
  | some h => s!"Some({h})"
  | none => "None"

/-- The application's Logon must still describe the session that was configured. -/
def checkLogon (logon : Message) : Op Unit := do
  let heartbeat ← Call.lift (ofField (logon.body.get Fields.heartBtInt))
  let s ← Call.get
  let expected := s.config.heartbeatInterval / nanosPerSec
  if heartbeat ≠ some (expected : Int) then
    err (.protocolViolation
      ("Logon HeartBtInt " ++ debugInt heartbeat ++ s!" does not match the configured {expected}"))
  if logon.beginString ≠ s.sessionId.beginString then
    err (.protocolViolation ("Logon BeginString " ++ logon.beginString ++
      " does not match the session's " ++ s.sessionId.beginString))

/-- Whether the logon exchange lets a message of this type out. -/
def checkLogonExchange (msg : Message) : Op Unit := do
  let s ← Call.get
  if msg.msgType = "A" then
    if s.logonSent then
      err (.protocolViolation "Logon sent outside the logon exchange")
    checkLogon msg
  else if !s.logonSent then
    err (.protocolViolation ("The first message must be a Logon, not " ++ msg.msgType))
  else if !s.peerLogonReceived then
    err (.protocolViolation ("Cannot send " ++ msg.msgType ++ " before the peer has logged on"))

/-- Take a message that passed the checks: send it, or hold it back while a replay
is running. -/
def accept (msg : Message) (msgSeqNum : Nat) (now : Instant) : Op Progress := do
  Call.modify fun s => { s with highestAccepted := msgSeqNum }
  if !msg.isAdmin then
    Call.modify fun s => { s with timers := s.timers.resetOut now }
  let s ← Call.get
  match s.replay with
  | some replay => do
    Call.modify fun s => { s with replay := some (replay.defer msg) }
    return .continue
  | none => dispatchOutbound msg

/-- Accept a message the application numbered, and send it unless a replay is
running. -/
def send (msg : Message) (now : Instant) : Op Progress := do
  let msgSeqNum ← Call.lift (ofField (msg.header.get Fields.msgSeqNum))
  match msgSeqNum with
  | none => err (.protocolViolation "Outbound message has no MsgSeqNum")
  | some msgSeqNum => do
    if msgSeqNum = 0 then
      err (.protocolViolation "MsgSeqNum must be at least 1")
    checkLogonExchange msg
    let s ← Call.get
    if msgSeqNum ≤ s.highestAccepted then
      err (.protocolViolation
        s!"MsgSeqNum {msgSeqNum} is not beyond {s.highestAccepted}, already sent")
    accept msg msgSeqNum now

/-- A SequenceReset-GapFill over `beginSeqNo..=endSeqNo`. -/
def gapFillMessage (s : SessionState) (beginSeqNo newSeqNo : Nat) : Message :=
  let msg := s.message "4"
  { msg with
    header := msg.header.set Fields.msgSeqNum (writeUint beginSeqNo)
    body := (msg.body.set Fields.gapFillFlag (writeBoolean true)).set
      Fields.newSeqNo (writeUint newSeqNo) }

/-- Skip over `beginSeqNo..=endSeqNo` with a single SequenceReset-GapFill. -/
def sendGapFill (beginSeqNo endSeqNo : Nat) : Op Unit := do
  let s ← Call.get
  let newSeqNo ← Call.lift (addU64 endSeqNo 1)
  let _ ← transmit .gapFill (s.gapFillMessage beginSeqNo newSeqNo)
  return ()

/-! ## Replay -/

/-- Session messages are gap-filled rather than resent, except Reject and
XMLnonFIX. -/
def gapFilled (msg : Message) : Bool := msg.isAdmin && !(msg.msgType = "3" || msg.msgType = "n")

/-- The header of a retransmission: the original `SendingTime` as
`OrigSendingTime`, unless the application supplied one, and `PossDupFlag`. -/
def retransmissionHeader (header : Block) (msgSeqNum : Nat) : Except Fault Block := do
  let header ← if header.has Fields.origSendingTime.tag then pure header else
    match header.copyValue Fields.sendingTime Fields.origSendingTime with
    | .ok header => pure header
    | .error _ => throw (.err (.protocolViolation
      s!"Replayed message {msgSeqNum} has neither OrigSendingTime nor SendingTime"))
  return (header.remove Fields.sendingTime.tag).set Fields.possDupFlag (writeBoolean true)

/-- Send the gap fill over these inclusive bounds, if there is one. -/
def fillGap : Option (Nat × Nat) → Op Unit
  | some (first, last) => sendGapFill first last
  | none => return ()

/-- Retransmit a message, after the gap fill due before it. -/
def retransmit (msg : Message) (msgSeqNum : Nat) (gapFill : Option (Nat × Nat)) : Op Unit := do
  let header ← Call.lift (retransmissionHeader msg.header msgSeqNum)
  fillGap gapFill
  let _ ← transmit .retransmission { msg with header }
  return ()

def replayMessage (msg : Message) : Op Unit := do
  let msgSeqNum ← Call.lift (ofField (msg.header.req Fields.msgSeqNum))
  let s ← Call.get
  match s.replay with
  | none => err (.protocolViolation "No replay in progress")
  | some replay => do
    let (replay, step) ← Call.lift (replay.offer msgSeqNum (gapFilled msg))
    Call.modify fun s => { s with replay := some replay }
    match step with
    | .skip => return ()
    | .absorb => return ()
    | .retransmit gapFill => retransmit msg msgSeqNum gapFill

/-- Send the queued messages, stopping at one that closes the session. -/
def dispatchQueue : List Message → Op Progress
  | [] => return .continue
  | msg :: rest => do
    match ← dispatchOutbound msg with
    | .close => return .close
    | .continue => dispatchQueue rest

/-- The peer's answer to a new TestRequest tells us the replay landed. -/
def resynchronise : Op Progress := do
  let s ← Call.get
  if s.closing.isNone then
    requestSyncTestRequest
  return .continue

def completeReplay : Op Progress := do
  let s ← Call.get
  match s.replay with
  | none => err (.protocolViolation "No replay in progress")
  | some replay => do
    let queue := replay.queue
    Call.modify fun s => { s with replay := some { replay with queue := [] } }
    let trailing ← Call.lift replay.trailingGapFill
    fillGap trailing
    Call.modify fun s => { s with replay := none }
    match ← dispatchQueue queue with
    | .close => return .close
    | .continue => resynchronise

/-! ## Inbound protocol handling -/

/-- Read `NewSeqNo` from an inbound SequenceReset; only the gap fill form is
supported. -/
def gapFillNewSeqNum (msg : Message) : Except Fault Nat := do
  let flag ← ofField (msg.body.get Fields.gapFillFlag)
  if flag ≠ some true then
    throw (.err (.protocolViolation "Sequence reset message is garbage and not supported"))
  ofField (msg.body.req Fields.newSeqNo)

/-- A Heartbeat: the answer to the synchronisation TestRequest completes recovery. -/
def onHeartbeat (msg : Message) : Op Unit := do
  let testReqId ← Call.lift (ofField (msg.body.get Fields.testReqID))
  let s ← Call.get
  if testReqId.isSome ∧ testReqId = s.recoveryTrId then
    Call.modify fun s => { s with recoveryTrId := none }
    event .recoveryCompleted

/-- A TestRequest is answered by a Heartbeat with its ID. -/
def onTestRequest (msg : Message) : Op Unit := do
  let s ← Call.get
  let testReqId ← Call.lift (ofField (msg.body.req Fields.testReqID))
  let heartbeat := s.message "0"
  request { heartbeat with body := heartbeat.body.set Fields.testReqID testReqId }

/-- A ResendRequest starts a replay. -/
def onResendRequest (msg : Message) : Op Unit := do
  let beginSeqNo ← Call.lift (ofField (msg.body.req Fields.beginSeqNo))
  let endSeqNo ← Call.lift (ofField (msg.body.req Fields.endSeqNo))
  let s ← Call.get
  if s.replay.isSome then
    err (.protocolViolation "ResendRequest while a resend is already in progress")
  let nextOut ← Call.lift (addU64 s.highestSent 1)
  let replay ← Call.lift (Replay.start beginSeqNo endSeqNo nextOut)
  Call.modify fun s => { s with
    highestAccepted := max s.highestAccepted replay.endSeqNo
    replay := some replay }
  event (.resendRequest msg replay.beginSeqNo replay.endSeqNo)

/-- An application message or Reject, for the application. -/
def deliver (msg : Message) : Op Progress := do
  let seqNum ← Call.lift (ofField (msg.header.req Fields.msgSeqNum))
  event (.messageReceived seqNum msg)
  return .continue

/-- A message the application does not see: report where the sequence is. -/
def advanced (inSequence : Bool) : Op Progress := do
  if inSequence then
    let s ← Call.get
    event (.inboundAdvanced s.nextInSeqNum)
  return .continue

def logoutReceivedText : Bytes := ascii "Logout message received. Closing session."

/-- Act on a message. `inSequence` is false for the ResendRequest serviced from
inside a gap, which does not consume its sequence number. -/
def dispatchMessage (msg : Message) (inSequence : Bool) (now : Instant) : Op Progress :=
  match msg.msgType with
  | "A" => advanced inSequence
  | "0" => do
    onHeartbeat msg
    advanced inSequence
  | "1" => do
    onTestRequest msg
    advanced inSequence
  | "2" => do
    onResendRequest msg
    advanced inSequence
  | "5" => do
    requestLogout logoutReceivedText now
    advanced inSequence
  | "3" => deliver msg
  | _ => if msg.isAdmin then advanced inSequence else deliver msg

def tooLowText (expected got : Nat) : Bytes :=
  ascii "Invalid MsgSeqNum; too low. Expected " ++ writeUint expected ++
    ascii " but got " ++ writeUint got ++ ascii "."

/-- A ResendRequest for everything from the first missing message onwards. -/
def resendRequestMessage (s : SessionState) : Message :=
  let rr := s.message "2"
  let body := rr.body.set Fields.beginSeqNo (writeUint s.nextInSeqNum)
  { rr with body := body.set Fields.endSeqNo (writeUint 0) }

/-- Of the messages discarded inside a gap, act on those the peer never
retransmits: it gap fills over its ResendRequests and its Logout. -/
def handleDiscarded (msg : Message) (now : Instant) : Op Progress :=
  match msg.msgType with
  | "2" => dispatchMessage msg false now
  | "5" => do
    Call.modify fun s => { s with peerLogoutPending := true }
    return .continue
  | _ => return .continue

/-- A number beyond the expected one: ask for everything from the first missing
message onwards, unless that was asked for already, and discard this one. -/
def handleGap (msg : Message) (msgSeqNum : Nat) (now : Instant) : Op Progress := do
  let s ← Call.get
  if s.rerequestInProgress.isNone then
    Call.modify fun s => { s with rerequestInProgress := some msgSeqNum }
    request s.resendRequestMessage
  handleDiscarded msg now

/-- The expected number: move on, past what a gap fill covers. -/
def advance (msgSeqNum : Nat) (newSeqNum : Option Nat) : Op Unit := do
  match newSeqNum with
  | some newSeqNum => do
    if newSeqNum ≤ msgSeqNum then
      err (.protocolViolation (s!"Invalid NewSeqNo in GapFill; expected greater than {msgSeqNum}" ++
        s!" but got {newSeqNum}"))
    Call.modify fun s => { s with nextInSeqNum := newSeqNum }
  | none => do
    let s ← Call.get
    let next ← Call.lift (addU64 s.nextInSeqNum 1)
    Call.modify fun s => { s with nextInSeqNum := next }

/-- The gap that deferred a Logout acknowledgement may now have closed. -/
def acknowledgeLogout (now : Instant) : Op Unit := do
  let s ← Call.get
  if s.peerLogoutPending ∧ s.rerequestInProgress.isNone then
    requestLogout logoutReceivedText now

/-- What follows once a message has consumed its number. -/
def handleInSequence (msg : Message) (now : Instant) : Op Progress := do
  let s ← Call.get
  if s.rerequestInProgress.any (· ≤ s.nextInSeqNum) then
    Call.modify fun s => { s with rerequestInProgress := none }
  match ← dispatchMessage msg true now with
  | .close => return .close
  | .continue => do
    acknowledgeLogout now
    return .continue

def handleSessionMessage (msg : Message) (now : Instant) : Op Progress := do
  let msgSeqNum ← Call.lift (ofField (msg.header.req Fields.msgSeqNum))
  let newSeqNum ← if msg.msgType = "4" then
      Call.lift ((gapFillNewSeqNum msg).map some) else pure none
  let s ← Call.get
  if msgSeqNum < s.nextInSeqNum then
    requestLogout (tooLowText s.nextInSeqNum msgSeqNum) now
    return .continue
  else if s.nextInSeqNum < msgSeqNum then
    handleGap msg msgSeqNum now
  else
    advance msgSeqNum newSeqNum
    handleInSequence msg now

/-! ## The calls a driver makes -/

/-- The peer's Logon has been processed: the session is established, unless it
was refused. -/
def onLogonProcessed : Op Progress := do
  Call.modify fun s => { s with peerLogonReceived := true }
  let s ← Call.get
  if s.closing.isSome then
    return .continue
  if s.logonSent then
    event .loggedOn
  requestSyncTestRequest
  return .continue

/-- Process the peer's Logon and ask for the synchronisation TestRequest. -/
def start (logon : Message) (now : Instant) : Op Progress := do
  match ← handleSessionMessage logon now with
  | .close => return .close
  | .continue => onLogonProcessed

/-- Feed a decoded inbound frame. -/
def onMessage (msg : Message) (now : Instant) : Op Progress := do
  Call.modify fun s => { s with timers := s.timers.resetIn now }
  event (.rawMessageReceived msg)
  let s ← Call.get
  if s.closing.isSome then
    return .continue
  handleSessionMessage msg now

def disconnectText : Bytes := ascii "Disconnect requested by application"

/-- Feed an application command. -/
def onCommand (cmd : Command) (now : Instant) : Op Progress :=
  match cmd with
  | .send msg => send msg now
  | .replay msg => do
    Call.modify fun s => { s with timers := s.timers.resetOut now }
    replayMessage msg
    return .continue
  | .replayComplete => do
    Call.modify fun s => { s with timers := s.timers.resetOut now }
    completeReplay
  | .disconnect => do
    requestLogout disconnectText now
    return .continue

def heartbeatTimeoutText : Bytes := ascii "Heartbeat timeout"

/-- The outbound half of `on_timeout`: ask for the scheduled heartbeat. -/
def timeoutOut (now : Instant) : Op Unit := do
  let s ← Call.get
  if s.timers.nextOut ≤ now then
    Call.modify fun s => { s with timers := s.timers.resetOut now }
    if !s.heartbeatRequested then
      Call.modify fun s => { s with heartbeatRequested := true }
      request (s.message "0")

/-- The inbound half of `on_timeout`: count the peer as having missed one. -/
def timeoutIn (now : Instant) : Op Unit := do
  let s ← Call.get
  if s.timers.nextIn ≤ now then
    let missed := s.timers.missedHeartbeats + 1
    Call.modify fun s => { s with timers := { s.timers with
      nextIn := now + s.timers.interval, missedHeartbeats := missed } }
    if missed = 2 then
      let trId ← nextTestRequestId (ascii "HB")
      request (s.testRequest trId)
    else if missedHeartbeatsBeforeLogout ≤ missed then
      requestLogout heartbeatTimeoutText now

/-- Advance time. -/
def onTimeout (now : Instant) : Op Progress := do
  let s ← Call.get
  match s.closing with
  | some deadline => if deadline ≤ now then return .close else return .continue
  | none => do
    timeoutOut now
    timeoutIn now
    return .continue

/-- The peer went away without logging out. -/
def onPeerClosed : Op Progress := do
  event .disconnected
  return .close

end SessionState

end Babelfix.Session
