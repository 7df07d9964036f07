import Babelfix.Driver.Codec
import Babelfix.Session.Handshake

/-! # The drivers

A session with its codec and its input buffer (`driver.rs`): two drivers for the logon
exchange, one per role, and the one for the session proper. What the encoder puts in the
output buffer is the transmitted messages in their order, so the output stands for it. -/
namespace Babelfix.Driver
open Lib
open Session (Effect Fault Instant Duration Progress SessionState SessionConfig
  SessionIdentifier InitiatorHandshake AcceptorHandshake Command Op)

/-- What a driver does, as its caller sees it. The source does not record which message
the session is given: it is noted here so that properties can tell. -/
inductive Action where
  | process (msg : Tape.Message)
  | effect (e : Effect)

/-- Why a driver's call stopped. The source returns the same `Error` for both. -/
inductive Stop where
  | decode (f : Fault)
  | session (f : Fault)
  deriving DecidableEq, Repr

def logonExchangeComplete : Stop :=
  .session (.err (.protocolViolation "logon exchange is already complete"))

/-- The codec and the bytes received but not yet framed. -/
structure Plumbing where
  decoder : FixDecoder
  inBuf : Bytes

namespace Plumbing

/-- Take the next message off the input. -/
def next : Call Plumbing Action Stop (Option Tape.Message) :=
  ⟨fun p =>
    let r := p.decoder.decode p.inBuf
    ⟨⟨r.decoder, r.data⟩, [], r.result.mapError .decode⟩⟩

def extend (src : Bytes) : Call Plumbing Action Stop Unit :=
  Call.modify fun p => { p with inBuf := p.inBuf ++ src }

end Plumbing

/-- What a driver's caller sees of a call on its session. -/
def ofSession {α : Type} (r : Session.OpOutcome α) :
    Outcome SessionState Action Stop α :=
  ⟨r.state, r.out.map .effect, r.result.mapError .session⟩

/-! ## The session driver -/

structure SessionDriver where
  state : SessionState
  plumbing : Plumbing

namespace SessionDriver

/-- A call on the codec. -/
def onPlumbing {α : Type} (x : Call Plumbing Action Stop α) : Call SessionDriver Action Stop α :=
  Call.within (·.plumbing) (fun d plumbing => { d with plumbing }) x

def onSession {α : Type} (x : Call SessionState Action Stop α) : Call SessionDriver Action Stop α :=
  Call.within (·.state) (fun d state => { d with state }) x

end SessionDriver

def handle (now : Instant) (msg : Tape.Message) : Call SessionState Action Stop Progress :=
  ⟨fun s => (ofSession ((SessionState.onMessage msg.view now).run s)).prepend [.process msg]⟩

namespace SessionDriver

/-- The loop of `on_bytes`. Every message takes at least one byte. -/
def readLoop (now : Instant) : Nat → Call SessionDriver Action Stop Progress
  | 0 => return .continue
  | fuel + 1 => do
    match ← onPlumbing Plumbing.next with
    | none => return .continue
    | some msg =>
      if (← onSession (handle now msg)) = .close then return .close
      else readLoop now fuel

/-- Feed bytes straight off the socket. -/
def onBytes (now : Instant) (src : Bytes) : Call SessionDriver Action Stop Progress := do
  onPlumbing (Plumbing.extend src)
  let d ← Call.get
  readLoop now (d.plumbing.inBuf.length + 1)

/-- Feed what each read brings, until the session is over. -/
def feed : List (Instant × Bytes) → Call SessionDriver Action Stop Progress
  | [] => return .continue
  | (now, src) :: reads => do
    if (← onBytes now src) = .close then return .close
    else feed reads

end SessionDriver

/-! ## The logon exchange -/

/-- What a driver needs besides the session. -/
structure DriverConfig where
  dicts : List Tape.Dictionary
  delimiter : Option UInt8
  logonTimeout : Duration
  maxFrameLen : Nat

/-- A session that has been negotiated but has not yet delivered anything. -/
structure EstablishedDriver where
  state : SessionState
  plumbing : Plumbing
  progress : Progress

namespace EstablishedDriver

/-- Begin the session, delivering whatever arrived alongside the Logon. -/
def start (e : EstablishedDriver) (now : Instant) : Outcome SessionDriver Action Stop Progress :=
  let driver : SessionDriver := ⟨e.state, e.plumbing⟩
  if e.progress = .close then ⟨driver, [], .ok .close⟩
  else (SessionDriver.onBytes now []).run driver

end EstablishedDriver

structure InitiatorDriver where
  handshake : Option InitiatorHandshake
  plumbing : Plumbing
  config : DriverConfig

namespace InitiatorDriver

def onPlumbing {α : Type} (x : Call Plumbing Action Stop α) : Call InitiatorDriver Action Stop α :=
  Call.within (·.plumbing) (fun d plumbing => { d with plumbing }) x

/-- What is left in place of the plumbing that moves into the session. -/
def spare (config : DriverConfig) : Plumbing :=
  ⟨(FixDecoder.new config.dicts config.delimiter).withMaxFrameLen config.maxFrameLen, []⟩

/-- The handshake is taken, and its session goes on with the plumbing. -/
def complete (msg : Tape.Message) (now : Instant) :
    Call InitiatorDriver Action Stop (Option EstablishedDriver) :=
  ⟨fun d =>
    match d.handshake with
    | none => ⟨d, [], .error logonExchangeComplete⟩
    | some h =>
      let r := ofSession ((InitiatorHandshake.onPeerLogon msg.view now).run h.state)
      match r.result with
      | .error e => ⟨{ d with handshake := none }, r.out, .error e⟩
      | .ok progress =>
        ⟨{ d with handshake := none, plumbing := spare d.config }, r.out,
          .ok (some ⟨r.state, d.plumbing, progress⟩)⟩⟩

/-- Feed bytes straight off the socket. Exactly one frame completes the exchange. -/
def onBytes (now : Instant) (src : Bytes) :
    Call InitiatorDriver Action Stop (Option EstablishedDriver) := do
  onPlumbing (Plumbing.extend src)
  match ← onPlumbing Plumbing.next with
  | none => return none
  | some msg => complete msg now

end InitiatorDriver

structure AcceptorDriver where
  handshake : AcceptorHandshake
  plumbing : Plumbing

namespace AcceptorDriver

/-- Answer a connection. -/
def new (config : DriverConfig) (now : Instant) : AcceptorDriver where
  handshake := AcceptorHandshake.new config.logonTimeout now
  plumbing := ⟨(FixDecoder.new config.dicts config.delimiter).withMaxFrameLen config.maxFrameLen, []⟩

def onPlumbing {α : Type} (x : Call Plumbing Action Stop α) : Call AcceptorDriver Action Stop α :=
  Call.within (·.plumbing) (fun d plumbing => { d with plumbing }) x

/-- Work out which session the peer's Logon names. -/
def identify (msg : Tape.Message) : Call AcceptorDriver Action Stop (Option SessionIdentifier) :=
  ⟨fun d =>
    match d.handshake.identify msg.view with
    | .error f => ⟨d, [], .error (.session f)⟩
    | .ok h => ⟨{ d with handshake := h }, [], .ok (h.pending.map (·.sessionId))⟩⟩

/-- Feed bytes until the peer names a session. -/
def onBytes (src : Bytes) : Call AcceptorDriver Action Stop (Option SessionIdentifier) := do
  onPlumbing (Plumbing.extend src)
  match ← onPlumbing Plumbing.next with
  | none => return none
  | some msg => identify msg

/-- Supply the settings for the session: what was written, and the session or why there
is none. -/
def accept (d : AcceptorDriver) (session : SessionConfig) (nextInSeqNum : Nat) (now : Instant) :
    List Action × Except Stop EstablishedDriver :=
  match d.handshake.accept session nextInSeqNum now with
  | .error f => ([], .error (.session f))
  | .ok r =>
    let r := ofSession r
    (r.out, r.result.map fun progress => ⟨r.state, d.plumbing, progress⟩)

end AcceptorDriver

end Babelfix.Driver
