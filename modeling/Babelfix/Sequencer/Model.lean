import Babelfix.Session.State
import Mathlib.Data.Finset.Max

/-! # The sequencer

Number each outbound message, have the application persist it, and only then let
it reach the session (`sequencer.rs`). The application's sink never fails. What a
command target emits during a call is passed through the sequencer once the call
is over: the target cannot tell the difference, unless the sequencer refuses an
admin request, which it does only once a write has failed. -/
namespace Babelfix.Sequencing
open Lib Session

/-- Where a session resumes: what the application persisted last time. -/
structure Resume where
  nextOutSeqNum : Nat
  nextInSeqNum : Nat
  deriving DecidableEq, Repr

def Resume.new : Resume := { nextOutSeqNum := 1, nextInSeqNum := 1 }

inductive WatermarkMode where
  | contiguous
  | highest
  deriving DecidableEq, Repr

inductive InboundPolicy where
  | onDelivery
  | explicit (mode : WatermarkMode)
  deriving DecidableEq, Repr

/-- A write the sequencer needs before it can go on. -/
inductive Persist where
  | outbound (seqNum : Nat) (msg : Message)
  | watermark (nextInSeqNum : Nat)
  deriving DecidableEq, Repr

/-- What a sequenced session tells the application about. -/
inductive SeqEvent where
  | persist (p : Persist)
  | session (e : Event)
  deriving DecidableEq, Repr

/-- A wall clock: the text of each reading, at the session's precision. -/
structure Clock where
  read : Nat → Bytes
  ne_nil : ∀ n, read n ≠ []
  soh_notMem : ∀ n, soh ∉ read n

structure InFlight where
  seqNum : Nat
  msg : Message
  persisted : Bool
  deriving DecidableEq, Repr

/-- The message-centric sequencing policy. -/
structure Sequencer where
  senderCompID : Bytes
  targetCompID : Bytes
  nextOutSeqNum : Nat
  clock : Clock
  /-- How often the clock has been read. -/
  reads : Nat
  maxInFlight : Nat
  /-- Numbered and waiting for their writes, oldest first. -/
  inFlight : List InFlight
  /-- Persisted, in order, and waiting to be sent. -/
  ready : List Message
  loggedOn : Bool
  failed : Bool
  policy : InboundPolicy
  sessionNextIn : Nat
  /-- Delivered application messages not yet handled. -/
  unhandled : Finset Nat
  highestHandled : Nat
  watermarkPersisted : Nat
  watermarkInFlight : Option Nat

abbrev SeqOp := Call Sequencer SeqEvent Fault

namespace Sequencer

def new (sessionId : SessionIdentifier) (resume : Resume) (policy : InboundPolicy)
    (clock : Clock) : Sequencer where
  senderCompID := sessionId.senderCompID
  targetCompID := sessionId.targetCompID
  nextOutSeqNum := resume.nextOutSeqNum
  clock := clock
  reads := 0
  maxInFlight := 1024
  inFlight := []
  ready := []
  loggedOn := false
  failed := false
  policy := policy
  sessionNextIn := resume.nextInSeqNum
  unhandled := ∅
  highestHandled := resume.nextInSeqNum
  watermarkPersisted := resume.nextInSeqNum
  watermarkInFlight := none

def withMaxInFlight (q : Sequencer) (maxInFlight : Nat) : Sequencer := { q with maxInFlight }

/-- The inbound sequence number to resume from, as things stand in memory. -/
def watermark (q : Sequencer) : Nat :=
  match q.policy with
  | .onDelivery => q.sessionNextIn
  | .explicit .contiguous =>
    if h : q.unhandled.Nonempty then q.unhandled.min' h else q.sessionNextIn
  | .explicit .highest => q.highestHandled

/-! ## Numbering -/

def checkLive : SeqOp Unit := do
  let q ← Call.get
  if q.failed then
    Call.fault (.err (.persistence "an earlier write failed; the session cannot continue"))

/-- Fill in the header the way it will go on the wire. -/
def stamped (q : Sequencer) (msg : Message) : Message :=
  let header := (msg.header.set Fields.senderCompID q.senderCompID).set
    Fields.targetCompID q.targetCompID
  { msg with
    header := if msg.header.has Fields.sendingTime.tag then header
      else header.set Fields.sendingTime (q.clock.read q.reads) }

def stamp (msg : Message) : SeqOp Message := do
  let q ← Call.get
  if !msg.header.has Fields.sendingTime.tag then
    Call.modify fun q => { q with reads := q.reads + 1 }
  return q.stamped msg

def requestWrite (seqNum : Nat) (msg : Message) : SeqOp Nat := do
  Call.modify fun q => { q with inFlight := q.inFlight ++ [⟨seqNum, msg, false⟩] }
  Call.emit (.persist (.outbound seqNum msg))
  return seqNum

def assign (msg : Message) : SeqOp Nat := do
  checkLive
  let q ← Call.get
  let seqNum := q.nextOutSeqNum
  let next ← Call.lift (addU64 seqNum 1)
  Call.modify fun q => { q with nextOutSeqNum := next }
  let msg ← stamp { msg with header := msg.header.set Fields.msgSeqNum (writeUint seqNum) }
  requestWrite seqNum msg

/-- Number an application message and ask for it to be persisted. -/
def send (msg : Message) : SeqOp Nat := do
  let q ← Call.get
  if q.maxInFlight ≤ q.inFlight.length then
    Call.fault (.err .busy)
  let header := Block.remove Fields.origSendingTime.tag
    (Block.remove Fields.possDupFlag.tag msg.header)
  assign { msg with header }

/-- Persist and send a message with the `MsgSeqNum` it already carries. -/
def sendRaw (msg : Message) : SeqOp Nat := do
  checkLive
  let number ← Call.lift (ofField (msg.header.get Fields.msgSeqNum))
  match number with
  | none => Call.fault (.err (.protocolViolation "send_raw needs a MsgSeqNum"))
  | some seqNum => do
    let q ← Call.get
    if seqNum < q.nextOutSeqNum then
      Call.fault (.err (.protocolViolation
        s!"MsgSeqNum {seqNum} is behind the next sequence number, {q.nextOutSeqNum}"))
    let next ← Call.lift (addU64 seqNum 1)
    Call.modify fun q => { q with nextOutSeqNum := next }
    let msg ← stamp msg
    requestWrite seqNum msg

/-- The write of `seqNum` failed: nothing more is sent. -/
def persistFailed (seqNum : Nat) : SeqOp Error := do
  Call.modify fun q => { q with failed := true }
  return .persistence s!"MsgSeqNum {seqNum} could not be persisted"

/-! ## The inbound watermark -/

def persistWatermark : SeqOp Unit := do
  let q ← Call.get
  if q.watermarkPersisted < q.watermark ∧ q.watermarkInFlight.isNone then
    Call.modify fun p => { p with watermarkInFlight := some q.watermark }
    Call.emit (.persist (.watermark q.watermark))

/-- The application has finished with inbound `seqNum`. -/
def handled (seqNum : Nat) : SeqOp Unit := do
  let q ← Call.get
  match q.policy with
  | .onDelivery => pure ()
  | .explicit .contiguous =>
    Call.modify fun q => { q with unhandled := q.unhandled.erase seqNum }
  | .explicit .highest => do
    let next ← Call.lift (addU64 seqNum 1)
    Call.modify fun q => { q with highestHandled := max q.highestHandled next }
  persistWatermark

/-- The watermark write of `nextInSeqNum` has completed. -/
def onWatermarkPersisted (nextInSeqNum : Nat) : SeqOp Unit := do
  Call.modify fun q => { q with watermarkPersisted := max q.watermarkPersisted nextInSeqNum }
  let q ← Call.get
  if q.watermarkInFlight = some nextInSeqNum then
    Call.modify fun q => { q with watermarkInFlight := none }
  persistWatermark

/-! ## What the session emits -/

def onSessionEvent (e : Event) : SeqOp Unit :=
  match e with
  | .adminSendRequired msg => do
    let _ ← assign msg
    return ()
  | .loggedOn => do
    Call.modify fun q => { q with loggedOn := true }
    Call.emit (.session .loggedOn)
  | .messageReceived seqNum msg => do
    let next ← Call.lift (addU64 seqNum 1)
    Call.modify fun q => { q with sessionNextIn := max q.sessionNextIn next }
    let q ← Call.get
    if q.policy = .explicit .contiguous then
      Call.modify fun q => { q with unhandled := insert seqNum q.unhandled }
    Call.emit (.session (.messageReceived seqNum msg))
    persistWatermark
  | .inboundAdvanced nextInSeqNum => do
    Call.modify fun q => { q with sessionNextIn := max q.sessionNextIn nextInSeqNum }
    let q ← Call.get
    if q.policy = .explicit .highest then
      Call.modify fun q => { q with highestHandled := max q.highestHandled nextInSeqNum }
    persistWatermark
  | e => Call.emit (.session e)

/-- The next message that may go out: any once the session has logged on, and only
our Logon before that. -/
def popReady : SeqOp (Option Message) := do
  let q ← Call.get
  match q.ready with
  | [] => return none
  | msg :: rest => do
    if !q.loggedOn && msg.msgType ≠ "A" then
      return none
    Call.modify fun q => { q with ready := rest }
    return some msg

/-- Note that the write of `seqNum` has completed. -/
def markPersisted (seqNum : Nat) : List InFlight → List InFlight
  | [] => []
  | e :: rest =>
    if e.seqNum = seqNum then { e with persisted := true } :: rest
    else e :: markPersisted seqNum rest

/-- Note a completed write, and move what is persisted, in order, over to what may
be sent. -/
def collected (q : Sequencer) (seqNum : Nat) : Sequencer :=
  let inFlight := markPersisted seqNum q.inFlight
  { q with
    inFlight := inFlight.dropWhile InFlight.persisted
    ready := q.ready ++ (inFlight.takeWhile InFlight.persisted).map InFlight.msg }

end Sequencer

/-! ## A sequencer and what it commands -/

/-- Something a `Command` can be applied to, writing items of which some are
events for the sink. -/
structure CommandTarget (τ ω : Type) where
  onCommand : Command → Instant → Call τ ω Fault Progress
  event : ω → Option Event

/-- A sequencer and its target. -/
structure Sequenced (τ : Type) where
  seq : Sequencer
  target : τ

/-- What can be observed of them: what the application is told, which messages the
target is handed, and what else the target writes. -/
inductive Observed (ω : Type) where
  | app (e : SeqEvent)
  | handed (msg : Message)
  | wrote (o : ω)
  deriving DecidableEq, Repr

namespace Sequenced

variable {τ ω α : Type}

def onSeq (c : SeqOp α) : Call (Sequenced τ) (Observed ω) Fault α :=
  ⟨fun p =>
    let r := c.run p.seq
    ⟨{ p with seq := r.state }, r.out.map .app, r.result⟩⟩

/-- The `Intercept` sink: events go to the sequencer, the rest is written. -/
def intercept (event : ω → Option Event) (o : ω) : Call (Sequenced τ) (Observed ω) Fault Unit :=
  match event o with
  | some e => onSeq (Sequencer.onSessionEvent e)
  | none => Call.emit (.wrote o)

def sink (event : ω → Option Event) : List ω → Call (Sequenced τ) (Observed ω) Fault Unit
  | [] => return ()
  | o :: rest => do
    intercept event o
    sink event rest

/-- A call on the target, with the sequencer's sink as its output. -/
def onTarget (event : ω → Option Event) (c : Call τ ω Fault α) :
    Call (Sequenced τ) (Observed ω) Fault α := do
  let p ← Call.get
  let r := c.run p.target
  Call.modify fun p => { p with target := r.state }
  sink event r.out
  Call.lift r.result

variable (target : CommandTarget τ ω)

def handOver (msg : Message) (now : Instant) : Call (Sequenced τ) (Observed ω) Fault Progress := do
  Call.emit (.handed msg)
  onTarget target.event (target.onCommand (.send msg) now)

/-- Send what may now go out, at most `n` messages of it. -/
def releaseUpTo (now : Instant) : Nat → Call (Sequenced τ) (Observed ω) Fault Progress
  | 0 => return .continue
  | n + 1 => do
    match ← onSeq Sequencer.popReady with
    | none => return .continue
    | some msg => do
      match ← handOver target msg now with
      | .close => return .close
      | .continue => releaseUpTo now n

/-- Send whatever is persisted and may now go out. Nothing the target emits adds to
it, so the loop makes at most as many turns as there are messages. -/
def release (now : Instant) : Call (Sequenced τ) (Observed ω) Fault Progress := do
  let p ← Call.get
  releaseUpTo target now p.seq.ready.length

/-- The write of `seqNum` has completed. -/
def persisted (seqNum : Nat) (now : Instant) : Call (Sequenced τ) (Observed ω) Fault Progress := do
  onSeq Sequencer.checkLive
  let p ← Call.get
  if p.seq.inFlight.all fun e => e.seqNum ≠ seqNum then
    Call.fault (.err (.protocolViolation s!"MsgSeqNum {seqNum} is not awaiting persistence"))
  Call.modify fun p => { p with seq := p.seq.collected seqNum }
  release target now

end Sequenced

end Babelfix.Sequencing
