import Babelfix.Message.Block
import Babelfix.Lib.Call

/-! # What the session layer exchanges

Settings, commands, events and errors of the session layer (`session/mod.rs`,
`session/fields.rs`, `lib.rs`). Instants and durations are nanoseconds. -/
namespace Babelfix.Session

abbrev Instant := Nat
abbrev Duration := Nat

def nanosPerSec : Nat := 1000000000

/-! ## Errors -/

inductive Error where
  | invalidMessage (text : String)
  | protocolViolation (text : String)
  | connectionFailed (text : String)
  | busy
  | persistence (text : String)
  deriving DecidableEq, Repr

/-- Why a call stopped: it returned an error, or sequence number arithmetic left
the range of a `u64` (a panic in a build that checks for overflow). -/
inductive Fault where
  | err (e : Error)
  | overflow
  deriving DecidableEq, Repr

def addU64 (a b : Nat) : Except Fault Nat :=
  if a + b ≤ u64Max then .ok (a + b) else .error .overflow

def subU64 (a b : Nat) : Except Fault Nat :=
  if b ≤ a then .ok (a - b) else .error .overflow

theorem addU64_eq_ok {a b c} : addU64 a b = .ok c ↔ a + b ≤ u64Max ∧ c = a + b := by
  unfold addU64
  split
  · simp_all [eq_comm]
  · simp_all

theorem subU64_eq_ok {a b c} : subU64 a b = .ok c ↔ b ≤ a ∧ c = a - b := by
  unfold subU64
  split
  · simp_all [eq_comm]
  · simp_all

/-- A field that could not be read, as an error of the session layer. -/
def ofField {α : Type} : Except FieldError α → Except Fault α
  | .ok a => .ok a
  | .error e => .error (.err (.invalidMessage e.text))

theorem ofField_eq_ok {α : Type} {r : Except FieldError α} {a : α} :
    ofField r = .ok a ↔ r = .ok a := by
  cases r <;> simp [ofField]

/-! ## Fields -/

namespace Fields

def beginSeqNo : Field Nat := ⟨7, parseUint⟩
def endSeqNo : Field Nat := ⟨16, parseUint⟩
def msgSeqNum : Field Nat := ⟨34, parseUint⟩
def newSeqNo : Field Nat := ⟨36, parseUint⟩
def possDupFlag : Field Bool := ⟨43, parseBoolean⟩
def senderCompID : Field Bytes := ⟨49, .ok⟩
/-- The session layer never decodes a time: it moves its text. -/
def sendingTime : Field Bytes := ⟨52, .ok⟩
def targetCompID : Field Bytes := ⟨56, .ok⟩
def text : Field Bytes := ⟨58, .ok⟩
def encryptMethod : Field Bytes := ⟨98, .ok⟩
def heartBtInt : Field Int := ⟨108, parseInt⟩
def testReqID : Field Bytes := ⟨112, .ok⟩
def origSendingTime : Field Bytes := ⟨122, .ok⟩
def gapFillFlag : Field Bool := ⟨123, parseBoolean⟩
def defaultApplVerID : Field Bytes := ⟨1137, .ok⟩

end Fields

/-- `msg` is numbered `n`. -/
abbrev Carries (msg : Message) (n : Nat) : Prop := msg.header.req Fields.msgSeqNum = .ok n

theorem Carries.unique {msg n m} (h : Carries msg n) (h' : Carries msg m) : n = m :=
  Except.ok.inj (h.symm.trans h')

/-! ## Settings -/

/-- `"YYYYMMDD-HH:MM:SS."`: everything before the fractional digits. -/
def prefixLen : Nat := 18

inductive TimePrecision where
  | millis
  | micros
  | nanos
  | picos
  deriving DecidableEq, Repr

def TimePrecision.digits : TimePrecision → Nat
  | .millis => 3
  | .micros => 6
  | .nanos => 9
  | .picos => 12

/-- Total width of a timestamp at this precision. -/
def TimePrecision.width (p : TimePrecision) : Nat := prefixLen + p.digits

/-- What the session layer uses of a FIX version: its `BeginString`, and whether
its Logon has a `DefaultApplVerID`. -/
structure Dictionary where
  beginString : String
  logonHasDefaultApplVerID : Bool
  deriving DecidableEq, Repr

/-- Identifies a session. The comp IDs are held as the Latin-1 bytes they have on
the wire. -/
structure SessionIdentifier where
  beginString : String
  senderCompID : Bytes
  targetCompID : Bytes
  deriving DecidableEq, Repr

/-- The negotiated settings of a session. -/
structure SessionConfig where
  heartbeatInterval : Duration
  dict : Dictionary
  timePrecision : TimePrecision
  deriving DecidableEq, Repr

/-! ## Commands, events and output -/

/-- An outbound message whose `SendingTime` may still need writing. -/
structure Unstamped where
  msg : Message
  /-- `none` when the message already carries its `SendingTime`. -/
  precision : Option TimePrecision
  deriving DecidableEq, Repr

/-- Write the clock's text over the slot reserved for `SendingTime`, unless the
message already has one. -/
def Unstamped.stamp (u : Unstamped) (clock : Bytes) : Message :=
  match u.precision with
  | some _ => { u.msg with header := u.msg.header.place Fields.sendingTime.tag clock }
  | none => u.msg

/-- Something the application asks of a live session. -/
inductive Command where
  | send (msg : Message)
  | replay (msg : Message)
  | replayComplete
  | disconnect
  deriving DecidableEq, Repr

/-- Something the session tells the application about. -/
inductive Event where
  | connectionEstablished
  | adminSendRequired (msg : Message)
  | loggedOn
  | recoveryCompleted
  | rawMessageReceived (msg : Message)
  | rawMessageSent (msg : Message)
  | messageReceived (seqNum : Nat) (msg : Message)
  | inboundAdvanced (nextInSeqNum : Nat)
  | resendRequest (resendRequest : Message) (beginSeqNo endSeqNo : Nat)
  | disconnected
  deriving DecidableEq, Repr

/-- Whether the session is still alive after a call. -/
inductive Progress where
  | continue
  | close
  deriving DecidableEq, Repr

/-- What a transmitted message is. The source does not record it: it is noted
here so that properties can tell a new message from an answer to a
ResendRequest. -/
inductive Origin where
  | fresh
  | retransmission
  | gapFill
  deriving DecidableEq, Repr

/-- What a session writes to its output. -/
inductive Effect where
  | transmit (origin : Origin) (msg : Unstamped)
  | event (e : Event)
  deriving DecidableEq, Repr

end Babelfix.Session
