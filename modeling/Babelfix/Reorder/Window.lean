import Babelfix.Session.Types

/-! # The reorder window

Put messages on the wire in `MsgSeqNum` order when more than one sender numbers them
(`reorder.rs`). `release` is any call on a target of its own. Instants are natural
numbers, so `now + max_wait` always exists. -/
namespace Babelfix.Reorder
open Lib Session

structure ReorderConfig where
  /-- How far ahead of the next expected number a message may be and still be held. -/
  maxHeld : Nat
  maxWait : Nat
  deriving DecidableEq, Repr

/-- What became of an offered message. -/
inductive Offered where
  | taken (progress : Progress)
  | late (msg : Message)
  deriving DecidableEq, Repr

structure Held where
  seqNum : Nat
  expires : Instant
  msg : Message
  deriving DecidableEq, Repr

/-- Holds messages that arrive ahead of their turn. -/
structure ReorderWindow where
  maxWait : Nat
  /-- Indexed by the number modulo the length. -/
  slots : List (Option Held)
  held : Nat
  /-- The number expected next, once there has been a message. -/
  next : Option Nat
  /-- The earliest expiry of anything held. -/
  earliest : Option Instant
  deriving DecidableEq, Repr

namespace ReorderWindow

def new (config : ReorderConfig) : ReorderWindow where
  maxWait := config.maxWait
  slots := List.replicate config.maxHeld none
  held := 0
  next := none
  earliest := none

def slot (w : ReorderWindow) (n : Nat) : Option Held := (w.slots[n % w.slots.length]?).join

/-- Empty the slot of `h`. -/
def vacate (w : ReorderWindow) (h : Held) : ReorderWindow :=
  let slots := w.slots.set (h.seqNum % w.slots.length) none
  let held := w.held - 1
  { w with
    slots
    held
    earliest :=
      if held = 0 then none
      else if w.earliest = some h.expires then
        (slots.filterMap fun s => s.map Held.expires).min?
      else w.earliest }

/-- Take the message held under `n`, if there is one. -/
def take (w : ReorderWindow) (n : Nat) : Option (Message × ReorderWindow) :=
  match w.slot n with
  | none => none
  | some h => if h.seqNum = n then some (h.msg, w.vacate h) else none

/-- Keep `msg` until its turn comes. -/
def hold (w : ReorderWindow) (n : Nat) (msg : Message) (now : Instant) : ReorderWindow :=
  let expires := now + w.maxWait
  { w with
    slots := w.slots.set (n % w.slots.length) (some ⟨n, expires, msg⟩)
    held := w.held + 1
    earliest := some (match w.earliest with | none => expires | some e => min e expires) }

/-- The highest number that has waited too long by `now`. -/
def expiredThrough (w : ReorderWindow) (now : Instant) : Option Nat :=
  (w.slots.filterMap fun s => (s.filter fun h => h.expires ≤ now).map Held.seqNum).max?

end ReorderWindow

/-- A window and what `release` acts on. -/
structure Windowed (τ : Type) where
  window : ReorderWindow
  target : τ

/-- What can be observed: which messages are released, and what `release` writes. -/
inductive Shown (ω : Type) where
  | released (msg : Message)
  | wrote (o : ω)

abbrev WindowOp (τ ω : Type) := Call (Windowed τ) (Shown ω) Fault

/-- What becomes of a released message. -/
abbrev Release (τ ω : Type) := Message → Call τ ω Fault Progress

namespace Windowed

variable {τ ω : Type} (release : Release τ ω)

def handOn (msg : Message) : WindowOp τ ω Progress :=
  ⟨fun p =>
    let r := (release msg).run p.target
    ⟨{ p with target := r.state }, .released msg :: r.out.map .wrote, r.result⟩⟩

def takeHeld (n : Nat) : WindowOp τ ω (Option Message) :=
  ⟨fun p =>
    match p.window.take n with
    | none => ⟨p, [], .ok none⟩
    | some (msg, window) => ⟨{ p with window }, [], .ok (some msg)⟩⟩

def setNext (n : Nat) : WindowOp τ ω Unit :=
  Call.modify fun p => { p with window := { p.window with next := some n } }

/-- The loop of `releaseThrough`: the numbers from `n` on, `count` of them. -/
def releaseFrom : Nat → Nat → WindowOp τ ω Progress
  | 0, _ => return .continue
  | count + 1, n => do
    let p ← Call.get
    if p.window.held = 0 then
      return .continue
    match ← takeHeld n with
    | none => releaseFrom count (n + 1)
    | some msg => do
      match ← handOn release msg with
      | .close => return .close
      | .continue => releaseFrom count (n + 1)

/-- Release everything held up to and including `through`, in order, skipping the
gaps. Leaves `next` for the caller. -/
def releaseThrough (through : Nat) : WindowOp τ ω Progress := do
  let p ← Call.get
  match p.window.next with
  | none => return .continue
  | some next => do
    let bound ← Call.lift (addU64 next p.window.slots.length)
    let last := min through bound
    releaseFrom release (last + 1 - next) next

/-- The loop of `releaseRun`, at most `n` turns of it. -/
def releaseRunUpTo : Nat → WindowOp τ ω Progress
  | 0 => return .continue
  | n + 1 => do
    let p ← Call.get
    match p.window.next with
    | none => return .continue
    | some next => do
      match ← takeHeld next with
      | none => return .continue
      | some msg => do
        let after ← Call.lift (addU64 next 1)
        setNext after
        match ← handOn release msg with
        | .close => return .close
        | .continue => releaseRunUpTo n

/-- Release the run of held messages starting at `next`. Each turn takes one, so there
are at most as many turns as messages held. -/
def releaseRun : WindowOp τ ω Progress := do
  let p ← Call.get
  releaseRunUpTo release p.window.held

/-- Release, gaps and all, everything held that has waited too long by `now`, and
everything held behind it. -/
def expire (now : Instant) : WindowOp τ ω Progress := do
  let p ← Call.get
  if p.window.earliest.all fun e => now < e then
    return .continue
  match p.window.expiredThrough now with
  | none => return .continue
  | some through => do
    match ← releaseThrough release through with
    | .close => return .close
    | .continue => do
      let after ← Call.lift (addU64 through 1)
      setNext after
      releaseRun release

/-- `msg` is next: it goes first, with the run it completes. -/
def offerNext (msg : Message) (n : Nat) (now : Instant) : WindowOp τ ω Offered := do
  let after ← Call.lift (addU64 n 1)
  setNext after
  match ← handOn release msg with
  | .close => return .taken .close
  | .continue => do
    match ← releaseRun release with
    | .close => return .taken .close
    | .continue => return .taken (← expire release now)

/-- `msg` comes first, late, too far ahead, or is held. -/
def offerAhead (msg : Message) (n : Nat) (now : Instant) : WindowOp τ ω Offered := do
  let p ← Call.get
  match p.window.next with
  | none => do
    let after ← Call.lift (addU64 n 1)
    setNext after
    return .taken (← handOn release msg)
  | some next => do
    if n < next then
      return .late msg
    if p.window.slots.length < n - next then do
      match ← releaseThrough release (n - 1) with
      | .close => return .taken .close
      | .continue => do
        let after ← Call.lift (addU64 n 1)
        setNext after
        match ← handOn release msg with
        | .close => return .taken .close
        | .continue => return .taken (← releaseRun release)
    else if (p.window.slot n).isSome then
      return .late msg
    else do
      Call.modify fun p => { p with window := p.window.hold n msg now }
      return .taken .continue

/-- `msg` is not next: what has waited too long goes before it. -/
def offerOther (msg : Message) (n : Nat) (now : Instant) : WindowOp τ ω Offered := do
  match ← expire release now with
  | .close => return .taken .close
  | .continue => offerAhead release msg n now

/-- Release `msg` if it is next, along with anything held that follows it, or hold it
until it is. -/
def offer (msg : Message) (now : Instant) : WindowOp τ ω Offered := do
  let p ← Call.get
  if p.window.slots.isEmpty then
    return .taken (← handOn release msg)
  match msg.header.get Fields.msgSeqNum with
  | .ok (some n) => do
    if n = 0 then
      return .taken (← handOn release msg)
    if p.window.next = some n then
      offerNext release msg n now
    else
      offerOther release msg n now
  | _ => return .taken (← handOn release msg)

end Windowed

end Babelfix.Reorder
