import Babelfix.Lib.Trace
import Babelfix.Session.Types

/-! # Handing events to the application

Events go straight into the application's channel where they can, and are queued once it is
full. The application takes them out on its own task, whenever it likes, and may go away. -/
namespace Babelfix.Tokio
open Lib Session

/-- An event as the application is given it. -/
inductive SessionEvent where
  | connectionEstablished
  | loggedOn
  | recoveryCompleted
  | rawMessageReceived (msg : Message) (receivedAt : Nat)
  | rawMessageSent (msg : Message)
  | messageReceived (seqNum : Nat) (msg : Message)
  | resendRequest (resendRequest : Message) (beginSeqNo endSeqNo : Nat)
  | disconnected
  deriving DecidableEq, Repr

def SessionEvent.fromCore (receivedAt : Nat) : Event → Option SessionEvent
  | .connectionEstablished => some .connectionEstablished
  | .loggedOn => some .loggedOn
  | .recoveryCompleted => some .recoveryCompleted
  | .rawMessageReceived msg => some (.rawMessageReceived msg receivedAt)
  | .rawMessageSent msg => some (.rawMessageSent msg)
  | .messageReceived n msg => some (.messageReceived n msg)
  | .resendRequest msg first last => some (.resendRequest msg first last)
  | .disconnected => some .disconnected
  | .adminSendRequired _ | .inboundAdvanced _ => none

/-- A channel as `futures::channel::mpsc` has them, as far as anything rests on it. -/
structure Mpsc (α : Type) where
  Chan : Type
  new : Chan
  send : α → Chan → Chan
  recv : Chan → Option (α × Chan)
  /-- What has been sent and not received. -/
  unread : Chan → List α
  unread_new : unread new = []
  unread_send : ∀ x c, unread (send x c) = unread c ++ [x]
  fifo : ∀ {c x c'}, recv c = some (x, c') → unread c = x :: unread c'

instance {α : Type} : Inhabited (Mpsc α) where
  default :=
    { Chan := List α
      new := []
      send := fun x c => c ++ [x]
      recv := fun c => c.head?.map (·, c.tail)
      unread := id
      unread_new := rfl
      unread_send := fun _ _ => rfl
      fifo := fun {c _ _} h => by
        cases c with
        | nil => cases h
        | cons x c =>
          cases h
          rfl }

/-- The application has dropped its end of the channel. -/
def chanClosed : Fault := .err (.connectionFailed "session channel closed")

structure Delivery (ch : Mpsc SessionEvent) where
  /-- Events the application could not take yet. -/
  events : List SessionEvent
  channel : ch.Chan
  /-- Whether the application still holds its end of the channel. -/
  isOpen : Bool
  /-- When the bytes being processed were read. -/
  receivedAt : Nat

variable {ch : Mpsc SessionEvent}

namespace Delivery

def new (ch : Mpsc SessionEvent) (now : Nat) : Delivery ch := ⟨[], ch.new, true, now⟩

def markReceived (now : Nat) : Call (Delivery ch) SessionEvent Fault Unit :=
  Call.modify fun d => { d with receivedAt := now }

/-- Deliver an event. Whether the channel has room for it is up to the channel. -/
def event (room : Bool) (e : Event) : Call (Delivery ch) SessionEvent Fault Unit := do
  let d ← Call.get
  match SessionEvent.fromCore d.receivedAt e with
  | none => return ()
  | some ev =>
    if !d.events.isEmpty then
      Call.modify fun d => { d with events := d.events ++ [ev] }
    else if !d.isOpen then
      Call.fault chanClosed
    else if room then
      Call.modify fun d => { d with channel := ch.send ev d.channel }
    else
      Call.modify fun d => { d with events := d.events ++ [ev] }

/-- One turn of `flush`: it waits for room. -/
def flushOne : Call (Delivery ch) SessionEvent Fault Unit := do
  let d ← Call.get
  match d.events with
  | [] => return ()
  | ev :: rest =>
    Call.modify fun d => { d with events := rest }
    if !d.isOpen then
      Call.fault chanClosed
    else
      Call.modify fun d => { d with channel := ch.send ev d.channel }

def take : Call (Delivery ch) SessionEvent Fault Unit := do
  let d ← Call.get
  match ch.recv d.channel with
  | none => return ()
  | some (ev, rest) =>
    Call.modify fun d => { d with channel := rest }
    Call.emit ev

/-- The application drops its end of the channel, and what is in it. -/
def drop : Call (Delivery ch) SessionEvent Fault Unit :=
  Call.modify fun d => { d with channel := ch.new, isOpen := false }

end Delivery

/-- What happens to a delivery, on the session's task and on the application's. -/
inductive Passing where
  | event (e : Event) (room : Bool)
  | read (now : Nat)
  | flush
  | take
  | drop

def Passing.step : Passing → Call (Delivery ch) SessionEvent Fault Unit
  | .event e room => Delivery.event room e
  | .read now => Delivery.markReceived now
  | .flush => Delivery.flushOne
  | .take => Delivery.take
  | .drop => Delivery.drop

abbrev PassingTurn (ch : Mpsc SessionEvent) := Turn Passing (Delivery ch) SessionEvent Fault Unit

/-- What a turn has for the application. -/
def told (t : PassingTurn ch) : List SessionEvent :=
  match t.input with
  | .event e _ => (SessionEvent.fromCore t.before.receivedAt e).toList
  | _ => []

/-- Where the events `all` are, of which the application has taken `taken`: lost only if it has
gone away. -/
inductive Passed (all taken : List SessionEvent) (d : Delivery ch) : Prop
  | held (hopen : d.isOpen = true) (h : taken ++ ch.unread d.channel ++ d.events = all)
  | gone (hopen : d.isOpen = false) (hnone : ch.unread d.channel = []) (h : taken <+: all)

variable {all taken : List SessionEvent} {d : Delivery ch}

theorem Passed.event (h : Passed all taken d) (e : Event) (room : Bool) :
    Passed (all ++ (SessionEvent.fromCore d.receivedAt e).toList)
      (taken ++ ((Delivery.event room e).run d).out) ((Delivery.event room e).run d).state := by
  cases he : SessionEvent.fromCore d.receivedAt e with
  | none => simpa [Delivery.event, he] using h
  | some ev =>
    cases h with
    | held hopen h =>
      subst h
      -- an event overtakes no other: it goes into the channel only if nothing is queued
      cases hq : d.events <;> cases room <;>
        exact .held (by simp [Delivery.event, he, hq, hopen])
          (by simp [Delivery.event, he, hq, hopen, ch.unread_send])
    | gone hopen hnone h =>
      have hmore : taken <+: all ++ [ev] := h.trans (List.prefix_append _ _)
      cases hq : d.events <;>
        exact .gone (by simp [Delivery.event, he, hq, hopen])
          (by simp [Delivery.event, he, hq, hopen, hnone])
          (by simpa [Delivery.event, he, hq, hopen] using hmore)

theorem Passed.flushOne (h : Passed all taken d) :
    Passed all (taken ++ (Delivery.flushOne.run d).out) (Delivery.flushOne.run d).state := by
  cases hq : d.events with
  | nil => simpa [Delivery.flushOne, hq] using h
  | cons ev rest =>
    cases h with
    | held hopen h =>
      exact .held (by simp [Delivery.flushOne, hq, hopen])
        (by simp [Delivery.flushOne, hq, hopen, ch.unread_send, ← h])
    | gone hopen hnone h =>
      exact .gone (by simp [Delivery.flushOne, hq, hopen])
        (by simp [Delivery.flushOne, hq, hopen, hnone])
        (by simpa [Delivery.flushOne, hq, hopen] using h)

theorem Passed.take (h : Passed all taken d) :
    Passed all (taken ++ (Delivery.take.run d).out) (Delivery.take.run d).state := by
  cases hc : ch.recv d.channel with
  | none => simpa [Delivery.take, hc] using h
  | some received =>
    have hfirst := ch.fifo hc
    cases h with
    | held hopen h =>
      exact .held (by simp [Delivery.take, hc, hopen]) (by simp [Delivery.take, hc, hfirst, ← h])
    | gone _ hnone _ => cases hfirst.symm.trans hnone

theorem Passed.step (h : Passed all taken d) (i : Passing) :
    Passed (all ++ told ⟨d, i, i.step.run d⟩) (taken ++ (i.step.run d).out)
      (i.step.run d).state := by
  cases i with
  | event e room => exact h.event e room
  | read now =>
    cases h with
    | held hopen h =>
      exact .held hopen (by simpa [told, Passing.step, Delivery.markReceived] using h)
    | gone hopen hnone h =>
      exact .gone hopen hnone (by simpa [told, Passing.step, Delivery.markReceived] using h)
  | flush => simpa [told, Passing.step] using h.flushOne
  | take => simpa [told, Passing.step] using h.take
  | drop =>
    refine .gone rfl ch.unread_new ?_
    cases h with
    | held _ h => simp [told, Passing.step, Delivery.drop, ← h]
    | gone _ _ h => simpa [told, Passing.step, Delivery.drop] using h

end Babelfix.Tokio
