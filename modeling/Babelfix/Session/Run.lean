import Babelfix.Lib.Trace
import Babelfix.Session.Outbound

/-! # Runs of a session

Everything a driver can call on a `SessionState`, as one input type, and `Step`:
what each call can do. -/
namespace Babelfix.Session
open Lib

/-- A call on a session. -/
inductive Input where
  | requestLogon
  | start (logon : Message) (now : Instant)
  | message (msg : Message) (now : Instant)
  | command (cmd : Command) (now : Instant)
  | timeout (now : Instant)
  | peerClosed
  deriving DecidableEq, Repr

namespace Input

def call : Input → Op Progress
  | .requestLogon => do
    SessionState.requestLogon
    return .continue
  | .start logon now => SessionState.start logon now
  | .message msg now => SessionState.onMessage msg now
  | .command cmd now => SessionState.onCommand cmd now
  | .timeout now => SessionState.onTimeout now
  | .peerClosed => SessionState.onPeerClosed

/-- The frame a call feeds to the session. -/
def inbound : Input → Option Message
  | .start logon _ => some logon
  | .message msg _ => some msg
  | _ => none

end Input

/-- The state once the outbound heartbeat has been put off. -/
def outReset (s : SessionState) (now : Instant) : SessionState :=
  { s with timers := s.timers.resetOut now }

inductive Step : Input → SessionState → OpOutcome Progress → Prop
  | requestLogon {s} : Step .requestLogon s
    ⟨s, [.event (.adminSendRequired (SessionState.logonMessage s.config))], .ok .continue⟩
  | start {logon now s r} (h : Started logon now s r) : Step (.start logon now) s r
  | message {msg now s r} (h : Received msg now s r) : Step (.message msg now) s r
  | send {msg now s r} (h : Sent msg now s r) : Step (.command (.send msg) now) s r
  | replayed {msg now s r} (h : Replayed msg (outReset s now) r) (hok : r.result = .ok ()) :
    Step (.command (.replay msg) now) s ⟨r.state, r.out, .ok .continue⟩
  | replayFailed {msg now s r f} (h : Replayed msg (outReset s now) r) (hf : r.result = .error f) :
    Step (.command (.replay msg) now) s ⟨r.state, r.out, .error f⟩
  | replayComplete {now s r} (h : Completed (outReset s now) r) :
    Step (.command .replayComplete now) s r
  | disconnect {now s} (hc : s.closing = none) :
    Step (.command .disconnect now) s ⟨closed s now,
      [.event (.adminSendRequired (s.logout SessionState.disconnectText))], .ok .continue⟩
  | disconnectAgain {now s c} (hc : s.closing = some c) :
    Step (.command .disconnect now) s ⟨s, [], .ok .continue⟩
  | timeout {now s r} (h : TimedOut now s r) : Step (.timeout now) s r
  | peerClosed {s} : Step .peerClosed s ⟨s, [.event .disconnected], .ok .close⟩

/-- **What every call on a session can do.** -/
theorem step_spec (i : Input) (s : SessionState) : Step i s (i.call.run s) := by
  cases i with
  | requestLogon => exact .requestLogon
  | start logon now => exact .start (SessionState.start_spec logon now s)
  | message msg now => exact .message (SessionState.onMessage_spec msg now s)
  | timeout now => exact .timeout (SessionState.onTimeout_spec now s)
  | peerClosed => exact .peerClosed
  | command cmd now =>
    cases cmd with
    | send msg => exact .send (SessionState.send_spec msg now s)
    | replay msg =>
      have h := SessionState.replayMessage_spec msg (outReset s now)
      have hrun : (Input.command (.replay msg) now).call.run s =
          ((SessionState.replayMessage msg).run (outReset s now)).andThen
            fun _ => return .continue := rfl
      rw [hrun]
      generalize (SessionState.replayMessage msg).run (outReset s now) = r at h
      cases hr : r.result with
      | error f =>
        rw [Outcome.andThen_of_error _ hr]
        exact .replayFailed h hr
      | ok u =>
        rw [Outcome.andThen_of_ok _ hr]
        have hm := Step.replayed h hr
        simpa using hm
    | replayComplete => exact .replayComplete (SessionState.completeReplay_spec (outReset s now))
    | disconnect =>
      have hrun : (Input.command .disconnect now).call.run s =
          ((SessionState.requestLogout SessionState.disconnectText now).run s).andThen
            fun _ => return .continue := rfl
      rw [hrun, SessionState.run_requestLogout]
      cases hc : s.closing with
      | none => exact .disconnect hc
      | some c => exact .disconnectAgain hc

/-! ## The outbound side -/

/-- The outbound side is as it was. -/
structure SameSending (s s' : SessionState) : Prop where
  sessionId : s'.sessionId = s.sessionId
  config : s'.config = s.config
  highestSent : s'.highestSent = s.highestSent
  highestAccepted : s'.highestAccepted = s.highestAccepted
  replay : s'.replay = s.replay

/-- What a call does to the outbound side. -/
inductive Sending (i : Input) (s : SessionState)
    (r : OpOutcome Progress) : Prop
  | inbound {msg} (hi : i.inbound = some msg) (h : Outbound msg s r.state r.out)
  | send {msg now} (hi : i = .command (.send msg) now) (h : Sent msg now s r)
  | replay {msg now r'} (hi : i = .command (.replay msg) now) (h : Replayed msg (outReset s now) r')
    (hs : r.state = r'.state) (ho : r.out = r'.out)
  | complete {now} (hi : i = .command .replayComplete now) (h : Completed (outReset s now) r)
  | quiet (hi : ∀ msg now, i ≠ .command (.send msg) now) (h : SameSending s r.state)
    (ho : transmissions r.out = []) (hq : resends r.out = [])

theorem Step.sending {i s r} (h : Step i s r) : Sending i s r := by
  cases h with
  | start h | message h => exact .inbound rfl h.outbound
  | send h => exact .send rfl h
  | replayed h hok | replayFailed h hf => exact .replay rfl h rfl rfl
  | replayComplete h => exact .complete rfl h
  | timeout h =>
    cases h with
    | ticked hc hb hk =>
      cases hb <;> cases hk <;> exact .quiet (by simp) ⟨rfl, rfl, rfl, rfl, rfl⟩ rfl rfl
    | _ => exact .quiet (by simp) ⟨rfl, rfl, rfl, rfl, rfl⟩ rfl rfl
  | _ => exact .quiet (by simp) ⟨rfl, rfl, rfl, rfl, rfl⟩ rfl rfl

/-! ## A sample session -/

namespace Sample

def config : SessionConfig :=
  ⟨30 * nanosPerSec, ⟨"FIX.4.4", false⟩, .millis⟩

def sessionId : SessionIdentifier := ⟨"FIX.4.4", ascii "US", ascii "THEM"⟩

def session : SessionState := .new sessionId config 1 0

/-- A message of the given type and number, and nothing else. -/
def numbered (msgType : String) (n : Nat) : Message :=
  { Message.new "FIX.4.4" msgType with header := [.field 34 (writeUint n)] }

/-- Our Logon, numbered 1. -/
def logon : Message :=
  { SessionState.logonMessage config with header := [.field 34 (writeUint 1)] }

end Sample

end Babelfix.Session
