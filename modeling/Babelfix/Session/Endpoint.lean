import Babelfix.Session.Handshake
import Babelfix.Session.Run

/-! # One side of a connection

A session with its logon exchange, as the drivers put them together
(`driver.rs`): the initiator asks for its Logon when it connects and waits for the
peer's; the acceptor's session starts with the peer's Logon. -/
namespace Babelfix.Session
open Lib

/-- How far the logon exchange is. -/
inductive Phase where
  /-- Not connected. -/
  | idle
  /-- The initiator waits for the peer's Logon. -/
  | opening (deadline : Instant)
  | live
  deriving DecidableEq, Repr

structure Endpoint where
  phase : Phase
  session : SessionState
  deriving DecidableEq, Repr

/-- What happens to a connection. -/
inductive EndpointInput where
  | initiate (logonTimeout : Duration) (now : Instant)
  | receive (msg : Message) (now : Instant)
  | timeout (now : Instant)
  | peerClosed
  | command (cmd : Command) (now : Instant)
  deriving DecidableEq, Repr

/-- A call on one side of a connection. -/
abbrev EndpointOp := Call Endpoint Effect Fault

namespace Endpoint

def new (sessionId : SessionIdentifier) (config : SessionConfig) (nextInSeqNum : Nat) : Endpoint :=
  ⟨.idle, .new sessionId config nextInSeqNum 0⟩

/-- The session as it is made when the connection opens. -/
def opened (e : Endpoint) (now : Instant) : SessionState :=
  .new e.session.sessionId e.session.config e.session.nextInSeqNum now

/-- A call on the session. -/
def onSession {α : Type} (c : Op α) : EndpointOp α :=
  ⟨fun e =>
    let r := c.run e.session
    ⟨{ e with session := r.state }, r.out, r.result⟩⟩

/-- Connect: the initiator's side of the exchange begins. -/
def initiate (logonTimeout : Duration) (now : Instant) : EndpointOp Progress :=
  ⟨fun e =>
    match e.phase with
    | .idle =>
      let (h, out) := InitiatorHandshake.start e.session.sessionId e.session.config
        e.session.nextInSeqNum logonTimeout now
      ⟨⟨.opening h.deadline, h.state⟩, out, .ok .continue⟩
    | _ => ⟨e, [], .ok .continue⟩⟩

/-- The first frame an acceptor gets. The application takes the session it is
waiting for and no other. -/
def accept (logon : Message) (now : Instant) : EndpointOp Progress :=
  ⟨fun e =>
    match (AcceptorHandshake.new 0 now).identify logon with
    | .error f => ⟨e, [], .error f⟩
    | .ok h =>
      if h.pending.map PendingLogon.sessionId = some e.session.sessionId then
        match h.accept e.session.config e.session.nextInSeqNum now with
        | .error f => ⟨e, [], .error f⟩
        | .ok r => ⟨⟨.live, r.state⟩, r.out, r.result⟩
      else ⟨e, [], .ok .close⟩⟩

/-- The peer's Logon completes the initiator's exchange. -/
def onPeerLogon (logon : Message) (now : Instant) : EndpointOp Progress := do
  let progress ← onSession (InitiatorHandshake.onPeerLogon logon now)
  Call.modify fun e => { e with phase := .live }
  return progress

def receive (msg : Message) (now : Instant) : EndpointOp Progress := do
  let e ← Call.get
  match e.phase with
  | .idle => accept msg now
  | .opening _ => onPeerLogon msg now
  | .live => onSession (SessionState.onMessage msg now)

def timeout (now : Instant) : EndpointOp Progress := do
  let e ← Call.get
  match e.phase with
  | .idle => return .continue
  | .opening deadline => do
    Call.lift (expired deadline now)
    return .continue
  | .live => onSession (SessionState.onTimeout now)

def peerClosed : EndpointOp Progress := do
  let e ← Call.get
  match e.phase with
  | .live => onSession SessionState.onPeerClosed
  | _ => return .close

def command (cmd : Command) (now : Instant) : EndpointOp Progress := do
  let e ← Call.get
  match e.phase with
  | .idle => return .close
  | .opening _ => onSession (InitiatorHandshake.onCommand cmd now)
  | .live => onSession (SessionState.onCommand cmd now)

end Endpoint

def EndpointInput.call : EndpointInput → EndpointOp Progress
  | .initiate logonTimeout now => Endpoint.initiate logonTimeout now
  | .receive msg now => Endpoint.receive msg now
  | .timeout now => Endpoint.timeout now
  | .peerClosed => Endpoint.peerClosed
  | .command cmd now => Endpoint.command cmd now

/-- What a connection passes to its session once it is live, and while it waits for
the peer's Logon. -/
def EndpointInput.passed : EndpointInput → Option Input
  | .receive msg now => some (.message msg now)
  | .timeout now => some (.timeout now)
  | .peerClosed => some .peerClosed
  | .command cmd now => some (.command cmd now)
  | .initiate _ _ => none

theorem passed_input {i : EndpointInput} {j} (h : i.passed = some j)
    (hsend : ∀ msg now, i ≠ .command (.send msg) now) :
    (∀ msg now, j ≠ .command (.send msg) now) ∧ j ≠ .requestLogon := by
  refine ⟨?_, ?_⟩
  · intro msg now hj
    subst hj
    cases i with
    | command cmd now' =>
      cases h
      exact hsend _ _ rfl
    | _ => cases h
  · intro hj
    subst hj
    cases i <;> cases h

def announceOut (config : SessionConfig) : List Effect :=
  [.event .connectionEstablished, .event (.adminSendRequired (SessionState.logonMessage config))]

/-- What welcoming the peer writes before its Logon is processed. -/
def welcomeOut (config : SessionConfig) (logon : Message) : List Effect :=
  [.event .connectionEstablished, .event (.rawMessageReceived logon),
    .event (.adminSendRequired (SessionState.logonMessage config))]

/-- What a call on one side of a connection can do. -/
inductive Acted (i : EndpointInput) (e : Endpoint) :
    Outcome Endpoint Effect Fault Progress → Prop
  | nothing {result} : Acted i e ⟨e, [], result⟩
  | announced {logonTimeout now} (hi : i = .initiate logonTimeout now) (hp : e.phase = .idle) :
    Acted i e ⟨⟨.opening (now + logonTimeout), e.opened now⟩, announceOut e.session.config,
      .ok .continue⟩
  | welcomed {logon now r} (hi : i = .receive logon now) (hp : e.phase = .idle)
    (ha : logon.msgType = "A") (hid : sessionIdFromLogon logon = .ok e.session.sessionId)
    (h : Started logon now (e.opened now) r) :
    Acted i e ⟨⟨.live, r.state⟩, welcomeOut e.session.config logon ++ r.out, r.result⟩
  | answered {logon now r phase} (hi : i = .receive logon now) (hp : e.phase ≠ .idle)
    (ha : logon.msgType = "A") (hsent : e.session.highestSent ≠ 0)
    (h : Started logon now e.session r) (hok : ∀ p, r.result = .ok p → phase = .live)
    (herr : ∀ f, r.result = .error f → phase = e.phase) :
    Acted i e ⟨⟨phase, r.state⟩, .event (.rawMessageReceived logon) :: r.out, r.result⟩
  | passed {j r} (hi : i.passed = some j) (hp : e.phase ≠ .idle) (h : Step j e.session r) :
    Acted i e ⟨⟨e.phase, r.state⟩, r.out, r.result⟩

namespace Endpoint

theorem run_onSession {α : Type} (c : Op α) (e : Endpoint) : (onSession c).run e =
    ⟨⟨e.phase, (c.run e.session).state⟩, (c.run e.session).out, (c.run e.session).result⟩ := rfl

variable {e : Endpoint}

theorem run_receive_idle (msg : Message) (now : Instant) (hp : e.phase = .idle) :
    (receive msg now).run e = (accept msg now).run e := by
  simp [receive, hp]

variable {deadline : Instant}

theorem run_receive_opening (msg : Message) (now : Instant) (hp : e.phase = .opening deadline) :
    (receive msg now).run e = (onPeerLogon msg now).run e := by
  simp [receive, hp]

theorem run_receive_live (msg : Message) (now : Instant) (hp : e.phase = .live) :
    (receive msg now).run e = (onSession (SessionState.onMessage msg now)).run e := by
  simp [receive, hp]

theorem run_timeout_opening (now : Instant) (hp : e.phase = .opening deadline) :
    (timeout now).run e = ⟨e, [], (expired deadline now).map fun _ => .continue⟩ := by
  cases hx : expired deadline now <;> simp [timeout, hp, hx, Except.map]

theorem run_timeout_live (now : Instant) (hp : e.phase = .live) :
    (timeout now).run e = (onSession (SessionState.onTimeout now)).run e := by
  simp [timeout, hp]

theorem run_command_opening (cmd : Command) (now : Instant) (hp : e.phase = .opening deadline) :
    (command cmd now).run e = (onSession (InitiatorHandshake.onCommand cmd now)).run e := by
  simp [command, hp]

theorem run_command_live (cmd : Command) (now : Instant) (hp : e.phase = .live) :
    (command cmd now).run e = (onSession (SessionState.onCommand cmd now)).run e := by
  simp [command, hp]

theorem expectLogon_eq_ok {logon} (h : expectLogon logon = .ok ()) : logon.msgType = "A" := by
  unfold expectLogon at h
  split at h
  · cases h
  · exact not_not.mp ‹_›

theorem identify_eq_ok {logonTimeout now logon h}
    (hid : (AcceptorHandshake.new logonTimeout now).identify logon = .ok h) :
    logon.msgType = "A" ∧ ∃ sessionId, sessionIdFromLogon logon = .ok sessionId ∧
      h.pending = some ⟨sessionId, logon⟩ := by
  obtain ⟨u, hlogon, hid⟩ := bind_eq_ok (x := expectLogon logon) hid
  obtain ⟨sessionId, hsession, hid⟩ := bind_eq_ok hid
  cases hid
  exact ⟨expectLogon_eq_ok hlogon, sessionId, hsession, rfl⟩

theorem accept_spec (logon : Message) (now : Instant) (hp : e.phase = .idle) :
    Acted (.receive logon now) e ((accept logon now).run e) := by
  unfold accept
  dsimp only
  split
  · exact .nothing
  · rename_i h hid
    obtain ⟨ha, sessionId, hsession, hpending⟩ := identify_eq_ok hid
    split
    · rename_i hsame
      rw [hpending, Option.map_some] at hsame
      have hsame : sessionId = e.session.sessionId := Option.some.inj hsame
      subst hsame
      have hstart := SessionState.start_spec logon now (e.opened now)
      rw [AcceptorHandshake.accept, hpending]
      exact .welcomed rfl hp ha hsession hstart
    · exact .nothing

/-- The peer's Logon: refused outright, or processed. -/
theorem onPeerLogon_cases (logon : Message) (now : Instant) (e : Endpoint) :
    (∃ result, (onPeerLogon logon now).run e = ⟨e, [], result⟩) ∨
    logon.msgType = "A" ∧ e.session.highestSent ≠ 0 ∧ ∃ r phase, Started logon now e.session r ∧
      (∀ p, r.result = .ok p → phase = .live) ∧ (∀ f, r.result = .error f → phase = e.phase) ∧
      (onPeerLogon logon now).run e =
        ⟨⟨phase, r.state⟩, .event (.rawMessageReceived logon) :: r.out, r.result⟩ := by
  have hrun : (onPeerLogon logon now).run e =
      ((onSession (InitiatorHandshake.onPeerLogon logon now)).run e).andThen fun progress =>
        Call.modify (fun e => { e with phase := .live }) >>= fun _ => pure progress := rfl
  rw [hrun, run_onSession]
  cases hlogon : expectLogon logon with
  | error f =>
    have hno : (InitiatorHandshake.onPeerLogon logon now).run e.session =
        ⟨e.session, [], .error f⟩ := by
      simp [InitiatorHandshake.onPeerLogon, hlogon]
    rw [hno]
    exact .inl ⟨_, rfl⟩
  | ok u =>
    by_cases hsent : e.session.highestSent = 0
    · have hno : (InitiatorHandshake.onPeerLogon logon now).run e.session = ⟨e.session, [],
          .error (.err (.protocolViolation "peer sent its Logon before ours went out"))⟩ := by
        simp [InitiatorHandshake.onPeerLogon, hlogon, hsent, err]
      rw [hno]
      exact .inl ⟨_, rfl⟩
    · have hgo : (InitiatorHandshake.onPeerLogon logon now).run e.session =
          ((SessionState.start logon now).run e.session).prepend
            [.event (.rawMessageReceived logon)] := by
        simp [InitiatorHandshake.onPeerLogon, hlogon, hsent, event]
      have hstart := SessionState.start_spec logon now e.session
      rw [hgo]
      generalize (SessionState.start logon now).run e.session = r at hstart
      refine .inr ⟨expectLogon_eq_ok hlogon, hsent, r, ?_⟩
      cases hr : r.result with
      | error f =>
        exact ⟨e.phase, hstart, by simp, by simp, by simp [hr]⟩
      | ok p =>
        exact ⟨.live, hstart, by simp, by simp, by simp [hr]⟩

theorem onPeerLogon_spec (logon : Message) (now : Instant) (hp : e.phase ≠ .idle) :
    Acted (.receive logon now) e ((onPeerLogon logon now).run e) := by
  obtain ⟨result, hrun⟩ | ⟨hA, hsent, r, phase, hstart, hok, herr, hrun⟩ :=
    onPeerLogon_cases logon now e
  · rw [hrun]
    exact .nothing
  · rw [hrun]
    exact .answered rfl hp hA hsent hstart hok herr

end Endpoint

/-- **What every call on one side of a connection can do.** -/
theorem acted_spec (i : EndpointInput) (e : Endpoint) : Acted i e (i.call.run e) := by
  cases i with
  | initiate logonTimeout now =>
    show Acted _ e ((Endpoint.initiate logonTimeout now).run e)
    unfold Endpoint.initiate
    dsimp only
    split
    · exact .announced rfl ‹_›
    · exact .nothing
  | receive msg now =>
    show Acted _ e ((Endpoint.receive msg now).run e)
    cases hp : e.phase with
    | idle =>
      rw [Endpoint.run_receive_idle msg now hp]
      exact Endpoint.accept_spec msg now hp
    | opening deadline =>
      rw [Endpoint.run_receive_opening msg now hp]
      exact Endpoint.onPeerLogon_spec msg now (by rw [hp]; simp)
    | live =>
      rw [Endpoint.run_receive_live msg now hp]
      exact .passed rfl (by rw [hp]; simp) (step_spec (.message msg now) e.session)
  | timeout now =>
    show Acted _ e ((Endpoint.timeout now).run e)
    cases hp : e.phase with
    | idle =>
      have hrun : (Endpoint.timeout now).run e = ⟨e, [], .ok .continue⟩ := by
        simp [Endpoint.timeout, hp]
      rw [hrun]
      exact .nothing
    | opening deadline =>
      rw [Endpoint.run_timeout_opening now hp]
      exact .nothing
    | live =>
      rw [Endpoint.run_timeout_live now hp]
      exact .passed rfl (by rw [hp]; simp) (step_spec (.timeout now) e.session)
  | peerClosed =>
    show Acted _ e (Endpoint.peerClosed.run e)
    cases hp : e.phase with
    | live =>
      have hrun : Endpoint.peerClosed.run e =
          (Endpoint.onSession SessionState.onPeerClosed).run e := by
        simp [Endpoint.peerClosed, hp]
      rw [hrun]
      exact .passed rfl (by rw [hp]; simp) (step_spec .peerClosed e.session)
    | _ =>
      have hrun : Endpoint.peerClosed.run e = ⟨e, [], .ok .close⟩ := by
        simp [Endpoint.peerClosed, hp]
      rw [hrun]
      exact .nothing
  | command cmd now =>
    show Acted _ e ((Endpoint.command cmd now).run e)
    cases hp : e.phase with
    | idle =>
      have hrun : (Endpoint.command cmd now).run e = ⟨e, [], .ok .close⟩ := by
        simp [Endpoint.command, hp]
      rw [hrun]
      exact .nothing
    | opening deadline =>
      rw [Endpoint.run_command_opening cmd now hp]
      cases cmd with
      | disconnect => exact .nothing
      | _ => exact .passed rfl (by rw [hp]; simp) (step_spec (.command _ now) e.session)
    | live =>
      rw [Endpoint.run_command_live cmd now hp]
      exact .passed rfl (by rw [hp]; simp) (step_spec (.command cmd now) e.session)

namespace Sample

def logonFromPeer : Message :=
  { numbered "A" 1 with
    header := [.field 49 (ascii "THEM"), .field 56 (ascii "US"), .field 34 (writeUint 1)] }

def connection : Endpoint := .new sessionId config 1

end Sample

end Babelfix.Session
