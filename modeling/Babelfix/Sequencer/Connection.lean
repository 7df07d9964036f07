import Babelfix.Sequencer.Order
import Babelfix.Session.Conduct

/-! # A sequencer and the connection it feeds

The composition the drivers make: the endpoint's events go through the sequencer,
and what the sequencer releases goes to the endpoint as `Command::Send`. -/
namespace Babelfix.Sequencing
open Lib Session Sequencer

/-- What an endpoint writes, and what it answered to a command. The source does not
record the answer: it is noted here so that properties can speak about it. -/
inductive Noted where
  | answered (cmd : Command) (result : Except Fault Progress)
  | effect (e : Effect)
  deriving DecidableEq

def Noted.event : Noted → Option Event
  | .effect (.event e) => some e
  | _ => none

/-- A call on an endpoint, with its output noted. -/
def noted (c : EndpointOp Progress) : Call Endpoint Noted Fault Progress :=
  ⟨fun e =>
    let r := c.run e
    ⟨r.state, r.out.map .effect, r.result⟩⟩

/-- An endpoint as the sequencer's target. -/
def endpointTarget : CommandTarget Endpoint Noted where
  onCommand cmd now := ⟨fun e =>
    let r := (Endpoint.command cmd now).run e
    ⟨r.state, .answered cmd r.result :: r.out.map .effect, r.result⟩⟩
  event := Noted.event

/-- A call on a connection. -/
inductive ConnectionInput where
  | drive (i : EndpointInput)
  | send (msg : Message)
  | sendRaw (msg : Message)
  | handled (seqNum : Nat)
  | watermarkPersisted (nextInSeqNum : Nat)
  | persisted (seqNum : Nat) (now : Instant)
  | release (now : Instant)

namespace ConnectionInput

def seqInput : ConnectionInput → SeqInput Endpoint Noted
  | .drive i => .drive (noted i.call)
  | .send msg => .send msg
  | .sendRaw msg => .sendRaw msg
  | .handled n => .handled n
  | .watermarkPersisted n => .watermarkPersisted n
  | .persisted n now => .persisted n now
  | .release now => .release now

def call (i : ConnectionInput) : Call (Sequenced Endpoint) (Observed Noted) Fault Progress :=
  i.seqInput.call endpointTarget

end ConnectionInput

/-- A connection before anything has happened on it. -/
def connection (sessionId : SessionIdentifier) (config : SessionConfig) (resume : Resume)
    (policy : InboundPolicy) (clock : Clock) (maxInFlight : Nat) : Sequenced Endpoint :=
  fresh sessionId resume policy clock maxInFlight (.new sessionId config resume.nextInSeqNum)

/-! ## What the endpoint's calls do -/

def Noted.wrote : Noted → Option Effect
  | .effect e => some e
  | .answered _ _ => none

/-- What an endpoint wrote. -/
def effects (o : List Noted) : List Effect := o.filterMap Noted.wrote

@[simp] theorem effects_map (o : List Effect) : effects (o.map .effect) = o := by
  rw [effects, List.filterMap_map]
  exact List.filterMap_some

@[simp] theorem effects_answered (cmd : Command) (result : Except Fault Progress)
    (o : List Noted) : effects (.answered cmd result :: o) = effects o := rfl

variable {α : Type}

theorem onEndpoint_induction {P : List Effect → Sequencer → Prop} {F : Sequencer → Prop}
    (hwire : ∀ origin u rest q, P (.transmit origin u :: rest) q → P rest q)
    (hevent : ∀ e rest q r, Intercepted e q r → P (.event e :: rest) q →
      (r.result = .ok () → P rest r.state) ∧ ∀ f, r.result = .error f → F r.state)
    (c : Call Endpoint Noted Fault α) (p : Sequenced Endpoint) (h : P (effects (c.run p.target).out) p.seq) :
    let r := (Sequenced.onTarget Noted.event c).run p
    (P [] r.state.seq ∨ F r.state.seq) ∧
      ∀ a, r.result = .ok a → P [] r.state.seq ∧ (c.run p.target).result = .ok a := by
  refine Sequenced.onTarget_induction (P := fun _ o q => P (effects o) q) (F := fun _ q => F q)
    Noted.event ?_ ?_ c p h
  · intro _ x rest q hx hP
    cases x with
    | answered cmd result => exact hP
    | effect e =>
      cases e with
      | transmit origin u => exact hwire origin u _ q hP
      | event e => cases hx
  · intro _ x e rest q r hx hr hP
    cases x with
    | answered cmd result => cases hx
    | effect e' =>
      cases e' with
      | transmit origin u => cases hx
      | event e' =>
        cases hx
        exact hevent e _ q r (hr ▸ onSessionEvent_spec e q) hP

theorem Sequenced.onTarget_wrote {τ ω : Type} {event x} (c : Call τ ω Fault α) (p : Sequenced τ)
    (h : .wrote x ∈ ((onTarget event c).run p).out) : x ∈ (c.run p.target).out := by
  have hrule := onTarget_induction (P := fun seen rest _ => rest <:+ (c.run p.target).out ∧
      (.wrote x ∈ seen → x ∈ (c.run p.target).out))
    (F := fun seen _ => .wrote x ∈ seen → x ∈ (c.run p.target).out) event ?_ ?_ c p
    ⟨List.suffix_refl _, by simp⟩
  · exact hrule.1.elim (fun hP => hP.2 h) (fun hF => hF h)
  · intro seen y rest q hy hP
    refine ⟨(List.suffix_cons y rest).trans hP.1, fun hx => ?_⟩
    obtain hx | hx := List.mem_append.mp hx
    · exact hP.2 hx
    · cases List.mem_singleton.mp hx
      exact hP.1.subset List.mem_cons_self
  · intro seen y e rest q r hy hi hP
    have hseen (hx : .wrote x ∈ seen ++ r.out.map .app) : x ∈ (c.run p.target).out :=
      hP.2 ((List.mem_append.mp hx).resolve_right (by simp))
    exact ⟨fun _ => ⟨(List.suffix_cons y rest).trans hP.1, hseen⟩, fun _ _ => hseen⟩

theorem run_command_send (msg : Message) (now : Instant) {e} (hp : e.phase ≠ .idle) :
    (Endpoint.command (.send msg) now).run e =
      (Endpoint.onSession (SessionState.send msg now)).run e := by
  cases hphase : e.phase with
  | idle => exact absurd hphase hp
  | opening deadline => rw [Endpoint.run_command_opening _ now hphase]; rfl
  | live => rw [Endpoint.run_command_live _ now hphase]; rfl

/-! ## The pipeline -/

/-- What has been numbered and not handed over yet, in order. -/
def pipeline (q : Sequencer) : List Message := q.ready ++ q.inFlight.map InFlight.msg

def numberOf (msg : Message) : Nat :=
  match msg.header.req Fields.msgSeqNum with
  | .ok n => n
  | .error _ => 0

/-- The number of the next message that will be released. -/
def nextToRelease (q : Sequencer) : Nat :=
  match pipeline q with
  | msg :: _ => numberOf msg
  | [] => q.nextOutSeqNum

theorem numberOf_eq {msg n} (h : Carries msg n) : numberOf msg = n := by
  rw [numberOf, h]

theorem pipeline_awaiting (q : Sequencer) (n : Nat) (msg : Message) :
    pipeline (q.awaiting n msg) = pipeline q ++ [q.stamped msg] := by
  simp [pipeline, awaiting]

theorem markPersisted_msg (n : Nat) (l : List InFlight) :
    (markPersisted n l).map InFlight.msg = l.map InFlight.msg := by
  have h := congrArg (List.map Prod.snd) (markPersisted_map n l)
  simpa only [List.map_map, Function.comp_def] using h

theorem pipeline_collected (q : Sequencer) (n : Nat) : pipeline (q.collected n) = pipeline q := by
  simp only [pipeline, collected, List.append_assoc, ← List.map_append,
    List.takeWhile_append_dropWhile, markPersisted_msg]

/-! ## A sample connection -/

namespace Sample

def clock : Clock where
  read := fun _ => ascii "20240101-00:00:00.000"
  ne_nil := fun _ => by decide
  soh_notMem := fun _ => by decide

/-- A new connection, with nothing sent or received yet. -/
def link : Sequenced Endpoint :=
  connection Session.Sample.sessionId Session.Sample.config .new .onDelivery clock 1024

/-- A ResendRequest from the peer. -/
def resendRequest (n first last : Nat) : Message :=
  { Session.Sample.numbered "2" n with
    body := [.field 7 (writeUint first), .field 16 (writeUint last)] }

/-- Logging on: both Logons are exchanged and the TestRequest that follows is out. -/
def loggingOn : List ConnectionInput :=
  [.drive (.initiate 10 0), .persisted 1 0, .drive (.receive (Session.Sample.numbered "A" 1) 0),
    .persisted 2 0]

end Sample

end Babelfix.Sequencing
