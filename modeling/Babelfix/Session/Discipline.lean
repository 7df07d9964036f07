import Babelfix.Session.Conduct

/-! # Logon discipline

Only `Command::Send` looks at the logon exchange: what is held back, retransmitted or
gap-filled goes out unchecked. So the first message on the wire is our Logon, and the
only one, as long as no ResendRequest is taken up before it has been sent. -/
namespace Babelfix.Session
open Lib

abbrev Wire := List (Origin × Unstamped)

/-- A message on the wire that is not a Logon. -/
def NoLogon (x : Origin × Unstamped) : Prop := x.2.msg.msgType ≠ "A"

/-- What holds of a session and of all it has put on the wire. -/
structure Disciplined (s : SessionState) (wire : Wire) : Prop where
  queue : ∀ msg ∈ queued s, msg.msgType ≠ "A"
  unsent : s.logonSent = false → wire = [] ∧ s.replay = none
  sent : s.logonSent = true → ∃ logon rest, wire = logon :: rest ∧
    logon.2.msg.msgType = "A" ∧ ∀ x ∈ rest, NoLogon x
  /-- Before the peer's Logon has been processed. -/
  waiting : s.peerLogonReceived = false → wire.length ≤ 1 ∧ s.replay = none

theorem disciplined_new (sessionId : SessionIdentifier) (config : SessionConfig) (n : Nat)
    (now : Instant) : Disciplined (.new sessionId config n now) [] := by
  refine ⟨?_, fun _ => ⟨rfl, rfl⟩, ?_, fun _ => ⟨Nat.zero_le 1, rfl⟩⟩
  · intro msg h
    cases h
  · intro h
    cases h

variable {s s' : SessionState} {wire : Wire} {o : List Effect}

section
variable (h : Disciplined s wire)
include h

/-- A call that sends nothing and leaves the exchange and the replay alone. -/
theorem Disciplined.quiet (hl : s'.logonSent = s.logonSent)
    (hp : s.peerLogonReceived = true → s'.peerLogonReceived = true) (hr : s'.replay = s.replay)
    (ho : transmissions o = []) : Disciplined s' (wire ++ transmissions o) := by
  have hq : queued s' = queued s := by rw [queued, queued, hr]
  rw [ho, List.append_nil]
  refine ⟨by rw [hq]; exact h.queue, by rw [hl, hr]; exact h.unsent, by rw [hl]; exact h.sent, ?_⟩
  intro hw
  rw [hr]
  refine h.waiting ?_
  cases hs : s.peerLogonReceived with
  | false => rfl
  | true =>
    rw [hp hs] at hw
    cases hw

theorem Disciplined.goOn (hsent : s.logonSent = true) (hl : s'.logonSent = true)
    (hp : s'.peerLogonReceived = true) (hq : ∀ msg ∈ queued s', msg.msgType ≠ "A")
    (ho : ∀ x ∈ transmissions o, NoLogon x) : Disciplined s' (wire ++ transmissions o) := by
  obtain ⟨logon, rest, hwire, hA, hrest⟩ := h.sent hsent
  refine ⟨hq, fun hno => ?_, fun _ => ⟨logon, rest ++ transmissions o, ?_, hA, ?_⟩, fun hno => ?_⟩
  · rw [hl] at hno
    cases hno
  · rw [hwire]
    rfl
  · intro x hx
    rcases List.mem_append.mp hx with hx | hx
    · exact hrest x hx
    · exact ho x hx
  · rw [hp] at hno
    cases hno

/-- A replay is under way only once both Logons are exchanged. -/
theorem Disciplined.replaying {replay} (hr : s.replay = some replay) :
    s.logonSent = true ∧ s.peerLogonReceived = true := by
  constructor
  · by_contra hno
    rw [(h.unsent (by simpa using hno)).2] at hr
    cases hr
  · by_contra hno
    rw [(h.waiting (by simpa using hno)).2] at hr
    cases hr

theorem Disciplined.first {x} (hx : wire.head? = some x) : x.2.msg.msgType = "A" := by
  cases hsent : s.logonSent with
  | false =>
    rw [(h.unsent hsent).1] at hx
    cases hx
  | true =>
    obtain ⟨logon, rest, hwire, hA, -⟩ := h.sent hsent
    rw [hwire] at hx
    cases hx
    exact hA

theorem Disciplined.countP_logon_le : wire.countP (fun x => isLogon x.2.msg) ≤ 1 := by
  cases hsent : s.logonSent with
  | false =>
    rw [(h.unsent hsent).1]
    exact Nat.zero_le 1
  | true =>
    obtain ⟨logon, rest, hwire, hA, hrest⟩ := h.sent hsent
    have hnone : rest.countP (fun x => isLogon x.2.msg) = 0 := by
      rw [List.countP_eq_zero]
      intro x hx
      have hno : x.2.msg.msgType ≠ "A" := hrest x hx
      simp [isLogon, hno]
    rw [hwire, List.countP_cons, hnone]
    split <;> simp

end

/-! ## One call on the session -/

variable {msg : Message}

theorem Outbound.disciplined (ho : Outbound msg s s' o) (h : Disciplined s wire)
    (hp : s.peerLogonReceived = true → s'.peerLogonReceived = true)
    (hstart : resends o ≠ [] → s.logonSent = true ∧ s'.peerLogonReceived = true) :
    Disciplined s' (wire ++ transmissions o) := by
  obtain ⟨hsame, hreplay, hquiet⟩ := ho
  cases hreplay with
  | same hr _ _ => exact h.quiet hsame.logonSent hp hr hquiet
  | started h2 hb he hs hrange hr ha hasked =>
    obtain ⟨hsent, hpeer⟩ := hstart (by rw [hasked]; simp)
    obtain ⟨-, -, hnew⟩ := Replay.start_eq_ok hrange
    refine h.goOn hsent (hsame.logonSent.trans hsent) hpeer ?_ ?_
    · rw [queued, hr, hnew]
      simp
    · rw [hquiet]
      simp

variable {now : Instant} {r : OpOutcome Progress}

theorem Sent.disciplined (hs : Sent msg now s r) (h : Disciplined s wire) :
    Disciplined r.state (wire ++ transmissions r.out) := by
  cases hs with
  | rejected _ => exact h.quiet rfl id rfl rfl
  | @deferred n replay hn ha hr =>
    obtain ⟨hsent, hpeer⟩ := h.replaying hr
    have hA : msg.msgType ≠ "A" := by
      intro hA
      rw [(ha.logon hA).1] at hsent
      cases hsent
    refine h.goOn hsent hsent hpeer ?_ (by simp)
    intro m hm
    rcases List.mem_append.mp hm with hm | hm
    · exact h.queue m (by rw [queued, hr]; exact hm)
    · rw [List.mem_singleton.mp hm]
      exact hA
  | @dispatched n hn ha hr =>
    have hempty : ∀ m ∈ queued (noted msg (transmitted (taken msg n now s) n)),
        m.msgType ≠ "A" := by
      have hnone : (noted msg (transmitted (taken msg n now s) n)).replay = none := hr
      intro m hm
      rw [queued, hnone] at hm
      cases hm
    by_cases hA : msg.msgType = "A"
    · obtain ⟨hwire, -⟩ := h.unsent (ha.logon hA).1
      rw [hwire, List.nil_append, transmissions_dispatchOut]
      refine ⟨hempty, ?_, fun _ => ⟨_, [], rfl, hA, by simp⟩, fun _ => ⟨le_rfl, hr⟩⟩
      intro hno
      simp [noted, hA] at hno
    · obtain ⟨hsent, hpeer⟩ := ha.established hA
      refine h.goOn hsent ?_ hpeer hempty ?_
      · simp [noted, transmitted, taken, hsent]
      · rw [transmissions_dispatchOut]
        intro x hx
        rw [List.mem_singleton.mp hx]
        exact hA

theorem noLogon_fillOut (s : SessionState) (gap : Option (Nat × Nat)) :
    ∀ x ∈ transmissions (fillOut s gap), NoLogon x := by
  cases gap with
  | none =>
    intro x hx
    cases hx
  | some bounds =>
    intro x hx
    rw [fillOut, transmissions_transmitOut, List.mem_singleton] at hx
    rw [hx]
    exact (by simp : ("4" : String) ≠ "A")

/-- A Logon is gap-filled, never retransmitted. -/
theorem retransmitted_ne_logon {replay replay' : Replay} {n gap}
    (ho : replay.offer n (SessionState.gapFilled msg) = .ok (replay', .retransmit gap)) :
    msg.msgType ≠ "A" := by
  intro hA
  have hfilled : SessionState.gapFilled msg = true := by
    simp [SessionState.gapFilled, Message.isAdmin, hA]
  rw [hfilled] at ho
  cases Replay.offer_spec ho

theorem Replayed.disciplined {r} (hrep : Replayed msg s r) (h : Disciplined s wire) :
    Disciplined r.state (wire ++ transmissions r.out) := by
  have hqueue : ∀ m ∈ queued r.state, m.msgType ≠ "A" := by
    rw [hrep.queued_eq]
    exact h.queue
  cases hrep with
  | refused _ => exact h.quiet rfl id rfl rfl
  | held hn hs ho hstep | noTime hn hs ho hh | overflow hn hs ho hh hg =>
    obtain ⟨hsent, hpeer⟩ := h.replaying hs
    exact h.goOn hsent hsent hpeer hqueue (by simp)
  | @resent n replay replay' gap header hn hs ho hh hg =>
    obtain ⟨hsent, hpeer⟩ := h.replaying hs
    have hframe : ∀ gap : Option (Nat × Nat),
        (filled { s with replay := some replay' } gap).logonSent = s.logonSent ∧
        (filled { s with replay := some replay' } gap).peerLogonReceived = s.peerLogonReceived := by
      intro gap
      cases gap <;> exact ⟨rfl, rfl⟩
    refine h.goOn hsent ((hframe gap).1.trans hsent) ((hframe gap).2.trans hpeer) hqueue ?_
    intro x hx
    rw [transmissions_append, List.mem_append] at hx
    rcases hx with hx | hx
    · exact noLogon_fillOut s gap x hx
    · rw [transmissions_transmitOut, List.mem_singleton] at hx
      rw [hx]
      exact retransmitted_ne_logon ho

theorem Drained.noLogon {queue} (hd : Drained queue s r) (hq : ∀ msg ∈ queue, msg.msgType ≠ "A") :
    ∀ x ∈ transmissions r.out, NoLogon x := by
  induction hd with
  | done => simp
  | unread hn => simp
  | @close msg _ _ _ hn h5 =>
    rw [transmissions_dispatchOut]
    intro x hx
    rw [List.mem_singleton.mp hx]
    exact hq msg List.mem_cons_self
  | @next msg _ _ _ _ hn h5 _ ih =>
    rw [Outcome.prepend_out, transmissions_append, transmissions_dispatchOut]
    intro x hx
    rcases List.mem_append.mp hx with hx | hx
    · rw [List.mem_singleton.mp hx]
      exact hq msg List.mem_cons_self
    · exact ih (fun m hm => hq m (List.mem_cons_of_mem _ hm)) x hx

theorem Drained.logonSent {queue} (hd : Drained queue s r) (h : s.logonSent = true) :
    r.state.logonSent = true := by
  induction hd with
  | done | unread hn => exact h
  | close hn h5 => simp [noted, transmitted, h]
  | next hn h5 _ ih => exact ih (by simp [noted, transmitted, h])

section
variable (h : Disciplined s wire)
include h

theorem Completed.disciplined (hc : Completed s r) :
    Disciplined r.state (wire ++ transmissions r.out) := by
  cases hc with
  | noReplay hs => exact h.quiet rfl id rfl rfl
  | arithmetic hs ht | overflow hs ht hg =>
    obtain ⟨hsent, hpeer⟩ := h.replaying hs
    exact h.goOn hsent hsent hpeer (by simp [queued]) (by simp)
  | @drained replay gap rd r' hs ht hg hd hr =>
    obtain ⟨hsent, hpeer⟩ := h.replaying hs
    obtain ⟨hstate, hwires⟩ := hr.frame
    have hended : (replayEnded s gap).logonSent = true ∧
        (replayEnded s gap).peerLogonReceived = true := by
      cases gap <;> exact ⟨hsent, hpeer⟩
    have hl : r'.state.logonSent = true := by
      rw [hstate]
      exact hd.logonSent hended.1
    have hp : r'.state.peerLogonReceived = true := by
      rw [hstate, hd.frame]
      exact hended.2
    have hnone : r'.state.replay = none := by
      rw [hstate, hd.frame]
      rfl
    refine h.goOn hsent hl hp ?_ ?_
    · intro m hm
      rw [queued, Outcome.prepend_state, hnone] at hm
      cases hm
    · rw [Outcome.prepend_out, transmissions_append, hwires]
      intro x hx
      rcases List.mem_append.mp hx with hx | hx
      · exact noLogon_fillOut s gap x hx
      · refine hd.noLogon ?_ x hx
        intro m hm
        exact h.queue m (by rw [queued, hs]; exact hm)

theorem TimedOut.disciplined (ht : TimedOut now s r) :
    Disciplined r.state (wire ++ transmissions r.out) := by
  cases ht with
  | expired | waiting => exact h.quiet rfl id rfl rfl
  | ticked hc hb hk => cases hb <;> cases hk <;> exact h.quiet rfl id rfl rfl

theorem Disciplined.outReset (now : Instant) :
    Disciplined (outReset s now) wire := ⟨h.queue, h.unsent, h.sent, h.waiting⟩

/-- **One call on the session**, a ResendRequest being taken up only once both Logons are
exchanged. -/
theorem Step.disciplined {i} (hstep : Step i s r)
    (hstart : resends r.out ≠ [] → s.logonSent = true ∧ s.peerLogonReceived = true) :
    Disciplined r.state (wire ++ transmissions r.out) := by
  cases hstep with
  | start hs | message hs =>
    have hpeer := hs.conduct.peer
    exact hs.outbound.disciplined h hpeer fun hr => (hstart hr).imp_right hpeer
  | send hs => exact hs.disciplined h
  | @replayed msg now _ _ hs hok | @replayFailed msg now _ _ _ hs hf
  | @replayComplete now _ _ hs => exact hs.disciplined (h.outReset now)
  | timeout ht => exact ht.disciplined h
  | _ => exact h.quiet rfl id rfl rfl

/-- Before the peer's Logon has been processed, only a Logon goes out. -/
theorem Step.waiting {i} (hstep : Step i s r) (hpeer : s.peerLogonReceived = false) :
    ∀ x ∈ transmissions r.out, x.2.msg.msgType = "A" := by
  have hnone := (h.waiting hpeer).2
  have hreplayed {msg : Message} {now : Instant} {r : OpOutcome Unit}
      (hr : Replayed msg (outReset s now) r) : transmissions r.out = [] := by
    cases hr with
    | resent hn hs _ _ _ =>
      rw [show (outReset s now).replay = none from hnone] at hs
      cases hs
    | _ => rfl
  have hno {o : List Effect} (ho : transmissions o = []) :
      ∀ x ∈ transmissions o, x.2.msg.msgType = "A" := by
    rw [ho]
    simp
  cases hstep with
  | start hs | message hs => exact hno hs.outbound.2.2
  | send hs =>
    cases hs with
    | rejected _ => exact hno rfl
    | deferred _ _ _ => exact hno rfl
    | dispatched hn ha hr =>
      intro x hx
      rw [transmissions_dispatchOut, List.mem_singleton] at hx
      rw [hx]
      by_contra hA
      rw [(ha.established hA).2] at hpeer
      cases hpeer
  | replayed hs _ | replayFailed hs _ => exact hno (hreplayed hs)
  | @replayComplete now _ _ hs =>
    cases hs with
    | drained hs _ _ _ _ =>
      rw [show (outReset s now).replay = none from hnone] at hs
      cases hs
    | _ => exact hno rfl
  | timeout ht =>
    cases ht with
    | ticked hc hb hk => cases hb <;> cases hk <;> exact hno rfl
    | _ => exact hno rfl
  | _ => exact hno rfl

end

/-! ## Whole runs of a connection -/

/-- A connection and all it has put on the wire. -/
structure Endpoint.Disciplined (e : Endpoint) (wire : Wire) : Prop where
  session : Session.Disciplined e.session wire
  idle : e.phase = .idle → wire = []

theorem Started.disciplined {logon} (hs : Started logon now s r) (hA : logon.msgType = "A")
    (h : Disciplined s wire) : Disciplined r.state (wire ++ transmissions r.out) := by
  refine hs.outbound.disciplined h hs.conduct.peer ?_
  intro hr
  cases hs.outbound.2.1 with
  | same _ _ ho => exact absurd ho hr
  | started h2 _ _ _ _ _ _ _ =>
    rw [hA] at h2
    simp at h2

theorem Acted.disciplined {i e r} (ha : Acted i e r) (h : e.Disciplined wire)
    (hstart : resends r.out ≠ [] → e.session.isLoggedOn = true) :
    r.state.Disciplined (wire ++ transmissions r.out) := by
  have hidle (now : Instant) (hp : e.phase = .idle) : Disciplined (e.opened now) wire := by
    rw [h.idle hp]
    exact disciplined_new _ _ _ _
  cases ha with
  | nothing => simpa using h
  | @announced logonTimeout now hi hp =>
    exact ⟨(hidle now hp).quiet rfl id rfl rfl, fun hno => by cases hno⟩
  | @welcomed logon now r hi hp hA hid hs =>
    exact ⟨hs.disciplined hA (hidle now hp), fun hno => by cases hno⟩
  | answered hi hp hA hsent hs hok herr =>
    refine ⟨hs.disciplined hA h.session, fun hno => ?_⟩
    cases hr : Outcome.result _ with
    | ok p =>
      rw [hok p hr] at hno
      cases hno
    | error f => exact absurd ((herr f hr).symm.trans hno) hp
  | passed hi hp hs =>
    refine ⟨hs.disciplined h.session ?_, fun hno => absurd hno hp⟩
    intro hr
    have hon := hstart hr
    rw [SessionState.isLoggedOn, Bool.and_eq_true] at hon
    exact hon

/-- No ResendRequest is taken up before the session is logged on. -/
def LoggedOnFirst (turn : Turn EndpointInput Endpoint Effect Fault Progress) : Prop :=
  resends turn.outcome.out ≠ [] → turn.before.session.isLoggedOn = true

theorem run_disciplined (sessionId : SessionIdentifier) (config : SessionConfig)
    (nextInSeqNum : Nat) (inputs : List EndpointInput)
    (hrun : ∀ turn ∈ trace EndpointInput.call (.new sessionId config nextInSeqNum) inputs,
      LoggedOnFirst turn) :
    (final EndpointInput.call (.new sessionId config nextInSeqNum) inputs).Disciplined
      (transmissions (output EndpointInput.call (.new sessionId config nextInSeqNum) inputs)) := by
  let start : Endpoint := .new sessionId config nextInSeqNum
  refine run_induction (motive := fun xs e =>
    (∀ turn ∈ trace EndpointInput.call start xs, LoggedOnFirst turn) →
      e.Disciplined (transmissions (output EndpointInput.call start xs)))
    EndpointInput.call start inputs ?_ ?_ hrun
  · intro _
    exact ⟨disciplined_new _ _ _ _, fun _ => rfl⟩
  · intro pre i ih hall
    rw [trace_append, trace_singleton] at hall
    have hbefore := ih fun turn ht => hall turn (List.mem_append_left _ ht)
    rw [output_append, output_singleton, transmissions_append]
    refine (acted_spec i _).disciplined hbefore ?_
    exact hall _ (List.mem_append_right _ List.mem_cons_self)

theorem Acted.waiting {i e r} (ha : Acted i e r) (h : e.Disciplined wire)
    (hpeer : e.session.peerLogonReceived = false) :
    ∀ x ∈ transmissions r.out, x.2.msg.msgType = "A" := by
  cases ha with
  | passed hi hp hs => exact hs.waiting h.session hpeer
  | welcomed hi hp hA hid hs =>
    have hout := hs.outbound.2.2
    simp [welcomeOut, hout]
  | answered hi hp hA hsent hs hok herr =>
    have hout := hs.outbound.2.2
    simp [hout]
  | _ => simp [announceOut]

/-- **Logon discipline.** As long as no ResendRequest is taken up before the session is
logged on, the first message on the wire is a Logon, it is the only one, and nothing
else goes out before the peer's Logon has been processed. This is for a sink that accepts
every event: one that refuses `RawMessageSent` leaves `logon_sent` unset after our Logon. -/
theorem logon_discipline (sessionId : SessionIdentifier) (config : SessionConfig)
    (nextInSeqNum : Nat) (inputs : List EndpointInput)
    (hrun : ∀ turn ∈ trace EndpointInput.call (.new sessionId config nextInSeqNum) inputs,
      LoggedOnFirst turn) :
    let wire := transmissions (output EndpointInput.call (.new sessionId config nextInSeqNum) inputs)
    (∀ x, wire.head? = some x → x.2.msg.msgType = "A") ∧
    wire.countP (fun x => isLogon x.2.msg) ≤ 1 ∧
    ∀ turn ∈ trace EndpointInput.call (.new sessionId config nextInSeqNum) inputs,
      turn.before.session.peerLogonReceived = false →
        ∀ x ∈ transmissions turn.outcome.out, x.2.msg.msgType = "A" := by
  have hend := (run_disciplined sessionId config nextInSeqNum inputs hrun).session
  refine ⟨fun _ => hend.first, hend.countP_logon_le, ?_⟩
  · intro turn hturn hpeer
    obtain ⟨pre, post, hin, hbefore, houtcome⟩ := mem_trace EndpointInput.call hturn
    have hpre := run_disciplined sessionId config nextInSeqNum pre ?_
    · rw [houtcome, hbefore]
      rw [hbefore] at hpeer
      exact (acted_spec turn.input _).waiting hpre hpeer
    · intro t ht
      refine hrun t ?_
      rw [hin, trace_append]
      exact List.mem_append_left _ ht

namespace Sample

/-- A ResendRequest from the peer, numbered 2. -/
def asksFor (first last : Nat) : Message :=
  { numbered "2" 2 with body := [.field 7 (writeUint first), .field 16 (writeUint last)] }

/-- The peer asks for messages once our Logon is out. -/
def askedAfterLogon : List EndpointInput :=
  [.receive logonFromPeer 0, .command (.send logon) 0, .receive (asksFor 1 0) 0,
    .command .replayComplete 0]

/-- The peer asks for messages 1 to 5 before our Logon is out. -/
def askedBeforeLogon : List EndpointInput :=
  [.receive logonFromPeer 0, .receive (asksFor 1 5) 0, .command .replayComplete 0]

/-- The peer asks for everything before our Logon is out, and two Logons are held back. -/
def twoLogonsHeld : List EndpointInput :=
  [.receive logonFromPeer 0, .receive (asksFor 1 0) 0, .command (.send logon) 0,
    .command (.send { logon with header := [.field 34 (writeUint 2)] }) 0, .command .replayComplete 0]

end Sample

theorem logon_discipline_askedAfterLogon :
    (transmissions (output EndpointInput.call Sample.connection Sample.askedAfterLogon)).countP
      (fun x => isLogon x.2.msg) ≤ 1 := by
  refine (logon_discipline Sample.sessionId Sample.config 1 Sample.askedAfterLogon ?_).2.1
  unfold LoggedOnFirst
  decide +kernel

/-- A gap fill goes out first, or two Logons do. -/
theorem undisciplined :
    (transmissions (output EndpointInput.call Sample.connection Sample.askedBeforeLogon)).map
      (fun x => (x.1, x.2.msg.msgType)) = [(.gapFill, "4")] ∧
    (transmissions (output EndpointInput.call Sample.connection Sample.twoLogonsHeld)).map
      (fun x => (x.1, x.2.msg.msgType)) = [(.fresh, "A"), (.fresh, "A")] := by
  decide +kernel

end Babelfix.Session
