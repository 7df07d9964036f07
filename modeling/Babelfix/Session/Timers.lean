import Babelfix.Session.Conduct

/-! # Heartbeat timers

Every call but a timeout either leaves the timers alone or sets one of them to a whole
interval from now. So a timeout moves every deadline it finds past, and a deadline for
the peer stands for as many intervals as the peer has missed, and one more. Two things
do not fit: a session that is closing waits for its own deadline and leaves the
heartbeats where they are, and `start` does not reset the deadline for the peer. -/
namespace Babelfix.Session
open Lib

/-! ## What a call does to the timers -/

section
variable {msg : Message} {now : Instant} {s : SessionState}
  {r : OpOutcome Progress}

theorem Dispatched.timers {inSequence} (h : Dispatched msg inSequence now s r) :
    r.state.timers = s.timers := by
  cases h <;> rfl

theorem gapState_timers (s : SessionState) (n : Nat) : (gapState s n).timers = s.timers := by
  unfold gapState
  split <;> rfl

theorem Handled.timers (h : Handled msg now s r) : r.state.timers = s.timers := by
  cases h with
  | gap hn h h2 h5 | gapLogout hn h h5 => exact gapState_timers s _
  | gapResend hn h h2 hd => exact hd.timers.trans (gapState_timers s _)
  | failed hn hnext hd hf | accepted hn hnext hd hok hdue | acceptedLogout hn hnext hd hok hdue =>
    exact hd.timers
  | _ => rfl

theorem Started.timers (h : Started msg now s r) : r.state.timers = s.timers := by
  cases h with
  | failed h hf | refused h hok hc | established h hok hc => exact h.timers

theorem Received.timers (h : Received msg now s r) : r.state.timers = s.timers.resetIn now := by
  cases h with
  | ignored hc => rfl
  | handled hc h => exact h.timers

theorem Sent.timers (h : Sent msg now s r) :
    r.state.timers = s.timers ∨ r.state.timers = s.timers.resetOut now := by
  cases h with
  | rejected h => exact .inl rfl
  | deferred hn ha hr =>
    dsimp only [taken]
    split
    · exact .inl rfl
    · exact .inr rfl
  | dispatched hn ha hr =>
    dsimp only [noted, transmitted, taken]
    split
    · exact .inl rfl
    · exact .inr rfl

theorem Completed.timers (h : Completed s r) : r.state.timers = s.timers := by
  cases h with
  | @drained replay gap r r' hs ht hg hd hr =>
    rw [Outcome.prepend_state, hr.frame.1, hd.frame]
    cases gap <;> rfl
  | _ => rfl

end

/-- What a call that is not a timeout does to the timers. -/
inductive Clocked (t : Timers) : Input → Timers → Prop
  | same {i} (hi : ∀ msg now, i ≠ .message msg now) : Clocked t i t
  | out {i} (now : Instant) (hi : ∀ msg now, i ≠ .message msg now) : Clocked t i (t.resetOut now)
  | heard {msg now} : Clocked t (.message msg now) (t.resetIn now)

variable {i : Input} {s : SessionState} {r : OpOutcome Progress}

theorem Step.clocked (h : Step i s r) (hi : ∀ now, i ≠ .timeout now) : Clocked s.timers i r.state.timers := by
  cases h with
  | message h =>
    rw [h.timers]
    exact .heard
  | start h =>
    rw [h.timers]
    exact .same (by simp)
  | @send msg now _ _ h =>
    obtain h | h := h.timers <;> rw [h]
    · exact .same (by simp)
    · exact .out now (by simp)
  | @replayed msg now _ _ h hok | @replayFailed msg now _ _ _ h hf =>
    rw [h.frame]
    exact .out now (by simp)
  | @replayComplete now _ _ h =>
    rw [h.timers]
    exact .out now (by simp)
  | timeout h => exact absurd rfl (hi _)
  | _ => exact .same (by simp)

variable {t : Timers}

theorem Clocked.interval {t'} (h : Clocked t i t') : t'.interval = t.interval := by
  cases h <;> rfl

/-! ## Timeouts -/

variable {now : Instant} {s' : SessionState} {o : List Effect}

theorem Beat.timers (h : Beat now s s' o) :
    s'.timers = s.timers ∧ now < s.timers.nextOut ∨
      s'.timers = s.timers.resetOut now ∧ s.timers.nextOut ≤ now := by
  cases h with
  | idle h => exact .inl ⟨rfl, h⟩
  | awaited h hb | requested h hb => exact .inr ⟨rfl, h⟩

theorem Beat.interval (h : Beat now s s' o) : s'.timers.interval = s.timers.interval := by
  cases h <;> rfl

/-- The timers once the peer has missed another heartbeat. -/
def Timers.missed (t : Timers) (now : Instant) : Timers :=
  { t with nextIn := now + t.interval, missedHeartbeats := t.missedHeartbeats + 1 }

theorem Checked.timers (h : Checked now s s' o) :
    s'.timers = s.timers ∧ now < s.timers.nextIn ∨
      s'.timers = s.timers.missed now ∧ s.timers.nextIn ≤ now := by
  cases h with
  | idle h => exact .inl ⟨rfl, h⟩
  | first h hm | second h hm | third h hm hc => exact .inr ⟨rfl, h⟩

theorem TimedOut.interval (h : TimedOut now s r) :
    r.state.timers.interval = s.timers.interval := by
  cases h with
  | ticked hc hb hk =>
    rw [← hb.interval]
    cases hk <;> rfl
  | _ => rfl

theorem Step.interval (h : Step i s r) : r.state.timers.interval = s.timers.interval := by
  by_cases hi : ∃ now, i = .timeout now
  · obtain ⟨now, rfl⟩ := hi
    cases h with
    | timeout h => exact h.interval
  · exact (h.clocked fun now hnow => hi ⟨now, hnow⟩).interval

/-! ### Sleeping until the next deadline -/

/-- A session that is closing leaves its heartbeat deadlines where they are until its own
has passed. -/
def Stalled (s : SessionState) (now : Instant) : Prop :=
  ∃ deadline, s.closing = some deadline ∧ now < deadline ∧ min s.timers.nextOut s.timers.nextIn ≤ now

/-- A timeout that lets the session go on leaves it a deadline that is yet to come, and
one that comes before the deadline does nothing. -/
structure Progresses (s : SessionState) (now : Instant)
    (r : OpOutcome Progress) : Prop where
  later : r.result = .ok .continue → ∃ deadline, r.state.nextDeadline = some deadline ∧ now < deadline
  early : (∃ deadline, s.nextDeadline = some deadline ∧ now < deadline) →
    r = ⟨s, [], .ok .continue⟩

section
variable {now : Instant} {s : SessionState} {r : OpOutcome Progress}

theorem lt_nextDeadline_iff : (∃ deadline, s.nextDeadline = some deadline ∧ now < deadline) ↔
    now < s.timers.nextOut ∧ now < s.timers.nextIn ∧ ∀ c, s.closing = some c → now < c := by
  unfold SessionState.nextDeadline
  cases s.closing with
  | none => simp
  | some c =>
    simp only [Option.elim_some, Option.some.injEq, exists_eq_left', lt_min_iff, forall_eq']
    tauto

theorem TimedOut.early (h : TimedOut now s r) (hout : now < s.timers.nextOut)
    (hin : now < s.timers.nextIn) (hc : ∀ c, s.closing = some c → now < c) :
    r = ⟨s, [], .ok .continue⟩ := by
  cases h with
  | expired hclosing h => exact absurd (hc _ hclosing) (Nat.not_lt.mpr h)
  | waiting hclosing h => rfl
  | ticked hclosing hb hk =>
    cases hb with
    | idle h =>
      cases hk with
      | idle h => rfl
      | first h hm => exact absurd hin (Nat.not_lt.mpr h)
      | second h hm => exact absurd hin (Nat.not_lt.mpr h)
      | third h hm hc => exact absurd hin (Nat.not_lt.mpr h)
    | awaited h hb => exact absurd hout (Nat.not_lt.mpr h)
    | requested h hb => exact absurd hout (Nat.not_lt.mpr h)

theorem ticked_later {s₁ s₂ o₁ o₂} (hpos : 0 < s.timers.interval) (hb : Beat now s s₁ o₁)
    (hk : Checked now s₁ s₂ o₂) : now < s₂.timers.nextOut ∧ now < s₂.timers.nextIn := by
  have hout : now < s₁.timers.nextOut := by
    obtain ⟨h, hlt⟩ | ⟨h, -⟩ := hb.timers <;> rw [h]
    · exact hlt
    · exact Nat.lt_add_of_pos_right hpos
  obtain ⟨h, hlt⟩ | ⟨h, -⟩ := hk.timers <;> rw [h]
  · exact ⟨hout, hlt⟩
  · exact ⟨hout, Nat.lt_add_of_pos_right (by rw [hb.interval]; exact hpos)⟩

/-- A deadline for closing, set with the last heartbeat missed, is an interval away. -/
theorem Checked.closing (h : Checked now s s' o) (hc : s.closing = none)
    (hpos : 0 < s.config.heartbeatInterval) :
    ∀ c, s'.closing = some c → now < c := by
  intro c hclosing
  cases h with
  | third h hm hc =>
    cases hclosing
    exact Nat.lt_add_of_pos_right hpos
  | _ => cases hc.symm.trans hclosing

theorem TimedOut.progresses_iff (h : TimedOut now s r) (hpos : 0 < s.timers.interval)
    (hconfig : s.timers.interval = s.config.heartbeatInterval) :
    Progresses s now r ↔ ¬ Stalled s now := by
  have hearly : (∃ deadline, s.nextDeadline = some deadline ∧ now < deadline) →
      r = ⟨s, [], .ok .continue⟩ := by
    intro hlt
    obtain ⟨hout, hin, hc⟩ := lt_nextDeadline_iff.mp hlt
    exact h.early hout hin hc
  constructor
  · intro hprogress ⟨c, hc, hlt, hmin⟩
    have hr : r = ⟨s, [], .ok .continue⟩ := by
      cases h with
      | expired hclosing hle =>
        rw [hc] at hclosing
        cases hclosing
        exact absurd hlt (Nat.not_lt.mpr hle)
      | waiting hclosing hlt => rfl
      | ticked hclosing hb hk =>
        rw [hc] at hclosing
        cases hclosing
    have hlater := hprogress.later (by rw [hr])
    rw [hr] at hlater
    obtain ⟨hout, hin, -⟩ := lt_nextDeadline_iff.mp hlater
    exact absurd hmin (Nat.not_le.mpr (lt_min hout hin))
  · intro hstalled
    refine ⟨fun hok => lt_nextDeadline_iff.mpr ?_, hearly⟩
    cases h with
    | expired hclosing hle => cases hok
    | @waiting c hclosing hlt =>
      -- the session is closing: both deadlines are yet to come, or it is stalled
      have hmin : now < min s.timers.nextOut s.timers.nextIn :=
        Nat.lt_of_not_le fun hle => hstalled ⟨c, hclosing, hlt, hle⟩
      obtain ⟨hout, hin⟩ := lt_min_iff.mp hmin
      refine ⟨hout, hin, fun c' hc' => ?_⟩
      rw [hclosing] at hc'
      cases hc'
      exact hlt
    | @ticked s₁ s₂ o₁ o₂ hclosing hb hk =>
      obtain ⟨hout, hin⟩ := ticked_later hpos hb hk
      have hsame : s₁.closing = none ∧ s₁.config = s.config := by
        cases hb <;> exact ⟨hclosing, rfl⟩
      refine ⟨hout, hin, hk.closing hsame.1 ?_⟩
      rw [hsame.2, ← hconfig]
      exact hpos

end

theorem run_interval (s : SessionState) (inputs : List Input) :
    (final Input.call s inputs).timers.interval = s.timers.interval :=
  final_invariant (P := fun s' : SessionState => s'.timers.interval = s.timers.interval) _ _ rfl
    fun s' i h => (step_spec i s').interval.trans h

/-- **A driver that sleeps until the next deadline makes progress**, unless the session is
closing and a heartbeat falls due before its own deadline. -/
theorem timer_progress_iff (sessionId : SessionIdentifier) (config : SessionConfig) (n : Nat)
    (made : Instant) (inputs : List Input) (hpos : 0 < config.heartbeatInterval) (now : Instant) :
    let s := final Input.call (.new sessionId config n made) inputs
    Progresses s now ((SessionState.onTimeout now).run s) ↔ ¬ Stalled s now := by
  intro s
  have hinterval : s.timers.interval = config.heartbeatInterval :=
    run_interval (.new sessionId config n made) inputs
  have hconfig : s.config = config := (run_ordered sessionId config n made inputs).config
  refine (SessionState.onTimeout_spec now s).progresses_iff ?_ ?_
  · rw [hinterval]
    exact hpos
  · rw [hinterval, hconfig]

/-- A session that is logged on, and told to disconnect after 20 seconds. -/
def Sample.disconnecting : List Input :=
  [.start (Sample.numbered "A" 1) 0, .command (.send Sample.logon) 0,
    .command .disconnect (20 * nanosPerSec)]

/-- When the application disconnects, the next thing to do is still the heartbeat. -/
theorem timer_progress_disconnecting :
    let s := final Input.call Sample.session Sample.disconnecting
    s.nextDeadline = some (30 * nanosPerSec) ∧
      Progresses s (29 * nanosPerSec) ((SessionState.onTimeout (29 * nanosPerSec)).run s) := by
  intro s
  have hstalled : ¬ Stalled s (29 * nanosPerSec) := by
    intro ⟨deadline, hc, hlt, hmin⟩
    exact absurd hmin (by decide +kernel)
  exact ⟨by decide +kernel, (timer_progress_iff Sample.sessionId Sample.config 1 0
    Sample.disconnecting (by decide) (29 * nanosPerSec)).mpr hstalled⟩

/-- But then the session goes on and leaves the deadline as it is: the driver wakes up again
at once, and for 20 seconds. -/
theorem deadline_passed :
    let s := final Input.call Sample.session Sample.disconnecting
    let r := (SessionState.onTimeout (30 * nanosPerSec)).run s
    r.result = .ok .continue ∧ r.state = s ∧ r.state.nextDeadline = some (30 * nanosPerSec) ∧
      s.closing = some (50 * nanosPerSec) := by
  decide +kernel

/-! ## What a silent peer is asked -/

/-- The deadline for the peer is as many intervals after `base` as the peer has missed
heartbeats, and one more. -/
def Timers.Waited (t : Timers) (base : Instant) : Prop :=
  base + (t.missedHeartbeats + 1) * t.interval ≤ t.nextIn

/-- When a session that was last set going at `base` is set going, by a call. -/
def Input.since (base : Instant) : Input → Instant
  | .message _ now => now
  | _ => base

theorem waited_new (interval : Duration) (now : Instant) : (Timers.new interval now).Waited now := by
  simp [Timers.Waited, Timers.new]

section
variable {i : Input} {base now : Instant} {s : SessionState}
  {r : OpOutcome Progress}

theorem Clocked.waited {t'} (h : Clocked t i t') (hw : t.Waited base) :
    t'.Waited (i.since base) := by
  have hsame (hi : ∀ msg now, i ≠ .message msg now) : i.since base = base := by
    cases i with
    | message msg now => exact absurd rfl (hi msg now)
    | _ => rfl
  cases h with
  | same hi | out now hi =>
    rw [hsame hi]
    exact hw
  | @heard msg now => simp [Timers.Waited, Timers.resetIn, Input.since]

theorem Timers.Waited.missed (hw : t.Waited base) (h : t.nextIn ≤ now) :
    (t.missed now).Waited base := by
  calc base + (t.missedHeartbeats + 1 + 1) * t.interval
      = base + (t.missedHeartbeats + 1) * t.interval + t.interval := by ring
    _ ≤ t.nextIn + t.interval := Nat.add_le_add_right hw _
    _ ≤ now + t.interval := Nat.add_le_add_right h _

theorem Beat.waited (h : Beat now s s' o) (hw : s.timers.Waited base) : s'.timers.Waited base := by
  obtain ⟨h, -⟩ | ⟨h, -⟩ := h.timers <;> rw [h]
  · exact hw
  · exact hw

theorem TimedOut.waited (h : TimedOut now s r) (hw : s.timers.Waited base) :
    r.state.timers.Waited base := by
  cases h with
  | ticked hc hb hk =>
    have hw := hb.waited hw
    obtain ⟨h, -⟩ | ⟨h, hle⟩ := hk.timers <;> rw [h]
    · exact hw
    · exact hw.missed hle
  | _ => exact hw

theorem Step.waited (h : Step i s r) (hw : s.timers.Waited base) :
    r.state.timers.Waited (i.since base) := by
  by_cases hi : ∃ now, i = .timeout now
  · obtain ⟨now, rfl⟩ := hi
    cases h with
    | timeout h => exact h.waited hw
  · exact (h.clocked fun now hnow => hi ⟨now, hnow⟩).waited hw

/-- How long a peer has been silent when it is asked for a sign of life, and when it is
given up. -/
structure Patient (interval base now : Nat) (o : List Effect) : Prop where
  asks : (∃ msg ∈ requests o, msg.msgType = "1") → base + 2 * interval ≤ now
  givesUp : (∃ msg ∈ requests o, msg.msgType = "5") → base + 3 * interval ≤ now

theorem Patient.of_none {interval} (h : ∀ msg ∈ requests o, msg.msgType ≠ "1" ∧ msg.msgType ≠ "5") :
    Patient interval base now o := by
  constructor
  · intro ⟨msg, hmsg, h1⟩
    exact absurd h1 (h msg hmsg).1
  · intro ⟨msg, hmsg, h5⟩
    exact absurd h5 (h msg hmsg).2

theorem Patient.prepend {interval o'}
    (h : ∀ msg ∈ requests o, msg.msgType ≠ "1" ∧ msg.msgType ≠ "5")
    (h' : Patient interval base now o') : Patient interval base now (o ++ o') := by
  constructor
  · intro ⟨msg, hmsg, h1⟩
    rw [requests_append] at hmsg
    obtain hmsg | hmsg := List.mem_append.mp hmsg
    · exact absurd h1 (h msg hmsg).1
    · exact h'.asks ⟨msg, hmsg, h1⟩
  · intro ⟨msg, hmsg, h5⟩
    rw [requests_append] at hmsg
    obtain hmsg | hmsg := List.mem_append.mp hmsg
    · exact absurd h5 (h msg hmsg).2
    · exact h'.givesUp ⟨msg, hmsg, h5⟩

theorem Beat.requests (h : Beat now s s' o) :
    ∀ msg ∈ requests o, msg.msgType ≠ "1" ∧ msg.msgType ≠ "5" := by
  intro msg hmsg
  cases h with
  | requested h hb =>
    rw [requests_request, requests_nil, List.mem_singleton] at hmsg
    rw [hmsg]
    exact ⟨by simp [SessionState.message, Message.new], by simp [SessionState.message, Message.new]⟩
  | _ => cases hmsg

theorem Checked.patient (h : Checked now s s' o) (hw : s.timers.Waited base) :
    Patient s.timers.interval base now o := by
  unfold Timers.Waited at hw
  cases h with
  | idle h | first h hm => exact .of_none (by simp)
  | second h hm =>
    rw [hm] at hw
    refine ⟨fun _ => hw.trans h, ?_⟩
    intro ⟨msg, hmsg, h5⟩
    rw [requests_request, requests_nil, List.mem_singleton] at hmsg
    rw [hmsg] at h5
    exact absurd h5 (by simp [SessionState.testRequest, SessionState.message, Message.new])
  | third h hm hc =>
    have hleast (k : Nat) (hk : k ≤ 3) : base + k * s.timers.interval ≤ now :=
      calc base + k * s.timers.interval
          ≤ base + (s.timers.missedHeartbeats + 1) * s.timers.interval :=
            Nat.add_le_add_left (Nat.mul_le_mul_right _ (by omega)) _
        _ ≤ s.timers.nextIn := hw
        _ ≤ now := h
    exact ⟨fun _ => hleast 2 (by omega), fun _ => hleast 3 (by omega)⟩

theorem TimedOut.patient (h : TimedOut now s r) (hw : s.timers.Waited base) :
    Patient s.timers.interval base now r.out := by
  cases h with
  | @ticked s₁ s₂ o₁ o₂ hc hb hk =>
    rw [← hb.interval]
    exact .prepend hb.requests (hk.patient (hb.waited hw))
  | _ => exact .of_none (by simp)

end

/-! ### On a connection -/

abbrev EndpointTurn := Turn EndpointInput Endpoint Effect Fault Progress

/-- A frame a connection gave to its session. -/
structure Frame where
  now : Instant
  /-- It was passed to `on_message`; the peer's Logon goes to `start`. -/
  onMessage : Bool
  deriving DecidableEq, Repr

/-- The session reports every frame it is given. -/
def Effect.reportsFrame : Effect → Bool
  | .event (.rawMessageReceived _) => true
  | _ => false

/-- The frame that was given to the session. -/
def frame (t : EndpointTurn) : Option Frame :=
  match t.input with
  | .receive _ now =>
    if t.outcome.out.any Effect.reportsFrame then some ⟨now, t.before.phase = .live⟩ else none
  | _ => none

/-- When the session was made. -/
def made (t : EndpointTurn) : Option Instant :=
  if t.before.phase = .idle ∧ t.outcome.state.phase ≠ .idle then
    match t.input with
    | .initiate _ now => some now
    | .receive _ now => some now
    | _ => none
  else none

def lastFrame (turns : List EndpointTurn) : Option Frame := (turns.filterMap frame).getLast?

def madeAt (turns : List EndpointTurn) : Option Instant := (turns.filterMap made).head?

/-- What holds of a connection and of the calls made on it. -/
structure Tracked (config : SessionConfig) (e : Endpoint) (turns : List EndpointTurn) : Prop where
  config_eq : e.session.config = config
  idle : e.phase = .idle → turns.filterMap frame = [] ∧ turns.filterMap made = []
  opening : e.phase ≠ .live → ∀ f ∈ turns.filterMap frame, f.onMessage = false
  live : e.phase = .live → turns.filterMap frame ≠ []
  interval : e.phase ≠ .idle → e.session.timers.interval = config.heartbeatInterval
  /-- The deadline for the peer counts from the last frame passed to `on_message`. -/
  heard : e.phase ≠ .idle → ∀ f, lastFrame turns = some f → f.onMessage = true →
    e.session.timers.Waited f.now
  /-- Before there was one, it counts from when the session was made. -/
  unheard : e.phase ≠ .idle → ∃ t, madeAt turns = some t ∧
    ((∀ f, lastFrame turns = some f → f.onMessage = false) → e.session.timers.Waited t)

theorem lastFrame_concat (turns : List EndpointTurn) (t : EndpointTurn) :
    lastFrame (turns ++ [t]) = (frame t).or (lastFrame turns) := by
  unfold lastFrame
  cases h : frame t <;> simp [List.filterMap_append, h]

theorem filterMap_concat {β : Type} (f : EndpointTurn → Option β) (turns : List EndpointTurn)
    (t : EndpointTurn) : (turns ++ [t]).filterMap f = turns.filterMap f ++ (f t).toList := by
  cases h : f t <;> simp [List.filterMap_append, h]

theorem filterMap_concat_none {β : Type} {f : EndpointTurn → Option β} {t} (h : f t = none)
    (turns : List EndpointTurn) : (turns ++ [t]).filterMap f = turns.filterMap f := by
  simp [h]

section
variable {config : SessionConfig} {turns : List EndpointTurn} {e : Endpoint}
  {i : EndpointInput} {r : Outcome Endpoint Effect Fault Progress}

theorem made_eq_none (h : r.state.phase = e.phase) : made ⟨e, i, r⟩ = none := by
  unfold made
  rw [h]
  split
  · rename_i hidle
    exact absurd hidle.1 hidle.2
  · rfl

/-- A call that gives the session no frame, and leaves the deadline for the peer alone or
puts it off. -/
theorem Tracked.keep (h : Tracked config e turns)
    (hphase : r.state.phase = e.phase) (hframe : frame ⟨e, i, r⟩ = none)
    (hconfig : r.state.session.config = e.session.config)
    (hinterval : r.state.session.timers.interval = e.session.timers.interval)
    (hwaited : ∀ base, e.session.timers.Waited base →
      r.state.session.timers.Waited base) :
    Tracked config r.state (turns ++ [⟨e, i, r⟩]) := by
  have hframes := filterMap_concat_none hframe turns
  have hmade := filterMap_concat_none (made_eq_none (i := i) hphase) turns
  have hlast : lastFrame (turns ++ [⟨e, i, r⟩]) = lastFrame turns := congrArg List.getLast? hframes
  have hat : madeAt (turns ++ [⟨e, i, r⟩]) = madeAt turns := congrArg List.head? hmade
  constructor
  · exact hconfig.trans h.config_eq
  · rw [hphase, hframes, hmade]
    exact h.idle
  · rw [hphase, hframes]
    exact h.opening
  · rw [hphase, hframes]
    exact h.live
  · rw [hphase, hinterval]
    exact h.interval
  · rw [hphase, hlast]
    intro hp f hf hon
    exact hwaited _ (h.heard hp f hf hon)
  · rw [hphase, hlast, hat]
    intro hp
    obtain ⟨made, hmade, hw⟩ := h.unheard hp
    exact ⟨made, hmade, fun hall => hwaited _ (hw hall)⟩

theorem Tracked.nothing (h : Tracked config e turns) (hstate : r.state = e)
    (hout : r.out = []) : Tracked config r.state (turns ++ [⟨e, i, r⟩]) := by
  have hframe : frame ⟨e, i, r⟩ = none := by
    unfold frame
    rw [hout]
    split <;> rfl
  refine h.keep ?_ hframe ?_ ?_ ?_ <;> rw [hstate]
  exact fun _ hw => hw

theorem tracked_unheard {base} (hphase : e.phase ≠ .idle) (hconfig : e.session.config = config)
    (hall : ∀ f ∈ turns.filterMap frame, f.onMessage = false)
    (hlive : e.phase = .live → turns.filterMap frame ≠ [])
    (hinterval : e.session.timers.interval = config.heartbeatInterval)
    (hat : madeAt turns = some base) (hwaited : e.session.timers.Waited base) :
    Tracked config e turns where
  config_eq := hconfig
  idle hp := absurd hp hphase
  opening _ := hall
  live := hlive
  interval _ := hinterval
  heard := by
    intro _ f hf hon
    rw [hall f (List.mem_of_getLast? hf)] at hon
    cases hon
  unheard _ := ⟨base, hat, fun _ => hwaited⟩

section
variable (h : Tracked config e turns)
include h

theorem Tracked.makes (now : Instant) (hidle : e.phase = .idle) (hphase : r.state.phase ≠ .idle)
    (hmade : made ⟨e, i, r⟩ = some now)
    (hframe : ∀ f, frame ⟨e, i, r⟩ = some f → f.onMessage = false)
    (hlive : r.state.phase = .live → frame ⟨e, i, r⟩ ≠ none)
    (hconfig : r.state.session.config = config)
    (htimers : r.state.session.timers = .new config.heartbeatInterval now) :
    Tracked config r.state (turns ++ [⟨e, i, r⟩]) := by
  obtain ⟨hframes, hmades⟩ := h.idle hidle
  refine tracked_unheard hphase hconfig ?_ ?_ (by rw [htimers]; rfl) ?_
    (by rw [htimers]; exact waited_new _ _)
  · rw [filterMap_concat, hframes, List.nil_append]
    intro f hf
    exact hframe f (Option.mem_toList.mp hf)
  · rw [filterMap_concat, hframes, List.nil_append]
    intro hp hnil
    exact hlive hp (Option.toList_eq_nil_iff.mp hnil)
  · rw [madeAt, filterMap_concat, hmades, hmade]
    rfl

theorem Tracked.starts (now : Instant) (hopen : e.phase ≠ .idle ∧ e.phase ≠ .live)
    (hphase : r.state.phase ≠ .idle) (hframe : frame ⟨e, i, r⟩ = some ⟨now, false⟩)
    (hconfig : r.state.session.config = e.session.config)
    (htimers : r.state.session.timers = e.session.timers) :
    Tracked config r.state (turns ++ [⟨e, i, r⟩]) := by
  have hmade : made ⟨e, i, r⟩ = none := by
    unfold made
    rw [if_neg fun hidle => hopen.1 hidle.1]
  obtain ⟨at₀, hat, hw⟩ := h.unheard hopen.1
  rw [← htimers] at hw
  refine tracked_unheard hphase (hconfig.trans h.config_eq) ?_ ?_
    (by rw [htimers]; exact h.interval hopen.1) ?_
    (hw fun f hf => h.opening hopen.2 f (List.mem_of_getLast? hf))
  · rw [filterMap_concat, hframe]
    intro f hf
    obtain hf | hf := List.mem_append.mp hf
    · exact h.opening hopen.2 f hf
    · rw [List.mem_singleton.mp hf]
  · rw [filterMap_concat, hframe]
    simp
  · rw [madeAt, filterMap_concat_none hmade]
    exact hat

theorem Tracked.hears (now : Instant) (hbefore : e.phase = .live) (hphase : r.state.phase = .live)
    (hframe : frame ⟨e, i, r⟩ = some ⟨now, true⟩)
    (hconfig : r.state.session.config = e.session.config)
    (htimers : r.state.session.timers = e.session.timers.resetIn now) :
    Tracked config r.state (turns ++ [⟨e, i, r⟩]) := by
  have hlast : lastFrame (turns ++ [⟨e, i, r⟩]) = some ⟨now, true⟩ := by
    rw [lastFrame_concat, hframe]
    rfl
  have hidle : e.phase ≠ .idle := by
    rw [hbefore]
    simp
  have hmade : made ⟨e, i, r⟩ = none := made_eq_none (hphase.trans hbefore.symm)
  constructor
  · exact hconfig.trans h.config_eq
  · intro hp
    rw [hphase] at hp
    cases hp
  · intro hp
    exact absurd hphase hp
  · intro _
    rw [filterMap_concat, hframe]
    simp
  · intro _
    rw [htimers]
    exact h.interval hidle
  · intro _ f hf _
    rw [hlast] at hf
    cases hf
    rw [htimers]
    simp [Timers.Waited, Timers.resetIn]
  · intro _
    obtain ⟨at₀, hat, -⟩ := h.unheard hidle
    refine ⟨at₀, ?_, fun hall => ?_⟩
    · rw [madeAt, filterMap_concat_none hmade]
      exact hat
    · cases hall _ hlast

end

end

theorem Step.config_eq (h : Step i s r) : r.state.config = s.config := by
  cases h.sending with
  | inbound _ h => exact h.1.config
  | send _ h => exact h.said.2.2.2.2
  | replay _ h hs _ => rw [hs, h.frame]; rfl
  | complete _ h => exact h.conduct.config
  | quiet _ h _ _ => exact h.config

section
variable {config : SessionConfig} {e : Endpoint} {turns : List EndpointTurn} {i : EndpointInput}

theorem frame_of_report {t msg} (raw : Message) (hi : t.input = .receive msg now)
    (ho : t.outcome.out = o) (hraw : .event (.rawMessageReceived raw) ∈ o) :
    frame t = some ⟨now, t.before.phase = .live⟩ := by
  have hany : o.any Effect.reportsFrame = true := List.any_eq_true.mpr ⟨_, hraw, rfl⟩
  simp [frame, hi, ho, hany]

section
variable (h : Tracked config e turns)
include h

theorem tracked_idle (hp : e.phase = .idle) :
    Tracked config (i.call.run e).state (turns ++ [⟨e, i, i.call.run e⟩]) := by
  have hspec := acted_spec i e
  generalize i.call.run e = r at hspec
  cases hspec with
  | nothing => exact h.nothing rfl rfl
  | @announced logonTimeout now hi hp =>
    refine h.makes now hp (by simp) ?_ ?_ (by simp) h.config_eq ?_
    · simp [made, hp, hi]
    · simp [frame, hi]
    · rw [← h.config_eq]
      rfl
  | @welcomed logon now r hi hp ha hid hs =>
    have hframe : frame ⟨e, i, ⟨⟨.live, r.state⟩, welcomeOut e.session.config logon ++ r.out, r.result⟩⟩ =
        some ⟨now, e.phase = .live⟩ :=
      frame_of_report logon hi rfl (by simp [welcomeOut])
    refine h.makes now hp (by simp) ?_ ?_ (by simp [hframe]) ?_ ?_
    · simp [made, hp, hi]
    · intro f hf
      rw [hframe] at hf
      cases hf
      simp [hp]
    · exact hs.conduct.config.trans h.config_eq
    · rw [← h.config_eq]
      exact hs.timers
  | answered hi hne | passed hi hne => exact absurd hp hne

theorem tracked_passed (hp : e.phase ≠ .idle) (hi : ∀ msg now, i ≠ .receive msg now) :
    Tracked config (i.call.run e).state (turns ++ [⟨e, i, i.call.run e⟩]) := by
  have hspec := acted_spec i e
  generalize i.call.run e = r at hspec
  cases hspec with
  | nothing => exact h.nothing rfl rfl
  | announced _ hidle => exact absurd hidle hp
  | welcomed hi' | answered hi' => exact absurd hi' (hi _ _)
  | @passed j r hj _ hs =>
    refine h.keep rfl ?_ hs.config_eq hs.interval fun base hw => ?_
    · cases i with
      | receive msg now => exact absurd rfl (hi msg now)
      | _ => rfl
    · have hsince : j.since base = base := by
        cases i with
        | receive msg now => exact absurd rfl (hi msg now)
        | _ => cases hj <;> rfl
      exact hsince ▸ hs.waited hw

theorem tracked_live (hp : e.phase = .live) (msg : Message) (now : Instant) :
    let r := (EndpointInput.receive msg now).call.run e
    Tracked config r.state (turns ++ [⟨e, .receive msg now, r⟩]) := by
  have hrec := SessionState.onMessage_spec msg now e.session
  have hrun : (EndpointInput.receive msg now).call.run e = _ := Endpoint.run_receive_live msg now hp
  rw [hrun, Endpoint.run_onSession]
  refine h.hears now hp hp ?_ hrec.conduct.config hrec.timers
  rw [frame_of_report msg rfl rfl ?_, hp]
  · simp
  · generalize (SessionState.onMessage msg now).run e.session = r at hrec
    cases hrec <;> simp

theorem tracked_opening {deadline} (hp : e.phase = .opening deadline) (msg : Message)
    (now : Instant) : let r := (EndpointInput.receive msg now).call.run e
    Tracked config r.state (turns ++ [⟨e, .receive msg now, r⟩]) := by
  have hrun : (EndpointInput.receive msg now).call.run e = _ :=
    Endpoint.run_receive_opening msg now hp
  rw [hrun]
  obtain ⟨result, hno⟩ | ⟨-, -, r, phase, hs, hok, herr, hgo⟩ :=
    Endpoint.onPeerLogon_cases msg now e
  · exact h.nothing (by rw [hno]) (by rw [hno])
  · rw [hgo]
    have hphase : phase ≠ .idle := by
      cases hr : r.result with
      | ok p => simp [hok p hr]
      | error f => simp [herr f hr, hp]
    refine h.starts now (by simp [hp]) hphase ?_ hs.conduct.config hs.timers
    rw [frame_of_report msg rfl rfl List.mem_cons_self, hp]
    simp

theorem tracked_step : Tracked config (i.call.run e).state (turns ++ [⟨e, i, i.call.run e⟩]) := by
  cases hp : e.phase with
  | idle => exact tracked_idle h hp
  | opening deadline =>
    cases i with
    | receive msg now => exact tracked_opening h hp msg now
    | _ => exact tracked_passed h (by simp [hp]) (by simp)
  | live =>
    cases i with
    | receive msg now => exact tracked_live h hp msg now
    | _ => exact tracked_passed h (by simp [hp]) (by simp)

end

end

theorem run_tracked (sessionId : SessionIdentifier) (config : SessionConfig) (n : Nat)
    (inputs : List EndpointInput) :
    Tracked config (final EndpointInput.call (.new sessionId config n) inputs)
      (trace EndpointInput.call (.new sessionId config n) inputs) := by
  refine run_induction (motive := fun xs e => Tracked config e
    (trace EndpointInput.call (.new sessionId config n) xs)) _ _ inputs ?_ ?_
  · constructor <;> simp [Endpoint.new, SessionState.new]
  · intro pre i ih
    rw [trace_append, trace_singleton]
    exact tracked_step ih

/-- **A peer is asked for a sign of life only after two intervals of silence, and given up
only after three**, counted from the last frame the session was given: as long as this was
passed to `on_message`, or was the Logon and came the moment the session was made. -/
theorem heartbeat_ladder (sessionId : SessionIdentifier) (config : SessionConfig) (n : Nat)
    (inputs : List EndpointInput) (now : Instant) :
    let turns := trace EndpointInput.call (.new sessionId config n) inputs
    let r := (EndpointInput.timeout now).call.run
      (final EndpointInput.call (.new sessionId config n) inputs)
    (∀ f, lastFrame turns = some f → f.onMessage = true ∨ madeAt turns = some f.now) →
      requests r.out ≠ [] → ∃ f, lastFrame turns = some f ∧
        Patient config.heartbeatInterval f.now now r.out := by
  intro turns r hprompt hne
  have h := run_tracked sessionId config n inputs
  set e := final EndpointInput.call (.new sessionId config n) inputs with he
  cases hp : e.phase with
  | idle =>
    have hrun : (EndpointInput.timeout now).call.run e = ⟨e, [], .ok .continue⟩ := by
      simp [EndpointInput.call, Endpoint.timeout, hp]
    exact absurd (by rw [show r = _ from hrun]; rfl) hne
  | opening deadline =>
    have hrun : r = _ := Endpoint.run_timeout_opening now hp
    exact absurd (by rw [hrun]; rfl) hne
  | live =>
    have hidle : e.phase ≠ .idle := by simp [hp]
    have hrun : r.out = ((SessionState.onTimeout now).run e.session).out := by
      rw [show r = _ from Endpoint.run_timeout_live now hp]
      rfl
    obtain ⟨f, hf⟩ : ∃ f, lastFrame turns = some f := by
      cases hlast : lastFrame turns with
      | none => exact absurd (List.getLast?_eq_none_iff.mp hlast) (h.live hp)
      | some f => exact ⟨f, rfl⟩
    have hwaited : e.session.timers.Waited f.now := by
      cases hon : f.onMessage with
      | true => exact h.heard hidle f hf hon
      | false =>
        obtain ⟨at₀, hat, hw⟩ := h.unheard hidle
        have hmade : madeAt turns = some f.now := by simpa [hon] using hprompt f hf
        have hsame : at₀ = f.now := Option.some.inj (hat.symm.trans hmade)
        rw [← hsame]
        refine hw fun f' hf' => ?_
        rw [show f' = f from Option.some.inj (hf'.symm.trans hf)]
        exact hon
    refine ⟨f, hf, ?_⟩
    rw [hrun, ← h.interval hidle]
    exact (SessionState.onTimeout_spec now e.session).patient hwaited

namespace Sample

/-- The peer logs on, sends a message after 10 seconds, and is silent from then on. -/
def fallsSilent : List EndpointInput :=
  [.receive logonFromPeer 0, .command (.send logon) 0,
    .receive (numbered "0" 2) (10 * nanosPerSec), .timeout (40 * nanosPerSec)]

/-- We connect, and the peer's Logon comes 29 seconds later. -/
def slowLogon : List EndpointInput :=
  [.initiate (60 * nanosPerSec) 0, .command (.send logon) 0,
    .receive logonFromPeer (29 * nanosPerSec), .timeout (30 * nanosPerSec)]

end Sample

theorem heartbeat_ladder_fallsSilent :
    let turns := trace EndpointInput.call Sample.connection Sample.fallsSilent
    let r := (EndpointInput.timeout (70 * nanosPerSec)).call.run
      (final EndpointInput.call Sample.connection Sample.fallsSilent)
    (requests r.out).map Message.msgType = ["1"] ∧
      ∃ f, lastFrame turns = some f ∧
        Patient Sample.config.heartbeatInterval f.now (70 * nanosPerSec) r.out := by
  intro turns r
  have hlast : lastFrame turns = some ⟨10 * nanosPerSec, true⟩ := by decide +kernel
  have htypes : (requests r.out).map Message.msgType = ["1"] := by decide +kernel
  refine ⟨htypes, heartbeat_ladder Sample.sessionId Sample.config 1 Sample.fallsSilent
    (70 * nanosPerSec) ?_ ?_⟩
  · intro f hf
    have hf : some f = some ⟨10 * nanosPerSec, true⟩ := hf.symm.trans hlast
    cases hf
    exact .inl rfl
  · intro hnil
    rw [show requests r.out = [] from hnil] at htypes
    cases htypes

/-- The peer is asked for a sign of life 31 seconds after its Logon, and given up after
61: the clock has been running since we connected. -/
theorem ladder_from_connecting :
    let before := Sample.slowLogon
    let asking := before ++ [.timeout (60 * nanosPerSec)]
    let givingUp := asking ++ [.timeout (90 * nanosPerSec)]
    let asked (inputs : List EndpointInput) :=
      (trace EndpointInput.call Sample.connection inputs).map fun t =>
        (requests t.outcome.out).map Message.msgType
    asked givingUp = [["A"], [], ["1"], ["0"], ["1"], ["5"]] ∧
      lastFrame (trace EndpointInput.call Sample.connection givingUp) =
        some ⟨29 * nanosPerSec, false⟩ := by
  decide +kernel

end Babelfix.Session
