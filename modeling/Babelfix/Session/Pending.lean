import Babelfix.Session.Timers
import Mathlib.Data.List.Forall2

/-! # Heartbeats that are on their way

The timer asks for a Heartbeat only if the last one it asked for has gone out, and one
flag says so. But every Heartbeat that goes out clears the flag, also one that answers a
TestRequest and was asked for before, and one the application sends of its own. -/
namespace Babelfix.Session
open Lib

/-- Why a message is to be sent. -/
inductive Reason where
  /-- A Heartbeat the timer asked for. -/
  | scheduled
  /-- A Heartbeat that answers a TestRequest, or that the application sends of its own. -/
  | unscheduled
  | other
  deriving DecidableEq, Repr

namespace Input

def isSend : Input → Bool
  | .command (.send _) _ => true
  | _ => false

/-- Why a message that this call asked for is to be sent. -/
def reason (i : Input) (msg : Message) : Reason :=
  if msg.msgType = "0" then
    match i with
    | .timeout _ => .scheduled
    | _ => .unscheduled
  else .other

end Input

/-- A session and the application that returns its admin messages. -/
structure Service where
  session : SessionState
  /-- What the application was asked for and has not sent back yet. -/
  outstanding : List (Reason × Message)
  /-- Why the messages held back behind a replay were sent, in their order. -/
  held : List Reason

inductive ServiceInput where
  /-- Any call but a send. -/
  | drive (i : Input) (h : i.isSend = false)
  /-- The application sends a message of its own. -/
  | submit (msg : Message) (now : Instant)
  /-- The application sends back the oldest message it was asked for. -/
  | sendBack (header : Block) (now : Instant)

abbrev ServiceOp := Call Service Effect Fault

namespace Service

def new (s : SessionState) : Service := ⟨s, [], []⟩

/-- What has been asked for and has not been transmitted: it is held back by the session, or
with the application. -/
def pending (a : Service) : List Reason := a.held ++ a.outstanding.map Prod.fst

/-- A call on the session, made for the given reason if it is a send. -/
def after (a : Service) (i : Input) (reason : Reason) (outstanding : List (Reason × Message)) :
    Outcome Service Effect Fault Progress :=
  let r := i.call.run a.session
  ⟨{ session := r.state
     outstanding := outstanding ++ (requests r.out).map fun msg => (i.reason msg, msg)
     held := (a.held ++ [reason]).take (queued r.state).length }, r.out, r.result⟩

end Service

def ServiceInput.call : ServiceInput → ServiceOp Progress
  | .drive i _ => ⟨fun a => a.after i .other a.outstanding⟩
  | .submit msg now => ⟨fun a =>
      let i := Input.command (.send msg) now
      a.after i (i.reason msg) a.outstanding⟩
  | .sendBack header now => ⟨fun a =>
      match a.outstanding with
      | [] => ⟨a, [], .ok .continue⟩
      | (reason, msg) :: rest =>
        let i := Input.command (.send { msg with header }) now
        -- what is refused stays with the application
        if (i.call.run a.session).result.isOk then a.after i reason rest
        else a.after i reason a.outstanding⟩

/-! ## The queue and the flag -/

/-- The timer asks for a Heartbeat at `now`. -/
def SessionState.BeatDue (s : SessionState) (now : Instant) : Prop :=
  s.closing = none ∧ s.timers.nextOut ≤ now ∧ s.heartbeatRequested = false

instance (s : SessionState) (now : Instant) : Decidable (s.BeatDue now) :=
  inferInstanceAs (Decidable (_ ∧ _))

/-- What a call does to the messages held back, and to the flag. -/
inductive Flows (i : Input) (s : SessionState) (r : OpOutcome Progress) : Prop
  | quiet (hq : queued r.state = queued s)
    (hb : r.state.heartbeatRequested = s.heartbeatRequested)
    (ho : ∀ now, i = .timeout now → ∀ msg ∈ requests r.out, msg.msgType ≠ "0")
    (hr : i.isSend = true → r.result.isOk = false)
  | beats (now : Instant) (hi : i = .timeout now) (hq : queued r.state = queued s)
    (hdue : s.BeatDue now) (hb' : r.state.heartbeatRequested = true)
    (beat : Message) (rest : List Message) (ho : requests r.out = beat :: rest)
    (hbeat : beat.msgType = "0") (hrest : ∀ msg ∈ rest, msg.msgType ≠ "0")
  | defers (msg : Message) (now : Instant) (hi : i = .command (.send msg) now)
    (hq : queued r.state = queued s ++ [msg])
    (hb : r.state.heartbeatRequested = s.heartbeatRequested) (ho : requests r.out = [])
    (hr : r.result.isOk = true)
  | sends (msg : Message) (now : Instant) (hi : i = .command (.send msg) now)
    (hs : queued s = []) (hq : queued r.state = [])
    (hb : r.state.heartbeatRequested = s.heartbeatRequested ∨ msg.msgType = "0")
    (ho : requests r.out = []) (hr : r.result.isOk = true)
  | drains (now : Instant) (hi : i = .command .replayComplete now) (hq : queued r.state = [])
    (hb : r.state.heartbeatRequested = s.heartbeatRequested ∨ ∃ msg ∈ queued s, msg.msgType = "0")

section
variable {msg : Message} {now : Instant} {s : SessionState}
  {r : OpOutcome Progress}

theorem ReplayChange.queued_eq {s' o} (h : ReplayChange msg s s' o) : queued s' = queued s := by
  cases h with
  | same hr ha ho => rw [queued, queued, hr]
  | started h2 hb he hs hstart hr ha ho =>
    obtain ⟨-, -, rfl⟩ := Replay.start_eq_ok hstart
    rw [queued, queued, hr, hs]
    rfl

theorem Outbound.flows {i} (h : Outbound msg s r.state r.out) (hi : ∀ now, i ≠ .timeout now)
    (hsend : i.isSend = false) : Flows i s r :=
  .quiet h.2.1.queued_eq h.1.heartbeatRequested (fun now hnow => absurd hnow (hi now))
    fun hs => by rw [hsend] at hs; cases hs

theorem noted_heartbeatRequested (msg : Message) (s : SessionState) :
    (noted msg s).heartbeatRequested = s.heartbeatRequested ∨ msg.msgType = "0" := by
  by_cases h0 : msg.msgType = "0"
  · exact .inr h0
  · left
    simp [noted, h0]

theorem Sent.flows (h : Sent msg now s r) : Flows (.command (.send msg) now) s r := by
  cases h with
  | rejected hno => exact .quiet rfl rfl (by simp) (fun _ => rfl)
  | @deferred n replay hn ha hr =>
    refine .defers msg now rfl ?_ rfl rfl rfl
    rw [queued, queued, hr]
    rfl
  | @dispatched n hn ha hr =>
    have hnone : queued s = [] := by
      rw [queued, hr]
      rfl
    exact .sends msg now rfl hnone hnone (noted_heartbeatRequested msg _)
      (requests_dispatchOut s msg) rfl

theorem Drained.heartbeatRequested {queue} (h : Drained queue s r) :
    r.state.heartbeatRequested = s.heartbeatRequested ∨ ∃ msg ∈ queue, msg.msgType = "0" := by
  induction h with
  | @close msg queue s n hn h5 =>
    obtain h | h := noted_heartbeatRequested msg (transmitted s n)
    · exact .inl h
    · exact .inr ⟨msg, List.mem_cons_self, h⟩
  | @next msg queue s n r hn h5 h ih =>
    obtain h0 | h0 := noted_heartbeatRequested msg (transmitted s n)
    · obtain ih | ⟨m, hm, h⟩ := ih
      · exact .inl (ih.trans h0)
      · exact .inr ⟨m, List.mem_cons_of_mem _ hm, h⟩
    · exact .inr ⟨msg, List.mem_cons_self, h0⟩
  | _ => exact .inl rfl

theorem Completed.heartbeatRequested (h : Completed s r) :
    r.state.heartbeatRequested = s.heartbeatRequested ∨ ∃ msg ∈ queued s, msg.msgType = "0" := by
  cases h with
  | @drained replay gap r r' hs ht hg hd hr =>
    have hbefore : (replayEnded s gap).heartbeatRequested = s.heartbeatRequested := by
      cases gap <;> rfl
    rw [Outcome.prepend_state, hr.frame.1, queued, hs]
    exact hd.heartbeatRequested.imp (fun h => h.trans hbefore) id
  | _ => exact .inl rfl

theorem TimedOut.flows (h : TimedOut now s r) : Flows (.timeout now) s r := by
  have hchecked {s₁ s₂ : SessionState} {o : List Effect} (h : Checked now s₁ s₂ o) :
      queued s₂ = queued s₁ ∧ s₂.heartbeatRequested = s₁.heartbeatRequested ∧
        ∀ msg ∈ requests o, msg.msgType ≠ "0" := by
    cases h <;>
      simp [requests, requested, queued, missedOne, closed, SessionState.testRequest,
        SessionState.logout, SessionState.message, Message.new]
  cases h with
  | @ticked s₁ s₂ o₁ o₂ hc hb hk =>
    obtain ⟨hq, hflag, ho⟩ := hchecked hk
    cases hb with
    | idle h => exact .quiet hq hflag (fun _ _ => ho) (by simp [Input.isSend])
    | awaited h hb => exact .quiet hq hflag (fun _ _ => ho) (by simp [Input.isSend])
    | requested h hb => exact .beats now rfl hq ⟨hc, h, hb⟩ hflag (s.message "0") (requests o₂) rfl rfl ho
  | _ => exact .quiet rfl rfl (by simp) (by simp [Input.isSend])

end

theorem Step.flows {i s r} (h : Step i s r) : Flows i s r := by
  cases h with
  | start h | message h => exact h.outbound.flows (by simp) rfl
  | send h | timeout h => exact h.flows
  | replayed h hok | replayFailed h hf =>
    exact .quiet h.queued_eq (by rw [h.frame]; rfl) (by simp) (by simp [Input.isSend])
  | @replayComplete now s r h =>
    obtain ⟨_, _, _, _, hf⟩ := h.finishes
    exact .drains now rfl hf.empty h.heartbeatRequested
  | _ => exact .quiet rfl rfl (by simp) (by simp [Input.isSend])

/-! ## What is pending -/

/-- The Heartbeats among what is pending. -/
def beats (l : List Reason) : List Reason := l.filter (· ≠ .other)

@[simp] theorem beats_append (l l' : List Reason) : beats (l ++ l') = beats l ++ beats l' :=
  List.filter_append l l'

theorem scheduled_mem_beats {l} : .scheduled ∈ beats l ↔ .scheduled ∈ l := by
  simp [beats]

/-- A Heartbeat is one for whatever reason. -/
def Fitting (reason : Reason) (msg : Message) : Prop := reason ≠ .other ↔ msg.msgType = "0"

theorem fitting_reason (i : Input) (msg : Message) : Fitting (i.reason msg) msg := by
  unfold Fitting Input.reason
  split
  · rename_i h
    cases i <;> simp [h]
  · rename_i h
    simp [h]

/-- What is pending has at most one scheduled Heartbeat, ahead of all others, and none if
the flag says so. -/
structure Paced (flag : Bool) (pending : List Reason) : Prop where
  ahead : .scheduled ∉ (beats pending).tail
  asked : flag = false → .scheduled ∉ pending

variable {flag : Bool} {pending : List Reason}

theorem Paced.count_le (h : Paced flag pending) :
    pending.count .scheduled ≤ 1 := by
  have hcount : pending.count .scheduled = (beats pending).count .scheduled := by
    rw [beats, List.count_filter (by simp)]
  rw [hcount]
  have hahead := h.ahead
  cases hb : beats pending with
  | nil => simp
  | cons x rest =>
    rw [hb, List.tail_cons] at hahead
    rw [List.count_cons, List.count_eq_zero.mpr hahead]
    split <;> simp

/-- Something more is asked for, but no scheduled Heartbeat. -/
theorem Paced.append {more} (h : Paced flag pending) (hmore : .scheduled ∉ more) :
    Paced flag (pending ++ more) := by
  constructor
  · rw [beats_append]
    cases hb : beats pending with
    | nil =>
      intro hmem
      exact hmore (scheduled_mem_beats.mp (List.mem_of_mem_tail hmem))
    | cons x rest =>
      have hahead := h.ahead
      rw [hb, List.tail_cons] at hahead
      rw [List.cons_append, List.tail_cons, List.mem_append, not_or]
      exact ⟨hahead, fun hmem => hmore (scheduled_mem_beats.mp hmem)⟩
  · intro hflag hmem
    obtain hmem | hmem := List.mem_append.mp hmem
    · exact h.asked hflag hmem
    · exact hmore hmem

/-- Something joins the middle: no Heartbeat, or one while none that is scheduled is pending. -/
theorem Paced.insert {before after reason} (h : Paced flag (before ++ after))
    (hreason : reason = .other ∨ reason ≠ .scheduled ∧ .scheduled ∉ before ++ after) :
    Paced flag (before ++ [reason] ++ after) := by
  obtain rfl | ⟨hne, hnone⟩ := hreason
  · constructor
    · have := h.ahead
      simpa [beats] using this
    · intro hflag
      have := h.asked hflag
      simpa using this
  · have hnone' : .scheduled ∉ before ++ [reason] ++ after := by
      simpa [hne.symm] using hnone
    exact ⟨fun hmem => hnone' (scheduled_mem_beats.mp (List.mem_of_mem_tail hmem)), fun _ => hnone'⟩

/-- The first of what is pending goes: if there was a Heartbeat among it, the flag may be
cleared. -/
theorem Paced.drop {flag' rest} (gone : List Reason) (h : Paced flag (gone ++ rest))
    (hflag : flag' = flag ∨ beats gone ≠ []) : Paced flag' rest := by
  have hahead := h.ahead
  rw [beats_append] at hahead
  by_cases hgone : beats gone = []
  · rw [hgone, List.nil_append] at hahead
    refine ⟨hahead, fun hfalse hmem => ?_⟩
    obtain hsame | hne := hflag
    · exact h.asked (hsame ▸ hfalse) (List.mem_append_right _ hmem)
    · exact hne hgone
  · obtain ⟨x, more, hx⟩ := List.exists_cons_of_ne_nil hgone
    rw [hx, List.cons_append, List.tail_cons, List.mem_append, not_or] at hahead
    refine ⟨fun hmem => hahead.2 (List.mem_of_mem_tail hmem), fun _ hmem => ?_⟩
    exact hahead.2 (scheduled_mem_beats.mpr hmem)

/-- The timer asks for a Heartbeat, and no other one is pending. -/
theorem Paced.beat {more} (h : Paced false pending) (hother : .unscheduled ∉ pending)
    (hmore : ∀ reason ∈ more, reason = .other) : Paced true (pending ++ .scheduled :: more) := by
  have hnone : beats pending = [] := by
    refine List.filter_eq_nil_iff.mpr ?_
    intro reason hmem
    cases reason with
    | scheduled => exact absurd hmem (h.asked rfl)
    | unscheduled => exact absurd hmem hother
    | other => simp
  have hrest : beats more = [] := by
    refine List.filter_eq_nil_iff.mpr ?_
    intro reason hmem
    simp [hmore reason hmem]
  have hmore' : beats (.scheduled :: more) = .scheduled :: beats more := by simp [beats]
  refine ⟨?_, by simp⟩
  rw [beats_append, hnone, List.nil_append, hmore', hrest]
  simp

/-- What holds of a session and its application. -/
structure Served (a : Service) : Prop where
  held : List.Forall₂ Fitting a.held (queued a.session)
  outstanding : ∀ x ∈ a.outstanding, Fitting x.1 x.2
  paced : Paced a.session.heartbeatRequested a.pending

theorem Served.new (sessionId : SessionIdentifier) (config : SessionConfig) (n : Nat)
    (now : Instant) : Served (.new (.new sessionId config n now)) := by
  refine ⟨.nil, by simp [Service.new], ?_, ?_⟩ <;> simp [Service.new, Service.pending, beats]

section
variable {a : Service} {i : Input} {reason : Reason}

theorem Served.outstanding_append (h : Served a) {outstanding} (hsub : outstanding ⊆ a.outstanding)
    (msgs : List Message) :
    ∀ x ∈ outstanding ++ msgs.map fun msg => (i.reason msg, msg), Fitting x.1 x.2 := by
  intro x hx
  obtain hx | hx := List.mem_append.mp hx
  · exact h.outstanding x (hsub hx)
  · obtain ⟨msg, -, rfl⟩ := List.mem_map.mp hx
    exact fitting_reason i msg

theorem reason_ne_scheduled {msgs : List Message}
    (h : ∀ now, i = .timeout now → ∀ msg ∈ msgs, msg.msgType ≠ "0") :
    .scheduled ∉ msgs.map i.reason := by
  intro hmem
  obtain ⟨msg, hmsg, hreason⟩ := List.mem_map.mp hmem
  unfold Input.reason at hreason
  split at hreason
  · rename_i h0
    cases i with
    | timeout now => exact h now rfl msg hmsg h0
    | _ => cases hreason
  · cases hreason

/-- The timer asks for no Heartbeat while another one is pending. -/
def Unhurried (a : Service) (i : Input) : Prop :=
  ∀ now, i = .timeout now → a.session.BeatDue now → .unscheduled ∉ a.pending

theorem Served.after (h : Served a) {held rest} (hheld : held <+: a.held ++ [reason])
    (hq : List.Forall₂ Fitting held (queued (i.call.run a.session).state))
    (hsub : rest ⊆ a.outstanding) (hpaced : Paced (i.call.run a.session).state.heartbeatRequested
      (held ++ (rest.map Prod.fst ++ (requests (i.call.run a.session).out).map i.reason))) :
    Served (a.after i reason rest).state := by
  have heq : (a.after i reason rest).state.held = held := by
    show (a.held ++ [reason]).take _ = held
    rw [← hq.length_eq]
    exact (List.prefix_iff_eq_take.mp hheld).symm
  refine ⟨by rw [heq]; exact hq, h.outstanding_append hsub _, ?_⟩
  rw [Service.pending, heq]
  simpa [Service.after, Function.comp_def] using hpaced

theorem Served.quiet (h : Served a) (hflows : Flows i a.session (i.call.run a.session))
    (hi : (i.call.run a.session).result.isOk = true → i.isSend = false) (hcalm : Unhurried a i) :
    Served (a.after i reason a.outstanding).state := by
  have hnot {msg : Message} {now : Instant} (hsend : i = .command (.send msg) now)
      (hok : (i.call.run a.session).result.isOk = true) : False := by
    have := hi hok
    rw [hsend] at this
    cases this
  cases hflows with
  | quiet hq hb ho hr =>
    refine h.after (List.prefix_append _ _) (hq ▸ h.held) (List.Subset.refl _) ?_
    rw [hb, ← List.append_assoc]
    exact h.paced.append (reason_ne_scheduled ho)
  | beats now hnow hq hdue hb' beat rest ho hbeat hrest =>
    have hpaced := h.paced
    rw [hdue.2.2] at hpaced
    have hscheduled : i.reason beat = .scheduled := by simp [hnow, Input.reason, hbeat]
    refine h.after (List.prefix_append _ _) (hq ▸ h.held) (List.Subset.refl _) ?_
    rw [hb', ho, List.map_cons, hscheduled, ← List.append_assoc]
    refine hpaced.beat (hcalm now hnow hdue) ?_
    intro x hx
    obtain ⟨msg, hmsg, rfl⟩ := List.mem_map.mp hx
    exact if_neg (hrest msg hmsg)
  | defers msg now hsend hq hb ho hr | sends msg now hsend hs hq hb ho hr =>
    exact absurd (hnot hsend hr) not_false
  | drains now hnow hq hb =>
    refine h.after List.nil_prefix (hq ▸ .nil) (List.Subset.refl _) ?_
    refine (h.paced.drop a.held ?_).append (reason_ne_scheduled ?_)
    · obtain hb | ⟨msg, hmsg, h0⟩ := hb
      · exact .inl hb
      · -- a Heartbeat was held back, and so is among what goes
        right
        obtain ⟨n, hn, hget⟩ := List.mem_iff_getElem.mp hmsg
        have hlt : n < a.held.length := h.held.length_eq ▸ hn
        have hfit : Fitting a.held[n] msg := by
          have := h.held.get hlt hn
          simpa [hget] using this
        intro hnil
        have := List.filter_eq_nil_iff.mp hnil _ (List.getElem_mem hlt)
        exact (by simpa using this : ¬ a.held[n] ≠ .other) (hfit.mpr h0)
    · intro now' hnow'
      rw [hnow] at hnow'
      cases hnow'

/-- The session takes a message. It goes out, or is held back. -/
inductive Takes (a : Service) (msg : Message) (r : OpOutcome Progress) : Prop
  | defers (hq : queued r.state = queued a.session ++ [msg])
    (hb : r.state.heartbeatRequested = a.session.heartbeatRequested) (ho : requests r.out = [])
  | sends (hs : queued a.session = []) (hq : queued r.state = [])
    (hb : r.state.heartbeatRequested = a.session.heartbeatRequested ∨ msg.msgType = "0")
    (ho : requests r.out = [])

variable {msg : Message}

theorem takes_of_isOk {now}
    (hok : ((Input.command (.send msg) now).call.run a.session).result.isOk = true) :
    Takes a msg ((Input.command (.send msg) now).call.run a.session) := by
  cases (step_spec (.command (.send msg) now) a.session).flows with
  | quiet hq hb ho hr =>
    rw [hr rfl] at hok
    cases hok
  | defers msg' now' hi hq hb ho hr =>
    cases hi
    exact .defers hq hb ho
  | sends msg' now' hi hs hq hb ho hr =>
    cases hi
    exact .sends hs hq hb ho
  | beats now' hi | drains now' hi => cases hi

theorem Served.held_nil (h : Served a) (hs : queued a.session = []) : a.held = [] := by
  have hheld := h.held
  rw [hs] at hheld
  exact List.forall₂_nil_right_iff.mp hheld

theorem Served.taken (h : Served a) {rest} (hfit : Fitting reason msg) (hsub : rest ⊆ a.outstanding)
    (htakes : Takes a msg (i.call.run a.session))
    (hpaced : Paced a.session.heartbeatRequested (a.held ++ [reason] ++ rest.map Prod.fst)) :
    Served (a.after i reason rest).state := by
  cases htakes with
  | defers hq hb ho =>
    refine h.after (List.prefix_refl _) ?_ hsub ?_
    · rw [hq]
      exact List.rel_append h.held (.cons hfit .nil)
    · rw [hb, ho, List.map_nil, List.append_nil]
      exact hpaced
  | sends hs hq hb ho =>
    rw [h.held_nil hs, List.nil_append] at hpaced
    refine h.after List.nil_prefix (hq ▸ .nil) hsub ?_
    rw [ho, List.map_nil, List.append_nil, List.nil_append]
    refine hpaced.drop [reason] (hb.imp id fun h0 => ?_)
    have hne : reason ≠ .other := hfit.mpr h0
    simp [beats, hne]

end

/-! ## Whole runs -/

abbrev ServiceTurn := Turn ServiceInput Service Effect Fault Progress

/-- The timer asks for a Heartbeat while another one is pending. -/
def Overtakes (a : Service) : ServiceInput → Prop
  | .drive (.timeout now) _ => a.session.BeatDue now ∧ .unscheduled ∈ a.pending
  | _ => False

/-- The application sends a Heartbeat of its own while one the timer asked for is pending. -/
def Intrudes (a : Service) : ServiceInput → Prop
  | .submit msg _ => msg.msgType = "0" ∧ .scheduled ∈ a.pending
  | _ => False

instance (a : Service) (i : ServiceInput) : Decidable (Overtakes a i) := by
  unfold Overtakes
  split <;> infer_instance

instance (a : Service) (i : ServiceInput) : Decidable (Intrudes a i) := by
  unfold Intrudes
  split <;> infer_instance

theorem served_step {a} (h : Served a) (i : ServiceInput) (hi : ¬ Overtakes a i ∧ ¬ Intrudes a i) :
    Served (i.call.run a).state := by
  have hcalm {msg : Message} {now : Instant} : Unhurried a (.command (.send msg) now) := by
    intro now' hnow
    cases hnow
  cases i with
  | drive i hsend =>
    refine h.quiet (step_spec i a.session).flows (fun _ => hsend) ?_
    intro now hnow hdue hother
    subst hnow
    exact hi.1 ⟨hdue, hother⟩
  | submit msg now =>
    cases hok : ((Input.command (.send msg) now).call.run a.session).result.isOk with
    | true =>
      refine h.taken (fitting_reason _ msg) (List.Subset.refl _) (takes_of_isOk hok) (h.paced.insert ?_)
      by_cases h0 : msg.msgType = "0"
      · refine .inr ⟨?_, fun hmem => hi.2 ⟨h0, hmem⟩⟩
        simp [Input.reason, h0]
      · exact .inl (if_neg h0)
    | false =>
      exact h.quiet (step_spec _ a.session).flows (by simp [hok]) hcalm
  | sendBack header now =>
    cases hout : a.outstanding with
    | nil =>
      have hrun : (ServiceInput.sendBack header now).call.run a = ⟨a, [], .ok .continue⟩ := by
        simp only [ServiceInput.call, hout]
      rw [hrun]
      exact h
    | cons x rest =>
      obtain ⟨reason, msg⟩ := x
      cases hok : ((Input.command (.send { msg with header }) now).call.run a.session).result.isOk with
      | true =>
        have hrun : (ServiceInput.sendBack header now).call.run a =
            a.after (.command (.send { msg with header }) now) reason rest := by
          simp only [ServiceInput.call, hout, hok, if_true]
        rw [hrun]
        have hpaced := h.paced
        rw [Service.pending, hout, List.map_cons] at hpaced
        have hfit : Fitting reason { msg with header } :=
          h.outstanding (reason, msg) (by rw [hout]; exact List.mem_cons_self)
        refine h.taken hfit ?_ (takes_of_isOk hok) (by simpa using hpaced)
        rw [hout]
        exact List.subset_cons_self _ _
      | false =>
        have hrun : (ServiceInput.sendBack header now).call.run a =
            a.after (.command (.send { msg with header }) now) reason a.outstanding := by
          simp only [ServiceInput.call, hout, hok, Bool.false_eq_true, if_false]
        rw [hrun]
        exact h.quiet (step_spec _ a.session).flows (by simp [hok]) hcalm

/-- **At most one scheduled Heartbeat is on its way**, as long as the timer asks for none while
another one is, and the application sends none of its own while a scheduled one is. -/
theorem one_scheduled (sessionId : SessionIdentifier) (config : SessionConfig) (n : Nat)
    (now : Instant) (inputs : List ServiceInput)
    (h : ∀ turn ∈ trace ServiceInput.call (.new (.new sessionId config n now)) inputs,
      ¬ Overtakes turn.before turn.input ∧ ¬ Intrudes turn.before turn.input) :
    (final ServiceInput.call (.new (.new sessionId config n now)) inputs).pending.count
      .scheduled ≤ 1 := by
  set a₀ : Service := .new (.new sessionId config n now)
  obtain ⟨hserved, -⟩ := run_induction_of (motive := fun _ a => Served a) ServiceInput.call h
    (.new sessionId config n now) fun pre i hserved hi => served_step hserved i hi
  exact hserved.paced.count_le

namespace Sample

/-- The header of a message with just a number. -/
def numberOnly (n : Nat) : Block := [.field 34 (writeUint n)]

/-- Both sides log on, and we return what we are asked for. -/
def loggedOnService : List ServiceInput :=
  [.drive .requestLogon rfl, .sendBack (numberOnly 1) 0, .drive (.start (numbered "A" 1) 0) rfl,
    .sendBack (numberOnly 2) 0]

/-- A TestRequest comes just after the Heartbeat is due. -/
def testedAfterwards : List ServiceInput :=
  loggedOnService ++ [.drive (.timeout (30 * nanosPerSec)) rfl,
    .drive (.message { numbered "1" 2 with body := [.field 112 (ascii "X")] } (31 * nanosPerSec)) rfl,
    .sendBack (numberOnly 3) (32 * nanosPerSec), .sendBack (numberOnly 4) (33 * nanosPerSec),
    .drive (.timeout (60 * nanosPerSec)) rfl]

/-- A TestRequest comes just before the Heartbeat is due. -/
def testedBefore : List ServiceInput :=
  loggedOnService ++ [.drive (.message { numbered "1" 2 with body := [.field 112 (ascii "X")] }
      (29 * nanosPerSec)) rfl,
    .drive (.timeout (30 * nanosPerSec)) rfl, .sendBack (numberOnly 3) (31 * nanosPerSec),
    .drive (.timeout (60 * nanosPerSec)) rfl]

/-- The application sends a Heartbeat of its own after the timer has asked for one. -/
def beatsItself : List ServiceInput :=
  loggedOnService ++ [.drive (.timeout (30 * nanosPerSec)) rfl,
    .submit { Message.new "FIX.4.4" "0" with header := numberOnly 3 } (31 * nanosPerSec),
    .drive (.timeout (60 * nanosPerSec)) rfl]

end Sample

theorem one_scheduled_testedAfterwards :
    (final ServiceInput.call (.new Sample.session) Sample.testedAfterwards).pending = [.scheduled] ∧
      (final ServiceInput.call (.new Sample.session) Sample.testedAfterwards).pending.count
        .scheduled ≤ 1 := by
  exact ⟨by decide +kernel, one_scheduled Sample.sessionId Sample.config 1 0
    Sample.testedAfterwards (by decide +kernel)⟩

/-- The answer to the TestRequest clears the flag, and the timer asks for a second Heartbeat
while the first is still with the application. So does one of the application's own. -/
theorem two_scheduled :
    (final ServiceInput.call (.new Sample.session) Sample.testedBefore).pending =
      [.scheduled, .scheduled] ∧
    (final ServiceInput.call (.new Sample.session) Sample.beatsItself).pending =
      [.scheduled, .scheduled, .other] ∧
    (trace ServiceInput.call (.new Sample.session) Sample.testedBefore).map
        (fun t => (requests t.outcome.out).map Message.msgType) =
      [["A"], [], ["1"], [], ["0"], ["0"], [], ["0"]] := by
  decide +kernel

end Babelfix.Session
