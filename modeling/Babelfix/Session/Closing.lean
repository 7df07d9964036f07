import Babelfix.Session.Conduct

/-! # Closing

Once a Logout has been asked for, the session listens to nothing and asks for nothing
more. It ends when a Logout goes out, when the Logout is late, or when the peer goes
away. -/
namespace Babelfix.Session
open Lib

/-- The Logouts asked for. -/
def logouts (o : List Effect) : List Message := (requests o).filter fun msg => msg.msgType = "5"

@[simp] theorem logouts_append (o o' : List Effect) :
    logouts (o ++ o') = logouts o ++ logouts o' := by
  simp [logouts]

theorem logouts_eq_nil {o} (h : ∀ msg ∈ requests o, msg.msgType ≠ "5") : logouts o = [] := by
  rw [logouts, List.filter_eq_nil_iff]
  intro msg hmsg
  simpa using h msg hmsg

theorem logouts_of_requests {o} (h : requests o = []) : logouts o = [] := by
  rw [logouts, h]
  rfl

@[simp] theorem logouts_reportOut (b : Bool) (s : SessionState) : logouts (reportOut b s) = [] :=
  logouts_of_requests (requests_reportOut b s)

@[simp] theorem logouts_gapOut (s : SessionState) : logouts (gapOut s) = [] := by
  refine logouts_eq_nil ?_
  intro msg hmsg
  rw [requests_gapOut s msg hmsg]
  decide

@[simp] theorem logouts_syncOut (s : SessionState) : logouts (syncOut s) = [] := by
  refine logouts_eq_nil ?_
  intro msg hmsg
  rw [requests_syncOut, List.mem_singleton] at hmsg
  rw [hmsg]
  exact (by decide : ("1" : String) ≠ "5")

@[simp] theorem logouts_logout (s : SessionState) (text : Bytes) (o : List Effect) :
    logouts (.event (.adminSendRequired (s.logout text)) :: o) = s.logout text :: logouts o := rfl

/-! ## One call -/

/-- A call asks for no Logout and leaves the deadline alone, or it asks for one, which the
session was not closing for yet. -/
inductive AsksOnce (s s' : SessionState) (o : List Effect) : Prop
  | calm (hc : s'.closing = s.closing) (ho : logouts o = [])
  | closes {msg : Message} {deadline : Instant} (hs : s.closing = none)
    (hc : s'.closing = some deadline) (ho : logouts o = [msg])

section
variable {s t s' : SessionState} {o : List Effect}

theorem AsksOnce.transfer (h : AsksOnce s s' o) (hc : t.closing = s.closing) : AsksOnce t s' o := by
  cases h with
  | calm hs ho => exact .calm (hs.trans hc.symm) ho
  | closes hs hc' ho => exact .closes (hc.trans hs) hc' ho

theorem AsksOnce.prepend (h : AsksOnce s s' o) {o'} (ho' : logouts o' = []) :
    AsksOnce s s' (o' ++ o) := by
  cases h with
  | calm hc ho => exact .calm hc (by rw [logouts_append, ho', ho]; rfl)
  | closes hs hc ho => exact .closes hs hc (by rw [logouts_append, ho', ho]; rfl)

theorem AsksOnce.andThen {s'' o'} (h : AsksOnce s s' o) (hs' : s'.closing = none)
    (h' : AsksOnce s' s'' o') : AsksOnce s s'' (o ++ o') := by
  cases h with
  | calm hc ho => exact (h'.transfer hc.symm).prepend ho
  | closes hs hc ho =>
    rw [hs'] at hc
    cases hc

end

variable {r : OpOutcome Progress}

theorem Dispatched.asksOnce {msg inSequence now s} (h : Dispatched msg inSequence now s r) :
    AsksOnce s r.state r.out := by
  cases h with
  | unanswered h hid | refused h hf | shown h hn | unshown h hn => exact .calm rfl rfl
  | logout h hs => exact .closes hs rfl (by rw [logouts_logout, logouts_reportOut])
  | _ => exact .calm rfl (logouts_reportOut _ _)

theorem Handled.asksOnce {msg now s} (h : Handled msg now s r) : AsksOnce s r.state r.out := by
  cases h with
  | low hn h hc => exact .closes hc rfl rfl
  | gap hn h h2 h5 | gapLogout hn h h5 => exact .calm (gapState_calm s _).2 (logouts_gapOut s)
  | gapResend hn h h2 hd =>
    exact (hd.asksOnce.transfer (gapState_calm s _).2.symm).prepend (logouts_gapOut s)
  | failed hn hnext hd hf | accepted hn hnext hd hok hdue => exact hd.asksOnce.transfer rfl
  | @acceptedLogout next r hn hnext hd hok hdue =>
    have hack : AsksOnce r.state (closed r.state now) [.event (.adminSendRequired
        (r.state.logout SessionState.logoutReceivedText))] := .closes hdue.2.2 rfl rfl
    exact (hd.asksOnce.transfer (t := s) rfl).andThen hdue.2.2 hack
  | _ => exact .calm rfl rfl

theorem Started.asksOnce {logon now s} (h : Started logon now s r) : AsksOnce s r.state r.out := by
  cases h with
  | failed h hf => exact h.asksOnce
  | refused h hok hc =>
    cases h.asksOnce with
    | calm hsame ho => exact .calm hsame ho
    | closes hs hc' ho => exact .closes hs hc' ho
  | @established r h hok hc =>
    have hsync : logouts (loggedOnOut r.state.logonSent ++ syncOut r.state) = [] := by
      rw [logouts_append, logouts_syncOut, logouts_of_requests (requests_loggedOnOut _)]
      rfl
    exact h.asksOnce.andThen hc (.calm rfl hsync)

theorem Received.asksOnce {msg now s} (h : Received msg now s r) : AsksOnce s r.state r.out := by
  cases h with
  | ignored hc => exact .calm rfl rfl
  | handled hc h =>
    have hrest := h.asksOnce.transfer (t := s) rfl
    exact hrest.prepend rfl

theorem Completed.asksOnce {s} (h : Completed s r) : AsksOnce s r.state r.out := by
  cases h with
  | @drained replay gap r r' hs ht hg hd hr =>
    have hclosing : r'.state.closing = s.closing := by
      rw [hr.frame.1, hd.frame]
      cases gap <;> rfl
    have hfill : logouts (fillOut s gap) = [] := logouts_of_requests (requests_fillOut s gap)
    have hqueue : logouts r.out = [] := logouts_of_requests hd.conduct.requests
    refine .calm hclosing ?_
    rw [Outcome.prepend_out, logouts_append, hfill, List.nil_append]
    cases hr with
    | resynchronised hok hc => rw [logouts_append, hqueue, logouts_syncOut]; rfl
    | _ => exact hqueue
  | _ => exact .calm rfl rfl

theorem TimedOut.asksOnce {now s} (h : TimedOut now s r) : AsksOnce s r.state r.out := by
  cases h with
  | @ticked s₁ s₂ o₁ o₂ hc hb hk =>
    have hbeat : AsksOnce s s₁ o₁ ∧ s₁.closing = none := by
      cases hb with
      | idle h => exact ⟨.calm rfl rfl, hc⟩
      | awaited h hb => exact ⟨.calm rfl rfl, hc⟩
      | requested h hb => exact ⟨.calm rfl rfl, hc⟩
    refine hbeat.1.andThen hbeat.2 ?_
    cases hk with
    | idle h => exact .calm rfl rfl
    | first h hm => exact .calm rfl rfl
    | second h hm => exact .calm rfl rfl
    | third h hm hc => exact .closes hc rfl rfl
  | _ => exact .calm rfl rfl

/-- **One call on a session asks for one Logout at most, and only while it is not
closing.** -/
theorem Step.asksOnce {i s} (h : Step i s r) : AsksOnce s r.state r.out := by
  cases h with
  | start h | message h | timeout h => exact h.asksOnce
  | send h =>
    cases h with
    | rejected h => exact .calm rfl rfl
    | deferred hn ha hr => exact .calm rfl rfl
    | dispatched hn ha hr => exact .calm rfl (logouts_of_requests (requests_dispatchOut _ _))
  | replayed h hok | replayFailed h hf =>
    exact .calm (by rw [h.frame]; rfl) (logouts_of_requests h.requests_eq)
  | replayComplete h => exact h.asksOnce.transfer rfl
  | disconnect hc => exact .closes hc rfl rfl
  | _ => exact .calm rfl rfl

/-! ## What ends a session -/

/-- A Logout has gone out: this message, handed over in that call or deferred to it. -/
def SentLogout (s : SessionState) (o : List Effect) (msg : Message) : Prop :=
  msg.msgType = "5" ∧ (.fresh, s.onWire msg) ∈ transmissions o

/-- What makes a call end the session. -/
inductive Ends (s : SessionState) (o : List Effect) : Input → Prop
  | sent {msg now} (h : SentLogout s o msg) : Ends s o (.command (.send msg) now)
  | deferred {msg now} (hq : msg ∈ queued s) (h : SentLogout s o msg) :
    Ends s o (.command .replayComplete now)
  | late {now deadline} (hc : s.closing = some deadline) (h : deadline ≤ now) :
    Ends s o (.timeout now)
  | peerClosed : Ends s o .peerClosed

theorem Drained.sentLogout {queue s} (h : Drained queue s r) (hr : r.result = .ok .close) :
    ∃ msg ∈ queue, SentLogout s r.out msg := by
  induction h with
  | done | unread hn => cases hr
  | @close msg queue s n hn h5 =>
    exact ⟨msg, List.mem_cons_self, h5, by rw [transmissions_dispatchOut]; exact List.mem_cons_self⟩
  | @next msg queue s n r hn h5 h ih =>
    obtain ⟨logout, hmem, h5', hwire⟩ := ih hr
    refine ⟨logout, List.mem_cons_of_mem _ hmem, h5', ?_⟩
    rw [Outcome.prepend_out, transmissions_append]
    exact List.mem_append_right _ hwire

theorem Completed.ends {s} (h : Completed s r) (hr : r.result = .ok .close) :
    ∃ msg ∈ queued s, SentLogout s r.out msg := by
  cases h with
  | @drained replay gap r r' hs ht hg hd hresume =>
    have hsame : r' = r := by
      cases hresume with
      | resynchronised hok hc => cases hr
      | _ => rfl
    subst hsame
    obtain ⟨msg, hmem, h5, hwire⟩ := hd.sentLogout hr
    refine ⟨msg, by rw [queued, hs]; exact hmem, h5, ?_⟩
    have hid : (replayEnded s gap).onWire msg = s.onWire msg := by
      cases gap <;> rfl
    rw [Outcome.prepend_out, transmissions_append, ← hid]
    exact List.mem_append_right _ hwire
  | _ => cases hr

theorem Step.ends {i s r} (h : Step i s r) (hr : r.result = .ok .close) : Ends s r.out i := by
  cases h with
  | start h =>
    cases h with
    | failed h hf => rw [hf] at hr; cases hr
    | refused h hok hc => cases hr
    | established h hok hc => cases hr
  | message h =>
    cases h with
    | ignored hc => cases hr
    | handled hc h =>
      rw [Outcome.prepend_result] at hr
      rcases h.ok_or_error with hok | ⟨f, hf⟩
      · rw [hok] at hr
        cases hr
      · rw [hf] at hr
        cases hr
  | send h =>
    cases h with
    | rejected h => cases hr
    | deferred hn ha hs => cases hr
    | dispatched hn ha hs =>
      refine .sent ⟨?_, by rw [transmissions_dispatchOut]; exact List.mem_cons_self⟩
      by_contra h5
      rw [progressOf, if_neg h5] at hr
      cases hr
  | replayComplete h =>
    obtain ⟨msg, hmem, hsent⟩ := h.ends hr
    exact .deferred hmem hsent
  | timeout h =>
    cases h with
    | expired hc h => exact .late hc h
    | waiting hc h => cases hr
    | ticked hc hb hk => cases hr
  | peerClosed => exact .peerClosed
  | _ => cases hr

/-! ## Runs -/

/-- What a call does once the session is closing. -/
structure Quiet (deadline : Instant) (t : Turn Input SessionState Effect Fault Progress) :
    Prop where
  closing : t.outcome.state.closing = some deadline
  logouts : logouts t.outcome.out = []
  message : ∀ msg now, t.input = .message msg now →
    t.outcome.state.nextInSeqNum = t.before.nextInSeqNum ∧
      t.outcome.out = [.event (.rawMessageReceived msg)]
  timeout : ∀ now, t.input = .timeout now →
    requests t.outcome.out = [] ∧ (deadline ≤ now → t.outcome.result = .ok .close)

theorem Step.quiet {i s deadline} (h : Step i s r) (hc : s.closing = some deadline) :
    Quiet deadline ⟨s, i, r⟩ := by
  have hcalm : r.state.closing = some deadline ∧ Session.logouts r.out = [] := by
    cases h.asksOnce with
    | calm hsame ho => exact ⟨hsame.trans hc, ho⟩
    | closes hs _ _ =>
      rw [hc] at hs
      cases hs
  refine ⟨hcalm.1, hcalm.2, ?_, ?_⟩
  · intro msg now hi
    cases hi
    cases h with
    | message h =>
      cases h with
      | ignored hc => exact ⟨rfl, rfl⟩
      | handled hnone h =>
        rw [hc] at hnone
        cases hnone
  · intro now hi
    cases hi
    cases h with
    | timeout h =>
      cases h with
      | expired hc' h => exact ⟨rfl, fun _ => rfl⟩
      | waiting hc' h =>
        rw [hc] at hc'
        cases hc'
        exact ⟨rfl, fun hle => absurd hle (Nat.not_le.mpr h)⟩
      | ticked hnone hb hk =>
        rw [hc] at hnone
        cases hnone

theorem run_quiet {s deadline} (inputs : List Input) (hc : s.closing = some deadline) :
    ∀ t ∈ trace Input.call s inputs, Quiet deadline t := by
  intro t ht
  obtain ⟨pre, post, -, hb, ho⟩ := mem_trace Input.call ht
  have hbefore : (final Input.call s pre).closing = some deadline := by
    refine final_invariant (P := fun s => s.closing = some deadline) Input.call pre hc ?_
    intro s i h
    exact ((step_spec i s).quiet h).closing
  obtain ⟨before, input, outcome⟩ := t
  dsimp only at hb ho
  subst hb ho
  exact (step_spec input _).quiet hbefore

/-- **Closing is final and quiet.** A call that asks for a Logout asks for one, and the
session is closing from then on; every later call leaves it so, a later message is
reported and otherwise ignored, and a later timeout asks for nothing and ends the session
from the deadline on. Only a Logout that goes out, that deadline and the peer's going away
end a session. -/
theorem closing_final (s : SessionState) (inputs : List Input) :
    let turns := trace Input.call s inputs
    (∀ pre t post, turns = pre ++ t :: post →
      (logouts t.outcome.out ≠ [] → ∃ msg deadline, logouts t.outcome.out = [msg] ∧
        t.before.closing = none ∧ t.outcome.state.closing = some deadline) ∧
      ∀ deadline, t.outcome.state.closing = some deadline → ∀ u ∈ post, Quiet deadline u) ∧
    ∀ t ∈ turns, t.outcome.result = .ok .close → Ends t.before t.outcome.out t.input := by
  intro turns
  refine ⟨?_, ?_⟩
  · intro pre t post hsplit
    obtain ⟨xs, ys, hin, hpre, hb, ho⟩ := trace_eq_append Input.call hsplit
    have hstep := step_spec t.input t.before
    rw [← ho] at hstep
    refine ⟨?_, ?_⟩
    · intro hne
      cases hstep.asksOnce with
      | calm hc hnil => exact absurd hnil hne
      | closes hs hc hone => exact ⟨_, _, hone, hs, hc⟩
    · intro deadline hc
      have hpost : post = trace Input.call t.outcome.state ys := by
        have hall : turns = trace Input.call s (xs ++ t.input :: ys) := by rw [← hin]
        rw [hsplit, trace_append, hpre, List.append_cancel_left_eq] at hall
        rw [(List.cons.inj hall).2, ho, hb]
      rw [hpost]
      exact run_quiet ys hc
  · intro t ht hr
    obtain ⟨pre, post, -, -, ho⟩ := mem_trace Input.call ht
    have hstep := step_spec t.input t.before
    rw [← ho] at hstep
    exact hstep.ends hr

end Babelfix.Session
