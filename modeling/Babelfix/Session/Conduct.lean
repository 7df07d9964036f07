import Babelfix.Session.Order
import Babelfix.Session.Endpoint

/-! # What the application sees of a session

The admin messages a session asks for and the logon it announces, and how they go
with its state: `Conduct` holds of every call except the two that bring a Logon
in, `Command::Send` and the request for our own. -/
namespace Babelfix.Session
open Lib

/-! ## Requests -/

def requested : Effect → Option Message
  | .event (.adminSendRequired msg) => some msg
  | _ => none

/-- The admin messages the application is asked to send. -/
def requests (o : List Effect) : List Message := o.filterMap requested

@[simp] theorem requests_nil : requests [] = [] := rfl

@[simp] theorem requests_append (o o' : List Effect) :
    requests (o ++ o') = requests o ++ requests o' := List.filterMap_append

@[simp] theorem requests_request (msg : Message) (o : List Effect) :
    requests (.event (.adminSendRequired msg) :: o) = msg :: requests o := rfl

@[simp] theorem requests_reportOut (b : Bool) (s : SessionState) : requests (reportOut b s) = [] := by
  cases b <;> rfl

@[simp] theorem requests_loggedOnOut (b : Bool) : requests (loggedOnOut b) = [] := by
  cases b <;> rfl

section
variable (s : SessionState)
include s

@[simp] theorem requests_syncOut : requests (syncOut s) = [s.testRequest (syncId s)] := rfl

@[simp] theorem requests_transmitOut (origin : Origin) (msg : Message) :
    requests (transmitOut origin s msg) = [] := rfl

@[simp] theorem requests_dispatchOut (msg : Message) : requests (dispatchOut s msg) = [] := by
  simp [dispatchOut]

@[simp] theorem requests_fillOut (gap : Option (Nat × Nat)) : requests (fillOut s gap) = [] := by
  cases gap <;> rfl

theorem requests_gapOut : ∀ msg ∈ requests (gapOut s), msg.msgType = "2" := by
  intro msg hmsg
  unfold gapOut at hmsg
  split at hmsg
  · rw [List.mem_singleton.mp hmsg]
    rfl
  · cases hmsg

end

def Announced (o : List Effect) : Prop := .event .loggedOn ∈ o

@[simp] theorem announced_append (o o' : List Effect) :
    Announced (o ++ o') ↔ Announced o ∨ Announced o' := List.mem_append

@[simp] theorem announced_loggedOnOut (b : Bool) : Announced (loggedOnOut b) ↔ b = true := by
  cases b <;> simp [Announced, loggedOnOut]

section
variable (s : SessionState)
include s

@[simp] theorem announced_gapOut : ¬ Announced (gapOut s) := by
  unfold gapOut
  split <;> simp [Announced]

@[simp] theorem announced_reportOut (b : Bool) : ¬ Announced (reportOut b s) := by
  cases b <;> simp [Announced, reportOut]

@[simp] theorem announced_syncOut : ¬ Announced (syncOut s) := by
  simp [Announced, syncOut]

@[simp] theorem announced_fillOut (gap : Option (Nat × Nat)) : ¬ Announced (fillOut s gap) := by
  cases gap <;> simp [Announced, fillOut, transmitOut]

@[simp] theorem announced_dispatchOut (msg : Message) :
    Announced (dispatchOut s msg) ↔ msg.msgType = "A" ∧ s.peerLogonReceived = true := by
  simp [dispatchOut, Announced, transmitOut, loggedOnOut]

end

/-! ## Conduct -/

def isLogon (msg : Message) : Bool := msg.msgType = "A"

/-- The Logons of ours that the session has sent or holds back. -/
def logons (s : SessionState) : Nat := (queued s).countP isLogon + s.logonSent.toNat

structure Conduct (s : SessionState) (r : OpOutcome Progress) : Prop where
  sessionId : r.state.sessionId = s.sessionId
  config : r.state.config = s.config
  peer : s.peerLogonReceived = true → r.state.peerLogonReceived = true
  sent : s.logonSent = true → r.state.logonSent = true
  logons : logons r.state ≤ logons s
  admin : ∀ msg ∈ requests r.out, msg.msgType ≠ "A"
  announced : Announced r.out → r.state.isLoggedOn = true
  /-- A session stays closing, and asks for its Logout when it starts to. -/
  closing : s.closing.isSome → r.state.closing.isSome
  logout : s.closing = none → r.state.closing.isSome → ∃ msg ∈ requests r.out, msg.msgType = "5"
  /-- A Logout held back stays so, unless sending it ends the session. -/
  held : r.result = .ok .continue → ∀ msg ∈ queued s, msg.msgType = "5" → msg ∈ queued r.state
  /-- A session that logs on without closing says so, and asks for a TestRequest. -/
  awake : s.isLoggedOn = false → r.state.isLoggedOn = true → r.state.closing = none →
    r.result = .ok .continue → Announced r.out ∧ requests r.out ≠ []

variable {s : SessionState} {r : OpOutcome Progress}

/-- Only some fields of the state before a call matter. -/
theorem Conduct.transfer {t} (h : Conduct s r) (h₁ : t.sessionId = s.sessionId)
    (h₂ : t.config = s.config) (h₃ : t.peerLogonReceived = s.peerLogonReceived)
    (h₄ : t.logonSent = s.logonSent) (h₅ : t.replay = s.replay) (h₆ : t.closing = s.closing) :
    Conduct t r := by
  have hq : queued t = queued s := by rw [queued, queued, h₅]
  have hl : Session.logons t = Session.logons s := by rw [Session.logons, Session.logons, hq, h₄]
  have hon : t.isLoggedOn = s.isLoggedOn := by
    rw [SessionState.isLoggedOn, SessionState.isLoggedOn, h₃, h₄]
  refine ⟨by rw [h₁]; exact h.sessionId, by rw [h₂]; exact h.config, by rw [h₃]; exact h.peer,
    by rw [h₄]; exact h.sent, by rw [hl]; exact h.logons, h.admin, h.announced,
    by rw [h₆]; exact h.closing, by rw [h₆]; exact h.logout, by rw [hq]; exact h.held,
    by rw [hon]; exact h.awake⟩

variable {o : List Effect}

/-- Writing more first, without announcing a logon or asking for our Logon. -/
theorem Conduct.prepend (h : Conduct s r) (ha : ∀ msg ∈ requests o, msg.msgType ≠ "A") (hl : ¬ Announced o) :
    Conduct s (r.prepend o) := by
  refine ⟨h.sessionId, h.config, h.peer, h.sent, h.logons, ?_, ?_, h.closing, ?_, h.held, ?_⟩
  · intro msg hmsg
    rw [Outcome.prepend_out, requests_append] at hmsg
    rcases List.mem_append.mp hmsg with hmsg | hmsg
    · exact ha msg hmsg
    · exact h.admin msg hmsg
  · intro hann
    rw [Outcome.prepend_out, announced_append] at hann
    exact h.announced (hann.resolve_left hl)
  · intro hnone hsome
    obtain ⟨msg, hmsg, h5⟩ := h.logout hnone hsome
    refine ⟨msg, ?_, h5⟩
    rw [Outcome.prepend_out, requests_append]
    exact List.mem_append_right _ hmsg
  · intro hoff hon hc hr
    obtain ⟨hann, hreq⟩ := h.awake hoff hon hc hr
    rw [Outcome.prepend_out, announced_append, requests_append]
    exact ⟨.inr hann, by simp [hreq]⟩

variable {s' : SessionState}

/-- A call that leaves the logon exchange and what is queued alone, and does not
start closing. -/
theorem Conduct.calm {result} (h₁ : s'.sessionId = s.sessionId) (h₂ : s'.config = s.config)
    (h₃ : s'.peerLogonReceived = s.peerLogonReceived) (h₄ : s'.logonSent = s.logonSent)
    (h₅ : queued s' = queued s) (h₆ : s'.closing = s.closing)
    (ha : ∀ msg ∈ requests o, msg.msgType ≠ "A") (hl : ¬ Announced o) :
    Conduct s ⟨s', o, result⟩ := by
  have hon : s'.isLoggedOn = s.isLoggedOn := by
    rw [SessionState.isLoggedOn, SessionState.isLoggedOn, h₃, h₄]
  refine ⟨h₁, h₂, by rw [h₃]; exact id, by rw [h₄]; exact id, ?_, ha, fun h => absurd h hl,
    by rw [h₆]; exact id, ?_, ?_, ?_⟩
  · rw [Session.logons, Session.logons, h₅, h₄]
  · intro hnone hsome
    rw [h₆, hnone] at hsome
    cases hsome
  · intro _ msg hmsg _
    rw [h₅]
    exact hmsg
  · intro hoff hon'
    rw [hon, hoff] at hon'
    cases hon'

/-- A call that asks for a Logout and starts closing. -/
theorem Conduct.closes {result} (h₁ : s'.sessionId = s.sessionId) (h₂ : s'.config = s.config)
    (h₃ : s'.peerLogonReceived = s.peerLogonReceived) (h₄ : s'.logonSent = s.logonSent)
    (h₅ : queued s' = queued s) (h₆ : s'.closing.isSome)
    (hlogout : ∃ msg ∈ requests o, msg.msgType = "5") (ha : ∀ msg ∈ requests o, msg.msgType ≠ "A")
    (hl : ¬ Announced o) : Conduct s ⟨s', o, result⟩ := by
  refine ⟨h₁, h₂, by rw [h₃]; exact id, by rw [h₄]; exact id, ?_, ha, fun h => absurd h hl,
    fun _ => h₆, fun _ _ => hlogout, ?_, ?_⟩
  · rw [Session.logons, Session.logons, h₅, h₄]
  · intro _ msg hmsg _
    rw [h₅]
    exact hmsg
  · intro _ _ hc
    rw [show s'.closing = none from hc] at h₆
    cases h₆

theorem Conduct.thenCloses (h : Conduct s r) (hok : r.result = .ok .continue) (now : Instant) (text : Bytes) :
    Conduct s ⟨closed r.state now, r.out ++ [.event (.adminSendRequired (r.state.logout text))],
      .ok .continue⟩ := by
  have hout : requests (r.out ++ [.event (.adminSendRequired (r.state.logout text))]) =
      requests r.out ++ [r.state.logout text] := requests_append _ _
  refine ⟨h.sessionId, h.config, h.peer, h.sent, h.logons, ?_, ?_, fun _ => rfl, ?_,
    fun _ => h.held hok, ?_⟩
  · intro m hm
    rw [hout, List.mem_append, List.mem_singleton] at hm
    rcases hm with hm | rfl
    · exact h.admin m hm
    · exact (by decide : ("5" : String) ≠ "A")
  · intro hann
    rcases (announced_append _ _).mp hann with hann | hann
    · exact h.announced hann
    · simp [Announced] at hann
  · intro _ _
    exact ⟨_, by rw [hout]; exact List.mem_append_right _ (List.mem_singleton.mpr rfl), rfl⟩
  · intro _ _ hc
    cases hc

/-! ## Inbound messages -/

variable {msg : Message} {now : Instant}

theorem Dispatched.conduct {inSequence} (h : Dispatched msg inSequence now s r) :
    Conduct s r ∧ r.state.peerLogonReceived = s.peerLogonReceived := by
  refine ⟨?_, by cases h <;> rfl⟩
  cases h with
  | quiet h | logoutAgain h hs => exact .calm rfl rfl rfl rfl rfl rfl (by simp) (by simp)
  | recovered h hid hs =>
    refine .calm rfl rfl rfl rfl rfl rfl ?_ ?_
    · cases inSequence <;> simp [requests, requested, reportOut]
    · cases inSequence <;> simp [Announced, reportOut]
  | answered h hid =>
    refine .calm rfl rfl rfl rfl rfl rfl ?_ ?_
    · intro m hm
      rw [requests_request, requests_reportOut, List.mem_singleton] at hm
      subst hm
      exact (by decide : ("0" : String) ≠ "A")
    · cases inSequence <;> simp [Announced, reportOut]
  | @resending first last replay h hb he hs ho hr =>
    obtain ⟨-, -, rfl⟩ := Replay.start_eq_ok hr
    refine .calm rfl rfl rfl rfl ?_ rfl ?_ ?_
    · simp [queued, Session.resending, hs]
    · cases inSequence <;> simp [requests, requested, reportOut]
    · cases inSequence <;> simp [Announced, reportOut]
  | logout h hs =>
    refine .closes rfl rfl rfl rfl rfl rfl ?_ ?_ ?_
    · exact ⟨_, by rw [requests_request]; exact List.mem_cons_self, rfl⟩
    · intro m hm
      rw [requests_request, requests_reportOut, List.mem_singleton] at hm
      subst hm
      exact (by decide : ("5" : String) ≠ "A")
    · cases inSequence <;> simp [Announced, reportOut]
  | shown h hn =>
    exact .calm rfl rfl rfl rfl rfl rfl (by simp [requests, requested]) (by simp [Announced])
  | _ => exact .calm rfl rfl rfl rfl rfl rfl (by simp) (by simp [Announced])

theorem gapState_calm (s : SessionState) (n : Nat) :
    (gapState s n).peerLogonReceived = s.peerLogonReceived ∧
      (gapState s n).closing = s.closing := by
  unfold gapState
  split <;> exact ⟨rfl, rfl⟩

theorem gapState_conduct {t n} (h : Conduct t r) (ht : t = gapState s n) : Conduct s r := by
  subst ht
  obtain ⟨h₁, h₂, -, h₄, -⟩ := gapState_sameOutbound s n
  obtain ⟨h₃, h₆⟩ := gapState_calm s n
  exact h.transfer h₁.symm h₂.symm h₃.symm h₄.symm (gapState_replay s n).symm h₆.symm

theorem gapOut_admin (s : SessionState) : ∀ msg ∈ requests (gapOut s), msg.msgType ≠ "A" := by
  intro msg hmsg
  rw [requests_gapOut s msg hmsg]
  decide

theorem Handled.conduct (h : Handled msg now s r) :
    Conduct s r ∧ r.state.peerLogonReceived = s.peerLogonReceived := by
  have hadv : ∀ {next} {r : OpOutcome Progress},
      Dispatched msg true now (advancedTo s next) r →
      Conduct s r ∧ r.state.peerLogonReceived = s.peerLogonReceived := by
    intro next r hd
    obtain ⟨hconduct, hpeer⟩ := hd.conduct
    exact ⟨hconduct.transfer rfl rfl rfl rfl rfl rfl, hpeer⟩
  cases h with
  | unread h | garbage h hf =>
    exact ⟨.calm rfl rfl rfl rfl rfl rfl (by simp) (by simp [Announced]), rfl⟩
  | low hn h hc =>
    refine ⟨.closes rfl rfl rfl rfl rfl rfl ⟨_, List.mem_cons_self, rfl⟩ ?_ (by simp [Announced]),
      rfl⟩
    intro m hm
    rw [requests_request, requests_nil, List.mem_singleton] at hm
    subst hm
    exact (by decide : ("5" : String) ≠ "A")
  | @gap n hn h h2 h5 =>
    obtain ⟨h₁, h₂, -, h₄, -⟩ := gapState_sameOutbound s n
    obtain ⟨h₃, h₆⟩ := gapState_calm s n
    exact ⟨.calm h₁ h₂ h₃ h₄ (by rw [queued, gapState_replay]; rfl) h₆ (gapOut_admin s) (by simp), h₃⟩
  | @gapLogout n hn h h5 =>
    obtain ⟨h₁, h₂, -, h₄, -⟩ := gapState_sameOutbound s n
    obtain ⟨h₃, h₆⟩ := gapState_calm s n
    refine ⟨.calm h₁ h₂ h₃ h₄ ?_ h₆ (gapOut_admin s) (by simp), h₃⟩
    show (gapState s n).replay.elim [] Replay.queue = _
    rw [gapState_replay]
    rfl
  | @gapResend n r hn h h2 hd =>
    obtain ⟨hconduct, hpeer⟩ := hd.conduct
    have hstate := gapState_conduct hconduct rfl
    exact ⟨hstate.prepend (gapOut_admin s) (by simp), hpeer.trans (gapState_calm s n).1⟩
  | failed hn hnext hd hf | accepted hn hnext hd hok hdue => exact hadv hd
  | @acceptedLogout next r hn hnext hd hok hdue =>
    obtain ⟨hconduct, hpeer⟩ := hadv hd
    exact ⟨hconduct.thenCloses hok now _, hpeer⟩
  | _ =>
    exact ⟨.calm rfl rfl rfl rfl rfl rfl (by simp) (by simp [Announced]), rfl⟩

theorem Received.conduct (h : Received msg now s r) : Conduct s r := by
  cases h with
  | ignored hc =>
    exact .calm rfl rfl rfl rfl rfl rfl (by simp [requests, requested]) (by simp [Announced])
  | handled hc h =>
    have hconduct := h.conduct.1.transfer (t := s) rfl rfl rfl rfl rfl rfl
    exact hconduct.prepend (by simp [requests, requested]) (by simp [Announced])

/-- The peer's Logon: the session may now be logged on. -/
theorem Started.conduct {logon} (h : Started logon now s r) : Conduct s r := by
  cases h with
  | failed h hf => exact h.conduct.1
  | refused h hok hc =>
    obtain ⟨hconduct, -⟩ := h.conduct
    refine ⟨hconduct.sessionId, hconduct.config, fun _ => rfl, hconduct.sent, hconduct.logons,
      hconduct.admin, ?_, hconduct.closing, hconduct.logout, fun _ => hconduct.held hok, ?_⟩
    · intro hann
      have hsent := hconduct.announced hann
      rw [SessionState.isLoggedOn, Bool.and_eq_true] at hsent
      simp [SessionState.isLoggedOn, peerLoggedOn, hsent.1]
    · intro _ _ hnone
      rw [show (peerLoggedOn _).closing = _ from hc] at hnone
      cases hnone
  | @established r h hok hc =>
    obtain ⟨hconduct, -⟩ := h.conduct
    refine ⟨hconduct.sessionId, hconduct.config, fun _ => rfl, hconduct.sent, hconduct.logons,
      ?_, ?_, hconduct.closing, ?_, fun _ => hconduct.held hok, ?_⟩
    · intro m hm
      rw [requests_append, requests_append, requests_loggedOnOut, List.nil_append, requests_syncOut,
        List.mem_append, List.mem_singleton] at hm
      rcases hm with hm | rfl
      · exact hconduct.admin m hm
      · exact (by decide : ("1" : String) ≠ "A")
    · intro hann
      rw [announced_append, announced_append, announced_loggedOnOut] at hann
      rcases hann with hann | hann | hann
      · have hsent := hconduct.announced hann
        rw [SessionState.isLoggedOn, Bool.and_eq_true] at hsent
        simp [SessionState.isLoggedOn, synced, peerLoggedOn, hsent.1]
      · simp [SessionState.isLoggedOn, synced, peerLoggedOn, hann]
      · exact absurd hann (announced_syncOut _)
    · intro _ hsome
      rw [show (synced (peerLoggedOn r.state)).closing = none from hc] at hsome
      cases hsome
    · intro _ hon _ _
      rw [SessionState.isLoggedOn, Bool.and_eq_true] at hon
      refine ⟨?_, by simp⟩
      rw [announced_append, announced_append, announced_loggedOnOut]
      exact .inr (.inl hon.1)

/-! ## Commands and timeouts -/

theorem Replayed.requests_eq {r} (h : Replayed msg s r) : requests r.out = [] := by
  cases h with
  | resent hn hs ho hh hg => simp
  | _ => rfl

theorem Replayed.conduct {r} (h : Replayed msg (outReset s now) r) (result : Except Fault Progress) :
    Conduct s ⟨r.state, r.out, result⟩ := by
  have hqueued : queued r.state = queued s := h.queued_eq
  have hquiet : ¬ Announced r.out := by
    cases h with
    | resent hn hs ho hh hg =>
      rw [announced_append, not_or]
      exact ⟨announced_fillOut _ _, by simp [Announced, transmitOut]⟩
    | _ => simp [Announced]
  refine .calm ?_ ?_ ?_ ?_ hqueued ?_ (by simp [h.requests_eq]) hquiet <;> rw [h.frame] <;> rfl

/-- Sending what was held back. -/
structure DrainedConduct (queue : List Message) (s : SessionState)
    (r : OpOutcome Progress) : Prop where
  requests : requests r.out = []
  sent : s.logonSent = true → r.state.logonSent = true
  logons : r.state.logonSent.toNat ≤ queue.countP isLogon + s.logonSent.toNat
  announced : Announced r.out → r.state.logonSent = true ∧ s.peerLogonReceived = true
  held : r.result = .ok .continue → ∀ msg ∈ queue, msg.msgType ≠ "5"
  awake : s.logonSent = false → r.state.logonSent = true → s.peerLogonReceived = true →
    Announced r.out

theorem Drained.conduct {queue} (h : Drained queue s r) : DrainedConduct queue s r := by
  induction h with
  | @close msg queue s n hn h5 =>
    have hA : msg.msgType ≠ "A" := by rw [h5]; decide
    refine ⟨by simp, ?_, ?_, ?_, by simp, ?_⟩
    · intro hs
      simp [noted, transmitted, hs]
    · simp [noted, transmitted, hA]
    · intro hann
      exact absurd ((announced_dispatchOut s msg).mp hann).1 hA
    · intro hoff hon
      simp [noted, transmitted, hA, hoff] at hon
  | @next msg queue s n r hn h5 h ih =>
    have hsent : (noted msg (transmitted s n)).logonSent = (s.logonSent || msg.msgType = "A") := rfl
    refine ⟨?_, ?_, ?_, ?_, ?_, ?_⟩
    · simp [ih.requests]
    · intro hs
      exact ih.sent (by rw [hsent, hs]; rfl)
    · have hle := ih.logons
      rw [hsent] at hle
      cases hlogon : s.logonSent <;> by_cases hA : msg.msgType = "A" <;>
        simp [isLogon, hlogon, hA] at hle ⊢ <;> omega
    · intro hann
      rw [Outcome.prepend_out, announced_append] at hann
      rcases hann with hann | hann
      · obtain ⟨hA, hpeer⟩ := (announced_dispatchOut s msg).mp hann
        exact ⟨ih.sent (by rw [hsent]; simp [hA]), hpeer⟩
      · exact ih.announced hann
    · intro hr m hm
      rcases List.mem_cons.mp hm with rfl | hm
      · exact h5
      · exact ih.held hr m hm
    · intro hoff hon hpeer
      rw [Outcome.prepend_out, announced_append]
      by_cases hA : msg.msgType = "A"
      · exact .inl ((announced_dispatchOut s msg).mpr ⟨hA, hpeer⟩)
      · exact .inr (ih.awake (by rw [hsent]; simp [hoff, hA]) hon hpeer)
  | _ => exact ⟨rfl, id, by simp, by simp [Announced], by simp, by grind⟩

theorem Conduct.dropped (s : SessionState) (replay : Replay) (f : Fault) :
    Conduct s ⟨{ s with replay := some { replay with queue := [] } }, [], .error f⟩ := by
  refine ⟨rfl, rfl, id, id, ?_, by simp, by simp [Announced], id, ?_, ?_, ?_⟩
  · simp [Session.logons, queued]
  · intro hnone hsome
    rw [show SessionState.closing _ = none from hnone] at hsome
    cases hsome
  · intro hr
    cases hr
  · intro _ _ _ hr
    cases hr

theorem Completed.conduct (h : Completed s r) : Conduct s r := by
  cases h with
  | noReplay hs => exact .calm rfl rfl rfl rfl rfl rfl (by simp) (by simp [Announced])
  | @drained replay gap r r' hs ht hg hd hr =>
    have hdrain := hd.conduct
    have hsent : (replayEnded s gap).logonSent = s.logonSent := by cases gap <;> rfl
    have hpeer : (replayEnded s gap).peerLogonReceived = s.peerLogonReceived := by
      cases gap <;> rfl
    have hclosing : (replayEnded s gap).closing = s.closing := by cases gap <;> rfl
    have hqueued : queued s = replay.queue := by simp [queued, hs]
    have hstate : r'.state.sessionId = s.sessionId ∧ r'.state.config = s.config ∧
        r'.state.peerLogonReceived = s.peerLogonReceived ∧
        r'.state.logonSent = r.state.logonSent ∧ queued r'.state = [] ∧
        r'.state.closing = s.closing := by
      rw [hr.frame.1, hd.frame]
      cases gap <;> exact ⟨rfl, rfl, rfl, rfl, rfl, rfl⟩
    obtain ⟨h₁, h₂, h₃, h₄, h₅, h₆⟩ := hstate
    -- resynchronising only adds its TestRequest
    have hout : (∀ msg ∈ requests r'.out, msg.msgType ≠ "A") ∧
        (Announced r'.out ↔ Announced r.out) ∧
        (r'.result = .ok .continue → r.result = .ok .continue ∧
          (s.closing = none → requests r'.out ≠ [])) := by
      have hrc : r.state.closing = s.closing := by
        rw [hd.frame]
        exact hclosing
      cases hr with
      | failed hf => exact ⟨by simp [hdrain.requests], Iff.rfl, by simp [hf]⟩
      | close hok => exact ⟨by simp [hdrain.requests], Iff.rfl, by simp [hok]⟩
      | closing hok hc =>
        refine ⟨by simp [hdrain.requests], Iff.rfl, fun _ => ⟨hok, ?_⟩⟩
        intro hnone
        rw [hrc, hnone] at hc
        cases hc
      | resynchronised hok hc =>
        refine ⟨?_, ?_, fun _ => ⟨hok, fun _ => by simp⟩⟩
        · intro m hm
          rw [requests_append, hdrain.requests, List.nil_append, requests_syncOut,
            List.mem_singleton] at hm
          subst hm
          exact (by decide : ("1" : String) ≠ "A")
        · rw [announced_append]
          exact or_iff_left (announced_syncOut _)
    obtain ⟨hadmin, hann, hcont⟩ := hout
    have hbase : Conduct s r' := by
      refine ⟨h₁, h₂, by rw [h₃]; exact id, ?_, ?_, hadmin, ?_, by rw [h₆]; exact id, ?_, ?_, ?_⟩
      · intro hs'
        rw [h₄]
        exact hdrain.sent (by rw [hsent, hs'])
      · rw [logons, logons, h₅, h₄, hqueued, List.countP_nil, Nat.zero_add, ← hsent]
        exact hdrain.logons
      · intro ha
        obtain ⟨hon, hp⟩ := hdrain.announced (hann.mp ha)
        rw [SessionState.isLoggedOn, h₄, h₃, hon, ← hpeer, hp]
        rfl
      · intro hnone hsome
        rw [h₆, hnone] at hsome
        cases hsome
      · intro hok msg hmsg h5
        rw [hqueued] at hmsg
        exact absurd h5 (hdrain.held (hcont hok).1 msg hmsg)
      · intro hoff hon hc hok
        rw [SessionState.isLoggedOn, h₄, h₃, Bool.and_eq_true] at hon
        rw [SessionState.isLoggedOn, hon.2, Bool.and_true] at hoff
        refine ⟨hann.mpr (hdrain.awake (by rw [hsent, hoff]) hon.1 (by rw [hpeer]; exact hon.2)), ?_⟩
        exact (hcont hok).2 (by rw [← h₆]; exact hc)
    exact hbase.prepend (by simp) (announced_fillOut _ _)
  | _ => exact .dropped s _ _

theorem TimedOut.conduct (h : TimedOut now s r) : Conduct s r := by
  have h0 : ("0" : String) ≠ "A" := by decide
  have h1 : ("1" : String) ≠ "A" := by decide
  have h5 : ("5" : String) ≠ "A" := by decide
  cases h with
  | @ticked s₁ s₂ o₁ o₂ hc hb hk =>
    have hbeat : Conduct s₁ ⟨s₂, o₂, .ok .continue⟩ := by
      cases hk with
      | idle h => exact .calm rfl rfl rfl rfl rfl rfl (by simp) (by simp [Announced])
      | first h hm => exact .calm rfl rfl rfl rfl rfl rfl (by simp) (by simp [Announced])
      | second h hm =>
        refine .calm rfl rfl rfl rfl rfl rfl ?_ (by simp [Announced])
        intro m hm
        rw [List.mem_singleton.mp hm]
        exact h1
      | third h hm hc =>
        refine .closes rfl rfl rfl rfl rfl rfl ⟨_, List.mem_cons_self, rfl⟩ ?_ (by simp [Announced])
        intro m hm
        rw [List.mem_singleton.mp hm]
        exact h5
    cases hb with
    | idle h => exact hbeat
    | awaited h hb => exact hbeat.transfer rfl rfl rfl rfl rfl rfl
    | requested h hb =>
      have hrest := hbeat.transfer (t := s) rfl rfl rfl rfl rfl rfl
      refine hrest.prepend ?_ (by simp [Announced])
      intro m hm
      rw [List.mem_singleton.mp hm]
      exact h0
  | _ => exact .calm rfl rfl rfl rfl rfl rfl (by simp) (by simp [Announced])

/-- **Every call but `Command::Send` and the request for our Logon.** -/
theorem step_conduct {i} (h : Step i s r) (hsend : ∀ msg now, i ≠ .command (.send msg) now)
    (hlogon : i ≠ .requestLogon) : Conduct s r := by
  cases h with
  | requestLogon => exact absurd rfl hlogon
  | start h | message h | timeout h => exact h.conduct
  | send h => exact absurd rfl (hsend _ _)
  | replayed h hok | replayFailed h hf => exact h.conduct _
  | replayComplete h => exact h.conduct.transfer rfl rfl rfl rfl rfl rfl
  | disconnect hc =>
    refine .closes rfl rfl rfl rfl rfl rfl ⟨_, List.mem_cons_self, rfl⟩ ?_ (by simp [Announced])
    intro m hm
    rw [List.mem_singleton.mp hm]
    exact (by decide : ("5" : String) ≠ "A")
  | disconnectAgain hc => exact .calm rfl rfl rfl rfl rfl rfl (by simp) (by simp [Announced])
  | peerClosed =>
    exact .calm rfl rfl rfl rfl rfl rfl (by simp [requests, requested]) (by simp [Announced])

theorem Conduct.isLoggedOn (h : Conduct s r) (hon : s.isLoggedOn = true) : r.state.isLoggedOn = true := by
  rw [SessionState.isLoggedOn, Bool.and_eq_true] at hon ⊢
  exact ⟨h.sent hon.1, h.peer hon.2⟩

/-! ## What is accepted -/

/-- The highest number accepted goes up only as far as a replay that has started. -/
def AcceptedUpTo (s s' : SessionState) : Prop :=
  s'.highestAccepted = s.highestAccepted ∨ ∃ replay, s.replay = none ∧
    s'.replay = some replay ∧ s'.highestAccepted = max s.highestAccepted replay.endSeqNo

theorem ReplayChange.acceptedUpTo (h : ReplayChange msg s s' o) : AcceptedUpTo s s' := by
  cases h with
  | same hr ha ho => exact .inl ha
  | started h2 hb he hs hstart hr ha ho => exact .inr ⟨_, hs, hr, ha⟩

theorem step_acceptedUpTo {i} (h : Step i s r) (hsend : ∀ msg now, i ≠ .command (.send msg) now) :
    AcceptedUpTo s r.state := by
  cases h.sending with
  | inbound _ h => exact h.2.1.acceptedUpTo
  | send hi h => exact absurd hi (hsend _ _)
  | replay _ h hs _ => exact .inl (by rw [hs, h.frame]; rfl)
  | complete _ h =>
    obtain ⟨_, _, _, _, hf⟩ := h.finishes
    exact .inl hf.accepted
  | quiet _ h _ _ => exact .inl h.highestAccepted

theorem Sent.logons (h : Sent msg now s r) :
    Session.logons r.state ≤ Session.logons s + if msg.msgType = "A" then 1 else 0 := by
  cases h with
  | rejected hno => exact Nat.le_add_right _ _
  | @deferred n replay hn ha hr =>
    have hbefore : queued s = replay.queue := by simp [queued, hr]
    show (replay.queue ++ [msg]).countP isLogon + s.logonSent.toNat ≤ _
    rw [Session.logons, hbefore, List.countP_append, List.countP_singleton, isLogon]
    by_cases hA : msg.msgType = "A"
    · simp only [hA, decide_true, if_true]
      omega
    · simp only [hA, decide_false, Bool.false_eq_true, if_false]
      omega
  | @dispatched n hn ha hr =>
    have hsame : queued (noted msg (transmitted (taken msg n now s) n)) = queued s := rfl
    have hsent : (noted msg (transmitted (taken msg n now s) n)).logonSent =
        (s.logonSent || decide (msg.msgType = "A")) := rfl
    rw [Session.logons, Session.logons, hsame, hsent]
    by_cases hA : msg.msgType = "A"
    · have hle := Bool.toNat_le (s.logonSent || true)
      simp only [hA, decide_true, if_true]
      omega
    · simp [hA]

/-- What taking a message writes: it asks for nothing, and announces a logon only if
there is one. -/
theorem Sent.said (h : Sent msg now s r) :
    requests r.out = [] ∧ (Announced r.out → r.state.isLoggedOn = true) ∧
      (s.isLoggedOn = true → r.state.isLoggedOn = true) ∧ r.state.sessionId = s.sessionId ∧
      r.state.config = s.config := by
  cases h with
  | dispatched hn ha hr =>
    refine ⟨by simp, ?_, ?_, rfl, rfl⟩
    · intro hann
      obtain ⟨hA, hpeer⟩ := (announced_dispatchOut s msg).mp hann
      simp [SessionState.isLoggedOn, noted, transmitted, taken, hA, hpeer]
    · intro hon
      rw [SessionState.isLoggedOn, Bool.and_eq_true] at hon
      simp [SessionState.isLoggedOn, noted, transmitted, taken, hon.1, hon.2]
  | _ => exact ⟨rfl, by simp [Announced], id, rfl, rfl⟩

/-! ## Calls that go well -/

/-- What a call on the endpoint that goes well means for what is waiting. -/
structure Woken (s s' : SessionState) (o : List Effect) : Prop where
  awake : s'.isLoggedOn = true → s.isLoggedOn = true ∨
    (s'.closing = none → Announced o ∧ requests o ≠ [])
  announced : Announced o → s'.isLoggedOn = true
  logout : s'.closing.isSome → (∃ msg ∈ requests o, msg.msgType = "5") ∨
    (s.closing.isSome ∧ ∀ msg ∈ queued s, msg.msgType = "5" → msg ∈ queued s')

theorem Woken.prepend {o'} (h : Woken s s' o) (ho' : ¬ Announced o') : Woken s s' (o' ++ o) := by
  refine ⟨?_, ?_, ?_⟩
  · intro hon
    refine (h.awake hon).imp_right ?_
    intro hawake hc
    obtain ⟨hann, hreq⟩ := hawake hc
    exact ⟨(announced_append _ _).mpr (.inr hann), by simp [hreq]⟩
  · intro hann
    exact h.announced (((announced_append _ _).mp hann).resolve_left ho')
  · intro hc
    refine (h.logout hc).imp_left ?_
    intro hreq
    obtain ⟨msg, hmsg, h5⟩ := hreq
    exact ⟨msg, by rw [requests_append]; exact List.mem_append_right _ hmsg, h5⟩

/-- A session that has just been opened was neither logged on nor closing. -/
theorem Woken.of_opened {e : Endpoint} (h : Woken (e.opened now) s' o) : Woken e.session s' o := by
  refine ⟨?_, h.announced, ?_⟩
  · intro hon
    rcases h.awake hon with hoff | hawake
    · cases hoff
    · exact .inr hawake
  · intro hc
    rcases h.logout hc with hreq | ⟨hnone, -⟩
    · exact .inl hreq
    · cases hnone

theorem Conduct.woken (h : Conduct s r) (hok : r.result = .ok .continue) : Woken s r.state r.out := by
  refine ⟨?_, h.announced, ?_⟩
  · intro hon
    cases hoff : s.isLoggedOn with
    | true => exact .inl rfl
    | false => exact .inr fun hc => h.awake hoff hon hc hok
  · intro hc
    cases hs : s.closing with
    | none => exact .inl (h.logout hs hc)
    | some c => exact .inr ⟨rfl, h.held hok⟩

theorem conduct_opened (e : Endpoint) (now : Instant) :
    Conduct (e.opened now) ⟨e.opened now, [], .ok .continue⟩ :=
  .calm rfl rfl rfl rfl rfl rfl (by simp) (by simp [Announced])

theorem Acted.woken {i e r} (h : Acted i e r) (hsend : ∀ msg now, i ≠ .command (.send msg) now)
    (hok : r.result = .ok .continue) : Woken e.session r.state.session r.out := by
  cases h with
  | nothing => exact ⟨.inl, by simp [Announced], fun hc => .inr ⟨hc, fun _ hm _ => hm⟩⟩
  | @announced logonTimeout now hi hp =>
    have hno : ¬ Announced (announceOut e.session.config) := by simp [Announced, announceOut]
    exact (((conduct_opened e now).woken rfl).prepend hno).of_opened
  | welcomed hi hp hA hid hs =>
    exact ((hs.conduct.woken hok).prepend (by simp [Announced, welcomeOut])).of_opened
  | @answered logon now r phase hi hp hA hsent hs hok' herr =>
    have hno : ¬ Announced [.event (.rawMessageReceived logon)] := by simp [Announced]
    exact (hs.conduct.woken hok).prepend hno
  | @passed j r hi hp hs =>
    obtain ⟨hj, hlogon⟩ := passed_input hi hsend
    exact (step_conduct hs hj hlogon).woken hok

/-- Taking a message without ending the session: a logon is announced, and a Logout
is held back. -/
theorem Sent.woken (h : Sent msg now s r) (hok : r.result = .ok .continue) :
    (r.state.isLoggedOn = true → s.isLoggedOn = true ∨ Announced r.out) ∧
      r.state.closing = s.closing ∧
      (∀ m ∈ queued s, m.msgType = "5" → m ∈ queued r.state) ∧
      (msg.msgType = "5" → msg ∈ queued r.state) := by
  cases h with
  | rejected hno => cases hok
  | @deferred n replay hn ha hr =>
    have hbefore : queued s = replay.queue := by simp [queued, hr]
    refine ⟨.inl, rfl, ?_, ?_⟩
    · intro m hm _
      rw [hbefore] at hm
      exact List.mem_append_left _ hm
    · intro _
      exact List.mem_append_right _ (List.mem_singleton.mpr rfl)
  | @dispatched n hn ha hr =>
    refine ⟨?_, rfl, fun _ hm _ => hm, ?_⟩
    · intro hon
      rw [SessionState.isLoggedOn, Bool.and_eq_true] at hon
      have hpeer : s.peerLogonReceived = true := hon.2
      by_cases hA : msg.msgType = "A"
      · exact .inr ((announced_dispatchOut s msg).mpr ⟨hA, hpeer⟩)
      · left
        have hsent : (s.logonSent || decide (msg.msgType = "A")) = true := hon.1
        simpa [SessionState.isLoggedOn, hpeer, hA] using hsent
    · intro h5
      rw [progressOf, if_pos h5] at hok
      cases hok

end Babelfix.Session
