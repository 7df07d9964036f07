import Babelfix.Session.State

/-! # What an inbound message can do

`Dispatched` and `Handled` list every outcome of `dispatchMessage` and
`handleSessionMessage`, with what decides between them; the two `_spec` theorems
say the lists are complete. Properties of inbound processing are proved by cases
on these relations, without unfolding the machine again. -/
namespace Babelfix.Session
open Lib

/-- The report that closes an in-sequence message the application does not see. -/
def reportOut (inSequence : Bool) (s : SessionState) : List Effect :=
  if inSequence then [.event (.inboundAdvanced s.nextInSeqNum)] else []

/-- The Heartbeat that answers a TestRequest. -/
def answer (s : SessionState) (testReqId : Bytes) : Message :=
  { s.message "0" with body := (s.message "0").body.set Fields.testReqID testReqId }

/-- A message the application is shown: an application message or a Reject. -/
def Shown (msg : Message) : Prop := msg.msgType = "3" ∨ msg.isAdmin = false

/-- The state once a Logout has been asked for. -/
def closed (s : SessionState) (now : Instant) : SessionState :=
  { s with closing := some (now + s.config.heartbeatInterval) }

/-- The state once a replay has been started. -/
def resending (s : SessionState) (replay : Replay) : SessionState :=
  { s with highestAccepted := max s.highestAccepted replay.endSeqNo, replay := some replay }

inductive ResendRefused (msg : Message) (s : SessionState) : Fault → Prop
  | noBegin {e} (h : msg.body.req Fields.beginSeqNo = .error e) :
    ResendRefused msg s (.err (.invalidMessage e.text))
  | noEnd {e} (h : msg.body.req Fields.endSeqNo = .error e) :
    ResendRefused msg s (.err (.invalidMessage e.text))
  | busy {replay} (h : s.replay = some replay) :
    ResendRefused msg s
      (.err (.protocolViolation "ResendRequest while a resend is already in progress"))
  | overflow (h : u64Max < s.highestSent + 1) : ResendRefused msg s .overflow
  | badRange {first last e} (hb : msg.body.req Fields.beginSeqNo = .ok first)
    (he : msg.body.req Fields.endSeqNo = .ok last)
    (h : Replay.start first last (s.highestSent + 1) = .error e) : ResendRefused msg s e

inductive Dispatched (msg : Message) (inSequence : Bool) (now : Instant) (s : SessionState) :
    OpOutcome Progress → Prop
  | quiet (h : msg.msgType ∈ ["A", "0", "4", "n"]) :
    Dispatched msg inSequence now s ⟨s, reportOut inSequence s, .ok .continue⟩
  | recovered {id} (h : msg.msgType = "0") (hid : msg.body.get Fields.testReqID = .ok (some id))
    (hs : s.recoveryTrId = some id) :
    Dispatched msg inSequence now s ⟨{ s with recoveryTrId := none },
      .event .recoveryCompleted :: reportOut inSequence s, .ok .continue⟩
  | answered {id} (h : msg.msgType = "1") (hid : msg.body.req Fields.testReqID = .ok id) :
    Dispatched msg inSequence now s ⟨s,
      .event (.adminSendRequired (answer s id)) :: reportOut inSequence s, .ok .continue⟩
  | unanswered {e} (h : msg.msgType = "1") (hid : msg.body.req Fields.testReqID = .error e) :
    Dispatched msg inSequence now s ⟨s, [], .error (.err (.invalidMessage e.text))⟩
  | resending {first last replay} (h : msg.msgType = "2")
    (hb : msg.body.req Fields.beginSeqNo = .ok first)
    (he : msg.body.req Fields.endSeqNo = .ok last) (hs : s.replay = none)
    (ho : s.highestSent + 1 ≤ u64Max)
    (hr : Replay.start first last (s.highestSent + 1) = .ok replay) :
    Dispatched msg inSequence now s ⟨resending s replay,
      .event (.resendRequest msg replay.beginSeqNo replay.endSeqNo) :: reportOut inSequence s,
      .ok .continue⟩
  | refused {f} (h : msg.msgType = "2") (hf : ResendRefused msg s f) :
    Dispatched msg inSequence now s ⟨s, [], .error f⟩
  | logout (h : msg.msgType = "5") (hs : s.closing = none) :
    Dispatched msg inSequence now s ⟨closed s now,
      .event (.adminSendRequired (s.logout SessionState.logoutReceivedText)) ::
        reportOut inSequence s, .ok .continue⟩
  | logoutAgain {c} (h : msg.msgType = "5") (hs : s.closing = some c) :
    Dispatched msg inSequence now s ⟨s, reportOut inSequence s, .ok .continue⟩
  | shown {n} (h : Shown msg) (hn : Carries msg n) :
    Dispatched msg inSequence now s ⟨s, [.event (.messageReceived n msg)], .ok .continue⟩
  | unshown {e} (h : Shown msg) (hn : msg.header.req Fields.msgSeqNum = .error e) :
    Dispatched msg inSequence now s ⟨s, [], .error (.err (.invalidMessage e.text))⟩

namespace SessionState

theorem run_requestLogout (text : Bytes) (now : Instant) (s : SessionState) :
    (requestLogout text now).run s = if s.closing.isSome then ⟨s, [], .ok ()⟩ else
      ⟨closed s now, [.event (.adminSendRequired (s.logout text))], .ok ()⟩ := by
  simp only [requestLogout, request, event, Call.run_bind, Call.run_get, Outcome.andThen_ok,
    Outcome.prepend_nil, Call.run_ite, Call.run_pure, Call.run_modify, Call.run_emit]
  rfl

theorem run_advanced (inSequence : Bool) (s : SessionState) :
    (advanced inSequence).run s = ⟨s, reportOut inSequence s, .ok .continue⟩ := by
  cases inSequence <;> rfl

theorem run_onHeartbeat (msg : Message) (s : SessionState) : (onHeartbeat msg).run s =
    match msg.body.get Fields.testReqID with
    | .error e => ⟨s, [], .error (.err (.invalidMessage e.text))⟩
    | .ok id => if id.isSome ∧ id = s.recoveryTrId then
        ⟨{ s with recoveryTrId := none }, [.event .recoveryCompleted], .ok ()⟩
      else ⟨s, [], .ok ()⟩ := by
  unfold onHeartbeat
  cases msg.body.get Fields.testReqID with
  | error e => rfl
  | ok id =>
    simp only [ofField, event, Call.run_bind, Call.run_lift, Outcome.andThen_ok,
      Outcome.prepend_nil, Call.run_get, Call.run_ite, Call.run_modify, Call.run_emit,
      Call.run_pure]

/-- A `Str` field decodes whatever its bytes are. -/
theorem get_testReqID_ne_error (b : Block) (e : FieldError) : b.get Fields.testReqID ≠ .error e := by
  unfold Block.get
  split <;> simp [Fields.testReqID]

theorem run_onTestRequest (msg : Message) (s : SessionState) : (onTestRequest msg).run s =
    match msg.body.req Fields.testReqID with
    | .error e => ⟨s, [], .error (.err (.invalidMessage e.text))⟩
    | .ok id => ⟨s, [.event (.adminSendRequired (answer s id))], .ok ()⟩ := by
  unfold onTestRequest
  cases msg.body.req Fields.testReqID <;> rfl

theorem run_deliver (msg : Message) (s : SessionState) : (deliver msg).run s =
    match msg.header.req Fields.msgSeqNum with
    | .error e => ⟨s, [], .error (.err (.invalidMessage e.text))⟩
    | .ok n => ⟨s, [.event (.messageReceived n msg)], .ok .continue⟩ := by
  unfold deliver
  cases msg.header.req Fields.msgSeqNum <;> rfl

/-- A ResendRequest either starts a replay or is refused and changes nothing. -/
theorem onResendRequest_cases (msg : Message) (s : SessionState) :
    (∃ first last replay, msg.body.req Fields.beginSeqNo = .ok first ∧
      msg.body.req Fields.endSeqNo = .ok last ∧ s.replay = none ∧ s.highestSent + 1 ≤ u64Max ∧
      Replay.start first last (s.highestSent + 1) = .ok replay ∧
      (onResendRequest msg).run s = ⟨resending s replay,
        [.event (.resendRequest msg replay.beginSeqNo replay.endSeqNo)], .ok ()⟩) ∨
    ∃ f, ResendRefused msg s f ∧ (onResendRequest msg).run s = ⟨s, [], .error f⟩ := by
  unfold onResendRequest
  cases hb : msg.body.req Fields.beginSeqNo with
  | error e => exact .inr ⟨_, .noBegin hb, rfl⟩
  | ok first =>
    cases he : msg.body.req Fields.endSeqNo with
    | error e => exact .inr ⟨_, .noEnd he, rfl⟩
    | ok last =>
      cases hs : s.replay with
      | some replay =>
        refine .inr ⟨_, .busy hs, ?_⟩
        simp [ofField, hs, err]
      | none =>
        by_cases ho : s.highestSent + 1 ≤ u64Max
        · have hadd : addU64 s.highestSent 1 = .ok (s.highestSent + 1) := addU64_eq_ok.mpr ⟨ho, rfl⟩
          cases hr : Replay.start first last (s.highestSent + 1) with
          | error e =>
            refine .inr ⟨_, .badRange hb he hr, ?_⟩
            simp [ofField, hs, hadd, hr]
          | ok replay =>
            refine .inl ⟨first, last, replay, rfl, rfl, rfl, ho, hr, ?_⟩
            simp [ofField, hs, hadd, hr, event, resending]
        · have hadd : addU64 s.highestSent 1 = .error .overflow := if_neg ho
          refine .inr ⟨_, .overflow (by omega), ?_⟩
          simp [ofField, hs, hadd]

theorem dispatchMessage_spec (msg : Message) (inSequence : Bool) (now : Instant)
    (s : SessionState) : Dispatched msg inSequence now s ((dispatchMessage msg inSequence now).run s) := by
  unfold dispatchMessage
  by_cases hA : msg.msgType = "A"
  · simp only [hA, run_advanced]
    exact .quiet (by simp [hA])
  by_cases h0 : msg.msgType = "0"
  · simp only [h0, Call.run_bind, run_onHeartbeat]
    cases hid : msg.body.get Fields.testReqID with
    | error e => exact absurd hid (get_testReqID_ne_error _ e)
    | ok id =>
      simp only
      split
      · rename_i hs
        obtain ⟨hsome, heq⟩ := hs
        obtain ⟨v, rfl⟩ := Option.isSome_iff_exists.mp hsome
        simp only [Outcome.andThen_ok, run_advanced, Outcome.prepend_mk]
        exact .recovered h0 hid heq.symm
      · simp only [Outcome.andThen_ok, run_advanced, Outcome.prepend_mk, List.nil_append]
        exact .quiet (by simp [h0])
  by_cases h1 : msg.msgType = "1"
  · simp only [h1, Call.run_bind, run_onTestRequest]
    cases hid : msg.body.req Fields.testReqID with
    | error e => exact .unanswered h1 hid
    | ok id =>
      simp only [Outcome.andThen_ok, run_advanced, Outcome.prepend_mk]
      exact .answered h1 hid
  by_cases h2 : msg.msgType = "2"
  · simp only [h2, Call.run_bind]
    obtain ⟨first, last, replay, hb, he, hs, ho, hr, heq⟩ | ⟨f, hf, heq⟩ :=
      onResendRequest_cases msg s
    · rw [heq, Outcome.andThen_ok, run_advanced]
      exact .resending h2 hb he hs ho hr
    · rw [heq]
      exact .refused h2 hf
  by_cases h5 : msg.msgType = "5"
  · simp only [h5, Call.run_bind, run_requestLogout]
    cases hs : s.closing with
    | none =>
      simp only [Option.isSome_none, Bool.false_eq_true, if_false, Outcome.andThen_ok,
        run_advanced]
      exact .logout h5 hs
    | some c =>
      simp only [Option.isSome_some, if_true, Outcome.andThen_ok, run_advanced,
        Outcome.prepend_nil]
      exact .logoutAgain h5 hs
  -- what is left is shown to the application, unless it is another admin message
  have hshow : Shown msg → Dispatched msg inSequence now s ((deliver msg).run s) := by
    intro hshown
    rw [run_deliver]
    cases hn : msg.header.req Fields.msgSeqNum with
    | error e => exact .unshown hshown hn
    | ok n => exact .shown hshown hn
  by_cases h3 : msg.msgType = "3"
  · simp only [h3]
    exact hshow (.inl h3)
  · simp only [Call.run_ite]
    split
    · rename_i ha
      rw [run_advanced]
      refine .quiet ?_
      simp [Message.isAdmin] at ha
      simp
      tauto
    · rename_i ha
      exact hshow (.inr (by simpa using ha))

end SessionState

theorem Dispatched.ok_or_error {msg inSequence now s r} (h : Dispatched msg inSequence now s r) :
    r.result = .ok .continue ∨ ∃ f, r.result = .error f := by
  cases h <;> first | exact .inl rfl | exact .inr ⟨_, rfl⟩

/-! ## Sequence checks -/

/-- The state once a gap before number `n` is known. -/
def gapState (s : SessionState) (n : Nat) : SessionState :=
  if s.rerequestInProgress.isNone then { s with rerequestInProgress := some n } else s

def gapOut (s : SessionState) : List Effect :=
  if s.rerequestInProgress.isNone then [.event (.adminSendRequired s.resendRequestMessage)] else []

/-- The state once the expected number has moved on to `next`. -/
def advancedTo (s : SessionState) (next : Nat) : SessionState :=
  { s with
    nextInSeqNum := next
    rerequestInProgress := s.rerequestInProgress.filter fun m => next < m }

/-- Where message `msg`, numbered `n`, moves the expected number. -/
def NextAfter (msg : Message) (n next : Nat) : Prop :=
  (msg.msgType = "4" ∧ SessionState.gapFillNewSeqNum msg = .ok next ∧ n < next) ∨
    (msg.msgType ≠ "4" ∧ next = n + 1 ∧ n + 1 ≤ u64Max)

theorem NextAfter.lt {msg n next} (h : NextAfter msg n next) : n < next := by
  obtain ⟨-, -, h⟩ | ⟨-, h, -⟩ := h
  · exact h
  · omega

theorem NextAfter.of_gapFill {msg n next} (h : NextAfter msg n next) (h4 : msg.msgType = "4") :
    SessionState.gapFillNewSeqNum msg = .ok next ∧ n < next := by
  obtain ⟨-, hf, hlt⟩ | ⟨hne, -⟩ := h
  · exact ⟨hf, hlt⟩
  · exact absurd h4 hne

theorem NextAfter.of_other {msg n next} (h : NextAfter msg n next) (hne : msg.msgType ≠ "4") :
    next = n + 1 := by
  obtain ⟨h4, -⟩ | ⟨-, h, -⟩ := h
  · exact absurd h4 hne
  · exact h

theorem Shown.next {msg n next} (h : Shown msg) (hn : NextAfter msg n next) : next = n + 1 := by
  refine hn.of_other ?_
  intro h4
  obtain h3 | ha := h
  · rw [h4] at h3
    exact absurd h3 (by decide)
  · simp [Message.isAdmin, h4] at ha

/-- A Logout deferred by a gap is due once the gap has closed. -/
def LogoutDue (s : SessionState) : Prop :=
  s.peerLogoutPending = true ∧ s.rerequestInProgress = none ∧ s.closing = none

inductive Handled (msg : Message) (now : Instant) (s : SessionState) :
    OpOutcome Progress → Prop
  | unread {e} (h : msg.header.req Fields.msgSeqNum = .error e) :
    Handled msg now s ⟨s, [], .error (.err (.invalidMessage e.text))⟩
  | garbage {f} (h : msg.msgType = "4") (hf : SessionState.gapFillNewSeqNum msg = .error f) :
    Handled msg now s ⟨s, [], .error f⟩
  | low {n} (hn : Carries msg n) (h : n < s.nextInSeqNum)
    (hc : s.closing = none) :
    Handled msg now s ⟨closed s now, [.event (.adminSendRequired
      (s.logout (SessionState.tooLowText s.nextInSeqNum n)))], .ok .continue⟩
  | lowClosing {n c} (hn : Carries msg n) (h : n < s.nextInSeqNum)
    (hc : s.closing = some c) :
    Handled msg now s ⟨s, [], .ok .continue⟩
  | gap {n} (hn : Carries msg n) (h : s.nextInSeqNum < n)
    (h2 : msg.msgType ≠ "2") (h5 : msg.msgType ≠ "5") :
    Handled msg now s ⟨gapState s n, gapOut s, .ok .continue⟩
  | gapLogout {n} (hn : Carries msg n) (h : s.nextInSeqNum < n)
    (h5 : msg.msgType = "5") :
    Handled msg now s ⟨{ gapState s n with peerLogoutPending := true }, gapOut s, .ok .continue⟩
  | gapResend {n r} (hn : Carries msg n) (h : s.nextInSeqNum < n)
    (h2 : msg.msgType = "2") (hd : Dispatched msg false now (gapState s n) r) :
    Handled msg now s (r.prepend (gapOut s))
  | badFill {next e} (hn : Carries msg s.nextInSeqNum)
    (h4 : msg.msgType = "4") (hf : SessionState.gapFillNewSeqNum msg = .ok next)
    (h : next ≤ s.nextInSeqNum) :
    Handled msg now s ⟨s, [], .error (.err e)⟩
  | overflow (hn : Carries msg s.nextInSeqNum)
    (h4 : msg.msgType ≠ "4") (h : u64Max < s.nextInSeqNum + 1) :
    Handled msg now s ⟨s, [], .error .overflow⟩
  | failed {next r f} (hn : Carries msg s.nextInSeqNum)
    (hnext : NextAfter msg s.nextInSeqNum next)
    (hd : Dispatched msg true now (advancedTo s next) r) (hf : r.result = .error f) :
    Handled msg now s r
  | accepted {next r} (hn : Carries msg s.nextInSeqNum)
    (hnext : NextAfter msg s.nextInSeqNum next)
    (hd : Dispatched msg true now (advancedTo s next) r) (hok : r.result = .ok .continue)
    (hdue : ¬ LogoutDue r.state) :
    Handled msg now s r
  | acceptedLogout {next r} (hn : Carries msg s.nextInSeqNum)
    (hnext : NextAfter msg s.nextInSeqNum next)
    (hd : Dispatched msg true now (advancedTo s next) r) (hok : r.result = .ok .continue)
    (hdue : LogoutDue r.state) :
    Handled msg now s ⟨closed r.state now, r.out ++ [.event (.adminSendRequired
      (r.state.logout SessionState.logoutReceivedText))], .ok .continue⟩

namespace SessionState

theorem run_handleGap (msg : Message) (n : Nat) (now : Instant) (s : SessionState) :
    (handleGap msg n now).run s =
      Outcome.prepend (gapOut s) ((handleDiscarded msg now).run (gapState s n)) := by
  unfold handleGap gapOut gapState request event
  cases hr : s.rerequestInProgress with
  | none | some m => simp [hr]

theorem handleGap_spec {msg n} (now : Instant) {s} (hn : Carries msg n)
    (h : s.nextInSeqNum < n) : Handled msg now s ((handleGap msg n now).run s) := by
  rw [run_handleGap]
  unfold handleDiscarded
  by_cases h2 : msg.msgType = "2"
  · simp only [h2]
    exact .gapResend hn h h2 (dispatchMessage_spec msg false now _)
  by_cases h5 : msg.msgType = "5"
  · simp only [h5, Call.run_bind, Call.run_modify, Outcome.andThen_ok, Call.run_pure,
      Outcome.prepend_mk, List.append_nil]
    exact .gapLogout hn h h5
  · have hm : Handled msg now s ⟨gapState s n, gapOut s, .ok .continue⟩ := .gap hn h h2 h5
    simpa using hm

theorem run_acknowledgeLogout_due (now : Instant) {s} (h : LogoutDue s) :
    (acknowledgeLogout now).run s = ⟨closed s now,
      [.event (.adminSendRequired (s.logout logoutReceivedText))], .ok ()⟩ := by
  obtain ⟨hp, hg, hc⟩ := h
  simp [acknowledgeLogout, run_requestLogout, hp, hg, hc]

theorem run_acknowledgeLogout_notDue (now : Instant) {s} (h : ¬ LogoutDue s) :
    (acknowledgeLogout now).run s = ⟨s, [], .ok ()⟩ := by
  simp only [acknowledgeLogout, Call.run_bind, Call.run_get, Outcome.andThen_ok,
    Outcome.prepend_nil, Call.run_ite, run_requestLogout, Call.run_pure]
  split
  · rename_i hpg
    have hc : s.closing.isSome = true := by
      by_contra hc
      exact h ⟨hpg.1, by simpa using hpg.2, by simpa using hc⟩
    rw [if_pos hc]
  · rfl

theorem run_handleInSequence (msg : Message) (now : Instant) (s : SessionState) (next : Nat) :
    (handleInSequence msg now).run { s with nextInSeqNum := next } =
      ((dispatchMessage msg true now).run (advancedTo s next)).andThen fun
        | .close => return .close
        | .continue => do
          acknowledgeLogout now
          return .continue := by
  unfold handleInSequence advancedTo
  cases s.rerequestInProgress with
  | none =>
    simp [-eq_self]
    rfl
  | some m =>
    by_cases hm : m ≤ next
    · rw [show (some m).filter (fun m => decide (next < m)) = none by simp [hm]]
      simp only [Call.run_bind, Call.run_get, Outcome.andThen_ok, Outcome.prepend_nil, Option.any_some,
        hm, decide_true, -eq_self]
      rfl
    · simp [hm, Option.filter, Nat.lt_of_not_le hm, -eq_self]
      rfl

theorem handleInSequence_spec {msg} (now : Instant) {s next} (hn : Carries msg s.nextInSeqNum)
    (hnext : NextAfter msg s.nextInSeqNum next) :
    Handled msg now s ((handleInSequence msg now).run { s with nextInSeqNum := next }) := by
  rw [run_handleInSequence]
  have hd := dispatchMessage_spec msg true now (advancedTo s next)
  generalize (dispatchMessage msg true now).run (advancedTo s next) = r at hd
  obtain hok | ⟨f, hf⟩ := hd.ok_or_error
  · rw [Outcome.andThen_of_ok _ hok]
    by_cases hdue : LogoutDue r.state
    · simp only [Call.run_bind, run_acknowledgeLogout_due now hdue, Outcome.andThen_ok,
        Call.run_pure, Outcome.prepend_mk, List.append_nil]
      exact .acceptedLogout hn hnext hd hok hdue
    · have hr : r = ⟨r.state, r.out, .ok .continue⟩ := by rw [← hok]
      have hm := Handled.accepted hn hnext hd hok hdue
      rw [hr] at hm
      simpa [run_acknowledgeLogout_notDue now hdue] using hm
  · rw [Outcome.andThen_of_error _ hf]
    have hr : r = ⟨r.state, r.out, .error f⟩ := by rw [← hf]
    have hm := Handled.failed hn hnext hd hf
    rwa [hr] at hm

/-- **Every outcome of an inbound message.** -/
theorem handleSessionMessage_spec (msg : Message) (now : Instant) (s : SessionState) :
    Handled msg now s ((handleSessionMessage msg now).run s) := by
  unfold handleSessionMessage
  cases hn : msg.header.req Fields.msgSeqNum with
  | error e => exact .unread hn
  | ok n =>
    simp only [ofField, Call.run_bind, Call.run_lift, Outcome.andThen_ok, Outcome.prepend_nil,
      Call.run_ite]
    -- the fill's `NewSeqNo` is read before the number is looked at
    have hrest : ∀ new : Option Nat,
        (new = none → msg.msgType ≠ "4") →
        (∀ next, new = some next → msg.msgType = "4" ∧ gapFillNewSeqNum msg = .ok next) →
        Handled msg now s (((if n < s.nextInSeqNum then do
              requestLogout (tooLowText s.nextInSeqNum n) now
              return .continue
            else if s.nextInSeqNum < n then handleGap msg n now
            else do
              advance n new
              handleInSequence msg now : Op Progress)).run s) := by
      intro new hnone hsome
      split
      · rename_i hlt
        simp only [Call.run_bind, run_requestLogout]
        cases hc : s.closing with
        | none => simpa using Handled.low hn hlt hc
        | some c => simpa using Handled.lowClosing hn hlt hc
      · split
        · rename_i hgt
          exact handleGap_spec now hn hgt
        · have heq : n = s.nextInSeqNum := by omega
          subst heq
          cases new with
          | none =>
            have h4 := hnone rfl
            by_cases ho : s.nextInSeqNum + 1 ≤ u64Max
            · simp only [advance, addU64, ho, if_true, Call.run_bind, Call.run_get, Call.run_lift,
                Call.run_modify, Outcome.andThen_ok, Outcome.prepend_nil]
              exact handleInSequence_spec now hn (.inr ⟨h4, rfl, ho⟩)
            · simp only [advance, addU64, ho, if_false, Call.run_bind, Call.run_get, Call.run_lift,
                Outcome.andThen_ok, Outcome.andThen_error, Outcome.prepend_nil]
              exact .overflow hn h4 (by omega)
          | some next =>
            obtain ⟨h4, hf⟩ := hsome next rfl
            by_cases hle : next ≤ s.nextInSeqNum
            · simp only [advance, hle, if_true, err, Call.run_bind, Call.run_fault,
                Outcome.andThen_error]
              exact .badFill hn h4 hf hle
            · simp only [advance, hle, if_false, Call.run_bind, Call.run_modify,
                Outcome.andThen_ok, Outcome.prepend_nil]
              exact handleInSequence_spec now hn (.inl ⟨h4, hf, by omega⟩)
    by_cases h4 : msg.msgType = "4"
    · simp only [h4, if_true]
      cases hf : gapFillNewSeqNum msg with
      | error f => exact .garbage h4 hf
      | ok next =>
        have := hrest (some next) (by simp) (by
          intro next' he
          cases he
          exact ⟨h4, hf⟩)
        simpa [Except.map] using this
    · simp only [h4, if_false]
      have := hrest none (fun _ => h4) (by simp)
      simpa using this

end SessionState

theorem Handled.ok_or_error {msg now s r} (h : Handled msg now s r) :
    r.result = .ok .continue ∨ ∃ f, r.result = .error f := by
  cases h with
  | gapResend hn h h2 hd => exact hd.ok_or_error
  | failed hn hnext hd hf => exact .inr ⟨_, hf⟩
  | accepted hn hnext hd hok hdue => exact .inl hok
  | _ => first | exact .inl rfl | exact .inr ⟨_, rfl⟩

/-! ## The calls a driver makes -/

/-- The state once a frame has arrived. -/
def heard (s : SessionState) (now : Instant) : SessionState :=
  { s with timers := s.timers.resetIn now }

inductive Received (msg : Message) (now : Instant) (s : SessionState) :
    OpOutcome Progress → Prop
  | ignored {c} (hc : s.closing = some c) :
    Received msg now s ⟨heard s now, [.event (.rawMessageReceived msg)], .ok .continue⟩
  | handled {r} (hc : s.closing = none) (h : Handled msg now (heard s now) r) :
    Received msg now s (r.prepend [.event (.rawMessageReceived msg)])

/-- The `TestReqID` of the next synchronisation TestRequest. -/
def syncId (s : SessionState) : Bytes := ascii "HELO-" ++ writeUint (s.testRequestSeq + 1)

/-- The state once the synchronisation TestRequest has been asked for. -/
def synced (s : SessionState) : SessionState :=
  { s with testRequestSeq := s.testRequestSeq + 1, recoveryTrId := some (syncId s) }

def syncOut (s : SessionState) : List Effect :=
  [.event (.adminSendRequired (s.testRequest (syncId s)))]

def loggedOnOut (loggedOn : Bool) : List Effect := if loggedOn then [.event .loggedOn] else []

def peerLoggedOn (s : SessionState) : SessionState := { s with peerLogonReceived := true }

inductive Started (logon : Message) (now : Instant) (s : SessionState) :
    OpOutcome Progress → Prop
  | failed {r f} (h : Handled logon now s r) (hf : r.result = .error f) : Started logon now s r
  | refused {r c} (h : Handled logon now s r) (hok : r.result = .ok .continue)
    (hc : r.state.closing = some c) :
    Started logon now s ⟨peerLoggedOn r.state, r.out, .ok .continue⟩
  | established {r} (h : Handled logon now s r) (hok : r.result = .ok .continue)
    (hc : r.state.closing = none) :
    Started logon now s ⟨synced (peerLoggedOn r.state),
      r.out ++ (loggedOnOut r.state.logonSent ++ syncOut r.state), .ok .continue⟩

namespace SessionState

theorem run_requestSyncTestRequest (s : SessionState) :
    requestSyncTestRequest.run s = ⟨synced s, syncOut s, .ok ()⟩ := rfl

theorem onMessage_spec (msg : Message) (now : Instant) (s : SessionState) :
    Received msg now s ((onMessage msg now).run s) := by
  have hrun : (onMessage msg now).run s = Outcome.prepend [.event (.rawMessageReceived msg)]
      (if s.closing.isSome then ⟨heard s now, [], .ok .continue⟩
        else (handleSessionMessage msg now).run (heard s now)) := by
    simp [onMessage, event, heard]
  rw [hrun]
  cases hc : s.closing with
  | none => exact .handled hc (handleSessionMessage_spec msg now _)
  | some c => exact .ignored hc

theorem run_onLogonProcessed (s : SessionState) : onLogonProcessed.run s =
    if s.closing.isSome then ⟨peerLoggedOn s, [], .ok .continue⟩
    else ⟨synced (peerLoggedOn s), loggedOnOut s.logonSent ++ syncOut s, .ok .continue⟩ := by
  cases hc : s.closing with
  | some c => simp [onLogonProcessed, hc, peerLoggedOn]
  | none =>
    cases hl : s.logonSent <;>
      simp [onLogonProcessed, hc, hl, peerLoggedOn, event, run_requestSyncTestRequest,
        loggedOnOut, syncOut, syncId, testRequest, message]

theorem start_spec (logon : Message) (now : Instant) (s : SessionState) :
    Started logon now s ((start logon now).run s) := by
  have h := handleSessionMessage_spec logon now s
  unfold start
  rw [Call.run_bind]
  generalize (handleSessionMessage logon now).run s = r at h
  obtain hok | ⟨f, hf⟩ := h.ok_or_error
  · rw [Outcome.andThen_of_ok _ hok]
    simp only [run_onLogonProcessed]
    cases hc : r.state.closing with
    | some c => simpa using Started.refused h hok hc
    | none => simpa using Started.established h hok hc
  · rw [Outcome.andThen_of_error _ hf]
    have hr : r = ⟨r.state, r.out, .error f⟩ := by rw [← hf]
    have hm := Started.failed h hf
    rwa [hr] at hm

end SessionState

/-! ## What stays as it is -/

/-- A message put on the wire, and what it is. -/
def wired : Effect → Option (Origin × Unstamped)
  | .transmit origin u => some (origin, u)
  | .event _ => none

def transmissions (o : List Effect) : List (Origin × Unstamped) := o.filterMap wired

@[simp] theorem transmissions_append (o o' : List Effect) :
    transmissions (o ++ o') = transmissions o ++ transmissions o' := List.filterMap_append

@[simp] theorem transmissions_event (e : Event) (o : List Effect) :
    transmissions (.event e :: o) = transmissions o := rfl

@[simp] theorem transmissions_nil : transmissions [] = [] := rfl

@[simp] theorem transmissions_reportOut (b : Bool) (s : SessionState) :
    transmissions (reportOut b s) = [] := by
  cases b <;> rfl

@[simp] theorem transmissions_gapOut (s : SessionState) : transmissions (gapOut s) = [] := by
  unfold gapOut; split <;> rfl

@[simp] theorem transmissions_loggedOnOut (b : Bool) : transmissions (loggedOnOut b) = [] := by
  cases b <;> rfl

@[simp] theorem transmissions_syncOut (s : SessionState) : transmissions (syncOut s) = [] := rfl

/-- The replays asked of the application: the request, and the range. -/
def asked : Effect → Option (Message × Nat × Nat)
  | .event (.resendRequest msg first last) => some (msg, first, last)
  | _ => none

def resends (o : List Effect) : List (Message × Nat × Nat) := o.filterMap asked

@[simp] theorem resends_append (o o' : List Effect) : resends (o ++ o') = resends o ++ resends o' :=
  List.filterMap_append

@[simp] theorem resends_gapOut (s : SessionState) : resends (gapOut s) = [] := by
  unfold gapOut; split <;> rfl

@[simp] theorem resends_loggedOnOut (b : Bool) : resends (loggedOnOut b) = [] := by
  cases b <;> rfl

@[simp] theorem resends_syncOut (s : SessionState) : resends (syncOut s) = [] := rfl

/-- What inbound messages never touch. -/
structure SameOutbound (s s' : SessionState) : Prop where
  sessionId : s'.sessionId = s.sessionId
  config : s'.config = s.config
  highestSent : s'.highestSent = s.highestSent
  logonSent : s'.logonSent = s.logonSent
  heartbeatRequested : s'.heartbeatRequested = s.heartbeatRequested

/-- What an inbound message does to the replay: nothing, or it starts one and asks
the application for it. -/
inductive ReplayChange (msg : Message) (s s' : SessionState) (o : List Effect) : Prop
  | same (hr : s'.replay = s.replay) (ha : s'.highestAccepted = s.highestAccepted)
    (ho : resends o = [])
  | started {first last replay} (h2 : msg.msgType = "2")
    (hb : msg.body.req Fields.beginSeqNo = .ok first)
    (he : msg.body.req Fields.endSeqNo = .ok last) (hs : s.replay = none)
    (hstart : Replay.start first last (s.highestSent + 1) = .ok replay)
    (hr : s'.replay = some replay)
    (ha : s'.highestAccepted = max s.highestAccepted replay.endSeqNo)
    (ho : resends o = [(msg, replay.beginSeqNo, replay.endSeqNo)])

/-- Only the fields it speaks about matter, and what was asked of the application. -/
theorem ReplayChange.transfer {msg s s' t t' o o'} (h : ReplayChange msg s s' o)
    (h₁ : t.replay = s.replay) (h₂ : t.highestAccepted = s.highestAccepted)
    (h₃ : t.highestSent = s.highestSent) (h₄ : t'.replay = s'.replay)
    (h₅ : t'.highestAccepted = s'.highestAccepted) (h₆ : resends o' = resends o) :
    ReplayChange msg t t' o' := by
  cases h with
  | same hr ha ho => exact .same (by rw [h₄, hr, h₁]) (by rw [h₅, ha, h₂]) (by rw [h₆, ho])
  | started h2 hb he hs hstart hr ha ho =>
    exact .started h2 hb he (by rw [h₁, hs]) (by rw [h₃]; exact hstart) (by rw [h₄, hr])
      (by rw [h₅, ha, h₂]) (by rw [h₆, ho])

theorem gapState_sameOutbound (s : SessionState) (n : Nat) : SameOutbound s (gapState s n) := by
  unfold gapState; split <;> exact ⟨.refl _, .refl _, .refl _, .refl _, .refl _⟩

@[simp] theorem gapState_replay (s : SessionState) (n : Nat) :
    (gapState s n).replay = s.replay := by
  unfold gapState; split <;> rfl

@[simp] theorem gapState_highestAccepted (s : SessionState) (n : Nat) :
    (gapState s n).highestAccepted = s.highestAccepted := by
  unfold gapState; split <;> rfl

@[simp] theorem gapState_highestSent (s : SessionState) (n : Nat) :
    (gapState s n).highestSent = s.highestSent := by
  unfold gapState; split <;> rfl

/-- What an inbound message leaves of the outbound side. -/
def Outbound (msg : Message) (s s' : SessionState) (o : List Effect) : Prop :=
  SameOutbound s s' ∧ ReplayChange msg s s' o ∧ transmissions o = []

theorem Dispatched.outbound {msg inSequence now s r} (h : Dispatched msg inSequence now s r) :
    Outbound msg s r.state r.out := by
  cases h with
  | resending h2 hb he hs ho hr =>
    refine ⟨⟨rfl, rfl, rfl, rfl, rfl⟩, .started h2 hb he hs hr rfl rfl ?_, by simp⟩
    cases inSequence <;> rfl
  | _ =>
    refine ⟨⟨rfl, rfl, rfl, rfl, rfl⟩, .same rfl rfl ?_, by simp⟩
    cases inSequence <;> rfl

/-- **Processing an inbound message transmits nothing**, and touches the outbound
side only by starting a replay. -/
theorem Handled.outbound {msg now s r} (h : Handled msg now s r) :
    Outbound msg s r.state r.out := by
  have hadv : ∀ {next} {r : OpOutcome Progress},
      Dispatched msg true now (advancedTo s next) r → Outbound msg s r.state r.out := by
    intro next r hd
    obtain ⟨⟨h1, h2, h3, h4, h5⟩, hrep, ho⟩ := hd.outbound
    exact ⟨⟨h1, h2, h3, h4, h5⟩, hrep.transfer rfl rfl rfl rfl rfl rfl, ho⟩
  cases h with
  | gap hn h h2 h5 =>
    exact ⟨gapState_sameOutbound s _, .same (by simp) (by simp) (by simp), by simp⟩
  | gapLogout hn h h5 =>
    obtain ⟨h1, h2, h3, h4, h5⟩ := gapState_sameOutbound s _
    exact ⟨⟨h1, h2, h3, h4, h5⟩, .same (gapState_replay s _) (gapState_highestAccepted s _)
      (by simp), by simp⟩
  | @gapResend n r hn h h2 hd =>
    obtain ⟨⟨g1, g2, g3, g4, g5⟩, hrep, ho⟩ := hd.outbound
    obtain ⟨h1, h2, h3, h4, h5⟩ := gapState_sameOutbound s n
    exact ⟨⟨g1.trans h1, g2.trans h2, g3.trans h3, g4.trans h4, g5.trans h5⟩,
      hrep.transfer (by simp) (by simp) (by simp) rfl rfl (by simp), by simp [ho]⟩
  | failed hn hnext hd hf | accepted hn hnext hd hok hdue => exact hadv hd
  | acceptedLogout hn hnext hd hok hdue =>
    obtain ⟨⟨h1, h2, h3, h4, h5⟩, hrep, ho⟩ := hadv hd
    exact ⟨⟨h1, h2, h3, h4, h5⟩, hrep.transfer rfl rfl rfl rfl rfl (by simp; rfl), by simp [ho]⟩
  | _ => exact ⟨⟨rfl, rfl, rfl, rfl, rfl⟩, .same rfl rfl rfl, by simp⟩

theorem Started.outbound {logon now s r} (h : Started logon now s r) :
    Outbound logon s r.state r.out := by
  cases h with
  | failed h hf => exact h.outbound
  | refused h hok hc =>
    obtain ⟨⟨h1, h2, h3, h4, h5⟩, hrep, ho⟩ := h.outbound
    exact ⟨⟨h1, h2, h3, h4, h5⟩, hrep.transfer rfl rfl rfl rfl rfl rfl, ho⟩
  | established h hok hc =>
    obtain ⟨⟨h1, h2, h3, h4, h5⟩, hrep, ho⟩ := h.outbound
    exact ⟨⟨h1, h2, h3, h4, h5⟩, hrep.transfer rfl rfl rfl rfl rfl (by simp), by simp [ho]⟩

theorem Received.outbound {msg now s r} (h : Received msg now s r) :
    Outbound msg s r.state r.out := by
  cases h with
  | ignored hc => exact ⟨⟨rfl, rfl, rfl, rfl, rfl⟩, .same rfl rfl rfl, rfl⟩
  | handled hc h =>
    obtain ⟨⟨h1, h2, h3, h4, h5⟩, hrep, ho⟩ := h.outbound
    exact ⟨⟨h1, h2, h3, h4, h5⟩, hrep.transfer rfl rfl rfl rfl rfl rfl, ho⟩

end Babelfix.Session
