import Babelfix.Session.Inbound

/-! # What commands and timeouts can do

The counterpart of `Handled` for the other calls: `Sent`, `Replayed`, `Drained`,
`Completed` and `TimedOut` list every outcome, and the `_spec` theorems say the
lists are complete. -/
namespace Babelfix.Session
open Lib

/-! ## Transmission -/

def transmitOut (origin : Origin) (s : SessionState) (msg : Message) : List Effect :=
  [.transmit origin (s.onWire msg), .event (.rawMessageSent (s.onWire msg).msg)]

/-- The state once a message numbered `n` has gone out. -/
def transmitted (s : SessionState) (n : Nat) : SessionState :=
  { s with highestSent := max s.highestSent n }

namespace SessionState

@[simp] theorem onWire_msgType (s : SessionState) (msg : Message) :
    (s.onWire msg).msg.msgType = msg.msgType := rfl

@[simp] theorem onWire_body (s : SessionState) (msg : Message) :
    (s.onWire msg).msg.body = msg.body := rfl

theorem onWire_msgSeqNum (s : SessionState) (msg : Message) :
    (s.onWire msg).msg.header.req Fields.msgSeqNum = msg.header.req Fields.msgSeqNum := by
  refine Block.req_eq_of_find ?_
  unfold onWire
  dsimp only
  split
  · rw [Block.find_set_ne, Block.find_set_ne, Block.find_set_ne] <;> decide
  · rw [Block.find_set_ne, Block.find_set_ne] <;> decide

end SessionState

/-- What sending a message of this type means to the session. -/
def noted (msg : Message) (s : SessionState) : SessionState :=
  { s with
    logonSent := s.logonSent || msg.msgType = "A"
    heartbeatRequested := s.heartbeatRequested && msg.msgType ≠ "0" }

/-- A Logout ends the session. -/
def progressOf (msg : Message) : Progress := if msg.msgType = "5" then .close else .continue

/-- What a newly sent message writes. -/
def dispatchOut (s : SessionState) (msg : Message) : List Effect :=
  transmitOut .fresh s msg ++ loggedOnOut (msg.msgType = "A" && s.peerLogonReceived)

namespace SessionState

theorem run_transmit_ok (origin : Origin) {msg n} (s : SessionState)
    (hn : Carries msg n) : (transmit origin msg).run s =
      ⟨transmitted s n, transmitOut origin s msg, .ok (s.onWire msg).msg⟩ := by
  simp [transmit, hn, ofField, event, transmitted, transmitOut]

theorem run_transmit_error (origin : Origin) {msg e} (s : SessionState)
    (hn : msg.header.req Fields.msgSeqNum = .error e) : (transmit origin msg).run s =
      ⟨s, [], .error (.err (.invalidMessage e.text))⟩ := by
  simp [transmit, hn, ofField]

theorem run_dispatchOutbound_ok {msg n} (s : SessionState)
    (hn : Carries msg n) : (dispatchOutbound msg).run s =
      ⟨noted msg (transmitted s n), dispatchOut s msg, .ok (progressOf msg)⟩ := by
  unfold dispatchOutbound noted dispatchOut progressOf loggedOnOut
  simp only [Call.run_bind, run_transmit_ok .fresh s hn, Outcome.andThen_ok, onWire_msgType]
  by_cases hA : msg.msgType = "A"
  · cases hp : s.peerLogonReceived <;> simp [hA, hp, event, transmitted]
  by_cases h0 : msg.msgType = "0"
  · simp [h0]
  by_cases h5 : msg.msgType = "5"
  · simp [h5]
  · simp [hA, h0, h5]

theorem run_dispatchOutbound_error {msg e} (s : SessionState)
    (hn : msg.header.req Fields.msgSeqNum = .error e) : (dispatchOutbound msg).run s =
      ⟨s, [], .error (.err (.invalidMessage e.text))⟩ := by
  simp [dispatchOutbound, run_transmit_error .fresh s hn]

end SessionState

/-! ## `Command::Send` -/

/-- What makes the session take a message numbered `n`. -/
structure Admissible (msg : Message) (s : SessionState) (n : Nat) : Prop where
  pos : 0 < n
  beyond : s.highestAccepted < n
  logon : msg.msgType = "A" → s.logonSent = false ∧
    msg.body.get Fields.heartBtInt =
      .ok (some ((s.config.heartbeatInterval / nanosPerSec : Nat) : Int)) ∧
    msg.beginString = s.sessionId.beginString
  established : msg.msgType ≠ "A" → s.logonSent = true ∧ s.peerLogonReceived = true

/-- The state once a message numbered `n` has been accepted. -/
def taken (msg : Message) (n : Nat) (now : Instant) (s : SessionState) : SessionState :=
  { s with
    highestAccepted := n
    timers := if msg.isAdmin then s.timers else s.timers.resetOut now }

inductive Sent (msg : Message) (now : Instant) (s : SessionState) :
    OpOutcome Progress → Prop
  | rejected {e} (h : ∀ n, Carries msg n → ¬ Admissible msg s n) :
    Sent msg now s ⟨s, [], .error (.err e)⟩
  | deferred {n replay} (hn : Carries msg n) (ha : Admissible msg s n)
    (hr : s.replay = some replay) :
    Sent msg now s ⟨{ taken msg n now s with replay := some (replay.defer msg) }, [],
      .ok .continue⟩
  | dispatched {n} (hn : Carries msg n) (ha : Admissible msg s n)
    (hr : s.replay = none) :
    Sent msg now s ⟨noted msg (transmitted (taken msg n now s) n), dispatchOut s msg,
      .ok (progressOf msg)⟩

namespace SessionState

theorem checkLogon_cases (logon : Message) (s : SessionState) :
    ((checkLogon logon).run s = ⟨s, [], .ok ()⟩ ∧
      logon.body.get Fields.heartBtInt =
        .ok (some ((s.config.heartbeatInterval / nanosPerSec : Nat) : Int)) ∧
      logon.beginString = s.sessionId.beginString) ∨
    ∃ e, (checkLogon logon).run s = ⟨s, [], .error (.err e)⟩ ∧
      ¬ (logon.body.get Fields.heartBtInt =
          .ok (some ((s.config.heartbeatInterval / nanosPerSec : Nat) : Int)) ∧
        logon.beginString = s.sessionId.beginString) := by
  unfold checkLogon
  cases hg : logon.body.get Fields.heartBtInt with
  | error e => exact .inr ⟨_, rfl, by simp⟩
  | ok heartbeat =>
    by_cases hh : heartbeat = some ((s.config.heartbeatInterval / nanosPerSec : Nat) : Int)
    · by_cases hb : logon.beginString = s.sessionId.beginString
      · exact .inl ⟨by simp [ofField, hh, hb], by rw [hh], hb⟩
      · exact .inr ⟨_, by simp [ofField, hh, hb, err]; rfl, fun h => hb h.2⟩
    · refine .inr ⟨_, by
        simp only [ofField, err, Call.run_bind, Call.run_lift, Call.run_get, Outcome.andThen_ok,
          Outcome.prepend_nil, ne_eq, hh, not_false_eq_true, if_true, Call.run_fault,
          Outcome.andThen_error]
        rfl, ?_⟩
      rintro ⟨h, -⟩
      exact hh (by simpa using h)

/-- The logon exchange lets out what `Admissible` says it does. -/
theorem checkLogonExchange_cases (msg : Message) (s : SessionState) :
    let admits := (msg.msgType = "A" → s.logonSent = false ∧
        msg.body.get Fields.heartBtInt =
          .ok (some ((s.config.heartbeatInterval / nanosPerSec : Nat) : Int)) ∧
        msg.beginString = s.sessionId.beginString) ∧
      (msg.msgType ≠ "A" → s.logonSent = true ∧ s.peerLogonReceived = true)
    ((checkLogonExchange msg).run s = ⟨s, [], .ok ()⟩ ∧ admits) ∨
      ∃ e, (checkLogonExchange msg).run s = ⟨s, [], .error (.err e)⟩ ∧ ¬ admits := by
  intro admits
  unfold checkLogonExchange
  by_cases hA : msg.msgType = "A"
  · cases hl : s.logonSent with
    | true =>
      refine .inr ⟨_, by simp [hA, hl, err]; rfl, ?_⟩
      intro h
      simpa [hl] using (h.1 hA).1
    | false =>
      obtain ⟨hrun, hh, hb⟩ | ⟨e, hrun, hno⟩ := checkLogon_cases msg s
      · exact .inl ⟨by simp [hA, hl, hrun], fun _ => ⟨hl, hh, hb⟩, fun h => absurd hA h⟩
      · refine .inr ⟨e, by simp [hA, hl, hrun], ?_⟩
        intro h
        exact hno (h.1 hA).2
  · cases hl : s.logonSent with
    | false =>
      refine .inr ⟨_, by simp [hA, hl, err]; rfl, ?_⟩
      intro h
      simpa [hl] using (h.2 hA).1
    | true =>
      cases hp : s.peerLogonReceived with
      | false =>
        refine .inr ⟨_, by simp [hA, hl, hp, err]; rfl, ?_⟩
        intro h
        simpa [hp] using (h.2 hA).2
      | true => exact .inl ⟨by simp [hA, hl, hp], fun h => absurd h hA, fun _ => ⟨hl, hp⟩⟩

theorem run_accept (msg : Message) (n : Nat) (now : Instant) (s : SessionState) :
    (accept msg n now).run s = match s.replay with
      | some replay => ⟨{ taken msg n now s with replay := some (replay.defer msg) }, [],
          .ok .continue⟩
      | none => (dispatchOutbound msg).run (taken msg n now s) := by
  unfold accept taken
  cases hr : s.replay <;> cases hadm : msg.isAdmin <;> simp [hr]

theorem send_spec (msg : Message) (now : Instant) (s : SessionState) :
    Sent msg now s ((send msg now).run s) := by
  unfold send
  cases hg : msg.header.get Fields.msgSeqNum with
  | error e =>
    refine .rejected ?_
    intro n hn
    cases hg.symm.trans (Block.req_eq_ok.mp hn)
  | ok number =>
    cases number with
    | none =>
      refine .rejected ?_
      intro n hn
      cases hg.symm.trans (Block.req_eq_ok.mp hn)
    | some n =>
      have hn : Carries msg n := Block.req_eq_ok.mpr hg
      -- a refusal is for a reason that `Admissible` excludes
      have hreject : ∀ e, ¬ Admissible msg s n → Sent msg now s ⟨s, [], .error (.err e)⟩ := by
        intro e hno
        refine .rejected ?_
        intro m hm
        rwa [hm.unique hn]
      simp only [ofField, Call.run_bind, Call.run_lift, Outcome.andThen_ok, Outcome.prepend_nil]
      by_cases hz : n = 0
      · simp only [hz, if_true, err, Call.run_bind, Call.run_fault, Outcome.andThen_error]
        exact hreject _ fun ha => by have := ha.pos; omega
      simp only [hz, if_false, Call.run_bind]
      obtain ⟨hrun, hex⟩ | ⟨e, hrun, hno⟩ := checkLogonExchange_cases msg s
      · by_cases hle : n ≤ s.highestAccepted
        · simp only [hrun, hle, if_true, err, Call.run_bind, Call.run_get, Call.run_fault,
            Outcome.andThen_ok, Outcome.andThen_error, Outcome.prepend_nil]
          exact hreject _ fun ha => by have := ha.beyond; omega
        · have ha : Admissible msg s n := ⟨by omega, by omega, hex.1, hex.2⟩
          simp only [hrun, hle, if_false, Call.run_bind, Call.run_get,
            Outcome.andThen_ok, Outcome.prepend_nil, run_accept msg n now s]
          cases hr : s.replay with
          | some replay => exact .deferred hn ha hr
          | none =>
            rw [run_dispatchOutbound_ok _ hn]
            exact .dispatched hn ha hr
      · simp only [hrun, Outcome.andThen_error]
        refine hreject _ fun ha => hno ⟨ha.logon, ha.established⟩

end SessionState

/-! ## `Command::Replay` -/

/-- The gap fill message over `first..=last`, if one is due. -/
def fillOut (s : SessionState) : Option (Nat × Nat) → List Effect
  | some (first, last) => transmitOut .gapFill s (s.gapFillMessage first (last + 1))
  | none => []

def filled (s : SessionState) : Option (Nat × Nat) → SessionState
  | some (first, _) => transmitted s first
  | none => s

theorem fillOut_replay (s : SessionState) (replay : Option Replay) (gap : Option (Nat × Nat)) :
    fillOut { s with replay } gap = fillOut s gap := by
  cases gap <;> rfl

theorem transmitOut_filled (origin : Origin) (s : SessionState) (replay : Option Replay)
    (gap : Option (Nat × Nat)) (msg : Message) :
    transmitOut origin (filled { s with replay } gap) msg = transmitOut origin s msg := by
  cases gap <;> rfl

/-- A gap fill whose `NewSeqNo` is still a number. -/
def Fillable (gap : Option (Nat × Nat)) : Prop :=
  ∀ first last, gap = some (first, last) → last + 1 ≤ u64Max

/-- Why a message offered for replay is refused before anything is done. -/
inductive OfferRefused (msg : Message) (s : SessionState) : Fault → Prop
  | unread {e} (h : msg.header.req Fields.msgSeqNum = .error e) :
    OfferRefused msg s (.err (.invalidMessage e.text))
  | noReplay (h : s.replay = none) :
    OfferRefused msg s (.err (.protocolViolation "No replay in progress"))
  | arithmetic {n replay f} (hn : Carries msg n)
    (h : s.replay = some replay)
    (ho : replay.offer n (SessionState.gapFilled msg) = .error f) : OfferRefused msg s f

/-- The header says when the message was first sent. -/
def Timed (header : Block) : Prop :=
  header.has Fields.origSendingTime.tag = true ∨ (header.raw Fields.sendingTime.tag).isSome = true

theorem retransmissionHeader_cases (header : Block) (n : Nat) :
    (Timed header ∧ ∃ header', SessionState.retransmissionHeader header n = .ok header') ∨
      (¬ Timed header ∧ ∃ e, SessionState.retransmissionHeader header n = .error (.err e)) := by
  unfold SessionState.retransmissionHeader Timed
  by_cases h122 : header.has Fields.origSendingTime.tag = true
  · exact .inl ⟨.inl h122, _, by rw [if_pos h122]; rfl⟩
  · rw [if_neg h122]
    unfold Block.copyValue Block.raw
    cases hf : header.find Fields.sendingTime.tag with
    | none => exact .inr ⟨by simp [h122], _, rfl⟩
    | some entry =>
      cases entry with
      | group tag instances => exact .inr ⟨by simp [h122], _, rfl⟩
      | field tag value => exact .inl ⟨by simp, _, rfl⟩

inductive Replayed (msg : Message) (s : SessionState) :
    OpOutcome Unit → Prop
  | refused {f} (h : OfferRefused msg s f) : Replayed msg s ⟨s, [], .error f⟩
  | held {n replay replay' step} (hn : Carries msg n)
    (hs : s.replay = some replay)
    (ho : replay.offer n (SessionState.gapFilled msg) = .ok (replay', step))
    (hstep : step = .skip ∨ step = .absorb) :
    Replayed msg s ⟨{ s with replay := some replay' }, [], .ok ()⟩
  | noTime {n replay replay' gap f} (hn : Carries msg n)
    (hs : s.replay = some replay)
    (ho : replay.offer n (SessionState.gapFilled msg) = .ok (replay', .retransmit gap))
    (hh : SessionState.retransmissionHeader msg.header n = .error f) :
    Replayed msg s ⟨{ s with replay := some replay' }, [], .error f⟩
  | overflow {n replay replay' gap header} (hn : Carries msg n)
    (hs : s.replay = some replay)
    (ho : replay.offer n (SessionState.gapFilled msg) = .ok (replay', .retransmit gap))
    (hh : SessionState.retransmissionHeader msg.header n = .ok header) (hg : ¬ Fillable gap) :
    Replayed msg s ⟨{ s with replay := some replay' }, [], .error .overflow⟩
  | resent {n replay replay' gap header} (hn : Carries msg n)
    (hs : s.replay = some replay)
    (ho : replay.offer n (SessionState.gapFilled msg) = .ok (replay', .retransmit gap))
    (hh : SessionState.retransmissionHeader msg.header n = .ok header) (hg : Fillable gap) :
    Replayed msg s ⟨transmitted (filled { s with replay := some replay' } gap) n,
      fillOut s gap ++ transmitOut .retransmission s { msg with header }, .ok ()⟩

theorem Replayed.frame {msg s r} (h : Replayed msg s r) :
    r.state = { s with highestSent := r.state.highestSent, replay := r.state.replay } := by
  cases h with
  | @resent n replay replay' gap header hn hs ho hh hg => cases gap <;> rfl
  | _ => rfl

theorem Carries.retransmission {msg header k n} (hn : Carries msg n)
    (h : SessionState.retransmissionHeader msg.header k = .ok header) : Carries { msg with header } n := by
  have h43 : Fields.possDupFlag.tag ≠ Fields.msgSeqNum.tag := by decide
  have h52 : Fields.sendingTime.tag ≠ Fields.msgSeqNum.tag := by decide
  have h122 : Fields.origSendingTime.tag ≠ Fields.msgSeqNum.tag := by decide
  refine (Block.req_eq_of_find ?_).trans hn
  unfold SessionState.retransmissionHeader at h
  split at h
  · cases h
    rw [Block.find_set_ne _ _ h43, Block.find_remove_ne _ h52]
  · split at h
    · rename_i copied hcopy
      cases h
      rw [Block.find_set_ne _ _ h43, Block.find_remove_ne _ h52]
      unfold Block.copyValue at hcopy
      split at hcopy
      · cases hcopy
      · cases hcopy
      · cases hcopy
        exact Block.find_place_ne _ _ h122
    · cases h

namespace SessionState

theorem gapFillMessage_msgSeqNum (s : SessionState) {first} (new : Nat) (h : first ≤ u64Max) :
    Carries (s.gapFillMessage first new) first := by
  unfold gapFillMessage
  dsimp only
  rw [Block.set_of_valid _ _ (writeUint_ne_nil _) (soh_notMem_writeUint _)]
  exact Block.req_place_self _ _ (parseUint_writeUint h)

theorem run_fillGap {gap} (s : SessionState) (hf : Fillable gap)
    (hle : ∀ first last, gap = some (first, last) → first ≤ last + 1) :
    (fillGap gap).run s = ⟨filled s gap, fillOut s gap, .ok ()⟩ := by
  cases gap with
  | none => rfl
  | some bounds =>
    obtain ⟨first, last⟩ := bounds
    have hnew := hf first last rfl
    have hfirst : first ≤ u64Max := (hle first last rfl).trans hnew
    have hn := s.gapFillMessage_msgSeqNum (last + 1) hfirst
    simp [fillGap, sendGapFill, addU64, hnew, run_transmit_ok .gapFill s hn, filled, fillOut]

theorem run_fillGap_overflow {gap} (s : SessionState) (hf : ¬ Fillable gap) :
    (fillGap gap).run s = ⟨s, [], .error .overflow⟩ := by
  cases gap with
  | none => exact absurd (by simp [Fillable]) hf
  | some bounds =>
    obtain ⟨first, last⟩ := bounds
    have hnew : ¬ last + 1 ≤ u64Max := fun h => hf (by rintro _ _ ⟨⟩; exact h)
    simp [fillGap, sendGapFill, addU64, hnew]

theorem replayMessage_spec (msg : Message) (s : SessionState) :
    Replayed msg s ((replayMessage msg).run s) := by
  unfold replayMessage
  cases hn : msg.header.req Fields.msgSeqNum with
  | error e => exact .refused (.unread hn)
  | ok n =>
    cases hs : s.replay with
    | none =>
      have hm : Replayed msg s _ := .refused (.noReplay hs)
      simpa [ofField, hs, err] using hm
    | some replay =>
      cases ho : replay.offer n (gapFilled msg) with
      | error f =>
        have hm := Replayed.refused (OfferRefused.arithmetic hn hs ho)
        simpa [ofField, hs, ho] using hm
      | ok offered =>
        obtain ⟨replay', step⟩ := offered
        simp only [ofField, Call.run_bind, Call.run_lift, Outcome.andThen_ok, Outcome.prepend_nil,
          Call.run_get, hs, ho, Call.run_modify]
        cases step with
        | skip => exact .held hn hs ho (.inl rfl)
        | absorb => exact .held hn hs ho (.inr rfl)
        | retransmit gap =>
          simp only [retransmit, Call.run_bind, Call.run_lift]
          cases hh : retransmissionHeader msg.header n with
          | error f => exact .noTime hn hs ho hh
          | ok header =>
            by_cases hg : Fillable gap
            · have hle : ∀ first last, gap = some (first, last) → first ≤ last + 1 := by
                rintro first last rfl
                generalize gapFilled msg = b at ho
                cases Replay.offer_spec ho
                omega
              have hn' := Carries.retransmission hn hh
              have hm := Replayed.resent hn hs ho hh hg
              simpa [run_fillGap _ hg hle, run_transmit_ok _ _ hn', fillOut_replay,
                transmitOut_filled] using hm
            · simp only [Call.run_bind, run_fillGap_overflow _ hg, Outcome.andThen_ok,
                Outcome.andThen_error, Outcome.prepend_nil]
              exact .overflow hn hs ho hh hg

end SessionState

/-! ## `Command::ReplayComplete` -/

/-- Sending the queued messages, stopping at one that closes the session. -/
inductive Drained : List Message → SessionState → OpOutcome Progress → Prop
  | done {s} : Drained [] s ⟨s, [], .ok .continue⟩
  | unread {msg queue s e} (hn : msg.header.req Fields.msgSeqNum = .error e) :
    Drained (msg :: queue) s ⟨s, [], .error (.err (.invalidMessage e.text))⟩
  | close {msg queue s n} (hn : Carries msg n)
    (h5 : msg.msgType = "5") :
    Drained (msg :: queue) s ⟨noted msg (transmitted s n), dispatchOut s msg, .ok .close⟩
  | next {msg queue s n r} (hn : Carries msg n)
    (h5 : msg.msgType ≠ "5") (h : Drained queue (noted msg (transmitted s n)) r) :
    Drained (msg :: queue) s (r.prepend (dispatchOut s msg))

/-- The state in which the messages held back are sent. -/
def replayEnded (s : SessionState) (gap : Option (Nat × Nat)) : SessionState :=
  { filled s gap with replay := none }

/-- What follows once the queue has been sent. -/
inductive Resumed (r : OpOutcome Progress) :
    OpOutcome Progress → Prop
  | failed {f} (hf : r.result = .error f) : Resumed r r
  | close (hr : r.result = .ok .close) : Resumed r r
  | closing {c} (hr : r.result = .ok .continue) (hc : r.state.closing = some c) : Resumed r r
  | resynchronised (hr : r.result = .ok .continue) (hc : r.state.closing = none) :
    Resumed r ⟨synced r.state, r.out ++ syncOut r.state, .ok .continue⟩

inductive Completed (s : SessionState) : OpOutcome Progress → Prop
  | noReplay (hs : s.replay = none) :
    Completed s ⟨s, [], .error (.err (.protocolViolation "No replay in progress"))⟩
  | arithmetic {replay f} (hs : s.replay = some replay) (ht : replay.trailingGapFill = .error f) :
    Completed s ⟨{ s with replay := some { replay with queue := [] } }, [], .error f⟩
  | overflow {replay gap} (hs : s.replay = some replay) (ht : replay.trailingGapFill = .ok gap)
    (hg : ¬ Fillable gap) :
    Completed s ⟨{ s with replay := some { replay with queue := [] } }, [], .error .overflow⟩
  | drained {replay gap r r'} (hs : s.replay = some replay)
    (ht : replay.trailingGapFill = .ok gap) (hg : Fillable gap)
    (hd : Drained replay.queue (replayEnded s gap) r) (hr : Resumed r r') :
    Completed s (r'.prepend (fillOut s gap))

/-- Resynchronising sends nothing, and touches the TestRequest it asks for. -/
theorem Resumed.frame {r r'} (h : Resumed r r') : r'.state = { r.state with
      recoveryTrId := r'.state.recoveryTrId
      testRequestSeq := r'.state.testRequestSeq } ∧
    transmissions r'.out = transmissions r.out := by
  cases h with
  | resynchronised hr hc => exact ⟨rfl, by simp⟩
  | _ => exact ⟨rfl, rfl⟩

theorem Drained.frame {queue s r} (h : Drained queue s r) : r.state = { s with
      highestSent := r.state.highestSent
      logonSent := r.state.logonSent
      heartbeatRequested := r.state.heartbeatRequested } := by
  induction h with
  | next hn h5 h ih =>
    rw [Outcome.prepend_state, ih]
    rfl
  | _ => rfl

theorem Replay.trailingGapFill_eq_ok {r : Replay} {gap} (h : r.trailingGapFill = .ok gap) :
    r.gapFillCount ≤ r.nextExpectedSeqNum ∧
      gap = if r.nextExpectedSeqNum - r.gapFillCount ≤ r.endSeqNo then
        some (r.nextExpectedSeqNum - r.gapFillCount, r.endSeqNo) else none := by
  obtain ⟨first, hfirst, h⟩ := bind_eq_ok h
  obtain ⟨hle, rfl⟩ := subU64_eq_ok.mp hfirst
  cases h
  exact ⟨hle, rfl⟩

namespace SessionState

theorem dispatchQueue_spec (queue : List Message) (s : SessionState) :
    Drained queue s ((dispatchQueue queue).run s) := by
  induction queue generalizing s with
  | nil => exact .done
  | cons msg queue ih =>
    unfold dispatchQueue
    rw [Call.run_bind]
    cases hn : msg.header.req Fields.msgSeqNum with
    | error e =>
      rw [run_dispatchOutbound_error s hn]
      exact .unread hn
    | ok n =>
      rw [run_dispatchOutbound_ok s hn]
      by_cases h5 : msg.msgType = "5"
      · have hm : Drained (msg :: queue) s _ := .close hn h5
        simpa [progressOf, h5] using hm
      · have hm : Drained (msg :: queue) s _ := .next hn h5 (ih _)
        simpa [progressOf, h5] using hm

theorem run_resynchronise (s : SessionState) : resynchronise.run s =
    if s.closing.isNone then ⟨synced s, syncOut s, .ok .continue⟩
    else ⟨s, [], .ok .continue⟩ := by
  cases hc : s.closing <;> simp [resynchronise, hc, run_requestSyncTestRequest]

theorem completeReplay_spec (s : SessionState) : Completed s (completeReplay.run s) := by
  unfold completeReplay
  simp only [Call.run_bind, Call.run_get, Outcome.andThen_ok, Outcome.prepend_nil]
  cases hs : s.replay with
  | none => exact .noReplay hs
  | some replay =>
    simp only [Call.run_bind, Call.run_modify, Call.run_lift, Outcome.andThen_ok,
      Outcome.prepend_nil]
    cases ht : replay.trailingGapFill with
    | error f => exact .arithmetic hs ht
    | ok gap =>
      simp only [Outcome.andThen_ok, Outcome.prepend_nil, Call.run_bind]
      by_cases hg : Fillable gap
      · have hle : ∀ first last, gap = some (first, last) → first ≤ last + 1 := by
          rintro first last rfl
          obtain ⟨-, h⟩ := Replay.trailingGapFill_eq_ok ht
          split at h
          · cases h
            omega
          · cases h
        rw [run_fillGap _ hg hle, fillOut_replay]
        have hended : ∀ queue, { filled { s with replay := some { replay with queue } } gap with
            replay := none } = replayEnded s gap := by
          cases gap <;> exact fun _ => rfl
        simp only [Outcome.andThen_ok, Call.run_modify, Call.run_bind, hended, Outcome.prepend_nil]
        have hd := dispatchQueue_spec replay.queue (replayEnded s gap)
        generalize (dispatchQueue replay.queue).run (replayEnded s gap) = r at hd
        cases hr : r.result with
        | error f =>
          have hm := Completed.drained hs ht hg hd (.failed hr)
          rw [Outcome.andThen_of_error _ hr]
          rwa [← hr]
        | ok progress =>
          rw [Outcome.andThen_of_ok _ hr]
          cases progress with
          | close =>
            have hm := Completed.drained hs ht hg hd (.close hr)
            simpa [Outcome.prepend, hr] using hm
          | «continue» =>
            simp only [run_resynchronise]
            cases hc : r.state.closing with
            | some c =>
              have hm := Completed.drained hs ht hg hd (.closing hr hc)
              simpa [Outcome.prepend, hr] using hm
            | none => exact .drained hs ht hg hd (.resynchronised hr hc)
      · rw [run_fillGap_overflow _ hg]
        exact .overflow hs ht hg

end SessionState

/-! ## `on_timeout` -/

/-- The outbound half of a timeout. -/
inductive Beat (now : Instant) (s : SessionState) : SessionState → List Effect → Prop
  | idle (h : now < s.timers.nextOut) : Beat now s s []
  | awaited (h : s.timers.nextOut ≤ now) (hb : s.heartbeatRequested = true) :
    Beat now s { s with timers := s.timers.resetOut now } []
  | requested (h : s.timers.nextOut ≤ now) (hb : s.heartbeatRequested = false) :
    Beat now s { s with timers := s.timers.resetOut now, heartbeatRequested := true }
      [.event (.adminSendRequired (s.message "0"))]

/-- The state once the peer has missed another heartbeat. -/
def missedOne (s : SessionState) (now : Instant) : SessionState :=
  { s with timers := { s.timers with
    nextIn := now + s.timers.interval, missedHeartbeats := s.timers.missedHeartbeats + 1 } }

/-- The `TestReqID` of the next TestRequest that checks a silent peer. -/
def probeId (s : SessionState) : Bytes := ascii "HB" ++ writeUint (s.testRequestSeq + 1)

/-- The inbound half of a timeout. -/
inductive Checked (now : Instant) (s : SessionState) : SessionState → List Effect → Prop
  | idle (h : now < s.timers.nextIn) : Checked now s s []
  | first (h : s.timers.nextIn ≤ now) (hm : s.timers.missedHeartbeats = 0) :
    Checked now s (missedOne s now) []
  | second (h : s.timers.nextIn ≤ now) (hm : s.timers.missedHeartbeats = 1) :
    Checked now s { missedOne s now with testRequestSeq := s.testRequestSeq + 1 }
      [.event (.adminSendRequired (s.testRequest (probeId s)))]
  | third (h : s.timers.nextIn ≤ now) (hm : 2 ≤ s.timers.missedHeartbeats)
    (hc : s.closing = none) :
    Checked now s (closed (missedOne s now) now)
      [.event (.adminSendRequired (s.logout SessionState.heartbeatTimeoutText))]

inductive TimedOut (now : Instant) (s : SessionState) :
    OpOutcome Progress → Prop
  | expired {c} (hc : s.closing = some c) (h : c ≤ now) : TimedOut now s ⟨s, [], .ok .close⟩
  | waiting {c} (hc : s.closing = some c) (h : now < c) : TimedOut now s ⟨s, [], .ok .continue⟩
  | ticked {s₁ s₂ o₁ o₂} (hc : s.closing = none) (hb : Beat now s s₁ o₁)
    (hk : Checked now s₁ s₂ o₂) : TimedOut now s ⟨s₂, o₁ ++ o₂, .ok .continue⟩

namespace SessionState

theorem timeoutOut_spec (now : Instant) (s : SessionState) :
    ∃ s' o, (timeoutOut now).run s = ⟨s', o, .ok ()⟩ ∧ Beat now s s' o ∧
      s'.closing = s.closing := by
  unfold timeoutOut
  by_cases h : s.timers.nextOut ≤ now
  · cases hb : s.heartbeatRequested with
    | true => exact ⟨_, _, by simp [h, hb], .awaited h hb, rfl⟩
    | false => exact ⟨_, _, by simp [h, hb, request, event], .requested h hb, rfl⟩
  · exact ⟨s, [], by simp [h], .idle (Nat.lt_of_not_le h), rfl⟩

theorem timeoutIn_spec (now : Instant) {s} (hc : s.closing = none) :
    ∃ s' o, (timeoutIn now).run s = ⟨s', o, .ok ()⟩ ∧ Checked now s s' o := by
  unfold timeoutIn
  by_cases h : s.timers.nextIn ≤ now
  · obtain hm | hm | hm : s.timers.missedHeartbeats = 0 ∨ s.timers.missedHeartbeats = 1 ∨
        2 ≤ s.timers.missedHeartbeats := by omega
    · refine ⟨_, _, ?_, .first h hm⟩
      simp [h, hm, missedHeartbeatsBeforeLogout, missedOne]
    · refine ⟨_, _, ?_, .second h hm⟩
      simp [h, hm, nextTestRequestId, request, event, missedOne, probeId]
    · have hne : s.timers.missedHeartbeats ≠ 1 := by omega
      have hge : missedHeartbeatsBeforeLogout ≤ s.timers.missedHeartbeats + 1 := by
        unfold missedHeartbeatsBeforeLogout; omega
      refine ⟨_, _, ?_, .third h hm hc⟩
      simp [h, hne, hge, run_requestLogout, hc, missedOne, logout, message]
  · exact ⟨s, [], by simp [h], .idle (Nat.lt_of_not_le h)⟩

theorem onTimeout_spec (now : Instant) (s : SessionState) :
    TimedOut now s ((onTimeout now).run s) := by
  unfold onTimeout
  cases hc : s.closing with
  | some c =>
    simp only [Call.run_bind, Call.run_get, Outcome.andThen_ok, Outcome.prepend_nil, hc,
      Call.run_ite, Call.run_pure]
    split
    · exact .expired hc ‹_›
    · exact .waiting hc (Nat.lt_of_not_le ‹_›)
  | none =>
    obtain ⟨s₁, o₁, hrun, hb, hc₁⟩ := timeoutOut_spec now s
    obtain ⟨s₂, o₂, hrun₂, hk⟩ := timeoutIn_spec now (hc₁.trans hc)
    have hm := TimedOut.ticked hc hb hk
    simpa [hc, hrun, hrun₂] using hm

end SessionState

/-! ## What they write -/

/-- What commands and timeouts write: messages, admin requests, and that the
session logged on. -/
inductive Outward : Effect → Prop
  | transmit {origin u} : Outward (.transmit origin u)
  | sent {msg} : Outward (.event (.rawMessageSent msg))
  | request {msg} : Outward (.event (.adminSendRequired msg))
  | loggedOn : Outward (.event .loggedOn)

theorem filterMap_outward {α : Type} {f : Effect → Option α} (hf : ∀ e, Outward e → f e = none)
    {o : List Effect} (h : ∀ e ∈ o, Outward e) : o.filterMap f = [] := by
  rw [List.filterMap_eq_nil_iff]
  intro e he
  exact hf e (h e he)

theorem outward_append {o o' : List Effect} (h : ∀ e ∈ o, Outward e) (h' : ∀ e ∈ o', Outward e) :
    ∀ e ∈ o ++ o', Outward e := by
  intro e he
  obtain he | he := List.mem_append.mp he
  · exact h e he
  · exact h' e he

theorem transmitOut_outward (origin : Origin) (s : SessionState) (msg : Message) :
    ∀ e ∈ transmitOut origin s msg, Outward e := by
  simp only [transmitOut, List.mem_cons, List.not_mem_nil, or_false]
  rintro e (rfl | rfl)
  · exact .transmit
  · exact .sent

theorem dispatchOut_outward (s : SessionState) (msg : Message) :
    ∀ e ∈ dispatchOut s msg, Outward e := by
  refine outward_append (transmitOut_outward .fresh s msg) ?_
  intro e he
  unfold loggedOnOut at he
  split at he
  · rw [List.mem_singleton.mp he]
    exact .loggedOn
  · cases he

theorem fillOut_outward (s : SessionState) (gap : Option (Nat × Nat)) :
    ∀ e ∈ fillOut s gap, Outward e := by
  cases gap with
  | none => intro e he; cases he
  | some bounds => exact transmitOut_outward .gapFill s _

theorem Sent.outward {msg now s r} (h : Sent msg now s r) : ∀ e ∈ r.out, Outward e := by
  cases h with
  | dispatched hn ha hr => exact dispatchOut_outward s msg
  | _ => intro e he; cases he

theorem Replayed.outward {msg s r} (h : Replayed msg s r) : ∀ e ∈ r.out, Outward e := by
  cases h with
  | resent hn hs ho hh hg =>
    exact outward_append (fillOut_outward s _) (transmitOut_outward .retransmission s _)
  | _ => intro e he; cases he

theorem Drained.outward {queue s r} (h : Drained queue s r) : ∀ e ∈ r.out, Outward e := by
  induction h with
  | @close msg queue s n hn h5 => exact dispatchOut_outward s msg
  | @next msg queue s n r hn h5 h ih => exact outward_append (dispatchOut_outward s msg) ih
  | _ => intro e he; cases he

theorem Completed.outward {s r} (h : Completed s r) : ∀ e ∈ r.out, Outward e := by
  cases h with
  | drained hs ht hg hd hr =>
    refine outward_append (fillOut_outward s _) ?_
    cases hr with
    | resynchronised hr hc =>
      refine outward_append hd.outward ?_
      intro e he
      rw [List.mem_singleton.mp he]
      exact .request
    | _ => exact hd.outward
  | _ => intro e he; cases he

theorem TimedOut.outward {now s r} (h : TimedOut now s r) : ∀ e ∈ r.out, Outward e := by
  have hone : ∀ msg, ∀ e ∈ [Effect.event (.adminSendRequired msg)], Outward e := by
    intro msg e he
    rw [List.mem_singleton.mp he]
    exact .request
  have hnil : ∀ e ∈ ([] : List Effect), Outward e := fun e he => by cases he
  cases h with
  | ticked hc hb hk =>
    refine outward_append ?_ ?_
    · cases hb with
      | requested h hb => exact hone _
      | _ => exact hnil
    · cases hk with
      | second h hm => exact hone _
      | third h hm hc => exact hone _
      | _ => exact hnil
  | _ => exact hnil

end Babelfix.Session
