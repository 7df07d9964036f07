import Babelfix.Session.Order
import Babelfix.Session.Arithmetic

/-! # Commands that are refused

`Command::Send` makes all its checks before it does anything. The replay commands put
off the next heartbeat first, and `Command::Replay` has accounted for the message by the
time it looks for the time it was sent. -/
namespace Babelfix.Session
open Lib

/-- The call returned an error. -/
def Refused {α : Type} (r : OpOutcome α) : Prop :=
  ∃ e, r.result = .error (.err e)

/-- The call changed and wrote nothing. -/
def Untouched {α : Type} (s : SessionState) (r : OpOutcome α) : Prop :=
  r.state = s ∧ r.out = []

variable {α : Type}

theorem not_refused_ok (s : SessionState) (o : List Effect) (a : α) :
    ¬ Refused ⟨s, o, .ok a⟩ := by
  rintro ⟨e, he⟩
  cases he

theorem not_refused_overflow (s : SessionState) (o : List Effect) :
    ¬ Refused (⟨s, o, .error .overflow⟩ : OpOutcome α) := by
  rintro ⟨e, he⟩
  cases he

/-! ## `Command::Send` -/

/-- Why a message is not sent. -/
inductive SendRefused (msg : Message) (s : SessionState) : Prop
  | missing (h : msg.header.get Fields.msgSeqNum = .ok none)
  | malformed {e} (h : msg.header.get Fields.msgSeqNum = .error e)
  | zero (h : msg.header.get Fields.msgSeqNum = .ok (some 0))
  | notBeyond {n} (h : msg.header.get Fields.msgSeqNum = .ok (some n))
    (hle : n ≤ s.highestAccepted)
  | secondLogon (hA : msg.msgType = "A") (h : s.logonSent = true)
  | heartBtIntMissing (hA : msg.msgType = "A") (h : msg.body.get Fields.heartBtInt = .ok none)
  | heartBtIntMalformed {e} (hA : msg.msgType = "A") (h : msg.body.get Fields.heartBtInt = .error e)
  | otherHeartBtInt {secs} (hA : msg.msgType = "A")
    (h : msg.body.get Fields.heartBtInt = .ok (some secs))
    (hne : secs ≠ ((s.config.heartbeatInterval / nanosPerSec : Nat) : Int))
  | otherBeginString (hA : msg.msgType = "A") (h : msg.beginString ≠ s.sessionId.beginString)
  | beforeOurLogon (hA : msg.msgType ≠ "A") (h : s.logonSent = false)
  | beforePeerLogon (hA : msg.msgType ≠ "A") (h : s.peerLogonReceived = false)

variable {msg : Message} {s : SessionState} {n : Nat}

theorem SendRefused.not_admissible (h : SendRefused msg s)
    (hn : msg.header.get Fields.msgSeqNum = .ok (some n)) : ¬ Admissible msg s n := by
  intro ha
  cases h with
  | missing h | malformed h => simp [h] at hn
  | zero h =>
    have hz : 0 = n := by simpa [h] using hn
    have := ha.pos
    omega
  | @notBeyond m h hle =>
    have hm : m = n := by simpa [h] using hn
    have := ha.beyond
    omega
  | secondLogon hA h => simpa [h] using (ha.logon hA).1
  | heartBtIntMissing hA h | heartBtIntMalformed hA h => simpa [h] using (ha.logon hA).2.1
  | otherHeartBtInt hA h hne =>
    have hsecs := (ha.logon hA).2.1
    rw [h] at hsecs
    exact hne (by simpa using hsecs)
  | otherBeginString hA h => exact h (ha.logon hA).2.2
  | beforeOurLogon hA h => simpa [h] using (ha.established hA).1
  | beforePeerLogon hA h => simpa [h] using (ha.established hA).2

theorem admissible_of_not_refused (h : ¬ SendRefused msg s) :
    ∃ n, msg.header.get Fields.msgSeqNum = .ok (some n) ∧ Admissible msg s n := by
  cases hg : msg.header.get Fields.msgSeqNum with
  | error e => exact absurd (.malformed hg) h
  | ok number =>
    cases number with
    | none => exact absurd (.missing hg) h
    | some n =>
      refine ⟨n, rfl, ?_, ?_, ?_, ?_⟩
      · by_contra hz
        have hzero : n = 0 := by omega
        rw [hzero] at hg
        exact h (.zero hg)
      · by_contra hle
        exact h (.notBeyond hg (by omega))
      · intro hA
        refine ⟨?_, ?_, ?_⟩
        · by_contra hl
          exact h (.secondLogon hA (by simpa using hl))
        · cases hh : msg.body.get Fields.heartBtInt with
          | error e => exact absurd (.heartBtIntMalformed hA hh) h
          | ok secs =>
            cases secs with
            | none => exact absurd (.heartBtIntMissing hA hh) h
            | some secs =>
              by_contra hne
              exact h (.otherHeartBtInt hA hh fun heq => hne (by rw [heq]))
        · by_contra hb
          exact h (.otherBeginString hA hb)
      · intro hA
        refine ⟨?_, ?_⟩
        · by_contra hl
          exact h (.beforeOurLogon hA (by simpa using hl))
        · by_contra hp
          exact h (.beforePeerLogon hA (by simpa using hp))

/-- The message has been taken under its number, and gone out or joined the queue of the
replay that is running. -/
def SentOrQueued (msg : Message) (s : SessionState)
    (r : OpOutcome Progress) : Prop :=
  msg.header.get Fields.msgSeqNum = .ok (some r.state.highestAccepted) ∧
    ((s.replay = none ∧ r.state.replay = none ∧
        transmissions r.out = [(.fresh, s.onWire msg)]) ∨
      ∃ replay, s.replay = some replay ∧
        r.state.replay = some { replay with queue := replay.queue ++ [msg] } ∧ r.out = [])

variable {now : Instant} {r : OpOutcome Progress}

theorem Sent.untouched (h : Sent msg now s r) (hr : Refused r) :
    Untouched s r := by
  cases h with
  | rejected h => exact ⟨rfl, rfl⟩
  | _ => exact absurd hr (not_refused_ok _ _ _)

/-- **Send is all or nothing.** A message is refused for the reasons of `SendRefused` and
no other, and then nothing is changed or written; otherwise it is taken, and sent once or
queued. -/
theorem send_all_or_nothing (msg : Message) (now : Instant) (s : SessionState) :
    let r := (SessionState.onCommand (.send msg) now).run s
    (Refused r ↔ SendRefused msg s) ∧ (Refused r → Untouched s r) ∧
      (¬ Refused r → (∃ p, r.result = .ok p) ∧ SentOrQueued msg s r) := by
  intro r
  have hsent : Sent msg now s r := SessionState.send_spec msg now s
  generalize r = r at hsent
  refine ⟨?_, hsent.untouched, ?_⟩
  · cases hsent with
    | rejected h =>
      refine ⟨fun _ => ?_, fun _ => ⟨_, rfl⟩⟩
      by_contra hno
      obtain ⟨n, hn, ha⟩ := admissible_of_not_refused hno
      exact h n (Block.req_eq_ok.mpr hn) ha
    | deferred hn ha hr | dispatched hn ha hr =>
      exact ⟨fun h => absurd h (not_refused_ok _ _ _),
        fun h => absurd ha (h.not_admissible (Block.req_eq_ok.mp hn))⟩
  · intro hno
    cases hsent with
    | rejected h => exact absurd ⟨_, rfl⟩ hno
    | deferred hn ha hr =>
      exact ⟨⟨_, rfl⟩, Block.req_eq_ok.mp hn, .inr ⟨_, hr, rfl, rfl⟩⟩
    | dispatched hn ha hr =>
      exact ⟨⟨_, rfl⟩, Block.req_eq_ok.mp hn, .inl ⟨hr, hr, transmissions_dispatchOut s msg⟩⟩

/-! ## The replay commands -/

/-- The outbound heartbeat is due when a command given at `now` puts it. -/
def PutOff (now : Instant) (s : SessionState) : Prop :=
  s.timers.nextOut = now + s.timers.interval

/-- Every message up to the first Logout has a number. -/
def Numbered : List Message → Prop
  | [] => True
  | msg :: rest =>
    (∃ n, Carries msg n) ∧ (msg.msgType ≠ "5" → Numbered rest)

/-- Nothing stands in the way of a command, or it is refused when the heartbeat timer is
where the command puts it. -/
def Excused (now : Instant) (s : SessionState) : Command → Prop
  | .replay msg =>
    -- refused before the replay is touched
    ((s.replay = none ∨ ∃ e, msg.header.req Fields.msgSeqNum = .error e) → PutOff now s) ∧
      -- refused once it has been
      ∀ n replay replay' gap, Carries msg n → s.replay = some replay →
        replay.offer n (SessionState.gapFilled msg) = .ok (replay', .retransmit gap) →
        Timed msg.header
  | .replayComplete =>
    (s.replay = none → PutOff now s) ∧
      ∀ replay gap, s.replay = some replay → replay.trailingGapFill = .ok gap → Fillable gap →
        Numbered replay.queue
  | .send _ | .disconnect => True

theorem outReset_eq_iff :
    outReset s now = s ↔ PutOff now s := by
  constructor
  · intro h
    exact (congrArg (fun s => s.timers.nextOut) h).symm
  · intro h
    have ht : s.timers.resetOut now = s.timers := by
      rw [Timers.resetOut, ← show s.timers.nextOut = now + s.timers.interval from h]
    rw [outReset, ht]

/-- All that can go wrong in a computation is its arithmetic. -/
def OnlyOverflows {α : Type} (x : Except Fault α) : Prop := ∀ f, x = .error f → f = .overflow

theorem onlyOverflows_ok (a : α) : OnlyOverflows (.ok a) := by
  intro f h
  cases h

theorem OnlyOverflows.bind {β : Type} {x} {g : α → Except Fault β} (hx : OnlyOverflows x)
    (hg : ∀ a, OnlyOverflows (g a)) : OnlyOverflows (x >>= g) := by
  intro f h
  cases x with
  | error f' =>
    cases h
    exact hx _ rfl
  | ok a => exact hg a f h

theorem onlyOverflows_subU64 (a b : Nat) : OnlyOverflows (subU64 a b) := by
  unfold subU64
  split
  · exact onlyOverflows_ok _
  · intro f h
    cases h
    rfl

theorem onlyOverflows_addU64 (a b : Nat) : OnlyOverflows (addU64 a b) := by
  unfold addU64
  split
  · exact onlyOverflows_ok _
  · intro f h
    cases h
    rfl

theorem Replay.onlyOverflows_offer (r : Replay) (n : Nat) (b : Bool) :
    OnlyOverflows (r.offer n b) := by
  unfold Replay.offer
  split
  · exact onlyOverflows_ok _
  split
  · exact onlyOverflows_ok _
  refine (onlyOverflows_subU64 _ _).bind fun _ => (onlyOverflows_addU64 _ _).bind fun _ =>
    (onlyOverflows_addU64 _ _).bind fun _ => ?_
  split
  · exact (onlyOverflows_addU64 _ _).bind fun _ => onlyOverflows_ok _
  split
  · exact (onlyOverflows_subU64 _ _).bind fun _ => (onlyOverflows_subU64 _ _).bind fun _ =>
      (onlyOverflows_subU64 _ _).bind fun _ => onlyOverflows_ok _
  · exact onlyOverflows_ok _

theorem Replay.onlyOverflows_trailingGapFill (r : Replay) : OnlyOverflows r.trailingGapFill :=
  (onlyOverflows_subU64 _ _).bind fun _ => onlyOverflows_ok _

theorem timed_of_header {header header'}
    (h : SessionState.retransmissionHeader header n = .ok header') : Timed header := by
  obtain ⟨htimed, -⟩ | ⟨-, e, he⟩ := retransmissionHeader_cases header n
  · exact htimed
  · rw [he] at h
    cases h

theorem Replay.ne_of_retransmit {r r' : Replay} {b gap}
    (h : r.offer n b = .ok (r', .retransmit gap)) : r' ≠ r := by
  intro heq
  have hnext := congrArg Replay.nextExpectedSeqNum heq
  cases offer_spec h with
  | _ =>
    have : n + 1 = r.nextExpectedSeqNum := hnext
    omega

/-- A message the replay can be offered is excused unless it is to be retransmitted and has
no time. -/
theorem excused_of_offered {replay} (hn : Carries msg n)
    (hs : s.replay = some replay) (htimed : ∀ replay' gap,
      replay.offer n (SessionState.gapFilled msg) = .ok (replay', .retransmit gap) →
        Timed msg.header) : Excused now s (.replay msg) := by
  refine ⟨?_, ?_⟩
  · intro hno
    rcases hno with hnone | ⟨e, he⟩
    · rw [hs] at hnone
      cases hnone
    · rw [hn] at he
      cases he
  · intro n' replay' replay'' gap hn' hs' ho
    rw [hs] at hs'
    cases hn'.unique hn
    cases hs'
    exact htimed _ _ ho

/-- `Command::Replay`, once the heartbeat has been put off. -/
theorem Replayed.untouched_iff {r} (h : Replayed msg (outReset s now) r) :
    (Refused r → Untouched s r) ↔ Excused now s (.replay msg) := by
  cases h with
  | refused hr =>
    cases hr with
    | unread hn =>
      constructor
      · intro hsame
        obtain ⟨hs, -⟩ := hsame ⟨_, rfl⟩
        refine ⟨fun _ => outReset_eq_iff.mp hs, ?_⟩
        intro n replay replay' gap hok
        cases hn.symm.trans hok
      · intro hex _
        exact ⟨outReset_eq_iff.mpr (hex.1 (.inr ⟨_, hn⟩)), rfl⟩
    | noReplay hnone =>
      constructor
      · intro hsame
        obtain ⟨hs, -⟩ := hsame ⟨_, rfl⟩
        refine ⟨fun _ => outReset_eq_iff.mp hs, ?_⟩
        intro n replay replay' gap _ hsome
        rw [show s.replay = none from hnone] at hsome
        cases hsome
      · intro hex _
        exact ⟨outReset_eq_iff.mpr (hex.1 (.inl hnone)), rfl⟩
    | arithmetic hn hs ho =>
      have hf := Replay.onlyOverflows_offer _ _ _ _ ho
      subst hf
      refine ⟨fun _ => excused_of_offered hn hs ?_, fun _ h => absurd h (not_refused_overflow _ _)⟩
      intro replay' gap h
      rw [ho] at h
      cases h
  | @held n replay replay' step hn hs ho hstep =>
    refine ⟨fun _ => excused_of_offered hn hs ?_, fun _ h => absurd h (not_refused_ok _ _ _)⟩
    intro replay'' gap ho'
    rw [ho] at ho'
    cases ho'
    rcases hstep with h | h <;> cases h
  | @noTime n replay replay' gap f hn hs ho hh =>
    obtain ⟨-, header', hok⟩ | ⟨hno, e, he⟩ := retransmissionHeader_cases msg.header n
    · rw [hok] at hh
      cases hh
    rw [he] at hh
    cases hh
    constructor
    · intro hsame
      -- the replay has moved past the message
      have hstate := congrArg SessionState.replay (hsame ⟨e, rfl⟩).1
      rw [show s.replay = some replay from hs] at hstate
      exact absurd (Option.some.inj hstate) (Replay.ne_of_retransmit ho)
    · intro hex
      exact absurd (hex.2 n replay replay' gap hn hs ho) hno
  | overflow hn hs ho hh hg =>
    exact ⟨fun _ => excused_of_offered hn hs fun _ _ _ => timed_of_header hh,
      fun _ h => absurd h (not_refused_overflow _ _)⟩
  | resent hn hs ho hh hg =>
    exact ⟨fun _ => excused_of_offered hn hs fun _ _ _ => timed_of_header hh,
      fun _ h => absurd h (not_refused_ok _ _ _)⟩

/-- Sending the queue fails exactly if a message up to the first Logout has no number. -/
theorem Drained.refused_iff {queue} (h : Drained queue s r) : Refused r ↔ ¬ Numbered queue := by
  induction h with
  | done => exact ⟨fun h => absurd h (not_refused_ok _ _ _), fun h => absurd trivial h⟩
  | unread hn =>
    refine ⟨?_, fun _ => ⟨_, rfl⟩⟩
    rintro - ⟨⟨n, hok⟩, -⟩
    cases hn.symm.trans hok
  | close hn h5 =>
    exact ⟨fun h => absurd h (not_refused_ok _ _ _),
      fun hno => absurd ⟨⟨_, hn⟩, fun hne => absurd h5 hne⟩ hno⟩
  | next hn h5 h ih =>
    refine ih.trans (not_congr ⟨fun hrest => ⟨⟨_, hn⟩, fun _ => hrest⟩, fun hall => hall.2 h5⟩)

/-- A replay whose end is not reached for its arithmetic is excused. -/
theorem excused_of_unfillable {replay} (hs : s.replay = some replay)
    (hno : ∀ gap, replay.trailingGapFill = .ok gap → ¬ Fillable gap) :
    Excused now s .replayComplete := by
  refine ⟨?_, ?_⟩
  · intro hnone
    rw [hs] at hnone
    cases hnone
  · intro replay' gap hs' ht hg
    rw [hs] at hs'
    cases hs'
    exact absurd hg (hno gap ht)

/-- `Command::ReplayComplete`, once the heartbeat has been put off. -/
theorem Completed.untouched_iff (h : Completed (outReset s now) r) :
    (Refused r → Untouched s r) ↔ Excused now s .replayComplete := by
  cases h with
  | noReplay hnone =>
    constructor
    · intro hsame
      refine ⟨fun _ => outReset_eq_iff.mp (hsame ⟨_, rfl⟩).1, ?_⟩
      intro replay gap hsome
      rw [show s.replay = none from hnone] at hsome
      cases hsome
    · intro hex _
      exact ⟨outReset_eq_iff.mpr (hex.1 hnone), rfl⟩
  | arithmetic hs ht =>
    have hf := Replay.onlyOverflows_trailingGapFill _ _ ht
    subst hf
    refine ⟨fun _ => excused_of_unfillable hs ?_, fun _ h => absurd h (not_refused_overflow _ _)⟩
    intro gap hok
    rw [ht] at hok
    cases hok
  | overflow hs ht hg =>
    refine ⟨fun _ => excused_of_unfillable hs ?_, fun _ h => absurd h (not_refused_overflow _ _)⟩
    intro gap hok
    rw [ht] at hok
    cases hok
    exact hg
  | @drained replay gap r r' hs ht hg hd hr =>
    have hs : s.replay = some replay := hs
    have hrefused : Refused (r'.prepend (fillOut (outReset s now) gap)) ↔ Refused r := by
      cases hr with
      | resynchronised hok hc =>
        refine ⟨fun h => absurd h (not_refused_ok _ _ _), ?_⟩
        rintro ⟨e, he⟩
        rw [hok] at he
        cases he
      | _ => exact Iff.rfl
    rw [hrefused, hd.refused_iff]
    constructor
    · intro hsame
      refine ⟨?_, ?_⟩
      · intro hnone
        rw [hs] at hnone
        cases hnone
      · intro replay' gap' hs' ht' hg'
        rw [hs] at hs'
        cases hs'
        by_contra hno
        -- the replay is over, and the queue lost
        have hstate : r'.state.replay = s.replay := congrArg SessionState.replay (hsame hno).1
        rw [hr.frame.1, hd.frame, hs] at hstate
        cases hstate
    · intro hex hno
      exact absurd (hex.2 replay gap hs ht hg) hno

/-- **When a refused command leaves no trace.** A refused Send leaves none, and Disconnect
is not refused. A replay command leaves none exactly if it is not refused once the replay
has been touched, and when it is refused before, the instant is one at which putting off
the heartbeat changes nothing. -/
theorem refused_untouched_iff (cmd : Command) (now : Instant) (s : SessionState) :
    (Refused ((SessionState.onCommand cmd now).run s) →
      Untouched s ((SessionState.onCommand cmd now).run s)) ↔ Excused now s cmd := by
  cases cmd with
  | send msg => exact ⟨fun _ => trivial, fun _ => (SessionState.send_spec msg now s).untouched⟩
  | disconnect =>
    refine ⟨fun _ => trivial, fun _ hr => ?_⟩
    have hstep := step_spec (.command .disconnect now) s
    rw [show (SessionState.onCommand .disconnect now).run s =
      (Input.command .disconnect now).call.run s from rfl] at hr
    generalize (Input.command .disconnect now).call.run s = r at hstep hr
    cases hstep with
    | disconnect hc => exact absurd hr (not_refused_ok _ _ _)
    | disconnectAgain hc => exact absurd hr (not_refused_ok _ _ _)
  | replay msg =>
    rw [← (SessionState.replayMessage_spec msg (outReset s now)).untouched_iff]
    have hrun : (SessionState.onCommand (.replay msg) now).run s =
        ((SessionState.replayMessage msg).run (outReset s now)).andThen
          fun _ => return .continue := rfl
    rw [hrun]
    generalize (SessionState.replayMessage msg).run (outReset s now) = r
    cases hr : r.result with
    | error f =>
      rw [Outcome.andThen_of_error _ hr]
      simp [Refused, Untouched, hr]
    | ok u =>
      rw [Outcome.andThen_of_ok _ hr]
      simp [Refused, hr]
  | replayComplete => exact (SessionState.completeReplay_spec (outReset s now)).untouched_iff

/-! ## A message without its time -/

/-- Our Logon and an order have been sent, and the peer asks for both. -/
def Sample.asked : List Input :=
  [.start (Sample.numbered "A" 1) 0, .command (.send Sample.logon) 0,
    .command (.send (Sample.numbered "D" 2)) 0,
    .message { Sample.numbered "2" 2 with body := [.field 7 (ascii "1"), .field 16 (ascii "0")] } 0]

/-- The order is refused for want of a `SendingTime`, but the replay has moved past it and
nothing is owed any more: completing the replay covers neither 1 nor 2. And without a
replay, a refused command still puts off the heartbeat. -/
theorem refused_moves_on :
    let s := final Input.call Sample.session Sample.asked
    let r := (SessionState.onCommand (.replay (Sample.numbered "D" 2)) 0).run s
    let late := (SessionState.onCommand .replayComplete 1).run Sample.session
    (Refused r ∧ s.replay = some ⟨1, 2, 1, 0, []⟩ ∧ r.state.replay = some ⟨1, 2, 3, 0, []⟩ ∧
      transmissions ((SessionState.onCommand .replayComplete 0).run r.state).out = []) ∧
    Refused late ∧ late.state.timers.nextOut = Sample.session.timers.nextOut + 1 := by
  refine ⟨⟨⟨.protocolViolation
    "Replayed message 2 has neither OrigSendingTime nor SendingTime", ?_⟩, ?_, ?_, ?_⟩,
    ⟨.protocolViolation "No replay in progress", rfl⟩, rfl⟩
  all_goals decide +kernel

end Babelfix.Session
