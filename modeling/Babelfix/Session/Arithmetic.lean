import Babelfix.Session.Run

/-! # Sequence number arithmetic

The peer chooses `MsgSeqNum` and `EndSeqNo`, and the application the numbers it sends
under. The largest `u64` in any of these places overflows an addition, at once or some
calls later; nothing else does. -/
namespace Babelfix.Session
open Lib

/-- No number of the call is the largest there is: the `MsgSeqNum` and `EndSeqNo` of an
inbound message, the `MsgSeqNum` of a message to send. -/
def Input.Bounded : Input → Prop
  | .start msg _ | .message msg _ =>
    (∀ n, Carries msg n → n < u64Max) ∧
      ∀ last, msg.body.req Fields.endSeqNo = .ok last → last < u64Max
  | .command (.send msg) _ => ∀ n, Carries msg n → n < u64Max
  | _ => True

/-- A replay none of whose counters can overflow. -/
structure Replay.Counts (r : Replay) : Prop where
  last : r.endSeqNo < u64Max
  owed : r.gapFillCount ≤ r.nextExpectedSeqNum
  queue : ∀ msg ∈ r.queue, ∀ n, Carries msg n → n < u64Max

/-- A session whose counters leave room for one more. -/
structure InRange (s : SessionState) : Prop where
  sent : s.highestSent < u64Max
  replay : ∀ r, s.replay = some r → r.Counts

/-! ## Replays -/

theorem Replay.counts_start {first last nextOut r} (h : Replay.start first last nextOut = .ok r)
    (hlast : last < u64Max) (hout : nextOut - 1 < u64Max) : r.Counts := by
  obtain ⟨-, -, rfl⟩ := Replay.start_eq_ok h
  refine ⟨?_, Nat.zero_le _, by simp⟩
  split
  · exact hlast
  · exact hout

theorem Replay.Counts.after {r r' : Replay} {n b step} (h : r.Counts)
    (ho : r.offer n b = .ok (r', step)) :
    r'.Counts ∧ ∀ gap, step = .retransmit gap → n < u64Max ∧ Fillable gap ∧
      ∀ first last, gap = some (first, last) → first < u64Max := by
  obtain ⟨hlast, howed, hqueue⟩ := h
  have hspec := Replay.offer_spec ho
  cases hspec with
  | skip => exact ⟨⟨hlast, howed, hqueue⟩, by simp⟩
  | absorb hlo hhi =>
    refine ⟨⟨hlast, ?_, hqueue⟩, by simp⟩
    show r.owed n + 1 ≤ n + 1
    unfold Replay.owed
    omega
  | plain hlo hhi _ =>
    refine ⟨⟨hlast, Nat.zero_le _, hqueue⟩, ?_⟩
    rintro gap hgap
    cases hgap
    exact ⟨by omega, by simp [Fillable], by simp⟩
  | fill hlo hhi hpos hle =>
    refine ⟨⟨hlast, Nat.zero_le _, hqueue⟩, ?_⟩
    rintro gap hgap
    cases hgap
    refine ⟨by omega, ?_, ?_⟩
    · rintro first last hfl
      cases hfl
      omega
    · rintro first last hfl
      cases hfl
      omega

theorem Replay.Counts.trailing {r : Replay} (h : r.Counts) :
    ∃ gap, r.trailingGapFill = .ok gap ∧ Fillable gap ∧
      ∀ first last, gap = some (first, last) → first < u64Max := by
  obtain ⟨hlast, howed, -⟩ := h
  have hsub : subU64 r.nextExpectedSeqNum r.gapFillCount =
      .ok (r.nextExpectedSeqNum - r.gapFillCount) := subU64_eq_ok.mpr ⟨howed, rfl⟩
  refine ⟨_, by simp only [Replay.trailingGapFill, hsub, bind, Except.bind]; rfl, ?_, ?_⟩
  · intro first last hgap
    split at hgap
    · cases hgap
      exact hlast
    · cases hgap
  · intro first last hgap
    split at hgap
    · rename_i hle
      cases hgap
      omega
    · cases hgap

/-! ## One call -/

theorem ofField_ne_overflow {α : Type} (x : Except FieldError α) : ofField x ≠ .error .overflow := by
  cases x <;> simp [ofField]

theorem gapFillNewSeqNum_ne_overflow (msg : Message) :
    SessionState.gapFillNewSeqNum msg ≠ .error .overflow := by
  unfold SessionState.gapFillNewSeqNum
  cases msg.body.get Fields.gapFillFlag with
  | error e => simp [ofField, bind, Except.bind]
  | ok flag =>
    simp only [ofField, bind, Except.bind]
    split
    · simp [throw, throwThe, MonadExceptOf.throw]
    · exact ofField_ne_overflow _

theorem retransmissionHeader_ne_overflow (header : Block) (n : Nat) :
    SessionState.retransmissionHeader header n ≠ .error .overflow := by
  unfold SessionState.retransmissionHeader
  split
  · simp [bind, Except.bind, pure, Except.pure]
  · split
    · simp [bind, Except.bind, pure, Except.pure]
    · simp [bind, Except.bind, throw, throwThe, MonadExceptOf.throw]

theorem Replay.start_ne_overflow (first last nextOut : Nat) :
    Replay.start first last nextOut ≠ .error .overflow := by
  unfold Replay.start
  split
  · simp
  · split <;> simp

variable {r : OpOutcome Progress} {msg : Message} {now : Instant}
variable {s : SessionState}

theorem Dispatched.ne_overflow {inSequence} (h : Dispatched msg inSequence now s r)
    (hs : s.highestSent < u64Max) : r.result ≠ .error .overflow := by
  cases h with
  | refused h2 hf =>
    intro heq
    cases heq
    cases hf with
    | overflow hmax => omega
    | badRange hb he hstart => exact Replay.start_ne_overflow _ _ _ hstart
  | _ => simp

theorem Handled.ne_overflow (h : Handled msg now s r) (hs : s.highestSent < u64Max)
    (hnum : ∀ n, Carries msg n → n < u64Max) :
    r.result ≠ .error .overflow := by
  cases h with
  | garbage h4 hf =>
    intro heq
    cases heq
    exact gapFillNewSeqNum_ne_overflow msg hf
  | gapResend hn hlt h2 hd => exact hd.ne_overflow (by rw [gapState_highestSent]; exact hs)
  | overflow hn h4 hmax =>
    have hlt := hnum _ hn
    omega
  | failed hn hnext hd hf => exact hd.ne_overflow hs
  | accepted hn hnext hd hok => simp [hok]
  | _ => simp

theorem Started.ne_overflow {logon} (h : Started logon now s r) (hs : s.highestSent < u64Max)
    (hnum : ∀ n, Carries logon n → n < u64Max) :
    r.result ≠ .error .overflow := by
  cases h with
  | failed h hf => exact h.ne_overflow hs hnum
  | _ => simp

theorem Received.ne_overflow (h : Received msg now s r) (hs : s.highestSent < u64Max)
    (hnum : ∀ n, Carries msg n → n < u64Max) :
    r.result ≠ .error .overflow := by
  cases h with
  | ignored hc => simp
  | handled hc h => exact h.ne_overflow hs hnum

theorem Outbound.inRange {s' o} (ho : Outbound msg s s' o) (h : InRange s)
    (hlast : ∀ last, msg.body.req Fields.endSeqNo = .ok last → last < u64Max) : InRange s' := by
  obtain ⟨hsame, hreplay, -⟩ := ho
  refine ⟨hsame.highestSent ▸ h.sent, ?_⟩
  cases hreplay with
  | same hr =>
    rw [hr]
    exact h.replay
  | started h2 hb he hs hstart hr =>
    intro r hr'
    rw [hr] at hr'
    cases hr'
    exact Replay.counts_start hstart (hlast _ he) h.sent

theorem InRange.transmitted (h : InRange s) {n : Nat} (hn : n < u64Max) :
    InRange (transmitted s n) := ⟨max_lt h.sent hn, h.replay⟩

theorem Sent.inRange (hsent : Sent msg now s r) (h : InRange s)
    (hnum : ∀ n, Carries msg n → n < u64Max) :
    InRange r.state ∧ r.result ≠ .error .overflow := by
  cases hsent with
  | rejected _ => exact ⟨h, by simp⟩
  | @deferred n replay hn ha hr =>
    refine ⟨⟨h.sent, ?_⟩, by simp⟩
    intro r' hr'
    cases hr'
    obtain ⟨hlast, howed, hqueue⟩ := h.replay replay hr
    refine ⟨hlast, howed, ?_⟩
    intro m hm
    rcases List.mem_append.mp hm with hm | hm
    · exact hqueue m hm
    · rw [List.mem_singleton.mp hm]
      exact hnum
  | dispatched hn ha hr =>
    have htransmitted := h.transmitted (hnum _ hn)
    exact ⟨⟨htransmitted.sent, htransmitted.replay⟩, by simp⟩

theorem Replayed.inRange {r} (hrep : Replayed msg s r) (h : InRange s) :
    InRange r.state ∧ r.result ≠ .error .overflow := by
  have hkeep {n : Nat} {replay replay' : Replay} {step : ReplayStep} (hs : s.replay = some replay)
      (ho : replay.offer n (SessionState.gapFilled msg) = .ok (replay', step)) :
      InRange { s with replay := some replay' } := by
    refine ⟨h.sent, ?_⟩
    intro r' hr'
    cases hr'
    exact ((h.replay replay hs).after ho).1
  cases hrep with
  | refused hf =>
    refine ⟨h, ?_⟩
    intro heq
    cases heq
    cases hf with
    | @arithmetic n replay f hn hs ho =>
      obtain ⟨hlast, howed, -⟩ := h.replay replay hs
      obtain ⟨p, hp⟩ := Replay.offer_isOk howed hlast n (SessionState.gapFilled msg)
      rw [hp] at ho
      cases ho
  | held hn hs ho hstep => exact ⟨hkeep hs ho, by simp⟩
  | noTime hn hs ho hh =>
    refine ⟨hkeep hs ho, ?_⟩
    intro heq
    cases heq
    exact retransmissionHeader_ne_overflow _ _ hh
  | overflow hn hs ho hh hg => exact absurd (((h.replay _ hs).after ho).2 _ rfl).2.1 hg
  | @resent n replay replay' gap header hn hs ho hh hg =>
    obtain ⟨hnum, -, hfirst⟩ := ((h.replay _ hs).after ho).2 _ rfl
    refine ⟨InRange.transmitted ?_ hnum, by simp⟩
    cases gap with
    | none => exact hkeep hs ho
    | some bounds => exact (hkeep hs ho).transmitted (hfirst _ _ rfl)

theorem Drained.inRange {queue} (hd : Drained queue s r) (h : InRange s)
    (hqueue : ∀ msg ∈ queue, ∀ n, Carries msg n → n < u64Max) :
    InRange r.state ∧ r.result ≠ .error .overflow := by
  induction hd with
  | close hn h5 =>
    have htransmitted := h.transmitted (hqueue _ List.mem_cons_self _ hn)
    exact ⟨⟨htransmitted.sent, htransmitted.replay⟩, by simp⟩
  | next hn h5 _ ih =>
    have htransmitted := h.transmitted (hqueue _ List.mem_cons_self _ hn)
    exact ih ⟨htransmitted.sent, htransmitted.replay⟩
      fun m hm => hqueue m (List.mem_cons_of_mem _ hm)
  | _ => exact ⟨h, by simp⟩

theorem Completed.inRange (hc : Completed s r) (h : InRange s) :
    InRange r.state ∧ r.result ≠ .error .overflow := by
  cases hc with
  | noReplay hs => exact ⟨h, by simp⟩
  | arithmetic hs ht =>
    obtain ⟨gap, hgap, -⟩ := (h.replay _ hs).trailing
    rw [hgap] at ht
    cases ht
  | overflow hs ht hg =>
    obtain ⟨gap, hgap, hfill, -⟩ := (h.replay _ hs).trailing
    rw [hgap] at ht
    cases ht
    exact absurd hfill hg
  | @drained replay gap rd r' hs ht hg hd hr =>
    obtain ⟨gap', hgap, -, hfirst⟩ := (h.replay _ hs).trailing
    rw [hgap] at ht
    cases ht
    have hended : InRange (replayEnded s gap) := by
      refine ⟨?_, by simp [replayEnded]⟩
      cases gap with
      | none => exact h.sent
      | some bounds => exact max_lt h.sent (hfirst _ _ rfl)
    obtain ⟨hrange, hne⟩ := hd.inRange hended (h.replay _ hs).queue
    cases hr with
    | resynchronised hr hc => exact ⟨⟨hrange.sent, hrange.replay⟩, by simp⟩
    | _ => exact ⟨hrange, hne⟩

theorem TimedOut.inRange (ht : TimedOut now s r) (h : InRange s) :
    InRange r.state ∧ r.result ≠ .error .overflow := by
  cases ht with
  | ticked hc hb hk =>
    refine ⟨?_, by simp⟩
    cases hb <;> cases hk <;> exact ⟨h.sent, h.replay⟩
  | _ => exact ⟨h, by simp⟩

/-- **One call keeps the counters in range, and does not overflow.** -/
theorem Step.inRange {i} (hstep : Step i s r) (h : InRange s) (hi : i.Bounded) :
    InRange r.state ∧ r.result ≠ .error .overflow := by
  cases hstep with
  | start hs | message hs => exact ⟨hs.outbound.inRange h hi.2, hs.ne_overflow h.sent hi.1⟩
  | send hs => exact hs.inRange h hi
  | replayed hs hok => exact ⟨(hs.inRange ⟨h.sent, h.replay⟩).1, by simp⟩
  | replayFailed hs hf =>
    obtain ⟨hrange, hne⟩ := hs.inRange ⟨h.sent, h.replay⟩
    exact ⟨hrange, by rw [hf] at hne; simpa using hne⟩
  | replayComplete hs => exact hs.inRange ⟨h.sent, h.replay⟩
  | disconnect hc => exact ⟨⟨h.sent, h.replay⟩, by simp⟩
  | timeout ht => exact ht.inRange h
  | _ => exact ⟨h, by simp⟩

/-! ## Whole runs -/

/-- **No overflow.** Whatever the session starts from and whatever it is fed, no call
overflows as long as no inbound `MsgSeqNum` or `EndSeqNo`, and no number the application
sends under, is the largest there is. -/
theorem no_overflow (sessionId : SessionIdentifier) (config : SessionConfig) (nextInSeqNum : Nat)
    (now : Instant) (inputs : List Input) (hin : ∀ i ∈ inputs, i.Bounded) :
    ∀ turn ∈ trace Input.call (.new sessionId config nextInSeqNum now) inputs,
      turn.outcome.result ≠ .error .overflow := by
  intro turn hturn
  have hrange : ∀ pre, (∀ i ∈ pre, i.Bounded) →
      InRange (final Input.call (.new sessionId config nextInSeqNum now) pre) := by
    intro pre
    refine run_induction (motive := fun xs s => (∀ i ∈ xs, i.Bounded) → InRange s) Input.call _ pre
      ?_ ?_
    · intro _
      exact ⟨by simp [SessionState.new, u64Max], by simp [SessionState.new]⟩
    · intro pre i ih hall
      have hbefore := ih fun j hj => hall j (List.mem_append_left _ hj)
      exact ((step_spec i _).inRange hbefore
        (hall i (List.mem_append_right _ List.mem_cons_self))).1
  obtain ⟨pre, post, rfl, hbefore, houtcome⟩ := mem_trace Input.call hturn
  rw [houtcome, hbefore]
  refine ((step_spec turn.input _).inRange (hrange pre ?_) (hin _ ?_)).2
  · exact fun i hi => hin i (List.mem_append_left _ hi)
  · exact List.mem_append_right _ List.mem_cons_self

namespace Sample

/-- The peer gap-fills up to the largest number, and then uses it. -/
def filledToTheEnd : List Input :=
  [.message { numbered "4" 1 with
      body := [.field 123 (ascii "Y"), .field 36 (writeUint u64Max)] } 0,
    .message (numbered "B" u64Max) 0]

/-- The peer asks for everything up to the largest number. -/
def askedToTheEnd : List Input :=
  [.message { numbered "2" 1 with
      body := [.field 7 (writeUint 1), .field 16 (writeUint u64Max)] } 0,
    .command .replayComplete 0]

/-- The peer asks for everything up to the largest number but one. -/
def askedAlmostToTheEnd : List Input :=
  [.message { numbered "2" 1 with
      body := [.field 7 (writeUint 1), .field 16 (writeUint (u64Max - 1))] } 0,
    .command .replayComplete 0]

end Sample

theorem no_overflow_askedAlmostToTheEnd :
    (∀ i ∈ Sample.askedAlmostToTheEnd, i.Bounded) ∧
    ∀ turn ∈ trace Input.call Sample.session Sample.askedAlmostToTheEnd,
      turn.outcome.result ≠ .error .overflow := by
  have hread {x : Except FieldError Nat} {k : Nat} (hx : x = .ok k) (hk : k < u64Max) :
      ∀ n, x = .ok n → n < u64Max := by
    intro n hn
    rw [hx] at hn
    cases hn
    exact hk
  have hbounded : ∀ i ∈ Sample.askedAlmostToTheEnd, i.Bounded := by
    intro i hi
    simp only [Sample.askedAlmostToTheEnd, List.mem_cons, List.not_mem_nil, or_false] at hi
    rcases hi with rfl | rfl
    · exact ⟨hread (k := 1) (by decide +kernel) (by decide),
        hread (k := u64Max - 1) (by decide +kernel) (by decide)⟩
    · trivial
  exact ⟨hbounded,
    no_overflow Sample.sessionId Sample.config 1 0 Sample.askedAlmostToTheEnd hbounded⟩

/-- Two calls each suffice to overflow. -/
theorem overflowing :
    (trace Input.call Sample.session Sample.filledToTheEnd).map (fun t => t.outcome.result) =
      [.ok .continue, .error .overflow] ∧
    (trace Input.call Sample.session Sample.askedToTheEnd).map (fun t => t.outcome.result) =
      [.ok .continue, .error .overflow] := by
  decide +kernel

end Babelfix.Session
