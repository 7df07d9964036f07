import Babelfix.Session.Order

/-! # What a ResendRequest makes the session send

A retransmission or a gap fill stays within the range of the request it answers.
Whether that range stays within what was sent is up to the peer: an explicit
`EndSeqNo` is taken as it is. -/
namespace Babelfix.Session
open Lib

theorem SessionState.gapFillMessage_newSeqNo (s : SessionState) (first : Nat) {new}
    (h : new ≤ u64Max) : (s.gapFillMessage first new).body.req Fields.newSeqNo = .ok new := by
  unfold gapFillMessage
  dsimp only
  rw [Block.set_of_valid _ Fields.newSeqNo (writeUint_ne_nil _) (soh_notMem_writeUint _)]
  exact Block.req_place_self _ _ (parseUint_writeUint h)

/-- A message on the wire that answers a request for numbers up to `last`. -/
structure AnswersUpTo (last : Nat) (x : Origin × Unstamped) : Prop where
  number : ∃ n, Carries x.2.msg n ∧ n ≤ last
  fill : x.1 = .gapFill → ∃ new, x.2.msg.body.req Fields.newSeqNo = .ok new ∧ new ≤ last + 1

variable {s : SessionState}

theorem fillOut_answers {gap e} (hg : Fillable gap)
    (hle : ∀ first last, gap = some (first, last) → first ≤ last + 1)
    (he : ∀ first last, gap = some (first, last) → first ≤ e ∧ last ≤ e) :
    ∀ x ∈ transmissions (fillOut s gap), AnswersUpTo e x := by
  intro x hx
  cases gap with
  | none => cases hx
  | some bounds =>
    obtain ⟨first, last⟩ := bounds
    have hnew := hg first last rfl
    have hfirst := hle first last rfl
    obtain ⟨hfe, hle⟩ := he first last rfl
    rw [fillOut, transmissions_transmitOut, List.mem_singleton] at hx
    subst hx
    refine ⟨⟨first, ?_, hfe⟩, fun _ => ⟨last + 1, ?_, by omega⟩⟩
    · exact (s.onWire_msgSeqNum _).trans (s.gapFillMessage_msgSeqNum _ (hfirst.trans hnew))
    · rw [SessionState.onWire_body]
      exact s.gapFillMessage_newSeqNo _ hnew

theorem Replayed.answers {msg r} (h : Replayed msg s r) :
    ∀ x ∈ transmissions r.out, ∃ replay, s.replay = some replay ∧ AnswersUpTo replay.endSeqNo x := by
  intro x hx
  cases h with
  | @resent n replay replay' gap header hn hs ho hh hg =>
    refine ⟨replay, hs, ?_⟩
    obtain ⟨hle, hfill⟩ := (Replay.offer_spec ho).le
    rw [transmissions_append, List.mem_append] at hx
    obtain hx | hx := hx
    · refine fillOut_answers hg ?_ ?_ x hx
      · intro first last hgap
        obtain ⟨h1, h2⟩ := hfill first last hgap
        omega
      · intro first last hgap
        obtain ⟨h1, h2⟩ := hfill first last hgap
        exact ⟨by omega, by omega⟩
    · rw [transmissions_transmitOut, List.mem_singleton] at hx
      subst hx
      exact ⟨⟨n, (SessionState.onWire_msgSeqNum _ _).trans (hn.retransmission hh), hle⟩, by simp⟩
  | _ => cases hx

theorem trailing_answers {replay : Replay} {gap} (ht : replay.trailingGapFill = .ok gap)
    (hg : Fillable gap) : ∀ x ∈ transmissions (fillOut s gap), AnswersUpTo replay.endSeqNo x := by
  obtain ⟨-, hgap⟩ := Replay.trailingGapFill_eq_ok ht
  have hbounds : ∀ first last, gap = some (first, last) →
      first ≤ replay.endSeqNo ∧ last = replay.endSeqNo := by
    intro first last heq
    rw [hgap] at heq
    split at heq
    · cases heq
      exact ⟨‹_›, rfl⟩
    · cases heq
  refine fillOut_answers hg ?_ ?_
  · intro first last heq
    obtain ⟨h1, h2⟩ := hbounds first last heq
    omega
  · intro first last heq
    obtain ⟨h1, h2⟩ := hbounds first last heq
    exact ⟨h1, h2.le⟩

variable {r : OpOutcome Progress}

theorem Completed.answers (h : Completed s r) : ∀ x ∈ transmissions r.out, x.1 ≠ .fresh →
      ∃ replay, s.replay = some replay ∧ AnswersUpTo replay.endSeqNo x := by
  intro x hx hfresh
  cases h with
  | @drained replay gap r r' hs ht hg hd hr =>
    rw [Outcome.prepend_out, transmissions_append, hr.frame.2, List.mem_append] at hx
    obtain hx | hx := hx
    · exact ⟨replay, hs, trailing_answers ht hg x hx⟩
    · -- what is not a fill comes from the queue, and is new
      obtain ⟨out, rest, -, ho, -⟩ := hd.fresh
      rw [ho] at hx
      obtain ⟨msg, -, rfl⟩ := List.mem_map.mp hx
      exact absurd rfl hfresh
  | _ => cases hx

/-- **Retransmissions and gap fills stay within the range being replayed.** -/
theorem step_answers {i} (h : Step i s r) : ∀ x ∈ transmissions r.out, x.1 ≠ .fresh →
      ∃ replay, s.replay = some replay ∧ AnswersUpTo replay.endSeqNo x := by
  intro x hx hfresh
  cases h.sending with
  | inbound _ h => rw [h.2.2] at hx; cases hx
  | send _ h =>
    cases h with
    | dispatched hn ha hr =>
      rw [transmissions_dispatchOut, List.mem_singleton] at hx
      exact absurd (by rw [hx]) hfresh
    | _ => cases hx
  | replay _ h hs ho => exact h.answers x (ho ▸ hx)
  | complete _ h => exact h.answers x hx hfresh
  | quiet _ _ ho _ => rw [ho] at hx; cases hx

/-! ## The range of a replay -/

theorem resends_outward {o} (h : ∀ e ∈ o, Outward e) : resends o = [] :=
  filterMap_outward (fun e he => by cases he <;> rfl) h

/-- The replay of `s'` is the one of `s`, or further through the same range. -/
def SameRange (s s' : SessionState) : Prop :=
  ∀ replay', s'.replay = some replay' →
    ∃ replay, s.replay = some replay ∧ replay'.endSeqNo = replay.endSeqNo

theorem sameRange_of_eq {s'} (h : s'.replay = s.replay) : SameRange s s' := by
  intro replay' hr
  exact ⟨replay', h ▸ hr, rfl⟩

/-- A call leaves the replay it found, or starts one for the range it reports. -/
theorem step_resends {i} (h : Step i s r) : (resends r.out = [] ∧ SameRange s r.state) ∨
    ∃ msg first last replay, msg.body.req Fields.beginSeqNo = .ok first ∧
      msg.body.req Fields.endSeqNo = .ok last ∧
      Replay.start first last (s.highestSent + 1) = .ok replay ∧ r.state.replay = some replay ∧
      resends r.out = [(msg, replay.beginSeqNo, replay.endSeqNo)] := by
  cases h.sending with
  | @inbound msg _ h =>
    obtain ⟨-, hrep, -⟩ := h
    cases hrep with
    | same hr ha ho => exact .inl ⟨ho, sameRange_of_eq hr⟩
    | started h2 hb he hs hstart hr ha ho => exact .inr ⟨msg, _, _, _, hb, he, hstart, hr, ho⟩
  | send _ h =>
    refine .inl ⟨resends_outward h.outward, ?_⟩
    cases h with
    | deferred hn ha hr =>
      rintro _ ⟨⟩
      exact ⟨_, hr, rfl⟩
    | _ => exact sameRange_of_eq rfl
  | replay _ h hstate hout =>
    rw [hstate, hout]
    refine .inl ⟨resends_outward h.outward, ?_⟩
    intro replay' hr
    obtain ⟨replay, hs, he, -⟩ := h.order.2.2.1 replay' hr
    exact ⟨replay, hs, he⟩
  | complete _ h =>
    obtain ⟨_, _, _, _, hf⟩ := h.finishes
    exact .inl ⟨resends_outward h.outward, hf.range⟩
  | quiet _ h _ hq => exact .inl ⟨hq, sameRange_of_eq h.replay⟩

/-! ## Runs -/

/-- A request for nothing beyond what was sent when it was processed. -/
def WithinSent (msg : Message) (s : SessionState) : Prop :=
  ∃ first last, msg.body.req Fields.beginSeqNo = .ok first ∧
    msg.body.req Fields.endSeqNo = .ok last ∧
    ((last = 0 ∧ first ≤ s.highestSent) ∨ (0 < last ∧ last ≤ s.highestSent))

/-- The range a request is answered with lies within what was sent exactly if the
request does. -/
theorem withinSent_iff {msg first last replay} (hb : msg.body.req Fields.beginSeqNo = .ok first)
    (he : msg.body.req Fields.endSeqNo = .ok last)
    (hstart : Replay.start first last (s.highestSent + 1) = .ok replay) :
    WithinSent msg s ↔ 1 ≤ replay.beginSeqNo ∧ replay.beginSeqNo ≤ replay.endSeqNo ∧
      replay.endSeqNo ≤ s.highestSent := by
  obtain ⟨hpos, hle, rfl⟩ := Replay.start_eq_ok hstart
  constructor
  · rintro ⟨first', last', hb', he', h⟩
    rw [hb] at hb'
    rw [he] at he'
    cases hb'
    cases he'
    dsimp only
    split <;> omega
  · rintro ⟨-, h1, h2⟩
    refine ⟨first, last, hb, he, ?_⟩
    by_cases hlast : last > 0
    · simp only [hlast, if_true] at h2
      exact .inr ⟨hlast, h2⟩
    · simp only [hlast, if_false] at h1
      exact .inl ⟨by omega, by omega⟩

abbrev SessionTurn := Turn Input SessionState Effect Fault Progress

/-- The highest number sent when the last ResendRequest taken up was processed. -/
def sentAtRequest (turns : List SessionTurn) : Option Nat :=
  (turns.filter fun t => resends t.outcome.out ≠ []).getLast?.map fun t => t.before.highestSent

theorem sentAtRequest_append (turns : List SessionTurn) (t : SessionTurn) :
    sentAtRequest (turns ++ [t]) =
      if resends t.outcome.out = [] then sentAtRequest turns else some t.before.highestSent := by
  unfold sentAtRequest
  by_cases h : resends t.outcome.out = []
  · simp [h]
  · simp [h]

/-- If every range reported so far was within what had been sent, so is the range
of the running replay. -/
theorem run_range {s₀} (h₀ : s₀.replay = none) (inputs : List Input) :
    (∀ t ∈ trace Input.call s₀ inputs, ∀ q ∈ resends t.outcome.out,
      q.2.2 ≤ t.before.highestSent) →
    ∀ replay, (final Input.call s₀ inputs).replay = some replay →
      ∃ h, sentAtRequest (trace Input.call s₀ inputs) = some h ∧ replay.endSeqNo ≤ h := by
  refine run_induction (motive := fun inputs s =>
    (∀ t ∈ trace Input.call s₀ inputs, ∀ q ∈ resends t.outcome.out,
      q.2.2 ≤ t.before.highestSent) →
    ∀ replay, s.replay = some replay →
      ∃ h, sentAtRequest (trace Input.call s₀ inputs) = some h ∧ replay.endSeqNo ≤ h)
    Input.call s₀ inputs ?_ ?_
  · intro _ replay hr
    rw [h₀] at hr
    cases hr
  · intro pre i ih hwithin replay' hr
    rw [trace_append, trace_singleton] at hwithin ⊢
    rw [sentAtRequest_append]
    obtain ⟨ho, hsame⟩ | ⟨msg, first, last, replay, -, -, -, hrun, ho⟩ :=
      step_resends (step_spec i (final Input.call s₀ pre))
    · obtain ⟨replay, hs, hend⟩ := hsame replay' hr
      obtain ⟨h, hh, hle⟩ := ih (fun t ht => hwithin t (List.mem_append_left _ ht)) replay hs
      rw [if_pos ho]
      exact ⟨h, hh, hend ▸ hle⟩
    · rw [if_neg (by rw [ho]; simp)]
      refine ⟨_, rfl, ?_⟩
      rw [hrun] at hr
      cases hr
      exact hwithin _ (List.mem_append_right _ List.mem_cons_self) _
        (by rw [ho]; exact List.mem_cons_self)

/-- **Replays stay within what was sent exactly if the requests do.** Along any
run, the ranges reported, and with them the numbers and `NewSeqNo`s of every
retransmission and gap fill, lie within what had been sent when the request was
processed, if and only if each request taken up is open-ended from a number
already sent or names an `EndSeqNo` already sent. -/
theorem replay_within_sent (sessionId : SessionIdentifier) (config : SessionConfig)
    (nextInSeqNum : Nat) (now : Instant) (inputs : List Input) :
    let turns := trace Input.call (SessionState.new sessionId config nextInSeqNum now) inputs
    (∀ t ∈ turns, ∀ q ∈ resends t.outcome.out, WithinSent q.1 t.before) ↔
      (∀ t ∈ turns, ∀ q ∈ resends t.outcome.out,
        1 ≤ q.2.1 ∧ q.2.1 ≤ q.2.2 ∧ q.2.2 ≤ t.before.highestSent) ∧
      ∀ pre t post, turns = pre ++ t :: post → ∀ x ∈ transmissions t.outcome.out,
        x.1 ≠ .fresh → ∃ h, sentAtRequest pre = some h ∧ AnswersUpTo h x := by
  intro turns
  -- request by request, the condition is that the range is within what was sent
  have hrange : ∀ t ∈ turns, ∀ q ∈ resends t.outcome.out, WithinSent q.1 t.before ↔
      1 ≤ q.2.1 ∧ q.2.1 ≤ q.2.2 ∧ q.2.2 ≤ t.before.highestSent := by
    intro t ht q hq
    obtain ⟨pre, post, -, -, hout⟩ := mem_trace Input.call ht
    have hstep := step_spec t.input t.before
    rw [← hout] at hstep
    obtain ⟨ho, -⟩ | ⟨msg, first, last, replay, hb, he, hstart, -, ho⟩ := step_resends hstep
    · rw [ho] at hq
      cases hq
    · rw [ho, List.mem_singleton] at hq
      subst hq
      exact withinSent_iff hb he hstart
  constructor
  · intro hwithin
    have hranges : ∀ t ∈ turns, ∀ q ∈ resends t.outcome.out,
        1 ≤ q.2.1 ∧ q.2.1 ≤ q.2.2 ∧ q.2.2 ≤ t.before.highestSent :=
      fun t ht q hq => (hrange t ht q hq).mp (hwithin t ht q hq)
    refine ⟨hranges, ?_⟩
    intro pre t post hsplit x hx hfresh
    obtain ⟨xs, ys, -, hpre, hbefore, hout⟩ := trace_eq_append Input.call hsplit
    have hstep := step_spec t.input t.before
    rw [← hout] at hstep
    obtain ⟨replay, hs, hanswers⟩ := step_answers hstep x hx hfresh
    rw [hbefore] at hs
    obtain ⟨h, hh, hle⟩ := run_range rfl xs (fun t' ht' q hq => by
      refine (hranges t' ?_ q hq).2.2
      rw [hsplit, hpre]
      exact List.mem_append_left _ ht') replay hs
    refine ⟨h, by rw [hpre]; exact hh, ?_, ?_⟩
    · obtain ⟨n, hn, hnle⟩ := hanswers.number
      exact ⟨n, hn, hnle.trans hle⟩
    · intro hfill
      obtain ⟨new, hnew, hnle⟩ := hanswers.fill hfill
      exact ⟨new, hnew, by omega⟩
  · rintro ⟨hranges, -⟩ t ht q hq
    exact (hrange t ht q hq).mpr (hranges t ht q hq)

/-- The peer's Logon, our Logon, a request for 2 to 5 when only 1 has been sent,
and the end of the replay. -/
def beyondSent : List Input :=
  [.start (Sample.numbered "A" 1) 0, .command (.send Sample.logon) 0,
    .message { Sample.numbered "2" 2 with body := [.field 7 (ascii "2"), .field 16 (ascii "5")] } 0,
    .command .replayComplete 0]

/-- The request is reported as it is, and answered with a gap fill numbered 2 that
moves the peer on to 6, although 1 is the highest number sent. -/
theorem beyondSent_gapFill :
    ((trace Input.call Sample.session beyondSent).map fun t =>
      (t.before.highestSent, (resends t.outcome.out).map Prod.snd)) =
        [(0, []), (0, []), (1, [(2, 5)]), (1, [])] ∧
    ((transmissions (output Input.call Sample.session beyondSent)).map fun x =>
      (x.1, x.2.msg.header.req Fields.msgSeqNum, x.2.msg.body.get Fields.newSeqNo)) =
        [(.fresh, .ok 1, .ok none), (.gapFill, .ok 2, .ok (some 6))] := by
  decide

end Babelfix.Session
