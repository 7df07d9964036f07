import Babelfix.Session.Run

/-! # Outbound order

Messages reach the wire in the order `Command::Send` handed them over, whether
they went out at once or waited behind a replay. The invariant `Ordered` ties
together what was accepted, what has gone out and what is queued. -/
namespace Babelfix.Session
open Lib

/-- The new messages among what was written. -/
def freshSends (o : List Effect) : List Message :=
  (transmissions o).filterMap fun x => if x.1 = .fresh then some x.2.msg else none

@[simp] theorem freshSends_append (o o' : List Effect) :
    freshSends (o ++ o') = freshSends o ++ freshSends o' := by
  simp [freshSends]

variable {o : List Effect}

theorem freshSends_eq_nil (h : transmissions o = []) : freshSends o = [] := by
  simp [freshSends, h]

@[simp] theorem transmissions_transmitOut (origin : Origin) (s : SessionState) (msg : Message) :
    transmissions (transmitOut origin s msg) = [(origin, s.onWire msg)] := rfl

@[simp] theorem transmissions_dispatchOut (s : SessionState) (msg : Message) :
    transmissions (dispatchOut s msg) = [(.fresh, s.onWire msg)] := by
  simp [dispatchOut]

@[simp] theorem freshSends_dispatchOut (s : SessionState) (msg : Message) :
    freshSends (dispatchOut s msg) = [(s.onWire msg).msg] := by
  simp [freshSends]

@[simp] theorem freshSends_fillOut (s : SessionState) (gap : Option (Nat × Nat)) :
    freshSends (fillOut s gap) = [] := by
  cases gap <;> rfl

@[simp] theorem freshSends_retransmission (s : SessionState) (msg : Message) :
    freshSends (transmitOut .retransmission s msg) = [] := rfl

variable {s s' : SessionState}

theorem onWire_congr (hi : s'.sessionId = s.sessionId) (hc : s'.config = s.config) (msg : Message) :
    s'.onWire msg = s.onWire msg := by
  simp only [SessionState.onWire, hi, hc]

/-! ## What each call sends -/

variable {r : OpOutcome Progress}

theorem Drained.fresh {queue} (h : Drained queue s r) : ∃ out rest, queue = out ++ rest ∧
      transmissions r.out = out.map (fun msg => (.fresh, s.onWire msg)) ∧
      ∀ k, s.highestSent ≤ k →
        (∀ msg ∈ out, ∀ n, Carries msg n → n ≤ k) →
        r.state.highestSent ≤ k := by
  induction h with
  | done => exact ⟨[], [], rfl, rfl, fun _ hk _ => hk⟩
  | unread hn => exact ⟨[], _, rfl, rfl, fun _ hk _ => hk⟩
  | @close msg queue s n hn h5 =>
    exact ⟨[msg], queue, rfl, by simp, fun k hk hq => max_le hk (hq _ List.mem_cons_self _ hn)⟩
  | @next msg queue s n r hn h5 h ih =>
    obtain ⟨out, rest, hq, ho, hle⟩ := ih
    refine ⟨msg :: out, rest, by rw [hq]; rfl, ?_, fun k hk hnum => ?_⟩
    · rw [Outcome.prepend_out, transmissions_append, transmissions_dispatchOut, ho]
      rfl
    · refine hle k (max_le hk (hnum _ List.mem_cons_self _ hn)) ?_
      intro m hm
      exact hnum m (List.mem_cons_of_mem _ hm)

variable {n : Nat}

theorem Replay.Offered.same {r b p} (h : Offered r n b p) :
    p.1.beginSeqNo = r.beginSeqNo ∧ p.1.endSeqNo = r.endSeqNo ∧ p.1.queue = r.queue := by
  cases h <;> exact ⟨rfl, rfl, rfl⟩

/-- A retransmission and the fill before it stay within the range. -/
theorem Replay.Offered.le {r b r' gap} (h : Offered r n b (r', .retransmit gap)) :
    n ≤ r.endSeqNo ∧ ∀ first last, gap = some (first, last) → first ≤ n ∧ last + 1 = n := by
  cases h with
  | plain h he ho => exact ⟨he, by simp⟩
  | fill h he ho hle =>
    refine ⟨he, ?_⟩
    rintro first last ⟨⟩
    omega

theorem filled_highestSent_le {k gap} (hs : s.highestSent ≤ k)
    (hg : ∀ first last, gap = some (first, last) → first ≤ k) : (filled s gap).highestSent ≤ k := by
  cases gap with
  | none => exact hs
  | some bounds => exact max_le hs (hg _ _ rfl)

variable {msg : Message}

theorem Replayed.order {r} (h : Replayed msg s r) : freshSends r.out = [] ∧
    (∀ k, s.highestSent ≤ k → (∀ replay, s.replay = some replay → replay.endSeqNo ≤ k) →
      r.state.highestSent ≤ k) ∧
    (∀ replay', r.state.replay = some replay' → ∃ replay, s.replay = some replay ∧
      replay'.endSeqNo = replay.endSeqNo ∧ replay'.queue = replay.queue) ∧
    (s.replay.isSome → r.state.replay.isSome) := by
  -- whatever the offer led to, the replay it left has the same range and queue
  have hkeep : ∀ {n : Nat} {b : Bool} {replay replay' : Replay} {step : ReplayStep},
      s.replay = some replay → replay.offer n b = .ok (replay', step) →
      ∀ replay'', some replay' = some replay'' → ∃ replay, s.replay = some replay ∧
        replay''.endSeqNo = replay.endSeqNo ∧ replay''.queue = replay.queue := by
    intro n b replay replay' step hs ho replay'' heq
    cases heq
    obtain ⟨-, he, hq⟩ := (Replay.offer_spec ho).same
    exact ⟨replay, hs, he, hq⟩
  cases h with
  | refused h => exact ⟨rfl, fun _ hk _ => hk, fun replay' h => ⟨replay', h, rfl, rfl⟩, id⟩
  | held hn hs ho hstep | noTime hn hs ho hh | overflow hn hs ho hh hg =>
    exact ⟨rfl, fun _ hk _ => hk, hkeep hs ho, fun _ => rfl⟩
  | @resent n replay replay' gap header hn hs ho hh hg =>
    refine ⟨by simp, ?_, ?_, ?_⟩
    · intro k hk hend
      obtain ⟨hle, hfill⟩ := (Replay.offer_spec ho).le
      have hn : n ≤ k := hle.trans (hend replay hs)
      refine max_le (filled_highestSent_le hk ?_) hn
      intro first last hgap
      exact (hfill first last hgap).1.trans hn
    · cases gap <;> exact hkeep hs ho
    · cases gap <;> exact fun _ => rfl

/-- The messages held back by a replay. -/
def queued (s : SessionState) : List Message := s.replay.elim [] Replay.queue

/-- How a ReplayComplete ends: the fills go out first, then what was queued, up to a
Logout or a message that cannot be sent. -/
structure Finishes (s : SessionState) (r : OpOutcome Progress)
    (fills rest : List Effect) (out left : List Message) : Prop where
  output : r.out = fills ++ rest
  fills : freshSends fills = []
  rest : transmissions rest = out.map fun msg => (.fresh, s.onWire msg)
  queue : queued s = out ++ left
  empty : queued r.state = []
  range : ∀ replay', r.state.replay = some replay' →
    ∃ replay, s.replay = some replay ∧ replay'.endSeqNo = replay.endSeqNo
  accepted : r.state.highestAccepted = s.highestAccepted
  config : r.state.config = s.config
  sessionId : r.state.sessionId = s.sessionId
  sent : ∀ k, s.highestSent ≤ k → (∀ replay, s.replay = some replay → replay.endSeqNo ≤ k) →
    (∀ msg ∈ out, ∀ n, Carries msg n → n ≤ k) →
    r.state.highestSent ≤ k

theorem Completed.finishes (h : Completed s r) :
    ∃ fills rest out left, Finishes s r fills rest out left := by
  -- a fault before anything is sent loses the queue
  have hlost : ∀ {replay f}, s.replay = some replay →
      Finishes s ⟨{ s with replay := some { replay with queue := [] } }, [], .error f⟩ [] [] []
        replay.queue := by
    intro replay f hs
    refine ⟨rfl, rfl, rfl, by rw [queued, hs]; rfl, rfl, ?_, rfl, rfl, rfl, fun _ hk _ _ => hk⟩
    rintro _ ⟨⟩
    exact ⟨replay, hs, rfl⟩
  cases h with
  | noReplay hs =>
    have hnone : queued s = [] := by rw [queued, hs]; rfl
    exact ⟨[], [], [], [], rfl, rfl, rfl, hnone, hnone, fun replay' h => ⟨replay', h, rfl⟩, rfl, rfl,
      rfl, fun _ hk _ _ => hk⟩
  | arithmetic hs ht | overflow hs ht hg => exact ⟨_, _, _, _, hlost hs⟩
  | @drained replay gap r r' hs ht hg hd hr =>
    obtain ⟨hstate, hwires⟩ := hr.frame
    obtain ⟨out, left, hq, ho, hle⟩ := hd.fresh
    have hwire : ∀ msg, (replayEnded s gap).onWire msg = s.onWire msg := by
      intro msg
      refine onWire_congr ?_ ?_ msg <;> cases gap <;> rfl
    simp only [hwire] at ho
    have hnone : r'.state.replay = none := by rw [hstate, hd.frame]; rfl
    refine ⟨fillOut s gap, r'.out, out, left, rfl, freshSends_fillOut s gap, hwires.trans ho, ?_, ?_,
      ?_, ?_, ?_, ?_, ?_⟩
    · rw [queued, hs]
      exact hq
    · rw [Outcome.prepend_state, queued, hnone]
      rfl
    · intro replay' h
      cases hnone.symm.trans h
    · rw [Outcome.prepend_state, hstate, hd.frame]; cases gap <;> rfl
    · rw [Outcome.prepend_state, hstate, hd.frame]; cases gap <;> rfl
    · rw [Outcome.prepend_state, hstate, hd.frame]; cases gap <;> rfl
    · intro k hk hend
      rw [Outcome.prepend_state, hstate]
      refine hle k ?_
      refine filled_highestSent_le hk ?_
      rintro first last rfl
      obtain ⟨-, hgap⟩ := Replay.trailingGapFill_eq_ok ht
      split at hgap
      · cases hgap
        exact le_trans ‹_› (hend replay hs)
      · cases hgap

/-! ## The invariant -/

/-- The number of `a` is below that of `b`. -/
def Before (a b : Message) : Prop :=
  ∃ m n, Carries a m ∧ Carries b n ∧ m < n

theorem Replayed.queued_eq {r} (h : Replayed msg s r) : queued r.state = queued s := by
  obtain ⟨-, -, hkeep, hsome⟩ := h.order
  cases hr : r.state.replay with
  | none =>
    cases hs : s.replay with
    | none => rw [queued, queued, hr, hs]
    | some replay =>
      have hsome := hsome (by rw [hs]; rfl)
      rw [hr] at hsome
      cases hsome
  | some replay' =>
    obtain ⟨replay, hs, -, hq⟩ := hkeep replay' hr
    rw [queued, queued, hr, hs]
    exact hq

/-- The message a call accepted through `Command::Send`. -/
def acceptedIn (t : Turn Input SessionState Effect Fault Progress) : Option Message :=
  match t.input, t.outcome.result with
  | .command (.send msg) _, .ok _ => some msg
  | _, _ => none

structure Ordered (s₀ s : SessionState) (accepted sent : List Message) : Prop where
  sessionId : s.sessionId = s₀.sessionId
  config : s.config = s₀.config
  highest : s.highestSent ≤ s.highestAccepted
  range : ∀ replay, s.replay = some replay → replay.endSeqNo ≤ s.highestAccepted
  rising : accepted.Pairwise Before
  bound : ∀ msg ∈ accepted, ∃ n, Carries msg n ∧ n ≤ s.highestAccepted
  fifo : ∃ out, (out ++ queued s).Sublist accepted ∧ sent = out.map fun msg => (s₀.onWire msg).msg

variable {s₀ : SessionState} {accepted sent : List Message}

section
variable (h : Ordered s₀ s accepted sent)
include h

theorem Ordered.wire (msg : Message) : s.onWire msg = s₀.onWire msg :=
  onWire_congr h.sessionId h.config msg

theorem Ordered.quiet (hi : s'.sessionId = s.sessionId) (hc : s'.config = s.config)
    (hs : s'.highestSent ≤ s'.highestAccepted) (ha : s.highestAccepted ≤ s'.highestAccepted)
    (hr : ∀ replay, s'.replay = some replay → replay.endSeqNo ≤ s'.highestAccepted)
    (hq : (queued s').Sublist (queued s)) : Ordered s₀ s' accepted sent := by
  obtain ⟨out, hsub, hsent⟩ := h.fifo
  refine ⟨hi.trans h.sessionId, hc.trans h.config, hs, hr, h.rising, ?_, out, ?_, hsent⟩
  · intro msg hmsg
    obtain ⟨n, hn, hle⟩ := h.bound msg hmsg
    exact ⟨n, hn, hle.trans ha⟩
  · exact ((List.Sublist.refl out).append hq).trans hsub

theorem Ordered.inbound (hsame : SameOutbound s s') (hrep : ReplayChange msg s s' o) :
    Ordered s₀ s' accepted sent := by
  cases hrep with
  | same hr ha ho =>
    refine h.quiet hsame.sessionId hsame.config ?_ ha.ge ?_ ?_
    · rw [hsame.highestSent, ha]
      exact h.highest
    · rw [hr, ha]
      exact h.range
    · rw [queued, hr]
      exact List.Sublist.refl _
  | @started first last replay h2 hb he hs hstart hr ha ho =>
    obtain ⟨-, -, rfl⟩ := Replay.start_eq_ok hstart
    refine h.quiet hsame.sessionId hsame.config ?_ (by rw [ha]; exact le_max_left _ _) ?_ ?_
    · rw [hsame.highestSent, ha]
      exact h.highest.trans (le_max_left _ _)
    · intro replay' hreplay'
      rw [hr] at hreplay'
      cases hreplay'
      rw [ha]
      exact le_max_right _ _
    · simp [queued, hr]

theorem Ordered.accept (hn : Carries msg n) (hlt : s.highestAccepted < n) :
    (accepted ++ [msg]).Pairwise Before ∧
      ∀ m ∈ accepted ++ [msg], ∃ k, Carries m k ∧ k ≤ n := by
  refine ⟨?_, ?_⟩
  · rw [List.pairwise_append]
    refine ⟨h.rising, List.pairwise_singleton _ _, ?_⟩
    intro a ha b hb
    obtain ⟨k, hk, hle⟩ := h.bound a ha
    rw [List.mem_singleton.mp hb]
    exact ⟨k, n, hk, hn, by omega⟩
  · intro m hm
    obtain hm | hm := List.mem_append.mp hm
    · obtain ⟨k, hk, hle⟩ := h.bound m hm
      exact ⟨k, hk, by omega⟩
    · rw [List.mem_singleton.mp hm]
      exact ⟨n, hn, le_refl n⟩

theorem Ordered.send {now} (hs : Sent msg now s r) : Ordered s₀ r.state
      (accepted ++ (acceptedIn ⟨s, .command (.send msg) now, r⟩).toList)
      (sent ++ freshSends r.out) := by
  obtain ⟨out, hsub, hsent⟩ := h.fifo
  cases hs with
  | rejected hno => simpa [acceptedIn, freshSends] using h
  | @deferred n replay hn ha hr =>
    obtain ⟨hrise, hbound⟩ := h.accept hn ha.beyond
    refine ⟨h.sessionId, h.config, ?_, ?_, hrise, hbound, out, ?_, ?_⟩
    · exact h.highest.trans ha.beyond.le
    · rintro replay' ⟨⟩
      exact (h.range replay hr).trans ha.beyond.le
    · simp only [queued, hr, Option.elim_some] at hsub
      simp only [queued, Option.elim_some, Replay.defer, acceptedIn, Option.toList_some]
      rw [← List.append_assoc]
      exact hsub.append (List.Sublist.refl _)
    · simpa [freshSends] using hsent
  | @dispatched n hn ha hr =>
    obtain ⟨hrise, hbound⟩ := h.accept hn ha.beyond
    refine ⟨h.sessionId, h.config, ?_, ?_, hrise, hbound, out ++ [msg], ?_, ?_⟩
    · exact max_le (h.highest.trans ha.beyond.le) (le_refl n)
    · intro replay' hreplay'
      have : s.replay = some replay' := hreplay'
      rw [hr] at this
      cases this
    · have hq : queued (noted msg (transmitted (taken msg n now s) n)) = [] := by
        simp [queued, noted, transmitted, taken, hr]
      rw [hq, List.append_nil]
      have hsub' := (List.sublist_append_left out (queued s)).trans hsub
      exact hsub'.append (List.Sublist.refl _)
    · simp [hsent, h.wire]

theorem Ordered.complete (hc : Completed s r) :
    Ordered s₀ r.state accepted (sent ++ freshSends r.out) := by
  obtain ⟨out, hsub, hsent⟩ := h.fifo
  obtain ⟨fills, rest, drained, left, hf⟩ := hc.finishes
  have hfresh : freshSends r.out = drained.map fun msg => (s₀.onWire msg).msg := by
    rw [hf.output, freshSends_append, hf.fills, List.nil_append, freshSends, hf.rest]
    simp [List.filterMap_map, h.wire]
  rw [hf.queue, ← List.append_assoc] at hsub
  have hsub := (List.sublist_append_left _ _).trans hsub
  refine ⟨hf.sessionId.trans h.sessionId, hf.config.trans h.config, ?_, ?_, h.rising, ?_,
    out ++ drained, ?_, ?_⟩
  · rw [hf.accepted]
    refine hf.sent _ h.highest h.range ?_
    intro msg hmsg n hn
    obtain ⟨k, hk, hle⟩ := h.bound msg (hsub.subset (List.mem_append_right _ hmsg))
    cases hn.symm.trans hk
    exact hle
  · intro replay' hs'
    obtain ⟨replay, hs, hend⟩ := hf.range replay' hs'
    rw [hend, hf.accepted]
    exact h.range replay hs
  · rw [hf.accepted]
    exact h.bound
  · rw [hf.empty, List.append_nil]
    exact hsub
  · rw [hfresh, hsent, List.map_append]

theorem Ordered.replay {r} (hr : Replayed msg s r) :
    Ordered s₀ r.state accepted (sent ++ freshSends r.out) := by
  obtain ⟨hfresh, hle, hkeep, hsome⟩ := hr.order
  have hacc : r.state.highestAccepted = s.highestAccepted := by rw [hr.frame]
  rw [hfresh, List.append_nil]
  refine h.quiet (by rw [hr.frame]) (by rw [hr.frame]) ?_ hacc.ge ?_ ?_
  · rw [hacc]
    exact hle _ h.highest h.range
  · intro replay' hs'
    obtain ⟨replay, hs, hend, -⟩ := hkeep replay' hs'
    rw [hend, hacc]
    exact h.range replay hs
  · rw [hr.queued_eq]

theorem Ordered.same (hs : SameSending s s') : Ordered s₀ s' accepted sent := by
  refine h.quiet hs.sessionId hs.config ?_ hs.highestAccepted.ge ?_ ?_
  · rw [hs.highestSent, hs.highestAccepted]
    exact h.highest
  · rw [hs.replay, hs.highestAccepted]
    exact h.range
  · rw [queued, hs.replay]
    exact List.Sublist.refl _

end

theorem same_outReset (s : SessionState) (now : Instant) : SameSending s (outReset s now) :=
  ⟨rfl, rfl, rfl, rfl, rfl⟩

variable {i : Input}

theorem acceptedIn_eq_none (hi : ∀ msg now, i ≠ .command (.send msg) now) :
    acceptedIn ⟨s, i, r⟩ = none := by
  unfold acceptedIn
  split
  · exact absurd ‹_› (hi _ _)
  · rfl

theorem ordered_step (h : Ordered s₀ s accepted sent) (hs : Step i s r) :
    Ordered s₀ r.state (accepted ++ (acceptedIn ⟨s, i, r⟩).toList) (sent ++ freshSends r.out) := by
  have hother : (∀ msg now, i ≠ .command (.send msg) now) →
      Ordered s₀ r.state accepted (sent ++ freshSends r.out) →
      Ordered s₀ r.state (accepted ++ (acceptedIn ⟨s, i, r⟩).toList) (sent ++ freshSends r.out) := by
    intro hi h
    rw [acceptedIn_eq_none hi]
    simpa using h
  cases hs.sending with
  | inbound hi hout =>
    obtain ⟨hsame, hrep, ho⟩ := hout
    refine hother (by rintro msg now rfl; cases hi) ?_
    simpa [freshSends_eq_nil ho] using h.inbound hsame hrep
  | send hi hsend =>
    subst hi
    exact h.send hsend
  | replay hi hs hstate hout =>
    refine hother (by rintro msg now rfl; cases hi) ?_
    rw [hstate, hout]
    exact (h.same (same_outReset s _)).replay hs
  | complete hi hs =>
    exact hother (by rintro msg now rfl; cases hi) ((h.same (same_outReset s _)).complete hs)
  | quiet hi hs ho hq =>
    refine hother hi ?_
    simpa [freshSends_eq_nil ho] using h.same hs

def acceptedAlong (s : SessionState) (inputs : List Input) : List Message :=
  (trace Input.call s inputs).filterMap acceptedIn

theorem run_ordered (sessionId : SessionIdentifier) (config : SessionConfig)
    (nextInSeqNum : Nat) (now : Instant) (inputs : List Input) :
    let s₀ := SessionState.new sessionId config nextInSeqNum now
    Ordered s₀ (final Input.call s₀ inputs) (acceptedAlong s₀ inputs)
      (freshSends (output Input.call s₀ inputs)) := by
  intro s₀
  refine run_induction (motive := fun inputs s => Ordered s₀ s (acceptedAlong s₀ inputs)
    (freshSends (output Input.call s₀ inputs))) Input.call s₀ inputs ?_ ?_
  · exact ⟨rfl, rfl, le_rfl, by rintro _ ⟨⟩, List.Pairwise.nil, by rintro _ ⟨⟩, [],
      List.Sublist.refl _, rfl⟩
  · intro pre i ih
    have hstep := ordered_step ih (step_spec i _)
    have hacc : acceptedAlong s₀ (pre ++ [i]) = acceptedAlong s₀ pre ++
        (acceptedIn ⟨final Input.call s₀ pre, i,
          i.call.run (final Input.call s₀ pre)⟩).toList := by
      rw [acceptedAlong, trace_append, List.filterMap_append, trace_singleton,
        List.filterMap_cons, List.filterMap_nil]
      unfold acceptedAlong
      split <;> simp_all
    rw [hacc, output_append, output_singleton, freshSends_append]
    exact hstep

/-! ## What a replay holds back -/

theorem ReplayChange.isSome (h : ReplayChange msg s s' o) (hs : s.replay.isSome) : s'.replay.isSome := by
  cases h with
  | same hr ha ho => rwa [hr]
  | started h2 hb he hnone hstart hr ha ho => rw [hr]; rfl

/-- A running replay holds everything new back, and only `ReplayComplete` ends it. -/
theorem step_held (hs : Step i s r) (hreplay : s.replay.isSome) (hi : ∀ now, i ≠ .command .replayComplete now) :
    freshSends r.out = [] ∧ r.state.replay.isSome := by
  cases hs.sending with
  | inbound _ hout => exact ⟨freshSends_eq_nil hout.2.2, hout.2.1.isSome hreplay⟩
  | send _ hs =>
    cases hs with
    | rejected hno => exact ⟨rfl, hreplay⟩
    | deferred hn ha hr => exact ⟨rfl, rfl⟩
    | dispatched hn ha hr => rw [hr] at hreplay; cases hreplay
  | replay _ hs hstate hout =>
    rw [hstate, hout]
    exact ⟨hs.order.1, hs.order.2.2.2 hreplay⟩
  | complete heq hs => exact absurd heq (hi _)
  | quiet _ hs ho _ => exact ⟨freshSends_eq_nil ho, by rwa [hs.replay]⟩

theorem Replayed.out_of_none {r} (h : Replayed msg s r) (hnone : s.replay = none) : r.out = [] := by
  cases h with
  | resent hn hs ho hh hg => rw [hnone] at hs; cases hs
  | _ => rfl

theorem Completed.out_of_none (h : Completed s r) (hnone : s.replay = none) : r.out = [] := by
  cases h with
  | drained hs => rw [hnone] at hs; cases hs
  | _ => rfl

theorem step_starts (hs : Step i s r) (hnone : s.replay = none) (hsome : r.state.replay.isSome) :
    transmissions r.out = [] := by
  cases hs.sending with
  | inbound _ hout => exact hout.2.2
  | send _ hs =>
    cases hs with
    | rejected hno => rfl
    | deferred hn ha hr => rfl
    | dispatched hn ha hr =>
      have hr' : (s.replay).isSome := hsome
      rw [hr] at hr'
      cases hr'
  | replay _ hs hstate hout =>
    rw [hout, hs.out_of_none hnone]
    rfl
  | complete _ hs =>
    rw [hs.out_of_none hnone]
    rfl
  | quiet _ _ ho _ => exact ho

/-- **Outbound order.** Along any run, what goes out as new is what was accepted
through `Command::Send`, in that order and with rising numbers. A running replay
holds all of it back until `ReplayComplete`, whose gap fill goes out first, and
the highest number sent never passes the highest accepted. -/
theorem outbound_order (sessionId : SessionIdentifier) (config : SessionConfig)
    (nextInSeqNum : Nat) (now : Instant) (inputs : List Input) :
    let s₀ := SessionState.new sessionId config nextInSeqNum now
    let turns := trace Input.call s₀ inputs
    (∃ sent : List Message, sent.Sublist (turns.filterMap acceptedIn) ∧
      freshSends (output Input.call s₀ inputs) = sent.map fun msg => (s₀.onWire msg).msg) ∧
    (turns.filterMap acceptedIn).Pairwise Before ∧
    (freshSends (output Input.call s₀ inputs)).Pairwise Before ∧
    (∀ t ∈ turns, t.before.replay.isSome →
      (∀ now, t.input ≠ .command .replayComplete now) →
      freshSends t.outcome.out = [] ∧ t.outcome.state.replay.isSome) ∧
    (∀ t ∈ turns, t.before.replay = none → t.outcome.state.replay.isSome →
      transmissions t.outcome.out = []) ∧
    (∀ t ∈ turns, ∀ now, t.input = .command .replayComplete now →
      ∃ fills rest, t.outcome.out = fills ++ rest ∧ freshSends fills = [] ∧
        ∀ x ∈ transmissions rest, x.1 = .fresh) ∧
    (∀ t ∈ turns, t.outcome.state.highestSent ≤ t.outcome.state.highestAccepted) := by
  intro s₀ turns
  have hturn : ∀ t ∈ turns, Step t.input t.before t.outcome ∧
      t.outcome.state.highestSent ≤ t.outcome.state.highestAccepted := by
    intro t ht
    obtain ⟨pre, post, -, hbefore, hout⟩ := mem_trace Input.call ht
    have hstep : Step t.input t.before t.outcome := by
      rw [hout]
      exact step_spec _ _
    have hbase := run_ordered sessionId config nextInSeqNum now pre
    simp only at hbase
    rw [← hbefore] at hbase
    exact ⟨hstep, (ordered_step hbase hstep).highest⟩
  have hord := run_ordered sessionId config nextInSeqNum now inputs
  obtain ⟨sent, hsub, hsent⟩ := hord.fifo
  have hsub' : sent.Sublist (turns.filterMap acceptedIn) :=
    (List.sublist_append_left _ _).trans hsub
  refine ⟨⟨sent, hsub', hsent⟩, hord.rising, ?_, ?_, ?_, ?_, fun t ht => (hturn t ht).2⟩
  · -- going out keeps the number
    rw [hsent, List.pairwise_map]
    refine (hord.rising.sublist hsub').imp ?_
    rintro a b ⟨m, n, hm, hn, hlt⟩
    exact ⟨m, n, (s₀.onWire_msgSeqNum a).trans hm, (s₀.onWire_msgSeqNum b).trans hn, hlt⟩
  · intro t ht hreplay hi
    exact step_held (hturn t ht).1 hreplay hi
  · intro t ht hnone hsome
    exact step_starts (hturn t ht).1 hnone hsome
  · intro t ht now' hi
    have hstep := (hturn t ht).1
    rw [hi] at hstep
    cases hstep with
    | replayComplete hc =>
      obtain ⟨fills, rest, drained, left, hf⟩ := hc.finishes
      refine ⟨fills, rest, hf.output, hf.fills, ?_⟩
      intro x hx
      rw [hf.rest] at hx
      obtain ⟨msg, -, rfl⟩ := List.mem_map.mp hx
      rfl

end Babelfix.Session
