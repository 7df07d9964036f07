import Babelfix.Session.Run

/-! # Inbound accounting

Every inbound number is accounted for once: a call that moves the expected
number reports where it moved to, as `MessageReceived` or `InboundAdvanced`, and
nothing else reports. -/
namespace Babelfix.Session
open Lib

/-- The expected number an event tells the application about. -/
def report : Effect → Option Nat
  | .event (.messageReceived seqNum _) => some (seqNum + 1)
  | .event (.inboundAdvanced nextInSeqNum) => some nextInSeqNum
  | _ => none

def reports (o : List Effect) : List Nat := o.filterMap report

/-- The number of a message shown to the application. -/
def delivery : Effect → Option Nat
  | .event (.messageReceived seqNum _) => some seqNum
  | _ => none

def deliveries (o : List Effect) : List Nat := o.filterMap delivery

@[simp] theorem reports_append (o o' : List Effect) : reports (o ++ o') = reports o ++ reports o' :=
  List.filterMap_append

@[simp] theorem reports_cons_request (msg : Message) (o : List Effect) :
    reports (.event (.adminSendRequired msg) :: o) = reports o := rfl

@[simp] theorem reports_gapOut (s : SessionState) : reports (gapOut s) = [] := by
  unfold gapOut; split <;> rfl

@[simp] theorem reports_loggedOnOut (b : Bool) : reports (loggedOnOut b) = [] := by
  cases b <;> rfl

@[simp] theorem reports_syncOut (s : SessionState) : reports (syncOut s) = [] := rfl

theorem reports_outward {o} (h : ∀ e ∈ o, Outward e) : reports o = [] :=
  filterMap_outward (fun e he => by cases he <;> rfl) h

/-! ## One call -/

/-- How a call accounts for the message it was fed. -/
inductive Accounted (i : Input) (s : SessionState)
    (r : OpOutcome Progress) : Prop
  | still (hs : r.state.nextInSeqNum = s.nextInSeqNum) (ho : reports r.out = [])
  | reported {msg} (hi : i.inbound = some msg)
    (hn : Carries msg s.nextInSeqNum)
    (hnext : NextAfter msg s.nextInSeqNum r.state.nextInSeqNum) (hok : r.result = .ok .continue)
    (ho : reports r.out = [r.state.nextInSeqNum])
  | unreported {msg f} (hi : i.inbound = some msg)
    (hn : Carries msg s.nextInSeqNum)
    (hnext : NextAfter msg s.nextInSeqNum r.state.nextInSeqNum) (hf : r.result = .error f)
    (ho : reports r.out = [])

variable {msg : Message} {now : Instant} {s : SessionState}
variable {r : OpOutcome Progress}

theorem Dispatched.nextInSeqNum {inSequence} (h : Dispatched msg inSequence now s r) :
    r.state.nextInSeqNum = s.nextInSeqNum := by
  cases h <;> rfl

/-- An in-sequence message is reported exactly once if it is dispatched. -/
theorem Dispatched.reports_inSequence {n} (h : Dispatched msg true now s r)
    (hn : Carries msg n) (hnext : NextAfter msg n s.nextInSeqNum) :
    (r.result = .ok .continue ∧ reports r.out = [s.nextInSeqNum]) ∨
      ∃ f, r.result = .error f ∧ reports r.out = [] := by
  cases h with
  | @shown m hshown hm =>
    cases hm.unique hn
    have := hshown.next hnext
    exact .inl ⟨rfl, by simp [reports, report, this]⟩
  | unanswered h1 hid | refused h2 hf | unshown hshown hm => exact .inr ⟨_, rfl, rfl⟩
  | _ => exact .inl ⟨rfl, rfl⟩

/-- A ResendRequest serviced from inside a gap is not reported. -/
theorem Dispatched.reports_resend (h : Dispatched msg false now s r) (h2 : msg.msgType = "2") :
    reports r.out = [] := by
  cases h with
  | shown hshown hm =>
    obtain h3 | ha := hshown
    · rw [h2] at h3
      exact absurd h3 (by decide)
    · simp [Message.isAdmin, h2] at ha
  | _ => rfl

variable {i : Input}

theorem Handled.accounted (h : Handled msg now s r) (hi : i.inbound = some msg) : Accounted i s r := by
  -- an in-sequence message moves the number before it is dispatched
  have hseq : ∀ {next} {r : OpOutcome Progress},
      Carries msg s.nextInSeqNum →
      NextAfter msg s.nextInSeqNum next → Dispatched msg true now (advancedTo s next) r →
      NextAfter msg s.nextInSeqNum r.state.nextInSeqNum ∧
        ((r.result = .ok .continue ∧ reports r.out = [r.state.nextInSeqNum]) ∨
          ∃ f, r.result = .error f ∧ reports r.out = []) := by
    intro next r hn hnext hd
    have hstate : r.state.nextInSeqNum = next := hd.nextInSeqNum
    rw [hstate]
    exact ⟨hnext, hd.reports_inSequence hn hnext⟩
  cases h with
  | gap hn h h2 h5 | gapLogout hn h h5 =>
    refine .still ?_ (reports_gapOut s)
    unfold gapState; split <;> rfl
  | gapResend hn h h2 hd =>
    refine .still ?_ ?_
    · rw [Outcome.prepend_state, hd.nextInSeqNum]
      unfold gapState; split <;> rfl
    · simp [hd.reports_resend h2]
  | failed hn hnext hd hf =>
    obtain ⟨hnext', ⟨hok, -⟩ | ⟨f', hf', ho⟩⟩ := hseq hn hnext hd
    · rw [hf] at hok
      cases hok
    · exact .unreported hi hn hnext' hf ho
  | accepted hn hnext hd hok hdue =>
    obtain ⟨hnext', ⟨-, ho⟩ | ⟨f', hf', -⟩⟩ := hseq hn hnext hd
    · exact .reported hi hn hnext' hok ho
    · rw [hok] at hf'
      cases hf'
  | acceptedLogout hn hnext hd hok hdue =>
    obtain ⟨hnext', ⟨-, ho⟩ | ⟨f', hf', -⟩⟩ := hseq hn hnext hd
    · refine .reported hi hn hnext' rfl ?_
      simp only [reports_append, ho]
      rfl
    · rw [hok] at hf'
      cases hf'
  | _ => exact .still rfl rfl

theorem Started.accounted {logon} (h : Started logon now s r) :
    Accounted (.start logon now) s r := by
  have hi : (Input.start logon now).inbound = some logon := rfl
  cases h with
  | failed h hf => exact h.accounted hi
  | refused h hok hc =>
    cases h.accounted hi with
    | still hs ho => exact .still hs ho
    | reported hi hn hnext hok ho => exact .reported hi hn hnext rfl ho
    | unreported hi hn hnext hf ho => rw [hok] at hf; cases hf
  | established h hok hc =>
    cases h.accounted hi with
    | still hs ho => exact .still hs (by simp [ho])
    | reported hi hn hnext hok ho => exact .reported hi hn hnext rfl (by simp [ho]; rfl)
    | unreported hi hn hnext hf ho => rw [hok] at hf; cases hf

theorem Received.accounted (h : Received msg now s r) :
    Accounted (.message msg now) s r := by
  have hi : (Input.message msg now).inbound = some msg := rfl
  cases h with
  | ignored hc => exact .still rfl rfl
  | handled hc h =>
    cases h.accounted hi with
    | still hs ho => exact .still hs ho
    | reported hi hn hnext hok ho => exact .reported hi hn hnext hok ho
    | unreported hi hn hnext hf ho => exact .unreported hi hn hnext hf ho

theorem Completed.nextInSeqNum (h : Completed s r) : r.state.nextInSeqNum = s.nextInSeqNum := by
  cases h with
  | @drained replay gap r r' hs ht hg hd hr =>
    rw [Outcome.prepend_state, hr.frame.1, hd.frame]
    cases gap <;> rfl
  | _ => rfl

theorem TimedOut.nextInSeqNum (h : TimedOut now s r) :
    r.state.nextInSeqNum = s.nextInSeqNum := by
  cases h with
  | ticked hc hb hk => cases hb <;> cases hk <;> rfl
  | _ => rfl

theorem step_accounted (h : Step i s r) : Accounted i s r := by
  cases h with
  | start h | message h => exact h.accounted
  | send h =>
    refine .still ?_ (reports_outward h.outward)
    cases h <;> rfl
  | replayed h hok | replayFailed h hf =>
    exact .still (by rw [h.frame]; rfl) (reports_outward h.outward)
  | replayComplete h | timeout h => exact .still h.nextInSeqNum (reports_outward h.outward)
  | _ => exact .still rfl rfl

/-! ## Runs -/

/-- Along a run the reported positions climb, each at most the expected number. -/
theorem run_reports (s : SessionState) (inputs : List Input) :
    (s.nextInSeqNum :: reports (output Input.call s inputs)).Pairwise (· < ·) ∧
      ∀ p ∈ s.nextInSeqNum :: reports (output Input.call s inputs),
        p ≤ (final Input.call s inputs).nextInSeqNum := by
  refine run_induction (motive := fun inputs s' =>
    (s.nextInSeqNum :: reports (output Input.call s inputs)).Pairwise (· < ·) ∧
      ∀ p ∈ s.nextInSeqNum :: reports (output Input.call s inputs), p ≤ s'.nextInSeqNum)
    Input.call s inputs (by simp [reports]) ?_
  rintro pre i ⟨hchain, hle⟩
  generalize hs' : final Input.call s pre = s' at hle ⊢
  have hout : reports (output Input.call s (pre ++ [i])) =
      reports (output Input.call s pre) ++ reports (i.call.run s').out := by
    rw [output_append, output_singleton, hs', reports_append]
  have hacc := step_accounted (step_spec i s')
  rw [hout]
  cases hacc with
  | still hs ho =>
    rw [ho, List.append_nil]
    refine ⟨hchain, ?_⟩
    intro p hp
    rw [hs]
    exact hle p hp
  | unreported hi hn hnext hf ho =>
    rw [ho, List.append_nil]
    refine ⟨hchain, ?_⟩
    intro p hp
    exact (hle p hp).trans hnext.lt.le
  | reported hi hn hnext hok ho =>
    rw [ho, ← List.cons_append]
    refine ⟨?_, ?_⟩
    · rw [List.pairwise_append]
      refine ⟨hchain, List.pairwise_singleton _ _, ?_⟩
      intro p hp q hq
      rw [List.mem_singleton.mp hq]
      exact (hle p hp).trans_lt hnext.lt
    · intro p hp
      obtain hp | hp := List.mem_append.mp hp
      · exact (hle p hp).trans hnext.lt.le
      · exact (List.mem_singleton.mp hp).le

theorem deliveries_sublist (o : List Effect) :
    ((deliveries o).map (· + 1)).Sublist (reports o) := by
  induction o with
  | nil => exact List.Sublist.slnil
  | cons e o ih =>
    unfold deliveries reports at *
    cases hd : delivery e with
    | none =>
      rw [List.filterMap_cons_none hd]
      refine ih.trans ?_
      rw [List.filterMap_cons]
      split
      · exact List.Sublist.refl _
      · exact List.sublist_cons_self _ _
    | some n =>
      have hr : report e = some (n + 1) := by
        unfold delivery at hd
        split at hd
        · cases hd
          rfl
        · cases hd
      rw [List.filterMap_cons_some hd, List.filterMap_cons_some hr]
      exact ih.cons_cons _

theorem run_deliveries (s : SessionState) (inputs : List Input) :
    (deliveries (output Input.call s inputs)).Pairwise (· < ·) := by
  have hreports := (List.pairwise_cons.mp (run_reports s inputs).1).2
  have hmap := hreports.sublist (deliveries_sublist (output Input.call s inputs))
  rw [List.pairwise_map] at hmap
  exact hmap.imp fun h => by omega

/-- A call that failed although its message had been accounted for. -/
def FailedAdvance (t : Turn Input SessionState Effect Fault Progress) : Prop :=
  (∃ f, t.outcome.result = .error f) ∧ t.before.nextInSeqNum < t.outcome.state.nextInSeqNum

/-- While nothing is reported, only a failed call moves the expected number. -/
theorem run_still (s : SessionState) (inputs : List Input)
    (hquiet : reports (output Input.call s inputs) = []) :
    (final Input.call s inputs).nextInSeqNum = s.nextInSeqNum ∨
      ∃ t ∈ trace Input.call s inputs, FailedAdvance t := by
  induction inputs generalizing s with
  | nil => exact .inl rfl
  | cons i rest ih =>
    have hout : output Input.call s (i :: rest) =
        (i.call.run s).out ++ output Input.call (i.call.run s).state rest := rfl
    rw [hout, reports_append, List.append_eq_nil_iff] at hquiet
    obtain ⟨hhead, htail⟩ := hquiet
    obtain hsame | ⟨t, ht, hfail⟩ := ih _ htail
    · cases step_accounted (step_spec i s) with
      | still hs ho => exact .inl (hsame.trans hs)
      | reported hi hn hnext hok ho => rw [hhead] at ho; cases ho
      | unreported hi hn hnext hf ho =>
        exact .inr ⟨_, List.mem_cons_self, ⟨_, hf⟩, hnext.lt⟩
    · exact .inr ⟨t, List.mem_cons_of_mem _ ht, hfail⟩

/-- **Inbound accounting.** A call moves the expected number only for the message
that carries it, one further or to the gap fill's `NewSeqNo`; a successful call
that does reports the new position exactly once, and no other call reports. Over
any run the numbers shown and the positions reported climb, and from one report
to the next the position moves by one, unless a gap fill moved it or a call that
failed in between did. The state is arbitrary, so the run may start anywhere. -/
theorem inbound_accounting (s : SessionState) :
    (∀ (i : Input) (msg : Message), i.inbound = some msg →
      let r := i.call.run s
      (r.state.nextInSeqNum ≠ s.nextInSeqNum →
        Carries msg s.nextInSeqNum ∧
        (msg.msgType = "4" → SessionState.gapFillNewSeqNum msg = .ok r.state.nextInSeqNum ∧
          s.nextInSeqNum < r.state.nextInSeqNum) ∧
        (msg.msgType ≠ "4" → r.state.nextInSeqNum = s.nextInSeqNum + 1)) ∧
      (r.state.nextInSeqNum ≠ s.nextInSeqNum → (∃ p, r.result = .ok p) →
        reports r.out = [r.state.nextInSeqNum]) ∧
      (r.state.nextInSeqNum = s.nextInSeqNum ∨ (∃ f, r.result = .error f) →
        reports r.out = [])) ∧
    (∀ i : Input, i.inbound = none → (i.call.run s).state.nextInSeqNum = s.nextInSeqNum ∧
      reports (i.call.run s).out = []) ∧
    (∀ inputs, (deliveries (output Input.call s inputs)).Pairwise (· < ·) ∧
      (reports (output Input.call s inputs)).Pairwise (· < ·)) ∧
    (∀ (i : Input) (mid : List Input) (j : Input) (p q : Nat), reports (i.call.run s).out = [p] →
      let s₁ := (i.call.run s).state
      let s₂ := final Input.call s₁ mid
      reports (output Input.call s₁ mid) = [] → reports (j.call.run s₂).out = [q] →
      q = p + 1 ∨
        (∃ msg, j.inbound = some msg ∧ msg.msgType = "4" ∧
          SessionState.gapFillNewSeqNum msg = .ok q) ∨
        ∃ t ∈ trace Input.call s₁ mid, FailedAdvance t) := by
  refine ⟨?_, ?_, ?_, ?_⟩
  · intro i msg hi r
    cases step_accounted (step_spec i s) with
    | still hs ho => exact ⟨fun h => absurd hs h, fun h => absurd hs h, fun _ => ho⟩
    | reported hi' hn hnext hok ho =>
      rw [hi] at hi'
      cases hi'
      refine ⟨fun _ => ⟨hn, hnext.of_gapFill, hnext.of_other⟩, fun _ _ => ho, ?_⟩
      rintro (h | ⟨f, hf⟩)
      · exact absurd h hnext.lt.ne'
      · rw [hok] at hf
        cases hf
    | unreported hi' hn hnext hf ho =>
      rw [hi] at hi'
      cases hi'
      refine ⟨fun _ => ⟨hn, hnext.of_gapFill, hnext.of_other⟩, ?_, fun _ => ho⟩
      rintro - ⟨p, hp⟩
      rw [hf] at hp
      cases hp
  · intro i hi
    cases step_accounted (step_spec i s) with
    | still hs ho => exact ⟨hs, ho⟩
    | reported hi' | unreported hi' => rw [hi] at hi'; cases hi'
  · intro inputs
    exact ⟨run_deliveries s inputs, (List.pairwise_cons.mp (run_reports s inputs).1).2⟩
  · intro i mid j p q hp s₁ s₂ hquiet hq
    have hs₁ : s₁.nextInSeqNum = p := by
      cases step_accounted (step_spec i s) with
      | reported hi hn hnext hok ho => rw [hp] at ho; cases ho; rfl
      | still hs ho | unreported hi hn hnext hf ho => rw [hp] at ho; cases ho
    obtain hsame | hfail := run_still s₁ mid hquiet
    · cases step_accounted (step_spec j s₂) with
      | still hs ho | unreported hi hn hnext hf ho => rw [hq] at ho; cases ho
      | @reported msg hi hn hnext hok ho =>
        rw [hq] at ho
        cases ho
        obtain ⟨h4, hf, -⟩ | ⟨-, h, -⟩ := hnext
        · exact .inr (.inl ⟨msg, hi, h4, hf⟩)
        · refine .inl ?_
          rw [h, hsame, hs₁]
    · exact .inr (.inr hfail)

/-- A TestRequest without its `TestReqID` fails in sequence: its number is
accounted for, but not reported, so the next report is two further on. -/
theorem unreported_advance :
    let s := Sample.session
    let i : Input := .message (Sample.numbered "B" 1) 0
    let mid : List Input := [.message (Sample.numbered "1" 2) 0]
    let j : Input := .message (Sample.numbered "B" 3) 0
    reports (i.call.run s).out = [2] ∧
      reports (output Input.call (i.call.run s).state mid) = [] ∧
      reports (j.call.run (final Input.call (i.call.run s).state mid)).out = [4] ∧
      ∀ k ∈ i :: mid ++ [j], ∀ msg, k.inbound = some msg → msg.msgType ≠ "4" := by
  refine ⟨by decide, by decide, by decide, ?_⟩
  intro k hk msg hmsg
  simp only [List.cons_append, List.nil_append, List.mem_cons, List.not_mem_nil, or_false] at hk
  obtain rfl | rfl | rfl := hk <;> cases hmsg <;> decide

end Babelfix.Session
