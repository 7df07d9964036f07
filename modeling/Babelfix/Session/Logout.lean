import Babelfix.Session.Conduct

/-! # The peer's Logout in a gap

A Logout that arrives ahead of its turn is acknowledged once the gap has closed. The
gap closes at the number that opened it, so what precedes the Logout has arrived by
then only if the Logout itself opened the gap. -/
namespace Babelfix.Session
open Lib

/-- The session asks for the Logout that acknowledges the peer's. -/
def Acknowledges (o : List Effect) : Prop :=
  ∃ msg ∈ requests o, msg.msgType = "5" ∧
    msg.body = [.field Fields.text.tag SessionState.logoutReceivedText]

instance (o : List Effect) : Decidable (Acknowledges o) := by
  unfold Acknowledges
  infer_instance

/-- While it lasts, the gap reaches up to the Logout numbered `last`. -/
def Awaits (last : Nat) (s : SessionState) : Prop :=
  s.closing = none → s.nextInSeqNum < last → ∃ m, s.rerequestInProgress = some m ∧ last ≤ m

/-- Another Logout, in its turn before the message that precedes the one numbered
`last`. -/
def EarlierLogout (last : Nat) (s : SessionState) (msg : Message) : Prop :=
  msg.msgType = "5" ∧ Carries msg s.nextInSeqNum ∧
    s.nextInSeqNum + 1 < last

instance (last : Nat) (s : SessionState) (msg : Message) :
    Decidable (EarlierLogout last s msg) := by
  unfold EarlierLogout
  infer_instance

/-! ## What asks for the acknowledgement -/

theorem not_acknowledges {o} (h : ∀ msg ∈ requests o, msg.msgType ≠ "5") : ¬ Acknowledges o := by
  rintro ⟨msg, hmsg, h5, -⟩
  exact h msg hmsg h5

theorem not_acknowledges_logout (s : SessionState) {text}
    (ht : text ≠ SessionState.logoutReceivedText) :
    ¬ Acknowledges [.event (.adminSendRequired (s.logout text))] := by
  rintro ⟨msg, hmsg, -, hbody⟩
  have hset : Block.set [] Fields.text text =
      [.field Fields.text.tag SessionState.logoutReceivedText] := by
    rw [List.mem_singleton.mp hmsg] at hbody
    exact hbody
  unfold Block.set at hset
  split at hset
  · cases hset
  · injection hset with hfield _
    injection hfield with _ htext
    exact ht htext

theorem acknowledges_append {o o'} (h : Acknowledges (o ++ o')) :
    Acknowledges o ∨ Acknowledges o' := by
  obtain ⟨msg, hmsg, htext⟩ := h
  rw [requests_append, List.mem_append] at hmsg
  exact hmsg.imp (fun hm => ⟨msg, hm, htext⟩) fun hm => ⟨msg, hm, htext⟩

theorem tooLowText_ne (expected got : Nat) :
    SessionState.tooLowText expected got ≠ SessionState.logoutReceivedText := by
  intro h
  have hhead := congrArg List.head? h
  simp [SessionState.tooLowText, SessionState.logoutReceivedText, ascii] at hhead

/-! ## One call -/

/-- A call keeps waiting, and does not acknowledge the Logout before its turn. -/
def Defers (last : Nat) (r : OpOutcome Progress) : Prop :=
  Awaits last r.state ∧ (Acknowledges r.out → last ≤ r.state.nextInSeqNum)

variable {last : Nat} {s s' : SessionState} {o : List Effect}

/-- Only the inbound side matters, and a session that closes waits for nothing. -/
theorem Awaits.transfer (h : Awaits last s) (hn : s'.nextInSeqNum = s.nextInSeqNum)
    (hr : s'.rerequestInProgress = s.rerequestInProgress)
    (hc : s'.closing = none → s.closing = none) : Awaits last s' := by
  intro hclosing hlt
  rw [hn] at hlt
  rw [hr]
  exact h (hc hclosing) hlt

variable {r : OpOutcome Progress}

theorem Awaits.quiet (h : Awaits last s) (hn : r.state.nextInSeqNum = s.nextInSeqNum)
    (hr : r.state.rerequestInProgress = s.rerequestInProgress)
    (hc : r.state.closing = none → s.closing = none) (ho : ¬ Acknowledges r.out) :
    Defers last r :=
  ⟨h.transfer hn hr hc, fun ha => absurd ha ho⟩

/-- A gap that reaches up to the Logout is not cut short. -/
theorem Awaits.advancedTo (h : Awaits last s) (next : Nat) (hlt : s.nextInSeqNum < next) :
    Awaits last (advancedTo s next) := by
  intro hc hnext
  obtain ⟨m, hm, hle⟩ := h hc (Nat.lt_trans hlt hnext)
  have hopen : next < m := Nat.lt_of_lt_of_le hnext hle
  exact ⟨m, by simp [Session.advancedTo, hm, hopen], hle⟩

theorem Awaits.gapState (h : Awaits last s) (n : Nat) : Awaits last (gapState s n) := by
  unfold Session.gapState
  split
  · rename_i hnone
    intro hc hlt
    obtain ⟨m, hm, -⟩ := h hc hlt
    rw [hm] at hnone
    cases hnone
  · exact h

variable {msg : Message} {now : Instant}

theorem Dispatched.deferring {inSequence} (hd : Dispatched msg inSequence now s r) :
    r.state.nextInSeqNum = s.nextInSeqNum ∧
      r.state.rerequestInProgress = s.rerequestInProgress ∧
      (r.state.closing = none → s.closing = none) ∧
      (Acknowledges r.out → msg.msgType = "5") := by
  have hreport : requests (reportOut inSequence s) = [] := requests_reportOut inSequence s
  cases hd with
  | logout h5 hs =>
    refine ⟨rfl, rfl, ?_, fun _ => h5⟩
    intro hc
    cases hc
  | logoutAgain h5 hs => exact ⟨rfl, rfl, id, fun _ => h5⟩
  | answered h1 hid =>
    refine ⟨rfl, rfl, id, fun ha => absurd ha (not_acknowledges ?_)⟩
    intro m hm
    rw [requests_request, hreport, List.mem_singleton] at hm
    rw [hm]
    exact (by simp : ("0" : String) ≠ "5")
  | quiet h => exact ⟨rfl, rfl, id, fun ha => absurd ha (not_acknowledges (by simp))⟩
  | recovered h hid hs | resending h hb he hs ho hr =>
    refine ⟨rfl, rfl, id, fun ha => absurd ha (not_acknowledges ?_)⟩
    cases inSequence <;> simp [requests, requested, reportOut]
  | _ => exact ⟨rfl, rfl, id, fun ha => absurd ha (not_acknowledges (by simp [requests, requested]))⟩

theorem not_acknowledges_gapOut (s : SessionState) : ¬ Acknowledges (gapOut s) := by
  refine not_acknowledges fun msg hmsg => ?_
  rw [requests_gapOut s msg hmsg]
  simp

/-- A message in its turn: what is asked for before it is acted on waits for its own
turn too. -/
theorem Dispatched.inTurn {next} (hn : Carries msg s.nextInSeqNum)
    (hnext : NextAfter msg s.nextInSeqNum next) (hd : Dispatched msg true now (advancedTo s next) r)
    (h : Awaits last s) (hone : ¬ EarlierLogout last s msg) : Defers last r := by
  obtain ⟨hsame, hgap, hclosing, hack⟩ := hd.deferring
  refine ⟨(h.advancedTo next hnext.lt).transfer hsame hgap hclosing, ?_⟩
  intro ha
  have h5 := hack ha
  have hsucc : next = s.nextInSeqNum + 1 := hnext.of_other (by rw [h5]; simp)
  have hat : r.state.nextInSeqNum = next := hsame
  rw [hat, hsucc]
  by_contra hlt
  exact hone ⟨h5, hn, Nat.lt_of_not_le hlt⟩

theorem Handled.defers (hh : Handled msg now s r) (h : Awaits last s) (hone : ¬ EarlierLogout last s msg) :
    Defers last r := by
  have hno : ¬ Acknowledges [] := not_acknowledges (by simp)
  cases hh with
  | low _ _ hc => exact h.quiet rfl rfl (fun _ => hc) (not_acknowledges_logout s (tooLowText_ne _ _))
  | @gap n hn hlt h2 h5 | @gapLogout n hn hlt h5 =>
    exact (h.gapState n).quiet rfl rfl id (not_acknowledges_gapOut s)
  | @gapResend n r hn hlt h2 hd =>
    obtain ⟨hsame, hgap, hclosing, hack⟩ := hd.deferring
    refine ⟨(h.gapState n).transfer hsame hgap hclosing, ?_⟩
    intro ha
    rcases acknowledges_append ha with ha | ha
    · exact absurd ha (not_acknowledges_gapOut s)
    · have h5 := hack ha
      rw [h2] at h5
      simp at h5
  | failed hn hnext hd hf | accepted hn hnext hd hok hdue => exact hd.inTurn hn hnext h hone
  | @acceptedLogout next r hn hnext hd hok hdue =>
    obtain ⟨hawaits, -⟩ := hd.inTurn hn hnext h hone
    obtain ⟨-, hclosed, hopen⟩ := hdue
    refine ⟨?_, ?_⟩
    · intro hc
      cases hc
    · intro _
      by_contra hlt
      obtain ⟨m, hm, -⟩ := hawaits hopen (Nat.lt_of_not_le hlt)
      rw [hm] at hclosed
      cases hclosed
  | _ => exact h.quiet rfl rfl id hno

theorem Started.defers {logon} (hs : Started logon now s r) (h : Awaits last s)
    (hone : ¬ EarlierLogout last s logon) : Defers last r := by
  cases hs with
  | failed hh hf | refused hh hok hc => exact hh.defers h hone
  | @established r hh hok hc =>
    obtain ⟨hawaits, hack⟩ := hh.defers h hone
    refine ⟨hawaits, ?_⟩
    intro ha
    rcases acknowledges_append ha with ha | ha
    · exact hack ha
    · refine absurd ha (not_acknowledges ?_)
      intro m hm
      rw [requests_append, requests_loggedOnOut, List.nil_append, requests_syncOut,
        List.mem_singleton] at hm
      rw [hm]
      exact (by simp : ("1" : String) ≠ "5")

theorem Received.defers (hr : Received msg now s r) (h : Awaits last s) (hone : ¬ EarlierLogout last s msg) :
    Defers last r := by
  have hraw : ¬ Acknowledges [.event (.rawMessageReceived msg)] :=
    not_acknowledges (by simp [requests, requested])
  cases hr with
  | ignored hc => exact h.quiet rfl rfl id hraw
  | handled hc hh =>
    have hheard : Awaits last (heard s now) := h.transfer rfl rfl id
    obtain ⟨hawaits, hack⟩ := hh.defers hheard hone
    refine ⟨hawaits, fun ha => ?_⟩
    exact hack ((acknowledges_append ha).resolve_left hraw)

theorem Completed.defers (hc : Completed s r) (h : Awaits last s) : Defers last r := by
  have hno : ¬ Acknowledges [] := not_acknowledges (by simp)
  cases hc with
  | @drained replay gap rd r' hs ht hg hd hr =>
    have hended : Awaits last (replayEnded s gap) := by
      cases gap <;> exact h.transfer rfl rfl id
    have hsync : requests r'.out = [] ∨ requests r'.out = requests (syncOut rd.state) := by
      have hquiet := hd.conduct.requests
      cases hr with
      | resynchronised _ _ => exact .inr (by rw [requests_append, hquiet, List.nil_append])
      | _ => exact .inl hquiet
    refine hended.quiet ?_ ?_ ?_ (not_acknowledges ?_)
    · rw [Outcome.prepend_state, hr.frame.1, hd.frame]
    · rw [Outcome.prepend_state, hr.frame.1, hd.frame]
    · rw [Outcome.prepend_state, hr.frame.1, hd.frame]
      exact id
    · intro m hm
      rw [Outcome.prepend_out, requests_append, requests_fillOut, List.nil_append] at hm
      rcases hsync with hsync | hsync
      · rw [hsync] at hm
        cases hm
      · rw [hsync, requests_syncOut, List.mem_singleton] at hm
        rw [hm]
        exact (by simp : ("1" : String) ≠ "5")
  | _ => exact h.quiet rfl rfl id hno

theorem TimedOut.defers (ht : TimedOut now s r) (h : Awaits last s) : Defers last r := by
  cases ht with
  | @ticked s₁ s₂ o₁ o₂ hc hb hk =>
    have hbeat : Awaits last s₁ ∧ ¬ Acknowledges o₁ := by
      cases hb with
      | idle _ => exact ⟨h, not_acknowledges (by simp)⟩
      | awaited _ _ => exact ⟨h.transfer rfl rfl id, not_acknowledges (by simp)⟩
      | requested _ _ =>
        refine ⟨h.transfer rfl rfl id, not_acknowledges ?_⟩
        intro m hm
        rw [List.mem_singleton.mp hm]
        exact (by simp : ("0" : String) ≠ "5")
    obtain ⟨hawaits, hno⟩ := hbeat
    have hcheck : Awaits last s₂ ∧ ¬ Acknowledges o₂ := by
      cases hk with
      | idle _ => exact ⟨hawaits, not_acknowledges (by simp)⟩
      | first _ _ => exact ⟨hawaits.transfer rfl rfl id, not_acknowledges (by simp)⟩
      | second _ _ =>
        refine ⟨hawaits.transfer rfl rfl id, not_acknowledges ?_⟩
        intro m hm
        rw [List.mem_singleton.mp hm]
        exact (by simp : ("1" : String) ≠ "5")
      | third _ _ hc =>
        refine ⟨hawaits.transfer rfl rfl fun _ => hc, not_acknowledges_logout _ ?_⟩
        decide
    refine ⟨hcheck.1, ?_⟩
    intro ha
    rcases acknowledges_append ha with ha | ha
    · exact absurd ha hno
    · exact absurd ha hcheck.2
  | _ => exact h.quiet rfl rfl id (not_acknowledges (by simp))

theorem Step.defers {i} (hstep : Step i s r) (h : Awaits last s)
    (hone : ∀ msg, i.inbound = some msg → ¬ EarlierLogout last s msg) : Defers last r := by
  have hreplayed {msg : Message} {now : Instant} {r : OpOutcome Unit}
      {result : Except Fault Progress} (hr : Replayed msg (outReset s now) r) :
      Defers last ⟨r.state, r.out, result⟩ := by
    refine h.quiet ?_ ?_ ?_ (not_acknowledges (by simp [hr.requests_eq])) <;> rw [hr.frame]
    · rfl
    · rfl
    · exact id
  cases hstep with
  | requestLogon =>
    refine h.quiet rfl rfl id (not_acknowledges ?_)
    intro m hm
    rw [List.mem_singleton.mp hm]
    exact (by simp : ("A" : String) ≠ "5")
  | start hs | message hs => exact hs.defers h (hone _ rfl)
  | send hs =>
    have hno : ¬ Acknowledges r.out := not_acknowledges (by simp [hs.said.1])
    cases hs with
    | rejected _ => exact h.quiet rfl rfl id hno
    | deferred _ _ _ => exact h.quiet rfl rfl id hno
    | dispatched _ _ _ => exact h.quiet rfl rfl id hno
  | replayed hs _ | replayFailed hs _ => exact hreplayed hs
  | @replayComplete now _ _ hs => exact hs.defers (h.transfer rfl rfl id)
  | disconnect hc =>
    exact h.quiet rfl rfl (fun _ => hc) (not_acknowledges_logout s (by decide))
  | disconnectAgain _ => exact h.quiet rfl rfl id (not_acknowledges (by simp))
  | timeout ht => exact ht.defers h
  | peerClosed => exact h.quiet rfl rfl id (not_acknowledges (by simp [requests, requested]))

/-! ## Whole runs -/

/-- A Logout ahead of its turn is not acknowledged, and opens the gap unless there is
one. -/
theorem Received.opens {logout} (hr : Received logout now s r) (h5 : logout.msgType = "5")
    (hn : Carries logout last) (hlt : s.nextInSeqNum < last)
    (hgap : ∀ m, s.rerequestInProgress = some m → last ≤ m) : Defers last r := by
  cases hr with
  | ignored hc =>
    refine ⟨?_, fun ha => absurd ha (not_acknowledges (by simp [requests, requested]))⟩
    intro hno
    rw [show (heard s now).closing = s.closing from rfl, hc] at hno
    cases hno
  | handled hc hh =>
    have hahead {n : Nat} (hn' : Carries logout n) : n = last := hn'.unique hn
    have hturn : logout.header.req Fields.msgSeqNum ≠ .ok (heard s now).nextInSeqNum := by
      intro hn'
      have hsame : s.nextInSeqNum = last := hahead hn'
      omega
    cases hh with
    | @gapLogout n hn' _ _ =>
      obtain rfl := hahead hn'
      refine ⟨?_, ?_⟩
      · intro _ _
        cases hopen : s.rerequestInProgress with
        | none => exact ⟨n, by simp [gapState, heard, hopen], le_rfl⟩
        | some m => exact ⟨m, by simp [gapState, heard, hopen], hgap m hopen⟩
      · intro ha
        refine absurd ha (not_acknowledges ?_)
        intro m hm
        rw [requests_gapOut _ m hm]
        simp
    | unread he =>
      rw [hn] at he
      cases he
    | garbage h4 _ =>
      rw [h5] at h4
      simp at h4
    | low hn' hlow _ =>
      obtain rfl := hahead hn'
      exact absurd hlow (Nat.lt_asymm hlt)
    | lowClosing hn' hlow _ =>
      obtain rfl := hahead hn'
      exact absurd hlow (Nat.lt_asymm hlt)
    | gap _ _ _ hno => exact absurd h5 hno
    | gapResend _ _ h2 _ =>
      rw [h5] at h2
      simp at h2
    | badFill hn' _ _ _ => exact absurd hn' hturn
    | overflow hn' _ _ => exact absurd hn' hturn
    | failed hn' _ _ _ => exact absurd hn' hturn
    | accepted hn' _ _ _ _ => exact absurd hn' hturn
    | acceptedLogout hn' _ _ _ _ => exact absurd hn' hturn

theorem run_defers (inputs : List Input) (h : Awaits last s)
    (hone : ∀ turn ∈ trace Input.call s inputs, ∀ msg, turn.input.inbound = some msg →
      ¬ EarlierLogout last turn.before msg) :
    ∀ turn ∈ trace Input.call s inputs, Defers last turn.outcome := by
  induction inputs generalizing s with
  | nil => simp
  | cons i rest ih =>
    have hfirst := (step_spec i s).defers h (hone _ List.mem_cons_self)
    intro turn hturn
    rcases List.mem_cons.mp hturn with rfl | hturn
    · exact hfirst
    · exact ih hfirst.1 (fun t ht => hone t (List.mem_cons_of_mem _ ht)) turn hturn

/-- **A deferred Logout.** In any state, a Logout that arrives ahead of its turn is not
acknowledged before everything that precedes it has arrived, as long as it finds no
gap that ends before it and no other Logout takes its turn meanwhile. -/
theorem deferred_logout (s : SessionState) (logout : Message) (now : Instant) (last : Nat)
    (h5 : logout.msgType = "5") (hn : Carries logout last)
    (hlt : s.nextInSeqNum < last) (hgap : ∀ m, s.rerequestInProgress = some m → last ≤ m)
    (rest : List Input) (hone : ∀ turn ∈ trace Input.call s (.message logout now :: rest),
      ∀ msg, turn.input.inbound = some msg → ¬ EarlierLogout last turn.before msg) :
    ∀ turn ∈ trace Input.call s (.message logout now :: rest),
      Acknowledges turn.outcome.out → last ≤ turn.outcome.state.nextInSeqNum := by
  have harrived := (SessionState.onMessage_spec logout now s).opens h5 hn hlt hgap
  intro turn hturn
  rcases List.mem_cons.mp hturn with rfl | hturn
  · exact harrived.2
  · exact (run_defers rest harrived.1
      (fun t ht => hone t (List.mem_cons_of_mem _ ht)) turn hturn).2

namespace Sample

/-- A gap fill numbered `n` that moves on to `next`. -/
def gapFill (n next : Nat) : Message :=
  { numbered "4" n with body := [.field 123 (ascii "Y"), .field 36 (writeUint next)] }

/-- What follows a Logout numbered 5 that is the first to be ahead. -/
def filledUpToLogout : List Input :=
  [.message (numbered "B" 1) 0, .message (gapFill 2 4) 0, .message (numbered "B" 4) 0]

/-- Message 3 is ahead, and then the Logout numbered 5. -/
def logoutInGap : List Input :=
  [.message (numbered "B" 3) 0, .message (numbered "5" 5) 0, .message (numbered "B" 1) 0,
    .message (numbered "B" 2) 0]

end Sample

/-- The Logout numbered 5 is acknowledged with 4, not before. -/
theorem deferred_logout_filledUpTo :
    (trace Input.call Sample.session
      (.message (Sample.numbered "5" 5) 0 :: Sample.filledUpToLogout)).map
        (fun t => (decide (Acknowledges t.outcome.out), t.outcome.state.nextInSeqNum)) =
      [(false, 1), (false, 2), (false, 4), (true, 5)] ∧
    ∀ turn ∈ trace Input.call Sample.session
      (.message (Sample.numbered "5" 5) 0 :: Sample.filledUpToLogout),
      Acknowledges turn.outcome.out → 5 ≤ turn.outcome.state.nextInSeqNum := by
  refine ⟨by decide +kernel, deferred_logout Sample.session (Sample.numbered "5" 5) 0 5 rfl
    (by decide +kernel) (by decide) (fun m hm => by cases hm) Sample.filledUpToLogout ?_⟩
  intro turn hturn msg hmsg
  revert hmsg msg
  revert turn
  decide +kernel

/-- The gap that message 3 opened ends at 3, and the Logout numbered 5 is acknowledged
with messages 3 and 4 still missing. -/
theorem logout_acknowledged_early :
    (trace Input.call Sample.session Sample.logoutInGap).map
      (fun t => (decide (Acknowledges t.outcome.out), t.outcome.state.nextInSeqNum)) =
      [(false, 1), (false, 1), (false, 2), (true, 3)] := by
  decide +kernel

end Babelfix.Session
