import Babelfix.Lib.Tiles
import Babelfix.Session.Resend

/-! # A replay tiles the range it answers

Whatever the application offers, the gap fills and retransmissions of a replay
cover the requested range, in order and each number once. -/
namespace Babelfix.Session
open Lib

variable {n : Nat}

namespace Replay

/-- The first number of the range not yet on the wire. -/
def position (r : Replay) : Nat := r.nextExpectedSeqNum - r.gapFillCount

/-- What the counters of a running replay satisfy. -/
structure WellFormed (r : Replay) : Prop where
  owed : r.gapFillCount ≤ r.nextExpectedSeqNum
  upTo : r.nextExpectedSeqNum ≤ r.endSeqNo + 1
  bound : r.endSeqNo < u64Max

variable {r : Replay}

theorem Offered.wellFormed {b p} (h : Offered r n b p) (hr : r.WellFormed) : p.1.WellFormed := by
  obtain ⟨howed, hupTo, hbound⟩ := hr
  cases h with
  | skip h => exact ⟨howed, hupTo, hbound⟩
  | absorb h he =>
    refine ⟨?_, Nat.succ_le_succ he, hbound⟩
    show r.owed n + 1 ≤ n + 1
    unfold Replay.owed
    omega
  | plain h he ho | fill h he ho hle => exact ⟨Nat.zero_le _, Nat.succ_le_succ he, hbound⟩

/-- What a step puts on the wire, as spans. -/
def stepSpans (n : Nat) : ReplayStep → List (Nat × Nat)
  | .retransmit (some gap) => [gap, (n, n)]
  | .retransmit none => [(n, n)]
  | _ => []

theorem Offered.tiles {b p} (h : Offered r n b p) :
    Tiles r.position p.1.position (stepSpans n p.2) := by
  cases h with
  | skip h => rfl
  | absorb h he =>
    show r.nextExpectedSeqNum - r.gapFillCount = n + 1 - (r.owed n + 1)
    unfold Replay.owed
    omega
  | plain h he ho =>
    refine ⟨?_, le_refl n, rfl⟩
    show n = r.nextExpectedSeqNum - r.gapFillCount
    unfold Replay.owed at ho
    omega
  | fill h he ho hle =>
    unfold Replay.owed at ho hle ⊢
    refine ⟨?_, ?_, ?_, le_refl n, rfl⟩
    · show n - (r.gapFillCount + (n - r.nextExpectedSeqNum)) =
        r.nextExpectedSeqNum - r.gapFillCount
      omega
    · show n - (r.gapFillCount + (n - r.nextExpectedSeqNum)) ≤ n - 1
      omega
    · show n = n - 1 + 1
      omega

end Replay

/-! ## On the wire -/

/-- A gap fill or retransmission that stands for the numbers from `first` to `last`. -/
inductive Answer (first last : Nat) : Origin × Unstamped → Prop
  | resent {u} (hn : Carries u.msg first)
    (ht : SessionState.gapFilled u.msg = false) (h : last = first) :
    Answer first last (.retransmission, u)
  | filled {u} (hn : Carries u.msg first) (ht : u.msg.msgType = "4")
    (hnew : SessionState.gapFillNewSeqNum u.msg = .ok (last + 1)) (h : first ≤ last) :
    Answer first last (.gapFill, u)

/-- Messages that stand for the numbers from `lo` up to but not including `hi`. -/
inductive Answers : Nat → Nat → List (Origin × Unstamped) → Prop
  | nil {lo} : Answers lo lo []
  | cons {first last hi x xs} (h : Answer first last x) (hrest : Answers (last + 1) hi xs) :
    Answers first hi (x :: xs)

/-- The numbers a message on the wire stands for. -/
def span (x : Origin × Unstamped) : Option (Nat × Nat) :=
  match x.1, x.2.msg.header.req Fields.msgSeqNum, x.2.msg.body.req Fields.newSeqNo with
  | .retransmission, .ok n, _ => some (n, n)
  | .gapFill, .ok n, .ok new => some (n, new - 1)
  | _, _, _ => none

variable {msg : Message}

theorem SessionState.gapFillNewSeqNum_eq_ok {new} (h : gapFillNewSeqNum msg = .ok new) :
    msg.body.req Fields.newSeqNo = .ok new := by
  obtain ⟨flag, -, h⟩ := bind_eq_ok h
  split at h
  · cases h
  · exact ofField_eq_ok.mp h

variable {first last : Nat}

theorem Answer.span {x : Origin × Unstamped} (h : Answer first last x) :
    span x = some (first, last) ∧ first ≤ last := by
  cases h with
  | resent hn ht h => exact ⟨by simp [Session.span, hn, h], h.ge⟩
  | filled hn ht hnew h =>
    have := SessionState.gapFillNewSeqNum_eq_ok hnew
    exact ⟨by simp [Session.span, hn, this], h⟩

variable {lo hi : Nat} {xs : List (Origin × Unstamped)}

theorem Answers.append {mid ys} (hx : Answers lo mid xs) (hy : Answers mid hi ys) :
    Answers lo hi (xs ++ ys) := by
  induction hx with
  | nil => exact hy
  | cons h hrest ih => exact .cons h (ih hy)

theorem Answers.tiles (h : Answers lo hi xs) :
    Tiles lo hi (xs.filterMap span) := by
  induction h with
  | nil => rfl
  | cons h hrest ih =>
    obtain ⟨hspan, hle⟩ := h.span
    rw [List.filterMap_cons_some hspan]
    exact ⟨rfl, hle, ih⟩

theorem Answers.isSome_span (h : Answers lo hi xs) : ∀ x ∈ xs, (Session.span x).isSome := by
  induction h with
  | nil => rintro _ ⟨⟩
  | cons h hrest ih =>
    intro y hy
    obtain rfl | hy := List.mem_cons.mp hy
    · rw [h.span.1]
      rfl
    · exact ih y hy

theorem SessionState.gapFillMessage_gapFill (s : SessionState) (first : Nat) {new}
    (h : new ≤ u64Max) : gapFillNewSeqNum (s.gapFillMessage first new) = .ok new := by
  have hflag : (s.gapFillMessage first new).body.get Fields.gapFillFlag = .ok (some true) := by
    rw [← Block.req_eq_ok]
    have hne : Fields.newSeqNo.tag ≠ Fields.gapFillFlag.tag := by decide
    have hfind := Block.find_set_ne ((Message.new "" "").body.set Fields.gapFillFlag
      (writeBoolean true)) (writeUint new) hne
    have hset : (s.gapFillMessage first new).body.req Fields.gapFillFlag =
        ((Message.new "" "").body.set Fields.gapFillFlag (writeBoolean true)).req
          Fields.gapFillFlag := Block.req_eq_of_find hfind
    rw [hset]
    rfl
  have hnew := s.gapFillMessage_newSeqNo first h
  unfold gapFillNewSeqNum
  rw [hflag, hnew]
  rfl

theorem fillOut_answer (s : SessionState) (h : first ≤ last) (hbound : last < u64Max) :
    Answers first (last + 1) (transmissions (fillOut s (some (first, last)))) := by
  refine .cons (.filled ?_ rfl ?_ h) .nil
  · exact (s.onWire_msgSeqNum _).trans (s.gapFillMessage_msgSeqNum _ (by omega))
  · exact s.gapFillMessage_gapFill first (by omega)

/-- A message that can be replayed: it has a number, and a time it was sent at. -/
structure Replayable (msg : Message) : Prop where
  number : ∃ n, Carries msg n
  time : Timed msg.header

theorem Replayable.header (h : Replayable msg) (n : Nat) :
    ∃ header, SessionState.retransmissionHeader msg.header n = .ok header := by
  obtain ⟨-, hok⟩ | ⟨hno, -⟩ := retransmissionHeader_cases msg.header n
  · exact hok
  · exact absurd h.time hno

variable {s : SessionState} {replay : Replay}

theorem Replayed.tiles {r} (h : Replayed msg s r) (hmsg : Replayable msg)
    (hs : s.replay = some replay) (hr : replay.WellFormed) :
    r.result = .ok () ∧ ∃ replay', r.state.replay = some replay' ∧ replay'.WellFormed ∧
      replay'.endSeqNo = replay.endSeqNo ∧ replay'.queue = replay.queue ∧
      Answers replay.position replay'.position (transmissions r.out) := by
  obtain ⟨n, hn⟩ := hmsg.number
  cases h with
  | refused hf =>
    cases hf with
    | unread he => rw [hn] at he; cases he
    | noReplay hnone => rw [hs] at hnone; cases hnone
    | arithmetic hn' hs' ho =>
      rw [hs] at hs'
      cases hs'
      obtain ⟨p, hp⟩ := Replay.offer_isOk hr.owed hr.bound _ _
      rw [hp] at ho
      cases ho
  | @held m replay₁ replay' step hn' hs' ho hstep =>
    rw [hs] at hs'
    cases hs'
    have hoff := Replay.offer_spec ho
    have htiles := hoff.tiles
    obtain ⟨-, hend, hqueue⟩ := hoff.same
    refine ⟨rfl, _, rfl, hoff.wellFormed hr, hend, hqueue, ?_⟩
    have hnil : Replay.stepSpans m step = [] := by
      obtain rfl | rfl := hstep <;> rfl
    rw [hnil, Tiles.nil_iff] at htiles
    rw [htiles]
    exact .nil
  | noTime hn' hs' ho hh =>
    obtain ⟨header, hheader⟩ := hmsg.header _
    rw [hh] at hheader
    cases hheader
  | overflow hn' hs' ho hh hg =>
    rw [hs] at hs'
    cases hs'
    obtain ⟨hle, hfill⟩ := (Replay.offer_spec ho).le
    refine absurd ?_ hg
    intro first last hgap
    have := (hfill first last hgap).2
    have := hr.bound
    omega
  | @resent m replay₁ replay' gap header hn' hs' ho hh hg =>
    rw [hs] at hs'
    cases hs'
    have hoff := Replay.offer_spec ho
    have htiles := hoff.tiles
    obtain ⟨-, hend, hqueue⟩ := hoff.same
    have hle := hoff.le.1
    have hgapFilled : SessionState.gapFilled msg = false := by
      generalize SessionState.gapFilled msg = b at hoff
      cases hoff <;> rfl
    have hlast : Answer m m (.retransmission, s.onWire { msg with header }) :=
      .resent ((s.onWire_msgSeqNum _).trans (hn'.retransmission hh)) hgapFilled rfl
    refine ⟨rfl, replay', by cases gap <;> rfl, hoff.wellFormed hr, hend, hqueue, ?_⟩
    have hbound := hr.bound
    cases gap with
    | none =>
      obtain ⟨hpos, -, hnext⟩ := htiles
      rw [show replay.position = m from hpos.symm, ← show m + 1 = replay'.position from hnext]
      exact .cons hlast .nil
    | some bounds =>
      obtain ⟨first, last⟩ := bounds
      obtain ⟨hpos, hfl, hm, -, hnext⟩ := htiles
      rw [← hpos, ← show m + 1 = replay'.position from hnext]
      refine (fillOut_answer s hfl (by omega)).append ?_
      rw [← hm]
      exact .cons hlast .nil

/-- The commands that answer a request: the messages to replay, then the end. -/
def replayCommands (msgs : List (Message × Instant)) (now : Instant) : List Input :=
  msgs.map (fun m => .command (.replay m.1) m.2) ++ [.command .replayComplete now]

/-- **The replay loop.** Each message offered moves the position on over what goes
out for it, and no call fails. -/
theorem replay_run (msgs : List (Message × Instant)) (hmsgs : ∀ m ∈ msgs, Replayable m.1)
    (hs : s.replay = some replay) (hr : replay.WellFormed) :
    let inputs : List Input := msgs.map fun m => .command (.replay m.1) m.2
    (∀ t ∈ trace Input.call s inputs, t.outcome.result = .ok .continue) ∧
    ∃ replay', (final Input.call s inputs).replay = some replay' ∧ replay'.WellFormed ∧
      replay'.endSeqNo = replay.endSeqNo ∧ replay'.queue = replay.queue ∧
      Answers replay.position replay'.position (transmissions (output Input.call s inputs)) := by
  induction msgs generalizing s replay with
  | nil => exact ⟨by rintro _ ⟨⟩, replay, hs, hr, rfl, rfl, .nil⟩
  | cons m msgs ih =>
    intro inputs
    have hm := hmsgs m List.mem_cons_self
    -- one command, and the position it leaves
    have hone : ∀ r, Step (.command (.replay m.1) m.2) s r → r.result = .ok .continue ∧
        ∃ replay', r.state.replay = some replay' ∧ replay'.WellFormed ∧
          replay'.endSeqNo = replay.endSeqNo ∧ replay'.queue = replay.queue ∧
          Answers replay.position replay'.position (transmissions r.out) := by
      intro r hstep
      cases hstep with
      | replayed h hok => exact ⟨rfl, (h.tiles hm hs hr).2⟩
      | replayFailed h hf =>
        rw [(h.tiles hm hs hr).1] at hf
        cases hf
    obtain ⟨hok, replay₁, hs₁, hr₁, hend₁, hqueue₁, hwire₁⟩ := hone _ (step_spec _ s)
    obtain ⟨hoks, replay', hs', hr', hend', hqueue', hwire'⟩ :=
      ih (fun m' hm' => hmsgs m' (List.mem_cons_of_mem _ hm')) hs₁ hr₁
    refine ⟨?_, replay', hs', hr', hend'.trans hend₁, hqueue'.trans hqueue₁, ?_⟩
    · intro t ht
      obtain rfl | ht := List.mem_cons.mp ht
      · exact hok
      · exact hoks t ht
    · have hout : output Input.call s inputs =
          ((Input.command (.replay m.1) m.2).call.run s).out ++
            output Input.call ((Input.command (.replay m.1) m.2).call.run s).state
              (msgs.map fun m => .command (.replay m.1) m.2) := rfl
      rw [hout, transmissions_append]
      exact hwire₁.append hwire'

theorem Completed.tiles {r} (h : Completed s r) (hs : s.replay = some replay)
    (hr : replay.WellFormed) (hqueue : replay.queue = []) : r.result = .ok .continue ∧
      Answers replay.position (replay.endSeqNo + 1) (transmissions r.out) := by
  obtain ⟨howed, hupTo, hbound⟩ := hr
  have htrail : replay.trailingGapFill = .ok (if replay.position ≤ replay.endSeqNo then
      some (replay.position, replay.endSeqNo) else none) := by
    have hsub : subU64 replay.nextExpectedSeqNum replay.gapFillCount = .ok replay.position :=
      subU64_eq_ok.mpr ⟨howed, rfl⟩
    simp only [Replay.trailingGapFill, hsub, bind, Except.bind]
    rfl
  cases h with
  | noReplay hnone => rw [hs] at hnone; cases hnone
  | arithmetic hs' ht =>
    rw [hs] at hs'
    cases hs'
    rw [htrail] at ht
    cases ht
  | overflow hs' ht hg =>
    rw [hs] at hs'
    cases hs'
    rw [htrail] at ht
    cases ht
    refine absurd ?_ hg
    intro first last hgap
    split at hgap <;> cases hgap
    omega
  | drained hs' ht hg hd hres =>
    rw [hs] at hs'
    cases hs'
    rw [htrail] at ht
    cases ht
    rw [hqueue] at hd
    cases hd
    refine ⟨by cases hres <;> rfl, ?_⟩
    rw [Outcome.prepend_out, transmissions_append, hres.frame.2]
    have hpos : replay.position ≤ replay.endSeqNo + 1 := by
      unfold Replay.position; omega
    split
    · rename_i hle
      refine (fillOut_answer s hle hbound).append ?_
      exact .nil
    · have : replay.position = replay.endSeqNo + 1 := by omega
      rw [this]
      exact .nil

/-! ## The peer that asked -/

/-- A message that only moves the expected number on, from `n` to `next`. -/
def Passing (msg : Message) (n next : Nat) : Prop :=
  (msg.msgType = "4" ∧ SessionState.gapFillNewSeqNum msg = .ok next ∧ n < next) ∨
    (SessionState.gapFilled msg = false ∧ next = n + 1 ∧ n + 1 ≤ u64Max)

/-- What a session shows the application, or reports, for such a message. -/
def passed (msg : Message) (n next : Nat) : Event :=
  if msg.msgType = "3" ∨ msg.isAdmin = false then .messageReceived n msg else .inboundAdvanced next

theorem not_gapFilled (h : SessionState.gapFilled msg = false) :
    msg.msgType ∉ ["0", "1", "2", "4", "5", "A"] := by
  simp only [SessionState.gapFilled, Message.isAdmin] at h
  simp only [List.mem_cons, List.not_mem_nil, or_false] at h ⊢
  intro hmem
  obtain h' | h' | h' | h' | h' | h' := hmem <;> rw [h'] at h <;> revert h <;> decide

variable {next : Nat}

theorem Passing.nextAfter (h : Passing msg n next) :
    NextAfter msg n next := by
  obtain h | ⟨ht, hnext, hle⟩ := h
  · exact .inl h
  · refine .inr ⟨?_, hnext, hle⟩
    intro h4
    exact not_gapFilled ht (by simp [h4])

theorem Passing.msgType (h : Passing msg n next) :
    msg.msgType ∉ ["0", "1", "2", "5", "A"] := by
  obtain ⟨h4, -⟩ | ⟨ht, -⟩ := h
  · rw [h4]
    decide
  · have := not_gapFilled ht
    simp only [List.mem_cons, List.not_mem_nil, or_false, not_or] at this ⊢
    tauto

theorem Passing.dispatched {now r} (hp : Passing msg n next)
    (hn : Carries msg n) (hs : s.nextInSeqNum = next)
    (h : Dispatched msg true now s r) : r = ⟨s, [.event (passed msg n next)], .ok .continue⟩ := by
  have ht := hp.msgType
  simp only [List.mem_cons, List.not_mem_nil, or_false, not_or] at ht
  obtain ⟨h0, h1, h2, h5, hA⟩ := ht
  cases h with
  | quiet h =>
    simp only [List.mem_cons, List.not_mem_nil, or_false] at h
    have hadmin : msg.isAdmin = true ∧ msg.msgType ≠ "3" := by
      obtain h | h | h | h := h
      · exact absurd h hA
      · exact absurd h h0
      · simp [Message.isAdmin, h]
      · simp [Message.isAdmin, h]
    simp [passed, hadmin.1, hadmin.2, reportOut, hs]
  | shown h hm =>
    cases hm.unique hn
    rw [passed, if_pos (show msg.msgType = "3" ∨ msg.isAdmin = false from h)]
  | unshown h hm => rw [hn] at hm; cases hm
  | recovered h => exact absurd h h0
  | answered h | unanswered h => exact absurd h h1
  | resending h | refused h => exact absurd h h2
  | logout h | logoutAgain h => exact absurd h h5

theorem Passing.handled {now r} (hp : Passing msg s.nextInSeqNum next)
    (hn : Carries msg s.nextInSeqNum)
    (hdue : ¬ LogoutDue (advancedTo s next)) (h : Handled msg now s r) :
    r = ⟨advancedTo s next, [.event (passed msg s.nextInSeqNum next)], .ok .continue⟩ := by
  have hnum : ∀ {n}, Carries msg n → n = s.nextInSeqNum := fun h => h.unique hn
  -- the next number is the one the message says
  have hsame : ∀ {next'}, NextAfter msg s.nextInSeqNum next' → next' = next := by
    intro next' hnext
    obtain ⟨h4, hf, -⟩ | ⟨hne, rfl, -⟩ := hp.nextAfter
    · rw [(hnext.of_gapFill h4).1] at hf
      cases hf
      rfl
    · exact hnext.of_other hne
  cases h with
  | unread h => rw [hn] at h; cases h
  | garbage h4 hf =>
    obtain ⟨-, hok, -⟩ | ⟨hne, -⟩ := hp.nextAfter
    · rw [hf] at hok
      cases hok
    · exact absurd h4 hne
  | low hm hlt hc | lowClosing hm hlt hc => exact absurd (hnum hm) hlt.ne
  | gap hm hlt h2 h5 | gapLogout hm hlt h5 | gapResend hm hlt h2 hd =>
    exact absurd (hnum hm) hlt.ne'
  | badFill hm h4 hf hle =>
    obtain ⟨-, hok, hlt⟩ | ⟨hne, -⟩ := hp.nextAfter
    · rw [hf] at hok
      cases hok
      omega
    · exact absurd h4 hne
  | overflow hm h4 hgt =>
    obtain ⟨h, -⟩ | ⟨-, -, hle⟩ := hp.nextAfter
    · exact absurd h h4
    · omega
  | failed hm hnext hd hf =>
    rw [hsame hnext] at hd
    rw [hp.dispatched hn rfl hd] at hf
    cases hf
  | accepted hm hnext hd hok hd' =>
    rw [hsame hnext] at hd
    exact hp.dispatched hn rfl hd
  | acceptedLogout hm hnext hd hok hd' =>
    rw [hsame hnext] at hd
    rw [hp.dispatched hn rfl hd] at hd'
    exact absurd hd' hdue

theorem stamp_msgSeqNum (u : Unstamped) (clock : Bytes) :
    (u.stamp clock).header.req Fields.msgSeqNum = u.msg.header.req Fields.msgSeqNum := by
  unfold Unstamped.stamp
  split
  · exact Block.req_eq_of_find (Block.find_place_ne _ _ (by decide))
  · rfl

@[simp] theorem stamp_msgType (u : Unstamped) (clock : Bytes) :
    (u.stamp clock).msgType = u.msg.msgType := by
  unfold Unstamped.stamp; split <;> rfl

@[simp] theorem stamp_body (u : Unstamped) (clock : Bytes) :
    (u.stamp clock).body = u.msg.body := by
  unfold Unstamped.stamp; split <;> rfl

theorem Answer.passing {x} (h : Answer first last x) (hbound : last + 1 ≤ u64Max) (clock : Bytes) :
    Passing (x.2.stamp clock) first (last + 1) ∧
      (x.2.stamp clock).header.req Fields.msgSeqNum = .ok first := by
  cases h with
  | resent hn ht h =>
    refine ⟨.inr ⟨?_, by rw [h], by omega⟩, by rw [stamp_msgSeqNum]; exact hn⟩
    simpa [SessionState.gapFilled, Message.isAdmin] using ht
  | filled hn ht hnew h =>
    refine ⟨.inl ⟨by simpa using ht, ?_, by omega⟩, by rw [stamp_msgSeqNum]; exact hn⟩
    simpa [SessionState.gapFillNewSeqNum] using hnew

/-- The frames a peer reads: the messages on the wire, stamped on their way out. -/
def Frames (frames : List (Message × Instant)) (wire : List (Origin × Unstamped)) : Prop :=
  List.Forall₂ (fun f x => ∃ clock, f.1 = x.2.stamp clock) frames wire

/-- A session ready for recovery: it expects `n`, and neither is closing nor owes
the peer a Logout. -/
structure Recovering (s : SessionState) (n : Nat) : Prop where
  expects : s.nextInSeqNum = n
  closing : s.closing = none
  pending : s.peerLogoutPending = false

/-- **Feeding the answers.** Each is in sequence, and nothing is asked for. -/
theorem feed_run {wire} (h : Answers lo hi wire) (hbound : hi ≤ u64Max) {peer}
    (hpeer : Recovering peer lo) {frames} (hframes : Frames frames wire) :
    let feed : List Input := frames.map fun f => .message f.1 f.2
    (∀ t ∈ trace Input.call peer feed, t.outcome.result = .ok .continue ∧
      (∃ msg, t.input.inbound = some msg ∧
        Carries msg t.before.nextInSeqNum) ∧
      ∀ msg, .event (.adminSendRequired msg) ∉ t.outcome.out) ∧
    Recovering (final Input.call peer feed) hi := by
  induction h generalizing peer frames with
  | nil =>
    cases hframes
    exact ⟨by rintro _ ⟨⟩, hpeer⟩
  | @cons first last hi x xs h hrest ih =>
    cases hframes with
    | @cons f _ frames _ hf hframes =>
    obtain ⟨clock, hstamp⟩ := hf
    have hlast : last + 1 ≤ u64Max := hrest.tiles.le.trans hbound
    obtain ⟨hpass, hnum⟩ := h.passing hlast clock
    rw [← hstamp] at hpass hnum
    -- the first frame is the expected one, and only moves the number on
    have hone : ∀ r, Step (.message f.1 f.2) peer r → r =
        ⟨advancedTo (heard peer f.2) (last + 1), [.event (.rawMessageReceived f.1),
          .event (passed f.1 first (last + 1))], .ok .continue⟩ := by
      intro r hstep
      cases hstep with
      | message hrec =>
        cases hrec with
        | ignored hc => rw [hpeer.closing] at hc; cases hc
        | handled hc hh =>
          have hexp : (heard peer f.2).nextInSeqNum = first := hpeer.expects
          have hdue : ¬ LogoutDue (advancedTo (heard peer f.2) (last + 1)) := by
            rintro ⟨hp, -⟩
            have hp : peer.peerLogoutPending = true := hp
            rw [hpeer.pending] at hp
            cases hp
          rw [← hexp] at hpass hnum ⊢
          rw [hpass.handled hnum hdue hh]
          rfl
    have hrun := hone _ (step_spec _ _)
    have hnext : Recovering ((Input.message f.1 f.2).call.run peer).state (last + 1) := by
      rw [hrun]
      exact ⟨rfl, hpeer.closing, hpeer.pending⟩
    obtain ⟨hturns, hend⟩ := ih hbound hnext hframes
    refine ⟨?_, hend⟩
    intro t ht
    obtain rfl | ht := List.mem_cons.mp ht
    · dsimp only
      rw [hrun]
      refine ⟨rfl, ⟨f.1, rfl, by rw [Carries, hnum, hpeer.expects]⟩, ?_⟩
      intro msg hmem
      simp only [List.mem_cons, List.not_mem_nil, or_false, Effect.event.injEq] at hmem
      obtain hmem | hmem := hmem
      · cases hmem
      · unfold passed at hmem
        split at hmem <;> cases hmem
    · exact hturns t ht

/-- **Replay tiling.** Whatever the application offers, the gap fills and
retransmissions of a replay are disjoint, ascending and cover exactly the range,
and no call fails. A peer that expects the start of the range, is not closing and
owes no Logout, takes each in sequence, asks for nothing, and ends up expecting
the number after the range. -/
theorem replay_tiling {s : SessionState} {first last nextOut : Nat} {replay : Replay}
    (hstart : Replay.start first last nextOut = .ok replay)
    (hle : replay.beginSeqNo ≤ replay.endSeqNo) (hmax : replay.endSeqNo < u64Max)
    (hs : s.replay = some replay) (msgs : List (Message × Instant))
    (hmsgs : ∀ m ∈ msgs, Replayable m.1) (now : Instant) :
    let inputs := replayCommands msgs now
    let wire := transmissions (output Input.call s inputs)
    let covered := wire.filterMap span
    (∀ t ∈ trace Input.call s inputs, t.outcome.result = .ok .continue) ∧
    (∀ x ∈ wire, (span x).isSome) ∧
    (∀ p ∈ covered, p.1 ≤ p.2) ∧ covered.Pairwise (fun p q => p.2 < q.1) ∧
    (∀ n, (∃ p ∈ covered, p.1 ≤ n ∧ n ≤ p.2) ↔ replay.beginSeqNo ≤ n ∧ n ≤ replay.endSeqNo) ∧
    ∀ peer frames, Recovering peer replay.beginSeqNo → Frames frames wire →
      let feed : List Input := frames.map fun f => .message f.1 f.2
      (∀ t ∈ trace Input.call peer feed, t.outcome.result = .ok .continue ∧
        (∃ msg, t.input.inbound = some msg ∧
          Carries msg t.before.nextInSeqNum) ∧
        ∀ msg, .event (.adminSendRequired msg) ∉ t.outcome.out) ∧
      (final Input.call peer feed).nextInSeqNum = replay.endSeqNo + 1 := by
  intro inputs wire covered
  obtain ⟨hpos, -, hreplay⟩ := Replay.start_eq_ok hstart
  have hwf : replay.WellFormed := by
    rw [hreplay] at hle hmax ⊢
    exact ⟨Nat.zero_le _, by dsimp only at hle ⊢; omega, hmax⟩
  have hposition : replay.position = replay.beginSeqNo := by rw [hreplay]; rfl
  have hqueue : replay.queue = [] := by rw [hreplay]
  obtain ⟨hoks, replay', hs', hr', hend', hqueue', hwire'⟩ := replay_run msgs hmsgs hs hwf
  rw [hposition] at hwire'
  -- the end of the replay covers the rest
  have hcomplete : ∀ r, Step (.command .replayComplete now)
      (final Input.call s (msgs.map fun m => .command (.replay m.1) m.2)) r →
      r.result = .ok .continue ∧
        Answers replay'.position (replay'.endSeqNo + 1) (transmissions r.out) := by
    intro r hstep
    cases hstep with
    | replayComplete hc => exact hc.tiles hs' hr' (hqueue'.trans hqueue)
  obtain ⟨hok, htail⟩ := hcomplete _ (step_spec _ _)
  rw [hend'] at htail
  have hall : Answers replay.beginSeqNo (replay.endSeqNo + 1) wire := by
    show Answers _ _ (transmissions (output Input.call s (replayCommands msgs now)))
    rw [replayCommands, output_append, output_singleton, transmissions_append]
    exact hwire'.append htail
  have htiles := hall.tiles
  refine ⟨?_, hall.isSome_span, fun p hp => (htiles.bounds hp).2.1, htiles.ascending, ?_, ?_⟩
  · intro t ht
    have ht : t ∈ trace Input.call s (replayCommands msgs now) := ht
    rw [replayCommands, trace_append, List.mem_append] at ht
    obtain ht | ht := ht
    · exact hoks t ht
    · rw [List.mem_singleton.mp ht]
      exact hok
  · intro n
    rw [← htiles.covers n]
    omega
  · intro peer frames hpeer hframes feed
    obtain ⟨hturns, hfinal⟩ := feed_run hall (by omega) hpeer hframes
    exact ⟨hturns, hfinal.expects⟩

/-- A session resending 1 to 2. -/
def Sample.resending : SessionState :=
  { Sample.session with replay := some ⟨1, 2, 1, 0, []⟩ }

/-- An application message that was sent at some time. -/
def Sample.stored (n : Nat) : Message :=
  { Sample.numbered "B" n with
    header := [.field 34 (writeUint n), .field 52 (ascii "20240101-00:00:00.000")] }

/-- Offered number 2, it fills 1 and resends 2. -/
theorem replay_tiling_resending :
    let wire := transmissions (output Input.call Sample.resending
      (replayCommands [(Sample.stored 2, 0)] 0))
    wire.filterMap span = [(1, 1), (2, 2)] ∧
      ∀ n, (∃ p ∈ wire.filterMap span, p.1 ≤ n ∧ n ≤ p.2) ↔ 1 ≤ n ∧ n ≤ 2 := by
  have hstart : Replay.start 1 2 1 = .ok ⟨1, 2, 1, 0, []⟩ := rfl
  have hs : Sample.resending.replay = some ⟨1, 2, 1, 0, []⟩ := rfl
  have hmsgs : ∀ m ∈ [(Sample.stored 2, 0)], Replayable m.1 := by
    intro m hm
    rw [List.mem_singleton.mp hm]
    exact ⟨⟨2, by decide⟩, .inr (by decide)⟩
  have h := replay_tiling hstart (by decide) (by decide) hs [(Sample.stored 2, 0)] hmsgs 0
  exact ⟨by decide, h.2.2.2.2.1⟩

/-- A peer that expects 1, but has seen a Logout numbered 2 inside the gap, asks for
a Logout of its own once the gap is filled. One that has been told to disconnect
ignores the fill and goes on expecting 1. -/
theorem deferred_logout_requested :
    let peer := ((Input.message (Sample.numbered "5" 2) 0).call.run Sample.session).state
    let closing := ((Input.command .disconnect 0).call.run Sample.session).state
    let wire := transmissions (output Input.call Sample.resending (replayCommands [] 0))
    let feed : List Input := wire.map fun x => .message (x.2.stamp (ascii "T")) 0
    peer.nextInSeqNum = 1 ∧ peer.closing = none ∧ wire.filterMap span = [(1, 2)] ∧
      .event (.adminSendRequired (peer.logout SessionState.logoutReceivedText)) ∈
        output Input.call peer feed ∧
      closing.nextInSeqNum = 1 ∧ closing.peerLogoutPending = false ∧
      (final Input.call closing feed).nextInSeqNum = 1 := by
  decide

end Babelfix.Session
