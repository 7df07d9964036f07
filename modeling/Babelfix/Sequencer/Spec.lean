import Babelfix.Sequencer.Model
import Babelfix.Lib.Trace

/-! # What the calls on a sequencer can do

Every call comes down to a few moves of the sequencer: a message is numbered, a
write is noted, a message is handed over, the session is seen to log on, or
nothing of this changes. -/
namespace Babelfix.Sequencing
open Lib Session

variable {msg : Message}

namespace Sequencer

def writeFailed : Fault :=
  .err (.persistence "an earlier write failed; the session cannot continue")

/-- `msg` under the next number. -/
def numbered (q : Sequencer) (msg : Message) : Message :=
  { msg with header := msg.header.set Fields.msgSeqNum (writeUint q.nextOutSeqNum) }

/-- What `send` does not let the application set. -/
def original (msg : Message) : Message :=
  { msg with
    header := Block.remove Fields.origSendingTime.tag
      (Block.remove Fields.possDupFlag.tag msg.header) }

/-- The sequencer once `msg` has been given the number `n` and awaits its write. -/
def awaiting (q : Sequencer) (n : Nat) (msg : Message) : Sequencer :=
  { q with
    nextOutSeqNum := n + 1
    reads := if msg.header.has Fields.sendingTime.tag then q.reads else q.reads + 1
    inFlight := q.inFlight ++ [⟨n, q.stamped msg, false⟩] }

/-- What numbering `msg` can do. -/
inductive Assigned (msg : Message) (q : Sequencer) : Outcome Sequencer SeqEvent Fault Nat → Prop
  | failed (h : q.failed = true) : Assigned msg q ⟨q, [], .error writeFailed⟩
  | overflow (h : q.failed = false) (hn : u64Max < q.nextOutSeqNum + 1) :
    Assigned msg q ⟨q, [], .error .overflow⟩
  | numbered (h : q.failed = false) (hn : q.nextOutSeqNum + 1 ≤ u64Max) :
    Assigned msg q ⟨q.awaiting q.nextOutSeqNum (q.numbered msg),
      [.persist (.outbound q.nextOutSeqNum (q.stamped (q.numbered msg)))], .ok q.nextOutSeqNum⟩

inductive SendOutcome (msg : Message) (q : Sequencer) : Outcome Sequencer SeqEvent Fault Nat → Prop
  | busy (h : q.maxInFlight ≤ q.inFlight.length) : SendOutcome msg q ⟨q, [], .error (.err .busy)⟩
  | assigned {r} (h : Assigned (original msg) q r) : SendOutcome msg q r

inductive RawOutcome (msg : Message) (q : Sequencer) : Outcome Sequencer SeqEvent Fault Nat → Prop
  | failed (h : q.failed = true) : RawOutcome msg q ⟨q, [], .error writeFailed⟩
  | refused {f} (h : q.failed = false) : RawOutcome msg q ⟨q, [], .error f⟩
  | numbered {n} (h : q.failed = false) (hn : msg.header.get Fields.msgSeqNum = .ok (some n))
    (hle : q.nextOutSeqNum ≤ n) (hmax : n + 1 ≤ u64Max) :
    RawOutcome msg q ⟨q.awaiting n msg, [.persist (.outbound n (q.stamped msg))], .ok n⟩

theorem run_checkLive (q : Sequencer) : checkLive.run q =
    ⟨q, [], if q.failed then .error writeFailed else .ok ()⟩ := by
  cases hf : q.failed <;> simp [checkLive, hf, writeFailed]

theorem run_stamp_requestWrite (q : Sequencer) (n : Nat) (msg : Message) :
    (Call.modify (fun q => { q with nextOutSeqNum := n + 1 }) >>= fun _ =>
      stamp msg >>= fun msg => requestWrite n msg).run q =
      ⟨q.awaiting n msg, [.persist (.outbound n (q.stamped msg))], .ok n⟩ := by
  cases h : msg.header.has Fields.sendingTime.tag <;>
    simp [stamp, requestWrite, awaiting, stamped, h]

theorem assign_spec (msg : Message) (q : Sequencer) : Assigned msg q ((assign msg).run q) := by
  have hrun : (assign msg).run q = (checkLive.run q).andThen fun _ =>
      (Call.lift (addU64 q.nextOutSeqNum 1)) >>= fun next =>
        Call.modify (fun q => { q with nextOutSeqNum := next }) >>= fun _ =>
          stamp (q.numbered msg) >>= fun msg => requestWrite q.nextOutSeqNum msg := by
    cases hf : q.failed <;> simp [assign, run_checkLive, hf, numbered]
  rw [hrun, run_checkLive]
  cases hf : q.failed with
  | true => exact .failed hf
  | false =>
    by_cases hn : q.nextOutSeqNum + 1 ≤ u64Max
    · have hadd : addU64 q.nextOutSeqNum 1 = .ok (q.nextOutSeqNum + 1) := addU64_eq_ok.mpr ⟨hn, rfl⟩
      rw [hadd]
      have hnum := run_stamp_requestWrite q q.nextOutSeqNum (q.numbered msg)
      simp only [Bool.false_eq_true, if_false, Outcome.andThen_ok, Call.run_bind, Call.run_lift,
        Outcome.prepend_nil] at hnum ⊢
      rw [hnum]
      exact .numbered hf hn
    · have hadd : addU64 q.nextOutSeqNum 1 = .error .overflow := if_neg hn
      rw [hadd]
      exact .overflow hf (by omega)

theorem send_spec (msg : Message) (q : Sequencer) : SendOutcome msg q ((send msg).run q) := by
  by_cases hb : q.maxInFlight ≤ q.inFlight.length
  · have hrun : (send msg).run q = ⟨q, [], .error (.err .busy)⟩ := by simp [send, hb]
    rw [hrun]
    exact .busy hb
  · have hrun : (send msg).run q = (assign (original msg)).run q := by
      simp [send, hb, original]
    rw [hrun]
    exact .assigned (assign_spec _ q)

theorem run_sendRaw_some {n q} (hf : q.failed = false)
    (hn : msg.header.get Fields.msgSeqNum = .ok (some n)) (hle : q.nextOutSeqNum ≤ n)
    (hmax : n + 1 ≤ u64Max) : (sendRaw msg).run q =
      ⟨q.awaiting n msg, [.persist (.outbound n (q.stamped msg))], .ok n⟩ := by
  have hadd : addU64 n 1 = .ok (n + 1) := addU64_eq_ok.mpr ⟨hmax, rfl⟩
  rw [← run_stamp_requestWrite q n msg]
  simp [sendRaw, run_checkLive, hf, hn, ofField, Nat.not_lt.mpr hle, hadd]

theorem sendRaw_spec (msg : Message) (q : Sequencer) : RawOutcome msg q ((sendRaw msg).run q) := by
  cases hf : q.failed with
  | true =>
    have hrun : (sendRaw msg).run q = ⟨q, [], .error writeFailed⟩ := by
      simp [sendRaw, run_checkLive, hf]
    rw [hrun]
    exact .failed hf
  | false =>
    have hrefused {f : Fault} (hrun : (sendRaw msg).run q = ⟨q, [], .error f⟩) :
        RawOutcome msg q ((sendRaw msg).run q) := by
      rw [hrun]
      exact .refused hf
    cases hn : msg.header.get Fields.msgSeqNum with
    | error e => exact hrefused (by simp [sendRaw, run_checkLive, hf, hn, ofField]; rfl)
    | ok number =>
      cases number with
      | none => exact hrefused (by simp [sendRaw, run_checkLive, hf, hn, ofField]; rfl)
      | some n =>
        by_cases hlow : n < q.nextOutSeqNum
        · exact hrefused (by simp [sendRaw, run_checkLive, hf, hn, ofField, hlow]; rfl)
        by_cases hmax : n + 1 ≤ u64Max
        · rw [run_sendRaw_some hf hn (by omega) hmax]
          exact .numbered hf hn (by omega) hmax
        · have hadd : addU64 n 1 = .error .overflow := if_neg hmax
          exact hrefused (by simp [sendRaw, run_checkLive, hf, hn, ofField, hlow, hadd]; rfl)

/-! ## The inbound side -/

/-- The sequencers that differ from `q` at most in the inbound watermark. -/
inductive Aside (q : Sequencer) : Sequencer → Prop
  | mk (sessionNextIn : Nat) (unhandled : Finset Nat) (highestHandled watermarkPersisted : Nat)
    (watermarkInFlight : Option Nat) : Aside q { q with
      sessionNextIn, unhandled, highestHandled, watermarkPersisted, watermarkInFlight }

theorem Aside.refl {q} : Aside q q := ⟨_, _, _, _, _⟩

theorem Aside.trans {q q' q''} (h : Aside q q') (h' : Aside q' q'') : Aside q q'' := by
  cases h
  cases h'
  exact ⟨_, _, _, _, _⟩

theorem Aside.ready {q q'} (h : Aside q q') : q'.ready = q.ready := by
  cases h
  rfl

/-- An event that asks for no write of a message and announces no logon. -/
inductive Quiet : SeqEvent → Prop
  | watermark {n} : Quiet (.persist (.watermark n))
  | session {e} (h : e ≠ .loggedOn) : Quiet (.session e)

/-- The outcomes of a call that leaves the outbound side alone. -/
structure Watermarked {α : Type} (q : Sequencer) (r : Outcome Sequencer SeqEvent Fault α) :
    Prop where
  aside : Aside q r.state
  quiet : ∀ o ∈ r.out, Quiet o

theorem run_persistWatermark (q : Sequencer) : persistWatermark.run q =
    if q.watermarkPersisted < q.watermark ∧ q.watermarkInFlight.isNone then
      ⟨{ q with watermarkInFlight := some q.watermark }, [.persist (.watermark q.watermark)], .ok ()⟩
    else ⟨q, [], .ok ()⟩ := by
  unfold persistWatermark
  split <;> simp_all

theorem persistWatermark_spec (q : Sequencer) :
    Watermarked q (persistWatermark.run q) ∧ (persistWatermark.run q).result = .ok () := by
  rw [run_persistWatermark]
  split
  · exact ⟨⟨⟨_, _, _, _, _⟩, by simp [Quiet.watermark]⟩, rfl⟩
  · exact ⟨⟨.refl, by simp⟩, rfl⟩

/-- Changing only the watermark, then writing quiet events, then persisting it. -/
theorem Watermarked.andThen {q q'} (h : Aside q q') {o} (ho : ∀ e ∈ o, Quiet e) :
    Watermarked q (Outcome.prepend o (persistWatermark.run q')) := by
  obtain ⟨⟨haside, hquiet⟩, -⟩ := persistWatermark_spec q'
  refine ⟨h.trans haside, ?_⟩
  intro e he
  rcases List.mem_append.mp he with he | he
  · exact ho e he
  · exact hquiet e he

theorem handled_spec (n : Nat) (q : Sequencer) : Watermarked q ((handled n).run q) := by
  cases hp : q.policy with
  | onDelivery =>
    have hrun : (handled n).run q = persistWatermark.run q := by simp [handled, hp]
    rw [hrun]
    exact (persistWatermark_spec q).1
  | explicit mode =>
    cases mode with
    | contiguous =>
      have hrun : (handled n).run q =
          persistWatermark.run { q with unhandled := q.unhandled.erase n } := by
        simp [handled, hp]
      rw [hrun]
      exact Watermarked.andThen (o := []) ⟨_, _, _, _, _⟩ (by simp)
    | highest =>
      cases hadd : addU64 n 1 with
      | error f =>
        have hrun : (handled n).run q = ⟨q, [], .error f⟩ := by simp [handled, hp, hadd]
        rw [hrun]
        exact ⟨.refl, by simp⟩
      | ok next =>
        have hrun : (handled n).run q =
            persistWatermark.run { q with highestHandled := max q.highestHandled next } := by
          simp [handled, hp, hadd]
        rw [hrun]
        exact Watermarked.andThen (o := []) ⟨_, _, _, _, _⟩ (by simp)

theorem onWatermarkPersisted_spec (n : Nat) (q : Sequencer) :
    Watermarked q ((onWatermarkPersisted n).run q) := by
  by_cases h : q.watermarkInFlight = some n
  · have hrun : (onWatermarkPersisted n).run q = persistWatermark.run { q with
        watermarkPersisted := max q.watermarkPersisted n, watermarkInFlight := none } := by
      simp [onWatermarkPersisted, h]
    rw [hrun]
    exact Watermarked.andThen (o := []) ⟨_, _, _, _, _⟩ (by simp)
  · have hrun : (onWatermarkPersisted n).run q = persistWatermark.run { q with
        watermarkPersisted := max q.watermarkPersisted n } := by
      simp [onWatermarkPersisted, h]
    rw [hrun]
    exact Watermarked.andThen (o := []) ⟨_, _, _, _, _⟩ (by simp)

/-! ## The session's events -/

/-- What an event of the session does to the sequencer. -/
inductive Intercepted (e : Event) (q : Sequencer) : Outcome Sequencer SeqEvent Fault Unit → Prop
  | asked {msg n r} (he : e = .adminSendRequired msg) (h : Assigned msg q r)
    (hr : r.result = .ok n) : Intercepted e q ⟨r.state, r.out, .ok ()⟩
  | refused {msg f r} (he : e = .adminSendRequired msg) (h : Assigned msg q r)
    (hr : r.result = .error f) : Intercepted e q ⟨r.state, r.out, .error f⟩
  | loggedOn (he : e = .loggedOn) :
    Intercepted e q ⟨{ q with loggedOn := true }, [.session .loggedOn], .ok ()⟩
  | overflow {n msg} (he : e = .messageReceived n msg) (hn : u64Max < n + 1) :
    Intercepted e q ⟨q, [], .error .overflow⟩
  | passed {r} (ha : ∀ msg, e ≠ .adminSendRequired msg) (hl : e ≠ .loggedOn)
    (h : Watermarked q r) (hr : r.result = .ok ()) : Intercepted e q r

theorem intercepted_of_ok {e q r} (ha : ∀ msg, e ≠ .adminSendRequired msg) (hl : e ≠ .loggedOn)
    {q' o} (h : Aside q q') (ho : ∀ e ∈ o, Quiet e)
    (hr : r = Outcome.prepend o (persistWatermark.run q')) : Intercepted e q r := by
  subst hr
  exact .passed ha hl (.andThen h ho) (persistWatermark_spec q').2

theorem onSessionEvent_passed {e q} (ha : ∀ msg, e ≠ .adminSendRequired msg) (hl : e ≠ .loggedOn) :
    Intercepted e q ⟨q, [.session e], .ok ()⟩ :=
  .passed ha hl ⟨.refl, by simpa using Quiet.session hl⟩ rfl

theorem onSessionEvent_spec (e : Event) (q : Sequencer) :
    Intercepted e q ((onSessionEvent e).run q) := by
  cases e with
  | adminSendRequired msg =>
    have h := assign_spec msg q
    have hrun : (onSessionEvent (.adminSendRequired msg)).run q =
        ((assign msg).run q).andThen fun _ => return () := rfl
    rw [hrun]
    cases hr : ((assign msg).run q).result with
    | error f =>
      rw [Outcome.andThen_of_error _ hr]
      exact .refused rfl h hr
    | ok n =>
      rw [Outcome.andThen_of_ok _ hr]
      have hasked := Intercepted.asked rfl h hr
      simpa using hasked
  | loggedOn => exact .loggedOn rfl
  | messageReceived n msg =>
    cases hadd : addU64 n 1 with
    | error f =>
      have hn : u64Max < n + 1 := by
        by_contra hle
        rw [addU64_eq_ok.mpr ⟨Nat.le_of_not_lt hle, rfl⟩] at hadd
        cases hadd
      have hf : f = .overflow := by
        rw [addU64, if_neg (by omega)] at hadd
        cases hadd
        rfl
      have hrun : (onSessionEvent (.messageReceived n msg)).run q = ⟨q, [], .error .overflow⟩ := by
        simp [onSessionEvent, hadd, hf]
      rw [hrun]
      exact .overflow rfl hn
    | ok next =>
      have hquiet : ∀ o ∈ [SeqEvent.session (.messageReceived n msg)], Quiet o := by
        intro o ho
        rw [List.mem_singleton.mp ho]
        exact .session (by simp)
      by_cases hp : q.policy = .explicit .contiguous
      · exact intercepted_of_ok (by simp) (by simp)
          ⟨max q.sessionNextIn next, insert n q.unhandled, _, _, _⟩ hquiet
          (by simp [onSessionEvent, hadd, hp]; rfl)
      · exact intercepted_of_ok (by simp) (by simp) ⟨max q.sessionNextIn next, _, _, _, _⟩ hquiet
          (by simp [onSessionEvent, hadd, hp]; rfl)
  | inboundAdvanced n =>
    by_cases hp : q.policy = .explicit .highest
    · exact intercepted_of_ok (o := []) (by simp) (by simp)
        ⟨max q.sessionNextIn n, _, max q.highestHandled n, _, _⟩ (by simp)
        (by simp [onSessionEvent, hp]; rfl)
    · exact intercepted_of_ok (o := []) (by simp) (by simp) ⟨max q.sessionNextIn n, _, _, _, _⟩
        (by simp) (by simp [onSessionEvent, hp]; rfl)
  | _ => exact onSessionEvent_passed (by simp) (by simp)

/-! ## Moves -/

theorem stamped_msgSeqNum (q : Sequencer) (msg : Message) :
    (q.stamped msg).header.req Fields.msgSeqNum = msg.header.req Fields.msgSeqNum := by
  refine Block.req_eq_of_find ?_
  unfold stamped
  split
  · rw [Block.find_set_ne, Block.find_set_ne] <;> decide
  · rw [Block.find_set_ne, Block.find_set_ne, Block.find_set_ne] <;> decide

theorem numbered_msgSeqNum (q : Sequencer) (msg : Message) (h : q.nextOutSeqNum ≤ u64Max) :
    (q.numbered msg).header.req Fields.msgSeqNum = .ok q.nextOutSeqNum := by
  unfold numbered
  rw [Block.set_of_valid _ _ (writeUint_ne_nil _) (soh_notMem_writeUint _)]
  exact Block.req_place_self _ _ (parseUint_writeUint h)

/-- Whether the logon exchange lets this message go out. -/
def MayGo (q : Sequencer) (msg : Message) : Prop := q.loggedOn = true ∨ msg.msgType = "A"

/-- What can be observed while nothing is numbered, handed over or logged on. -/
inductive Idle {ω : Type} : Observed ω → Prop
  | app {e} (h : Quiet e) : Idle (.app e)
  | wrote {o} : Idle (.wrote o)

/-- One move of a sequencer, and what can be observed of it. -/
inductive Move {ω : Type} (q : Sequencer) : Sequencer → List (Observed ω) → Prop
  | number {n msg} (hle : q.nextOutSeqNum ≤ n) (hn : Carries msg n) :
    Move q (q.awaiting n msg) [.app (.persist (.outbound n (q.stamped msg)))]
  | logOn : Move q { q with loggedOn := true } [.app (.session .loggedOn)]
  | hand {msg rest} (h : q.ready = msg :: rest) (hgo : q.MayGo msg) :
    Move q { q with ready := rest } [.handed msg]
  | aside {q' o} (h : Aside q q') (ho : ∀ e ∈ o, Idle e) : Move q q' o

/-- Any number of moves. -/
inductive Moves {ω : Type} : Sequencer → Sequencer → List (Observed ω) → Prop
  | nil {q} : Moves q q []
  | cons {q q' q'' o o'} (h : Move q q' o) (t : Moves q' q'' o') : Moves q q'' (o ++ o')

variable {ω : Type}

theorem Moves.single {q q'} {o : List (Observed ω)} (h : Move q q' o) : Moves q q' o := by
  have hm := Moves.cons h .nil
  rwa [List.append_nil] at hm

theorem Moves.trans {q q' q''} {o o' : List (Observed ω)} (h : Moves q q' o) (h' : Moves q' q'' o') :
    Moves q q'' (o ++ o') := by
  induction h with
  | nil => exact h'
  | cons hm _ ih =>
    rw [List.append_assoc]
    exact .cons hm (ih h')

theorem Assigned.moves {q r} (h : Assigned msg q r) :
    Moves (ω := ω) q r.state (r.out.map .app) := by
  cases h with
  | numbered _ hn =>
    have hreads := numbered_msgSeqNum q msg (by omega)
    exact .single (.number (Nat.le_refl _) hreads)
  | _ => exact .nil

theorem Watermarked.moves {α : Type} {q} {r : Outcome Sequencer SeqEvent Fault α}
    (h : Watermarked q r) : Moves (ω := ω) q r.state (r.out.map .app) := by
  refine .single (.aside h.aside ?_)
  intro e he
  obtain ⟨e', he', rfl⟩ := List.mem_map.mp he
  exact .app (h.quiet e' he')

theorem SendOutcome.moves {q r} (h : SendOutcome msg q r) :
    Moves (ω := ω) q r.state (r.out.map .app) := by
  cases h with
  | busy _ => exact .nil
  | assigned h => exact h.moves

theorem RawOutcome.moves {q r} (h : RawOutcome msg q r) :
    Moves (ω := ω) q r.state (r.out.map .app) := by
  cases h with
  | numbered _ hn hle _ => exact .single (.number hle (Block.req_eq_ok.mpr hn))
  | _ => exact .nil

theorem Intercepted.moves {e q r} (h : Intercepted e q r) :
    Moves (ω := ω) q r.state (r.out.map .app) := by
  cases h with
  | asked _ h _ | refused _ h _ | passed _ _ h _ => exact h.moves
  | loggedOn _ => exact .single .logOn
  | overflow _ _ => exact .nil

end Sequencer

/-! ## A sequencer and its target -/

namespace Sequenced
open Sequencer

variable {τ ω α : Type}

theorem run_onSeq (c : SeqOp α) (p : Sequenced τ) : (onSeq (ω := ω) c).run p =
    ⟨⟨(c.run p.seq).state, p.target⟩, (c.run p.seq).out.map .app, (c.run p.seq).result⟩ := rfl

theorem run_intercept_some {event : ω → Option Event} {o : ω} {e : Event} (h : event o = some e)
    (p : Sequenced τ) : (intercept event o).run p = (onSeq (onSessionEvent e)).run p := by
  rw [intercept, h]

theorem run_intercept_none {event : ω → Option Event} {o : ω} (h : event o = none)
    (p : Sequenced τ) : (intercept event o).run p = ⟨p, [.wrote o], .ok ()⟩ := by
  rw [intercept, h]
  rfl

theorem run_sink_cons (event : ω → Option Event) (o : ω) (rest : List ω) (p : Sequenced τ) :
    (sink event (o :: rest)).run p =
      ((intercept event o).run p).andThen fun _ => sink event rest := rfl

theorem run_onTarget (event : ω → Option Event) (c : Call τ ω Fault α) (p : Sequenced τ) :
    (onTarget event c).run p =
      let r := (sink event (c.run p.target).out).run ⟨p.seq, (c.run p.target).state⟩
      ⟨r.state, r.out, r.result >>= fun _ => (c.run p.target).result⟩ :=
  Call.andThen_lift _ _

section
variable {P : List (Observed ω) → List ω → Sequencer → Prop}
  {F : List (Observed ω) → Sequencer → Prop} (event : ω → Option Event)
  (hwrite : ∀ seen x rest q, event x = none → P seen (x :: rest) q →
    P (seen ++ [.wrote x]) rest q)
  (hevent : ∀ seen x e rest q r, event x = some e → (onSessionEvent e).run q = r →
    P seen (x :: rest) q → (r.result = .ok () → P (seen ++ r.out.map .app) rest r.state) ∧
      ∀ f, r.result = .error f → F (seen ++ r.out.map .app) r.state)
include hwrite hevent

/-- The rule for the sink. `P` holds item by item, of what has been observed, what is
still to come and the sequencer, and `F` where a fault ends it. -/
theorem sink_induction (seen : List (Observed ω)) (o : List ω) (p : Sequenced τ) (h : P seen o p.seq) :
    let r := (sink event o).run p
    r.state.target = p.target ∧ (r.result = .ok () → P (seen ++ r.out) [] r.state.seq) ∧
      ∀ f, r.result = .error f → F (seen ++ r.out) r.state.seq := by
  induction o generalizing seen p with
  | nil =>
    refine ⟨rfl, fun _ => ?_, fun f hf => by cases hf⟩
    show P (seen ++ []) [] p.seq
    rwa [List.append_nil]
  | cons x rest ih =>
    rw [run_sink_cons]
    cases he : event x with
    | none =>
      have hrest := ih (seen ++ [.wrote x]) p (hwrite seen x rest p.seq he h)
      simp only [List.append_assoc] at hrest
      rw [run_intercept_none he]
      exact hrest
    | some e =>
      obtain ⟨hok, herr⟩ := hevent seen x e rest p.seq _ he rfl h
      rw [run_intercept_some he, run_onSeq]
      cases hr : ((onSessionEvent e).run p.seq).result with
      | error f => exact ⟨rfl, (fun hok => by cases hok), fun _ _ => herr f hr⟩
      | ok u =>
        have hrest := ih _ ⟨((onSessionEvent e).run p.seq).state, p.target⟩ (hok hr)
        simp only [List.append_assoc] at hrest
        exact hrest

theorem onTarget_induction (c : Call τ ω Fault α) (p : Sequenced τ) (h : P [] (c.run p.target).out p.seq) :
    let r := (onTarget event c).run p
    (P r.out [] r.state.seq ∨ F r.out r.state.seq) ∧
      ∀ a, r.result = .ok a → P r.out [] r.state.seq ∧ (c.run p.target).result = .ok a := by
  obtain ⟨-, hok, herr⟩ :=
    sink_induction event hwrite hevent [] _ ⟨p.seq, (c.run p.target).state⟩ h
  rw [run_onTarget]
  generalize (sink event (c.run p.target).out).run ⟨p.seq, (c.run p.target).state⟩ = r at hok herr
  dsimp only
  cases hr : r.result with
  | error f => exact ⟨.inr (herr f hr), fun a ha => by cases ha⟩
  | ok u => exact ⟨.inl (hok hr), fun a ha => ⟨hok hr, ha⟩⟩

end

theorem onTarget_target (event : ω → Option Event) (c : Call τ ω Fault α) (p : Sequenced τ) :
    ((onTarget event c).run p).state.target = (c.run p.target).state := by
  rw [run_onTarget]
  exact (sink_induction (P := fun _ _ _ => True) (F := fun _ _ => True) event (by simp) (by simp) []
    (c.run p.target).out ⟨p.seq, (c.run p.target).state⟩ trivial).1

theorem onTarget_observed {P : List (Observed ω) → Sequencer → Prop} (event : ω → Option Event)
    (hwrite : ∀ seen x q, P seen q → P (seen ++ [.wrote x]) q)
    (hevent : ∀ seen e q r, Intercepted e q r → P seen q → P (seen ++ r.out.map .app) r.state)
    (c : Call τ ω Fault α) (p : Sequenced τ) (h : P [] p.seq) :
    P ((onTarget event c).run p).out ((onTarget event c).run p).state.seq := by
  have hrule := onTarget_induction (P := fun seen _ q => P seen q) (F := P) event
    (fun seen x _ q _ => hwrite seen x q)
    (fun seen _ e _ q r _ hr h =>
      have hnext := hevent seen e q r (hr ▸ onSessionEvent_spec e q) h
      ⟨fun _ => hnext, fun _ _ => hnext⟩) c p h
  exact hrule.1.elim id id

theorem onTarget_moves (event : ω → Option Event) (c : Call τ ω Fault α) (p : Sequenced τ) :
    Moves p.seq ((onTarget event c).run p).state.seq ((onTarget event c).run p).out := by
  refine onTarget_observed (P := fun seen q => Moves p.seq q seen) event ?_ ?_ c p .nil
  · intro seen x q h
    exact h.trans (.single (.aside .refl (by simp [Idle.wrote])))
  · intro seen e q r hi h
    exact h.trans hi.moves

theorem onTarget_ready (event : ω → Option Event) (c : Call τ ω Fault α) (p : Sequenced τ) :
    ((onTarget event c).run p).state.seq.ready = p.seq.ready := by
  have hkeep : ∀ {e q r}, Intercepted e q r → r.state.ready = q.ready := by
    intro e q r h
    cases h with
    | asked _ h _ | refused _ h _ => cases h <;> rfl
    | passed _ _ h _ => exact h.aside.ready
    | _ => rfl
  exact onTarget_observed (P := fun _ q => q.ready = p.seq.ready) event (fun _ _ _ h => h)
    (fun _ _ _ _ hi h => (hkeep hi).trans h) c p rfl

/-! ## Releasing -/

variable (target : CommandTarget τ ω)

theorem run_popReady_none {q} (h : ∀ msg rest, q.ready = msg :: rest → ¬ q.MayGo msg) :
    popReady.run q = ⟨q, [], .ok none⟩ := by
  cases hq : q.ready with
  | nil => simp [popReady, hq]
  | cons msg rest =>
    have hgo := h msg rest hq
    rw [MayGo, not_or, Bool.not_eq_true] at hgo
    simp [popReady, hq, hgo]

variable {rest : List Message}

theorem run_popReady_some {q} (h : q.ready = msg :: rest) (hgo : q.MayGo msg) :
    popReady.run q = ⟨{ q with ready := rest }, [], .ok (some msg)⟩ := by
  rcases hgo with hgo | hgo <;> simp [popReady, h, hgo]

theorem run_releaseUpTo_some {q} (h : q.ready = msg :: rest) (hgo : q.MayGo msg) (now : Instant)
    (n : Nat) (t : τ) : (releaseUpTo target now (n + 1)).run ⟨q, t⟩ =
      ((handOver target msg now).run ⟨{ q with ready := rest }, t⟩).andThen fun
        | .close => return .close
        | .continue => releaseUpTo target now n := by
  simp only [releaseUpTo, Call.run_bind, run_onSeq, run_popReady_some h hgo, List.map_nil,
    Outcome.andThen_ok, Outcome.prepend_nil, -eq_self]
  rfl

theorem run_releaseUpTo_none {q} (h : ∀ msg rest, q.ready = msg :: rest → ¬ q.MayGo msg)
    (now : Instant) (n : Nat) (t : τ) :
    (releaseUpTo target now n).run ⟨q, t⟩ = ⟨⟨q, t⟩, [], .ok .continue⟩ := by
  cases n with
  | zero => rfl
  | succ n =>
    simp only [releaseUpTo, Call.run_bind, run_onSeq, run_popReady_none h, List.map_nil,
      Outcome.andThen_ok, Outcome.prepend_nil, Call.run_pure]

theorem handOver_moves (msg : Message) (now : Instant) {q} (h : q.ready = msg :: rest)
    (hgo : q.MayGo msg) (t : τ) :
    Moves q ((handOver target msg now).run ⟨{ q with ready := rest }, t⟩).state.seq
      ((handOver target msg now).run ⟨{ q with ready := rest }, t⟩).out := by
  have hmoves := onTarget_moves target.event (target.onCommand (.send msg) now)
    ⟨{ q with ready := rest }, t⟩
  exact .cons (.hand h hgo) hmoves

/-- The rule for releasing. `I` holds of all that has been observed and of the state, as
long as the target goes on, and `J` where it does not; at the end nothing more may go. -/
theorem releaseUpTo_induction {I J : List (Observed ω) → Sequenced τ → Prop} (now : Instant)
    (hhand : ∀ o q t msg rest, q.ready = msg :: rest → q.MayGo msg → I o ⟨q, t⟩ →
      let r := (handOver target msg now).run ⟨{ q with ready := rest }, t⟩
      (r.result = .ok .continue → I (o ++ r.out) r.state) ∧
        (r.result ≠ .ok .continue → J (o ++ r.out) r.state))
    (n : Nat) (o : List (Observed ω)) (p : Sequenced τ) (h : I o p) (hn : p.seq.ready.length ≤ n) :
    let r := (releaseUpTo target now n).run p
    (r.result = .ok .continue → I (o ++ r.out) r.state ∧
      ∀ msg rest, r.state.seq.ready = msg :: rest → ¬ r.state.seq.MayGo msg) ∧
        (r.result ≠ .ok .continue → J (o ++ r.out) r.state) := by
  induction n generalizing o p with
  | zero =>
    have hempty : p.seq.ready = [] := List.eq_nil_of_length_eq_zero (Nat.le_zero.mp hn)
    refine ⟨fun _ => ⟨by simpa [releaseUpTo] using h, ?_⟩, fun hne => absurd rfl hne⟩
    intro msg rest hready
    cases hempty.symm.trans hready
  | succ n ih =>
    by_cases hpop : ∃ msg rest, p.seq.ready = msg :: rest ∧ p.seq.MayGo msg
    · obtain ⟨msg, rest, hready, hgo⟩ := hpop
      have hnext := hhand o p.seq p.target msg rest hready hgo h
      have hleft : ((handOver target msg now).run
          ⟨{ p.seq with ready := rest }, p.target⟩).state.seq.ready = rest :=
        onTarget_ready target.event (target.onCommand (.send msg) now) ⟨_, p.target⟩
      rw [run_releaseUpTo_some target hready hgo now n p.target]
      generalize (handOver target msg now).run ⟨{ p.seq with ready := rest }, p.target⟩ = r
        at hnext hleft
      obtain ⟨hgoes, hstops⟩ := hnext
      cases hr : r.result with
      | error f =>
        rw [Outcome.andThen_of_error _ hr]
        exact ⟨(fun hok => by cases hok), fun _ => hstops (by simp [hr])⟩
      | ok progress =>
        rw [Outcome.andThen_of_ok _ hr]
        cases progress with
        | close =>
          simpa using hstops (by simp [hr])
        | «continue» =>
          have hlen : r.state.seq.ready.length ≤ n := by
            rw [hready, List.length_cons] at hn
            rw [hleft]
            omega
          have hrest := ih (o ++ r.out) r.state (hgoes hr) hlen
          simp only [List.append_assoc] at hrest
          exact hrest
    · have hblocked : ∀ msg rest, p.seq.ready = msg :: rest → ¬ p.seq.MayGo msg := by grind
      rw [run_releaseUpTo_none target hblocked now (n + 1) p.target]
      refine ⟨fun _ => ⟨?_, hblocked⟩, fun hne => absurd rfl hne⟩
      rwa [List.append_nil]

/-- What handing a message over preserves, releasing preserves. -/
theorem release_observed {J : List (Observed ω) → Sequenced τ → Prop} (now : Instant)
    (hhand : ∀ o q t msg rest, q.ready = msg :: rest → q.MayGo msg → J o ⟨q, t⟩ →
      J (o ++ ((handOver target msg now).run ⟨{ q with ready := rest }, t⟩).out)
        ((handOver target msg now).run ⟨{ q with ready := rest }, t⟩).state)
    (p : Sequenced τ) (h : J [] p) :
    J ((release target now).run p).out ((release target now).run p).state := by
  have hrule := releaseUpTo_induction (I := J) (J := J) target now
    (fun o q t msg rest hready hgo h => ⟨fun _ => hhand o q t msg rest hready hgo h,
      fun _ => hhand o q t msg rest hready hgo h⟩) p.seq.ready.length [] p h le_rfl
  by_cases hok : ((release target now).run p).result = .ok .continue
  · exact (hrule.1 hok).1
  · exact hrule.2 hok

theorem release_moves (now : Instant) (p : Sequenced τ) :
    Moves p.seq ((release target now).run p).state.seq ((release target now).run p).out :=
  release_observed target (J := fun o p' => Moves p.seq p'.seq o) now
    (fun _ _ t msg _ hready hgo h => h.trans (handOver_moves target msg now hready hgo t)) p .nil

theorem run_release (now : Instant) (p : Sequenced τ) : (release target now).run p =
    (releaseUpTo target now p.seq.ready.length).run p := rfl

/-- What reporting the write of `n` can do. -/
inductive Reported (n : Nat) (now : Instant) (p : Sequenced τ) :
    Outcome (Sequenced τ) (Observed ω) Fault Progress → Prop
  | refused {f} : Reported n now p ⟨p, [], .error f⟩
  | noted {e} (hlive : p.seq.failed = false) (he : e ∈ p.seq.inFlight) (hn : e.seqNum = n) :
    Reported n now p ((release target now).run ⟨p.seq.collected n, p.target⟩)

theorem run_persisted (now : Instant) {n p} (hlive : p.seq.failed = false)
    (hn : ∃ e ∈ p.seq.inFlight, e.seqNum = n) : (persisted target n now).run p =
      (release target now).run ⟨p.seq.collected n, p.target⟩ := by
  have hall : ¬ (p.seq.inFlight.all fun e => e.seqNum ≠ n) = true := by simpa using hn
  simp only [persisted, Call.run_bind, run_onSeq, run_checkLive, hlive, Bool.false_eq_true,
    if_false, List.map_nil, Outcome.andThen_ok, Outcome.prepend_nil, Call.run_get, hall,
    Call.run_modify]

theorem persisted_spec (n : Nat) (now : Instant) (p : Sequenced τ) :
    Reported target n now p ((persisted target n now).run p) := by
  cases hf : p.seq.failed with
  | true =>
    have hrun : (persisted target n now).run p = ⟨p, [], .error writeFailed⟩ := by
      simp [persisted, run_onSeq, run_checkLive, hf]
    rw [hrun]
    exact .refused
  | false =>
    by_cases hall : p.seq.inFlight.all fun e => e.seqNum ≠ n
    · have hrun : (persisted target n now).run p = ⟨p, [], .error (.err (.protocolViolation
          s!"MsgSeqNum {n} is not awaiting persistence"))⟩ := by
        simp only [persisted, Call.run_bind, run_onSeq, run_checkLive, hf, Bool.false_eq_true,
          if_false, List.map_nil, Outcome.andThen_ok, Outcome.prepend_nil, Call.run_get,
          hall, if_true, Call.run_fault, Outcome.andThen_error]
      rw [hrun]
      exact .refused
    · simp only [List.all_eq_true, decide_eq_true_eq, not_forall, not_not] at hall
      obtain ⟨e, he, hn⟩ := hall
      rw [run_persisted target now hf ⟨e, he, hn⟩]
      exact .noted hf he hn

end Sequenced

end Babelfix.Sequencing
