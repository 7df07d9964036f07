import Babelfix.Sequencer.Connection

/-! # The inbound watermark

Session events, handled messages and completed writes all move the watermark, in any
order. Beside the sequencer stands the story so far: what has been delivered and
handled, and which watermarks have been asked for and stored. -/
namespace Babelfix.Sequencing
open Lib Session Sequencer

/-- A call that can move the watermark. -/
inductive InboundCall where
  | event (e : Event)
  | handled (seqNum : Nat)
  | watermarkPersisted (nextInSeqNum : Nat)

def InboundCall.run : InboundCall → SeqOp Unit
  | .event e => onSessionEvent e
  | .handled n => Sequencer.handled n
  | .watermarkPersisted n => onWatermarkPersisted n

abbrev InboundTurn := Turn InboundCall Sequencer SeqEvent Fault Unit

/-! ## The story so far -/

structure Story where
  /-- The session's next inbound number. -/
  nextIn : Nat
  /-- The messages the application was given. -/
  delivered : List Nat
  /-- The messages the application has finished with. -/
  handled : List Nat
  /-- The positions reached by traffic the application is not given. -/
  advanced : List Nat
  /-- The watermarks the application was asked to store. -/
  requested : List Nat
  /-- Those it has stored. -/
  stored : List Nat

def Story.new (resume : Resume) : Story := ⟨resume.nextInSeqNum, [], [], [], [], []⟩

def SeqEvent.delivery : SeqEvent → Option Nat
  | .session (.messageReceived n _) => some n
  | _ => none

def SeqEvent.watermark : SeqEvent → Option Nat
  | .persist (.watermark n) => some n
  | _ => none

namespace InboundCall

/-- Where an event takes the session. -/
def position (nextIn : Nat) : InboundCall → Nat
  | .event (.messageReceived n _) => n + 1
  | .event (.inboundAdvanced n) => n
  | _ => nextIn

def finished : InboundCall → Option Nat
  | .handled n => some n
  | _ => none

def advance : InboundCall → Option Nat
  | .event (.inboundAdvanced n) => some n
  | _ => none

def write : InboundCall → Option Nat
  | .watermarkPersisted n => some n
  | _ => none

end InboundCall

/-- The story goes on with a call and what it told the application. -/
def Story.next (h : Story) (c : InboundCall) (o : List SeqEvent) : Story where
  nextIn := c.position h.nextIn
  delivered := h.delivered ++ o.filterMap SeqEvent.delivery
  handled := h.handled ++ c.finished.toList
  advanced := h.advanced ++ c.advance.toList
  requested := h.requested ++ o.filterMap SeqEvent.watermark
  stored := h.stored ++ c.write.toList

theorem Story.next_delivered (h : Story) (c : InboundCall) :
    (h.next c []).delivered = h.delivered := List.append_nil _

theorem Story.next_requested (h : Story) (c : InboundCall) :
    (h.next c []).requested = h.requested := List.append_nil _

def Story.after (h : Story) (turns : List InboundTurn) : Story :=
  turns.foldl (fun h t => h.next t.input t.outcome.out) h

/-- Whether a call may come next: the session's events come in order, only delivered
messages are finished with, and only the write in flight completes. -/
def Story.Allows (h : Story) (q : Sequencer) : InboundCall → Prop
  | .event (.messageReceived n _) => h.nextIn ≤ n
  | .event (.inboundAdvanced n) => h.nextIn ≤ n
  | .event _ => True
  | .handled n => n ∈ h.delivered
  | .watermarkPersisted n => q.watermarkInFlight = some n

instance (h : Story) (q : Sequencer) : DecidablePred (h.Allows q)
  | .event (.messageReceived n _) => inferInstanceAs (Decidable (h.nextIn ≤ n))
  | .event (.inboundAdvanced n) => inferInstanceAs (Decidable (h.nextIn ≤ n))
  | .event .connectionEstablished => .isTrue trivial
  | .event .loggedOn => .isTrue trivial
  | .event .recoveryCompleted => .isTrue trivial
  | .event (.rawMessageReceived _) => .isTrue trivial
  | .event (.rawMessageSent _) => .isTrue trivial
  | .event (.adminSendRequired _) => .isTrue trivial
  | .event (.resendRequest _ _ _) => .isTrue trivial
  | .event .disconnected => .isTrue trivial
  | .handled n => inferInstanceAs (Decidable (n ∈ h.delivered))
  | .watermarkPersisted n => inferInstanceAs (Decidable (q.watermarkInFlight = some n))

/-- Every call of a run may come when it does. -/
def Story.AllowsAll (h : Story) : List InboundTurn → Prop
  | [] => True
  | t :: rest => h.Allows t.before t.input ∧ (h.next t.input t.outcome.out).AllowsAll rest

instance Story.decidableAllowsAll (h : Story) :
    (turns : List InboundTurn) → Decidable (h.AllowsAll turns)
  | [] => .isTrue trivial
  | t :: rest =>
    have := decidableAllowsAll (h.next t.input t.outcome.out) rest
    inferInstanceAs (Decidable (_ ∧ _))

/-- A delivered message below the watermark `w`, in `Highest` mode: it or a later one
has been handled, or later traffic was done with on arrival. -/
def Story.Overtaken (h : Story) (n w : Nat) : Prop :=
  n ∈ h.handled ∨ (∃ m ∈ h.handled, n < m ∧ m < w) ∨ ∃ k ∈ h.advanced, n < k ∧ k ≤ w

/-- What a watermark `w` may be, under each policy. -/
structure Story.Sound (h : Story) (policy : InboundPolicy) (w : Nat) : Prop where
  reached : w ≤ h.nextIn
  contiguous : policy = .explicit .contiguous → ∀ n ∈ h.delivered, n < w → n ∈ h.handled
  highest : policy = .explicit .highest → ∀ n ∈ h.delivered, n < w → h.Overtaken n w

/-! ## What the calls do -/

/-- What a call changes before it asks for the watermark to be stored, and what it tells
the application until then. -/
inductive Marked (q : Sequencer) : InboundCall → Sequencer → List SeqEvent → Prop
  | delivered {n msg} (hn : n + 1 ≤ u64Max) : Marked q (.event (.messageReceived n msg))
    { q with
      sessionNextIn := max q.sessionNextIn (n + 1)
      unhandled := if q.policy = .explicit .contiguous then insert n q.unhandled else q.unhandled }
    [.session (.messageReceived n msg)]
  | advanced {n} : Marked q (.event (.inboundAdvanced n))
    { q with
      sessionNextIn := max q.sessionNextIn n
      highestHandled :=
        if q.policy = .explicit .highest then max q.highestHandled n else q.highestHandled } []
  | onDelivery {n} (hp : q.policy = .onDelivery) : Marked q (.handled n) q []
  | contiguous {n} (hp : q.policy = .explicit .contiguous) :
    Marked q (.handled n) { q with unhandled := q.unhandled.erase n } []
  | highest {n} (hp : q.policy = .explicit .highest) (hn : n + 1 ≤ u64Max) :
    Marked q (.handled n) { q with highestHandled := max q.highestHandled (n + 1) } []
  | stored {n} (h : q.watermarkInFlight = some n) : Marked q (.watermarkPersisted n)
    { q with watermarkPersisted := max q.watermarkPersisted n, watermarkInFlight := none } []

/-- Two sequencers that agree on the inbound side. -/
structure SameInbound (q q' : Sequencer) : Prop where
  policy : q'.policy = q.policy
  sessionNextIn : q'.sessionNextIn = q.sessionNextIn
  unhandled : q'.unhandled = q.unhandled
  highestHandled : q'.highestHandled = q.highestHandled
  watermarkPersisted : q'.watermarkPersisted = q.watermarkPersisted
  watermarkInFlight : q'.watermarkInFlight = q.watermarkInFlight

theorem SameInbound.refl (q : Sequencer) : SameInbound q q := ⟨rfl, rfl, rfl, rfl, rfl, rfl⟩

theorem SameInbound.watermark {q q'} (h : SameInbound q q') : q'.watermark = q.watermark := by
  unfold Sequencer.watermark
  simp only [h.policy, h.sessionNextIn, h.unhandled, h.highestHandled]

/-- What a call can do to the inbound side. -/
inductive Stepped (q : Sequencer) (c : InboundCall) : Outcome Sequencer SeqEvent Fault Unit → Prop
  | marked {q' o} (h : Marked q c q' o) : Stepped q c (Outcome.prepend o (persistWatermark.run q'))
  | passed {r} (hsame : SameInbound q r.state) (hd : r.out.filterMap SeqEvent.delivery = [])
    (hw : r.out.filterMap SeqEvent.watermark = []) (hc : c.write = none) : Stepped q c r

theorem Sequencer.Assigned.sameInbound {msg q r} (h : Assigned msg q r) :
    SameInbound q r.state := by
  cases h <;> exact ⟨rfl, rfl, rfl, rfl, rfl, rfl⟩

theorem Sequencer.Assigned.noWatermark {msg q r} (h : Assigned msg q r) :
    r.out.filterMap SeqEvent.delivery = [] ∧ r.out.filterMap SeqEvent.watermark = [] := by
  cases h <;> exact ⟨rfl, rfl⟩

theorem onSessionEvent_stepped (e : Event) (q : Sequencer) :
    Stepped q (.event e) ((onSessionEvent e).run q) := by
  cases e with
  | adminSendRequired msg =>
    have h := assign_spec msg q
    have hrun : (onSessionEvent (.adminSendRequired msg)).run q =
        ((assign msg).run q).andThen fun _ => return () := rfl
    rw [hrun]
    generalize (assign msg).run q = r at h
    obtain ⟨hd, hw⟩ := h.noWatermark
    cases hr : r.result with
    | error f =>
      rw [Outcome.andThen_of_error _ hr]
      exact .passed h.sameInbound hd hw rfl
    | ok n =>
      rw [Outcome.andThen_of_ok _ hr]
      refine .passed h.sameInbound ?_ ?_ rfl
      · simpa using hd
      · simpa using hw
  | messageReceived n msg =>
    by_cases hn : n + 1 ≤ u64Max
    · have hadd : addU64 n 1 = .ok (n + 1) := addU64_eq_ok.mpr ⟨hn, rfl⟩
      have hmark : Marked q (.event (.messageReceived n msg)) _ _ := .delivered hn
      have h := Stepped.marked hmark
      by_cases hp : q.policy = .explicit .contiguous
      · simpa [onSessionEvent, hadd, hp] using h
      · simpa [onSessionEvent, hadd, hp] using h
    · have hadd : addU64 n 1 = .error .overflow := if_neg hn
      have hrun : (onSessionEvent (.messageReceived n msg)).run q = ⟨q, [], .error .overflow⟩ := by
        simp [onSessionEvent, hadd]
      rw [hrun]
      exact .passed (.refl q) rfl rfl rfl
  | inboundAdvanced n =>
    have h := Stepped.marked (Marked.advanced (q := q) (n := n))
    by_cases hp : q.policy = .explicit .highest
    · simpa [onSessionEvent, hp] using h
    · simpa [onSessionEvent, hp] using h
  | loggedOn => exact .passed ⟨rfl, rfl, rfl, rfl, rfl, rfl⟩ rfl rfl rfl
  | _ => exact .passed (.refl q) rfl rfl rfl

theorem handled_stepped (n : Nat) (q : Sequencer) :
    Stepped q (.handled n) ((Sequencer.handled n).run q) := by
  cases hp : q.policy with
  | onDelivery =>
    have h := Stepped.marked (Marked.onDelivery (n := n) hp)
    simpa [Sequencer.handled, hp] using h
  | explicit mode =>
    cases mode with
    | contiguous =>
      have h := Stepped.marked (Marked.contiguous (n := n) hp)
      simpa [Sequencer.handled, hp] using h
    | highest =>
      by_cases hn : n + 1 ≤ u64Max
      · have hadd : addU64 n 1 = .ok (n + 1) := addU64_eq_ok.mpr ⟨hn, rfl⟩
        have h := Stepped.marked (Marked.highest hp hn)
        simpa [Sequencer.handled, hp, hadd] using h
      · have hadd : addU64 n 1 = .error .overflow := if_neg hn
        have hrun : (Sequencer.handled n).run q = ⟨q, [], .error .overflow⟩ := by
          simp [Sequencer.handled, hp, hadd]
        rw [hrun]
        exact .passed (.refl q) rfl rfl rfl

variable {c : InboundCall}

theorem InboundCall.stepped {h : Story} {q} (ha : h.Allows q c) : Stepped q c (c.run.run q) := by
  cases c with
  | event e => exact onSessionEvent_stepped e q
  | handled n => exact handled_stepped n q
  | watermarkPersisted n =>
    have hflight : q.watermarkInFlight = some n := ha
    have hmarked := Stepped.marked (Marked.stored hflight)
    simpa [InboundCall.run, onWatermarkPersisted, hflight] using hmarked

/-! ## How the story grows -/

theorem Story.Allows.position_le {h : Story} {q} (ha : h.Allows q c) :
    h.nextIn ≤ c.position h.nextIn := by
  cases c with
  | event e =>
    cases e with
    | messageReceived n msg => exact Nat.le_succ_of_le ha
    | inboundAdvanced n => exact ha
    | _ => exact le_rfl
  | _ => exact le_rfl

variable {o : List SeqEvent}

/-- What held of a watermark goes on holding: what is delivered later is not below it. -/
theorem Story.Sound.next {h : Story} {policy w} (hs : h.Sound policy w) {q} (ha : h.Allows q c)
    (ho : ∀ n ∈ o.filterMap SeqEvent.delivery, h.nextIn ≤ n) : (h.next c o).Sound policy w := by
  have hold : ∀ n ∈ (h.next c o).delivered, n < w → n ∈ h.delivered := by
    intro n hn hlt
    rcases List.mem_append.mp hn with hn | hn
    · exact hn
    · have hge := ho n hn
      have hle := hs.reached
      omega
  refine ⟨hs.reached.trans ha.position_le, ?_, ?_⟩
  · intro hp n hn hlt
    exact List.mem_append_left _ (hs.contiguous hp n (hold n hn hlt) hlt)
  · intro hp n hn hlt
    rcases hs.highest hp n (hold n hn hlt) hlt with hd | ⟨m, hm, hbetween⟩ | ⟨k, hk, hbetween⟩
    · exact .inl (List.mem_append_left _ hd)
    · exact .inr (.inl ⟨m, List.mem_append_left _ hm, hbetween⟩)
    · exact .inr (.inr ⟨k, List.mem_append_left _ hk, hbetween⟩)

/-! ## The invariant -/

/-- What holds of a sequencer and the messages of its story. -/
structure Followed (policy : InboundPolicy) (h : Story) (q : Sequencer) : Prop where
  same : q.policy = policy
  ahead : q.sessionNextIn ≤ h.nextIn
  delivered : ∀ n ∈ h.delivered, n < q.sessionNextIn
  unhandled : ∀ n ∈ q.unhandled, n < q.sessionNextIn
  highest : q.highestHandled ≤ q.sessionNextIn
  /-- Nothing delivered is forgotten. -/
  waiting : policy = .explicit .contiguous → ∀ n ∈ h.delivered, n ∈ h.handled ∨ n ∈ q.unhandled
  overtaken : policy = .explicit .highest →
    ∀ n ∈ h.delivered, n < q.highestHandled → h.Overtaken n q.highestHandled

/-- What holds of a sequencer and its story, within a call. -/
structure Kept (start : Nat) (policy : InboundPolicy) (h : Story) (q : Sequencer) : Prop extends
    Followed policy h q where
  /-- Every watermark that was asked for, and the one to begin with. -/
  sound : ∀ w ∈ start :: h.requested, h.Sound policy w
  /-- At most one write is in flight. -/
  flight : h.requested = h.stored ++ q.watermarkInFlight.toList
  rising : h.requested.Pairwise (· < ·)
  bounded : ∀ w ∈ h.stored, w ≤ q.watermarkPersisted
  newer : ∀ w, q.watermarkInFlight = some w → q.watermarkPersisted < w
  last : q.watermarkPersisted = h.stored.getLastD start

variable {start : Nat} {policy : InboundPolicy} {h : Story} {q : Sequencer}

/-- The watermark in memory is one that may be stored. -/
theorem Followed.watermark (hk : Followed policy h q) : h.Sound policy q.watermark := by
  have hsame := hk.same
  cases hp : policy with
  | onDelivery =>
    have hw : q.watermark = q.sessionNextIn := by simp [Sequencer.watermark, hsame, hp]
    rw [hw]
    exact ⟨hk.ahead, by simp, by simp⟩
  | explicit mode =>
    cases mode with
    | contiguous =>
      by_cases hne : q.unhandled.Nonempty
      · have hw : q.watermark = q.unhandled.min' hne := by simp [Sequencer.watermark, hsame, hp, hne]
        have hlt := hk.unhandled _ (q.unhandled.min'_mem hne)
        rw [hw]
        refine ⟨hlt.le.trans hk.ahead, ?_, by simp⟩
        intro _ n hn hbelow
        refine (hk.waiting hp n hn).resolve_right ?_
        intro hopen
        exact absurd (q.unhandled.min'_le n hopen) (Nat.not_le.mpr hbelow)
      · have hw : q.watermark = q.sessionNextIn := by simp [Sequencer.watermark, hsame, hp, hne]
        rw [hw]
        refine ⟨hk.ahead, ?_, by simp⟩
        intro _ n hn _
        refine (hk.waiting hp n hn).resolve_right ?_
        rw [Finset.not_nonempty_iff_eq_empty.mp hne]
        exact Finset.notMem_empty n
    | highest =>
      have hw : q.watermark = q.highestHandled := by simp [Sequencer.watermark, hsame, hp]
      rw [hw]
      exact ⟨hk.highest.trans hk.ahead, by simp, fun _ => hk.overtaken hp⟩

theorem Kept.persist (hk : Kept start policy h q) :
    let r := persistWatermark.run q
    Kept start policy { h with requested := h.requested ++ r.out.filterMap SeqEvent.watermark } r.state ∧
      r.out.filterMap SeqEvent.delivery = [] ∧
      (r.state.watermarkInFlight = none → r.state.watermark ≤ r.state.watermarkPersisted) := by
  intro r
  have hr : r = persistWatermark.run q := rfl
  rw [run_persistWatermark] at hr
  split at hr
  · rename_i hask
    obtain ⟨hnew, hnone⟩ := hask
    have hnone : q.watermarkInFlight = none := Option.isNone_iff_eq_none.mp hnone
    rw [hr]
    refine ⟨⟨⟨hk.same, hk.ahead, hk.delivered, hk.unhandled, hk.highest, hk.waiting, hk.overtaken⟩, ?_,
      ?_, ?_, hk.bounded, ?_, hk.last⟩, rfl, by simp⟩
    · intro w hw
      rcases List.mem_append.mp (List.cons_append ▸ hw) with hw | hw
      · exact ⟨(hk.sound w hw).1, (hk.sound w hw).2, (hk.sound w hw).3⟩
      · rw [List.mem_singleton.mp hw]
        exact ⟨hk.watermark.1, hk.watermark.2, hk.watermark.3⟩
    · have hflight := hk.flight
      rw [hnone, Option.toList_none, List.append_nil] at hflight
      show h.requested ++ [q.watermark] = h.stored ++ [q.watermark]
      rw [hflight]
    · show (h.requested ++ [q.watermark]).Pairwise (· < ·)
      refine List.pairwise_append.mpr ⟨hk.rising, List.pairwise_singleton _ _, ?_⟩
      intro a ha b hb
      have hflight := hk.flight
      rw [hnone, Option.toList_none, List.append_nil] at hflight
      rw [hflight] at ha
      rw [List.mem_singleton.mp hb]
      exact (hk.bounded a ha).trans_lt hnew
    · intro w hw
      cases hw
      exact hnew
  · rename_i hask
    rw [hr]
    refine ⟨by simpa using hk, rfl, ?_⟩
    intro hnone
    have hnone : q.watermarkInFlight = none := hnone
    simp only [hnone, Option.isNone_none, and_true, not_lt] at hask
    exact hask

theorem Marked.delivers {q q'} (hm : Marked q c q' o) (ha : h.Allows q c) :
    (∀ n ∈ o.filterMap SeqEvent.delivery, h.nextIn ≤ n) ∧ o.filterMap SeqEvent.watermark = [] := by
  cases hm with
  | delivered hn =>
    refine ⟨?_, rfl⟩
    intro m hm
    rw [List.mem_singleton.mp hm]
    exact ha
  | _ => exact ⟨by simp, rfl⟩

theorem Kept.move (hk : Kept start policy h q) {q'} (ha : h.Allows q c)
    (hd : ∀ n ∈ o.filterMap SeqEvent.delivery, h.nextIn ≤ n)
    (hw : o.filterMap SeqEvent.watermark = []) (hc : c.write = none)
    (hpersisted : q'.watermarkPersisted = q.watermarkPersisted)
    (hflight : q'.watermarkInFlight = q.watermarkInFlight) (hf : Followed policy (h.next c o) q') :
    Kept start policy (h.next c o) q' := by
  have hreq : (h.next c o).requested = h.requested := by simp [Story.next, hw]
  have hstored : (h.next c o).stored = h.stored := by simp [Story.next, hc]
  refine ⟨hf, ?_, ?_, ?_, ?_, ?_, ?_⟩
  · rw [hreq]
    exact fun w hw => (hk.sound w hw).next ha hd
  · rw [hreq, hstored, hflight]
    exact hk.flight
  · rw [hreq]
    exact hk.rising
  · rw [hstored, hpersisted]
    exact hk.bounded
  · rw [hflight, hpersisted]
    exact hk.newer
  · rw [hstored, hpersisted]
    exact hk.last

theorem Story.Overtaken.next {n w} (ho : h.Overtaken n w) {w'} (hw : w ≤ w') (c : InboundCall)
    (o : List SeqEvent) : (h.next c o).Overtaken n w' := by
  rcases ho with hd | ⟨m, hm, hlo, hhi⟩ | ⟨k, hk, hlo, hhi⟩
  · exact .inl (List.mem_append_left _ hd)
  · exact .inr (.inl ⟨m, List.mem_append_left _ hm, hlo, hhi.trans_le hw⟩)
  · exact .inr (.inr ⟨k, List.mem_append_left _ hk, hlo, hhi.trans hw⟩)

theorem Followed.waits (hk : Followed policy h q) (hp : policy = .explicit .contiguous) :
    ∀ n ∈ h.delivered, n ∈ (h.next c o).handled ∨ n ∈ q.unhandled :=
  fun n hn => (hk.waiting hp n hn).imp_left (List.mem_append_left _)

theorem Followed.overtakes (hk : Followed policy h q) (hp : policy = .explicit .highest) :
    ∀ n ∈ h.delivered, n < q.highestHandled → (h.next c o).Overtaken n q.highestHandled :=
  fun n hn hlt => (hk.overtaken hp n hn hlt).next le_rfl _ _

theorem Followed.still (hk : Followed policy h q) {q'} (hle : h.nextIn ≤ c.position h.nextIn)
    (hd : o.filterMap SeqEvent.delivery = []) (hpolicy : q'.policy = q.policy)
    (hnext : q'.sessionNextIn = q.sessionNextIn) (hun : q'.unhandled ⊆ q.unhandled)
    (hhigh : q'.highestHandled ≤ q.sessionNextIn) (hwait : policy = .explicit .contiguous →
      ∀ n ∈ h.delivered, n ∈ (h.next c o).handled ∨ n ∈ q'.unhandled)
    (hover : policy = .explicit .highest → ∀ n ∈ h.delivered, n < q'.highestHandled →
      (h.next c o).Overtaken n q'.highestHandled) : Followed policy (h.next c o) q' := by
  have hsame : (h.next c o).delivered = h.delivered := by simp [Story.next, hd]
  refine ⟨hpolicy.trans hk.same, hnext.trans_le (hk.ahead.trans hle), ?_, ?_,
    hhigh.trans_eq hnext.symm, ?_, ?_⟩
  · rw [hsame, hnext]
    exact hk.delivered
  · rw [hnext]
    exact fun n hn => hk.unhandled n (hun hn)
  · rw [hsame]
    exact hwait
  · rw [hsame]
    exact hover

theorem Followed.mark (hk : Followed policy h q) {q'} (ha : h.Allows q c) (hm : Marked q c q' o) :
    Followed policy (h.next c o) q' := by
  have hahead := hk.ahead
  cases hm with
  | @delivered n msg hn =>
    have hge : h.nextIn ≤ n := ha
    have hmax : max q.sessionNextIn (n + 1) = n + 1 := by omega
    refine ⟨hk.same, hmax.le, ?_, ?_, hk.highest.trans (le_max_left _ _), ?_, ?_⟩
    · intro m hm
      rcases List.mem_append.mp hm with hm | hm
      · exact (hk.delivered m hm).trans_le (le_max_left _ _)
      · rw [List.mem_singleton.mp hm, hmax]
        exact Nat.lt_succ_self n
    · intro m hm
      have hm : m = n ∨ m ∈ q.unhandled := by
        split at hm
        · exact Finset.mem_insert.mp hm
        · exact .inr hm
      rcases hm with rfl | hm
      · exact (Nat.lt_succ_self m).trans_le (le_max_right _ _)
      · exact (hk.unhandled m hm).trans_le (le_max_left _ _)
    · intro hp m hm
      show m ∈ h.handled ++ [] ∨ m ∈ if q.policy = _ then insert n q.unhandled else q.unhandled
      rw [List.append_nil, if_pos (hk.same.trans hp)]
      rcases List.mem_append.mp hm with hm | hm
      · exact (hk.waiting hp m hm).imp_right Finset.mem_insert_of_mem
      · rw [List.mem_singleton.mp hm]
        exact .inr (Finset.mem_insert_self n _)
    · intro hp m hm hlt
      have hlt : m < q.highestHandled := hlt
      rcases List.mem_append.mp hm with hm | hm
      · exact hk.overtakes hp m hm hlt
      · -- the message just delivered is not below anything handled before it
        rw [List.mem_singleton.mp hm] at hlt
        have hhigh := hk.highest
        omega
  | @advanced n =>
    have hge : h.nextIn ≤ n := ha
    refine ⟨hk.same, max_le (hahead.trans hge) le_rfl, ?_,
      fun m hm => (hk.unhandled m hm).trans_le (le_max_left _ _), ?_, ?_, ?_⟩
    · rw [Story.next_delivered]
      exact fun m hm => (hk.delivered m hm).trans_le (le_max_left _ _)
    · dsimp only
      split
      · exact max_le_max hk.highest le_rfl
      · exact hk.highest.trans (le_max_left _ _)
    · rw [Story.next_delivered]
      exact hk.waits
    · intro hp m hm hlt
      rw [Story.next_delivered] at hm
      have hmn : m < n := (hk.delivered m hm).trans_le (hahead.trans hge)
      rw [if_pos (hk.same.trans hp)]
      exact .inr (.inr ⟨n, List.mem_append_right _ List.mem_cons_self, hmn, le_max_right _ _⟩)
  | @contiguous n hp =>
    refine hk.still le_rfl rfl rfl rfl (Finset.erase_subset _ _) hk.highest ?_ hk.overtakes
    intro hp m hm
    rcases hk.waiting hp m hm with hm | hm
    · exact .inl (List.mem_append_left _ hm)
    · by_cases heq : m = n
      · exact .inl (List.mem_append_right _ (by rw [heq]; exact List.mem_cons_self))
      · exact .inr (Finset.mem_erase.mpr ⟨heq, hm⟩)
  | @highest n hp hn =>
    refine hk.still le_rfl rfl rfl rfl (Finset.Subset.refl _)
      (max_le hk.highest (hk.delivered n ha)) hk.waits ?_
    intro hp m hm hlt
    have hself : n ∈ (h.next (.handled n) []).handled := List.mem_append_right _ List.mem_cons_self
    by_cases hold : m < q.highestHandled
    · exact (hk.overtaken hp m hm hold).next (le_max_left _ _) _ _
    · -- at or above what was handled before, so at or below `n`
      have hlt : m < max q.highestHandled (n + 1) := hlt
      rcases Nat.lt_or_ge m n with hmn | hmn
      · exact .inr (.inl ⟨n, hself, hmn, (Nat.lt_succ_self n).trans_le (le_max_right _ _)⟩)
      · have heq : m = n := by omega
        rw [heq]
        exact .inl hself
  | _ =>
    exact hk.still le_rfl rfl rfl rfl (Finset.Subset.refl _) hk.highest hk.waits hk.overtakes

theorem Kept.mark (hk : Kept start policy h q) {q'} (ha : h.Allows q c) (hm : Marked q c q' o) :
    Kept start policy (h.next c o) q' := by
  have hf := hk.toFollowed.mark ha hm
  obtain ⟨hd, hw⟩ := hm.delivers ha
  cases hm with
  | @stored n hflight =>
    have hnew := hk.newer n hflight
    have hmax : max q.watermarkPersisted n = n := by omega
    have hreq : h.requested = h.stored ++ [n] := by
      have hall := hk.flight
      rwa [hflight] at hall
    refine ⟨hf, ?_, ?_, ?_, ?_, by simp, ?_⟩
    · intro w hw'
      rw [Story.next_requested] at hw'
      exact (hk.sound w hw').next ha (by simp)
    · show h.requested ++ [] = (h.stored ++ [n]) ++ []
      rw [List.append_nil, List.append_nil, hreq]
    · rw [Story.next_requested]
      exact hk.rising
    · intro w hw'
      rcases List.mem_append.mp hw' with hw' | hw'
      · exact (hk.bounded w hw').trans (le_max_left _ _)
      · rw [List.mem_singleton.mp hw']
        exact le_max_right _ _
    · show max q.watermarkPersisted n = (h.stored ++ [n]).getLastD start
      rw [hmax, List.getLastD_concat]
  | _ => exact hk.move ha hd hw rfl rfl rfl hf

/-- What holds between calls: if no write is in flight, there is nothing to write. -/
structure AtRest (start : Nat) (policy : InboundPolicy) (h : Story) (q : Sequencer) : Prop extends
    Kept start policy h q where
  nothingNew : q.watermarkInFlight = none → q.watermark ≤ q.watermarkPersisted

theorem AtRest.step (hs : AtRest start policy h q) (ha : h.Allows q c) :
    AtRest start policy (h.next c (c.run.run q).out) (c.run.run q).state := by
  have hstep := InboundCall.stepped ha
  generalize c.run.run q = r at hstep
  cases hstep with
  | @marked q' o hm =>
    obtain ⟨hkept, hd, hnew⟩ := (hs.toKept.mark ha hm).persist
    have hstory : h.next c (Outcome.prepend o (persistWatermark.run q')).out =
        { h.next c o with
          requested := (h.next c o).requested ++
            (persistWatermark.run q').out.filterMap SeqEvent.watermark } := by
      simp [Story.next, hd]
    rw [hstory]
    exact ⟨hkept, hnew⟩
  | passed hsame hd hw hc =>
    refine ⟨hs.toKept.move ha (by simp [hd]) hw hc hsame.watermarkPersisted hsame.watermarkInFlight
      (hs.toFollowed.still ha.position_le hd hsame.policy hsame.sessionNextIn hsame.unhandled.subset
        (hsame.highestHandled.trans_le hs.highest) ?_ ?_), ?_⟩
    · rw [hsame.unhandled]
      exact hs.waits
    · rw [hsame.highestHandled]
      exact hs.overtakes
    · rw [hsame.watermarkInFlight, hsame.watermark, hsame.watermarkPersisted]
      exact hs.nothingNew

theorem AtRest.run (calls : List InboundCall) (hs : AtRest start policy h q)
    (ha : h.AllowsAll (trace InboundCall.run q calls)) :
    AtRest start policy (h.after (trace InboundCall.run q calls)) (final InboundCall.run q calls) := by
  induction calls generalizing h q with
  | nil => exact hs
  | cons c rest ih => exact ih (hs.step ha.1) ha.2

theorem atRest_new (sessionId : SessionIdentifier) (resume : Resume) (policy : InboundPolicy)
    (clock : Clock) : AtRest resume.nextInSeqNum policy (.new resume)
      (Sequencer.new sessionId resume policy clock) := by
  have hw : (Sequencer.new sessionId resume policy clock).watermark = resume.nextInSeqNum := by
    cases policy with
    | onDelivery => rfl
    | explicit mode => cases mode <;> simp [Sequencer.watermark, Sequencer.new]
  have hsound : ∀ w ∈ [resume.nextInSeqNum], (Story.new resume).Sound policy w := by
    intro w hmem
    rw [List.mem_singleton.mp hmem]
    exact ⟨le_rfl, by simp [Story.new], by simp [Story.new]⟩
  refine ⟨⟨⟨rfl, le_rfl, ?_, ?_, le_rfl, ?_, ?_⟩, hsound, rfl, .nil, ?_, ?_, rfl⟩, fun _ => hw.le⟩ <;>
    simp [Story.new, Sequencer.new]

section
variable (sessionId : SessionIdentifier) (resume : Resume) (policy : InboundPolicy) (clock : Clock)

/-- **Watermarks are safe, and none is lost.** At the end of every run, and so at
every point of one: each watermark the application was asked to store is at most the
session's next inbound number, and under `Contiguous` every message delivered below it
has been handled; the watermarks asked for rise strictly; those not yet stored are at
most one, the write in flight; and with no write in flight the watermark is at most the
one stored last. So nothing below the stored watermark is still to be handled. This is for
a sink that accepts every event: where it refuses `MessageReceived`, the watermark that is
due is not asked for. -/
theorem watermark_safe (calls : List InboundCall) :
    let q := Sequencer.new sessionId resume policy clock
    let turns := trace InboundCall.run q calls
    let story := (Story.new resume).after turns
    let now := final InboundCall.run q calls
    let persisted := story.stored.getLastD resume.nextInSeqNum
    (Story.new resume).AllowsAll turns →
      (∀ w ∈ story.requested, w ≤ story.nextIn ∧
        (policy = .explicit .contiguous → ∀ n ∈ story.delivered, n < w → n ∈ story.handled)) ∧
      story.requested.Pairwise (· < ·) ∧
      story.requested = story.stored ++ now.watermarkInFlight.toList ∧
      (now.watermarkInFlight = none → now.watermark ≤ persisted) ∧
      (policy = .explicit .contiguous →
        ∀ n ∈ story.delivered, n < persisted → n ∈ story.handled) := by
  intro q turns story now persisted hall
  have hs : AtRest resume.nextInSeqNum policy story now :=
    (atRest_new sessionId resume policy clock).run calls hall
  have hsound : ∀ w ∈ story.requested, story.Sound policy w :=
    fun w hw => hs.sound w (List.mem_cons_of_mem _ hw)
  refine ⟨fun w hw => ⟨(hsound w hw).reached, (hsound w hw).contiguous⟩, hs.rising, hs.flight,
    ?_, ?_⟩
  · intro hnone
    exact (hs.nothingNew hnone).trans_eq hs.last
  · intro hp n hn hlt
    have hmem : persisted ∈ resume.nextInSeqNum :: story.requested := by
      refine List.cons_subset_cons _ ?_ List.getLastD_mem_cons
      rw [hs.flight]
      exact List.subset_append_left _ _
    exact (hs.sound _ hmem).contiguous hp n hn hlt

/-- **What `Highest` may lose.** When a watermark was asked for, every message delivered
below it has been handled, or a later one below it has, or later traffic that needs no
handling had taken the session past it. -/
theorem highest_watermark (calls : List InboundCall) :
    let q := Sequencer.new sessionId resume (.explicit .highest) clock
    let turns := trace InboundCall.run q calls
    let story := (Story.new resume).after turns
    (Story.new resume).AllowsAll turns → ∀ w ∈ story.requested, ∀ n ∈ story.delivered, n < w →
      n ∉ story.handled →
        (∃ m ∈ story.handled, n < m ∧ m < w) ∨ ∃ k ∈ story.advanced, n < k ∧ k ≤ w := by
  intro q turns story hall w hw n hn hlt hopen
  have hs := (atRest_new sessionId resume (.explicit .highest) clock).run calls hall
  exact ((hs.sound w (List.mem_cons_of_mem _ hw)).highest rfl n hn hlt).resolve_left hopen

end

namespace Sample

def order (n : Nat) : InboundCall := .event (.messageReceived n (Session.Sample.numbered "D" n))

/-- Two orders are handled the other way round, with admin traffic after them. -/
def outOfOrder : List InboundCall :=
  [order 1, order 2, .handled 2, .event (.inboundAdvanced 4), .handled 1, order 4,
    .watermarkPersisted 4]

/-- An order is still being handled when admin traffic arrives. -/
def overtakenByAdmin : List InboundCall := [order 1, .event (.inboundAdvanced 3)]

def receiver (mode : WatermarkMode) : Sequencer :=
  .new Session.Sample.sessionId .new (.explicit mode) clock

def tale (mode : WatermarkMode) (calls : List InboundCall) : Story :=
  (Story.new .new).after (trace InboundCall.run (receiver mode) calls)

end Sample

theorem watermark_safe_outOfOrder :
    let story := Sample.tale .contiguous Sample.outOfOrder
    story.delivered = [1, 2, 4] ∧ story.requested = [4] ∧ story.stored = [4] ∧
      ∀ n ∈ story.delivered, n < 4 → n ∈ story.handled := by
  intro story
  have hall : (Story.new .new).AllowsAll
      (trace InboundCall.run (Sample.receiver .contiguous) Sample.outOfOrder) := by decide +kernel
  have hsafe := watermark_safe Session.Sample.sessionId .new (.explicit .contiguous) Sample.clock
    Sample.outOfOrder hall
  have hrequested : story.requested = [4] := by decide +kernel
  have hmem : 4 ∈ story.requested := by rw [hrequested]; exact List.mem_cons_self
  exact ⟨by decide +kernel, hrequested, by decide +kernel, (hsafe.1 4 hmem).2 rfl⟩

/-- The order that is still being handled would not be asked for again. -/
theorem highest_overtaken_by_admin :
    let story := Sample.tale .highest Sample.overtakenByAdmin
    (Story.new .new).AllowsAll
        (trace InboundCall.run (Sample.receiver .highest) Sample.overtakenByAdmin) ∧
      story.requested = [3] ∧ story.delivered = [1] ∧ story.handled = [] := by
  decide +kernel

theorem highest_watermark_overtakenByAdmin :
    let story := Sample.tale .highest Sample.overtakenByAdmin
    3 ∈ story.requested ∧ 1 ∈ story.delivered ∧ 1 ∉ story.handled ∧
      ((∃ m ∈ story.handled, 1 < m ∧ m < 3) ∨ ∃ k ∈ story.advanced, 1 < k ∧ k ≤ 3) := by
  intro story
  have hall : (Story.new .new).AllowsAll
      (trace InboundCall.run (Sample.receiver .highest) Sample.overtakenByAdmin) := by
    decide +kernel
  have hreq : 3 ∈ story.requested := by decide +kernel
  have hdel : 1 ∈ story.delivered := by decide +kernel
  have hopen : 1 ∉ story.handled := by decide +kernel
  exact ⟨hreq, hdel, hopen, highest_watermark Session.Sample.sessionId .new Sample.clock
    Sample.overtakenByAdmin hall 3 hreq 1 hdel (by decide) hopen⟩

end Babelfix.Sequencing
