import Babelfix.Lib.Trace
import Babelfix.Reorder.Invariant

/-! # What a reorder window releases, and when

Offers on top of the release loops, then whole runs: where the window's representation
is kept, and what no run releases twice. -/
namespace Babelfix.Reorder
open Lib Session ReorderWindow

inductive WindowInput where
  | offer (msg : Message) (now : Instant)
  | expire (now : Instant)

namespace WindowInput

/-- The number a call offers. -/
def number : WindowInput → Option Nat
  | .offer msg _ => Reorder.number msg
  | .expire _ => none

/-- An offered message carries a positive number, not within the window's length of
overflowing. -/
def Proper (maxHeld : Nat) : WindowInput → Prop
  | .offer msg _ => ∃ n, Reorder.number msg = some n ∧ 0 < n ∧ n + maxHeld < u64Max
  | .expire _ => True

/-- The time a call is made at. -/
def now : WindowInput → Instant
  | .offer _ now => now
  | .expire now => now

/-- A message that goes straight through. -/
def Plain : WindowInput → Prop
  | .offer msg _ => ∀ n, Reorder.number msg = some n → n = 0
  | .expire _ => False

/-- A number is offered that is expected next, and is held already. -/
def Repeats (i : WindowInput) (w : ReorderWindow) : Prop :=
  ∃ n ∈ i.number, w.next = some n ∧ w.Holds n

instance (i : WindowInput) (w : ReorderWindow) : Decidable (i.Repeats w) :=
  inferInstanceAs (Decidable (∃ n ∈ i.number, w.next = some n ∧ w.Holds n))

/-- The message a call has under `n`: the one it offers, if that is expected next, or the
one held. -/
def msgAt (i : WindowInput) (w : ReorderWindow) (n : Nat) : Option Message :=
  match i with
  | .offer msg _ => if w.next = some n ∧ Reorder.number msg = some n then some msg else w.msgAt n
  | .expire _ => w.msgAt n

/-- Where a run of releases starts: at the number offered, if it is expected next, or after
the last one that has waited too long. -/
def Starts (i : WindowInput) (w : ReorderWindow) (start : Nat) : Prop :=
  (w.next = some start ∧ i.number = some start) ∨
    ∃ through, w.expiredThrough i.now = some through ∧ start = through + 1

theorem msgAt_of_ne {i : WindowInput} {w : ReorderWindow} (h : w.next ≠ i.number) :
    i.msgAt w = w.msgAt := by
  funext n
  cases i with
  | expire now => rfl
  | offer msg now => exact if_neg fun ⟨hnext, hn⟩ => h (hnext.trans hn.symm)

end WindowInput

section
variable {τ ω : Type} (release : Release τ ω)

def WindowInput.call : WindowInput → WindowOp τ ω Offered
  | .offer msg now => Windowed.offer release msg now
  | .expire now => do return .taken (← Windowed.expire release now)

abbrev WindowTurn (τ ω : Type) := Turn WindowInput (Windowed τ) (Shown ω) Fault Offered

/-- The number a call handed back. -/
def lateNumber (t : WindowTurn τ ω) : Option Nat :=
  match t.outcome.result with
  | .ok (.late msg) => number msg
  | _ => none

structure Ledger where
  offered : List Nat
  released : List Nat
  late : List Nat

/-- What a run offered, released and handed back. -/
def ledger (turns : List (WindowTurn τ ω)) : Ledger where
  offered := turns.filterMap fun t => t.input.number
  released := turns.flatMap fun t => released t.outcome.out
  late := turns.filterMap lateNumber

theorem ledger_concat (turns : List (WindowTurn τ ω)) (t : WindowTurn τ ω) :
    ledger (turns ++ [t]) = ⟨(ledger turns).offered ++ t.input.number.toList,
      (ledger turns).released ++ released t.outcome.out,
      (ledger turns).late ++ (lateNumber t).toList⟩ := by
  have hone {β : Type} (f : WindowTurn τ ω → Option β) : [t].filterMap f = (f t).toList := by
    cases h : f t <;> simp [h]
  simp [ledger, List.filterMap_append, hone]

end

namespace Sample

def order (n : Nat) : Message :=
  { Message.new "FIX.4.4" "D" with header := [.field 34 (writeUint n)] }

theorem number_order {n} (h : n ≤ u64Max) : number (order n) = some n := by
  refine number_eq_some.mpr ?_
  exact Block.req_eq_ok.mp (Block.req_place_self [] Fields.msgSeqNum (parseUint_writeUint h))

def accept (_ : Message) : Call Unit Unit Fault Progress := pure .continue

theorem accept_continues : Continues accept := fun _ _ => rfl

def turns (config : ReorderConfig) (inputs : List WindowInput) : List (WindowTurn Unit Unit) :=
  trace (WindowInput.call accept) ⟨.new config, ()⟩ inputs

/-- 2 fills a gap; 4 comes when the wait for it is over. -/
def gaps : List WindowInput :=
  [.offer (order 1) 0, .offer (order 3) 1, .offer (order 2) 2, .offer (order 5) 3, .expire 20,
    .offer (order 4) 21]

end Sample

/-! ## One call -/

/-- What a call leaves behind, however it ended; `T` is why it may leave the number expected
next among those held. -/
structure Kept (T : Prop) (w : ReorderWindow) (i : WindowInput) (w' : ReorderWindow) : Prop where
  bounded : w'.Bounded
  length : w'.slots.length = w.slots.length
  kept : ∀ x, some x ∈ w'.slots → some x ∈ w.slots ∨ i.number = some x.seqNum
  mono : ∀ a, w.next = some a → ∃ b, w'.next = some b ∧ a ≤ b
  /-- Why the number expected next may be held, when it was not before. -/
  free : (∀ a, w.next = some a → ¬ w.Holds a) → ∀ b, w'.next = some b → w'.Holds b → T

/-- What it leaves behind if it ran to its end, with `rs` released and the number `took`
taken in. -/
structure Done (w : ReorderWindow) (i : WindowInput) (took : Option Nat) (rs : List Nat)
    (w' : ReorderWindow) : Prop where
  rises : Rises (w.next.getD 0) (w'.next.getD 0) (rs.filter (0 < ·))
  placed : ∀ m, m ∈ rs ∨ w'.Holds m ↔ w.Holds m ∨ took = some m
  last : ∀ b, w'.next = some b → w.next = some b ∨ ∃ m ∈ rs, b = m + 1
  fresh : ¬ i.Plain → ∀ x, some x ∈ w'.slots → i.now < x.expires ∨ i.number = some x.seqNum
  free : (∀ a, w.next = some a → ¬ w.Holds a) → ∀ b, w'.next = some b → w'.Holds b → i.number = some b
  /-- With nothing waiting too long or offered too far ahead, no number is passed over. -/
  gapless : ¬ w.Waits i.now → ∀ a b, w.next = some a → w'.next = some b →
    (∀ n, i.number = some n → n ≤ a + w.slots.length) → ∀ m, a ≤ m → m < b → m ∈ rs

namespace ReorderWindow

/-- `n` has neither been passed nor is it held. -/
def Fresh (w : ReorderWindow) (n : Nat) : Prop := ¬ w.Holds n ∧ ∀ a, w.next = some a → a ≤ n

/-- `n` comes too late: it has been passed, or its slot is taken. -/
def Late (w : ReorderWindow) (n : Nat) : Prop :=
  ∃ a, w.next = some a ∧ (n < a ∨ n ≤ a + w.slots.length ∧ (w.slot n).isSome = true)

/-- Why a call that offers `n` stops although `release` goes well: there is no number after
one of these, or the window would reach past the last number there is. -/
inductive Spent (w : ReorderWindow) (now : Instant) (n : Option Nat) : Prop
  | number {m} (hm : n = some m ∨ w.Holds m) (hmax : u64Max ≤ m)
  | window {a} (ha : w.next = some a ∨ ∃ m, (n = some m ∨ w.Holds m) ∧ a = m + 1)
    (hwhy : w.Waits now ∨ ∃ m, n = some m ∧ a + w.slots.length < m)
    (hmax : u64Max < a + w.slots.length)

/-- No number at hand is within the window's length of the last one there is. -/
def Fits (w : ReorderWindow) (n : Option Nat) : Prop :=
  (∀ s ∈ w.slots, ∀ x ∈ s, x.seqNum + w.slots.length < u64Max) ∧
    (∀ m ∈ n, m + w.slots.length < u64Max) ∧ ∀ a ∈ w.next, a + w.slots.length ≤ u64Max

instance (w : ReorderWindow) (n : Option Nat) : Decidable (w.Fits n) :=
  inferInstanceAs (Decidable (_ ∧ _ ∧ _))

theorem Fits.not_spent {w : ReorderWindow} {now n} (h : w.Fits n) : ¬ w.Spent now n := by
  obtain ⟨hheld, hoffered, hnext⟩ := h
  have hlt {m : Nat} (hm : n = some m ∨ w.Holds m) : m + w.slots.length < u64Max := by
    obtain hm | ⟨x, hx, rfl⟩ := hm
    · exact hoffered m hm
    · exact hheld _ (List.mem_of_getElem? (slot_eq_some.mp hx)) x rfl
  intro hspent
  cases hspent with
  | number hm hmax =>
    have := hlt hm
    omega
  | window ha hwhy hmax =>
    obtain ha | ⟨m, hm, rfl⟩ := ha
    · have := hnext _ ha
      omega
    · have := hlt hm
      omega

end ReorderWindow

section
variable {τ ω : Type} {release : Release τ ω}

/-- What makes a call leave the number expected next among those held: `release` stops within
a run of messages, or what has waited too long comes right before the number offered. -/
inductive Trips (release : Release τ ω) (p : Windowed τ) (i : WindowInput) : Prop
  | halts {a start last} (hnext : p.window.next = some a) (hstart : i.Starts p.window start)
    (h : Halts release p.target (i.msgAt p.window) a start last)
  | overtakes {through n} (hn : i.number = some n)
    (hthrough : p.window.expiredThrough i.now = some through) (hlt : through < n)
    (hrun : ∀ m, through < m → m < n → p.window.Holds m) (hfree : ¬ p.window.Holds n)

/-- What holds once an offer has returned. -/
def Settles (release : Release τ ω) (late : Message → Prop) (taken : Prop) :
    Offered → Prop
  | .taken progress => Goes (¬ Continues release) taken progress
  | .late msg => late msg

/-- What a call did, once it has returned. Only what is fresh is taken, and only the message
offered is handed back, if `late`; `early` is the window that it found too late for. -/
def Returns (release : Release τ ω) (T : Prop) (w : ReorderWindow)
    (i : WindowInput) (early : ReorderWindow) (late : Prop) (r : Offered) (o : List (Shown ω))
    (p' : Windowed τ) : Prop :=
  Kept T w i p'.window ∧ Settles release
    (fun msg => late ∧ (∃ now n, i = .offer msg now ∧ number msg = some n ∧ early.Late n) ∧
      Done w i none (released o) p'.window ∧ p'.window = early)
    (Done w i i.number (released o) p'.window ∧ ∀ n, i.number = some n → 0 < n →
      w.Fresh n ∧ (late → ¬ early.Late n) ∧ (¬ late → n ∈ released o)) r

/-- What is left if it stopped at a fault. -/
def Stops (release : Release τ ω) (T : Prop) (w : ReorderWindow)
    (i : WindowInput) (p' : Windowed τ) : Prop :=
  Kept T w i p'.window ∧ (Continues release → w.Spent i.now i.number)

variable {w w₁ w' early : ReorderWindow} {i : WindowInput} {n a b : Nat} {msg : Message}
  {now : Instant} {rs rs' : List Nat} {took : Option Nat} {p p' : Windowed τ} {late T T₁ : Prop}

theorem Lapsed.trips (h : Lapsed release p i.now a p' b) (hnext : p.window.next = some a)
    (hne : p.window.next ≠ i.number) (hfree : ¬ p.window.Holds a) (hheld : p'.window.Holds b) :
    Trips release p i := by
  obtain ⟨through, last, hthrough, hlast⟩ := h.halts hfree hheld
  refine .halts hnext (.inr ⟨through, hthrough, rfl⟩) (?_ : Halts release _ _ a _ last)
  rwa [WindowInput.msgAt_of_ne hne]

theorem ReorderWindow.Bounded.kept (h : w.Bounded) (i : WindowInput) : Kept T w i w :=
  ⟨h, rfl, fun _ hx => .inl hx, fun a ha => ⟨a, ha, le_rfl⟩, fun hno b hb hheld => absurd hheld (hno b hb)⟩

theorem Kept.getD_le (h : Kept T w i w') : w.next.getD 0 ≤ w'.next.getD 0 := by
  cases hnext : w.next with
  | none => exact Nat.zero_le _
  | some a =>
    obtain ⟨b, hb, hle⟩ := h.mono a hnext
    rw [hb]
    exact hle

theorem Kept.after (h : Kept T₁ w₁ i w') (hm : Moved w a w₁ b) (hnext : w.next = some a)
    (hfree : ¬ w.Holds a → ¬ w₁.Holds b) (hT : ¬ w.Holds a → T₁ → T) : Kept T w i w' := by
  refine ⟨h.bounded, h.length.trans hm.length, fun x hx => ?_, fun c hc => ?_, fun hno c hc hheld => ?_⟩
  · exact (h.kept x hx).imp_left (hm.kept x)
  · obtain ⟨d, hd, hle⟩ := h.mono b hm.next
    cases hnext.symm.trans hc
    exact ⟨d, hd, hm.le.trans hle⟩
  · refine hT (hno a hnext) (h.free (fun d hd => ?_) c hc hheld)
    cases hm.next.symm.trans hd
    exact hfree (hno a hnext)

theorem ReorderWindow.Moved.keeps (h : Moved w a w' b) (hnext : w.next = some a) (i : WindowInput)
    (hT : ¬ w.Holds a → w'.Holds b → T) : Kept T w i w' := by
  refine ⟨h.bounded, h.length, fun x hx => .inl (h.kept x hx), fun c hc => ?_, fun hno c hc hheld => ?_⟩
  · cases hnext.symm.trans hc
    exact ⟨b, h.next, h.le⟩
  · cases h.next.symm.trans hc
    exact hT (hno a hnext) hheld

theorem Rises.filter (h : Rises a b rs) (q : Nat → Bool) : Rises a b (rs.filter q) :=
  ⟨h.rising.filter _, fun m hm => h.range m (List.mem_filter.mp hm).1⟩

theorem Done.stay (hrs : ∀ m, m ∈ rs ↔ took = some m) (hzero : ∀ m ∈ rs, m = 0)
    (hwait : ¬ i.Plain → ¬ w.Waits i.now) : Done w i took rs w := by
  have hnil : rs.filter (0 < ·) = [] := by
    refine List.filter_eq_nil_iff.mpr fun m hm => ?_
    rw [hzero m hm]
    decide
  refine ⟨?_, fun m => ?_, fun b hb => .inl hb, fun hi x hx => .inl ?_,
    fun hfree b hb hheld => absurd hheld (hfree b hb), fun _ a b ha hb _ m hlo hhi => ?_⟩
  · rw [hnil]
    exact .nil _ _
  · rw [hrs, or_comm]
  · exact Nat.lt_of_not_le fun hle => hwait hi ⟨x, hx, hle⟩
  · cases ha.symm.trans hb
    omega

theorem Done.after (h : Done w₁ i took rs' w') (hm : Moved w a w₁ b) (hnext : w.next = some a)
    (hadv : Advanced w a b rs w₁) (hfree : ¬ w.Holds a → ¬ w₁.Holds b) (hk : Kept T w₁ i w')
    (hwait : w.Waits i.now) : Done w i took (rs ++ rs') w' := by
  refine ⟨?_, fun m => ?_, fun c hc => ?_, h.fresh, fun hno => h.free fun d hd => ?_,
    fun hnot => absurd hwait hnot⟩
  · have hrises := h.rises
    have hle := hk.getD_le
    rw [hm.next] at hrises hle
    rw [hnext, List.filter_append]
    exact (hadv.rises.filter _).append hrises hm.le hle
  · rw [List.mem_append, or_assoc, h.placed, ← or_assoc, hadv.holds_iff]
  · obtain hc | ⟨m, hmem, rfl⟩ := h.last c hc
    · cases hm.next.symm.trans hc
      obtain rfl | hlt := Nat.eq_or_lt_of_le hm.le
      · exact .inl hnext
      · exact .inr ⟨_, List.mem_append_left _ (hadv.last_mem hlt), by omega⟩
    · exact .inr ⟨m, List.mem_append_right _ hmem, rfl⟩
  · cases hm.next.symm.trans hd
    exact hfree (hno a hnext)

theorem ReorderWindow.Fresh.before (h : w₁.Fresh n) (hm : Moved w a w₁ b) (hnext : w.next = some a)
    (hadv : Advanced w a b rs w₁) : w.Fresh n := by
  have hle := h.2 b hm.next
  refine ⟨fun hheld => h.1 ((hadv.left n).mpr ⟨hheld, by omega⟩), fun c hc => ?_⟩
  cases hnext.symm.trans hc
  exact hm.le.trans hle

/-- What overflows behind a window that has moved on would have before. -/
theorem ReorderWindow.Spent.before {n n'} (h : w₁.Spent now n') (hs : w.Shrunk w₁)
    (hn : ∀ m, n' = some m → n = some m)
    (hnext : ∀ b, w₁.next = some b → w.next = some b ∨ ∃ m, (n = some m ∨ w.Holds m) ∧ b = m + 1)
    (hwait : n' ≠ none → w.Waits now) (hw : w.Sound) : w.Spent now n := by
  have hsub {m : Nat} (hm : n' = some m ∨ w₁.Holds m) : n = some m ∨ w.Holds m :=
    hm.imp (hn m) (hs.holds hw)
  cases h with
  | number hm hmax => exact .number (hsub hm) hmax
  | @window a ha hwhy hmax =>
    rw [hs.length] at hmax
    refine .window (a := a) ?_ (.inl ?_) hmax
    · obtain ha | ⟨m, hm, rfl⟩ := ha
      · exact hnext a ha
      · exact .inr ⟨m, hsub hm, rfl⟩
    · obtain ⟨x, hx, hle⟩ | ⟨m, hm, -⟩ := hwhy
      · exact ⟨x, hs.kept x hx, hle⟩
      · exact hwait (by rw [hm]; simp)

theorem ReorderWindow.Spent.of_expire {n} (hnext : w.next = some a)
    (h : Last w ∨ w.Waits now ∧ u64Max < a + w.slots.length) : w.Spent now n := by
  obtain ⟨m, hm, hmax⟩ | ⟨hwait, hmax⟩ := h
  · exact .number (.inr hm) hmax
  · exact .window (.inl hnext) (.inl hwait) hmax

/-- A message that is expected next goes out, and after it what follows and what has waited
too long. -/
theorem Done.next {c} (hn : number msg = some n) (hnext : w.next = some n) (hm : Moved w n w₁ b)
    (hadv : Advanced w (n + 1) b rs w₁) (hle : n + 1 ≤ b) (hrun : ∀ m, n + 1 ≤ m → m < b → w.Holds m)
    (hfree : ¬ w₁.Holds b) (hm' : Moved w₁ b w' c) (hexp : Expired w₁ now b c rs' w') :
    Done w (.offer msg now) (number msg) (n :: (rs ++ rs')) w' := by
  have hall := hadv.trans hexp.toAdvanced hle hm'.le
  have hlec := hle.trans hm'.le
  refine ⟨?_, fun m => ?_, fun d hd => .inr ?_, fun _ x hx => .inl ?_, fun _ d hd hheld => ?_,
    fun hnot a d ha hd _ m hlo hhi => ?_⟩
  · rw [hnext, hm'.next]
    refine Rises.filter ?_ _
    exact (Rises.singleton le_rfl (Nat.lt_succ_self n)).append hall.rises (Nat.le_succ n) hlec
  · rw [List.mem_cons, hn, Option.some.injEq, or_assoc, hall.holds_iff, or_comm, eq_comm]
  · cases hm'.next.symm.trans hd
    obtain rfl | hlt := Nat.eq_or_lt_of_le hlec
    · exact ⟨n, List.mem_cons_self, rfl⟩
    · exact ⟨c - 1, List.mem_cons_of_mem _ (hall.last_mem hlt), by omega⟩
  · exact Nat.lt_of_not_le fun hle => hexp.due ⟨x, hx, hle⟩
  · cases hm'.next.symm.trans hd
    exact absurd hheld (hexp.free hfree)
  · cases hnext.symm.trans ha
    cases hm'.next.symm.trans hd
    obtain rfl | hlt := Nat.eq_or_lt_of_le hlo
    · exact List.mem_cons_self
    · have hcb := hexp.still fun ⟨x, hx, hle⟩ => hnot ⟨x, hm.kept x hx, hle⟩
      refine List.mem_cons_of_mem _ (List.mem_append_left _ ((hadv.taken m).mpr ?_))
      exact ⟨hrun m hlt (hcb ▸ hhi), hlt, hcb ▸ hhi⟩

theorem offerNext_ends (h : p.window.Bounded) (hnext : p.window.next = some n)
    (hfree : ¬ p.window.Holds n) (hn : number msg = some n) (hlate : ¬ late) :
    let i := WindowInput.offer msg now
    ((Windowed.offerNext release msg n now).run p).Ends
      (Returns release (Trips release p i) p.window i early late) (Stops release (Trips release p i) p.window i) := by
  intro i
  let w₁ : ReorderWindow := { p.window with next := some (n + 1) }
  have hmoved : Moved p.window n w₁ (n + 1) := by
    refine h.movedTo hnext (Nat.le_succ n) h.sound.stay fun m hm => ?_
    have hlo := (h.range hnext hm).1
    have hne : m ≠ n := by
      rintro rfl
      exact hfree hm
    omega
  have hhere : i.msgAt p.window n = some msg := if_pos ⟨hnext, hn⟩
  have hthere (m : Nat) (hm : n + 1 ≤ m) : i.msgAt p.window m = p.window.msgAt m := by
    refine if_neg fun ⟨hm', _⟩ => ?_
    cases hnext.symm.trans hm'
    omega
  have hstart : i.Starts p.window n := .inl ⟨hnext, hn⟩
  have hstopped (hstop : goOn release p.target [msg] = none) :
      Kept (Trips release p i) p.window i w₁ := by
    refine hmoved.keeps hnext _ fun _ hheld => .halts hnext hstart (.first hhere ?_ hstop)
    rw [hthere _ le_rfl]
    exact isSome_msgAt.mpr (hmoved.holds h.sound hheld)
  refine ends_addU64 (fun hover => ⟨h.kept _, fun _ => .number (.inl hn) (Nat.le_of_lt_succ hover)⟩)
    (ends_setNext ?_)
  refine ends_handOn
    (fun t hstop => ⟨hstopped hstop, fun hcont => absurd hcont (not_continues hstop)⟩)
    (fun o t hstop => Call.ends_pure ⟨hstopped hstop, not_continues hstop⟩) fun o t ho hgo => ?_
  have hsub {m : Nat} (hm : w₁.Holds m) : p.window.Holds m := hmoved.holds h.sound hm
  have hfirst : goOn release p.target (between (i.msgAt p.window) n (n + 1)) = some t := by
    rw [between_cons (Nat.lt_succ_self n), hhere, between_self]
    exact hgo
  have hsame (m : Nat) (hm : n + 1 ≤ m) : w₁.msgAt m = i.msgAt p.window m := (hthere m hm).symm
  have hran {p' : Windowed τ} {b : Nat} (hb : Ran release ⟨w₁, t⟩ (n + 1) p' b) :
      Kept (Trips release p i) p.window i p'.window := by
    refine (hmoved.trans hb.toMoved).keeps hnext _ fun _ hheld => ?_
    obtain ⟨last, hlast⟩ := hb.halts hheld
    refine .halts hnext hstart ((hlast.before (Nat.le_succ n) le_rfl hfirst hsame).cons ?_)
    rw [hhere]
    rfl
  refine ends_go (releaseRun_ends ⟨w₁, t⟩ hmoved.bounded hmoved.next)
    (fun p' ⟨⟨b, hb⟩, hlast⟩ => ⟨hran hb, fun hcont => ?_⟩)
    (fun b o p' hb hnot => Call.ends_pure ⟨hran hb, hnot⟩) fun b o₁ p₂ hb hout => ?_
  · obtain ⟨m, hm, hmax⟩ := hlast hcont
    exact .number (.inr (hsub hm)) hmax
  have hm₂ := hmoved.trans hb.toMoved
  have hadv₁ : Advanced p.window (n + 1) b (released o₁) p₂.window :=
    ⟨hout.toDrained.of_next, fun hlt => hsub (hout.last hlt)⟩
  have hsecond : goOn release p.target (between (i.msgAt p.window) n b) = some p₂.target := by
    rw [← between_append (Nat.le_succ n) hb.le, goOn_append, hfirst, ← between_congr hsame]
    exact hout.target
  have hlapsed {p' : Windowed τ} {c : Nat} (hc : Lapsed release p₂ now b p' c) :
      Kept (Trips release p i) p.window i p'.window := by
    refine (hm₂.trans hc.toMoved).keeps hnext _ fun _ hheld => ?_
    obtain ⟨through, last, hthrough, hlast⟩ := hc.halts hout.free hheld
    have hle : b ≤ through := by
      obtain ⟨x, hx, -, rfl⟩ := mem_expired.mp (List.max?_eq_some_iff.mp hthrough).1
      exact (hm₂.bounded.within b hb.next x hx).1
    refine .halts hnext (.inr ⟨through, ?_, rfl⟩)
      (hlast.before hm₂.le (Nat.le_succ_of_le hle) hsecond fun m hm => ?_)
    · exact hadv₁.toDrained.expiredThrough hm₂.toShrunk h.sound hthrough hle
    · rw [hthere m (hb.le.trans hm)]
      exact hadv₁.toDrained.msgAt hm₂.toShrunk h.sound hm
  have hstep (c : Nat) (hlt : n + 1 < c → p.window.Holds (c - 1)) (hle : n + 1 ≤ c) :
      ∃ m, (i.number = some m ∨ p.window.Holds m) ∧ c = m + 1 := by
    obtain rfl | hlt' := Nat.eq_or_lt_of_le hle
    · exact ⟨n, .inl hn, rfl⟩
    · exact ⟨c - 1, .inr (hlt hlt'), by omega⟩
  refine Call.ends_bind ((expire_ends hm₂.bounded hb.next now).mono (fun _ _ _ hq => hq)
    fun p' ⟨⟨c, hc⟩, hspent⟩ => ⟨hlapsed hc, fun hcont => ?_⟩) ?_
  · refine (Spent.of_expire (n := none) hb.next (hspent hcont)).before hm₂.toShrunk (by simp) ?_
      (by simp) h.sound
    intro b' hb'
    cases hb.next.symm.trans hb'
    exact .inr (hstep b hadv₁.last hb.le)
  intro progress o₂ p₃ ⟨c, hc, hgoes⟩
  refine Call.ends_pure ⟨hlapsed hc, hgoes.mono fun hexp => ?_⟩
  have hrs : released (o ++ (o₁ ++ (o₂ ++ []))) = n :: (released o₁ ++ released o₂) := by
    rw [List.append_nil, released_append, released_append, ho, hn]
    rfl
  rw [hrs]
  refine ⟨.next hn hnext hm₂ hadv₁ hb.le (fun m hlo hhi => hsub (hout.run m hlo hhi)) hout.free
    hc.toMoved hexp, fun m hm _ => ?_⟩
  cases hn.symm.trans hm
  exact ⟨⟨hfree, fun a ha => (Option.some.inj (hnext.symm.trans ha)).ge⟩,
    fun hl => absurd hl hlate, fun _ => List.mem_cons_self⟩

theorem ReorderWindow.Bounded.first (h : w.Bounded) (hnext : w.next = none) (n : Nat) (i : WindowInput) :
    Kept T w i { w with next := some (n + 1) } := by
  have hnone := h.unused hnext
  refine ⟨⟨h.sound.setNext _, fun hno => (by cases hno), fun a _ x hx => absurd hx (hnone x)⟩, rfl,
    fun x hx => .inl hx, fun a ha => ?_, fun _ b _ hheld => absurd hheld (h.not_holds hnext b)⟩
  rw [hnext] at ha
  cases ha

theorem ReorderWindow.Bounded.hold (h : w.Bounded) (hpos : 0 < w.slots.length)
    (hn : number msg = some n) (hnext : w.next = some a) (hlo : a ≤ n) (hhi : n ≤ a + w.slots.length)
    (hslot : w.slot n = none) (now : Instant) (hT : w.next = some n → ¬ w.Holds n → T) :
    Kept T w (.offer msg now) (w.hold n msg now) := by
  have hlen : (w.hold n msg now).slots.length = w.slots.length := List.length_set
  refine ⟨⟨h.sound.hold hpos hn hslot now, fun hno => ?_, fun c hc x hx => ?_⟩, hlen, fun x hx => ?_,
    fun c hc => ⟨c, hc, le_rfl⟩, fun hno b hb hheld => ?_⟩
  · cases hnext.symm.trans hno
  · cases hnext.symm.trans hc
    rw [hlen]
    obtain hx | rfl := (mem_hold hpos hslot).mp hx
    · exact h.within a hnext x hx
    · exact ⟨hlo, hhi⟩
  · obtain hx | rfl := (mem_hold hpos hslot).mp hx
    · exact .inl hx
    · exact .inr hn
  · obtain hheld | rfl := (h.sound.holds_hold hpos hn hslot now b).mp hheld
    · exact absurd hheld (hno b hb)
    · exact hT hb (hno b hb)

theorem ReorderWindow.Bounded.done_first (h : w.Bounded) (hnext : w.next = none) (hn : number msg = some n)
    (now : Instant) : Done w (.offer msg now) (number msg) [n] { w with next := some (n + 1) } := by
  have hfree := h.not_holds hnext
  refine ⟨?_, fun m => ?_, fun b hb => .inr ⟨n, by simp, (Option.some.inj hb).symm⟩,
    fun _ x hx => absurd hx (h.unused hnext x), fun _ b _ hheld => absurd hheld (hfree b),
    fun _ a b ha => ?_⟩
  · rw [hnext]
    exact Rises.filter (.singleton (Nat.zero_le n) (Nat.lt_succ_self n)) _
  · have hno : ¬ ({ w with next := some (n + 1) } : ReorderWindow).Holds m := hfree m
    simp [hno, hfree m, hn, eq_comm]
  · cases hnext.symm.trans ha

/-- A message too far ahead goes out, after what is below it and before what follows. -/
theorem Done.far (hnext : w.next = some a) (hle : a ≤ n) (hn : number msg = some n)
    (hfar : a + w.slots.length < n) (hd : Drained w a n rs w₁) (hd' : Drained w₁ (n + 1) b rs' w')
    (hm : Moved w a w' b) (hb : n + 1 ≤ b) (hlast : n + 1 < b → b - 1 ∈ rs') (hfree : ¬ w'.Holds b)
    (hwait : ¬ w.Waits now) : Done w (.offer msg now) (number msg) (rs ++ n :: rs') w' := by
  refine ⟨?_, fun m => ?_, fun c hc => .inr ?_, fun _ x hx => .inl ?_, fun _ c hc hheld => ?_,
    fun _ a' b' ha' _ hnear => ?_⟩
  · rw [hnext, hm.next]
    refine Rises.filter ?_ _
    have hone : Rises n (n + 1) [n] := .singleton le_rfl (Nat.lt_succ_self n)
    exact hd.rises.append (hone.append hd'.rises (Nat.le_succ n) hb) hle (Nat.le_of_succ_le hb)
  · rw [List.mem_append, List.mem_cons, hn, Option.some.injEq, or_assoc, or_assoc, hd'.holds_iff,
      ← hd.holds_iff, eq_comm]
    tauto
  · cases hm.next.symm.trans hc
    obtain rfl | hlt := Nat.eq_or_lt_of_le hb
    · exact ⟨n, by simp, rfl⟩
    · exact ⟨b - 1, List.mem_append_right _ (List.mem_cons_of_mem _ (hlast hlt)), by omega⟩
  · exact Nat.lt_of_not_le fun hle => hwait ⟨x, hm.kept x hx, hle⟩
  · cases hm.next.symm.trans hc
    exact absurd hheld hfree
  · have := hnear n hn
    cases hnext.symm.trans ha'
    omega

theorem ReorderWindow.Bounded.done_hold (h : w.Bounded) (hpos : 0 < w.slots.length)
    (hn : number msg = some n) (hslot : w.slot n = none)
    (hkept : Kept T w (.offer msg now) (w.hold n msg now)) (hwait : ¬ w.Waits now) :
    Done w (.offer msg now) (number msg) [] (w.hold n msg now) := by
  refine ⟨.nil _ _, fun m => ?_, fun b hb => .inl hb, fun _ x hx => ?_, fun hno b hb hheld => ?_,
    fun _ a b ha hb _ m hlo hhi => ?_⟩
  · simp [h.sound.holds_hold hpos hn hslot, hn, eq_comm]
  · exact (hkept.kept x hx).imp_left fun hx => Nat.lt_of_not_le fun hle => hwait ⟨x, hx, hle⟩
  · obtain hheld | rfl := (h.sound.holds_hold hpos hn hslot now b).mp hheld
    · exact absurd hheld (hno b hb)
    · exact hn
  · cases ha.symm.trans hb
    omega

theorem ReorderWindow.Bounded.moved_far (h : w.Bounded) (hnext : w.next = some a)
    (hfar : a + w.slots.length < n) (he : w.Emptied w₁) (hd : Drained w a n rs w₁) :
    Moved w a { w₁ with next := some (n + 1) } (n + 1) := by
  refine h.movedTo hnext (by omega) he fun m hm => ?_
  obtain ⟨hm, hout⟩ := (hd.left m).mp hm
  have := h.range hnext hm
  omega

theorem ReorderWindow.Fresh.of_ahead (hnext : w.next = some a) (hle : a ≤ n) (hfree : ¬ w.Holds n)
    (hnot : ¬ (n ≤ a + w.slots.length ∧ (w.slot n).isSome = true)) : w.Fresh n ∧ ¬ w.Late n := by
  refine ⟨⟨hfree, fun c hc => ?_⟩, fun ⟨c, hc, hpast⟩ => ?_⟩
  · cases hnext.symm.trans hc
    exact hle
  · cases hnext.symm.trans hc
    exact hpast.elim (Nat.not_lt.mpr hle) hnot

/-- A message that comes first, late, too far ahead, or is held. -/
theorem offerAhead_ends (h : p.window.Bounded) (hpos : 0 < p.window.slots.length)
    (hn : number msg = some n) (hwait : ¬ p.window.Waits now) (hlate : late)
    (hT : p.window.next = some n → ¬ p.window.Holds n → T) :
    ((Windowed.offerAhead release msg n now).run p).Ends
      (Returns release T p.window (.offer msg now) p.window late)
      (Stops release T p.window (.offer msg now)) := by
  have hsame : Done p.window (.offer msg now) none [] p.window :=
    .stay (by simp) (by simp) fun _ => hwait
  refine Call.ends_get ?_
  cases hnext : p.window.next with
  | none =>
    have hkept : Kept T p.window (.offer msg now) { p.window with next := some (n + 1) } :=
      h.first hnext n _
    refine ends_addU64 (fun hover => ⟨h.kept _, fun _ => .number (.inl hn) (Nat.le_of_lt_succ hover)⟩)
      (ends_setNext ?_)
    refine ends_handOn (fun t hstop => ⟨hkept, fun hcont => absurd hcont (not_continues hstop)⟩)
      (fun o t hstop => Call.ends_pure ⟨hkept, not_continues hstop⟩) fun o t ho _ => ?_
    refine Call.ends_pure ⟨hkept, ?_, fun m hm _ => ?_⟩
    · rw [List.append_nil, ho, hn]
      exact h.done_first hnext hn now
    · refine ⟨⟨h.not_holds hnext m, fun a ha => ?_⟩, fun _ ⟨a, ha, _⟩ => ?_,
        fun hnot => absurd hlate hnot⟩
      · rw [hnext] at ha
        cases ha
      · rw [hnext] at ha
        cases ha
  | some a =>
    dsimp only
    split
    · -- passed already
      rename_i hlow
      exact Call.ends_pure ⟨h.kept _, hlate, ⟨now, n, rfl, hn, a, hnext, .inl hlow⟩, hsame, rfl⟩
    rename_i hge
    have hle : a ≤ n := Nat.le_of_not_lt hge
    have hfresh (rs : List Nat) (hfree : ¬ p.window.Holds n) (hnot : ¬ (n ≤ a + p.window.slots.length ∧
        (p.window.slot n).isSome = true)) : ∀ m, (WindowInput.offer msg now).number = some m → 0 < m →
          p.window.Fresh m ∧ (late → ¬ p.window.Late m) ∧ (¬ late → m ∈ rs) := by
      intro m hm _
      cases hn.symm.trans hm
      obtain ⟨hfresh, hnotLate⟩ := Fresh.of_ahead hnext hle hfree hnot
      exact ⟨hfresh, fun _ => hnotLate, fun hnot => absurd hlate hnot⟩
    split
    · -- too far ahead: what is held goes first
      have hfree : ¬ p.window.Holds n := by
        intro hheld
        have := h.range hnext hheld
        omega
      have hkeeps {w' : ReorderWindow} (he : p.window.Emptied w') : Kept T p.window (.offer msg now) w' :=
        (h.moved hnext he).keeps hnext _ fun hfree hheld => absurd (he.holds h.sound hheld) hfree
      refine ends_go (releaseThrough_ends h hnext (by omega))
        (fun p' he => ⟨hkeeps he.1, fun hcont =>
          .window (.inl hnext) (.inr ⟨n, hn, by omega⟩) (he.2 hcont)⟩)
        (fun _ o p' he hnot => Call.ends_pure ⟨hkeeps he, hnot⟩) fun _ o p₁ hempty ⟨hdrained, _⟩ => ?_
      rw [show n - 1 + 1 = n by omega] at hdrained
      have hmoved := h.moved_far hnext (by omega) hempty hdrained
      -- nothing is held beyond the number offered
      have hbeyond {w' : ReorderWindow} {b : Nat} (hm : Moved p.window a w' b) (hb : n + 1 ≤ b) :
          Kept T p.window (.offer msg now) w' := by
        refine hm.keeps hnext _ fun _ hheld => ?_
        have := h.range hnext (hm.holds h.sound hheld)
        omega
      refine ends_addU64 (fun hover => ⟨hkeeps hempty,
        fun _ => .number (.inl hn) (Nat.le_of_lt_succ hover)⟩) (ends_setNext ?_)
      refine ends_handOn
        (fun t hstop => ⟨hbeyond hmoved le_rfl, fun hcont => absurd hcont (not_continues hstop)⟩)
        (fun o t hstop => Call.ends_pure ⟨hbeyond hmoved le_rfl, not_continues hstop⟩)
        fun o₁ t ho₁ _ => ?_
      refine Call.ends_bind ((releaseRun_ends ⟨_, t⟩ hmoved.bounded hmoved.next).mono (fun _ _ _ hq => hq)
        fun p' ⟨⟨b, hb⟩, hlast⟩ => ⟨hbeyond (hmoved.trans hb.toMoved) hb.le, fun hcont => ?_⟩) ?_
      · obtain ⟨m, hm, hmax⟩ := hlast hcont
        exact .number (.inr (hmoved.holds h.sound hm)) hmax
      intro progress o₂ p₃ ⟨b, hb, hgoes⟩
      refine Call.ends_pure ⟨hbeyond (hmoved.trans hb.toMoved) hb.le, hgoes.mono fun hout => ?_⟩
      have hrs : released (o ++ (o₁ ++ (o₂ ++ []))) = released o ++ (n :: released o₂) := by
        rw [List.append_nil, released_append, released_append, ho₁, hn]
        rfl
      rw [hrs]
      exact ⟨Done.far hnext hle hn (by omega) hdrained hout.toDrained.of_next (hmoved.trans hb.toMoved)
        hb.le hout.last_mem hout.free hwait, hfresh _ hfree (by omega)⟩
    · rename_i hnear
      split
      · -- its slot is taken
        rename_i hslot
        exact Call.ends_pure ⟨h.kept _, hlate, ⟨now, n, rfl, hn, a, hnext, .inr ⟨by omega, hslot⟩⟩,
          hsame, rfl⟩
      rename_i hslot
      have hfree : ¬ p.window.Holds n := by
        intro ⟨x, hx, _⟩
        rw [hx] at hslot
        exact hslot rfl
      have hnone := Option.not_isSome_iff_eq_none.mp hslot
      have hkept := h.hold hpos hn hnext hle (by omega) hnone now hT
      exact Call.ends_modify (Call.ends_pure ⟨hkept, h.done_hold hpos hn hnone hkept hwait,
        hfresh _ hfree fun hnot => hslot hnot.2⟩)

/-- A message that is not next, or is held as the one that is. -/
theorem offerOther_ends (h : p.window.Bounded) (hpos : 0 < p.window.slots.length)
    (hn : number msg = some n) (hne : p.window.next ≠ some n) (hlate : late) :
    let i := WindowInput.offer msg now
    ((Windowed.offerOther release msg n now).run p).Ends
      (Returns release (Trips release p i) p.window i
        ((Windowed.expire release now).run p).state.window late)
      (Stops release (Trips release p i) p.window i) := by
  intro i
  have hother : p.window.next ≠ i.number := fun heq => hne (heq.trans hn)
  unfold Windowed.offerOther
  by_cases hwait : p.window.Waits now
  swap
  · rw [Call.run_bind, expire_early h.sound hwait]
    exact offerAhead_ends h hpos hn hwait hlate fun hnext => absurd hnext hne
  cases hnext : p.window.next with
  | none =>
    obtain ⟨x, hx, -⟩ := hwait
    exact absurd hx (h.unused hnext x)
  | some a =>
    have hlapsed {p' : Windowed τ} {b : Nat} (hb : Lapsed release p now a p' b) :
        Kept (Trips release p i) p.window i p'.window :=
      hb.toMoved.keeps hnext _ (hb.trips (i := i) hnext hother)
    refine ends_go (S := fun b p' => Lapsed release p now a p' b ∧
        p' = ((Windowed.expire release now).run p).state)
      ((expire_ends h hnext now).at.mono (fun _ _ _ ⟨⟨b, hb, hgoes⟩, hp'⟩ => ⟨b, ⟨hb, hp'⟩, hgoes⟩)
        fun _ he => he)
      (fun p' ⟨⟨b, hb⟩, hspent⟩ => ⟨hlapsed hb, fun hcont => .of_expire hnext (hspent hcont)⟩)
      (fun b o p' hb hnot => Call.ends_pure ⟨hlapsed hb.1, hnot⟩)
      fun b o p₁ ⟨hb, hp₁⟩ hexp => ?_
    rw [← hp₁]
    obtain ⟨hfree₁, through, hthrough, hlt, hrun⟩ := hexp.through hwait
    have hadv := hexp.toAdvanced
    have hT (hn₁ : p₁.window.next = some n) (_ : ¬ p₁.window.Holds n) : Trips release p i := by
      cases hb.next.symm.trans hn₁
      exact .overtakes hn hthrough hlt hrun fun hheld => hfree₁ ((hexp.left n).mpr ⟨hheld, by omega⟩)
    have hafter {p' : Windowed τ} (hk : Kept (Trips release p i) p₁.window i p'.window) :
        Kept (Trips release p i) p.window i p'.window :=
      hk.after hb.toMoved hnext hexp.free fun _ htrips => htrips
    refine (offerAhead_ends hb.bounded (hb.length ▸ hpos) hn hexp.due hlate hT).mono ?_
      fun p' hstops => ⟨hafter hstops.1, fun hcont => ?_⟩
    · intro r o' p' ⟨hkept, hsettles⟩
      refine ⟨hafter hkept, ?_⟩
      rw [released_append]
      cases r with
      | late m =>
        obtain ⟨hlate, hpast, hdone, hp'⟩ := hsettles
        exact ⟨hlate, hpast, hdone.after hb.toMoved hnext hadv hexp.free hkept hwait, hp'⟩
      | taken progress =>
        refine hsettles.mono fun ⟨hdone, hfresh⟩ => ?_
        refine ⟨hdone.after hb.toMoved hnext hadv hexp.free hkept hwait, fun m hm hmpos => ?_⟩
        obtain ⟨hfresh, hpast, -⟩ := hfresh m hm hmpos
        exact ⟨hfresh.before hb.toMoved hnext hadv, hpast, fun hnot => absurd hlate hnot⟩
    · refine (hstops.2 hcont).before hb.toShrunk (fun _ hm => hm) ?_ (fun _ => hwait) h.sound
      intro c hc
      cases hb.next.symm.trans hc
      obtain rfl | hlt := Nat.eq_or_lt_of_le hb.le
      · exact .inl hnext
      · exact .inr ⟨b - 1, .inr (hadv.last hlt), by omega⟩

/-- **One call**, from any window it may find. -/
theorem call_ends (h : p.window.Bounded) (hpos : 0 < p.window.slots.length) (i : WindowInput)
    (hi : ¬ i.Repeats p.window) :
    ((i.call release).run p).Ends (Returns release (Trips release p i) p.window i
      ((Windowed.expire release i.now).run p).state.window (p.window.next ≠ i.number))
      (Stops release (Trips release p i) p.window i) := by
  cases i with
  | expire now =>
    have hnot {P : Nat → Prop} : ∀ n, (WindowInput.expire now).number = some n → P n := by
      intro n hn
      cases hn
    unfold WindowInput.call
    by_cases hwait : p.window.Waits now
    swap
    · rw [Call.run_bind, expire_early h.sound hwait]
      exact ⟨h.kept _, .stay (by simp [WindowInput.number]) (by simp) fun _ => hwait, hnot⟩
    cases hnext : p.window.next with
    | none =>
      obtain ⟨x, hx, -⟩ := hwait
      exact absurd hx (h.unused hnext x)
    | some a =>
      have hlapsed {p' : Windowed τ} {b : Nat} (hb : Lapsed release p now a p' b) :
          Kept (Trips release p (.expire now)) p.window (.expire now) p'.window := by
        refine hb.toMoved.keeps hnext _ (hb.trips (i := .expire now) hnext ?_)
        rw [hnext]
        exact Option.some_ne_none a
      refine Call.ends_bind ((expire_ends h hnext now).mono (fun _ _ _ hq => hq) ?_) ?_
      · rintro p' ⟨⟨b, hb⟩, hspent⟩
        exact ⟨hlapsed hb, fun hcont => .of_expire hnext (hspent hcont)⟩
      · rintro progress o p' ⟨b, hb, hgoes⟩
        refine Call.ends_pure ⟨hlapsed hb, hgoes.mono fun hexp => ⟨?_, hnot⟩⟩
        rw [released_append]
        exact (Done.stay (by simp [WindowInput.number, released]) (by simp [released])
          fun _ => hexp.due).after hb.toMoved hnext hexp.toAdvanced hexp.free
            (hb.bounded.kept (T := False) _) hwait
  | offer msg now =>
    have hne : p.window.slots.isEmpty = false := by
      rw [List.isEmpty_eq_false_iff]
      exact List.ne_nil_of_length_pos hpos
    have hthrough (hz : ∀ n, number msg = some n → n = 0) :
        ((Windowed.handOn release msg >>= fun progress => pure (Offered.taken progress)).run p).Ends
          (Returns release (Trips release p (.offer msg now)) p.window (.offer msg now)
            ((Windowed.expire release now).run p).state.window (p.window.next ≠ number msg))
          (Stops release (Trips release p (.offer msg now)) p.window (.offer msg now)) := by
      refine ends_handOn (fun t hstop => ⟨h.kept _, fun hcont => absurd hcont (not_continues hstop)⟩)
        (fun o t hstop => Call.ends_pure ⟨h.kept _, not_continues hstop⟩) fun o t ho _ => ?_
      refine Call.ends_pure ⟨h.kept _, ?_, fun n hn hlt => ?_⟩
      · rw [List.append_nil, ho]
        exact .stay (fun m => Option.mem_toList) (fun m hm => hz m (Option.mem_toList.mp hm))
          fun hplain => absurd hz hplain
      · have := hz n hn
        omega
    show ((Windowed.offer release msg now).run p).Ends _ _
    refine Call.ends_get ?_
    rw [hne]
    simp only [Bool.false_eq_true, if_false]
    split
    · rename_i n hget
      have hn := number_eq_some.mpr hget
      split
      · rename_i hzero
        exact hthrough fun m hm => (Option.some.inj (hn.symm.trans hm)).symm.trans hzero
      split
      · rename_i hnext
        exact offerNext_ends h hnext (fun hheld => hi ⟨n, hn, hnext, hheld⟩) hn
          fun hne => hne (hnext.trans hn.symm)
      · rename_i hnext
        exact offerOther_ends h hpos hn hnext fun heq => hnext (heq.trans hn)
    · rename_i hget
      exact hthrough fun m hm => absurd (number_eq_some.mp hm) (hget m)

theorem call_returns (hrel : Continues release) (h : p.window.Bounded) (hpos : 0 < p.window.slots.length)
    (hi : ¬ i.Repeats p.window) (hspent : ¬ p.window.Spent i.now i.number) :
    ∃ r, ((i.call release).run p).result = .ok r ∧ Returns release (Trips release p i) p.window i
      ((Windowed.expire release i.now).run p).state.window (p.window.next ≠ i.number) r
      ((i.call release).run p).out ((i.call release).run p).state := by
  have hends : ((i.call release).run p).Ends _ _ := call_ends h hpos i hi
  cases hr : ((i.call release).run p).result with
  | error f => exact absurd ((hends.error hr).2 hrel) hspent
  | ok r => exact ⟨r, rfl, hends.ok hr⟩

end

/-! ## Whole runs -/

variable {w : ReorderWindow}

section
variable {τ ω : Type} {release : Release τ ω}

variable {i : WindowInput}

namespace Sample

end Sample

/-- A call on a window in which it overflows no number, and which offers nothing that is held
as the number expected next. -/
def Smooth (t : WindowTurn τ ω) : Prop :=
  ¬ t.before.window.Spent t.input.now t.input.number ∧ ¬ t.input.Repeats t.before.window

theorem Smooth.returns (hrel : Continues release) {p r} (hs : Smooth (⟨p, i, r⟩ : WindowTurn τ ω))
    (h : p.window.Bounded) (hpos : 0 < p.window.slots.length) (hr : r = (i.call release).run p) :
    Kept (Trips release p i) p.window i r.state.window ∧
      (∃ took, Done p.window i took (released r.out) r.state.window) ∧
      ∀ msg now n, i = .offer msg now → number msg = some n → 0 < n → ¬ p.window.Fresh n →
        r.result = .ok (.late msg) := by
  subst hr
  obtain ⟨result, hok, hkept, hsettles⟩ := call_returns (i := i) hrel h hpos hs.2 hs.1
  rw [hok]
  cases result with
  | late m =>
    obtain ⟨-, ⟨now', -, hi, -⟩, hdone, -⟩ := hsettles
    refine ⟨hkept, ⟨_, hdone⟩, fun msg now n hmsg _ _ _ => ?_⟩
    rw [hi] at hmsg
    cases hmsg
    rfl
  | taken progress =>
    obtain ⟨hdone, hfresh⟩ := Goes.of_continues hrel hsettles
    refine ⟨hkept, ⟨_, hdone⟩, fun msg now n hmsg hn hpos hnot => ?_⟩
    refine absurd (hfresh n ?_ hpos).1 hnot
    rw [hmsg]
    exact hn

namespace Sample

end Sample

end

end Babelfix.Reorder
