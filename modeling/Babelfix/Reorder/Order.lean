import Babelfix.Reorder.Release

/-! # Order of what a reorder window releases

Beside the window stands a ledger of what has been offered, released and handed back.
What is released rises, each number offered is in one of three places, and nothing that is
held has waited too long. A number is handed back too early in one case only: `offer` looks
whether a message is next before it lets what has waited too long go, so a message that
becomes next by that is held, and then takes up the slot of the last number of the window. -/
namespace Babelfix.Reorder
open Lib Session ReorderWindow

/-- What holds of a window and its ledger. -/
structure Orderly (w : ReorderWindow) (g : Ledger) : Prop where
  bounded : w.Bounded
  roomy : 0 < w.slots.length
  pos : ∀ n ∈ g.offered, 0 < n
  rises : Rises 0 (w.next.getD 0) g.released
  placed : ∀ n, n ∈ g.offered ↔ n ∈ g.released ∨ w.Holds n ∨ n ∈ g.late
  apart : ∀ n ∈ g.late, n ∉ g.released ∧ ¬ w.Holds n
  /-- The last number released is the one before `next`. -/
  last : ∀ a, w.next = some a → ∃ m ∈ g.released, a = m + 1

variable {w w' : ReorderWindow} {g : Ledger} {a n : Nat} {rs : List Nat}
  {i : WindowInput} {took : Option Nat} {now : Instant} {T : Prop}

theorem orderly_new (config : ReorderConfig) (h : 1 ≤ config.maxHeld) :
    Orderly (.new config) ⟨[], [], []⟩ := by
  have hfree : ∀ n, ¬ (ReorderWindow.new config).Holds n := (Bounded.new config).not_holds rfl
  refine ⟨.new config, ?_, by simp, .nil _ _, by simpa using hfree, by simp, fun a ha => ?_⟩
  · rw [ReorderWindow.new, List.length_replicate]
    exact h
  · cases ha

/-- The window moves on, and the number offered is taken or handed back. -/
theorem Orderly.step (h : Orderly w g) (back : Option Nat) (hk : Kept T w i w')
    (hd : Done w i took rs w')
    (hnew : ∀ n, i.number = some n → n ∉ g.offered) (hpos : ∀ n, i.number = some n → 0 < n)
    (hnum : ∀ n, i.number = some n ↔ took = some n ∨ back = some n)
    (hone : ∀ n, back = some n → took ≠ some n) :
    Orderly w' ⟨g.offered ++ i.number.toList, g.released ++ rs, g.late ++ back.toList⟩ := by
  have hoffered (m : Nat) : m ∈ g.offered ++ i.number.toList ↔ m ∈ g.offered ∨ i.number = some m := by
    rw [List.mem_append, Option.mem_toList]
  have hallpos : ∀ m ∈ g.offered ++ i.number.toList, 0 < m := by
    intro m hm
    exact ((hoffered m).mp hm).elim (h.pos m) (hpos m)
  have hrs : rs.filter (0 < ·) = rs := by
    refine List.filter_eq_self.mpr fun m hm => decide_eq_true (hallpos m ((hoffered m).mpr ?_))
    obtain hheld | htook := (hd.placed m).mp (.inl hm)
    · exact .inl ((h.placed m).mpr (.inr (.inl hheld)))
    · exact .inr ((hnum m).mpr (.inl htook))
  have haway {m : Nat} (hout : m ∉ g.released) (hfree : ¬ w.Holds m) (hnot : took ≠ some m) :
      m ∉ g.released ++ rs ∧ ¬ w'.Holds m := by
    have := hd.placed m
    rw [List.mem_append]
    tauto
  refine ⟨hk.bounded, hk.length.symm ▸ h.roomy, hallpos, ?_, fun m => ?_, fun m hm => ?_, fun a ha => ?_⟩
  · have hrises := hd.rises
    rw [hrs] at hrises
    exact h.rises.append hrises (Nat.zero_le _) hk.getD_le
  · have hplaced := hd.placed m
    have hbefore := h.placed m
    have hsplit := hnum m
    rw [hoffered, List.mem_append, List.mem_append, Option.mem_toList]
    tauto
  · rw [List.mem_append, Option.mem_toList] at hm
    obtain hm | hm := hm
    · obtain ⟨hout, hfree⟩ := h.apart m hm
      refine haway hout hfree fun htook => ?_
      exact hnew m ((hnum m).mpr (.inl htook)) ((h.placed m).mpr (.inr (.inr hm)))
    · have hfresh := hnew m ((hnum m).mpr (.inr hm))
      rw [h.placed, not_or, not_or] at hfresh
      exact haway hfresh.1 hfresh.2.1 (hone m hm)
  · obtain ha | ⟨m, hm, rfl⟩ := hd.last a ha
    · obtain ⟨m, hm, rfl⟩ := h.last a ha
      exact ⟨m, List.mem_append_left _ hm, rfl⟩
    · exact ⟨m, List.mem_append_right _ hm, rfl⟩

/-- The next number offered is proper and new, and those offered before do not overflow. -/
structure Ledger.Ready (g : Ledger) (len : Nat) (i : WindowInput) : Prop where
  fits : ∀ n ∈ g.offered, n + len < u64Max
  proper : i.Proper len
  new : ∀ n, i.number = some n → n ∉ g.offered

theorem WindowInput.Proper.number {len} (h : i.Proper len) (hn : i.number = some n) :
    0 < n ∧ n + len < u64Max := by
  cases i with
  | expire now => cases hn
  | offer msg now =>
    obtain ⟨m, hm, hlt⟩ := h
    cases hm.symm.trans hn
    exact hlt

theorem WindowInput.Proper.not_plain {len} (h : i.Proper len) : ¬ i.Plain := by
  cases i with
  | expire now => exact id
  | offer msg now =>
    obtain ⟨n, hn, hpos, -⟩ := h
    exact fun hplain => absurd (hplain n hn) (Nat.ne_of_gt hpos)

theorem Orderly.smooth {τ ω : Type} {p : Windowed τ} {r} (h : Orderly p.window g)
    (hready : g.Ready p.window.slots.length i) : Smooth (⟨p, i, r⟩ : WindowTurn τ ω) := by
  have hheld {x : Held} (hx : some x ∈ p.window.slots) : x.seqNum ∈ g.offered :=
    (h.placed _).mpr (.inr (.inl (h.bounded.sound.wellFormed.holds_of_mem hx)))
  refine ⟨Fits.not_spent ⟨?_, fun n hn => (hready.proper.number hn).2, fun a ha => ?_⟩, ?_⟩
  · rintro s hs x rfl
    exact hready.fits _ (hheld hs)
  · obtain ⟨m, hm, rfl⟩ := h.last a ha
    have := hready.fits m ((h.placed m).mpr (.inl hm))
    show m + 1 + p.window.slots.length ≤ u64Max
    omega
  · intro ⟨n, hn, _, hheld⟩
    exact hready.new n hn ((h.placed n).mpr (.inr (.inl hheld)))

/-- The number expected next is held, and `n` would be in its slot. -/
def ReorderWindow.Collides (w : ReorderWindow) (n : Nat) : Prop :=
  ∃ a, w.next = some a ∧ w.Holds a ∧ n = a + w.slots.length

theorem ReorderWindow.Collides.late (h : w.Collides n) : w.Late n := by
  obtain ⟨a, ha, ⟨x, hx, _⟩, rfl⟩ := h
  have hslot : w.slot (a + w.slots.length) = w.slot a := by
    unfold ReorderWindow.slot
    rw [Nat.add_mod_right]
  refine ⟨a, ha, .inr ⟨le_rfl, ?_⟩⟩
  rw [hslot, hx]
  rfl

/-- A number that has just been handed back is below one that has been released, unless
it collides. -/
theorem Orderly.fair_iff (h : Orderly w' g) (hw : w.Bounded) (hk : Kept T w i w')
    (hi : i.number = some n) (hne : w.next ≠ some n) (hlate : w'.Late n) (hn : n ∈ g.late) :
    (∃ m ∈ g.released, n < m) ↔ ¬ w'.Collides n := by
  obtain ⟨hout, hfree⟩ := h.apart n hn
  obtain ⟨a, ha, hlate⟩ := hlate
  have hbelow : ∀ m ∈ g.released, m < a := by
    intro m hm
    have := (h.rises.range m hm).2
    rwa [ha] at this
  by_cases hlt : n < a
  · refine ⟨fun _ ⟨b, hb, _, hnb⟩ => ?_, fun _ => ?_⟩
    · cases ha.symm.trans hb
      omega
    · obtain ⟨m, hm, rfl⟩ := h.last a ha
      have hnm : n ≠ m := by
        rintro rfl
        exact hout hm
      exact ⟨m, hm, by omega⟩
  · refine ⟨fun ⟨m, hm, hnm⟩ => absurd (hbelow m hm) (by omega), fun hnot => absurd ?_ hnot⟩
    obtain ⟨hhi, hslot⟩ := hlate.resolve_left hlt
    obtain ⟨x, hx⟩ := Option.isSome_iff_exists.mp hslot
    rw [slot_eq_some] at hx
    have hmem := List.mem_of_getElem? hx
    have hmod := (h.bounded.sound.wellFormed.placed _ x hx).1
    have hwithin := h.bounded.within a ha x hmem
    have hxn : x.seqNum ≠ n := by
      intro hseq
      exact hfree (hseq ▸ h.bounded.sound.wellFormed.holds_of_mem hmem)
    obtain ⟨hxa, hna⟩ | ⟨rfl, hxa⟩ := slot_eq_iff hwithin ⟨by omega, hhi⟩ hxn hmod
    · exact ⟨a, ha, hxa ▸ h.bounded.sound.wellFormed.holds_of_mem hmem, hna⟩
    -- the last of the window was within it before, when `n` was expected next already
    obtain hold | hjust := hk.kept x hmem
    · cases hnext : w.next with
      | none => exact absurd hold (hw.unused hnext x)
      | some c =>
        obtain ⟨d, hd, hle⟩ := hk.mono c hnext
        cases ha.symm.trans hd
        have hreach := (hw.within c hnext x hold).2
        have hlen := hk.length
        refine absurd (hnext.trans (congrArg some ?_)) hne
        omega
    · exact absurd (Option.some.inj (hjust.symm.trans hi)) hxn

section
variable {τ ω : Type} (release : Release τ ω)

/-- The number offered is the last of the window, and the one expected next is held, and
nothing has waited too long. -/
def Collision (t : WindowTurn τ ω) : Prop :=
  ∃ msg now n, t.input = .offer msg now ∧ number msg = some n ∧ ¬ t.before.window.Waits now ∧
    t.before.window.Collides n

/-- The number handed back is below one that has been released, `g` being the ledger of
the calls before. -/
def Fair (g : Ledger) (t : WindowTurn τ ω) : Prop :=
  ∀ n, lateNumber t = some n → ∃ m ∈ g.released ++ released t.outcome.out, n < m

variable {release} {p : Windowed τ}

theorem expire_free (hrel : Continues release) (h : p.window.Bounded) {k}
    (hspent : ¬ p.window.Spent now k) (hwait : p.window.Waits now)
    (ha : ((Windowed.expire release now).run p).state.window.next = some a) :
    ¬ ((Windowed.expire release now).run p).state.window.Holds a := by
  cases hnext : p.window.next with
  | none =>
    obtain ⟨x, hx, -⟩ := hwait
    exact absurd hx (h.unused hnext x)
  | some c =>
    have hends : ((Windowed.expire release now).run p).Ends _ _ := expire_ends h hnext now
    cases hr : ((Windowed.expire release now).run p).result with
    | error f => exact absurd (.of_expire hnext ((hends.error hr).2 hrel)) hspent
    | ok progress =>
      obtain ⟨b, hb, hgoes⟩ := hends.ok hr
      cases hb.next.symm.trans ha
      exact ((hgoes.of_continues hrel).through hwait).1

/-- **One call keeps the order.** -/
theorem orderly_step (hrel : Continues release) (h : Orderly p.window g)
    (hready : g.Ready p.window.slots.length i) :
    let t : WindowTurn τ ω := ⟨p, i, (i.call release).run p⟩
    Orderly t.outcome.state.window ⟨g.offered ++ i.number.toList,
        g.released ++ released t.outcome.out, g.late ++ (lateNumber t).toList⟩ ∧
      t.outcome.state.window.slots.length = p.window.slots.length ∧
      (Fair g t ↔ ¬ Collision t) := by
  intro t
  have hproper (n : Nat) (hn : i.number = some n) : 0 < n := (hready.proper.number hn).1
  obtain ⟨hspent, hrepeats⟩ : Smooth t := h.smooth hready
  obtain ⟨result, hr, hkept, hsettles⟩ := call_returns (i := i) hrel h.bounded h.roomy hrepeats hspent
  have hr : t.outcome.result = .ok result := hr
  have hearly (hnot : ¬ p.window.Waits i.now) :
      ((Windowed.expire release i.now).run p).state = p := by
    rw [expire_early h.bounded.sound hnot]
  cases result with
  | taken progress =>
    obtain ⟨hdone, hfresh⟩ := hsettles.of_continues hrel
    have hnone : lateNumber t = none := by
      unfold lateNumber
      rw [hr]
    rw [hnone]
    refine ⟨h.step none hkept hdone hready.new hproper (by simp) (by simp), hkept.length,
      fun _ => ?_, fun _ n hn => ?_⟩
    · rintro ⟨msg, now, n, hin, hn, hnot, hcollides⟩
      have hin : i = .offer msg now := hin
      subst hin
      refine (hfresh n hn (hproper n hn)).2.1 (fun heq => ?_) ?_
      · obtain ⟨a, ha, -, hna⟩ := hcollides
        have hna : n = a + p.window.slots.length := hna
        have hroomy := h.roomy
        cases ha.symm.trans (heq.trans hn)
        omega
      · rw [hearly hnot]
        exact hcollides.late
    · cases hnone.symm.trans hn
  | late msg =>
    obtain ⟨hnext, ⟨now, n, rfl, hn, hlate⟩, hdone, hsame⟩ := hsettles
    have hsome : lateNumber t = some n := by
      unfold lateNumber
      rw [hr]
      exact hn
    have hord := h.step (some n) hkept hdone hready.new hproper
      (fun m => by simp [WindowInput.number, hn]) (by simp)
    rw [← hsame] at hlate
    have hfair := hord.fair_iff h.bounded hkept hn (fun heq => hnext (heq.trans hn.symm)) hlate (by simp)
    have hcollision : Collision t ↔ t.outcome.state.window.Collides n := by
      constructor
      · rintro ⟨msg', now', n', hin, hn', hnot, hcollides⟩
        cases hin
        cases hn.symm.trans hn'
        rw [show t.outcome.state.window = p.window from hsame.trans (congrArg _ (hearly hnot))]
        exact hcollides
      · rintro ⟨a, ha, hheld, hna⟩
        have hnot : ¬ p.window.Waits now := fun hwait =>
          expire_free hrel h.bounded hspent hwait (hsame ▸ ha) (hsame ▸ hheld)
        refine ⟨msg, now, n, rfl, hn, hnot, ?_⟩
        show p.window.Collides n
        rw [← hearly hnot, ← hsame]
        exact ⟨a, ha, hheld, hna⟩
    rw [hsome, hcollision, ← hfair]
    refine ⟨hord, hkept.length, fun hf => hf n hsome, fun hm k hk => ?_⟩
    cases hsome.symm.trans hk
    exact hm

theorem ledger_offered (p : Windowed τ) (inputs : List WindowInput) :
    (ledger (trace (WindowInput.call release) p inputs)).offered =
      inputs.filterMap WindowInput.number := by
  induction inputs generalizing p with
  | nil => rfl
  | cons i rest ih =>
    have hrest := ih ((i.call release).run p).state
    simp only [ledger, trace, List.filterMap_cons] at hrest ⊢
    rw [hrest]

/-- Numbers that are proper and offered once each. -/
structure Offers (maxHeld : Nat) (inputs : List WindowInput) : Prop where
  proper : ∀ i ∈ inputs, i.Proper maxHeld
  distinct : (inputs.filterMap WindowInput.number).Nodup

variable {maxHeld : Nat} {xs : List WindowInput}

theorem Offers.of_append {ys} (h : Offers maxHeld (xs ++ ys)) : Offers maxHeld xs := by
  refine ⟨fun i hi => h.proper i (List.mem_append_left _ hi), ?_⟩
  have hall := h.distinct
  rw [List.filterMap_append] at hall
  exact (List.nodup_append.mp hall).1

theorem Offers.ready (h : Offers maxHeld (xs ++ [i])) (p₀ : Windowed τ) :
    (ledger (trace (WindowInput.call release) p₀ xs)).Ready maxHeld i := by
  have hoffered : (ledger (trace (WindowInput.call release) p₀ xs)).offered = _ := ledger_offered p₀ xs
  refine ⟨fun n hn => ?_, h.proper i (List.mem_append_right _ List.mem_cons_self), fun n hn hmem => ?_⟩
  · rw [hoffered] at hn
    obtain ⟨j, hj, hnum⟩ := List.mem_filterMap.mp hn
    exact ((h.of_append.proper j hj).number hnum).2
  · rw [hoffered] at hmem
    have hall := h.distinct
    rw [List.filterMap_append] at hall
    refine (List.nodup_append.mp hall).2.2 n hmem n ?_ rfl
    simp [hn]

/-- What holds at the end of a run, and before each call of it. -/
theorem Offers.run (hrel : Continues release) (config : ReorderConfig) (hheld : 1 ≤ config.maxHeld) (t : τ)
    {inputs} (h : Offers config.maxHeld inputs) :
    let turns := trace (WindowInput.call release) ⟨.new config, t⟩
    Orderly (final (WindowInput.call release) ⟨.new config, t⟩ inputs).window (ledger (turns inputs)) ∧
      ∀ pre turn post, turns inputs = pre ++ turn :: post →
        turn.outcome = (turn.input.call release).run turn.before ∧
          (ledger pre).Ready turn.before.window.slots.length turn.input ∧
          Orderly turn.before.window (ledger pre) := by
  intro turns
  obtain ⟨hend, hrun⟩ := run_induction_of (H := fun _ => True) (motive := fun xs p =>
      Offers config.maxHeld xs →
        Orderly p.window (ledger (turns xs)) ∧ p.window.slots.length = config.maxHeld)
    (WindowInput.call release) (fun _ _ => trivial)
    (fun _ => ⟨orderly_new config hheld, List.length_replicate⟩) (by
      intro pre i ih _ h
      obtain ⟨hord, hlen⟩ := ih h.of_append
      obtain ⟨hstep, hlen', -⟩ := orderly_step hrel hord (hlen.symm ▸ h.ready _)
      refine ⟨?_, hlen'.trans hlen⟩
      rw [show turns (pre ++ [i]) = turns pre ++ [_] from trace_append _ _ _ _, ledger_concat]
      exact hstep)
  refine ⟨(hend h).1, fun pre turn post hsplit => ?_⟩
  obtain ⟨xs, ys, hinputs, rfl, hbefore, houtcome⟩ := hrun pre turn post hsplit
  have hxs : Offers config.maxHeld (xs ++ [turn.input]) := by
    rw [hinputs, ← List.singleton_append, ← List.append_assoc] at h
    exact h.of_append
  obtain ⟨hord, hlen⟩ := hbefore hxs.of_append
  exact ⟨houtcome, hlen.symm ▸ hxs.ready _, hord⟩

/-- **What a reorder window guarantees.** As long as `release` goes well, the numbers
released rise strictly, and each number offered is released, held or handed back, and only
one of these. A number is handed back only once a greater one has been released if, and
only if, the last number of the window is never offered while the number expected next is
itself held. -/
theorem reorder_window (hrel : Continues release) (config : ReorderConfig)
    (hheld : 1 ≤ config.maxHeld) (t : τ) (inputs : List WindowInput)
    (h : Offers config.maxHeld inputs) :
    let turns := trace (WindowInput.call release) ⟨.new config, t⟩ inputs
    let now := (final (WindowInput.call release) ⟨.new config, t⟩ inputs).window
    let all := ledger turns
    all.released.Pairwise (· < ·) ∧
      (∀ n ∈ all.offered, n ∈ all.released ∧ ¬ now.Holds n ∧ n ∉ all.late ∨
        n ∉ all.released ∧ now.Holds n ∧ n ∉ all.late ∨
        n ∉ all.released ∧ ¬ now.Holds n ∧ n ∈ all.late) ∧
      ((∀ pre turn post, turns = pre ++ turn :: post → Fair (ledger pre) turn) ↔
        ∀ turn ∈ turns, ¬ Collision turn) := by
  intro turns now all
  obtain ⟨hord, hrun⟩ := h.run hrel config hheld t
  have heach : ∀ pre turn post, turns = pre ++ turn :: post →
      (Fair (ledger pre) turn ↔ ¬ Collision turn) := by
    intro pre turn post hsplit
    obtain ⟨houtcome, hready, hord⟩ := hrun pre turn post hsplit
    obtain ⟨-, -, hfair⟩ := orderly_step hrel hord hready
    rwa [← houtcome] at hfair
  refine ⟨hord.rises.rising, ?_, ?_⟩
  · intro n hn
    have hapart := hord.apart n
    have hboth : n ∈ all.released → ¬ now.Holds n := by
      intro hout hhold
      have hlt := (hord.rises.range n hout).2
      cases hnext : now.next with
      | none => exact hord.bounded.not_holds hnext n hhold
      | some a =>
        rw [hnext] at hlt
        exact absurd hlt (Nat.not_lt.mpr (hord.bounded.range hnext hhold).1)
    have hplace := (hord.placed n).mp hn
    tauto
  · constructor
    · intro hall turn hmem
      obtain ⟨pre, post, hsplit⟩ := List.append_of_mem hmem
      exact (heach pre turn post hsplit).mp (hall pre turn post hsplit)
    · intro hall pre turn post hsplit
      have hmem : turn ∈ turns := by
        rw [hsplit]
        exact List.mem_append_right _ List.mem_cons_self
      exact (heach pre turn post hsplit).mpr (hall turn hmem)

/-- **Nothing outlives its wait.** Numbers are positive, do not come near the last one there
is and are offered once each, and `release` goes well: after each call all that is held, apart
from the number just offered, expires later than the time of the call, and the count and the
earliest expiry are right. -/
theorem nothing_outlives_its_wait (hrel : Continues release) (config : ReorderConfig)
    (hheld : 1 ≤ config.maxHeld) (t : τ) (inputs : List WindowInput)
    (h : Offers config.maxHeld inputs) :
    ∀ turn ∈ trace (WindowInput.call release) ⟨.new config, t⟩ inputs,
      let after := turn.outcome.state.window
      (∀ x, some x ∈ after.slots → turn.input.number ≠ some x.seqNum →
          turn.input.now < x.expires) ∧
        after.held = after.occupied ∧ after.earliest = after.expiries.min? := by
  intro turn hturn after
  obtain ⟨pre, post, hsplit⟩ := List.append_of_mem hturn
  obtain ⟨houtcome, hready, hord⟩ := (h.run hrel config hheld t).2 pre turn post hsplit
  obtain ⟨hkept, ⟨_, hdone⟩, -⟩ := (hord.smooth hready).returns hrel hord.bounded hord.roomy houtcome
  refine ⟨fun x hx hother => ?_, hkept.bounded.sound.wellFormed.counted, hkept.bounded.sound.earliest⟩
  exact (hdone.fresh hready.proper.not_plain x hx).resolve_right hother

end

namespace Sample

/-- 7 has waited too long when 8 is offered, so that 8 is next, and is held. -/
def nextIsHeld : List WindowInput :=
  [.offer (order 5) 0, .offer (order 7) 0, .offer (order 8) 1, .offer (order 9) 1]

end Sample

theorem Sample.gaps_offers : Offers 2 Sample.gaps := by
  refine ⟨?_, by decide +kernel⟩
  intro i hi
  simp only [Sample.gaps, List.mem_cons, List.not_mem_nil, or_false] at hi
  rcases hi with rfl | rfl | rfl | rfl | rfl | rfl
  all_goals first
    | trivial
    | exact ⟨_, Sample.number_order (by decide), by decide, by decide⟩

theorem reorder_window_gaps :
    let all := ledger (Sample.turns ⟨2, 10⟩ Sample.gaps)
    let now := (final (WindowInput.call Sample.accept) ⟨.new ⟨2, 10⟩, ()⟩ Sample.gaps).window
    all.released = [1, 2, 3, 5] ∧ all.late = [4] ∧ all.released.Pairwise (· < ·) ∧
      ∀ n ∈ all.offered, n ∈ all.released ∧ ¬ now.Holds n ∧ n ∉ all.late ∨
        n ∉ all.released ∧ now.Holds n ∧ n ∉ all.late ∨
        n ∉ all.released ∧ ¬ now.Holds n ∧ n ∈ all.late := by
  intro all now
  obtain ⟨hrising, hplaces, -⟩ := reorder_window Sample.accept_continues ⟨2, 10⟩ (by decide) ()
    Sample.gaps Sample.gaps_offers
  exact ⟨by decide +kernel, by decide +kernel, hrising, hplaces⟩

/-- 9 is handed back although nothing above 7 has been released. -/
theorem late_before_released :
    let all := ledger (Sample.turns ⟨1, 1⟩ Sample.nextIsHeld)
    all.offered = [5, 7, 8, 9] ∧ all.released = [5, 7] ∧ all.late = [9] := by
  decide +kernel

theorem nothing_outlives_its_wait_gaps : Offers 2 Sample.gaps ∧
    ∀ turn ∈ Sample.turns ⟨2, 10⟩ Sample.gaps, ∀ x, some x ∈ turn.outcome.state.window.slots →
      turn.input.number ≠ some x.seqNum → turn.input.now < x.expires :=
  ⟨Sample.gaps_offers, fun turn hturn => (nothing_outlives_its_wait Sample.accept_continues ⟨2, 10⟩
    (by decide) () Sample.gaps Sample.gaps_offers turn hturn).1⟩

/-- The window would reach past the last number there is: what has waited too long stays. -/
theorem outlives_its_wait :
    let w := (final (WindowInput.call Sample.accept) ⟨.new ⟨2, 1⟩, ()⟩
      [.offer (Sample.order (u64Max - 2)) 0, .offer (Sample.order u64Max) 0, .expire 10]).window
    w.Holds u64Max ∧ w.expiries = [1] := by
  decide +kernel

end Babelfix.Reorder
