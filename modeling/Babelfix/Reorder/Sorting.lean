import Babelfix.Reorder.Release

/-! # Sorting

Consecutive numbers that come out of order, none further ahead of the first missing one
than the window is long, and none waiting too long, are released in order. -/
namespace Babelfix.Reorder
open Lib Session ReorderWindow

section
variable {τ ω : Type} {release : Release τ ω} {p : Windowed τ}
  {w w' : ReorderWindow} {s a n x : Nat} {seen rs : List Nat} {i : WindowInput}

/-- Of the numbers from `s` on, `seen` have been offered and `a` is the first that has
not: what is below it is out, what is above it is held. -/
structure InTurn (w : ReorderWindow) (s : Nat) (seen : List Nat) (a : Nat) : Prop where
  bounded : w.Bounded
  next : ∀ c, w.next = some c → c = a
  first : w.next = none → seen = [] ∧ a = s
  le : s ≤ a
  passed : ∀ m, s ≤ m → m < a → m ∈ seen
  missing : a ∉ seen
  holds : ∀ m, w.Holds m ↔ m ∈ seen ∧ a < m

theorem InTurn.new (config : ReorderConfig) (s : Nat) : InTurn (.new config) s [] s :=
  ⟨.new config, fun c hc => (by cases hc), fun _ => ⟨rfl, rfl⟩, le_rfl, fun m hlo hhi => absurd hhi (by omega),
    List.not_mem_nil, fun m => by simp [(Bounded.new config).not_holds rfl m]⟩

/-- A number offered now: new, and within reach of the first missing one. -/
structure Due (w : ReorderWindow) (s : Nat) (seen : List Nat) (a x : Nat) : Prop where
  room : 0 < w.slots.length
  pos : 0 < s
  first : seen = [] → x = s
  le : a ≤ x
  near : x ≤ a + w.slots.length
  unseen : x ∉ seen
  fits : ∀ m ∈ seen ++ [x], m < u64Max

theorem InTurn.not_spent (h : InTurn w s seen a) (hx : Due w s seen a x) (hi : i.number = some x)
    (hwait : ¬ w.Waits i.now) : ¬ w.Spent i.now i.number := by
  have hbeyond {m : Nat} (hm : i.number = some m ∨ w.Holds m) : a ≤ m ∧ m < u64Max := by
    obtain hm | hm := hm
    · cases hi.symm.trans hm
      exact ⟨hx.le, hx.fits x (by simp)⟩
    · obtain ⟨hm, hlt⟩ := (h.holds m).mp hm
      exact ⟨Nat.le_of_lt hlt, hx.fits m (List.mem_append_left _ hm)⟩
  have hnear := hx.near
  intro hspent
  cases hspent with
  | number hm hmax =>
    have := hbeyond hm
    omega
  | window ha hwhy hmax =>
    obtain ⟨m, hm, hfar⟩ := hwhy.resolve_left hwait
    cases hi.symm.trans hm
    obtain ha | ⟨m, hm, rfl⟩ := ha
    · have := h.next _ ha
      omega
    · have := hbeyond hm
      omega

/-- Its slot is free: no two numbers above the first missing one share a slot. -/
theorem InTurn.not_late (h : InTurn w s seen a) (hx : Due w s seen a x) (hne : w.next ≠ some x) :
    ¬ w.Late x := by
  intro ⟨c, hc, hlate⟩
  cases h.next c hc
  have hlt : a < x := by
    refine Nat.lt_of_le_of_ne hx.le ?_
    rintro rfl
    exact hne hc
  obtain ⟨hhi, hslot⟩ := hlate.resolve_left (by omega)
  obtain ⟨y, hy⟩ := Option.isSome_iff_exists.mp hslot
  have hget := slot_eq_some.mp hy
  have hmem : some y ∈ w.slots := List.mem_of_getElem? hget
  obtain ⟨hseen, hay⟩ := (h.holds _).mp (h.bounded.sound.wellFormed.holds_of_mem hmem)
  have hin := h.bounded.within a hc y hmem
  have hyx : y.seqNum ≠ x := by
    rintro rfl
    exact hx.unseen hseen
  have hmod := (h.bounded.sound.wellFormed.placed _ y hget).1
  obtain ⟨hya, -⟩ | ⟨hxa, -⟩ := slot_eq_iff hin ⟨Nat.le_of_lt hlt, hhi⟩ hyx hmod
  · omega
  · omega

/-- What goes out carries on from the first missing number to the next one. -/
theorem InTurn.done (h : InTurn w s seen a) (hx : Due w s seen a x) (hi : i.number = some x)
    (hwait : ¬ w.Waits i.now) {T} (hk : Kept T w i w') (hd : Done w i (some x) rs w')
    (hout : w.next = some x → x ∈ rs) :
    ∃ b, a ≤ b ∧ InTurn w' s (seen ++ [x]) b ∧ rs = List.range' a (b - a) := by
  have hle := h.le
  have hplaced (m : Nat) : m ∈ rs ∨ w'.Holds m ↔ (m ∈ seen ∧ a < m) ∨ m = x := by
    rw [hd.placed, h.holds, Option.some.injEq, eq_comm (a := x)]
  have hlo {m : Nat} (hm : m ∈ rs) : a ≤ m := by
    obtain ⟨-, hlt⟩ | rfl := (hplaced m).mp (.inl hm)
    · exact Nat.le_of_lt hlt
    · exact hx.le
  have hrises := hd.rises
  rw [List.filter_eq_self.mpr fun m hm => decide_eq_true (by have := hlo hm; have := hx.pos; omega)] at hrises
  obtain ⟨b, hb, hab, hall, hout⟩ : ∃ b, w'.next = some b ∧ a ≤ b ∧ (∀ m, a ≤ m → m < b → m ∈ rs) ∧
      (a = x → x ∈ rs) := by
    cases hnext : w.next with
    | some c =>
      cases h.next c hnext
      obtain ⟨b, hb, hab⟩ := hk.mono a hnext
      refine ⟨b, hb, hab, hd.gapless hwait a b hnext hb fun n hn => ?_, fun hax => hout (hax ▸ hnext)⟩
      cases hi.symm.trans hn
      exact hx.near
    | none =>
      -- the first message of all
      obtain ⟨hnil, has⟩ := h.first hnext
      have hxs := hx.first hnil
      have honly {m : Nat} (hm : m ∈ rs) : m = x := by
        simpa [hnil] using (hplaced m).mp (.inl hm)
      cases hb : w'.next with
      | none =>
        obtain hin | hheld := (hplaced x).mpr (.inr rfl)
        · have := (hrises.range x hin).2
          rw [hb] at this
          exact absurd this (Nat.not_lt_zero x)
        · exact absurd hheld (hk.bounded.not_holds hb x)
      | some b =>
        obtain hnone | ⟨m, hm, rfl⟩ := hd.last b hb
        · cases hnext.symm.trans hnone
        · have hmx := honly hm
          refine ⟨m + 1, rfl, by omega, fun k hlo hhi => ?_, fun _ => hmx ▸ hm⟩
          rwa [show k = m by omega]
  have hhi {m : Nat} (hm : m ∈ rs) : m < b := by
    have := (hrises.range m hm).2
    rwa [hb] at this
  have hmissing : b ∉ seen ++ [x] := by
    have hnot : b ∉ rs := fun hm => Nat.lt_irrefl b (hhi hm)
    rw [List.mem_append, List.mem_singleton]
    rintro (hseen | rfl)
    · have hne : b ≠ a := by
        rintro rfl
        exact h.missing hseen
      have hheld := ((hplaced b).mpr (.inl ⟨hseen, by omega⟩)).resolve_left hnot
      have hfree : ∀ c, w.next = some c → ¬ w.Holds c := fun c hc hheld =>
        absurd ((h.holds c).mp hheld).2 (by rw [h.next c hc]; exact Nat.lt_irrefl a)
      cases hi.symm.trans (hd.free hfree b hb hheld)
      exact hx.unseen hseen
    · obtain rfl | hlt := Nat.eq_or_lt_of_le hab
      · exact hnot (hout rfl)
      · obtain ⟨-, hlt'⟩ | heq := (hplaced a).mp (.inl (hall a le_rfl hlt))
        · exact Nat.lt_irrefl a hlt'
        · exact absurd heq hlt.ne
  refine ⟨b, hab, ⟨hk.bounded, fun c hc => Option.some.inj (hc.symm.trans hb), fun hnone => ?_, by omega,
    fun m hm hmb => ?_, hmissing, fun m => ?_⟩, ?_⟩
  · cases hb.symm.trans hnone
  · rw [List.mem_append, List.mem_singleton]
    by_cases hma : m < a
    · exact .inl (h.passed m hm hma)
    · exact ((hplaced m).mp (.inl (hall m (by omega) hmb))).imp_left And.left
  · rw [List.mem_append, List.mem_singleton]
    constructor
    · intro hheld
      have hne : b ≠ m := by
        rintro rfl
        exact hmissing (by simpa using ((hplaced b).mp (.inr hheld)).imp_left And.left)
      have hbm := (hk.bounded.range hb hheld).1
      exact ⟨((hplaced m).mp (.inr hheld)).imp_left And.left, by omega⟩
    · intro ⟨hm, hbm⟩
      refine ((hplaced m).mpr (hm.imp_left fun hm => ⟨hm, by omega⟩)).resolve_left fun hin => ?_
      exact Nat.lt_asymm (hhi hin) hbm
  · exact Rises.eq_range' ⟨hrises.rising, fun m hm => ⟨hlo hm, hhi hm⟩⟩ hall

/-- **One offer.** -/
theorem InTurn.step (hrel : Continues release) (h : InTurn p.window s seen a)
    (hx : Due p.window s seen a x) (hi : i.number = some x) (hwait : ¬ p.window.Waits i.now) :
    ((i.call release).run p).result = .ok (.taken .continue) ∧
      ((i.call release).run p).state.window.slots.length = p.window.slots.length ∧
      ∃ b, a ≤ b ∧ InTurn ((i.call release).run p).state.window s (seen ++ [x]) b ∧
        released ((i.call release).run p).out = List.range' a (b - a) := by
  have hrepeats : ¬ i.Repeats p.window := by
    intro ⟨n, hn, _, hheld⟩
    cases hi.symm.trans hn
    exact hx.unseen ((h.holds _).mp hheld).1
  obtain ⟨r, hr, hkept, hsettles⟩ := call_returns hrel h.bounded hx.room hrepeats
    (h.not_spent hx hi hwait)
  have hexpire : ((Windowed.expire release i.now).run p).state = p := by
    rw [expire_early h.bounded.sound hwait]
  rw [hexpire, hi] at hsettles
  cases r with
  | late msg =>
    obtain ⟨hne, ⟨now, n, rfl, hn, hlate⟩, -⟩ := hsettles
    cases hn.symm.trans hi
    exact absurd hlate (h.not_late hx hne)
  | taken progress =>
    cases progress with
    | close => exact absurd hrel hsettles
    | «continue» =>
      obtain ⟨hdone, hfresh⟩ := hsettles
      refine ⟨hr, hkept.length, h.done hx hi hwait hkept hdone fun hnext => ?_⟩
      exact (hfresh x rfl (Nat.lt_of_lt_of_le hx.pos (h.le.trans hx.le))).2.2 (not_not.mpr hnext)

/-- Offers of the numbers from `s` to `s + n`, once each and `s` first, none more than `k`
ahead of the smallest that has not been offered yet. -/
structure Disorder (k s n : Nat) (inputs : List WindowInput) : Prop where
  numbered : ∀ i ∈ inputs, i.number.isSome = true
  first : (inputs.filterMap WindowInput.number).head? = some s
  perm : (inputs.filterMap WindowInput.number).Perm (List.range' s (n + 1))
  near : ∀ pre m post, inputs.filterMap WindowInput.number = pre ++ m :: post →
    ∀ u, s ≤ u → u ≤ s + n → u ∉ pre → (∀ v, s ≤ v → v < u → v ∈ pre) → m ≤ u + k

/-- With at most `k + 1` numbers to come after the first, none is too far ahead. -/
theorem Disorder.of_le {k inputs} (hnumbered : ∀ i ∈ inputs, i.number.isSome = true)
    (hfirst : (inputs.filterMap WindowInput.number).head? = some s)
    (hperm : (inputs.filterMap WindowInput.number).Perm (List.range' s (n + 1))) (hle : n ≤ k + 1) :
    Disorder k s n inputs := by
  refine ⟨hnumbered, hfirst, hperm, fun pre m post hsplit u hlo _ hu _ => ?_⟩
  have hm : m ∈ List.range' s (n + 1) := hperm.mem_iff.mp (by rw [hsplit]; simp)
  rw [List.mem_range'_1] at hm
  cases pre with
  | nil =>
    rw [hsplit] at hfirst
    have hms : m = s := Option.some.inj hfirst
    omega
  | cons y ys =>
    rw [hsplit] at hfirst
    have hys : y = s := Option.some.inj hfirst
    have hus : u ≠ s := by
      rintro rfl
      exact hu (hys ▸ List.mem_cons_self)
    omega

/-- The window in turn, with `rs` released. -/
def Sorted (config : ReorderConfig) (s : Nat) (seen rs : List Nat) (w : ReorderWindow) : Prop :=
  ∃ a, InTurn w s seen a ∧ w.slots.length = config.maxHeld ∧ rs = List.range' s (a - s)

theorem Disorder.step (hrel : Continues release) {config} (hheld : 1 ≤ config.maxHeld)
    (hpos : 1 ≤ s) (htop : s + n < u64Max) {inputs} (h : Disorder config.maxHeld s n inputs) {pre}
    (hpre : pre ++ [i] <+: inputs)
    (hsorted : Sorted config s (pre.filterMap WindowInput.number) rs p.window) {r}
    (hr : r = (i.call release).run p) (hwait : ¬ p.window.Waits i.now) :
    r.result = .ok (.taken .continue) ∧
      Sorted config s ((pre ++ [i]).filterMap WindowInput.number) (rs ++ released r.out)
        r.state.window := by
  subst hr
  obtain ⟨ys, rfl⟩ := hpre
  obtain ⟨x, hx⟩ := Option.isSome_iff_exists.mp (h.numbered i (by simp))
  have hnums : (pre ++ [i] ++ ys).filterMap WindowInput.number =
      pre.filterMap WindowInput.number ++ x :: ys.filterMap WindowInput.number := by
    simp [hx]
  have hseen : (pre ++ [i]).filterMap WindowInput.number =
      pre.filterMap WindowInput.number ++ [x] := by
    simp [hx]
  have hrange : ∀ m ∈ pre.filterMap WindowInput.number ++ [x], s ≤ m ∧ m < s + (n + 1) := by
    intro m hm
    refine List.mem_range'_1.mp (h.perm.mem_iff.mp ?_)
    rw [List.filterMap_append, hseen]
    exact List.mem_append_left _ hm
  have hnew : x ∉ pre.filterMap WindowInput.number := by
    have hnodup : ((pre ++ [i] ++ ys).filterMap WindowInput.number).Nodup :=
      h.perm.nodup_iff.mpr List.nodup_range'
    rw [hnums] at hnodup
    intro hmem
    exact (List.nodup_append.mp hnodup).2.2 x hmem x List.mem_cons_self rfl
  have hxs := hrange x (by simp)
  obtain ⟨a, hturn, hlen, rfl⟩ := hsorted
  have hax : a ≤ x := by
    by_contra hlt
    exact hnew (hturn.passed x hxs.1 (Nat.lt_of_not_le hlt))
  have hnear := h.near _ x _ hnums a hturn.le (by omega) hturn.missing hturn.passed
  have hfirst (hnil : pre.filterMap WindowInput.number = []) : x = s := by
    have hfirst := h.first
    rw [hnums, hnil] at hfirst
    exact Option.some.inj hfirst
  have hdue : Due p.window s (pre.filterMap WindowInput.number) a x :=
    ⟨by omega, hpos, hfirst, hax, by omega, hnew, fun m hm => by have := hrange m hm; omega⟩
  obtain ⟨hr, hlen', b, hab, hturn', hrs⟩ := hturn.step hrel hdue hx hwait
  refine ⟨hr, b, hseen ▸ hturn', hlen'.trans hlen, ?_⟩
  have hle := hturn.le
  rw [hrs, show b - s = a - s + (b - a) by omega, ← List.range'_append_1,
    show s + (a - s) = a by omega]

/-- **The window sorts bounded disorder.** -/
theorem sorts_bounded_disorder (hrel : Continues release) (config : ReorderConfig)
    (hheld : 1 ≤ config.maxHeld) (t : τ) (s n : Nat) (hpos : 1 ≤ s) (htop : s + n < u64Max)
    (inputs : List WindowInput) (h : Disorder config.maxHeld s n inputs)
    (hwait : ∀ turn ∈ trace (WindowInput.call release) ⟨.new config, t⟩ inputs,
      ∀ x, some x ∈ turn.before.window.slots → turn.input.now < x.expires) :
    let turns := trace (WindowInput.call release) ⟨.new config, t⟩ inputs
    let now := (final (WindowInput.call release) ⟨.new config, t⟩ inputs).window
    (ledger turns).released = List.range' s (n + 1) ∧
      (∀ turn ∈ turns, turn.outcome.result = .ok (.taken .continue)) ∧
      now.held = 0 ∧ (∀ x, some x ∉ now.slots) ∧ now.next = some (s + n + 1) := by
  intro turns now
  have hearly {w : ReorderWindow} {now : Instant} (h : ∀ x, some x ∈ w.slots → now < x.expires) :
      ¬ w.Waits now := fun ⟨x, hx, hle⟩ => absurd (h x hx) (Nat.not_lt.mpr hle)
  obtain ⟨hend, heach⟩ := run_induction_of (motive := fun xs p => xs <+: inputs →
      Sorted config s (xs.filterMap WindowInput.number)
        (ledger (trace (WindowInput.call release) ⟨.new config, t⟩ xs)).released p.window)
    (WindowInput.call release) hwait (fun _ => ⟨s, .new config s, List.length_replicate, by
      rw [Nat.sub_self]
      rfl⟩) (by
      intro pre i ih hwait hpre
      have hsorted := ih ((List.prefix_append pre [i]).trans hpre)
      rw [trace_append, trace_singleton, ledger_concat]
      exact (h.step hrel hheld hpos htop hpre hsorted rfl (hearly hwait)).2)
  obtain ⟨a, hturn, -, hrs⟩ := hend List.prefix_rfl
  have ha : a = s + n + 1 := by
    have hout : a ∉ List.range' s (n + 1) := fun hin => hturn.missing (h.perm.mem_iff.mpr hin)
    rw [List.mem_range'_1] at hout
    have hle := hturn.le
    by_contra hne
    have hin := h.perm.mem_iff.mp (hturn.passed (a - 1) (by omega) (by omega))
    rw [List.mem_range'_1] at hin
    omega
  have hfree : ∀ x, some x ∉ now.slots := by
    intro x hx
    obtain ⟨hin, hlt⟩ := (hturn.holds _).mp (hturn.bounded.sound.wellFormed.holds_of_mem hx)
    have hin := List.mem_range'_1.mp (h.perm.mem_iff.mp hin)
    omega
  have hnext : now.next = some a := by
    cases hnext : now.next with
    | none =>
      have := (hturn.first hnext).2
      omega
    | some c => exact congrArg some (hturn.next c hnext)
  refine ⟨?_, fun turn hturn => ?_, ?_, hfree, ha ▸ hnext⟩
  · rw [hrs, show a - s = n + 1 by omega]
  · obtain ⟨pre, post, hsplit⟩ := List.append_of_mem hturn
    obtain ⟨xs, ys, hinputs, -, hbefore, houtcome⟩ := heach pre turn post hsplit
    have hpre : xs ++ [turn.input] <+: inputs := ⟨ys, by rw [hinputs]; simp⟩
    exact (h.step hrel hheld hpos htop hpre
      (hbefore ((List.prefix_append xs [turn.input]).trans hpre)) houtcome (hearly (hwait turn hturn))).1
  · rw [hturn.bounded.sound.wellFormed.counted]
    refine List.countP_eq_zero.mpr fun o ho hsome => ?_
    obtain ⟨x, rfl⟩ := Option.isSome_iff_exists.mp hsome
    exact hfree x ho

end

namespace Sample

/-- 3 comes before 2. -/
def disordered : List WindowInput :=
  [.offer (order 1) 0, .offer (order 3) 1, .offer (order 2) 2, .offer (order 4) 3]

/-- The same from 0 on. -/
def fromZero : List WindowInput :=
  [.offer (order 0) 0, .offer (order 2) 1, .offer (order 1) 2]

/-- The last two numbers there are. -/
def toTheLast : List WindowInput :=
  [.offer (order (u64Max - 1)) 0, .offer (order u64Max) 1]

end Sample

theorem sorts_disordered :
    Disorder 2 1 3 Sample.disordered ∧
      (ledger (Sample.turns ⟨2, 10⟩ Sample.disordered)).released = [1, 2, 3, 4] := by
  have hdisorder : Disorder 2 1 3 Sample.disordered :=
    .of_le (by decide +kernel) (by decide +kernel) (by decide +kernel) (by decide)
  have hwait : ∀ turn ∈ Sample.turns ⟨2, 10⟩ Sample.disordered,
      ∀ e ∈ turn.before.window.expiries, turn.input.now < e := by decide +kernel
  exact ⟨hdisorder, (sorts_bounded_disorder Sample.accept_continues ⟨2, 10⟩ (by decide) () 1 3
    (by decide) (by decide) Sample.disordered hdisorder
    fun turn hturn x hx => hwait turn hturn _ (mem_expiries.mpr ⟨x, hx, rfl⟩)).1⟩

/-- 0 goes straight through and does not count as the first message, so 1 comes too late
after 2. And the number after the last one there is does not exist. -/
theorem unsorted_at_the_ends :
    Disorder 1 0 2 Sample.fromZero ∧
      (ledger (Sample.turns ⟨1, 10⟩ Sample.fromZero)).released = [0, 2] ∧
      (ledger (Sample.turns ⟨1, 10⟩ Sample.fromZero)).late = [1] ∧
      Disorder 1 (u64Max - 1) 1 Sample.toTheLast ∧
      (ledger (Sample.turns ⟨1, 10⟩ Sample.toTheLast)).released = [u64Max - 1] := by
  refine ⟨.of_le ?_ ?_ ?_ ?_, ?_, ?_, .of_le ?_ ?_ ?_ ?_, ?_⟩
  all_goals decide +kernel

end Babelfix.Reorder
