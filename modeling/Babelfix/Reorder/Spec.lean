import Babelfix.Reorder.Window
import Mathlib.Data.List.Basic
import Mathlib.Order.Basic

/-! # What a reorder window holds

Each message is in the slot of its number, and counted, and the earliest expiry is known.
Taking a message and holding one keep this, and change what is held by that message. -/
namespace Babelfix.Reorder
open Lib Session

def number (msg : Message) : Option Nat :=
  match msg.header.get Fields.msgSeqNum with
  | .ok n => n
  | .error _ => none

variable {n a b : Nat} {msg : Message} {x : Held}

theorem number_eq_some : number msg = some n ↔ msg.header.get Fields.msgSeqNum = .ok (some n) := by
  unfold number
  split
  · rename_i m h
    rw [h]
    simp
  · rename_i e h
    rw [h]
    simp

namespace ReorderWindow

def Holds (w : ReorderWindow) (n : Nat) : Prop := ∃ h, w.slot n = some h ∧ h.seqNum = n

instance (w : ReorderWindow) (n : Nat) : Decidable (w.Holds n) :=
  match hs : w.slot n with
  | none => .isFalse fun ⟨h, hh, _⟩ => by rw [hs] at hh; cases hh
  | some h =>
    if hn : h.seqNum = n then .isTrue ⟨h, hs, hn⟩
    else .isFalse fun ⟨h', hh, hn'⟩ => by rw [hs] at hh; cases hh; exact hn hn'

/-- How many slots are taken. -/
def occupied (w : ReorderWindow) : Nat := w.slots.countP Option.isSome

/-- Each message is in its own slot, under the number it carries, and counted. -/
structure WellFormed (w : ReorderWindow) : Prop where
  placed : ∀ i h, w.slots[i]? = some (some h) →
    h.seqNum % w.slots.length = i ∧ number h.msg = some h.seqNum
  counted : w.held = w.occupied

theorem WellFormed.new (config : ReorderConfig) : (ReorderWindow.new config).WellFormed := by
  refine ⟨?_, ?_⟩
  · intro i h hi
    simp [ReorderWindow.new, List.getElem?_replicate] at hi
  · simp [ReorderWindow.new, occupied, List.countP_replicate]

/-- When the messages that are held expire. -/
def expiries (w : ReorderWindow) : List Instant := w.slots.filterMap fun s => s.map Held.expires

/-- A window that knows the earliest expiry. -/
structure Sound (w : ReorderWindow) : Prop where
  wellFormed : w.WellFormed
  earliest : w.earliest = w.expiries.min?

theorem Sound.new (config : ReorderConfig) : (ReorderWindow.new config).Sound := by
  refine ⟨.new config, ?_⟩
  have hnone : (ReorderWindow.new config).expiries = [] := by
    simp [expiries, ReorderWindow.new]
  rw [hnone]
  rfl

variable {w w' : ReorderWindow}

theorem Sound.setNext (hw : w.Sound) (n : Nat) : ({ w with next := some n } : ReorderWindow).Sound :=
  ⟨⟨hw.wellFormed.placed, hw.wellFormed.counted⟩, hw.earliest⟩

theorem mem_expiries {e} : e ∈ w.expiries ↔ ∃ h, some h ∈ w.slots ∧ h.expires = e := by
  simp [expiries]

theorem slot_eq_some : w.slot n = some x ↔ w.slots[n % w.slots.length]? = some (some x) := by
  simp [slot, Option.join_eq_some_iff]

theorem slot_eq_none_iff (hpos : 0 < w.slots.length) :
    w.slot n = none ↔ w.slots[n % w.slots.length]? = some none := by
  have hlt : n % w.slots.length < w.slots.length := Nat.mod_lt _ hpos
  rw [slot, List.getElem?_eq_getElem hlt, Option.join_some, Option.some.injEq]

theorem WellFormed.slot_of_mem (hw : w.WellFormed) (hmem : some x ∈ w.slots) :
    w.slot x.seqNum = some x := by
  obtain ⟨i, hi, hget⟩ := List.mem_iff_getElem.mp hmem
  have hget : w.slots[i]? = some (some x) := by rw [List.getElem?_eq_getElem hi, hget]
  rw [slot_eq_some, (hw.placed i x hget).1]
  exact hget

theorem WellFormed.holds_of_mem (hw : w.WellFormed) (hmem : some x ∈ w.slots) : w.Holds x.seqNum :=
  ⟨x, hw.slot_of_mem hmem, rfl⟩

theorem WellFormed.holds_iff (hw : w.WellFormed) :
    w.Holds n ↔ ∃ h, some h ∈ w.slots ∧ h.seqNum = n := by
  constructor
  · intro ⟨h, hslot, hn⟩
    exact ⟨h, List.mem_of_getElem? (slot_eq_some.mp hslot), hn⟩
  · intro ⟨h, hmem, hn⟩
    exact hn ▸ hw.holds_of_mem hmem

theorem WellFormed.not_holds (hw : w.WellFormed) (h0 : w.held = 0) (n : Nat) : ¬ w.Holds n := by
  rw [hw.holds_iff]
  intro ⟨h, hmem, _⟩
  have hnone := List.countP_eq_zero.mp (hw.counted.symm.trans h0) _ hmem
  simp at hnone

/-- Two numbers of the window that share a slot are its first and its last. -/
theorem slot_eq_iff {len a x y : Nat} (hx : a ≤ x ∧ x ≤ a + len) (hy : a ≤ y ∧ y ≤ a + len)
    (hne : x ≠ y) (hmod : x % len = y % len) : x = a ∧ y = a + len ∨ y = a ∧ x = a + len := by
  have hstep : ∀ x y, a ≤ x → x < y → y ≤ a + len → x % len = y % len → x = a ∧ y = a + len := by
    intro x y hlo hlt hhi hmod
    have hdvd : len ∣ y - x :=
      Nat.dvd_of_mod_eq_zero (Nat.sub_mod_eq_zero_of_mod_eq hmod.symm)
    have hle := Nat.le_of_dvd (by omega) hdvd
    omega
  rcases Nat.lt_or_gt_of_ne hne with hlt | hlt
  · exact .inl (hstep x y hx.1 hlt hy.2 hmod)
  · exact .inr (hstep y x hy.1 hlt hx.2 hmod.symm)

/-- The message held under `n`. -/
def msgAt (w : ReorderWindow) (n : Nat) : Option Message :=
  ((w.slot n).filter fun h => h.seqNum = n).map Held.msg

theorem isSome_msgAt : (w.msgAt n).isSome ↔ w.Holds n := by
  simp [msgAt, Holds, Option.any_eq_true]

theorem msgAt_eq_none : w.msgAt n = none ↔ ¬ w.Holds n := by
  rw [← isSome_msgAt, Option.not_isSome_iff_eq_none]

/-! ## Taking and holding -/

/-- `w'` is `w`, or what is left of it. -/
structure Shrunk (w w' : ReorderWindow) : Prop where
  sound : w'.Sound
  length : w'.slots.length = w.slots.length
  kept : ∀ h, some h ∈ w'.slots → some h ∈ w.slots

theorem Sound.shrunk (hw : w.Sound) : w.Shrunk w := ⟨hw, rfl, fun _ hx => hx⟩

theorem Shrunk.trans {w''} (h : w.Shrunk w') (h' : w'.Shrunk w'') : w.Shrunk w'' :=
  ⟨h'.sound, h'.length.trans h.length, fun x hx => h.kept x (h'.kept x hx)⟩

theorem Shrunk.setNext (h : w.Shrunk w') (n : Nat) : w.Shrunk { w' with next := some n } :=
  ⟨h.sound.setNext n, h.length, h.kept⟩

theorem Shrunk.holds (h : w.Shrunk w') (hw : w.Sound) (hheld : w'.Holds n) : w.Holds n := by
  obtain ⟨x, hx, rfl⟩ := h.sound.wellFormed.holds_iff.mp hheld
  exact hw.wellFormed.holds_of_mem (h.kept x hx)

theorem Shrunk.msgAt (h : w.Shrunk w') (hw : w.Sound) (hheld : w'.Holds n) :
    w'.msgAt n = w.msgAt n := by
  obtain ⟨x, hx, rfl⟩ := hheld
  have hmem := h.kept x (List.mem_of_getElem? (slot_eq_some.mp hx))
  rw [ReorderWindow.msgAt, ReorderWindow.msgAt, hx, hw.wellFormed.slot_of_mem hmem]

/-- What is left of a window, with the same number expected next. -/
structure Emptied (w w' : ReorderWindow) : Prop extends w.Shrunk w' where
  next : w'.next = w.next

theorem Sound.stay (hw : w.Sound) : w.Emptied w := ⟨hw.shrunk, rfl⟩

theorem Emptied.trans {w''} (h : w.Emptied w') (h' : w'.Emptied w'') : w.Emptied w'' :=
  ⟨h.toShrunk.trans h'.toShrunk, h'.next.trans h.next⟩

/-- The window without the message under `n`. -/
structure Taken (w : ReorderWindow) (n : Nat) (msg : Message) (w' : ReorderWindow) : Prop
    extends w.Emptied w' where
  holds : ∀ m, w'.Holds m ↔ w.Holds m ∧ m ≠ n
  held : w'.held + 1 = w.held
  number : Reorder.number msg = some n
  msgAt : w.msgAt n = some msg

theorem mem_set_of_ne {l : List (Option Held)} {i s s'} (hi : l[i]? = some s) (hx : some x ∈ l)
    (hne : some x ≠ s) : some x ∈ l.set i s' := by
  obtain ⟨j, hj, hget⟩ := List.mem_iff_getElem.mp hx
  have hij : i ≠ j := by
    rintro rfl
    rw [List.getElem?_eq_getElem hj, hget] at hi
    exact hne (Option.some.inj hi)
  refine List.mem_iff_getElem.mpr ⟨j, by simpa using hj, ?_⟩
  rw [List.getElem_set_ne hij, hget]

theorem lt_of_getElem? {l : List (Option Held)} {i s} (h : l[i]? = some s) : i < l.length :=
  (List.getElem?_eq_some_iff.mp h).1

theorem Sound.vacate_earliest (hw : w.Sound)
    (hget : w.slots[x.seqNum % w.slots.length]? = some (some x)) (hw' : (w.vacate x).WellFormed) :
    (w.vacate x).earliest = (w.vacate x).expiries.min? := by
  have hsub : ∀ e ∈ (w.vacate x).expiries, e ∈ w.expiries := by
    intro e he
    obtain ⟨y, hy, hex⟩ := mem_expiries.mp he
    obtain hy | hy := List.mem_or_eq_of_mem_set hy
    · exact mem_expiries.mpr ⟨y, hy, hex⟩
    · cases hy
  show (if w.held - 1 = 0 then none else if w.earliest = some x.expires then
    (w.vacate x).expiries.min? else w.earliest) = _
  split
  · rename_i h0
    -- nothing is held any more
    refine (List.min?_eq_none_iff.mpr ?_).symm
    refine List.eq_nil_iff_forall_not_mem.mpr fun e he => ?_
    obtain ⟨y, hy, -⟩ := mem_expiries.mp he
    exact hw'.not_holds h0 _ (hw'.holds_of_mem hy)
  split
  · rfl
  · rename_i hne
    -- the message with the earliest expiry is another one, and still there
    cases he : w.expiries.min? with
    | none =>
      have hin : x.expires ∈ w.expiries := mem_expiries.mpr ⟨x, List.mem_of_getElem? hget, rfl⟩
      rw [List.min?_eq_none_iff.mp he] at hin
      cases hin
    | some e =>
      rw [hw.earliest, he]
      obtain ⟨hin, hleast⟩ := List.min?_eq_some_iff.mp he
      obtain ⟨y, hy, hex⟩ := mem_expiries.mp hin
      have hyx : some y ≠ some x := by
        intro heq
        cases heq
        exact hne (by rw [hw.earliest, he, hex])
      refine (List.min?_eq_some_iff.mpr ⟨?_, fun b hb => hleast b (hsub b hb)⟩).symm
      exact mem_expiries.mpr ⟨y, mem_set_of_ne hget hy hyx, hex⟩

theorem Sound.vacate (hw : w.Sound) (hget : w.slots[x.seqNum % w.slots.length]? = some (some x)) :
    w.Taken x.seqNum x.msg (w.vacate x) := by
  have hlt := lt_of_getElem? hget
  have hcount : (w.slots.set (x.seqNum % w.slots.length) none).countP Option.isSome + 1 =
      w.slots.countP Option.isSome := by
    have hpos : 0 < w.slots.countP Option.isSome :=
      List.countP_pos_iff.mpr ⟨_, List.mem_of_getElem? hget, rfl⟩
    rw [List.countP_set hlt, (List.getElem?_eq_some_iff.mp hget).2]
    simp
    omega
  have hcounted : w.held = w.slots.countP Option.isSome := hw.wellFormed.counted
  have hw' : (w.vacate x).WellFormed := by
    refine ⟨fun i h hi => ?_, ?_⟩
    · simp only [ReorderWindow.vacate, List.length_set] at hi ⊢
      refine hw.wellFormed.placed i h ?_
      by_cases hne : x.seqNum % w.slots.length = i
      · rw [← hne, List.getElem?_set_self hlt] at hi
        cases hi
      · rwa [List.getElem?_set_ne hne] at hi
    · show w.held - 1 = (w.slots.set _ none).countP Option.isSome
      omega
  refine ⟨⟨⟨⟨hw', hw.vacate_earliest hget hw'⟩, by simp [ReorderWindow.vacate], fun y hy => ?_⟩, rfl⟩,
    fun m => ?_, ?_, (hw.wellFormed.placed _ _ hget).2, ?_⟩
  · obtain hy | hy := List.mem_or_eq_of_mem_set hy
    · exact hy
    · cases hy
  · unfold Holds slot ReorderWindow.vacate
    simp only [List.length_set]
    by_cases hm : m % w.slots.length = x.seqNum % w.slots.length
    · -- the emptied slot: only the message that was taken could have been there
      rw [hm, hget, List.getElem?_set_self hlt]
      simp only [Option.join_some, reduceCtorEq, false_and, exists_false, Option.some.injEq,
        exists_eq_left', ne_eq, false_iff, not_and, not_not]
      exact fun h => h.symm
    · rw [List.getElem?_set_ne (Ne.symm hm)]
      refine ⟨fun hh => ⟨hh, ?_⟩, And.left⟩
      rintro rfl
      exact hm rfl
  · show w.held - 1 + 1 = w.held
    omega
  · simp [ReorderWindow.msgAt, slot_eq_some.mpr hget]

theorem Sound.take (hw : w.Sound) (n : Nat) : w.take n = none ∧ ¬ w.Holds n ∨
    ∃ msg w', w.take n = some (msg, w') ∧ w.Holds n ∧ w.Taken n msg w' := by
  unfold ReorderWindow.take Holds
  cases hslot : w.slot n with
  | none => exact .inl ⟨rfl, by simp⟩
  | some h =>
    by_cases hn : h.seqNum = n
    · subst hn
      exact .inr ⟨_, _, if_pos rfl, ⟨h, rfl, rfl⟩, hw.vacate (slot_eq_some.mp hslot)⟩
    · exact .inl ⟨if_neg hn, by simpa using hn⟩

theorem mem_hold (hpos : 0 < w.slots.length) (hfree : w.slot n = none) {now} :
    some x ∈ (w.hold n msg now).slots ↔ some x ∈ w.slots ∨ x = ⟨n, now + w.maxWait, msg⟩ := by
  have hget := (slot_eq_none_iff hpos).mp hfree
  constructor
  · intro hx
    obtain hx | hx := List.mem_or_eq_of_mem_set hx
    · exact .inl hx
    · exact .inr (Option.some.inj hx)
  · intro hx
    obtain hx | rfl := hx
    · exact mem_set_of_ne hget hx (by simp)
    · exact List.mem_set (lt_of_getElem? hget) _

theorem Sound.hold (hw : w.Sound) (hpos : 0 < w.slots.length) (hn : number msg = some n)
    (hfree : w.slot n = none) (now : Instant) : (w.hold n msg now).Sound := by
  have hget := (slot_eq_none_iff hpos).mp hfree
  have hlt := lt_of_getElem? hget
  have hmem {e : Instant} : e ∈ (w.hold n msg now).expiries ↔ e ∈ w.expiries ∨ e = now + w.maxWait := by
    simp only [mem_expiries, mem_hold hpos hfree, or_and_right, exists_or, exists_eq_left]
    rw [eq_comm]
  refine ⟨⟨fun i h hi => ?_, ?_⟩, (List.min?_eq_some_iff.mpr ?_).symm⟩
  · simp only [ReorderWindow.hold, List.length_set] at hi ⊢
    by_cases hne : n % w.slots.length = i
    · rw [← hne, List.getElem?_set_self hlt] at hi
      cases hi
      exact ⟨hne, hn⟩
    · rw [List.getElem?_set_ne hne] at hi
      exact hw.wellFormed.placed i h hi
  · show w.held + 1 = (w.slots.set _ _).countP Option.isSome
    rw [List.countP_set hlt, (List.getElem?_eq_some_iff.mp hget).2, hw.wellFormed.counted]
    rfl
  cases he : w.expiries.min? with
  | none =>
    rw [hw.earliest, he]
    refine ⟨hmem.mpr (.inr rfl), fun b hb => ?_⟩
    rw [hmem, List.min?_eq_none_iff.mp he] at hb
    obtain hb | hb := hb
    · cases hb
    · exact hb.ge
  | some e =>
    obtain ⟨hin, hleast⟩ := List.min?_eq_some_iff.mp he
    rw [hw.earliest, he]
    dsimp only
    refine ⟨hmem.mpr ?_, fun b hb => ?_⟩
    · obtain h | h := min_choice e (now + w.maxWait)
      · exact .inl (by rw [h]; exact hin)
      · exact .inr h
    · obtain hb | hb := hmem.mp hb
      · exact (min_le_left _ _).trans (hleast b hb)
      · exact hb ▸ min_le_right _ _

theorem Sound.holds_hold (hw : w.Sound) (hpos : 0 < w.slots.length) (hn : number msg = some n)
    (hfree : w.slot n = none) (now : Instant) (m : Nat) :
    (w.hold n msg now).Holds m ↔ w.Holds m ∨ m = n := by
  rw [(hw.hold hpos hn hfree now).wellFormed.holds_iff, hw.wellFormed.holds_iff]
  simp only [mem_hold hpos hfree, or_and_right, exists_or, exists_eq_left]
  rw [eq_comm (a := n)]

/-! ## Where the window is -/

/-- What is held is from the number expected next to the window's length beyond it. -/
structure Bounded (w : ReorderWindow) : Prop where
  sound : w.Sound
  unused : w.next = none → ∀ h, some h ∉ w.slots
  within : ∀ a, w.next = some a → ∀ h, some h ∈ w.slots →
    a ≤ h.seqNum ∧ h.seqNum ≤ a + w.slots.length

theorem Bounded.new (config : ReorderConfig) : (ReorderWindow.new config).Bounded := by
  refine ⟨.new config, ?_, ?_⟩
  · intro _ h hmem
    simp [ReorderWindow.new] at hmem
  · intro a ha
    cases ha

theorem Bounded.range (h : w.Bounded) (hnext : w.next = some a) (hheld : w.Holds n) :
    a ≤ n ∧ n ≤ a + w.slots.length := by
  obtain ⟨x, hx, rfl⟩ := h.sound.wellFormed.holds_iff.mp hheld
  exact h.within a hnext x hx

theorem Bounded.not_holds (h : w.Bounded) (hnext : w.next = none) (n : Nat) : ¬ w.Holds n := by
  rw [h.sound.wellFormed.holds_iff]
  exact fun ⟨x, hx, _⟩ => h.unused hnext x hx

/-- What is left of a window that has moved on from `a` to `b`. -/
structure Moved (w : ReorderWindow) (a : Nat) (w' : ReorderWindow) (b : Nat) : Prop
    extends w.Shrunk w' where
  bounded : w'.Bounded
  next : w'.next = some b
  le : a ≤ b

theorem Moved.trans {w'' c} (h : Moved w a w' b) (h' : Moved w' b w'' c) : Moved w a w'' c :=
  ⟨h.toShrunk.trans h'.toShrunk, h'.bounded, h'.next, h.le.trans h'.le⟩

/-- What is left of a window, with the same number expected next. -/
theorem Bounded.moved (hw : w.Bounded) (hnext : w.next = some a) (h : w.Emptied w') :
    Moved w a w' a := by
  refine ⟨h.toShrunk, ⟨h.sound, ?_, ?_⟩, h.next.trans hnext, le_rfl⟩
  · intro hnone x hx
    exact hw.unused (h.next.symm.trans hnone) x (h.kept x hx)
  · intro a ha x hx
    rw [h.length]
    exact hw.within a (h.next.symm.trans ha) x (h.kept x hx)

/-- The window moves on, past nothing that is held. -/
theorem Bounded.movedTo (hw : w.Bounded) (hnext : w.next = some a) (hle : a ≤ b) (h : w.Emptied w')
    (hpast : ∀ m, w'.Holds m → b ≤ m) : Moved w a { w' with next := some b } b := by
  refine ⟨h.toShrunk.setNext b, ⟨h.sound.setNext b, fun hnone => (by cases hnone), ?_⟩, rfl, hle⟩
  intro c hc x hx
  cases hc
  have hin := hw.within a hnext x (h.kept x hx)
  have hlen := h.length
  refine ⟨hpast _ (h.sound.wellFormed.holds_of_mem hx), ?_⟩
  show x.seqNum ≤ b + w'.slots.length
  omega

end ReorderWindow

/-! ## What is released -/

def Shown.number {ω : Type} : Shown ω → Option Nat
  | .released msg => Reorder.number msg
  | .wrote _ => none

/-- The numbers of the messages released. -/
def released {ω : Type} (o : List (Shown ω)) : List Nat := o.filterMap Shown.number

@[simp] theorem released_append {ω : Type} (o o' : List (Shown ω)) :
    released (o ++ o') = released o ++ released o' := List.filterMap_append

@[simp] theorem released_nil {ω : Type} : released (ω := ω) [] = [] := rfl

/-- Numbers in rising order, from `a` on and below `b`. -/
structure Rises (a b : Nat) (rs : List Nat) : Prop where
  rising : rs.Pairwise (· < ·)
  range : ∀ m ∈ rs, a ≤ m ∧ m < b

theorem Rises.nil (a b : Nat) : Rises a b [] := ⟨.nil, by simp⟩

theorem Rises.singleton (hlo : a ≤ n) (hhi : n < b) : Rises a b [n] :=
  ⟨List.pairwise_singleton _ _, by simp [hlo, hhi]⟩

variable {c : Nat} {rs rs' : List Nat}

theorem Rises.append (h : Rises a b rs) (h' : Rises b c rs') (hab : a ≤ b) (hbc : b ≤ c) :
    Rises a c (rs ++ rs') := by
  refine ⟨List.pairwise_append.mpr ⟨h.rising, h'.rising, ?_⟩, ?_⟩
  · intro x hx y hy
    exact (h.range x hx).2.trans_le (h'.range y hy).1
  · intro m hm
    obtain hm | hm := List.mem_append.mp hm
    · have := h.range m hm
      omega
    · have := h'.range m hm
      omega

/-- With no number left out they follow one another. -/
theorem Rises.eq_range' (h : Rises a b rs) (hall : ∀ m, a ≤ m → m < b → m ∈ rs) :
    rs = List.range' a (b - a) := by
  have hperm : rs.Perm (List.range' a (b - a)) := by
    refine (List.perm_ext_iff_of_nodup (h.rising.imp Nat.ne_of_lt) List.nodup_range').mpr fun m => ?_
    rw [List.mem_range'_1]
    constructor
    · intro hm
      have := h.range m hm
      omega
    · intro hm
      exact hall m hm.1 (by omega)
  exact hperm.eq_of_pairwise (fun x y _ _ hxy hyx => absurd hxy (Nat.lt_asymm hyx)) h.rising
    List.pairwise_lt_range'

/-- `w'` is `w` without what was held from `lo` up to, not including, `hi`; `rs` is
what was held there, in order. -/
structure Drained (w : ReorderWindow) (lo hi : Nat) (rs : List Nat) (w' : ReorderWindow) : Prop where
  rising : rs.Pairwise (· < ·)
  taken : ∀ m, m ∈ rs ↔ w.Holds m ∧ lo ≤ m ∧ m < hi
  left : ∀ m, w'.Holds m ↔ w.Holds m ∧ ¬ (lo ≤ m ∧ m < hi)

variable {w w₁ w' : ReorderWindow} {lo mid hi : Nat}

theorem Drained.rises (h : Drained w lo hi rs w') : Rises lo hi rs :=
  ⟨h.rising, fun m hm => ((h.taken m).mp hm).2⟩

theorem Drained.of_next {next} (h : Drained { w with next } lo hi rs w') :
    Drained w lo hi rs w' := ⟨h.rising, h.taken, h.left⟩

theorem Drained.holds_iff (h : Drained w lo hi rs w') (m : Nat) :
    m ∈ rs ∨ w'.Holds m ↔ w.Holds m := by
  rw [h.taken, h.left]
  tauto

theorem Drained.nothing (h : ∀ m, lo ≤ m → m < hi → ¬ w.Holds m) : Drained w lo hi [] w := by
  refine ⟨.nil, fun m => ?_, fun m => ?_⟩
  · simp only [List.not_mem_nil, false_iff, not_and]
    exact fun hm hlo hhi => h m hlo hhi hm
  · exact ⟨fun hm => ⟨hm, fun hrange => h m hrange.1 hrange.2 hm⟩, And.left⟩

theorem Drained.append (h : Drained w lo mid rs w₁) (h' : Drained w₁ mid hi rs' w') (hlo : lo ≤ mid)
    (hhi : mid ≤ hi) : Drained w lo hi (rs ++ rs') w' := by
  refine ⟨(h.rises.append h'.rises hlo hhi).rising, fun m => ?_, fun m => ?_⟩
  · rw [List.mem_append, h.taken, h'.taken, h.left]
    by_cases hmid : m < mid
    · simp only [hmid, and_true, Nat.lt_of_lt_of_le hmid hhi, Nat.not_le.mpr hmid, and_false,
        or_false]
    · have : lo ≤ m := by omega
      simp only [hmid, and_false, this, true_and, not_false_eq_true, and_true, false_or,
        Nat.le_of_not_lt hmid]
  · rw [h'.left, h.left, and_assoc]
    refine and_congr_right fun _ => ?_
    omega

theorem Drained.msgAt (h : Drained w lo hi rs w') (hs : w.Shrunk w') (hw : w.Sound) (hn : hi ≤ n) :
    w'.msgAt n = w.msgAt n := by
  by_cases hheld : w'.Holds n
  · exact hs.msgAt hw hheld
  · rw [ReorderWindow.msgAt_eq_none.mpr hheld, ReorderWindow.msgAt_eq_none.mpr]
    exact fun hin => hheld ((h.left n).mpr ⟨hin, fun hrange => absurd hrange.2 (Nat.not_lt.mpr hn)⟩)

theorem ReorderWindow.Taken.drained (h : w.Taken n msg w') (hheld : w.Holds n) :
    Drained w n (n + 1) [n] w' := by
  have hone {m : Nat} : n ≤ m ∧ m < n + 1 ↔ m = n := by omega
  refine ⟨List.pairwise_singleton _ _, fun m => ?_, fun m => ?_⟩
  · rw [List.mem_singleton, hone]
    exact ⟨fun hm => ⟨hm ▸ hheld, hm⟩, And.right⟩
  · rw [h.holds, hone]

theorem Drained.skip (h : Drained w (n + 1) hi rs w') (hfree : ¬ w.Holds n) (hle : n + 1 ≤ hi) :
    Drained w n hi rs w' := by
  have hnone : Drained w n (n + 1) [] w := .nothing fun m hlo hhi hm => hfree (by
    rwa [show n = m by omega])
  exact hnone.append h (Nat.le_succ n) hle

end Babelfix.Reorder
