import Babelfix.Tape.Groups

/-! # Cursors

Blocks and positions as `message/view.rs` reads them off the tape. A tape has no links
from an entry to what is around it, so every move starts again from spans. A level is
what is directly inside a section, a group or an instance of a well-formed tape; each
move is a move among the roots of a level. -/
namespace Babelfix.Tape

open Lib

/-- A region of the message or one instance: its entries, and the depth of its fields. -/
structure BlockView where
  start : Nat
  stop : Nat
  depth : Nat
  deriving DecidableEq, Repr

namespace Message

def regionBlock (m : Message) (region : Region) : BlockView :=
  ⟨(m.regionRange region).1, (m.regionRange region).2, 0⟩

/-- The contents of the entry at `i`. -/
def instanceBlock (m : Message) (i : Nat) : BlockView :=
  ⟨i + 1, nextSibling m.tape i, (entryAt m.tape i).depth⟩

def headerAndBody (m : Message) : BlockView := ⟨0, m.trailerStart, 0⟩

def findBlock (m : Message) (b : BlockView) (tag : Nat) (hint : Option Nat) : Option Nat :=
  m.findIn b.start b.stop b.depth tag hint

def fieldsUpTo (m : Message) : Nat → Nat → Nat → List Nat
  | 0, _, _ => []
  | fuel + 1, i, stop =>
    if i < stop then
      let rest := m.fieldsUpTo fuel (nextSibling m.tape i) stop
      if (entryAt m.tape i).kind = .gap then rest else i :: rest
    else []

/-- The block's own fields and groups, in order. -/
def fields (m : Message) (b : BlockView) : List Nat :=
  m.fieldsUpTo (b.stop - b.start) b.start b.stop

def first (m : Message) (b : BlockView) : Option Nat := (m.fields b).head?

/-- How many siblings stand before `target`, from `i` on. -/
def siblingsBefore (tape : List Entry) (target : Nat) : Nat → Nat → Nat
  | 0, _ => 0
  | fuel + 1, i =>
    if i < target then siblingsBefore tape target fuel (nextSibling tape i) + 1 else 0

/-- Which instance of its group the one at `i` is. -/
def instanceIndex (m : Message) (i : Nat) : Nat :=
  match m.enclosing i with
  | some g => siblingsBefore m.tape i (i - g) (g + 1)
  | none => 0

/-! ## Moving -/

/-- The contents of what was found around an entry of a region. -/
def inside (m : Message) (region : Region) : Option Nat → BlockView
  | some i => m.instanceBlock i
  | none => m.regionBlock region

/-- The block a position is in. -/
def blockAt (m : Message) (i : Nat) : BlockView := m.inside (m.regionOf i) (m.enclosing i)

def up (m : Message) (i : Nat) : Option Nat := m.enclosing i

def nextUpTo (m : Message) : Nat → Nat → Nat → Option Nat
  | 0, _, _ => none
  | fuel + 1, i, stop =>
    if i < stop then
      if (entryAt m.tape i).kind = .gap then m.nextUpTo fuel (nextSibling m.tape i) stop else some i
    else none

/-- The next entry in the same block, over groups. -/
def next (m : Message) (i : Nat) : Option Nat :=
  m.nextUpTo m.tape.length (nextSibling m.tape i) (m.blockAt i).stop

/-- The previous entry in the same block. -/
def prev (m : Message) (i : Nat) : Option Nat :=
  ((m.fields (m.blockAt i)).takeWhile fun j => j < i).getLast?

/-- Into a group or an instance. -/
def down (m : Message) (i : Nat) : Option Nat :=
  let e := entryAt m.tape i
  match e.kind with
  | .group | .inst => if 1 < e.span then some (i + 1) else none
  | _ => none

end Message

/-! ## Places in a forest -/

theorem root_at {α : Type} {f : Forest α} {k} (h : k < f.size) :
    ∃ a e c b, f = a ++ .node e c b ∧ a.size ≤ k ∧ k < a.size + 1 + c.size := by
  induction f generalizing k with
  | nil => simp at h
  | node e c r _ ih =>
    simp only [Forest.size_node] at h
    by_cases hk : k < c.size + 1
    · exact ⟨.nil, e, c, r, rfl, by simp, by simp; omega⟩
    · obtain ⟨a, e', c', b, rfl, hle, hlt⟩ := ih (k := k - (c.size + 1)) (by omega)
      refine ⟨.node e c a, e', c', b, rfl, ?_, ?_⟩
      · simp only [Forest.size_node]
        omega
      · simp only [Forest.size_node]
        omega

/-- The places of the roots of a forest at `i`, without those of gaps. -/
def childrenAt (i : Nat) : Forest Entry → List Nat
  | .nil => []
  | .node e c r =>
    if e.kind = .gap then childrenAt (i + c.size + 1) r else i :: childrenAt (i + c.size + 1) r

theorem childrenAt_append (i : Nat) (f g : Forest Entry) :
    childrenAt i (f ++ g) = childrenAt i f ++ childrenAt (i + f.size) g := by
  induction f generalizing i with
  | nil => simp [childrenAt]
  | node e c r _ ih =>
    have hnext : i + c.size + 1 + r.size = i + (Forest.node e c r).size := by
      simp
      omega
    simp only [Forest.node_append, childrenAt, ih, hnext]
    split <;> rfl

theorem childrenAt_gapOf (i n : Nat) : childrenAt i (gapOf n) = [] := by
  cases n with
  | zero => rfl
  | succ n => simp [gapOf, childrenAt, Entry.gap]

theorem le_of_mem_childrenAt {i j f} (h : j ∈ childrenAt i f) : i ≤ j ∧ j < i + f.size := by
  induction f generalizing i with
  | nil => simp [childrenAt] at h
  | node e c r _ ih =>
    have hrest : j ∈ childrenAt (i + c.size + 1) r → i ≤ j ∧ j < i + (Forest.node e c r).size := by
      intro hmem
      have := ih hmem
      simp only [Forest.size_node]
      omega
    rw [childrenAt] at h
    split at h
    · exact hrest h
    · rcases List.mem_cons.mp h with rfl | h
      · simp only [Forest.size_node]
        omega
      · exact hrest h

theorem pairwise_childrenAt (i : Nat) (f : Forest Entry) : (childrenAt i f).Pairwise (· < ·) := by
  induction f generalizing i with
  | nil => exact .nil
  | node e c r _ ih =>
    rw [childrenAt]
    split
    · exact ih _
    · refine List.pairwise_cons.mpr ⟨fun j hj => ?_, ih _⟩
      have := le_of_mem_childrenAt hj
      omega

section

variable {m : Message} {pre post : List Entry} {f : Forest Entry}

/-- Stepping from sibling to sibling meets the roots of a forest. -/
theorem fieldsUpTo_eq {fuel} (hfits : f.Fits Entry.span) (hfuel : f.size ≤ fuel)
    (htape : m.tape = pre ++ (f.preorder ++ post)) :
    m.fieldsUpTo fuel pre.length (pre.length + f.size) = childrenAt pre.length f := by
  induction fuel generalizing f pre with
  | zero =>
    cases f with
    | nil => rfl
    | node e c r => simp at hfuel
  | succ fuel ih =>
    cases f with
    | nil =>
      rw [Message.fieldsUpTo, if_neg (by simp)]
      rfl
    | node e c r =>
      have hs := stands htape hfits
      simp only [Forest.size_node] at hfuel
      have hrest := ih hfits.2.2 (by omega) hs.after
      rw [Message.fieldsUpTo, if_pos (by simp)]
      rw [hs.next, hs.stop, hrest, hs.entry, ← (length_below pre e c).2, childrenAt]

theorem nextUpTo_eq (m : Message) (fuel i stop : Nat) :
    m.nextUpTo fuel i stop = (m.fieldsUpTo fuel i stop).head? := by
  induction fuel generalizing i with
  | zero => rfl
  | succ fuel ih =>
    rw [Message.nextUpTo, Message.fieldsUpTo]
    split
    · dsimp only
      split
      · exact ih _
      · rfl
    · rfl

theorem nextSibling_le (hfits : f.Fits Entry.span) (htape : m.tape = pre ++ (f.preorder ++ post))
    {k} (hle : pre.length ≤ k) (hlt : k < pre.length + f.size) :
    nextSibling m.tape k ≤ pre.length + f.size := by
  induction f generalizing pre post k with
  | nil =>
    rw [Forest.size_nil] at hlt
    omega
  | node e c r ihc ihr =>
    have hs := stands htape hfits
    have hstart := hs.start
    have hmid := hs.mid
    have hstop := hs.stop
    rcases Nat.lt_trichotomy k (pre ++ e :: c.preorder).length with hk | rfl | hk
    · by_cases hroot : k = pre.length
      · subst hroot
        rw [hs.next]
        omega
      · have := ihc hfits.2.1 hs.below (k := k) (by omega) (by omega)
        omega
    · have := ihr hfits.2.2 hs.after (Nat.le_refl _) (by omega)
      omega
    · have := ihr hfits.2.2 hs.after (k := k) (by omega) (by omega)
      omega

/-- The search for what is around an entry steps over trees. -/
theorem Reaches.skip {found} {a g : Forest Entry} (hfits : (a ++ g).Fits Entry.span)
    (htape : m.tape = pre ++ ((a ++ g).preorder ++ post))
    (h : Reaches m found pre.length (a ++ g).size) :
    Reaches m found (pre ++ a.preorder).length g.size := by
  induction a generalizing pre with
  | nil => simpa using h
  | node e c r _ ih =>
    have hs := stands (r := r ++ g) htape hfits
    have hrest := ih hfits.2.2 hs.after (h.after (r := r ++ g) hfits htape)
    simpa using hrest

end

end Babelfix.Tape
