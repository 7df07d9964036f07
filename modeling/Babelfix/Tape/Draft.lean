import Babelfix.Tape.Shape
import Babelfix.Tape.Simulation

/-! # The tape while a message is read

A message that is being read, complete or a fragment, as forests of entries: what is
finished of its header, body and trailer, and a path of open groups. Their spans and
counts are not right yet; finishing a group makes them so. -/
namespace Babelfix.Tape

open Lib

/-! ## Drafts -/

/-- A group that is being read: its entry, its finished instances, and the one that is
not finished. -/
structure Opened where
  entry : Entry
  done : Forest Entry
  inst : Option (Entry × Forest Entry)
  deriving DecidableEq, Repr

namespace Opened

/-- The open instance's part of the tape. -/
def current (o : Opened) : List Entry := (o.inst.map fun i => i.1 :: i.2.preorder).getD []

def tape (o : Opened) : List Entry := o.entry :: (o.done.preorder ++ o.current)

/-- The instances, the open one finished. -/
def closed (o : Opened) : Forest Entry :=
  match o.inst with
  | none => o.done
  | some (e, c) => o.done ++ .node { e with len := c.size + 1 } c .nil

/-- The group, finished. -/
def tree (o : Opened) : Forest Entry :=
  .node { o.entry with len := o.closed.size + 1, off := o.closed.roots.length } o.closed .nil

def add (f : Forest Entry) (o : Opened) : Opened :=
  { o with inst := o.inst.map fun i => (i.1, i.2 ++ f) }

/-- Finish the open instance and start another. -/
def next (e : Entry) (o : Opened) : Opened := { o with done := o.closed, inst := some (e, .nil) }

/-- What is finished is shaped, and there is an open instance once there is any. -/
structure Tidy (P : Entry → Prop) (depth : Nat) (o : Opened) : Prop where
  entry_kind : o.entry.kind = .group
  entry_depth : o.entry.depth = depth
  done : Shaped P true (depth + 1) o.done
  inst : ∀ e c, o.inst = some (e, c) →
    e.kind = .inst ∧ e.depth = depth + 1 ∧ Shaped P false (depth + 1) c
  fresh : o.inst = none → o.done = .nil

/-- The frame that the parser keeps for a group at `place`. -/
structure Frames (place depth : Nat) (o : Opened) (frame : Frame) : Prop where
  entry : frame.entry = place
  inst : frame.inst = o.inst.map fun _ => place + 1 + o.done.size
  count : frame.count = o.closed.roots.length
  depth : frame.depth = depth
  declared : 0 < frame.declared

end Opened

/-- A message that is being read. -/
structure Draft where
  region : Region
  header : Forest Entry
  /-- The slots left after the header. -/
  gap : Nat
  body : Forest Entry
  trailer : Forest Entry
  /-- The open groups, innermost first. -/
  opened : List Opened
  deriving DecidableEq, Repr

/-- The open groups after what is finished. -/
def openTape (top : List Entry) : List Opened → List Entry
  | [] => top
  | o :: outer => openTape top outer ++ o.tape

namespace Draft

/-- What is finished. -/
def top (z : Draft) : Forest Entry := z.header ++ (gapOf z.gap ++ (z.body ++ z.trailer))

def tape (z : Draft) : List Entry := openTape z.top.preorder z.opened

/-- A section that has not begun is empty. -/
def Begun (z : Draft) : Prop :=
  (z.region = .header → z.gap = 0 ∧ z.body = .nil) ∧ (z.region ≠ .trailer → z.trailer = .nil)

def bodyStart (z : Draft) : Nat := if z.region = .header then 0 else z.header.size + z.gap

def trailerStart (z : Draft) : Nat :=
  if z.region = .trailer then z.header.size + z.gap + z.body.size else 0

/-- Add to the open instance, or to the section that has begun last. -/
def add (f : Forest Entry) (z : Draft) : Draft :=
  match z.opened with
  | o :: outer => { z with opened := o.add f :: outer }
  | [] =>
    match z.region with
    | .header => { z with header := z.header ++ f }
    | .body => { z with body := z.body ++ f }
    | .trailer => { z with trailer := z.trailer ++ f }

/-- Finish the innermost group. -/
def close (z : Draft) : Draft :=
  match z.opened with
  | o :: outer => { z with opened := outer }.add o.tree
  | [] => z

/-- Start another instance of the innermost group. -/
def start (z : Draft) : Draft :=
  match z.opened with
  | o :: outer => { z with opened := o.next (openInst (outer.length + 1)) :: outer }
  | [] => z

/-- Open a group. -/
def opens (e : Entry) (z : Draft) : Draft := { z with opened := ⟨e, .nil, none⟩ :: z.opened }

/-- Move on to a section. The header's slots come after it. -/
def enter (r : Region) (z : Draft) : Draft :=
  { z with region := r, gap := if z.region = .header ∧ r ≠ .header then headerGap else z.gap }

/-- A header field after the header: it takes a slot, if there is one. -/
def late (e : Entry) (z : Draft) : Draft :=
  { z with header := z.header ++ .leaf e, gap := z.gap - 1 }

/-- Finish groups, and perhaps start an instance. -/
inductive Joins : Draft → Draft → Prop
  | stay (z : Draft) : Joins z z
  | start (z : Draft) : Joins z z.start
  | close {z z' : Draft} (h : Joins z.close z') : Joins z z'

/-- The entry of a group without instances. -/
def groupEntry (tag depth : Nat) : Entry := { tag, kind := .group, depth, len := 1 }

/-- Put a field where it stands, or open the group it counts. -/
inductive Places (z : Draft) (entry : Entry) (depth : Nat) : Draft → Prop
  | field : Places z entry depth (z.add (.leaf { entry with depth }))
  | empty (hkind : entry.kind = .field) :
      Places z entry depth (z.add (.leaf (groupEntry entry.tag depth)))
  | opens (hkind : entry.kind = .field) :
      Places z entry depth (z.opens (groupEntry entry.tag depth))

/-- Put a field inside the open group or at the top level, as the parser `p` decides. -/
inductive Settles (p : Parser) (z : Draft) (entry : Entry) : Draft → Prop
  | inside {z' : Draft} (hne : z.opened ≠ []) (h : Places z entry z.opened.length z') :
      Settles p z entry z'
  | late (hnil : z.opened = []) (hlate : p.isLateHeader entry.tag) :
      Settles p z entry (z.late { entry with depth := 0 })
  | top {z' : Draft} {p' : Parser} (hnil : z.opened = []) (hlate : ¬ p.isLateHeader entry.tag)
      (henter : p.enterRegion entry.tag = .ok p') (h : Places (z.enter p'.region) entry 0 z') :
      Settles p z entry z'

end Draft

/-! ## The parser's state -/

/-- The open groups and the parser's frames for them. Only the innermost may wait for its
first instance. -/
inductive Stacks (P : Entry → Prop) (top : List Entry) : List Opened → List Frame → Prop
  | nil : Stacks P top [] []
  | cons {o : Opened} {outer : List Opened} {frame : Frame} {stack : List Frame}
      (htidy : o.Tidy P outer.length)
      (hframe : o.Frames (openTape top outer).length outer.length frame)
      (hinner : ∀ o' ∈ outer.head?, o'.inst ≠ none) (h : Stacks P top outer stack) :
      Stacks P top (o :: outer) (frame :: stack)

theorem Stacks.of_nil {P top top' stack} (h : Stacks P top [] stack) : Stacks P top' [] stack := by
  cases h
  exact .nil

/-- Groups that can be open inside one another, innermost first. -/
inductive Dictionary.Chain (d : Dictionary) : List GroupIdx → Prop
  | nil : Chain d []
  | top {g : GroupIdx} {msg : Option MsgIdx} {header : Bool} {tag : Nat}
      (h : d.topLevelGroup msg header tag = some g) : Chain d [g]
  | nested {g outer : GroupIdx} {gs : List GroupIdx} {tag : Nat}
      (h : d.nestedGroup outer tag = some g) (houter : Chain d (outer :: gs)) :
      Chain d (g :: outer :: gs)

/-- The parser stands where the draft does. -/
structure Drafted (d : Dictionary) (framing : Framing) (P : Entry → Prop) (z : Draft) (p : Parser) :
    Prop where
  dict : p.msg.dict = d
  framing : p.framing = framing
  arena : p.msg.arena = []
  tape : p.msg.tape = z.tape
  region : p.region = z.region
  begun : z.Begun
  bodyStart : p.msg.bodyStart = z.bodyStart
  trailerStart : p.msg.trailerStart = z.trailerStart
  header : Shaped P false 0 z.header
  body : Shaped P false 0 z.body
  trailer : Shaped P false 0 z.trailer
  frames : Stacks P z.top.preorder z.opened p.stack
  chain : d.Chain (p.stack.map Frame.group)
  msgDef : ∀ m ∈ p.msg.msgDef, ∃ msgType, d.message msgType = some m

namespace Opened

variable {P : Entry → Prop} {depth place : Nat} {o : Opened} {frame : Frame}

@[simp] theorem tape_add (f : Forest Entry) (h : o.inst ≠ none) :
    (o.add f).tape = o.tape ++ f.preorder := by
  obtain ⟨entry, done, inst⟩ := o
  cases inst with
  | none => exact absurd rfl h
  | some i => simp [add, tape, current]

theorem closed_add_roots (f : Forest Entry) :
    (o.add f).closed.roots.length = o.closed.roots.length := by
  obtain ⟨entry, done, inst⟩ := o
  cases inst with
  | none => rfl
  | some i => simp [add, closed]

theorem Frames.add (h : o.Frames place depth frame) (f : Forest Entry) :
    (o.add f).Frames place depth frame :=
  { h with
    inst := by
      rw [h.inst]
      cases hi : o.inst <;> simp [Opened.add, hi]
    count := by rw [h.count, closed_add_roots] }

theorem Tidy.add (h : o.Tidy P depth) {f} (hf : Shaped P false (depth + 1) f) :
    (o.add f).Tidy P depth where
  entry_kind := h.entry_kind
  entry_depth := h.entry_depth
  done := h.done
  inst := by
    intro e c hi
    obtain ⟨i, hsome, heq⟩ := Option.map_eq_some_iff.mp hi
    cases heq
    obtain ⟨hkind, hdepth, hshaped⟩ := h.inst i.1 i.2 hsome
    exact ⟨hkind, hdepth, hshaped.append hf⟩
  fresh := by
    intro hi
    exact h.fresh (Option.map_eq_none_iff.mp hi)

theorem Tidy.closed (h : o.Tidy P depth) : Shaped P true (depth + 1) o.closed := by
  unfold Opened.closed
  split
  · exact h.done
  · rename_i e c hi
    obtain ⟨hkind, hdepth, hshaped⟩ := h.inst e c hi
    exact h.done.append (.inst hkind hdepth rfl hshaped .nil)

theorem Tidy.tree (h : o.Tidy P depth) : Shaped P false depth o.tree :=
  .group h.entry_kind h.entry_depth rfl rfl h.closed .nil

theorem Tidy.next (h : o.Tidy P depth) : (o.next (openInst (depth + 1))).Tidy P depth where
  entry_kind := h.entry_kind
  entry_depth := h.entry_depth
  done := h.closed
  inst := by
    intro e c hi
    cases hi
    exact ⟨rfl, rfl, .nil⟩
  fresh := by
    intro hi
    cases hi

theorem Frames.next (h : o.Frames place depth frame) (e : Entry) :
    (o.next e).Frames place depth
      { frame with count := frame.count + 1, inst := some (place + 1 + o.closed.size) } :=
  { h with inst := rfl, count := by simp [Opened.next, Opened.closed, h.count] }

theorem size_closed (o : Opened) : o.closed.size = o.done.size + o.current.length := by
  obtain ⟨entry, done, inst⟩ := o
  cases inst with
  | none => simp [closed, current]
  | some i =>
    simp [closed, current]

theorem length_tape (o : Opened) : o.tape.length = o.closed.size + 1 := by
  simp [tape, size_closed]

end Opened

namespace Draft

variable {z : Draft}

theorem tape_add (hbegun : z.Begun) (hinst : ∀ o ∈ z.opened.head?, o.inst ≠ none)
    (f : Forest Entry) : (z.add f).tape = z.tape ++ f.preorder := by
  obtain ⟨region, header, gap, body, trailer, opened⟩ := z
  cases opened with
  | cons o outer =>
    have ho := hinst o rfl
    simp [add, tape, top, openTape, Opened.tape_add f ho]
  | nil =>
    cases region with
    | header =>
      obtain ⟨rfl, rfl⟩ := hbegun.1 rfl
      obtain rfl := hbegun.2 (by simp)
      simp [add, tape, top, openTape, gapOf]
    | body =>
      obtain rfl := hbegun.2 (by simp)
      simp [add, tape, top, openTape]
    | trailer => simp [add, tape, top, openTape]

theorem Begun.add (h : z.Begun) (f : Forest Entry) : (z.add f).Begun := by
  obtain ⟨region, header, gap, body, trailer, opened⟩ := z
  cases opened with
  | cons o outer => exact h
  | nil => cases region <;> simp_all [Begun, Draft.add]

theorem add_keeps (f : Forest Entry) :
    (z.add f).region = z.region ∧ (z.add f).bodyStart = z.bodyStart ∧
      (z.add f).trailerStart = z.trailerStart ∧ (z.add f).opened.length = z.opened.length := by
  obtain ⟨region, header, gap, body, trailer, opened⟩ := z
  cases opened with
  | cons o outer => exact ⟨rfl, rfl, rfl, rfl⟩
  | nil => cases region <;> simp [add, bodyStart, trailerStart]

end Draft

/-! ## What a field must satisfy -/

section

variable {P Q : Entry → Prop} (hPQ : ∀ e, P e → Q e)
include hPQ

theorem Opened.Tidy.mono {depth} {o : Opened} (h : o.Tidy P depth) : o.Tidy Q depth where
  entry_kind := h.entry_kind
  entry_depth := h.entry_depth
  done := h.done.mono fun e _ => hPQ e
  inst := by
    intro e c hi
    obtain ⟨hkind, hdepth, hshaped⟩ := h.inst e c hi
    exact ⟨hkind, hdepth, hshaped.mono fun e _ => hPQ e⟩
  fresh := h.fresh

theorem Stacks.mono {top opened stack} (h : Stacks P top opened stack) :
    Stacks Q top opened stack := by
  induction h with
  | nil => exact .nil
  | cons htidy hframe hinner _ ih => exact .cons (htidy.mono hPQ) hframe hinner ih

theorem Drafted.mono {d framing z p} (h : Drafted d framing P z p) : Drafted d framing Q z p :=
  { h with
    header := h.header.mono fun e _ => hPQ e
    body := h.body.mono fun e _ => hPQ e
    trailer := h.trailer.mono fun e _ => hPQ e
    frames := h.frames.mono hPQ }

end

end Babelfix.Tape
