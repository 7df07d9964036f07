import Babelfix.Tape.Dictionary

/-! # The tape

A message as a flat list of entries over two byte segments (`message/tape.rs`): the
bytes received, and an arena to which building and editing append. A field's entry says
where its `tag=value` bytes are; a repeating group is an entry followed by its
instances, each followed by its fields. Groups, instances and gaps carry a span: how
many entries they cover, themselves included. Offsets, lengths and spans are kept in
32 bits. -/
namespace Babelfix.Tape

def u32Max : Nat := 2 ^ 32 - 1

/-- `as u32`. -/
def asU32 (n : Nat) : Nat := n % 2 ^ 32

def slice (bytes : Bytes) (start len : Nat) : Bytes := (bytes.drop start).take len

inductive Kind where
  | gap
  | field
  /-- The Length of the data field that follows. -/
  | dataLen
  | data
  /-- A NumInGroup field; `off` is the number of instances. -/
  | group
  | inst
  deriving DecidableEq, Repr

inductive Seg where
  | wire
  | arena
  deriving DecidableEq, Repr

/-- One entry. An entry that is not given anything is an unused slot. -/
structure Entry where
  tag : Nat := 0
  kind : Kind := .gap
  depth : Nat := 0
  seg : Seg := .wire
  /-- Where the value starts, counted from `off`. -/
  valOff : Nat := 0
  /-- Where a field starts, or how many instances a group has. -/
  off : Nat := 0
  /-- How long a field's value is, or the span. -/
  len : Nat := 0
  deriving DecidableEq, Repr

namespace Entry

def gap (span : Nat) : Entry := { len := span }

def isField (e : Entry) : Bool :=
  match e.kind with
  | .field | .dataLen | .data => true
  | _ => false

/-- Whether the entry names a tag at its level: a field or a group. -/
def isTagged (e : Entry) : Bool :=
  match e.kind with
  | .gap | .inst => false
  | _ => true

/-- How many entries this one covers. -/
def span (e : Entry) : Nat :=
  match e.kind with
  | .gap | .group | .inst => max e.len 1
  | _ => 1

end Entry

inductive Region where
  | header
  | body
  | trailer
  deriving DecidableEq, Repr

structure Message where
  dict : Dictionary
  msgDef : Option MsgIdx
  wire : Bytes
  arena : Bytes
  tape : List Entry
  bodyStart : Nat
  trailerStart : Nat
  /-- `wire` is this message's encoding. -/
  clean : Bool
  deriving DecidableEq, Repr

/-- The slots reserved at the end of the header. -/
def headerGap : Nat := 20

/-- The entry at `i`. -/
def entryAt (tape : List Entry) (i : Nat) : Entry := tape[i]?.getD {}

theorem entryAt_length (xs ys : List Entry) (e : Entry) :
    entryAt (xs ++ e :: ys) xs.length = e := by
  simp [entryAt]

def nextSibling (tape : List Entry) (i : Nat) : Nat := i + (entryAt tape i).span

/-- The first entry for `tag` from `i` on, going from sibling to sibling. -/
def scanUpTo (tape : List Entry) (tag : Nat) : Nat → Nat → Nat → Option Nat
  | 0, _, _ => none
  | fuel + 1, i, stop =>
    if i < stop then
      let e := entryAt tape i
      if e.tag = tag ∧ e.isTagged then some i else scanUpTo tape tag fuel (i + e.span) stop
    else none

namespace Message

def seg (m : Message) : Seg → Bytes
  | .wire => m.wire
  | .arena => m.arena

/-- A field's value. -/
def value (m : Message) (e : Entry) : Bytes := slice (m.seg e.seg) (e.off + e.valOff) e.len

/-- A field's `tag=value` and its delimiter. -/
def spanBytes (m : Message) (e : Entry) : Bytes :=
  slice (m.seg e.seg) e.off (e.valOff + e.len + 1)

def pushGap (m : Message) : Message :=
  { m with tape := m.tape ++ Entry.gap headerGap :: List.replicate (headerGap - 1) {} }

def scan (m : Message) (i stop tag : Nat) : Option Nat := scanUpTo m.tape tag (stop - i) i stop

/-- Whether the entry is a direct child of a block at `depth`. -/
def isBoundary (m : Message) (i depth : Nat) : Bool :=
  let e := entryAt m.tape i
  e.depth = depth ∧ e.kind ≠ .inst

/-- The entry for `tag` among the children of a block, starting at `hint` if that is one. -/
def findIn (m : Message) (start stop depth tag : Nat) (hint : Option Nat) : Option Nat :=
  let first := (hint.filter fun f => start < f ∧ f < stop ∧ m.isBoundary f depth).getD start
  match m.scan first stop tag with
  | some i => some i
  | none => if start < first then m.scan start first tag else none

def headerGapUpTo (m : Message) : Nat → Nat → Option Nat
  | 0, _ => none
  | fuel + 1, i =>
    if i < m.bodyStart then
      let e := entryAt m.tape i
      if e.kind = .gap ∧ i + e.span = m.bodyStart then some i
      else m.headerGapUpTo fuel (i + e.span)
    else none

def headerGap (m : Message) : Option Nat := m.headerGapUpTo m.bodyStart 0

/-- Write a field to the arena. -/
def appendField (m : Message) (tag : Nat) (value : Bytes) : Message × Entry :=
  ({ m with arena := m.arena ++ (writeUint tag ++ 61 :: (value ++ [soh])) },
    { tag, kind := .field, seg := .arena, valOff := digits tag + 1, off := asU32 m.arena.length,
      len := asU32 value.length })

def regionRange (m : Message) : Region → Nat × Nat
  | .header => (0, m.bodyStart)
  | .body => (m.bodyStart, m.trailerStart)
  | .trailer => (m.trailerStart, m.tape.length)

def regionOf (m : Message) (i : Nat) : Region :=
  if i < m.bodyStart then .header else if i < m.trailerStart then .body else .trailer

end Message

end Babelfix.Tape
