import Babelfix.Tape.Parse

/-! # Serialising and comparing

Walking the tape to write a message out (`message/encode.rs`), and the walk over its
entries that comparing two messages uses (`message/view.rs`). The framing fields 8, 9
and 10 are written afresh, and a group's NumInGroup from the instances that are
written; a group without any is left out. -/
namespace Babelfix.Tape

/-! ## What is written -/

mutual

/-- The instances from `i` up to `stop` that write something. -/
def liveUpTo (tape : List Entry) : Nat → Nat → Nat → Nat
  | 0, _, _ => 0
  | fuel + 1, i, stop =>
    if i < stop then
      let next := nextSibling tape i
      (if writesUpTo tape fuel (i + 1) next then 1 else 0) + liveUpTo tape fuel next stop
    else 0

/-- Whether something from `i` up to `stop` is written: a field, or a group that has an
instance that is. -/
def writesUpTo (tape : List Entry) : Nat → Nat → Nat → Bool
  | 0, _, _ => false
  | fuel + 1, i, stop =>
    if i < stop then
      let next := nextSibling tape i
      match (entryAt tape i).kind with
      | .group => 0 < liveUpTo tape fuel (i + 1) next || writesUpTo tape fuel next stop
      | .gap | .inst => writesUpTo tape fuel next stop
      | _ => true
    else false

end

/-- The fields and groups written from `i` on, in order, with their places. -/
def visitUpTo (tape : List Entry) (live : Nat → Nat) : Nat → Nat → List (Nat × Entry)
  | 0, _ => []
  | fuel + 1, i =>
    if i < tape.length then
      let e := entryAt tape i
      match e.kind with
      | .gap => visitUpTo tape live fuel (i + e.span)
      | .inst => visitUpTo tape live fuel (i + 1)
      | .group =>
        if live i = 0 then visitUpTo tape live fuel (i + e.span)
        else (i, e) :: visitUpTo tape live fuel (i + 1)
      | _ =>
        if e.depth = 0 ∧ (e.tag = 8 ∨ e.tag = 9 ∨ e.tag = 10 ∨ e.tag = 35) then
          visitUpTo tape live fuel (i + 1)
        else (i, e) :: visitUpTo tape live fuel (i + 1)
    else []

/-- One piece of output: a run of bytes, or a NumInGroup written from its count. -/
inductive Piece where
  | bytes (b : Bytes)
  | group (tag count : Nat)
  deriving DecidableEq, Repr

namespace Piece

def len : Piece → Nat
  | .bytes b => b.length
  | .group tag count => digits tag + 1 + digits count + 1

/-- `put_group`. -/
def putGroup (tag count : Nat) (delimiter : UInt8) : Bytes :=
  writeUint tag ++ 61 :: (writeUint count ++ [delimiter])

def put : Piece → Bytes
  | .bytes b => b
  | .group tag count => putGroup tag count soh

end Piece

/-- A run of field bytes that are adjacent in one segment. -/
structure Run where
  seg : Seg
  start : Nat
  stop : Nat
  deriving DecidableEq, Repr

namespace Message

/-- The instances of a group that are written. -/
def liveInstances (m : Message) (i : Nat) : Nat :=
  liveUpTo m.tape m.tape.length (i + 1) (nextSibling m.tape i)

def instanceWrites (m : Message) (i : Nat) : Bool :=
  writesUpTo m.tape m.tape.length (i + 1) (nextSibling m.tape i)

/-- The fields and groups written between `9=` and `10=`, in order. MsgType is first. -/
def visit (m : Message) : List (Nat × Entry) :=
  let rest := visitUpTo m.tape m.liveInstances m.tape.length 0
  match m.findIn 0 m.bodyStart 0 35 none with
  | some i => (i, entryAt m.tape i) :: rest
  | none => rest

def flush (m : Message) : Option Run → List Piece
  | none => []
  | some r => [.bytes (slice (m.seg r.seg) r.start (r.stop - r.start))]

/-- The output pieces of what is visited, given the run of bytes they follow. -/
def piecesFrom (m : Message) : Option Run → List (Nat × Entry) → List Piece
  | run, [] => m.flush run
  | run, (i, e) :: rest =>
    match e.kind with
    | .group =>
      m.flush run ++ .group e.tag (m.liveInstances i) :: m.piecesFrom none rest
    | _ =>
      let stop := e.off + e.valOff + e.len + 1
      match run with
      | some r =>
        if r.seg = e.seg ∧ r.stop = e.off then m.piecesFrom (some { r with stop }) rest
        else m.flush run ++ m.piecesFrom (some ⟨e.seg, e.off, stop⟩) rest
      | none => m.piecesFrom (some ⟨e.seg, e.off, stop⟩) rest

/-- Everything between `9=...` and `10=...`. -/
def pieces (m : Message) : List Piece := m.piecesFrom none m.visit

/-- Append the message in its wire form, with `delimiter` in place of SOH. -/
def encodeDelimited (m : Message) (out : Bytes) (delimiter : UInt8) : Bytes :=
  let bodyLen := (m.pieces.map Piece.len).sum
  let head := ascii "8=" ++ m.dict.beginString ++ delimiter :: (ascii "9=" ++ writeUint bodyLen ++
    [delimiter])
  let body :=
    if delimiter = soh then m.pieces.flatMap Piece.put
    else m.visit.flatMap fun (i, e) =>
      match e.kind with
      | .group => Piece.putGroup e.tag (m.liveInstances i) delimiter
      | _ => (m.spanBytes e).dropLast ++ [delimiter]
  let fields := if delimiter = soh then 2 else 2 + m.visit.length
  let checksum := sohChecksum (head ++ body) fields delimiter
  out ++ head ++ body ++ ascii "10=" ++
    [48 + UInt8.ofNat (checksum / 100), 48 + UInt8.ofNat (checksum / 10 % 10),
      48 + UInt8.ofNat (checksum % 10), delimiter]

/-- The received bytes, if the message has not been edited since. -/
def wireForm (m : Message) : Option Bytes := if m.clean ∧ m.wire ≠ [] then some m.wire else none

/-- Append the message's wire form. -/
def encode (m : Message) (out : Bytes) : Bytes :=
  match m.wireForm with
  | some wire => out ++ wire
  | none => m.encodeDelimited out soh

def toBytes (m : Message) : Bytes := m.encode []

end Message

/-! ## Comparing -/

/-- The places of a tape's entries in order, gaps left out. -/
def walkUpTo (tape : List Entry) : Nat → Nat → List Nat
  | 0, _ => []
  | fuel + 1, i =>
    if i < tape.length then
      let e := entryAt tape i
      match e.kind with
      | .gap => walkUpTo tape fuel (i + e.span)
      | _ => i :: walkUpTo tape fuel (i + 1)
    else []

/-- The innermost entry from `i` on that covers `target`. -/
def enclosingUpTo (tape : List Entry) (target : Nat) : Nat → Nat → Option Nat → Option Nat
  | 0, _, found => found
  | fuel + 1, i, found =>
    if i < target then
      let next := nextSibling tape i
      if target < next then enclosingUpTo tape target fuel (i + 1) (some i)
      else enclosingUpTo tape target fuel next found
    else found

/-- What comparing looks at in an entry. -/
structure Seen where
  kind : Kind
  tag : Nat
  depth : Nat
  value : Option Bytes
  count : Option Nat
  deriving DecidableEq, Repr

namespace Message

def walk (m : Message) : List Nat := walkUpTo m.tape m.tape.length 0

/-- The instance a field is in, or the group an instance is in. -/
def enclosing (m : Message) (i : Nat) : Option Nat :=
  enclosingUpTo m.tape i m.tape.length (m.regionRange (m.regionOf i)).1 none

/-- The tag of the entry at `i`; for an instance, that of its group. -/
def tagAt (m : Message) (i : Nat) : Nat :=
  match (entryAt m.tape i).kind with
  | .inst => ((m.enclosing i).map fun g => (entryAt m.tape g).tag).getD 0
  | _ => (entryAt m.tape i).tag

def see (m : Message) (i : Nat) : Seen :=
  let e := entryAt m.tape i
  { kind := e.kind
    tag := m.tagAt i
    depth := e.depth
    value := if e.isField then some (m.value e) else none
    count := if e.kind = .group then some e.off else none }

/-- BodyLength and CheckSum are derived, and a group without instances is not written. -/
def Compared (s : Seen) : Bool := s.tag ≠ 9 ∧ s.tag ≠ 10 ∧ s.count ≠ some 0

/-- What a message is compared by. -/
def compared (m : Message) : List Seen := (m.walk.map m.see).filter Compared

/-- `PartialEq`. -/
def eq (m n : Message) : Bool :=
  m.dict.beginString = n.dict.beginString ∧ m.compared = n.compared

end Message

end Babelfix.Tape
