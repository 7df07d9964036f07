import Babelfix.Message.Block
import Babelfix.Tape.Tape

/-! # Reading a message

The blocks of a message as `message/view.rs` reads them off the tape, and with them the
message as the session layer sees it. -/
namespace Babelfix.Tape

/-- `std::str::from_utf8`. -/
def fromUtf8 (bytes : Bytes) : Option String := String.fromUTF8? ⟨bytes.toArray⟩

namespace Message

/-- The fields below the entries from `i` to `stop`, in the order they are written. -/
def fieldsBelow (m : Message) (i stop : Nat) : List (Nat × Bytes) :=
  ((m.tape.drop i).take (stop - i)).filterMap fun e =>
    match e.kind with
    | .field | .dataLen | .data => some (e.tag, m.value e)
    | .group => some (e.tag, writeUint e.off)
    | .gap | .inst => none

/-- The instances of a group, from sibling to sibling. -/
def instancesUpTo (m : Message) : Nat → Nat → Nat → List (List (Nat × Bytes))
  | 0, _, _ => []
  | fuel + 1, i, stop =>
    if i < stop then
      let next := nextSibling m.tape i
      m.fieldsBelow (i + 1) next :: m.instancesUpTo fuel next stop
    else []

/-- What the entry at `i` is to the session layer. -/
def entryView (m : Message) (i : Nat) : Option Babelfix.Entry :=
  let e := entryAt m.tape i
  let next := nextSibling m.tape i
  match e.kind with
  | .field | .dataLen | .data => some (.field e.tag (m.value e))
  | .group => some (.group e.tag (m.instancesUpTo (next - (i + 1)) (i + 1) next))
  | .gap | .inst => none

/-- The fields and groups of a block, in order. -/
def blockUpTo (m : Message) : Nat → Nat → Nat → Babelfix.Block
  | 0, _, _ => []
  | fuel + 1, i, stop =>
    if i < stop then (m.entryView i).toList ++ m.blockUpTo fuel (nextSibling m.tape i) stop
    else []

def block (m : Message) (region : Region) : Babelfix.Block :=
  let (start, stop) := m.regionRange region
  m.blockUpTo (stop - start) start stop

/-- The value of `MsgType`, or nothing if the message has none that is text. -/
def msgType (m : Message) : String := (((m.block .header).raw 35).bind fromUtf8).getD ""

/-- The message as the session layer sees it. What is fixed or derived is not an entry
there. -/
def view (m : Message) : Babelfix.Message where
  beginString := (fromUtf8 m.dict.beginString).getD ""
  msgType := m.msgType
  header := (m.block .header).without [8, 9, 35]
  body := m.block .body
  trailer := (m.block .trailer).without [10]

end Message

end Babelfix.Tape
