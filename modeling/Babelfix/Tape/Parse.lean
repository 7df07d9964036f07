import Babelfix.Tape.Tape

/-! # Parsing

One pass over the bytes, building the tape (`message/parse.rs`). A field joins an open
group if it is the group's delimiter or one of its members; otherwise the group is
closed. Groups are closed only when a field that does not belong to them arrives. -/
namespace Babelfix.Tape

/-! ## Errors -/

namespace Reason

def requiredTagMissing : Nat := 1
def tagSpecifiedWithoutAValue : Nat := 4
def incorrectDataFormatForValue : Nat := 6
def invalidMsgType : Nat := 11
def tagAppearsMoreThanOnce : Nat := 13
def tagSpecifiedOutOfRequiredOrder : Nat := 14
def repeatingGroupFieldsOutOfOrder : Nat := 15
def incorrectNumInGroupCount : Nat := 16

end Reason

/-- A message that could not be parsed. Without a reason it is garbled. -/
structure ParseError where
  rejectReason : Option Nat
  tag : Option Nat
  message : String
  deriving DecidableEq, Repr

/-- Why parsing stopped: with an error, or because a group is nested deeper than a `u8`
can say. -/
inductive Fault where
  | parse (e : ParseError)
  | overflow
  deriving DecidableEq, Repr

def garbled {α : Type} (message : String) : Except Fault α := .error (.parse ⟨none, none, message⟩)

def reject {α : Type} (reason tag : Nat) (message : String) : Except Fault α :=
  .error (.parse ⟨some reason, some tag, message⟩)

/-- One level deeper. -/
def deeper (depth : Nat) : Except Fault Nat :=
  if depth + 1 < 2 ^ 8 then .ok (depth + 1) else .error .overflow

/-! ## The parser -/

/-- How much framing to insist on. -/
inductive Framing where
  | strict
  /-- A fragment typed by a person. -/
  | fragment
  deriving DecidableEq, Repr

/-- An open repeating group. -/
structure Frame where
  group : GroupIdx
  /-- Where the group's entry is. -/
  entry : Nat
  /-- Where the current instance's entry is. -/
  inst : Option Nat
  declared : Nat
  count : Nat
  depth : Nat
  deriving DecidableEq, Repr

structure Parser where
  framing : Framing
  msg : Message
  /-- The open groups, innermost first. -/
  stack : List Frame
  region : Region
  /-- How many fields have been seen. -/
  ordinal : Nat
  /-- Where CheckSum is, and what it says. -/
  checksum : Option (Nat × Nat)
  /-- What BodyLength says, and where the body it measures starts. -/
  bodyLength : Option (Nat × Nat)
  terminators : Option (List Nat)
  deriving DecidableEq, Repr

/-! ## Fields -/

/-- The loop of `parse_tag`, with the number read so far. -/
def parseTagFrom (pos : Nat) (delim : UInt8) : Nat → Nat → Bytes → Except Fault (Nat × Nat)
  | _, _, [] => garbled "message ends inside a tag"
  | tag, i, c :: rest =>
    if c = 61 ∧ pos < i then
      if tag = 0 then garbled "tag 0" else .ok (tag, i + 1)
    else if c = 48 ∧ i = pos then
      garbled s!"tag at offset {pos} has a leading zero"
    else if 48 ≤ c ∧ c ≤ 57 then
      if u32Max < tag * 10 + (c - 48).toNat then garbled "tag number too large"
      else parseTagFrom pos delim (tag * 10 + (c - 48).toNat) (i + 1) rest
    else if c = delim then
      garbled s!"field at offset {pos} has no '='"
    else
      garbled s!"invalid tag at offset {pos}"

/-- Read `tag=` at `pos`: the tag, and where its value starts. -/
def parseTag (buf : Bytes) (pos : Nat) (delim : UInt8) : Except Fault (Nat × Nat) :=
  parseTagFrom pos delim 0 pos (buf.drop pos)

/-- A field as it was found. -/
structure Lexed where
  tag : Nat
  kind : Kind
  valStart : Nat
  valEnd : Nat
  /-- The data field this one announces, and its length. -/
  pending : Option (Nat × Nat)
  deriving DecidableEq, Repr

/-- Where a field's value ends. -/
def valueEnd (d : Dictionary) (buf : Bytes) (delim : UInt8) (tag valStart : Nat) :
    Option (Nat × Nat) → Except Fault (Kind × Nat)
  | some (dataTag, n) =>
    if tag ≠ dataTag then
      reject Reason.incorrectDataFormatForValue dataTag
        s!"data field {dataTag} must follow its length field"
    -- an end outside the buffer has no byte
    else if buf[valStart + n]? = some delim then .ok (.data, valStart + n)
    else garbled s!"data field {tag} is not {n} bytes long"
  | none =>
    match (buf.drop valStart).findIdx? (· == delim) with
    | none => garbled s!"field {tag} has no terminating delimiter"
    | some len =>
      match d.kind tag with
      | .dataLength _ => .ok (.dataLen, valStart + len)
      | _ => .ok (.field, valStart + len)

/-- What a Length field announces. -/
def announced (d : Dictionary) (tag : Nat) (value : Bytes) : Kind → Except Fault (Option (Nat × Nat))
  | .dataLen =>
    match d.kind tag with
    | .dataLength data =>
      match parseUint value with
      | .ok n => .ok (some (data, n))
      | .error _ =>
        reject Reason.incorrectDataFormatForValue tag s!"length field {tag} is not a number"
    | _ => .ok none
  | _ => .ok none

/-- Find the field at `pos`, given what the one before it announced. -/
def lexField (d : Dictionary) (buf : Bytes) (delim : UInt8) (pos : Nat)
    (pending : Option (Nat × Nat)) : Except Fault Lexed := do
  let (tag, valStart) ← parseTag buf pos delim
  let (kind, valEnd) ← valueEnd d buf delim tag valStart pending
  if valEnd = valStart then
    reject Reason.tagSpecifiedWithoutAValue tag s!"tag {tag} has no value"
  else
    let pending ← announced d tag (slice buf valStart (valEnd - valStart)) kind
    return { tag, kind, valStart, valEnd, pending }

def isAlphanumeric (c : UInt8) : Bool :=
  (48 ≤ c ∧ c ≤ 57) ∨ (65 ≤ c ∧ c ≤ 90) ∨ (97 ≤ c ∧ c ≤ 122)

/-- How many bytes follow this one in a character. -/
def utf8Tail (c : UInt8) : Nat :=
  if 0xC2 ≤ c ∧ c ≤ 0xDF then 1 else if 0xE0 ≤ c ∧ c ≤ 0xEF then 2
  else if 0xF0 ≤ c ∧ c ≤ 0xF4 then 3 else 0

/-- Whether `b` may come second after `c`: no long forms, surrogates or other planes. -/
def utf8Second (c b : UInt8) : Bool :=
  (if c = 0xE0 then 0xA0 else if c = 0xF0 then 0x90 else 0x80) ≤ b ∧
    b ≤ (if c = 0xED then 0x9F else if c = 0xF4 then 0x8F else 0xBF)

/-- The characters of `bytes`; what begins none, or breaks off, is replaced as a whole. -/
def utf8Lossy : Nat → Bytes → List Char
  | fuel + 1, c :: rest =>
    let n := utf8Tail c
    let tail := if (rest.head?.map (utf8Second c)).getD false
      then (rest.take n).takeWhile fun b => 0x80 ≤ b ∧ b ≤ 0xBF else []
    let char := if c < 128 then Char.ofNat c.toNat
      else if 0 < n ∧ tail.length = n then
        Char.ofNat (tail.foldl (fun v b => v * 64 + b.toNat % 64) (c.toNat % 2 ^ (6 - n)))
      else '�'
    char :: utf8Lossy fuel (rest.drop tail.length)
  | _, _ => []

/-- Bytes as text, for messages to people. -/
def lossy (bytes : Bytes) : String := String.ofList (utf8Lossy bytes.length bytes)

example : lossy [70, 195, 169, 226, 130, 88, 192] = "Fé�X�" := by decide +kernel

/-- What CheckSum says. -/
def readChecksum (value : Bytes) : Except Fault Nat :=
  match value with
  | [a, b, c] =>
    if value.all fun x => 48 ≤ x ∧ x ≤ 57 then
      let v := (a - 48).toNat * 100 + (b - 48).toNat * 10 + (c - 48).toNat
      if v < 256 then .ok v else garbled "CheckSum(10) exceeds 255"
    else garbled "CheckSum(10) is not three digits"
  | _ => garbled "CheckSum(10) is not three digits"

namespace Parser

/-- The field that must stand at a place, if one must. -/
def expected : Nat → Option Nat
  | 0 => some 8
  | 1 => some 9
  | 2 => some 35
  | _ => none

def checkPlace (framing : Framing) (ordinal tag : Nat) : Except Fault Unit :=
  match framing with
  | .fragment => .ok ()
  | .strict =>
    match expected ordinal with
    | some e =>
      if tag ≠ e then
        let n := ordinal + 1
        garbled s!"field {n} must be {e}, not {tag}"
      else .ok ()
    | none =>
      if tag = 8 ∨ tag = 9 ∨ tag = 35 then
        reject Reason.tagSpecifiedOutOfRequiredOrder tag
          s!"tag {tag} must be among the first three fields"
      else .ok ()

/-- The positional rules on 8, 9, 35 and 10, and whether this field ends the message. -/
def framingRules (tag fieldStart : Nat) (value : Bytes) (p : Parser) :
    Except Fault (Parser × Bool) := do
  checkPlace p.framing p.ordinal tag
  let p := { p with ordinal := p.ordinal + 1 }
  if tag = 8 ∧ value ≠ p.msg.dict.beginString then
    let got := lossy value
    let wanted := lossy p.msg.dict.beginString
    garbled s!"BeginString(8) is {got}, expected {wanted}"
  else if tag = 9 then
    match parseUint value with
    | .error _ => garbled "BodyLength(9) is not a number"
    | .ok declared =>
      return ({ p with bodyLength := some (declared, fieldStart + 2 + value.length + 1) }, false)
  else if tag = 35 then
    if value.all isAlphanumeric then
      return ({ p with msg := { p.msg with msgDef := p.msg.dict.message value } }, false)
    else reject Reason.invalidMsgType 35 "MsgType(35) is not alphanumeric"
  else if tag = 10 then do
    let checksum ← readChecksum value
    return ({ p with checksum := some (fieldStart, checksum) }, true)
  else return (p, false)

/-! ## Groups -/

/-- End the current instance of the innermost open group. -/
def closeInstance (p : Parser) : Parser :=
  match p.stack with
  | [] => p
  | frame :: _ =>
    match frame.inst with
    | none => p
    | some i =>
      let closed := { entryAt p.msg.tape i with len := asU32 (p.msg.tape.length - i) }
      { p with msg := { p.msg with tape := p.msg.tape.set i closed } }

/-- Close the innermost open group. -/
def closeGroup (p : Parser) : Except Fault Parser :=
  let p := p.closeInstance
  match p.stack with
  | [] => .ok p
  | frame :: outer =>
    let entry := entryAt p.msg.tape frame.entry
    let closed := { entry with
      len := asU32 (p.msg.tape.length - frame.entry), off := asU32 frame.count }
    let tape := p.msg.tape.set frame.entry closed
    if frame.count ≠ frame.declared then
      let group := entry.tag
      let declared := frame.declared
      let count := frame.count
      reject Reason.incorrectNumInGroupCount entry.tag
        s!"group {group} declares {declared} instances but has {count}"
    else .ok { p with msg := { p.msg with tape }, stack := outer }

/-- The field is the open group's delimiter: start another instance. -/
def startInstance (tag : Nat) (p : Parser) : Except Fault Parser :=
  let p := p.closeInstance
  match p.stack with
  | [] => .ok p
  | frame :: outer =>
    if frame.count = frame.declared then
      let group := (entryAt p.msg.tape frame.entry).tag
      let declared := frame.declared
      reject Reason.incorrectNumInGroupCount group
        s!"group {group} declares {declared} instances but has more ({tag} repeats)"
    else do
      let depth ← deeper frame.depth
      let tape := p.msg.tape ++ [{ kind := .inst, depth, len := 1 }]
      let frame := { frame with count := frame.count + 1, inst := some p.msg.tape.length }
      return { p with msg := { p.msg with tape }, stack := frame :: outer }

/-- Find the open group a field belongs to, closing those it does not belong to.
`stack` are the open groups. -/
def joinGroup (tag : Nat) : List Frame → Parser → Except Fault Parser
  | [], p => .ok p
  | frame :: outer, p =>
    let group := p.msg.dict.group frame.group
    if tag = group.delimiter then
      p.startInstance tag
    else if (group.members.get tag).isSome then
      if frame.inst.isNone then
        let num := group.numInGroup
        let delimiter := group.delimiter
        reject Reason.repeatingGroupFieldsOutOfOrder tag
          s!"group {num} must start with {delimiter}, not {tag}"
      else .ok p
    else do
      joinGroup tag outer (← p.closeGroup)

/-! ## Regions -/

/-- The header is over: what follows goes after its gap. -/
def leaveHeader (p : Parser) : Parser :=
  let msg := p.msg.pushGap
  { p with msg := { msg with bodyStart := asU32 msg.tape.length } }

/-- Keep track of header, body and trailer for a field at the top level. -/
def enterRegion (tag : Nat) (p : Parser) : Except Fault Parser :=
  let header := p.msg.dict.isHeader tag
  let trailer := p.msg.dict.isTrailer tag
  match p.region with
  | .header =>
    if header then .ok p
    else
      let p := p.leaveHeader
      if trailer then
        .ok { p with msg := { p.msg with trailerStart := p.msg.bodyStart }, region := .trailer }
      else .ok { p with region := .body }
  | .body =>
    if header then
      reject Reason.tagSpecifiedOutOfRequiredOrder tag
        s!"header tag {tag} after the body has begun"
    else if trailer then
      let msg := { p.msg with trailerStart := asU32 p.msg.tape.length }
      .ok { p with msg, region := .trailer }
    else .ok p
  | .trailer =>
    if trailer then .ok p
    else
      reject Reason.tagSpecifiedOutOfRequiredOrder tag s!"tag {tag} after the trailer has begun"

def finishRegions (p : Parser) : Parser :=
  match p.region with
  | .header =>
    let p := p.leaveHeader
    { p with msg := { p.msg with trailerStart := p.msg.bodyStart } }
  | .body => { p with msg := { p.msg with trailerStart := asU32 p.msg.tape.length } }
  | .trailer => p

/-- A fragment's header field that arrived after the body began goes to the end of the
header. -/
def pushLateHeader (entry : Entry) (p : Parser) : Parser :=
  let entry := { entry with depth := 0 }
  match p.msg.headerGap with
  | some gap =>
    let room := (entryAt p.msg.tape gap).span
    let tape := p.msg.tape.set gap entry
    let tape := if 1 < room then tape.set (gap + 1) (.gap (room - 1)) else tape
    { p with msg := { p.msg with tape } }
  | none =>
    let tape := p.msg.tape.insertIdx p.msg.bodyStart entry
    let trailerStart :=
      if p.region = .trailer then p.msg.trailerStart + 1 else p.msg.trailerStart
    { p with msg := { p.msg with tape, bodyStart := p.msg.bodyStart + 1, trailerStart } }

/-! ## Placing a field -/

/-- The group a field opens where it stands. -/
def opens (tag : Nat) (p : Parser) : Option GroupIdx :=
  match p.stack with
  | frame :: _ => p.msg.dict.nestedGroup frame.group tag
  | [] => p.msg.dict.topLevelGroup p.msg.msgDef (p.region = .header) tag

/-- Put a field on the tape, at its depth, or open the group it is the NumInGroup of. -/
def place (entry : Entry) (value : Bytes) (depth : Nat) (p : Parser) : Except Fault Parser :=
  match if entry.kind = .field then p.opens entry.tag else none with
  | none =>
    .ok { p with msg := { p.msg with tape := p.msg.tape ++ [{ entry with depth }] } }
  | some group =>
    match parseUint value with
    | .error _ =>
      let tag := entry.tag
      reject Reason.incorrectNumInGroupCount tag s!"NumInGroup {tag} is not a number"
    | .ok declared =>
      let tape := p.msg.tape ++ [{ tag := entry.tag, kind := .group, depth, len := 1 }]
      let frame : Frame :=
        { group, entry := p.msg.tape.length, inst := none, declared, count := 0, depth }
      if 0 < declared then
        .ok { p with msg := { p.msg with tape }, stack := frame :: p.stack }
      else .ok { p with msg := { p.msg with tape } }

/-- Whether a fragment's field belongs in the header although the body has begun. -/
def isLateHeader (tag : Nat) (p : Parser) : Bool :=
  p.framing = .fragment ∧ p.region ≠ .header ∧ p.msg.dict.isHeader tag

/-- Place a field inside the innermost open group, or at the top level. -/
def settle (entry : Entry) (value : Bytes) (p : Parser) : Except Fault Parser :=
  match p.stack with
  | frame :: _ => do
    let depth ← deeper frame.depth
    p.place entry value depth
  | [] =>
    if p.isLateHeader entry.tag then
      if entry.kind = .field ∧ (p.msg.dict.topLevelGroup p.msg.msgDef true entry.tag).isSome then
        let tag := entry.tag
        reject Reason.tagSpecifiedOutOfRequiredOrder tag
          s!"header group {tag} must come before the body, even in a fragment"
      else return p.pushLateHeader entry
    else do
      (← p.enterRegion entry.tag).place entry value 0

/-- Take a field: close the groups it does not belong to, start an instance if it is a
delimiter, move between regions, and open a group if it is a NumInGroup. -/
def push (entry : Entry) (value : Bytes) (p : Parser) : Except Fault Parser := do
  (← joinGroup entry.tag p.stack p).settle entry value

/-- Take a field that was found at `pos`. -/
def take (buf : Bytes) (pos : Nat) (x : Lexed) (p : Parser) : Except Fault (Parser × Bool) := do
  let value := slice buf x.valStart (x.valEnd - x.valStart)
  let (p, isLast) ← p.framingRules x.tag pos value
  let entry : Entry := {
    tag := x.tag, kind := x.kind, seg := .wire, valOff := x.valStart - pos, off := asU32 pos,
    len := asU32 (x.valEnd - x.valStart) }
  let p ← p.push entry value
  return ({ p with terminators := p.terminators.map (· ++ [x.valEnd]) }, isLast)

/-- Where the loop stands: the next field's place, and what the last one announced. -/
structure Progress where
  parser : Parser
  pos : Nat
  pending : Option (Nat × Nat)
  deriving DecidableEq, Repr

/-- The loop of `run`. Every field takes at least one byte, so `fuel` may be the number
of bytes. -/
def loop (buf : Bytes) (delim : UInt8) : Nat → Progress → Except Fault Progress
  | 0, s => .ok s
  | fuel + 1, s =>
    if s.pos < buf.length then do
      let x ← lexField s.parser.msg.dict buf delim s.pos s.pending
      let (p, isLast) ← s.parser.take buf s.pos x
      let s := ⟨p, x.valEnd + 1, x.pending⟩
      if isLast then return s else loop buf delim fuel s
    else .ok s

/-- Close every group that is still open. -/
def closeAll : List Frame → Parser → Except Fault Parser
  | [], p => .ok p
  | _ :: outer, p => do closeAll outer (← p.closeGroup)

end Parser

/-! ## Whole messages -/

def checksumOf (bytes : Bytes) : Nat := (bytes.map UInt8.toNat).sum % 256

/-- The checksum `bytes` would have with each of its `fields` delimiters SOH. -/
def sohChecksum (bytes : Bytes) (fields : Nat) (delimiter : UInt8) : Nat :=
  let sum : Int := checksumOf bytes - fields * ((delimiter.toNat : Int) - soh.toNat)
  (sum % 256).toNat

theorem sohChecksum_soh (bytes : Bytes) (fields : Nat) :
    sohChecksum bytes fields soh = checksumOf bytes := by
  simp only [sohChecksum, sub_self, mul_zero, sub_zero, checksumOf]
  omega

/-- A checksum as it is written. -/
def threeDigits (n : Nat) : String :=
  if n < 10 then s!"00{n}" else if n < 100 then s!"0{n}" else s!"{n}"

namespace Parser

def new (d : Dictionary) (framing : Framing) : Parser where
  framing
  msg := {
    dict := d, msgDef := none, wire := [], arena := [], tape := [], bodyStart := 0,
    trailerStart := 0, clean := false }
  stack := []
  region := .header
  ordinal := 0
  checksum := none
  bodyLength := none
  terminators := none

def hasMsgType (m : Message) : Bool :=
  (m.tape.take m.bodyStart).any fun e => e.tag = 35 && e.isField

/-- BodyLength and CheckSum must be right. -/
def checkFraming (buf : Bytes) (delim : UInt8) (p : Parser) : Except Fault Unit := do
  match p.checksum with
  | none => garbled "no CheckSum(10)"
  | some (checksumAt, checksum) =>
    match p.bodyLength with
    | some (declared, bodyStart) =>
      if declared ≠ checksumAt - bodyStart then
        let body := checksumAt - bodyStart
        garbled s!"BodyLength(9) is {declared} but the body is {body} bytes"
    | none => pure ()
    let actual := sohChecksum (buf.take checksumAt) (p.ordinal - 1) delim
    if actual ≠ checksum then
      let declared := threeDigits checksum
      let sum := threeDigits actual
      garbled s!"CheckSum(10) is {declared} but the message sums to {sum}"

/-- Supply a fragment's BeginString. -/
def supplyBeginString (p : Parser) : Parser :=
  if p.msg.tape.any fun e => e.tag = 8 && e.isField then p
  else
    let (msg, entry) := p.msg.appendField 8 p.msg.dict.beginString
    let tape := entry :: msg.tape
    { p with msg := { msg with
      tape, bodyStart := msg.bodyStart + 1, trailerStart := msg.trailerStart + 1 } }

/-- The message, once every field has been taken and every group closed. -/
def conclude (wire : Bytes) (delim : UInt8) (p : Parser) :
    Except Fault (Message × Option (List Nat)) := do
  let p := p.finishRegions
  let p ← match p.framing with
    | .strict => do
      checkFraming wire delim p
      pure p
    | .fragment => pure p.supplyBeginString
  if p.msg.msgDef.isNone ∧ ¬ hasMsgType p.msg then
    reject Reason.requiredTagMissing 35 "no MsgType(35)"
  else
    return ({ p.msg with wire, clean := p.framing = .strict ∧ delim = soh }, p.terminators)

def run (wire : Bytes) (delim : UInt8) (p : Parser) : Except Fault (Message × Option (List Nat)) := do
  let s ← loop wire delim wire.length ⟨p, 0, none⟩
  if s.pending.isSome then garbled "message ends after a length field"
  else if s.pos ≠ wire.length then garbled "bytes after CheckSum(10)"
  else do
    (← closeAll s.parser.stack s.parser).conclude wire delim

end Parser

namespace Message

def parse (d : Dictionary) (wire : Bytes) : Except Fault Message := do
  let (msg, _) ← (Parser.new d .strict).run wire soh
  return msg

/-- Parse bytes that are delimited by something else, or are a fragment. The delimiters
are replaced. -/
def parseCopy (d : Dictionary) (bytes : Bytes) (delimiter : UInt8) (framing : Framing) :
    Except Fault Message := do
  let buf :=
    if framing = .fragment ∧ bytes.getLast? ≠ some delimiter then bytes ++ [delimiter] else bytes
  let (msg, terminators) ←
    ({ Parser.new d framing with terminators := some [] } : Parser).run buf delimiter
  let msg :=
    if delimiter = soh then msg
    else
      let wire := (terminators.getD []).foldl (fun b i => b.set i soh) buf
      { msg with wire, clean := framing = .strict }
  return { msg with clean := if framing = .fragment then false else msg.clean }

def parseDelimited (d : Dictionary) (bytes : Bytes) (delimiter : UInt8) : Except Fault Message :=
  parseCopy d bytes delimiter .strict

def parseFragment (d : Dictionary) (bytes : Bytes) (delimiter : UInt8) : Except Fault Message :=
  parseCopy d bytes delimiter .fragment

end Message

end Babelfix.Tape
