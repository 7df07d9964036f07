import Babelfix.Repo.Version
import Babelfix.Tape.Dictionary

/-! # Compiling the dictionary

The tables of a dictionary are compiled from a repository (`Builder` of `message/dict.rs`).
A group gets its slot before what is in it is compiled, so that groups may contain each
other, and is compiled once, however often it is referred to. -/
namespace Babelfix.Repo

open Tape

/-- Field order within one block: the position of each tag in its definition. -/
abbrev Order := TagMap Nat

/-- The next position, unless the tag has one. -/
def Order.orInsert (order : Order) (tag : Nat) : Order :=
  if (order.get tag).isSome then order else order ++ [(tag, order.length)]

/-- Insert, or replace what is there. -/
def insertTag {α : Type} (table : TagMap α) (tag : Nat) (a : α) : TagMap α :=
  if (table.get tag).isSome then table.map fun x => if x.1 = tag then (tag, a) else x
  else table ++ [(tag, a)]

/-- Insert, unless something is there. -/
def orInsertTag {α : Type} (table : TagMap α) (tag : Nat) (a : α) : TagMap α :=
  if (table.get tag).isSome then table else table ++ [(tag, a)]

/-- Change what is there, if anything. -/
def modifyTag {α : Type} (table : TagMap α) (tag : Nat) (f : α → α) : TagMap α :=
  table.map fun x => if x.1 = tag then (x.1, f x.2) else x

/-- `as u16`. -/
def asU16 (n : Nat) : Nat := n % 2 ^ 16

namespace FixVersion

/-- The member tags in definition order, flattening components. -/
def memberOrder (fix : FixVersion) : Nat → List MessageElement → List Nat → Option (List Nat)
  | 0, _, _ => none
  | fuel + 1, elements, out =>
    elements.foldlM (fun out element =>
      match element with
      | .field ref => some (out ++ [ref.fieldId])
      | .component ref =>
        match fix.getComponent ref.componentId with
        | some component => fix.memberOrder fuel component.elements out
        | none => some out
      | .group ref =>
        match fix.getGroup ref.groupId with
        | some group => some (out ++ [group.numInGroupTag])
        | none => some out) out

/-- `block_order` of `message/normalize.rs`: the recursion `walk` from an empty order. -/
def orderWalk (fix : FixVersion) : Nat → List MessageElement → Order → Option Order
  | 0, _, _ => none
  | fuel + 1, elements, out =>
    elements.foldlM (fun out element =>
      match element with
      | .field ref => some (out.orInsert ref.fieldId)
      | .component ref =>
        match fix.getComponent ref.componentId with
        | some component => fix.orderWalk fuel component.elements out
        | none => some out
      | .group ref =>
        match fix.getGroup ref.groupId with
        | some group => some (out.orInsert group.numInGroupTag)
        | none => some out) out

def blockOrder (fix : FixVersion) (fuel : Nat) (elements : List MessageElement) : Option Order :=
  fix.orderWalk fuel elements []

end FixVersion

/-! ## Groups -/

structure Builder where
  groups : List GroupDef
  /-- The slot of each group that has one, by its id. -/
  groupIds : TagMap GroupIdx
  deriving DecidableEq, Repr

namespace Builder

/-- The slot for a group, before it is compiled. -/
def reserve (b : Builder) (group : Group) : Builder where
  groups := b.groups ++ [⟨group.numInGroupTag, 0, [], []⟩]
  groupIds := b.groupIds ++ [(group.id, b.groups.length)]

/-- Each tag's first place in an order. -/
def positions (order : List Nat) : TagMap Nat :=
  order.zipIdx.foldl (fun members x => orInsertTag members x.1 (asU16 x.2)) []

/-- The slot of a group, compiled. -/
def complete (b : Builder) (idx : GroupIdx) (order : List Nat) (nested : TagMap GroupIdx) : Builder :=
  { b with groups := b.groups.modify idx fun d =>
      { d with delimiter := order.head?.getD 0, members := positions order, nested } }

mutual

/-- The groups directly in a list of elements, looking through components, with the slots
they have been given. -/
def collectGroups (fix : FixVersion) :
    Nat → List MessageElement → Builder × TagMap GroupIdx → Option (Builder × TagMap GroupIdx)
  | 0, _, _ => none
  | fuel + 1, elements, s =>
    elements.foldlM (fun s element =>
      match element with
      | .field _ => some s
      | .component ref =>
        match fix.getComponent ref.componentId with
        | some component => collectGroups fix fuel component.elements s
        | none => some s
      | .group ref =>
        match fix.getGroup ref.groupId with
        | some group =>
          (intern fix fuel group s.1).map fun x => (x.1, insertTag s.2 group.numInGroupTag x.2)
        | none => some s) s

/-- The slot of a group, which is compiled if it is new. -/
def intern (fix : FixVersion) : Nat → Group → Builder → Option (Builder × GroupIdx)
  | 0, _, _ => none
  | fuel + 1, group, b =>
    match b.groupIds.get group.id with
    | some idx => some (b, idx)
    | none =>
      let idx := b.groups.length
      (fix.memberOrder fuel group.elements []).bind fun order =>
        (collectGroups fix fuel group.elements (b.reserve group, [])).map fun x =>
          (x.1.complete idx order x.2, idx)

end

/-! ## The dictionary -/

/-- What each field is wherever it appears. -/
def fieldTable (fix : FixVersion) : TagMap FieldInfo :=
  let fields := fix.fields.entries.foldl (fun fields x =>
    match x.2.lengthId with
    | some length => insertTag (insertTag fields x.1 ⟨.plain, false, false⟩) x.1 ⟨.data length, false, false⟩
    | none => insertTag fields x.1 ⟨.plain, false, false⟩) []
  -- a second pass, so that it does not matter which of the two is met first
  fix.fields.entries.foldl (fun fields x =>
    match x.2.lengthId with
    | some length => modifyTag fields length fun info => { info with kind := .dataLength x.1 }
    | none => fields) fields

/-- What a tag means in the messages so far: a group, or different groups. -/
def noteGroup (table : TagMap (Option GroupIdx)) (tag : Nat) (idx : GroupIdx) : TagMap (Option GroupIdx) :=
  match table.get tag with
  | some g => if g ≠ some idx then insertTag table tag none else table
  | none => insertTag table tag (some idx)

structure Compiled where
  builder : Builder
  messages : List MessageDef
  messagesByType : List (Bytes × MsgIdx)
  byNumInGroup : TagMap (Option GroupIdx)

def insertType (table : List (Bytes × MsgIdx)) (msgType : Bytes) (idx : MsgIdx) : List (Bytes × MsgIdx) :=
  if (table.lookup msgType).isSome then table.map fun x => if x.1 = msgType then (msgType, idx) else x
  else table ++ [(msgType, idx)]

def addMessage (fix : FixVersion) (fuel : Nat) (c : Compiled) (message : Message) : Option Compiled :=
  (collectGroups fix fuel message.elements (c.builder, [])).map fun x =>
    { builder := x.1
      messages := c.messages ++ [⟨x.2⟩]
      messagesByType := insertType c.messagesByType message.msgType.toUTF8.toList c.messages.length
      byNumInGroup := x.2.foldl (fun table y => noteGroup table y.1 y.2) c.byNumInGroup }

/-- The messages in the order of their types, whatever order the map has. -/
def sortedMessages (fix : FixVersion) : List Message :=
  fix.messages.values.mergeSort fun a b => a.msgType ≤ b.msgType

/-- The header's groups come first. -/
def headerGroups (fix : FixVersion) (fuel : Nat) : Option (Builder × TagMap GroupIdx) :=
  match fix.getComponentByName "StandardHeader" with
  | some header => collectGroups fix fuel header.elements (⟨[], []⟩, [])
  | none => some (⟨[], []⟩, [])

/-- Mark the fields of the header and the trailer. -/
def markFields (fix : FixVersion) (fields : TagMap FieldInfo) : TagMap FieldInfo :=
  let fields := match fix.getComponentByName "StandardHeader" with
    | some header => header.members.foldl (fun fields tag =>
        modifyTag fields tag fun info => { info with header := true }) fields
    | none => fields
  match fix.getComponentByName "StandardTrailer" with
  | some trailer => trailer.members.foldl (fun fields tag =>
      modifyTag fields tag fun info => { info with trailer := true }) fields
  | none => fields

def build (fix : FixVersion) (fuel : Nat) : Option Dictionary :=
  (headerGroups fix fuel).bind fun header =>
    ((sortedMessages fix).foldlM (addMessage fix fuel) ⟨header.1, [], [], []⟩).map fun c =>
      { beginString := fix.beginString.toUTF8.toList
        fields := markFields fix (fieldTable fix)
        groups := c.builder.groups
        messages := c.messages
        messagesByType := c.messagesByType
        headerGroups := header.2
        globalGroups := c.byNumInGroup.filterMap fun x => x.2.map fun g => (x.1, g) }

end Builder

end Babelfix.Repo
