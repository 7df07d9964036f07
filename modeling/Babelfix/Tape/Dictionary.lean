import Babelfix.Message.Value

/-! # The dictionary

The tables that parsing and building a message look up (`message/dict.rs`): what a tag
is wherever it appears, which tags open a repeating group in which block, and which
belong to an instance of one. A group's index is always one of the dictionary's own. -/
namespace Babelfix.Tape

/-- A table keyed by tag. -/
abbrev TagMap (α : Type) := List (Nat × α)

def TagMap.get {α : Type} (table : TagMap α) (tag : Nat) : Option α := table.lookup tag

/-- What a tag is, structurally, wherever it appears. -/
inductive FieldKind where
  | plain
  /-- The Length field of data field `tag`. -/
  | dataLength (tag : Nat)
  /-- A data field, whose value is as long as field `length` says. -/
  | data (length : Nat)
  deriving DecidableEq, Repr

structure FieldInfo where
  kind : FieldKind
  header : Bool
  trailer : Bool
  deriving DecidableEq, Repr

abbrev GroupIdx := Nat

abbrev MsgIdx := Nat

structure GroupDef where
  numInGroup : Nat
  /-- The first field of every instance. -/
  delimiter : Nat
  /-- The fields of an instance, with their place in the definition. -/
  members : TagMap Nat
  /-- The groups inside an instance. -/
  nested : TagMap GroupIdx
  deriving DecidableEq, Repr

/-- The groups of a message's body. -/
structure MessageDef where
  groups : TagMap GroupIdx
  deriving DecidableEq, Repr

structure Dictionary where
  beginString : Bytes
  fields : TagMap FieldInfo
  groups : List GroupDef
  messages : List MessageDef
  messagesByType : List (Bytes × MsgIdx)
  headerGroups : TagMap GroupIdx
  /-- The groups that mean the same in every message that has them. -/
  globalGroups : TagMap GroupIdx
  deriving DecidableEq, Repr

namespace Dictionary

variable (d : Dictionary)

def kind (tag : Nat) : FieldKind :=
  match d.fields.get tag with
  | some info => info.kind
  | none => .plain

def isHeader (tag : Nat) : Bool := (d.fields.get tag).any FieldInfo.header

def isTrailer (tag : Nat) : Bool := (d.fields.get tag).any FieldInfo.trailer

def message (msgType : Bytes) : Option MsgIdx := d.messagesByType.lookup msgType

def group (idx : GroupIdx) : GroupDef := d.groups[idx]?.getD ⟨0, 0, [], []⟩

/-- The group that `tag` opens at the top level of a message. -/
def topLevelGroup (msg : Option MsgIdx) (header : Bool) (tag : Nat) : Option GroupIdx :=
  if header then
    d.headerGroups.get tag
  else
    match msg.bind fun m => d.messages[m]?.bind fun def' => def'.groups.get tag with
    | some g => some g
    | none => d.globalGroups.get tag

/-- The group that `tag` opens inside an instance of `parent`. -/
def nestedGroup (parent : GroupIdx) (tag : Nat) : Option GroupIdx :=
  (d.group parent).nested.get tag

end Dictionary

end Babelfix.Tape
