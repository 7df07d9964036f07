import Babelfix.Lib.Unfold

/-! # The repository

The definitions of one FIX version as they are loaded from an Orchestra file
(`babelfix-repo`): fields, and messages, components and groups made of fields and of
further components and groups. Components and groups refer to each other by number, and
the recursions below go where the references lead, so each is given how deep it may go
and returns nothing if that is not enough. -/
namespace Babelfix.Repo

open Lib

/-- A hash map; its entries are in the order it is iterated in, whatever that is. -/
structure HashMap (κ α : Type) where
  entries : List (κ × α)
  nodup : (entries.map Prod.fst).Nodup

namespace HashMap

variable {κ α : Type}

def get [BEq κ] (m : HashMap κ α) (k : κ) : Option α := m.entries.lookup k

def keys (m : HashMap κ α) : List κ := m.entries.map Prod.fst

def values (m : HashMap κ α) : List α := m.entries.map Prod.snd

/-- `get_mut`, and a change of what is there. -/
def modify [DecidableEq κ] (m : HashMap κ α) (k : κ) (f : α → α) : HashMap κ α where
  entries := m.entries.map fun x => if x.1 = k then (x.1, f x.2) else x
  nodup := by
    have hkeys : (m.entries.map fun x => if x.1 = k then (x.1, f x.2) else x).map Prod.fst =
        m.entries.map Prod.fst := by
      rw [List.map_map]
      refine List.map_congr_left fun x _ => ?_
      simp only [Function.comp]
      split <;> rfl
    rw [hkeys]
    exact m.nodup

end HashMap

structure Field where
  id : Nat
  name : String
  fieldType : String
  /-- For a data field, the Length that goes before it. -/
  lengthId : Option Nat
  unionDataType : Option String
  deriving DecidableEq, Repr

structure FieldRef where
  fieldId : Nat
  required : Bool
  deriving DecidableEq, Repr

structure ComponentRef where
  componentId : Nat
  required : Bool
  deriving DecidableEq, Repr

structure GroupRef where
  groupId : Nat
  required : Bool
  deriving DecidableEq, Repr

/-- What messages, components and groups are made of. -/
inductive MessageElement where
  | field (ref : FieldRef)
  | component (ref : ComponentRef)
  | group (ref : GroupRef)
  deriving DecidableEq, Repr

structure Component where
  id : Nat
  name : String
  elements : List MessageElement
  /-- The fields in it, those of components in it included. -/
  members : List Nat
  deriving DecidableEq, Repr

structure Message where
  name : String
  msgType : String
  elements : List MessageElement
  deriving DecidableEq, Repr

/-- A repeating group. -/
structure Group where
  id : Nat
  name : String
  required : Bool
  numInGroupTag : Nat
  elements : List MessageElement
  members : List Nat
  deriving DecidableEq, Repr

structure FixVersion where
  beginString : String
  fields : HashMap Nat Field
  components : HashMap Nat Component
  groups : HashMap Nat Group
  messages : HashMap String Message

namespace FixVersion

def getField (fix : FixVersion) (id : Nat) : Option Field := fix.fields.get id

def getComponent (fix : FixVersion) (id : Nat) : Option Component := fix.components.get id

def getComponentByName (fix : FixVersion) (name : String) : Option Component :=
  fix.components.values.find? fun c => c.name = name

def getGroup (fix : FixVersion) (id : Nat) : Option Group := fix.groups.get id

/-! ## Membership -/

def collectMembersFromElements (fix : FixVersion) :
    Nat → List MessageElement → List Nat → Option (List Nat)
  | 0, _, _ => none
  | fuel + 1, elements, members =>
    elements.foldlM (fun members element =>
      match element with
      | .field ref => some (members.insert ref.fieldId)
      | .component ref =>
        match fix.getComponent ref.componentId with
        | some component => fix.collectMembersFromElements fuel component.elements members
        | none => some members
      | .group ref =>
        -- only the NumInGroup tag, not what is in the group
        match fix.getGroup ref.groupId with
        | some group => some (members.insert group.numInGroupTag)
        | none => some members) members

def collectMembersForComponent (fix : FixVersion) (fuel id : Nat) : Option (List Nat) :=
  match fix.getComponent id with
  | some component => fix.collectMembersFromElements fuel component.elements []
  | none => some []

def collectMembersForGroup (fix : FixVersion) (fuel id : Nat) : Option (List Nat) :=
  match fix.getGroup id with
  | some group => fix.collectMembersFromElements fuel group.elements [group.numInGroupTag]
  | none => some []

def setComponentMembers (fix : FixVersion) (id : Nat) (members : List Nat) : FixVersion :=
  { fix with components := fix.components.modify id fun c => { c with members } }

def setGroupMembers (fix : FixVersion) (id : Nat) (members : List Nat) : FixVersion :=
  { fix with groups := fix.groups.modify id fun g => { g with members } }

def computeMemberSets (fix : FixVersion) (fuel : Nat) : Option FixVersion := do
  let fix ← fix.components.keys.foldlM (fun fix id =>
    (fix.collectMembersForComponent fuel id).map (fix.setComponentMembers id)) fix
  fix.groups.keys.foldlM (fun fix id =>
    (fix.collectMembersForGroup fuel id).map (fix.setGroupMembers id)) fix

/-- `is_member` of a message, which has no set of its own. -/
def isMemberSlow (fix : FixVersion) (elements : List MessageElement) (field : Nat) : Bool :=
  elements.any fun element =>
    match element with
    | .field ref => ref.fieldId = field
    | .component ref => (fix.getComponent ref.componentId).any fun c => c.members.contains field
    | .group ref => (fix.getGroup ref.groupId).any fun g => g.numInGroupTag = field

/-! ## Flattening -/

/-- The loop over a list; `inner` is the recursion into components and groups. A bound on
how many fields to push ends the loop. -/
def flattenLoop (fix : FixVersion) (maxCount : Option Nat)
    (inner : List MessageElement → List FieldRef → Option (List FieldRef)) :
    List MessageElement → List FieldRef → Option (List FieldRef)
  | [], refs => some refs
  | .field ref :: rest, refs =>
    let refs := refs ++ [ref]
    if maxCount.any fun max => max ≤ refs.length then some refs
    else fix.flattenLoop maxCount inner rest refs
  | .component ref :: rest, refs =>
    match fix.getComponent ref.componentId with
    | some component =>
      (inner component.elements refs).bind fun refs => fix.flattenLoop maxCount inner rest refs
    | none => fix.flattenLoop maxCount inner rest refs
  | .group ref :: rest, refs =>
    match fix.getGroup ref.groupId with
    | some group =>
      let refs := refs ++ [⟨group.id, group.required⟩]
      if maxCount.any fun max => max ≤ refs.length then some refs
      else (inner group.elements refs).bind fun refs => fix.flattenLoop maxCount inner rest refs
    | none => fix.flattenLoop maxCount inner rest refs

/-- The fields below a list of elements and in the groups below them. -/
def flattenElements (fix : FixVersion) (maxCount : Option Nat) :
    Nat → List MessageElement → List FieldRef → Option (List FieldRef)
  | 0 => fun _ _ => none
  | fuel + 1 => fix.flattenLoop maxCount (fix.flattenElements maxCount fuel)

/-- The fields of a message, component or group, or nothing if one of them is not defined:
the code then panics. -/
def getFields (fix : FixVersion) (fuel : Nat) (elements : List MessageElement) :
    Option (Option (List Field)) :=
  (fix.flattenElements none fuel elements []).map fun refs =>
    refs.mapM fun ref => fix.fields.get ref.fieldId

/-! ## The first field of a group -/

/-- The loop over a list; `inner` is the recursion into a component. The inner option is
empty where the code panics. -/
def firstFieldLoop (fix : FixVersion) (inner : List MessageElement → Option (Option Nat)) :
    List MessageElement → Option (Option Nat)
  | [] => some none
  | .field ref :: _ => some (some ref.fieldId)
  | .component ref :: rest =>
    match fix.getComponent ref.componentId with
    | some component => inner component.elements
    | none => fix.firstFieldLoop inner rest
  | .group ref :: rest =>
    match fix.getGroup ref.groupId with
    | some group => some (some group.numInGroupTag)
    | none => fix.firstFieldLoop inner rest

def firstFieldId (fix : FixVersion) : Nat → List MessageElement → Option (Option Nat)
  | 0 => fun _ => none
  | fuel + 1 => fix.firstFieldLoop (fix.firstFieldId fuel)

end FixVersion

/-- The field that starts an instance. -/
def Group.getMarkerTag (group : Group) (fix : FixVersion) (fuel : Nat) : Option (Option Field) :=
  (fix.firstFieldId fuel group.elements).map fun id => id.bind fix.getField

end Babelfix.Repo
