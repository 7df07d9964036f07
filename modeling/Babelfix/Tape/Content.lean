import Babelfix.Tape.Track

/-! # The content of a message

What a forest of fields has to be like for a reader to find it again from its fields
alone. A reader knows which fields a group's instances may hold and which one starts
them, so a group lasts until a field comes that does not belong to it. -/
namespace Babelfix.Tape

open Lib

/-- Where a field stands: at the top level of a message, or in an instance of a group. -/
inductive Block where
  | top (msgDef : Option MsgIdx) (header : Bool)
  | inst (group : GroupIdx)
  deriving DecidableEq, Repr

namespace Block

/-- The group that `tag` opens in a block. -/
def opens (d : Dictionary) : Block → Nat → Option GroupIdx
  | top msgDef header, tag => d.topLevelGroup msgDef header tag
  | inst group, tag => d.nestedGroup group tag

/-- An instance starts with its group's delimiter, does not repeat it, and holds only
members. -/
def Takes (d : Dictionary) : Block → Bool → Nat → Prop
  | top _ _, _, _ => True
  | inst group, true, tag => tag = (d.group group).delimiter
  | inst group, false, tag =>
    tag ≠ (d.group group).delimiter ∧ ((d.group group).members.get tag).isSome

/-- The group a NumInGroup field of a block is that of. -/
def child (d : Dictionary) (b : Block) (tag : Nat) : GroupIdx := (b.opens d tag).getD 0

end Block

/-- A field joins a group's instance if it is the delimiter or a member. -/
def Belongs (d : Dictionary) (group : GroupIdx) (tag : Nat) : Prop :=
  tag = (d.group group).delimiter ∨ ((d.group group).members.get tag).isSome

/-- A field belongs to none of the groups. -/
def Avoids (d : Dictionary) (ended : List GroupIdx) (tag : Nat) : Prop :=
  ∀ group ∈ ended, ¬ Belongs d group tag

mutual

/-- The fields of a block: each may stand where it does, exactly the NumInGroup fields
are groups, and a group has as many instances as it says. -/
def Formed (d : Dictionary) (b : Block) (depth : Nat) (first : Bool) : Forest Token → Prop
  | .nil => True
  | .node t c r =>
    b.Takes d first t.tag ∧ Formed d b depth false r ∧
      match t.kind with
      | .group =>
        (b.opens d t.tag).isSome ∧ parseUint t.value = .ok c.roots.length ∧
          (c ≠ .nil → depth + 1 < 2 ^ 8) ∧ FormedInstances d (b.child d t.tag) (depth + 1) c
      | .field => b.opens d t.tag = none ∧ c = .nil
      | .dataLen | .data => c = .nil
      | _ => False

/-- The instances of a group. None is empty. -/
def FormedInstances (d : Dictionary) (group : GroupIdx) (depth : Nat) : Forest Token → Prop
  | .nil => True
  | .node t c r =>
    t = Token.inst ∧ c ≠ .nil ∧ Formed d (.inst group) depth true c ∧
      FormedInstances d group depth r

end

/-- The groups that end where a forest ends, innermost first, if `ended` have ended where
it starts. -/
def ends (d : Dictionary) (b : Block) (ended : List GroupIdx) : Forest Token → List GroupIdx
  | .nil => ended
  | .node t c r =>
    match t.kind with
    | .inst => ends d b (ends d b ended c) r
    | .group =>
      let group := b.child d t.tag
      ends d b (if c = .nil then [] else ends d (.inst group) [] c ++ [group]) r
    | _ => ends d b [] r

/-- No field that follows the end of groups belongs to one of them. -/
def Apart (d : Dictionary) (b : Block) (ended : List GroupIdx) : Forest Token → Prop
  | .nil => True
  | .node t c r =>
    match t.kind with
    | .inst => Apart d b ended c ∧ Apart d b (ends d b ended c) r
    | .group =>
      let group := b.child d t.tag
      Avoids d ended t.tag ∧ Apart d (.inst group) [] c ∧
        Apart d b (if c = .nil then [] else ends d (.inst group) [] c ++ [group]) r
    | _ => Avoids d ended t.tag ∧ Apart d b [] r

section

variable {d : Dictionary} {b : Block} {depth : Nat}

/-! ## Fields -/

variable {t : Token}

theorem Token.IsField.ends_node (ht : t.IsField) (ended : List GroupIdx) (c r : Forest Token) :
    ends d b ended (.node t c r) = ends d b [] r := by
  rcases ht with h | h | h <;> simp [ends, h]

variable {c r : Forest Token}

theorem Token.IsField.apart_node (ht : t.IsField) {ended} :
    Apart d b ended (.node t c r) ↔ Avoids d ended t.tag ∧ Apart d b [] r := by
  rcases ht with h | h | h <;> simp [Apart, h]

variable {first : Bool}

theorem Token.IsField.formed_node (ht : t.IsField) :
    Formed d b depth first (.node t c r) ↔
      b.Takes d first t.tag ∧ Formed d b depth false r ∧
        (t.kind = .field → b.opens d t.tag = none) ∧ c = .nil := by
  rcases ht with h | h | h <;> simp [Formed, h]

theorem Formed.node_cases (h : Formed d b depth first (.node t c r)) :
    (t.IsField ∧ c = .nil ∧ (t.kind = .field → b.opens d t.tag = none)) ∨
      (t.kind = .group ∧ (b.opens d t.tag).isSome ∧ parseUint t.value = .ok c.roots.length ∧
        (c ≠ .nil → depth + 1 < 2 ^ 8) ∧ FormedInstances d (b.child d t.tag) (depth + 1) c) := by
  obtain ⟨-, -, hnode⟩ := h
  split at hnode
  · exact .inr ⟨‹_›, hnode⟩
  · exact .inl ⟨.inl ‹_›, hnode.2, fun _ => hnode.1⟩
  · rename_i hkind
    exact .inl ⟨.inr (.inl hkind), hnode, fun h => by rw [hkind] at h; cases h⟩
  · rename_i hkind
    exact .inl ⟨.inr (.inr hkind), hnode, fun h => by rw [hkind] at h; cases h⟩
  · exact hnode.elim

theorem Formed.kind_ne_inst (h : Formed d b depth first (.node t c r)) : t.kind ≠ .inst := by
  rcases h.node_cases with ⟨ht, -⟩ | ⟨hgroup, -⟩
  · rcases ht with h | h | h <;> simp [h]
  · simp [hgroup]

/-! ## Forests one after the other -/

theorem formed_append (f g : Forest Token) :
    Formed d b depth first (f ++ g) ↔
      Formed d b depth first f ∧ Formed d b depth (first && decide (f = .nil)) g := by
  induction f generalizing first with
  | nil => simp [Formed]
  | node t c r _ ih =>
    simp only [Forest.node_append, Formed, ih]
    simp
    tauto

theorem formedInstances_append {group} (f g : Forest Token) :
    FormedInstances d group depth (f ++ g) ↔
      FormedInstances d group depth f ∧ FormedInstances d group depth g := by
  induction f with
  | nil => simp [FormedInstances]
  | node t c r _ ih =>
    simp only [Forest.node_append, FormedInstances, ih]
    tauto

theorem ends_append (ended : List GroupIdx) (f g : Forest Token) :
    ends d b ended (f ++ g) = ends d b (ends d b ended f) g := by
  induction f generalizing ended with
  | nil => rfl
  | node t c r _ ih =>
    simp only [Forest.node_append, ends]
    split <;> exact ih _

theorem apart_append (ended : List GroupIdx) (f g : Forest Token) :
    Apart d b ended (f ++ g) ↔ Apart d b ended f ∧ Apart d b (ends d b ended f) g := by
  induction f generalizing ended with
  | nil => simp [Apart, ends]
  | node t c r _ ih =>
    simp only [Forest.node_append, Apart, ends]
    split <;> simp only [ih, and_assoc]

end

end Babelfix.Tape
