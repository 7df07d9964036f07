import Babelfix.Repo.Compile

/-! # Flattening through components

The tags of a list of elements in definition order: components are replaced by what is in
them, and a group stands for its NumInGroup tag. The members of components, the order of a
group's members and the order of a block are each found by a recursion of its own; all are
folds over this one list, which exists exactly if no component contains itself. -/
namespace Babelfix.Repo

open Lib Relation Tape

/-! ## Hash maps -/

namespace HashMap

variable {κ α : Type} [DecidableEq κ]

variable {k : κ} {a : α}

theorem lookup_eq_some_of_nodup {l : List (κ × α)} (h : (l.map Prod.fst).Nodup) :
    l.lookup k = some a ↔ (k, a) ∈ l := by
  induction l with
  | nil => simp
  | cons x l ih =>
    obtain ⟨k', a'⟩ := x
    rw [List.map_cons, List.nodup_cons] at h
    by_cases hk : k = k'
    · subst hk
      have hnot : (k, a) ∉ l := fun hmem => h.1 (List.mem_map.mpr ⟨_, hmem, rfl⟩)
      simp [hnot, eq_comm]
    · have hne : (k == k') = false := by simpa using hk
      simp [List.lookup_cons, hne, ih h.2, hk]

variable {m : HashMap κ α}

theorem get_eq_some_iff : m.get k = some a ↔ (k, a) ∈ m.entries :=
  lookup_eq_some_of_nodup m.nodup

theorem mem_keys : k ∈ m.keys ↔ (m.get k).isSome := by
  rw [Option.isSome_iff_exists]
  constructor
  · intro h
    obtain ⟨x, hx, rfl⟩ := List.mem_map.mp h
    exact ⟨x.2, get_eq_some_iff.mpr hx⟩
  · intro ⟨a, ha⟩
    exact List.mem_map.mpr ⟨_, get_eq_some_iff.mp ha, rfl⟩

theorem mem_values : a ∈ m.values ↔ ∃ k, m.get k = some a := by
  constructor
  · intro h
    obtain ⟨x, hx, rfl⟩ := List.mem_map.mp h
    exact ⟨x.1, get_eq_some_iff.mpr hx⟩
  · intro ⟨k, ha⟩
    exact List.mem_map.mpr ⟨_, get_eq_some_iff.mp ha, rfl⟩

theorem get_modify (m : HashMap κ α) (k k' : κ) (f : α → α) :
    (m.modify k f).get k' = if k' = k then (m.get k').map f else m.get k' := by
  simp only [get, modify]
  induction m.entries with
  | nil => simp
  | cons x l ih =>
    rw [List.map_cons, List.lookup_cons, List.lookup_cons]
    by_cases hx : x.1 = k
    · rw [if_pos hx]
      by_cases hk : k' = x.1
      · simp [hk, hx]
      · have hne : (k' == x.1) = false := by simpa using hk
        simp only [hne, ih]
    · rw [if_neg hx]
      by_cases hk : k' = x.1
      · have hne : ¬ k' = k := fun heq => hx (by rw [← hk, heq])
        simp [hk, hx]
      · have hne : (k' == x.1) = false := by simpa using hk
        simp only [hne, ih]

end HashMap

namespace FixVersion

/-! ## The flattening -/

def componentName : MessageElement → Option Nat
  | .component ref => some ref.componentId
  | _ => none

def componentDefs (fix : FixVersion) (id : Nat) : Option (List MessageElement) :=
  (fix.getComponent id).map Component.elements

/-- What is in a component that is defined. -/
def inComponents (fix : FixVersion) : MessageElement → Option (List MessageElement) :=
  expand componentName fix.componentDefs

def tagOf (fix : FixVersion) : MessageElement → Option Nat
  | .field ref => some ref.fieldId
  | .component _ => none
  | .group ref => (fix.getGroup ref.groupId).map Group.numInGroupTag

/-- The tags of a list of elements, in definition order. -/
def Flattens (fix : FixVersion) (elements : List MessageElement) (tags : List Nat) : Prop :=
  ∃ out, Unfolds fix.inComponents elements out ∧ tags = out.filterMap fix.tagOf

/-- One component refers to another. -/
def RefersTo (fix : FixVersion) (id id' : Nat) : Prop :=
  ∃ c c', fix.getComponent id = some c ∧ fix.getComponent id' = some c' ∧
    ∃ ref, .component ref ∈ c.elements ∧ ref.componentId = id'

/-- No component contains itself, directly or through others. -/
def ComponentsAcyclic (fix : FixVersion) : Prop := ∀ id, ¬ TransGen fix.RefersTo id id

variable {fix : FixVersion}

theorem stepsTo_eq (fix : FixVersion) : StepsTo componentName fix.componentDefs = fix.RefersTo := by
  funext id id'
  refine propext ⟨?_, ?_⟩
  · intro ⟨elements, hdef, ⟨x, hx, hname⟩, hsome⟩
    obtain ⟨c, hc, rfl⟩ := Option.map_eq_some_iff.mp hdef
    obtain ⟨elements', hdef'⟩ := Option.isSome_iff_exists.mp hsome
    obtain ⟨c', hc', -⟩ := Option.map_eq_some_iff.mp hdef'
    cases x with
    | component ref => exact ⟨c, c', hc, hc', ref, hx, Option.some.inj hname⟩
    | _ => cases hname
  · intro ⟨c, c', hc, hc', ref, hmem, hid⟩
    exact ⟨c.elements, by rw [componentDefs, hc]; rfl, ⟨_, hmem, by rw [componentName, hid]⟩,
      by rw [componentDefs, hc']; rfl⟩

theorem acyclic_iff (fix : FixVersion) : Acyclic componentName fix.componentDefs ↔ fix.ComponentsAcyclic := by
  rw [Acyclic, stepsTo_eq]
  rfl

theorem inComponents_component (fix : FixVersion) (ref : ComponentRef) :
    fix.inComponents (.component ref) = (fix.getComponent ref.componentId).map Component.elements := rfl

theorem inComponents_field (fix : FixVersion) (ref : FieldRef) : fix.inComponents (.field ref) = none := rfl

theorem inComponents_group (fix : FixVersion) (ref : GroupRef) : fix.inComponents (.group ref) = none := rfl

/-- Without cycles every list of elements is flattened, by a recursion no deeper than there
are components. -/
theorem ComponentsAcyclic.unfolds (h : fix.ComponentsAcyclic) (elements : List MessageElement) :
    ∃ out, Unfolds fix.inComponents elements out ∧ ∀ (σ : Type) (visit : σ → MessageElement → σ) (s : σ),
      descend fix.inComponents visit (fix.components.keys.length + 1) elements s =
        some (out.foldl visit s) := by
  refine ((acyclic_iff fix).mpr h).unfolds (fun id hid => ?_) elements
  rw [componentDefs, Option.isSome_map] at hid
  exact HashMap.mem_keys.mpr hid

variable {elements : List MessageElement}

theorem Flattens.unique {tags tags'} (h : fix.Flattens elements tags)
    (h' : fix.Flattens elements tags') : tags = tags' := by
  obtain ⟨out, hout, rfl⟩ := h
  obtain ⟨out', hout', rfl⟩ := h'
  rw [hout.unique hout']

/-! ## The recursions as folds -/

/-- What the recursions do to an element: use its tag, if it has one. -/
def useTag {σ : Type} (fix : FixVersion) (use : σ → Nat → σ) (s : σ) (x : MessageElement) : σ :=
  (fix.tagOf x).elim s (use s)

variable {σ : Type}

theorem foldl_useTag (use : σ → Nat → σ) (out : List MessageElement) (s : σ) :
    out.foldl (fix.useTag use) s = (out.filterMap fix.tagOf).foldl use s := by
  induction out generalizing s with
  | nil => rfl
  | cons x out ih =>
    rw [List.foldl_cons, ih, List.filterMap_cons, useTag]
    cases fix.tagOf x <;> rfl

/-- One element of a recursion that goes through components and uses tags. -/
def useElement {σ : Type} (fix : FixVersion) (use : σ → Nat → σ)
    (inner : List MessageElement → σ → Option σ) (s : σ) : MessageElement → Option σ
  | .field ref => some (use s ref.fieldId)
  | .component ref =>
    match fix.getComponent ref.componentId with
    | some component => inner component.elements s
    | none => some s
  | .group ref =>
    match fix.getGroup ref.groupId with
    | some group => some (use s group.numInGroupTag)
    | none => some s

theorem descend_useTag (use : σ → Nat → σ) {f : Nat → List MessageElement → σ → Option σ}
    (hzero : ∀ elements s, f 0 elements s = none) (hsucc : ∀ fuel elements s,
      f (fuel + 1) elements s = elements.foldlM (fix.useElement use (f fuel)) s) (fuel : Nat)
    (elements : List MessageElement) (s : σ) :
    f fuel elements s = descend fix.inComponents (fix.useTag use) fuel elements s := by
  induction fuel generalizing elements s with
  | zero => exact hzero elements s
  | succ fuel ih =>
    rw [hsucc, descend]
    congr 1
    funext s x
    cases x with
    | field ref => rfl
    | component ref =>
      rw [inComponents_component, useElement]
      cases fix.getComponent ref.componentId with
      | none => rfl
      | some component => exact ih _ _
    | group ref =>
      rw [inComponents_group, useElement]
      simp only [useTag, tagOf]
      cases fix.getGroup ref.groupId <;> rfl

theorem collectMembersFromElements_eq (fix : FixVersion) (fuel : Nat) (elements : List MessageElement)
    (members : List Nat) :
    fix.collectMembersFromElements fuel elements members =
      descend fix.inComponents (fix.useTag fun ms tag => ms.insert tag) fuel elements members :=
  descend_useTag _ (fun _ _ => rfl) (fun _ _ _ => rfl) fuel elements members

theorem memberOrder_eq (fix : FixVersion) (fuel : Nat) (elements : List MessageElement) (out : List Nat) :
    fix.memberOrder fuel elements out =
      descend fix.inComponents (fix.useTag fun out tag => out ++ [tag]) fuel elements out :=
  descend_useTag _ (fun _ _ => rfl) (fun _ _ _ => rfl) fuel elements out

theorem orderWalk_eq (fix : FixVersion) (fuel : Nat) (elements : List MessageElement) (out : Order) :
    fix.orderWalk fuel elements out =
      descend fix.inComponents (fix.useTag Order.orInsert) fuel elements out :=
  descend_useTag _ (fun _ _ => rfl) (fun _ _ _ => rfl) fuel elements out

variable {fuel : Nat}

theorem descend_useTag_eq_some {use : σ → Nat → σ} {s t : σ}
    (h : descend fix.inComponents (fix.useTag use) fuel elements s = some t) :
    ∃ tags, fix.Flattens elements tags ∧ t = tags.foldl use s := by
  obtain ⟨out, hout, rfl⟩ := descend_eq_some h
  exact ⟨_, ⟨out, hout, rfl⟩, foldl_useTag use out s⟩

theorem mem_collectMembersFromElements {ms ms'}
    (h : fix.collectMembersFromElements fuel elements ms = some ms') :
    ∃ tags, fix.Flattens elements tags ∧ ∀ tag, tag ∈ ms' ↔ tag ∈ ms ∨ tag ∈ tags := by
  rw [collectMembersFromElements_eq] at h
  obtain ⟨tags, htags, rfl⟩ := descend_useTag_eq_some h
  refine ⟨tags, htags, fun tag => ?_⟩
  clear h htags
  induction tags generalizing ms with
  | nil => simp
  | cons x tags ih =>
    rw [List.foldl_cons, ih, List.mem_insert_iff, List.mem_cons]
    tauto

theorem memberOrder_eq_some {order} (h : fix.memberOrder fuel elements [] = some order) :
    fix.Flattens elements order := by
  rw [memberOrder_eq] at h
  obtain ⟨tags, htags, rfl⟩ := descend_useTag_eq_some h
  have happend : ∀ (tags out : List Nat), tags.foldl (fun out tag => out ++ [tag]) out = out ++ tags := by
    intro tags
    induction tags with
    | nil => simp
    | cons x tags ih => simp [ih]
  rw [happend, List.nil_append]
  exact htags

end FixVersion

end Babelfix.Repo
