import Babelfix.Repo.Agree

/-! # The fields of a block

The fields of a message, component or group in the order of the document, those inside
its groups included. The flattening goes into groups as well as components, so it ends
where neither contain each other. It puts a group's id where the number of its instances
belongs, and the field it then looks up is the right one only if the two are the same. -/
namespace Babelfix.Repo.FixVersion

open Lib

variable {fix : FixVersion}

/-! ## References -/

/-- What a component or group is referred to by. -/
inductive RefName where
  | component (id : Nat)
  | group (id : Nat)
  deriving DecidableEq, Repr

def refName : MessageElement → Option RefName
  | .field _ => none
  | .component ref => some (.component ref.componentId)
  | .group ref => some (.group ref.groupId)

def refDefs (fix : FixVersion) : RefName → Option (List MessageElement)
  | .component id => (fix.getComponent id).map Component.elements
  | .group id => (fix.getGroup id).map Group.elements

/-- No component or group contains itself, directly or through others. -/
def ReferencesAcyclic (fix : FixVersion) : Prop := Acyclic refName fix.refDefs

/-- The elements that an element stands for. -/
def inReferences (fix : FixVersion) : MessageElement → Option (List MessageElement) :=
  expand refName fix.refDefs

theorem refDefs_names {a} (h : (fix.refDefs a).isSome) :
    a ∈ fix.components.keys.map .component ++ fix.groups.keys.map .group := by
  cases a with
  | component id =>
    rw [refDefs, Option.isSome_map] at h
    exact List.mem_append_left _ (List.mem_map_of_mem (HashMap.mem_keys.mpr h))
  | group id =>
    rw [refDefs, Option.isSome_map] at h
    exact List.mem_append_right _ (List.mem_map_of_mem (HashMap.mem_keys.mpr h))

/-- The elements of a message, component or group. -/
inductive Block (fix : FixVersion) : List MessageElement → Prop
  | message {m : Message} (hm : m ∈ fix.messages.values) : Block fix m.elements
  | component {id : Nat} {c : Component} (hc : fix.getComponent id = some c) : Block fix c.elements
  | group {id : Nat} {g : Group} (hg : fix.getGroup id = some g) : Block fix g.elements

/-- What an element refers to is there. -/
def Defined (fix : FixVersion) : MessageElement → Prop
  | .field ref => (fix.getField ref.fieldId).isSome
  | .component ref => (fix.getComponent ref.componentId).isSome
  | .group ref => ∃ g, fix.getGroup ref.groupId = some g ∧ (fix.getField g.numInGroupTag).isSome

/-- Everything that is referred to is there. -/
def WellReferenced (fix : FixVersion) : Prop :=
  ∀ elements, fix.Block elements → ∀ x ∈ elements, fix.Defined x

/-- The fields of a list of elements in document order: a component stands for its
fields, a group for the number of its instances and then its fields. -/
inductive Lists (fix : FixVersion) : List MessageElement → List Field → Prop
  | nil : Lists fix [] []
  | field {ref : FieldRef} {f : Field} {rest : List MessageElement} {fields : List Field}
      (hf : fix.getField ref.fieldId = some f) (hrest : Lists fix rest fields) :
      Lists fix (.field ref :: rest) (f :: fields)
  | component {ref : ComponentRef} {c : Component} {rest : List MessageElement} {inner fields : List Field}
      (hc : fix.getComponent ref.componentId = some c) (hinner : Lists fix c.elements inner)
      (hrest : Lists fix rest fields) : Lists fix (.component ref :: rest) (inner ++ fields)
  | group {ref : GroupRef} {g : Group} {f : Field} {rest : List MessageElement} {inner fields : List Field}
      (hg : fix.getGroup ref.groupId = some g) (hf : fix.getField g.numInGroupTag = some f)
      (hinner : Lists fix g.elements inner) (hrest : Lists fix rest fields) :
      Lists fix (.group ref :: rest) (f :: (inner ++ fields))

/-- A group that a list of elements contains, at any depth. -/
def HasGroup (fix : FixVersion) (elements : List MessageElement) (g : Group) : Prop :=
  ∃ out ref, Unfolds fix.inReferences elements out ∧ .group ref ∈ out ∧ fix.getGroup ref.groupId = some g

/-! ## The flattening is a fold -/

def pushes (fix : FixVersion) : MessageElement → Option FieldRef
  | .field ref => some ref
  | .component _ => none
  | .group ref => (fix.getGroup ref.groupId).map fun g => ⟨g.id, g.required⟩

def push (fix : FixVersion) (refs : List FieldRef) (x : MessageElement) : List FieldRef :=
  refs ++ (fix.pushes x).toList

theorem foldl_push (out : List MessageElement) (refs : List FieldRef) :
    out.foldl fix.push refs = refs ++ out.filterMap fix.pushes := by
  induction out generalizing refs with
  | nil => simp
  | cons x out ih =>
    rw [List.foldl_cons, ih, push, List.filterMap_cons]
    cases fix.pushes x <;> simp

theorem inReferences_component (ref : ComponentRef) : fix.inReferences (.component ref) =
    (fix.getComponent ref.componentId).map Component.elements := rfl

theorem inReferences_group (ref : GroupRef) : fix.inReferences (.group ref) =
    (fix.getGroup ref.groupId).map Group.elements := rfl

theorem push_none {refs x} (h : fix.pushes x = none) : fix.push refs x = refs := by
  rw [push, h]
  exact List.append_nil refs

theorem flattenElements_eq (fix : FixVersion) (fuel : Nat) (elements : List MessageElement)
    (refs : List FieldRef) :
    fix.flattenElements none fuel elements refs = descend fix.inReferences fix.push fuel elements refs := by
  induction fuel generalizing elements refs with
  | zero => rfl
  | succ fuel ih =>
    rw [flattenElements]
    induction elements generalizing refs with
    | nil => rfl
    | cons x elements ihlist =>
      rw [descend_cons]
      have hrest := funext ihlist
      cases x with
      | field ref =>
        exact ihlist _
      | component ref =>
        rw [flattenLoop, inReferences_component, push_none rfl]
        cases hc : fix.getComponent ref.componentId with
        | none => exact ihlist refs
        | some c =>
          simp only [Option.map_some, ih, hrest]
      | group ref =>
        rw [flattenLoop, inReferences_group]
        cases hg : fix.getGroup ref.groupId with
        | none =>
          rw [push_none (by rw [pushes, hg]; rfl)]
          exact ihlist refs
        | some g =>
          have hpush : fix.push refs (.group ref) = refs ++ [⟨g.id, g.required⟩] := by
            rw [push, pushes, hg]
            rfl
          simp only [Option.map_some, Option.any_none, Bool.false_eq_true, if_false, ih, hrest, hpush]

variable {elements : List MessageElement}

theorem getFields_eq_some {fuel r} (h : fix.getFields fuel elements = some r) :
    ∃ out, Unfolds fix.inReferences elements out ∧
      r = (out.filterMap fix.pushes).mapM fun ref => fix.fields.get ref.fieldId := by
  obtain ⟨refs, hrefs, rfl⟩ := Option.map_eq_some_iff.mp h
  rw [flattenElements_eq] at hrefs
  obtain ⟨out, hout, rfl⟩ := descend_eq_some hrefs
  exact ⟨out, hout, by rw [foldl_push, List.nil_append]⟩

theorem ReferencesAcyclic.getFields (h : fix.ReferencesAcyclic) (elements : List MessageElement) :
    ∃ fuel out, Unfolds fix.inReferences elements out ∧ fix.getFields fuel elements =
      some ((out.filterMap fix.pushes).mapM fun ref => fix.fields.get ref.fieldId) := by
  obtain ⟨out, hout, hgo⟩ := Acyclic.unfolds h (fun _ => refDefs_names) elements
  have hrun := hgo _ fix.push []
  rw [foldl_push, List.nil_append] at hrun
  exact ⟨_, out, hout, congrArg (Option.map _) ((fix.flattenElements_eq _ elements []).trans hrun)⟩

/-! ## The fields in document order -/

/-- The field of an element, as the document has it. -/
def fieldOf (fix : FixVersion) : MessageElement → Option Field
  | .field ref => fix.getField ref.fieldId
  | .component _ => none
  | .group ref => (fix.getGroup ref.groupId).bind fun g => fix.getField g.numInGroupTag

theorem Lists.unique {fields fields'} (h : fix.Lists elements fields)
    (h' : fix.Lists elements fields') : fields = fields' := by
  induction h generalizing fields' with
  | nil =>
    cases h'
    rfl
  | field hf _ ih =>
    cases h' with
    | field hf' hrest =>
      rw [hf] at hf'
      rw [Option.some.inj hf', ih hrest]
  | component hc _ _ ihinner ih =>
    cases h' with
    | component hc' hinner hrest =>
      rw [hc] at hc'
      obtain rfl := Option.some.inj hc'
      rw [ihinner hinner, ih hrest]
  | group hg hf _ _ ihinner ih =>
    cases h' with
    | group hg' hf' hinner hrest =>
      rw [hg] at hg'
      obtain rfl := Option.some.inj hg'
      rw [hf] at hf'
      rw [Option.some.inj hf', ihinner hinner, ih hrest]

variable {out : List MessageElement}

/-- Where everything is defined the listing is read off what is unfolded. -/
theorem lists_of_unfolds (h : Unfolds fix.inReferences elements out) (hdefined : ∀ x ∈ out, fix.Defined x) :
    fix.Lists elements (out.filterMap fix.fieldOf) := by
  induction h with
  | nil => exact .nil
  | @leaf x elements out hx _ ih =>
    have hrest := ih fun y hy => hdefined y (List.mem_cons_of_mem _ hy)
    have hself := hdefined x List.mem_cons_self
    cases x with
    | field ref =>
      obtain ⟨f, hf⟩ := Option.isSome_iff_exists.mp hself
      have hfield : fix.fieldOf (.field ref) = some f := hf
      rw [List.filterMap_cons_some hfield]
      exact .field hf hrest
    | component ref =>
      obtain ⟨c, hc⟩ := Option.isSome_iff_exists.mp hself
      rw [inReferences_component, hc] at hx
      cases hx
    | group ref =>
      obtain ⟨g, hg, -⟩ := hself
      rw [inReferences_group, hg] at hx
      cases hx
  | @node x ys inner elements out hx _ _ ihinner ih =>
    have hrest := ih fun y hy => hdefined y (List.mem_cons_of_mem _ (List.mem_append_right _ hy))
    have hin := ihinner fun y hy => hdefined y (List.mem_cons_of_mem _ (List.mem_append_left _ hy))
    have hself := hdefined x List.mem_cons_self
    cases x with
    | field ref => cases hx
    | component ref =>
      obtain ⟨c, hc, rfl⟩ := Option.map_eq_some_iff.mp hx
      rw [List.filterMap_cons_none rfl, List.filterMap_append]
      exact .component hc hin hrest
    | group ref =>
      obtain ⟨g, hg, hnum⟩ := hself
      obtain ⟨f, hf⟩ := Option.isSome_iff_exists.mp hnum
      rw [inReferences_group, hg] at hx
      obtain rfl := Option.some.inj hx
      have hfield : fix.fieldOf (.group ref) = some f := by rw [fieldOf, hg]; exact hf
      rw [List.filterMap_cons_some hfield, List.filterMap_append]
      exact .group hg hf hin hrest

theorem mapM_cons_iff {α β : Type} {f : α → Option β} {a : α} {l : List α} {b : β} {l' : List β} :
    (a :: l).mapM f = some (b :: l') ↔ f a = some b ∧ l.mapM f = some l' := by
  rw [List.mapM_cons]
  cases hfa : f a with
  | none => simp
  | some c =>
    cases hl : l.mapM f with
    | none => simp
    | some l'' => simp

/-- What is looked up for the pushed references is what the document has exactly if each
group's id looks up the same as its number of instances. -/
theorem mapM_pushes_iff (hdefined : ∀ x ∈ out, fix.Defined x) :
    ((out.filterMap fix.pushes).mapM fun ref => fix.fields.get ref.fieldId) =
        some (out.filterMap fix.fieldOf) ↔
      ∀ ref, .group ref ∈ out → ∀ g, fix.getGroup ref.groupId = some g →
        fix.getField g.id = fix.getField g.numInGroupTag := by
  induction out with
  | nil => simp
  | cons x out ih =>
    have hrest := ih fun y hy => hdefined y (List.mem_cons_of_mem _ hy)
    have hself := hdefined x List.mem_cons_self
    cases x with
    | field ref =>
      obtain ⟨f, hf⟩ := Option.isSome_iff_exists.mp hself
      have hpush : fix.pushes (.field ref) = some ref := rfl
      have hfield : fix.fieldOf (.field ref) = some f := hf
      rw [List.filterMap_cons_some hpush, List.filterMap_cons_some hfield, mapM_cons_iff, hrest]
      simp only [List.mem_cons, reduceCtorEq, false_or]
      exact ⟨fun h => h.2, fun h => ⟨hf, h⟩⟩
    | component ref =>
      have hpush : fix.pushes (.component ref) = none := rfl
      have hfield : fix.fieldOf (.component ref) = none := rfl
      rw [List.filterMap_cons_none hpush, List.filterMap_cons_none hfield, hrest]
      simp only [List.mem_cons, reduceCtorEq, false_or]
    | group ref =>
      obtain ⟨g, hg, hnum⟩ := hself
      obtain ⟨f, hf⟩ := Option.isSome_iff_exists.mp hnum
      have hpush : fix.pushes (.group ref) = some ⟨g.id, g.required⟩ := by rw [pushes, hg]; rfl
      have hfield : fix.fieldOf (.group ref) = some f := by rw [fieldOf, hg]; exact hf
      rw [List.filterMap_cons_some hpush, List.filterMap_cons_some hfield, mapM_cons_iff, hrest]
      constructor
      · intro ⟨hid, hall⟩ ref' hmem g' hg'
        rcases List.mem_cons.mp hmem with heq | hmem
        · cases heq
          rw [hg] at hg'
          cases hg'
          exact hid.trans hf.symm
        · exact hall ref' hmem g' hg'
      · intro hall
        exact ⟨(hall ref List.mem_cons_self g hg).trans hf,
          fun ref' hmem => hall ref' (List.mem_cons_of_mem _ hmem)⟩

theorem WellReferenced.defined (h : fix.WellReferenced) (hblock : fix.Block elements)
    (hout : Unfolds fix.inReferences elements out) :
    ∀ x ∈ out, fix.Defined x := by
  refine hout.forall_mem (h elements hblock) ?_
  intro x ys hx
  refine h ys ?_
  cases x with
  | field ref => cases hx
  | component ref =>
    obtain ⟨c, hc, rfl⟩ := Option.map_eq_some_iff.mp hx
    exact .component hc
  | group ref =>
    obtain ⟨g, hg, rfl⟩ := Option.map_eq_some_iff.mp hx
    exact .group hg

/-- **The fields of a block are those of the document** exactly if every group in it is
identified by the field that counts its instances. -/
theorem getFields_iff (fix : FixVersion) (hacyclic : fix.ReferencesAcyclic) (hwell : fix.WellReferenced)
    {elements : List MessageElement} (hblock : fix.Block elements) :
    (∃ fuel fields, fix.getFields fuel elements = some (some fields) ∧ fix.Lists elements fields) ↔
      ∀ g, fix.HasGroup elements g → fix.getField g.id = fix.getField g.numInGroupTag := by
  constructor
  · intro ⟨fuel, fields, hrun, hlists⟩ g ⟨out, ref, hout, hmem, hg⟩
    obtain ⟨out', hout', hfields⟩ := getFields_eq_some hrun
    rw [hout'.unique hout] at hfields
    have hdefined := hwell.defined hblock hout
    rw [hlists.unique (lists_of_unfolds hout hdefined)] at hfields
    exact (mapM_pushes_iff hdefined).mp hfields.symm ref hmem g hg
  · intro hall
    obtain ⟨fuel, out, hout, hrun⟩ := hacyclic.getFields elements
    have hdefined := hwell.defined hblock hout
    have hfields := (mapM_pushes_iff hdefined).mpr fun ref hmem g hg => hall g ⟨out, ref, hout, hmem, hg⟩
    rw [hfields] at hrun
    exact ⟨fuel, _, hrun, lists_of_unfolds hout hdefined⟩

/-- A repository with one group. -/
def parties (id : Nat) : FixVersion where
  beginString := "FIX.4.4"
  fields := ⟨[(453, ⟨453, "NoPartyIDs", "NumInGroup", none, none⟩),
    (448, ⟨448, "PartyID", "String", none, none⟩)], by decide⟩
  components := ⟨[], by decide⟩
  groups := ⟨[(id, ⟨id, "Parties", false, 453, [.field ⟨448, false⟩], []⟩)], by simp⟩
  messages := ⟨[("D", ⟨"NewOrderSingle", "D", [.group ⟨id, false⟩]⟩)], by simp⟩

theorem parties_acyclic (id : Nat) : (parties id).ReferencesAcyclic := by
  refine acyclic_of_unfolds fun a ys hys => ?_
  cases a with
  | component id => cases hys
  | group id =>
    obtain ⟨g, hg, rfl⟩ := Option.map_eq_some_iff.mp hys
    have hmem := List.mem_singleton.mp (HashMap.get_eq_some_iff.mp hg)
    cases hmem
    exact ⟨[.field ⟨448, false⟩], .leaf rfl .nil⟩

theorem parties_wellReferenced (id : Nat) : (parties id).WellReferenced := by
  intro elements hblock x hx
  cases hblock with
  | message hm =>
    cases List.mem_singleton.mp hm
    cases List.mem_singleton.mp hx
    exact ⟨_, HashMap.get_eq_some_iff.mpr (List.mem_singleton.mpr rfl), rfl⟩
  | component hc => cases hc
  | group hg =>
    cases List.mem_singleton.mp (HashMap.get_eq_some_iff.mp hg)
    cases List.mem_singleton.mp hx
    rfl

theorem parties_block (id : Nat) : (parties id).Block [.group ⟨id, false⟩] :=
  .message (m := ⟨"NewOrderSingle", "D", [.group ⟨id, false⟩]⟩) (List.mem_singleton.mpr rfl)

/-- With the number of its NumInGroup field as its id the group is listed. -/
theorem getFields_parties_iff : ∃ fuel fields,
    (parties 453).getFields fuel [.group ⟨453, false⟩] = some (some fields) ∧
      (parties 453).Lists [.group ⟨453, false⟩] fields := by
  refine (getFields_iff (parties 453) (parties_acyclic _) (parties_wellReferenced _)
    (parties_block _)).mpr fun g ⟨out, ref, _, _, hg⟩ => ?_
  obtain ⟨-, rfl⟩ := Prod.mk.inj (List.mem_singleton.mp (HashMap.get_eq_some_iff.mp hg))
  rfl

/-- Everything is there and nothing contains itself, and looking up the fields panics. -/
theorem getFields_parties : (parties 1012).ReferencesAcyclic ∧ (parties 1012).WellReferenced ∧
    (parties 1012).Block [.group ⟨1012, false⟩] ∧
    (∃ fields, (parties 1012).Lists [.group ⟨1012, false⟩] fields) ∧
    ∀ fuel, (parties 1012).getFields (fuel + 2) [.group ⟨1012, false⟩] = some none :=
  ⟨parties_acyclic _, parties_wellReferenced _, parties_block _,
    ⟨_, .group rfl rfl (.field rfl .nil) .nil⟩, fun _ => rfl⟩

end Babelfix.Repo.FixVersion
