import Babelfix.Repo.Dictionary
import Babelfix.Tape.Pairing

/-! # Where the traversals agree

The repository and the dictionary go through the same definitions on their own: members
are collected into sets, listed in order, and the first of them looked for. They come to
an end on the same repositories and find the same members; the search for the first
field differs where a component turns out to be empty. -/
namespace Babelfix.Repo

open Lib Tape

variable {fix : FixVersion}

/-! ## The groups a dictionary was compiled from -/

/-- The groups that have slots, in the order of the slots. Groups stored under an id
that is not their own may share one, and then only the first is compiled. -/
structure FixVersion.SourcesOf (fix : FixVersion) (sources : List Group) (d : Dictionary) : Prop where
  once : (sources.map Group.id).Nodup
  stored : ∀ g ∈ sources, ∃ id, fix.getGroup id = some g
  header : ∀ groups, fix.Groups (Builder.headerElements fix) groups → ∀ g ∈ groups,
    g.id ∈ sources.map Group.id
  message : ∀ m ∈ fix.messages.values, ∀ groups, fix.Groups m.elements groups → ∀ g ∈ groups,
    g.id ∈ sources.map Group.id
  nested : ∀ h ∈ sources, ∀ groups, fix.Groups h.elements groups → ∀ g ∈ groups,
    g.id ∈ sources.map Group.id
  groups : List.Forall₂ (fun g def' => ∃ tags, fix.Flattens g.elements tags ∧
    def'.numInGroup = g.numInGroupTag ∧ def'.delimiter = tags.head?.getD 0 ∧
    def'.members = Builder.positions tags) sources d.groups

namespace Builder

theorem Valid.id_mem {b : Builder} {sources} (h : b.Valid fix sources []) {elements groups groups'}
    (hgroups : fix.Groups elements groups) (hgroups' : fix.Groups elements groups')
    (hsome : ∀ g ∈ groups', (b.slot g).isSome) {g} (hg : g ∈ groups) :
    g.id ∈ sources.map Group.id := by
  rw [hgroups.unique hgroups'] at hg
  obtain ⟨i, hi⟩ := Option.isSome_iff_exists.mp (hsome g hg)
  obtain ⟨g', hg', hid⟩ := h.of_slot g.id i hi
  exact List.mem_map.mpr ⟨g', List.mem_of_getElem? hg', hid⟩

theorem build_sourcesOf {fuel d} (hrun : build fix fuel = some d) :
    ∃ sources, fix.SourcesOf sources d := by
  obtain ⟨c, ⟨⟨sources, hvalid⟩, hmessages, -⟩, hheader, hgroups, -⟩ := build_eq_some hrun
  refine ⟨sources, hvalid.once, hvalid.stored, ?_, ?_, ?_, ?_⟩
  · intro groups hof g hg
    obtain ⟨groups', hgroups', -, hsome⟩ := hheader.groups
    exact hvalid.id_mem hof hgroups' hsome hg
  · intro m hm groups hof g hg
    obtain ⟨table, -, htable⟩ := hmessages.exists_of_mem (mem_sortedMessages.mpr hm)
    obtain ⟨groups', hgroups', -, hsome⟩ := htable.groups
    exact hvalid.id_mem hof hgroups' hsome hg
  · intro h hh groups hof g hg
    obtain ⟨i, hi⟩ := List.mem_iff_getElem?.mp hh
    obtain ⟨def', -, hcompiled⟩ := hvalid.compiled i h hi List.not_mem_nil
    obtain ⟨groups', hgroups', hsome, -⟩ := hcompiled.nested
    exact hvalid.id_mem hof hgroups' hsome hg
  · rw [hgroups, List.forall₂_iff_get]
    refine ⟨hvalid.length.symm, fun i hi hi' => ?_⟩
    obtain ⟨def', hdef, hcompiled⟩ :=
      hvalid.compiled i sources[i] (List.getElem?_eq_getElem hi) List.not_mem_nil
    rw [List.getElem?_eq_getElem hi'] at hdef
    obtain ⟨tags, hflat, hdelimiter, hmembers⟩ := hcompiled.order
    rw [List.get_eq_getElem, List.get_eq_getElem, Option.some.inj hdef]
    exact ⟨tags, hflat, hcompiled.numInGroup, hdelimiter, hmembers⟩

/-- The keys of a group's members are the tags of its elements. -/
theorem mem_positions {tags tag} : ((positions tags).get tag).isSome ↔ tag ∈ tags := by
  rw [get_positions, Option.isSome_map, Option.isSome_iff_ne_none, ne_eq, List.idxOf?_eq_none_iff, not_not]

/-- **A compiled dictionary only names what it has.** -/
theorem build_compiled {fuel d} (hrun : build fix fuel = some d) : d.Compiled := by
  obtain ⟨c, ⟨⟨sources, hvalid⟩, hmessages, hnotes, htypes⟩, hheader, hgroups, hdefs, hglobal, hbyType⟩ :=
    build_eq_some hrun
  have hslot {table groups tag g} (hmaps : c.builder.Maps table groups)
      (hget : TagMap.get table tag = some g) : g < d.groups.length := by
    rw [hmaps] at hget
    obtain ⟨_, -, hslot⟩ := Option.bind_eq_some_iff.mp hget
    obtain ⟨_, hg, -⟩ := hvalid.of_slot _ _ hslot
    rw [hgroups, hvalid.length]
    exact (List.getElem?_eq_some_iff.mp hg).1
  have hmessage {def' : MessageDef} {tag g} (hdef : def' ∈ d.messages)
      (hget : def'.groups.get tag = some g) : g < d.groups.length := by
    obtain ⟨_, -, htable⟩ := hmessages.flip.exists_of_mem (hdefs ▸ hdef)
    obtain ⟨_, -, hmaps, -⟩ := htable.groups
    exact hslot hmaps hget
  have hcompiled {g} (hg : g < d.groups.length) : ∃ h, c.builder.CompiledAs fix h (d.group g) := by
    rw [hgroups, hvalid.length] at hg
    obtain ⟨def', hdef, h⟩ := hvalid.compiled g _ (List.getElem?_eq_getElem hg) List.not_mem_nil
    rw [Dictionary.group, hgroups, hdef]
    exact ⟨_, h⟩
  refine ⟨fun {msg header tag g} hget => ?_, fun {outer tag g} hget => ?_, fun {msgType m} hget => ?_,
    fun {g} hg hne => ?_⟩
  · unfold Dictionary.topLevelGroup at hget
    split at hget
    · obtain ⟨_, -, hmaps, -⟩ := hheader.groups
      exact hslot hmaps hget
    split at hget
    · rename_i hbody
      cases hget
      obtain ⟨_, -, hbody⟩ := Option.bind_eq_some_iff.mp hbody
      obtain ⟨def', hdef, hbody⟩ := Option.bind_eq_some_iff.mp hbody
      exact hmessage (List.mem_of_getElem? hdef) hbody
    · have hkeys : ∀ table ∈ c.messages, (table.groups.map Prod.fst).Nodup := fun table htable => by
        obtain ⟨_, -, hm⟩ := hmessages.flip.exists_of_mem htable
        exact hm.keys
      rw [hglobal, hnotes.global hkeys] at hget
      obtain ⟨⟨table, htable, hsome⟩, hall⟩ := hget
      obtain ⟨i, hi⟩ := Option.isSome_iff_exists.mp hsome
      exact hall table htable i hi ▸ hmessage (hdefs ▸ htable) hi
  · by_cases hlt : outer < d.groups.length
    · obtain ⟨_, h⟩ := hcompiled hlt
      obtain ⟨_, -, -, hmaps⟩ := h.nested
      exact hslot hmaps hget
    · rw [Dictionary.nestedGroup, Dictionary.group, List.getElem?_eq_none (Nat.le_of_not_lt hlt)] at hget
      cases hget
  · rw [Dictionary.message, hbyType, List.lookup_eq_some_iff] at hget
    obtain ⟨_, _, hsplit, -⟩ := hget
    rw [hdefs]
    exact htypes (msgType, m) (by simp [hsplit])
  · obtain ⟨_, h⟩ := hcompiled hg
    obtain ⟨tags, -, hdelimiter, hmembers⟩ := h.order
    rw [hdelimiter] at hne
    rw [hmembers, mem_positions, hdelimiter]
    cases tags with
    | nil => exact absurd rfl hne
    | cons tag tags => exact List.mem_cons_self

end Builder

/-! ## Members -/

namespace FixVersion

theorem SameElements.componentsAcyclic {fix'} (h : fix.SameElements fix')
    (hacyclic : fix.ComponentsAcyclic) : fix'.ComponentsAcyclic := by
  have hdefs : fix'.componentDefs = fix.componentDefs := funext h.components
  rw [← acyclic_iff] at hacyclic ⊢
  rw [hdefs]
  exact hacyclic

theorem ComponentsAcyclic.flattens (h : fix.ComponentsAcyclic) (elements : List MessageElement) :
    ∃ tags, fix.Flattens elements tags := by
  obtain ⟨out, hout, -⟩ := h.unfolds elements
  exact ⟨_, out, hout, rfl⟩

variable {tags : List Nat}

/-- **Members are computed alike**: what a component has as members, what a message has
when asked and what a group's slot lists is what their elements flatten to. -/
theorem members_agree (fix : FixVersion) (hacyclic : fix.ComponentsAcyclic) :
    (∃ fuel fix', fix.computeMemberSets fuel = some fix') ∧
      ∀ fuel fix', fix.computeMemberSets fuel = some fix' → fix.SameElements fix' ∧
        (∀ id c, fix'.getComponent id = some c →
          ∃ tags, fix'.Flattens c.elements tags ∧ ∀ tag, tag ∈ c.members ↔ tag ∈ tags) ∧
        (∀ m ∈ fix'.messages.values,
          ∃ tags, fix'.Flattens m.elements tags ∧
            ∀ tag, fix'.isMemberSlow m.elements tag = true ↔ tag ∈ tags) ∧
        (∃ fuel d, Builder.build fix' fuel = some d) ∧
        ∀ fuel d, Builder.build fix' fuel = some d → ∃ sources, fix'.SourcesOf sources d ∧
          List.Forall₂ (fun g def' => ∀ tag,
            tag ∈ g.members ↔ tag = g.numInGroupTag ∨ (def'.members.get tag).isSome) sources d.groups := by
  refine ⟨⟨_, hacyclic.computeMemberSets⟩, ?_⟩
  intro fuel fix' hrun
  obtain ⟨hsame, hmembers⟩ := computeMemberSets_spec hrun
  have hacyclic' := hsame.componentsAcyclic hacyclic
  refine ⟨hsame, hmembers.component, ?_, ⟨_, Builder.build_returns hacyclic'⟩, ?_⟩
  · intro m _
    obtain ⟨tags, hflat⟩ := hacyclic'.flattens m.elements
    exact ⟨tags, hflat, hmembers.isMemberSlow_iff hflat⟩
  · intro fuel d hbuild
    obtain ⟨sources, hsources⟩ := Builder.build_sourcesOf hbuild
    refine ⟨sources, hsources, ?_⟩
    obtain ⟨hlength, hgroups⟩ := List.forall₂_iff_get.mp hsources.groups
    refine List.forall₂_iff_get.mpr ⟨hlength, fun i hi hi' tag => ?_⟩
    obtain ⟨tags, hflat, -, -, hpositions⟩ := hgroups i hi hi'
    obtain ⟨id, hid⟩ := hsources.stored _ (List.get_mem sources ⟨i, hi⟩)
    obtain ⟨tags', hflat', hmem⟩ := hmembers.group id _ hid
    rw [hmem tag, hflat'.unique hflat, hpositions, Builder.mem_positions]

theorem members_agree_crossed : ∃ fix' c, crossed.computeMemberSets 4 = some fix' ∧
    fix'.getComponent 12 = some c ∧ c.members = [453] ∧
    ∃ tags, fix'.Flattens c.elements tags ∧ ∀ tag, tag ∈ [453] ↔ tag ∈ tags := by
  obtain ⟨-, hall⟩ := members_agree crossed crossed_acyclic
  obtain ⟨-, hcomponent, -⟩ := hall 4 _ rfl
  exact ⟨_, _, rfl, rfl, rfl, hcomponent 12 _ rfl⟩

/-! ## Where loading ends -/

theorem ComponentsAcyclic.blockOrder (h : fix.ComponentsAcyclic) (elements : List MessageElement) :
    ∃ order, fix.blockOrder (fix.components.keys.length + 1) elements = some order := by
  obtain ⟨out, -, hgo⟩ := h.unfolds elements
  exact ⟨_, (fix.orderWalk_eq _ elements []).trans (hgo _ _ [])⟩

/-- **Loading ends exactly where components do not contain each other**: the recursions go
where references lead and do not remember where they have been. -/
theorem loading_returns_iff (fix : FixVersion) :
    ((∃ fuel fix', fix.computeMemberSets fuel = some fix') ∧
      (∃ fuel d, Builder.build fix fuel = some d) ∧
      ∀ elements, ∃ fuel order, fix.blockOrder fuel elements = some order) ↔ fix.ComponentsAcyclic := by
  constructor
  · intro ⟨hmembers, _⟩
    exact computeMemberSets_returns_iff.mp hmembers
  · intro hacyclic
    exact ⟨⟨_, hacyclic.computeMemberSets⟩, ⟨_, Builder.build_returns hacyclic⟩,
      fun elements => ⟨_, hacyclic.blockOrder elements⟩⟩

/-- A repository with a component that contains itself, and a message made of it. -/
def looped : FixVersion where
  beginString := "FIX.4.4"
  fields := ⟨[], by decide⟩
  components := ⟨[(1, ⟨1, "Loop", [.component ⟨1, false⟩], []⟩)], by decide⟩
  groups := ⟨[], by decide⟩
  messages := ⟨[("D", ⟨"NewOrderSingle", "D", [.component ⟨1, false⟩]⟩)], by decide⟩

theorem looped_collectGroups (fuel : Nat) (s : Builder × TagMap GroupIdx) :
    Builder.collectGroups looped fuel [.component ⟨1, false⟩] s = none := by
  induction fuel with
  | zero => rfl
  | succ fuel ih =>
    rw [Builder.collectGroups_component (c := ⟨1, "Loop", [.component ⟨1, false⟩], []⟩) rfl, ih]
    rfl

theorem looped_descend {σ : Type} (visit : σ → MessageElement → σ) (fuel : Nat) (s : σ) :
    descend looped.inComponents visit fuel [.component ⟨1, false⟩] s = none := by
  induction fuel generalizing s with
  | zero => rfl
  | succ fuel ih =>
    exact congrArg (Option.bind · _) (ih _)

/-- None of the three ends on it. -/
theorem looped_loading :
    (∀ fuel, looped.computeMemberSets fuel = none) ∧ (∀ fuel, Builder.build looped fuel = none) ∧
      ∀ fuel, looped.blockOrder fuel [.component ⟨1, false⟩] = none := by
  refine ⟨fun fuel => ?_, fun fuel => ?_, fun fuel => ?_⟩
  · cases hrun : looped.computeMemberSets fuel with
    | none => rfl
    | some fix' =>
      have hself : looped.RefersTo 1 1 := ⟨_, _, rfl, rfl, ⟨1, false⟩, List.mem_singleton.mpr rfl, rfl⟩
      exact absurd (.single hself) (computeMemberSets_returns_iff.mp ⟨fuel, fix', hrun⟩ 1)
  · have hheader : Builder.headerGroups looped fuel = some (⟨[], []⟩, []) := rfl
    have hmessages : Builder.sortedMessages looped =
        [⟨"NewOrderSingle", "D", [.component ⟨1, false⟩]⟩] := List.mergeSort_singleton _
    rw [Builder.build, hheader, Option.bind_some, hmessages, List.foldlM_cons, Builder.addMessage,
      looped_collectGroups]
    rfl
  · exact (looped.orderWalk_eq fuel _ []).trans (looped_descend _ fuel [])

/-! ## The first field of a group -/

/-- Whether an element is a field or refers to something. -/
def refers (fix : FixVersion) : MessageElement → Bool
  | .field _ => true
  | .component ref => (fix.getComponent ref.componentId).isSome
  | .group ref => (fix.getGroup ref.groupId).isSome

/-- The components that the search for the first field goes into. -/
inductive Enters (fix : FixVersion) : List MessageElement → Component → Prop
  | here {elements : List MessageElement} {ref : ComponentRef} {c : Component}
      (hfirst : elements.find? fix.refers = some (.component ref))
      (hc : fix.getComponent ref.componentId = some c) : Enters fix elements c
  | inner {elements : List MessageElement} {ref : ComponentRef} {c c' : Component}
      (hfirst : elements.find? fix.refers = some (.component ref))
      (hc : fix.getComponent ref.componentId = some c) (hinner : Enters fix c.elements c') :
      Enters fix elements c'

/-- One of the components that is gone into is empty. -/
def EntersEmpty (fix : FixVersion) (elements : List MessageElement) : Prop :=
  ∃ c, fix.Enters elements c ∧ fix.Flattens c.elements []

variable {x : MessageElement} {elements : List MessageElement}

variable {c : Component}

theorem enters_iff : fix.Enters elements c ↔
    ∃ ref c', elements.find? fix.refers = some (.component ref) ∧
      fix.getComponent ref.componentId = some c' ∧ (c = c' ∨ fix.Enters c'.elements c) := by
  constructor
  · intro h
    cases h with
    | here hfirst hc => exact ⟨_, _, hfirst, hc, .inl rfl⟩
    | inner hfirst hc hinner => exact ⟨_, _, hfirst, hc, .inr hinner⟩
  · intro ⟨ref, c', hfirst, hc, hor⟩
    rcases hor with rfl | hinner
    · exact .here hfirst hc
    · exact .inner hfirst hc hinner

theorem enters_skip (hx : fix.refers x = false) :
    fix.Enters (x :: elements) c ↔ fix.Enters elements c := by
  rw [enters_iff, enters_iff, List.find?_cons_of_neg (by simp [hx])]

/-- What the search comes to: the first tag, unless it goes into an empty component. -/
structure FindsFirst (fix : FixVersion) (elements : List MessageElement) (tags : List Nat)
    (r : Option Nat) : Prop where
  empty : fix.EntersEmpty elements → r = none
  first : ¬ fix.EntersEmpty elements → r = tags.head?

variable {r : Option Nat}

theorem findsFirst_skip (hx : fix.refers x = false) (h : fix.FindsFirst elements tags r) :
    fix.FindsFirst (x :: elements) tags r := by
  have hiff : fix.EntersEmpty (x :: elements) ↔ fix.EntersEmpty elements :=
    exists_congr fun c => and_congr_left' (enters_skip hx)
  exact ⟨fun hempty => h.empty (hiff.mp hempty), fun hempty => h.first fun h' => hempty (hiff.mpr h')⟩

theorem findsFirst_tag (hx : fix.refers x = true) (hcomponent : componentName x = none) (tag : Nat)
    (tags : List Nat) : fix.FindsFirst (x :: elements) (tag :: tags) (some tag) := by
  refine ⟨fun ⟨c, henters, _⟩ => ?_, fun _ => rfl⟩
  obtain ⟨ref, _, hfirst, -⟩ := enters_iff.mp henters
  rw [List.find?_cons_of_pos hx] at hfirst
  rw [Option.some.inj hfirst] at hcomponent
  cases hcomponent

theorem Flattens.of_leaf (h : fix.Flattens (x :: elements) tags) (hx : fix.inComponents x = none) :
    ∃ rest, fix.Flattens elements rest ∧ tags = (fix.tagOf x).toList ++ rest := by
  obtain ⟨out, hout, rfl⟩ := h
  cases hout with
  | leaf _ hrest =>
    refine ⟨_, ⟨_, hrest, rfl⟩, ?_⟩
    rw [List.filterMap_cons]
    cases fix.tagOf x <;> rfl
  | node hx' => rw [hx] at hx'; cases hx'

theorem Flattens.of_component {ref} (h : fix.Flattens (.component ref :: elements) tags)
    (hc : fix.getComponent ref.componentId = some c) :
    ∃ inner rest, fix.Flattens c.elements inner ∧ fix.Flattens elements rest ∧ tags = inner ++ rest := by
  obtain ⟨out, hout, rfl⟩ := h
  have hbody : fix.inComponents (.component ref) = some c.elements := by
    rw [inComponents_component, hc]
    rfl
  cases hout with
  | leaf hx => rw [hbody] at hx; cases hx
  | node hx hinner hrest =>
    rw [hbody] at hx
    obtain rfl := Option.some.inj hx
    refine ⟨_, _, ⟨_, hinner, rfl⟩, ⟨_, hrest, rfl⟩, ?_⟩
    rw [List.filterMap_cons, List.filterMap_append]
    rfl

theorem findsFirst_component {ref} (hc : fix.getComponent ref.componentId = some c) {inner}
    (hinner : fix.Flattens c.elements inner) (rest : List Nat)
    (h : fix.FindsFirst c.elements inner r) :
    fix.FindsFirst (.component ref :: elements) (inner ++ rest) r := by
  have hfirst : (MessageElement.component ref :: elements).find? fix.refers = some (.component ref) :=
    List.find?_cons_of_pos (by rw [refers, hc]; rfl)
  constructor
  · intro ⟨c', henters, hempty⟩
    obtain ⟨ref', c₁, hfirst', hc₁, hor⟩ := enters_iff.mp henters
    rw [hfirst] at hfirst'
    cases hfirst'
    rw [hc] at hc₁
    cases hc₁
    rcases hor with rfl | hdeeper
    · -- the component itself is empty
      rw [hinner.unique hempty] at h
      by_cases hdeep : fix.EntersEmpty c'.elements
      · exact h.empty hdeep
      · exact h.first hdeep
    · exact h.empty ⟨c', hdeeper, hempty⟩
  · intro hnot
    have hself : inner ≠ [] := by
      intro hnil
      exact hnot ⟨c, .here hfirst hc, hnil ▸ hinner⟩
    have hdeep : ¬ fix.EntersEmpty c.elements := fun ⟨c', henters, hempty⟩ =>
      hnot ⟨c', .inner hfirst hc henters, hempty⟩
    rw [h.first hdeep]
    obtain ⟨tag, inner', rfl⟩ := List.exists_cons_of_ne_nil hself
    rfl

theorem firstFieldId_findsFirst {fuel} (hrun : fix.firstFieldId fuel elements = some r)
    (hflat : fix.Flattens elements tags) : fix.FindsFirst elements tags r := by
  induction fuel generalizing elements tags with
  | zero => cases hrun
  | succ fuel ih =>
    rw [firstFieldId] at hrun
    induction elements generalizing tags with
    | nil =>
      obtain rfl := Option.some.inj hrun
      obtain ⟨out, hout, rfl⟩ := hflat
      cases hout
      exact ⟨fun _ => rfl, fun _ => rfl⟩
    | cons x elements ihlist =>
      cases x with
      | field ref =>
        obtain ⟨rest, -, rfl⟩ := hflat.of_leaf (inComponents_field fix ref)
        obtain rfl := Option.some.inj hrun
        exact findsFirst_tag rfl rfl ref.fieldId rest
      | component ref =>
        cases hc : fix.getComponent ref.componentId with
        | none =>
          obtain ⟨rest, hrest, rfl⟩ := hflat.of_leaf (by rw [inComponents_component, hc]; rfl)
          rw [firstFieldLoop, hc] at hrun
          exact findsFirst_skip (by rw [refers, hc]; rfl) (ihlist hrun hrest)
        | some c =>
          obtain ⟨inner, rest, hinner, -, rfl⟩ := hflat.of_component hc
          rw [firstFieldLoop, hc] at hrun
          exact findsFirst_component hc hinner rest (ih hrun hinner)
      | group ref =>
        obtain ⟨rest, hrest, rfl⟩ := hflat.of_leaf (inComponents_group fix ref)
        rw [firstFieldLoop] at hrun
        cases hg : fix.getGroup ref.groupId with
        | none =>
          rw [hg] at hrun
          rw [tagOf, hg]
          exact findsFirst_skip (by rw [refers, hg]; rfl) (ihlist hrun hrest)
        | some g =>
          rw [hg] at hrun
          obtain rfl := Option.some.inj hrun
          rw [tagOf, hg]
          exact findsFirst_tag (by rw [refers, hg]; rfl) rfl g.numInGroupTag rest

theorem firstFieldId_returns (hacyclic : fix.ComponentsAcyclic) {k}
    (hwithin : Builder.Within fix k elements) :
    ∃ r, fix.firstFieldId (k + 1) elements = some r := by
  induction k using Nat.strong_induction_on generalizing elements with
  | _ k ih =>
    rw [firstFieldId]
    induction elements with
    | nil => exact ⟨none, rfl⟩
    | cons x elements ihlist =>
      have hrest := ihlist fun ref href => hwithin ref (List.mem_cons_of_mem _ href)
      cases x with
      | field ref => exact ⟨some ref.fieldId, rfl⟩
      | component ref =>
        rw [firstFieldLoop]
        cases hc : fix.getComponent ref.componentId with
        | none => exact hrest
        | some c =>
          obtain ⟨j, rfl, hinner⟩ := hwithin.inner hacyclic List.mem_cons_self hc
          exact ih j (by omega) hinner
      | group ref =>
        rw [firstFieldLoop]
        cases hg : fix.getGroup ref.groupId with
        | none => exact hrest
        | some g => exact ⟨some g.numInGroupTag, rfl⟩

/-- The field that starts an instance is the first of the group's elements, unless the
search for it goes into an empty component. -/
theorem getMarkerTag_eq_iff (hacyclic : fix.ComponentsAcyclic) {g : Group}
    (hflat : fix.Flattens g.elements tags) (hne : tags ≠ [])
    (hdefined : ∀ tag ∈ tags, (fix.getField tag).isSome) :
    (∃ fuel f, g.getMarkerTag fix fuel = some (some f) ∧ fix.getField (tags.head?.getD 0) = some f) ↔
      ¬ fix.EntersEmpty g.elements := by
  constructor
  · intro ⟨fuel, f, hrun, _⟩ hempty
    obtain ⟨r, hfirst, hr⟩ := Option.map_eq_some_iff.mp hrun
    rw [(firstFieldId_findsFirst hfirst hflat).empty hempty] at hr
    cases hr
  · intro hempty
    obtain ⟨r, hrun⟩ := firstFieldId_returns hacyclic (Builder.within_length fix g.elements)
    have hr := (firstFieldId_findsFirst hrun hflat).first hempty
    obtain ⟨tag, rest, rfl⟩ := List.exists_cons_of_ne_nil hne
    obtain ⟨f, hf⟩ := Option.isSome_iff_exists.mp (hdefined tag List.mem_cons_self)
    refine ⟨fix.components.keys.length + 1, f, ?_, hf⟩
    rw [Group.getMarkerTag, hrun, Option.map_some, hr]
    exact congrArg some hf

/-- **The two delimiters agree** exactly where the search for the first field goes into no
empty component: it panics there, while the dictionary goes on to the next element. -/
theorem getMarkerTag_iff (fix : FixVersion) (hacyclic : fix.ComponentsAcyclic) :
    (∃ fuel d, Builder.build fix fuel = some d) ∧
      ∀ fuel d, Builder.build fix fuel = some d → ∃ sources, fix.SourcesOf sources d ∧
        List.Forall₂ (fun g def' => ∀ tags, fix.Flattens g.elements tags → tags ≠ [] →
          (∀ tag ∈ tags, (fix.getField tag).isSome) →
          ((∃ fuel f, g.getMarkerTag fix fuel = some (some f) ∧ fix.getField def'.delimiter = some f) ↔
            ¬ fix.EntersEmpty g.elements)) sources d.groups := by
  refine ⟨⟨_, Builder.build_returns hacyclic⟩, ?_⟩
  intro fuel d hbuild
  obtain ⟨sources, hsources⟩ := Builder.build_sourcesOf hbuild
  refine ⟨sources, hsources, hsources.groups.imp ?_⟩
  intro g def' ⟨tags, hflat, _, hdelimiter, _⟩ tags' hflat' hne hdefined
  rw [hdelimiter, hflat.unique hflat']
  exact getMarkerTag_eq_iff hacyclic hflat' hne hdefined

theorem getMarkerTag_crossed : ∃ d sources, Builder.build crossed 9 = some d ∧
    crossed.SourcesOf sources d ∧ d.groups.map GroupDef.delimiter = [448, 523] ∧
    ∀ g ∈ sources, ¬ crossed.EntersEmpty g.elements := by
  obtain ⟨d, hd, hgroups⟩ := crossed_groups
  obtain ⟨-, hall⟩ := getMarkerTag_iff crossed crossed_acyclic
  obtain ⟨sources, hsources, hiff⟩ := hall 9 d hd
  refine ⟨d, sources, hd, hsources, by rw [hgroups]; rfl, fun g hg => ?_⟩
  obtain ⟨i, hi, rfl⟩ := List.getElem_of_mem hg
  have hlt : i < d.groups.length := hiff.length_eq ▸ hi
  obtain ⟨tags, hflat, -, hdelimiter, -⟩ := hsources.groups.get hi hlt
  obtain ⟨id, hid⟩ := hsources.stored _ hg
  have hmarkers : ∀ x ∈ crossed.groups.entries, ∃ tags ∈ [[448, 802], [523, 453]],
      crossed.memberOrder 3 x.2.elements [] = some tags ∧ tags ≠ [] ∧
        (∀ tag ∈ tags, (crossed.getField tag).isSome) ∧
        x.2.getMarkerTag crossed 3 = some (crossed.getField (tags.head?.getD 0)) ∧
        (crossed.getField (tags.head?.getD 0)).isSome := by decide
  obtain ⟨_, -, horder, hne, hdefined, hmarker, hsome⟩ :=
    hmarkers (id, _) (HashMap.get_eq_some_iff.mp hid)
  obtain rfl := hflat.unique (memberOrder_eq_some horder)
  obtain ⟨f, hf⟩ := Option.isSome_iff_exists.mp hsome
  rw [← hdelimiter] at hf hmarker
  exact (hiff.get hi hlt _ hflat hne hdefined).mp ⟨3, f, hf ▸ hmarker, hf⟩

/-- A group that starts with an empty component. -/
def hollowGroup : Group := ⟨1, "PartyGrp", false, 453, [.component ⟨11, false⟩, .field ⟨448, false⟩], []⟩

def hollow : FixVersion where
  beginString := "FIX.4.4"
  fields := ⟨[(448, ⟨448, "PartyID", "String", none, none⟩),
    (453, ⟨453, "NoPartyIDs", "NumInGroup", none, none⟩)], by decide⟩
  components := ⟨[(11, ⟨11, "Nothing", [], []⟩)], by decide⟩
  groups := ⟨[(1, hollowGroup)], by decide⟩
  messages := ⟨[("D", ⟨"NewOrderSingle", "D", [.group ⟨1, false⟩]⟩)], by decide⟩

/-- The dictionary has the group's one field as its delimiter, and the search for it panics. -/
theorem hollow_marker :
    hollow.ComponentsAcyclic ∧ hollow.Flattens hollowGroup.elements [448] ∧
      (hollow.getField 448).isSome ∧
      (∃ d, Builder.build hollow 9 = some d ∧ d.groups = [⟨453, 448, [(448, 0)], []⟩]) ∧
      ∀ fuel, hollowGroup.getMarkerTag hollow (fuel + 2) = some none := by
  have hmessages : Builder.sortedMessages hollow = [⟨"NewOrderSingle", "D", [.group ⟨1, false⟩]⟩] :=
    List.mergeSort_singleton _
  have horder : hollow.memberOrder 3 hollowGroup.elements [] = some [448] := rfl
  have hbuild : (Builder.build hollow 9).map Dictionary.groups = some [⟨453, 448, [(448, 0)], []⟩] := by
    rw [Builder.build, hmessages]
    rfl
  exact ⟨computeMemberSets_returns_iff.mp ⟨4, _, rfl⟩, memberOrder_eq_some horder, rfl,
    Option.map_eq_some_iff.mp hbuild, fun fuel => rfl⟩

end FixVersion

end Babelfix.Repo
