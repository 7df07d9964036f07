import Babelfix.Repo.Flatten

/-! # Member sets

The sets of members kept with components and groups (`compute_member_sets` of
`babelfix-repo`) are those of the flattening, and setting them changes no definition, so
that it does not matter in which order they are computed. -/
namespace Babelfix.Repo.FixVersion

open Lib Tape

/-- Two versions with the same definitions, whatever sets of members they keep. -/
structure SameElements (fix fix' : FixVersion) : Prop where
  components : ∀ id, (fix'.getComponent id).map Component.elements =
    (fix.getComponent id).map Component.elements
  groups : ∀ id, (fix'.getGroup id).map (fun g => (g.numInGroupTag, g.elements)) =
    (fix.getGroup id).map fun g => (g.numInGroupTag, g.elements)
  messages : fix'.messages = fix.messages

variable {fix fix' : FixVersion}

variable {σ : Type}

namespace SameElements

theorem refl (fix : FixVersion) : fix.SameElements fix := ⟨fun _ => rfl, fun _ => rfl, rfl⟩

section
variable (h : fix.SameElements fix')
include h

theorem trans {fix''} (h' : fix'.SameElements fix'') : fix.SameElements fix'' where
  components := fun id => (h'.components id).trans (h.components id)
  groups := fun id => (h'.groups id).trans (h.groups id)
  messages := h'.messages.trans h.messages

theorem inComponents_eq : fix'.inComponents = fix.inComponents := by
  have hdefs : fix'.componentDefs = fix.componentDefs := funext h.components
  rw [inComponents, inComponents, hdefs]

theorem tagOf_eq : fix'.tagOf = fix.tagOf := by
  funext x
  cases x with
  | group ref =>
    have hgroups := congrArg (Option.map Prod.fst) (h.groups ref.groupId)
    rw [Option.map_map, Option.map_map] at hgroups
    exact hgroups
  | _ => rfl

theorem useTag_eq (use : σ → Nat → σ) : fix'.useTag use = fix.useTag use := by
  funext s x
  rw [useTag, useTag, h.tagOf_eq]

theorem flattens_eq : fix'.Flattens = fix.Flattens := by
  funext elements tags
  rw [Flattens, Flattens, h.inComponents_eq, h.tagOf_eq]

theorem collect_eq (fuel : Nat) (elements : List MessageElement) (ms : List Nat) :
    fix'.collectMembersFromElements fuel elements ms = fix.collectMembersFromElements fuel elements ms := by
  rw [collectMembersFromElements_eq, collectMembersFromElements_eq, h.inComponents_eq, h.useTag_eq]

end

end SameElements

theorem getComponent_setComponentMembers (fix : FixVersion) (id id' : Nat) (ms : List Nat) :
    (fix.setComponentMembers id ms).getComponent id' =
      if id' = id then (fix.getComponent id').map fun c => { c with members := ms }
      else fix.getComponent id' := HashMap.get_modify _ _ _ _

theorem getGroup_setGroupMembers (fix : FixVersion) (id id' : Nat) (ms : List Nat) :
    (fix.setGroupMembers id ms).getGroup id' =
      if id' = id then (fix.getGroup id').map fun g => { g with members := ms }
      else fix.getGroup id' := HashMap.get_modify _ _ _ _

theorem sameElements_setComponentMembers (fix : FixVersion) (id : Nat) (ms : List Nat) :
    fix.SameElements (fix.setComponentMembers id ms) where
  components := fun id' => by
    rw [getComponent_setComponentMembers]
    split
    · rw [Option.map_map]
      rfl
    · rfl
  groups := fun _ => rfl
  messages := rfl

theorem sameElements_setGroupMembers (fix : FixVersion) (id : Nat) (ms : List Nat) :
    fix.SameElements (fix.setGroupMembers id ms) where
  components := fun _ => rfl
  groups := fun id' => by
    rw [getGroup_setGroupMembers]
    split
    · rw [Option.map_map]
      rfl
    · rfl
  messages := rfl

/-! ## The loops -/

variable {α : Type}

/-- What every step of a loop keeps, the loop keeps. -/
theorem foldlM_keeps {step} {P : σ → Prop} (h : ∀ s a t, step s a = some t → P s → P t) {l : List α}
    {s t} (hrun : l.foldlM step s = some t) (hs : P s) : P t := by
  induction l generalizing s with
  | nil =>
    obtain rfl := Option.some.inj hrun
    exact hs
  | cons a l ih =>
    obtain ⟨s', hstep, hrest⟩ := Option.bind_eq_some_iff.mp hrun
    exact ih hrest (h s a s' hstep hs)

variable {ids : List Nat}

/-- The loops over components and over groups: what they have come to has its members, and
the rest is as it was. -/
theorem memberLoop (find : FixVersion → Nat → Option α) (collect : FixVersion → α → Option (List Nat))
    (withMembers : List Nat → α → α) (set : FixVersion → Nat → List Nat → FixVersion)
    (hfind : ∀ fix id ms id', find (set fix id ms) id' =
      if id' = id then (find fix id').map (withMembers ms) else find fix id')
    (hset : ∀ fix id ms, SameElements fix (set fix id ms))
    (hcollect : ∀ {fix fix' : FixVersion}, fix.SameElements fix' → ∀ a, collect fix' a = collect fix a)
    (h : ids.foldlM (fun fix id =>
      ((find fix id).elim (some []) (collect fix)).map (set fix id)) fix = some fix') :
    fix.SameElements fix' ∧ ∀ id a, find fix' id = some a →
      (∃ a₀ ms, a = withMembers ms a₀ ∧ collect fix a₀ = some ms) ∨
        (id ∉ ids ∧ find fix id = some a) := by
  induction ids generalizing fix with
  | nil =>
    obtain rfl := Option.some.inj h
    exact ⟨.refl _, fun id a ha => .inr ⟨by simp, ha⟩⟩
  | cons i ids ih =>
    obtain ⟨fix₁, hfirst, hrest⟩ := Option.bind_eq_some_iff.mp h
    obtain ⟨ms, hms, rfl⟩ := Option.map_eq_some_iff.mp hfirst
    obtain ⟨hsame, hdone⟩ := ih hrest
    refine ⟨(hset fix i ms).trans hsame, fun id a ha => ?_⟩
    rcases hdone id a ha with ⟨a₀, ms', rfl, hcoll⟩ | ⟨hnot, ha⟩
    · rw [hcollect (hset fix i ms)] at hcoll
      exact .inl ⟨a₀, ms', rfl, hcoll⟩
    · rw [hfind] at ha
      split at ha
      · rename_i hid
        obtain ⟨a₀, ha₀, rfl⟩ := Option.map_eq_some_iff.mp ha
        rw [← hid, ha₀] at hms
        exact .inl ⟨a₀, ms, rfl, hms⟩
      · rename_i hid
        exact .inr ⟨by simp [hid, hnot], ha⟩

variable {fuel : Nat}

theorem componentLoop (h : ids.foldlM (fun fix id =>
      (fix.collectMembersForComponent fuel id).map (fix.setComponentMembers id)) fix = some fix') :
    fix.SameElements fix' ∧ ∀ id c, fix'.getComponent id = some c →
      fix.collectMembersFromElements fuel c.elements [] = some c.members ∨
        (id ∉ ids ∧ fix.getComponent id = some c) := by
  have hstep : (fun (fix : FixVersion) id =>
      (fix.collectMembersForComponent fuel id).map (fix.setComponentMembers id)) =
      fun fix id => ((fix.getComponent id).elim (some []) fun c =>
        fix.collectMembersFromElements fuel c.elements []).map (fix.setComponentMembers id) := by
    funext fix id
    rw [collectMembersForComponent]
    cases fix.getComponent id <;> rfl
  rw [hstep] at h
  obtain ⟨hsame, hdone⟩ := memberLoop getComponent _ (fun ms c => { c with members := ms })
    setComponentMembers (fun fix id ms id' => getComponent_setComponentMembers fix id id' ms)
    sameElements_setComponentMembers (fun hsame c => hsame.collect_eq fuel c.elements []) h
  refine ⟨hsame, fun id c hc => (hdone id c hc).imp_left fun hex => ?_⟩
  obtain ⟨c₀, ms, rfl, hcollect⟩ := hex
  exact hcollect

theorem groupLoop (h : ids.foldlM (fun fix id =>
      (fix.collectMembersForGroup fuel id).map (fix.setGroupMembers id)) fix = some fix') :
    fix.SameElements fix' ∧ ∀ id g, fix'.getGroup id = some g →
      fix.collectMembersFromElements fuel g.elements [g.numInGroupTag] = some g.members ∨
        (id ∉ ids ∧ fix.getGroup id = some g) := by
  have hstep : (fun (fix : FixVersion) id =>
      (fix.collectMembersForGroup fuel id).map (fix.setGroupMembers id)) =
      fun fix id => ((fix.getGroup id).elim (some []) fun g =>
        fix.collectMembersFromElements fuel g.elements [g.numInGroupTag]).map (fix.setGroupMembers id) := by
    funext fix id
    rw [collectMembersForGroup]
    cases fix.getGroup id <;> rfl
  rw [hstep] at h
  obtain ⟨hsame, hdone⟩ := memberLoop getGroup _ (fun ms g => { g with members := ms })
    setGroupMembers (fun fix id ms id' => getGroup_setGroupMembers fix id id' ms)
    sameElements_setGroupMembers (fun hsame g => hsame.collect_eq fuel g.elements [g.numInGroupTag]) h
  refine ⟨hsame, fun id g hg => (hdone id g hg).imp_left fun hex => ?_⟩
  obtain ⟨g₀, ms, rfl, hcollect⟩ := hex
  exact hcollect

/-- What the member sets are once they have been computed. -/
structure HasMembers (fix : FixVersion) : Prop where
  component : ∀ id c, fix.getComponent id = some c →
    ∃ tags, fix.Flattens c.elements tags ∧ ∀ tag, tag ∈ c.members ↔ tag ∈ tags
  group : ∀ id g, fix.getGroup id = some g →
    ∃ tags, fix.Flattens g.elements tags ∧ ∀ tag, tag ∈ g.members ↔ tag = g.numInGroupTag ∨ tag ∈ tags

theorem computeMemberSets_spec (h : fix.computeMemberSets fuel = some fix') :
    fix.SameElements fix' ∧ fix'.HasMembers := by
  obtain ⟨fix₁, hcomponents, hgroups⟩ := Option.bind_eq_some_iff.mp h
  obtain ⟨hsame, hdone⟩ := componentLoop hcomponents
  obtain ⟨hsame', hdone'⟩ := groupLoop hgroups
  have hkeep : fix'.components = fix₁.components := by
    refine foldlM_keeps (P := fun fix => fix.components = fix₁.components) ?_ hgroups rfl
    intro fix id fix' hstep hsame
    obtain ⟨ms, -, rfl⟩ := Option.map_eq_some_iff.mp hstep
    exact hsame
  have hall := hsame.trans hsame'
  refine ⟨hall, ⟨fun id c hc => ?_, fun id g hg => ?_⟩⟩
  · have hc₁ : fix₁.getComponent id = some c := by rwa [getComponent, hkeep] at hc
    rcases hdone id c hc₁ with hcollect | ⟨hnot, hc₀⟩
    · obtain ⟨tags, htags, hmem⟩ := mem_collectMembersFromElements hcollect
      exact ⟨tags, by rwa [hall.flattens_eq], fun tag => by simpa using hmem tag⟩
    · exact absurd (HashMap.mem_keys.mpr (Option.isSome_iff_exists.mpr ⟨c, hc₀⟩)) hnot
  · rcases hdone' id g hg with hcollect | ⟨hnot, hg₀⟩
    · obtain ⟨tags, htags, hmem⟩ := mem_collectMembersFromElements hcollect
      exact ⟨tags, by rwa [hsame'.flattens_eq], fun tag => by simpa using hmem tag⟩
    · exact absurd (HashMap.mem_keys.mpr (Option.isSome_iff_exists.mpr ⟨g, hg₀⟩)) hnot

/-! ## The sets are computed -/

theorem foldlM_returns {step} {P : σ → Prop} (h : ∀ s a, P s → ∃ t, step s a = some t ∧ P t)
    (l : List α) {s} (hs : P s) : ∃ t, l.foldlM step s = some t ∧ P t := by
  induction l generalizing s with
  | nil => exact ⟨s, rfl, hs⟩
  | cons a l ih =>
    obtain ⟨s', hstep, hs'⟩ := h s a hs
    obtain ⟨t, hrest, ht⟩ := ih hs'
    exact ⟨t, by rw [List.foldlM_cons, hstep]; exact hrest, ht⟩

theorem ComponentsAcyclic.collect (h : fix.ComponentsAcyclic) (elements : List MessageElement)
    (ms : List Nat) :
    ∃ ms', fix.collectMembersFromElements (fix.components.keys.length + 1) elements ms = some ms' := by
  obtain ⟨out, -, hgo⟩ := h.unfolds elements
  exact ⟨_, (collectMembersFromElements_eq ..).trans (hgo _ _ ms)⟩

theorem ComponentsAcyclic.computeMemberSets (h : fix.ComponentsAcyclic) :
    ∃ fix', fix.computeMemberSets (fix.components.keys.length + 1) = some fix' := by
  -- every step sets members only, so what it collects is collected from the same definitions
  have hcomponent : ∀ (fix' : FixVersion) (id : Nat), fix.SameElements fix' →
      ∃ fix'', (fix'.collectMembersForComponent (fix.components.keys.length + 1) id).map
        (fix'.setComponentMembers id) = some fix'' ∧ fix.SameElements fix'' := by
    intro fix' id hsame
    rw [collectMembersForComponent]
    cases fix'.getComponent id with
    | none => exact ⟨_, rfl, hsame.trans (sameElements_setComponentMembers ..)⟩
    | some c =>
      obtain ⟨ms, hms⟩ := h.collect c.elements []
      dsimp only
      rw [hsame.collect_eq, hms]
      exact ⟨_, rfl, hsame.trans (sameElements_setComponentMembers ..)⟩
  have hgroup : ∀ (fix' : FixVersion) (id : Nat), fix.SameElements fix' →
      ∃ fix'', (fix'.collectMembersForGroup (fix.components.keys.length + 1) id).map
        (fix'.setGroupMembers id) = some fix'' ∧ fix.SameElements fix'' := by
    intro fix' id hsame
    rw [collectMembersForGroup]
    cases fix'.getGroup id with
    | none => exact ⟨_, rfl, hsame.trans (sameElements_setGroupMembers ..)⟩
    | some g =>
      obtain ⟨ms, hms⟩ := h.collect g.elements [g.numInGroupTag]
      dsimp only
      rw [hsame.collect_eq, hms]
      exact ⟨_, rfl, hsame.trans (sameElements_setGroupMembers ..)⟩
  obtain ⟨fix₁, hrun₁, hsame₁⟩ := foldlM_returns hcomponent fix.components.keys (.refl fix)
  obtain ⟨fix₂, hrun₂, -⟩ := foldlM_returns hgroup fix₁.groups.keys hsame₁
  exact ⟨fix₂, Option.bind_eq_some_iff.mpr ⟨fix₁, hrun₁, hrun₂⟩⟩

/-- **The member sets are computed exactly if no component contains itself.** -/
theorem computeMemberSets_returns_iff :
    (∃ fuel fix', fix.computeMemberSets fuel = some fix') ↔ fix.ComponentsAcyclic := by
  constructor
  · intro ⟨fuel, fix', hrun⟩
    obtain ⟨hsame, hmembers⟩ := computeMemberSets_spec hrun
    refine (acyclic_iff fix).mp (acyclic_of_unfolds fun id elements hdef => ?_)
    have hdef' := (hsame.components id).trans hdef
    obtain ⟨c, hc, rfl⟩ := Option.map_eq_some_iff.mp hdef'
    obtain ⟨tags, ⟨out, hout, -⟩, -⟩ := hmembers.component id c hc
    rw [hsame.inComponents_eq] at hout
    exact ⟨out, hout⟩
  · intro h
    obtain ⟨fix', hrun⟩ := h.computeMemberSets
    exact ⟨_, fix', hrun⟩

/-! ## Membership of a message -/

/-- A message looks in its own elements and in the sets of its components, and so agrees
with its flattening. -/
theorem HasMembers.isMemberSlow_iff (h : fix.HasMembers) {elements tags}
    (hflat : fix.Flattens elements tags) (tag : Nat) :
    fix.isMemberSlow elements tag = true ↔ tag ∈ tags := by
  obtain ⟨out, hout, rfl⟩ := hflat
  rw [isMemberSlow]
  induction elements generalizing out with
  | nil =>
    cases hout
    simp
  | cons x elements ih =>
    cases hout with
    | leaf hx hrest =>
      rw [List.any_cons, Bool.or_eq_true, ih _ hrest, List.filterMap_cons]
      cases x with
      | field ref => simp [tagOf, eq_comm]
      | component ref =>
        have hnone : fix.getComponent ref.componentId = none := by
          rwa [inComponents_component, Option.map_eq_none_iff] at hx
        simp [tagOf, hnone]
      | group ref => cases hg : fix.getGroup ref.groupId <;> simp [tagOf, hg, eq_comm]
    | node hx hinner hrest =>
      cases x with
      | field ref => cases hx
      | group ref => cases hx
      | component ref =>
        obtain ⟨c, hc, rfl⟩ := Option.map_eq_some_iff.mp hx
        obtain ⟨tags, htags, hmem⟩ := h.component _ c hc
        obtain rfl := htags.unique ⟨_, hinner, rfl⟩
        rw [List.any_cons, Bool.or_eq_true, ih _ hrest, List.filterMap_cons, List.filterMap_append]
        simp [tagOf, hc, hmem]

end Babelfix.Repo.FixVersion
