import Babelfix.Lib.Sublist
import Babelfix.Repo.Intern

/-! # The dictionary that is compiled

Compiling ends for every repository whose components do not contain each other, because
each group that is gone into is one of those without a slot, and takes one. What it ends
with has one slot for each group that is reached from the header or a message, compiled
from its own elements. -/
namespace Babelfix.Repo

open Lib Tape Relation

variable {g : Group} {id fuel : Nat} {elements : List MessageElement} {table : TagMap GroupIdx}
variable {notes : TagMap (Option GroupIdx)} {entries : List (Nat × GroupIdx)}

namespace Builder

variable {fix : FixVersion} {b b' : Builder}

/-! ## The recursion ends -/

/-- How many groups have no slot yet. -/
def missing (fix : FixVersion) (b : Builder) : Nat :=
  fix.groups.values.countP fun g => (b.slot g).isNone

theorem missing_complete (b : Builder) (idx : GroupIdx) (order : List Nat) (nested : TagMap GroupIdx) :
    missing fix (b.complete idx order nested) = missing fix b := rfl

theorem missing_reserve_lt (hg : fix.getGroup id = some g) (hnew : b.slot g = none) :
    missing fix (b.reserve g) < missing fix b := by
  have hmem : g ∈ fix.groups.values := HashMap.mem_values.mpr ⟨id, hg⟩
  have hmono : ∀ h : Group, ((b.reserve g).slot h).isNone = true → (b.slot h).isNone = true := by
    intro h hnone
    rw [slot, slot_reserve, Option.isNone_iff_eq_none, Option.or_eq_none_iff] at hnone
    rw [slot, Option.isNone_iff_eq_none]
    exact hnone.1
  have hself : ((b.reserve g).slot g).isNone = false := by
    rw [slot] at hnew
    rw [slot, slot_reserve, hnew, if_pos rfl]
    rfl
  obtain ⟨before, after, hsplit⟩ := List.append_of_mem hmem
  have hbefore := List.countP_mono_left (l := before) fun h _ => hmono h
  have hafter := List.countP_mono_left (l := after) fun h _ => hmono h
  rw [missing, missing, hsplit, List.countP_append, List.countP_append, List.countP_cons,
    List.countP_cons, hself, hnew]
  simp only [Option.isNone_none, if_true, Bool.false_eq_true, if_false]
  omega

/-- How many components are met from one on. -/
noncomputable def componentsFrom (fix : FixVersion) (id : Nat) : Nat :=
  reachCount FixVersion.componentName fix.componentDefs fix.components.keys id

/-- Elements from each of which at most `k` components are met. -/
def Within (fix : FixVersion) (k : Nat) (elements : List MessageElement) : Prop :=
  ∀ ref, .component ref ∈ elements → (fix.getComponent ref.componentId).isSome →
    componentsFrom fix ref.componentId ≤ k

theorem within_length (fix : FixVersion) (elements : List MessageElement) :
    Within fix fix.components.keys.length elements :=
  fun _ _ _ => reachCount_le _

theorem Within.inner (hacyclic : fix.ComponentsAcyclic) {k} (h : Within fix k elements) {ref}
    (href : .component ref ∈ elements) {c} (hc : fix.getComponent ref.componentId = some c) :
    ∃ j, k = j + 1 ∧ Within fix j c.elements := by
  have hkey : ref.componentId ∈ fix.components.keys := HashMap.mem_keys.mpr (by
    rw [FixVersion.getComponent] at hc
    rw [hc]
    rfl)
  have hle := h ref href (by rw [hc]; rfl)
  have hpos : 0 < componentsFrom fix ref.componentId := reachCount_pos hkey
  refine ⟨k - 1, by omega, ?_⟩
  intro inner hinner hsome
  obtain ⟨c', hc'⟩ := Option.isSome_iff_exists.mp hsome
  have hlt : componentsFrom fix inner.componentId < componentsFrom fix ref.componentId := by
    refine reachCount_lt (fix.acyclic_iff.mpr hacyclic) hkey ?_
    rw [FixVersion.stepsTo_eq]
    exact ⟨c, c', hc, hc', inner, hinner, rfl⟩
  omega

/-- How deep the recursion goes when `n` groups have no slot. -/
def depthFor (fix : FixVersion) (n k : Nat) : Nat := n * (fix.components.keys.length + 3) + k + 2

theorem memberOrder_returns (hacyclic : fix.ComponentsAcyclic) (elements : List MessageElement)
    (hfuel : fix.components.keys.length + 1 ≤ fuel) :
    ∃ order, fix.memberOrder fuel elements [] = some order := by
  obtain ⟨out, -, hgo⟩ := hacyclic.unfolds elements
  exact ⟨_, (fix.memberOrder_eq fuel elements []).trans (descend_mono hfuel (hgo _ _ []))⟩

/-- A recursion that comes to an end wherever `n` groups have no slot. -/
def EndsAt (fix : FixVersion) (n : Nat) : Prop :=
  ∀ k elements fuel b table, Within fix k elements → depthFor fix n k ≤ fuel → missing fix b ≤ n →
    ∃ r, collectGroups fix fuel elements (b, table) = some r ∧ missing fix r.1 ≤ n

/-- Going into a group that has no slot leaves fewer without one. -/
theorem intern_returns (hacyclic : fix.ComponentsAcyclic) {n} (hless : ∀ m, m < n → EndsAt fix m)
    (hfuel : depthFor fix n 0 ≤ fuel + 1) (hg : fix.getGroup id = some g) (hb : missing fix b ≤ n) :
    ∃ r, intern fix fuel g b = some r ∧ missing fix r.1 ≤ n := by
  obtain ⟨fuel, rfl⟩ : ∃ k, fuel = k + 1 := ⟨fuel - 1, by rw [depthFor] at hfuel; omega⟩
  rw [intern]
  cases hslot : b.groupIds.get g.id with
  | some idx => exact ⟨_, rfl, hb⟩
  | none =>
    have hlt := missing_reserve_lt hg hslot
    obtain ⟨m, rfl⟩ : ∃ m, n = m + 1 := ⟨n - 1, by omega⟩
    rw [depthFor, Nat.add_mul] at hfuel
    obtain ⟨order, horder⟩ : ∃ order, fix.memberOrder fuel g.elements [] = some order :=
      memberOrder_returns hacyclic g.elements (by omega)
    obtain ⟨r, hr, hmissing⟩ := hless m (by omega) _ g.elements fuel (b.reserve g) []
      (within_length fix g.elements) (by rw [depthFor]; omega) (by omega)
    refine ⟨(r.1.complete b.groups.length order r.2, b.groups.length), ?_, ?_⟩
    · simp only [horder, Option.bind_some, hr, Option.map_some]
    · rw [missing_complete]
      omega

/-- **Collecting groups comes to an end**: a component has fewer components to go into, a
group leaves fewer groups without a slot. -/
theorem collectGroups_returns (hacyclic : fix.ComponentsAcyclic) (n : Nat) : EndsAt fix n := by
  induction n using Nat.strong_induction_on with
  | _ n hless =>
    intro k
    induction k using Nat.strong_induction_on with
    | _ k ihk =>
      intro elements fuel b table hwithin hfuel hmissing
      obtain ⟨fuel, rfl⟩ : ∃ f, fuel = f + 1 := ⟨fuel - 1, by rw [depthFor] at hfuel; omega⟩
      induction elements generalizing b table with
      | nil => exact ⟨(b, table), collectGroups_nil, hmissing⟩
      | cons x elements ih =>
        have hrest := fun b table => ih b table fun ref href => hwithin ref (List.mem_cons_of_mem _ href)
        cases x with
        | field ref =>
          exact hrest b table hmissing
        | component ref =>
          cases hc : fix.getComponent ref.componentId with
          | none =>
            rw [collectGroups_component_none hc]
            exact hrest b table hmissing
          | some c =>
            obtain ⟨j, rfl, hinner⟩ := hwithin.inner hacyclic List.mem_cons_self hc
            obtain ⟨r, hr, hle⟩ := ihk j (by omega) c.elements fuel b table hinner
              (by rw [depthFor] at hfuel ⊢; omega) hmissing
            rw [collectGroups_component hc, hr]
            exact hrest r.1 r.2 hle
        | group ref =>
          cases hg : fix.getGroup ref.groupId with
          | none =>
            rw [collectGroups_group_none hg]
            exact hrest b table hmissing
          | some g =>
            have hdepth : depthFor fix n 0 ≤ fuel + 1 := by
              rw [depthFor] at hfuel ⊢
              omega
            obtain ⟨r, hr, hle⟩ := intern_returns hacyclic hless hdepth hg hmissing
            rw [collectGroups_group hg, hr]
            exact hrest r.1 _ hle

/-! ## The tables of slots -/

structure Tabulates (fix : FixVersion) (b : Builder) (elements : List MessageElement)
    (table : TagMap GroupIdx) : Prop where
  groups : ∃ groups, fix.Groups elements groups ∧ b.Maps table groups ∧ ∀ g ∈ groups, (b.slot g).isSome
  keys : (table.map Prod.fst).Nodup

theorem Grows.tabulates (h : b.Grows b' []) (htable : Tabulates fix b elements table) :
    Tabulates fix b' elements table where
  groups := by
    obtain ⟨groups, hgroups, hmaps, hsome⟩ := htable.groups
    exact ⟨groups, hgroups, h.maps hsome hmaps, fun g hg => h.isSome (hsome g hg)⟩
  keys := htable.keys

theorem keys_insertTag {α : Type} {table} (h : (table.map Prod.fst).Nodup) (tag : Nat) (a : α) :
    ((insertTag table tag a).map Prod.fst).Nodup := by
  rw [insertTag]
  split
  · have hkeys : (table.map fun x => if x.1 = tag then (tag, a) else x).map Prod.fst =
        table.map Prod.fst := by
      rw [List.map_map]
      refine List.map_congr_left fun x _ => ?_
      by_cases hx : x.1 = tag <;> simp [hx]
    rw [hkeys]
    exact h
  · rename_i hnone
    rw [List.map_append, List.map_singleton]
    refine List.Nodup.append h (List.nodup_singleton _) ?_
    rw [List.disjoint_singleton]
    intro hmem
    obtain ⟨x, hx, rfl⟩ := List.mem_map.mp hmem
    have hget : table.get x.1 = some x.2 := (HashMap.lookup_eq_some_of_nodup h).mpr hx
    rw [hget] at hnone
    exact hnone rfl

variable {r : Builder × TagMap GroupIdx}

/-- A table is changed by insertions only. -/
theorem keys_collectGroups {s} (hrun : collectGroups fix fuel elements s = some r)
    (hs : (s.2.map Prod.fst).Nodup) : (r.2.map Prod.fst).Nodup := by
  induction fuel generalizing elements s r with
  | zero => cases hrun
  | succ fuel ih =>
    refine FixVersion.foldlM_keeps (P := fun s => (s.2.map Prod.fst).Nodup) ?_ hrun hs
    intro s x t hstep hkeys
    cases x with
    | field ref =>
      obtain rfl := Option.some.inj hstep
      exact hkeys
    | component ref =>
      cases hc : fix.getComponent ref.componentId with
      | none =>
        simp only [hc] at hstep
        obtain rfl := Option.some.inj hstep
        exact hkeys
      | some c =>
        simp only [hc] at hstep
        exact ih hstep hkeys
    | group ref =>
      cases hg : fix.getGroup ref.groupId with
      | none =>
        simp only [hg] at hstep
        obtain rfl := Option.some.inj hstep
        exact hkeys
      | some g =>
        simp only [hg] at hstep
        obtain ⟨r, -, rfl⟩ := Option.map_eq_some_iff.mp hstep
        exact keys_insertTag hkeys g.numInGroupTag r.2

theorem collectGroups_tabulates {sources} (hvalid : b.Valid fix sources [])
    (hrun : collectGroups fix fuel elements (b, []) = some r) :
    (∃ sources', r.1.Valid fix sources' []) ∧ b.Grows r.1 [] ∧ Tabulates fix r.1 elements r.2 := by
  obtain ⟨⟨more, hvalid'⟩, hgrows, ⟨groups, hgroups, hmaps, hsome⟩⟩ :=
    (collectsAt_internsAt fix fuel).1 sources [] b [] [] elements r hvalid (fun _ => rfl) (by simp) hrun
  exact ⟨⟨_, hvalid'⟩, hgrows, ⟨groups, hgroups, by simpa using hmaps, by simpa using hsome⟩,
    keys_collectGroups hrun List.nodup_nil⟩

/-! ## What a tag means in every message -/

/-- The groups that are noted: a tag has one if all the messages with it agree. -/
structure Notes (notes : TagMap (Option GroupIdx)) (entries : List (Nat × GroupIdx)) : Prop where
  keys : (notes.map Prod.fst).Nodup
  absent : ∀ tag, notes.get tag = none ↔ ∀ x ∈ entries, x.1 ≠ tag
  agreed : ∀ tag idx, notes.get tag = some (some idx) ↔
    (∃ x ∈ entries, x.1 = tag) ∧ ∀ x ∈ entries, x.1 = tag → x.2 = idx

/-- What a tag means once one more message has it. -/
def agree (idx : GroupIdx) : Option (Option GroupIdx) → Option GroupIdx
  | none => some idx
  | some g => if g = some idx then some idx else none

theorem get_noteGroup (notes : TagMap (Option GroupIdx)) (tag : Nat) (idx : GroupIdx) (t : Nat) :
    (noteGroup notes tag idx).get t = if t = tag then some (agree idx (notes.get tag)) else notes.get t := by
  rw [noteGroup]
  cases hget : notes.get tag with
  | none => exact get_insertTag notes tag (some idx) t
  | some g =>
    by_cases hg : g = some idx
    · by_cases ht : t = tag
      · simp [agree, hg, ht, hget]
      · simp [hg, ht]
    · simp only [ne_eq, hg, not_false_eq_true, if_true, agree, if_false]
      exact get_insertTag notes tag none t

theorem keys_noteGroup (h : (notes.map Prod.fst).Nodup) (tag : Nat) (idx : GroupIdx) :
    ((noteGroup notes tag idx).map Prod.fst).Nodup := by
  rw [noteGroup]
  split
  · split
    · exact keys_insertTag h tag none
    · exact h
  · exact keys_insertTag h tag (some idx)

theorem agree_eq_some {idx i g} :
    agree idx g = some i ↔ idx = i ∧ (g = none ∨ g = some (some i)) := by
  cases g with
  | none => simp [agree]
  | some g =>
    by_cases hg : g = some idx
    · simp [agree, hg]
    · simp only [agree, hg, if_false, reduceCtorEq, false_or, Option.some.injEq, false_iff, not_and]
      intro hidx heq
      exact hg (hidx ▸ heq)

theorem Notes.note (h : Notes notes entries) (tag : Nat) (idx : GroupIdx) :
    Notes (noteGroup notes tag idx) (entries ++ [(tag, idx)]) where
  keys := keys_noteGroup h.keys tag idx
  absent := by
    intro t
    rw [get_noteGroup]
    by_cases ht : t = tag
    · simp [ht]
    · rw [if_neg ht, h.absent t, List.forall_mem_append, List.forall_mem_singleton]
      exact ⟨fun hall => ⟨hall, fun heq => ht heq.symm⟩, fun hall => hall.1⟩
  agreed := by
    intro t i
    rw [get_noteGroup]
    by_cases ht : t = tag
    · -- the tag that is noted: it had no group before, or the same one
      subst ht
      rw [if_pos rfl, Option.some.injEq, agree_eq_some, h.absent t, h.agreed t i]
      constructor
      · intro ⟨hidx, hbefore⟩
        refine ⟨⟨(t, idx), by simp, rfl⟩, ?_⟩
        intro x hx hxt
        rcases List.mem_append.mp hx with hx | hx
        · rcases hbefore with hnone | ⟨-, hall⟩
          · exact absurd hxt (hnone x hx)
          · exact hall x hx hxt
        · rw [List.mem_singleton.mp hx]
          exact hidx
      · intro ⟨_, hall⟩
        refine ⟨hall (t, idx) (by simp) rfl, ?_⟩
        by_cases hsome : ∃ x ∈ entries, x.1 = t
        · exact .inr ⟨hsome, fun x hx => hall x (List.mem_append_left _ hx)⟩
        · exact .inl fun x hx hxt => hsome ⟨x, hx, hxt⟩
    · have hother : ∀ x ∈ entries ++ [(tag, idx)], x.1 = t → x ∈ entries := by
        intro x hx hxt
        rcases List.mem_append.mp hx with hx | hx
        · exact hx
        · rw [List.mem_singleton.mp hx] at hxt
          exact absurd hxt.symm ht
      rw [if_neg ht, h.agreed t i]
      constructor
      · intro ⟨⟨x, hx, hxt⟩, hall⟩
        exact ⟨⟨x, List.mem_append_left _ hx, hxt⟩, fun y hy hyt => hall y (hother y hy hyt) hyt⟩
      · intro ⟨⟨x, hx, hxt⟩, hall⟩
        exact ⟨⟨x, hother x hx hxt, hxt⟩, fun y hy hyt => hall y (List.mem_append_left _ hy) hyt⟩

theorem Notes.fold (h : Notes notes entries) (table : TagMap GroupIdx) :
    Notes (table.foldl (fun notes y => noteGroup notes y.1 y.2) notes) (entries ++ table) := by
  induction table generalizing notes entries with
  | nil => simpa using h
  | cons x table ih =>
    have hnext := ih (h.note x.1 x.2)
    rw [List.append_assoc] at hnext
    exact hnext

/-! ## The messages -/

structure Progress (fix : FixVersion) (done : List Message) (c : Compiled) : Prop where
  valid : ∃ sources, c.builder.Valid fix sources []
  messages : List.Forall₂ (fun m d => Tabulates fix c.builder m.elements d.groups) done c.messages
  notes : Notes c.byNumInGroup (c.messages.flatMap MessageDef.groups)
  types : ∀ x ∈ c.messagesByType, x.2 < c.messages.length

theorem Progress.addMessage {done : List Message} {c c' : Compiled} (h : Progress fix done c) {m : Message}
    (hrun : addMessage fix fuel c m = some c') :
    Progress fix (done ++ [m]) c' ∧ c.builder.Grows c'.builder [] := by
  obtain ⟨sources, hvalid⟩ := h.valid
  obtain ⟨r, hr, rfl⟩ := Option.map_eq_some_iff.mp hrun
  obtain ⟨hvalid', hgrows, htable⟩ := collectGroups_tabulates hvalid hr
  refine ⟨⟨hvalid', ?_, ?_, fun x hx => ?_⟩, hgrows⟩
  · have hold : List.Forall₂ (fun m d => Tabulates fix r.1 m.elements d.groups) done c.messages :=
      h.messages.imp fun m d => hgrows.tabulates
    exact List.rel_append hold (.cons htable .nil)
  · have hnotes := h.notes.fold r.2
    rw [List.flatMap_append, List.flatMap_singleton]
    exact hnotes
  · simp only [insertType, List.length_append, List.length_singleton] at hx ⊢
    split at hx
    · obtain ⟨y, hy, rfl⟩ := List.mem_map.mp hx
      split
      · exact Nat.lt_succ_self _
      · exact Nat.lt_succ_of_lt (h.types y hy)
    · rcases List.mem_append.mp hx with hx | hx
      · exact Nat.lt_succ_of_lt (h.types x hx)
      · rw [List.mem_singleton.mp hx]
        exact Nat.lt_succ_self _

theorem Progress.run {done messages c c'} (h : Progress fix done c)
    (hrun : messages.foldlM (Builder.addMessage fix fuel) c = some c') :
    Progress fix (done ++ messages) c' ∧ c.builder.Grows c'.builder [] := by
  induction messages generalizing done c with
  | nil =>
    obtain rfl := Option.some.inj hrun
    rw [List.append_nil]
    exact ⟨h, .refl _ _⟩
  | cons m messages ih =>
    obtain ⟨c₁, hfirst, hrest⟩ := Option.bind_eq_some_iff.mp hrun
    obtain ⟨h₁, hgrows₁⟩ := h.addMessage hfirst
    obtain ⟨h₂, hgrows₂⟩ := ih h₁ hrest
    rw [List.append_assoc, List.singleton_append] at h₂
    exact ⟨h₂, hgrows₁.trans hgrows₂⟩

/-- The elements of the header, none if there is no header. -/
def headerElements (fix : FixVersion) : List MessageElement :=
  ((fix.getComponentByName "StandardHeader").map Component.elements).getD []

theorem valid_empty (fix : FixVersion) : Valid fix [] [] ⟨[], []⟩ where
  length := rfl
  slot_of := by simp
  of_slot := by simp [TagMap.get]
  stored := by simp
  pending_lt := by simp
  compiled := by simp

theorem headerGroups_tabulates (hrun : headerGroups fix fuel = some r) :
    (∃ sources, r.1.Valid fix sources []) ∧ Tabulates fix r.1 (headerElements fix) r.2 := by
  rw [headerGroups] at hrun
  rw [headerElements]
  cases hheader : fix.getComponentByName "StandardHeader" with
  | none =>
    rw [hheader] at hrun
    obtain rfl := Option.some.inj hrun
    exact ⟨⟨[], valid_empty fix⟩, ⟨[], FixVersion.groups_nil fix, fun _ => rfl, by simp⟩, List.nodup_nil⟩
  | some header =>
    rw [hheader] at hrun
    obtain ⟨hvalid, -, htable⟩ := collectGroups_tabulates (valid_empty fix) hrun
    exact ⟨hvalid, htable⟩

/-- The tables a dictionary is made of. -/
theorem build_eq_some {d} (hrun : build fix fuel = some d) :
    ∃ c : Compiled, Progress fix (sortedMessages fix) c ∧
      Tabulates fix c.builder (headerElements fix) d.headerGroups ∧ d.groups = c.builder.groups ∧
      d.messages = c.messages ∧
      d.globalGroups = (c.byNumInGroup.filterMap fun x => x.2.map fun g => (x.1, g)) ∧
      d.messagesByType = c.messagesByType := by
  obtain ⟨header, hheader, hrun⟩ := Option.bind_eq_some_iff.mp hrun
  obtain ⟨c, hc, rfl⟩ := Option.map_eq_some_iff.mp hrun
  obtain ⟨hvalid, htable⟩ := headerGroups_tabulates hheader
  have hstart : Progress fix [] ⟨header.1, [], [], []⟩ :=
    ⟨hvalid, .nil, ⟨List.nodup_nil, by simp [TagMap.get], by simp [TagMap.get]⟩, by simp⟩
  obtain ⟨hprogress, hgrows⟩ := hstart.run hc
  exact ⟨c, hprogress, hgrows.tabulates htable, rfl, rfl, rfl, rfl⟩

/-- **Compiling ends** where components do not contain each other. -/
theorem build_returns (hacyclic : fix.ComponentsAcyclic) :
    ∃ d, build fix (depthFor fix fix.groups.values.length fix.components.keys.length) = some d := by
  have hmissing (b : Builder) : missing fix b ≤ fix.groups.values.length := List.countP_le_length
  have hends := collectGroups_returns hacyclic fix.groups.values.length
  have hcollect (elements : List MessageElement) (b : Builder) := hends _ elements _ b []
    (within_length fix elements) (Nat.le_refl _) (hmissing b)
  have hheader : ∃ r, headerGroups fix
      (depthFor fix fix.groups.values.length fix.components.keys.length) = some r := by
    rw [headerGroups]
    split
    · obtain ⟨r, hr, -⟩ := hcollect _ ⟨[], []⟩
      exact ⟨r, hr⟩
    · exact ⟨_, rfl⟩
  obtain ⟨header, hheader⟩ := hheader
  have hmessage : ∀ (c : Compiled) (m : Message), True → ∃ c', addMessage fix
      (depthFor fix fix.groups.values.length fix.components.keys.length) c m = some c' ∧ True := by
    intro c m _
    obtain ⟨r, hr, -⟩ := hcollect m.elements c.builder
    exact ⟨_, by rw [addMessage, hr]; rfl, trivial⟩
  obtain ⟨c, hc, -⟩ := FixVersion.foldlM_returns (P := fun _ => True) hmessage (sortedMessages fix)
    (s := ⟨header.1, [], [], []⟩) trivial
  exact ⟨_, by rw [build, hheader, Option.bind_some, hc]; rfl⟩

end Builder

/-! ## The whole dictionary -/

variable {groups : List Group}

namespace FixVersion

/-- A group that is reached from the header or a message, through other groups or not. -/
inductive Reached (fix : FixVersion) : Group → Prop
  | header {header : Component} {groups : List Group} {g : Group}
      (hheader : fix.getComponentByName "StandardHeader" = some header)
      (hgroups : fix.Groups header.elements groups) (hg : g ∈ groups) : Reached fix g
  | message {m : Message} {groups : List Group} {g : Group} (hm : m ∈ fix.messages.values)
      (hgroups : fix.Groups m.elements groups) (hg : g ∈ groups) : Reached fix g
  | nested {h : Group} {groups : List Group} {g : Group} (hh : Reached fix h)
      (hgroups : fix.Groups h.elements groups) (hg : g ∈ groups) : Reached fix g

/-- A table that maps each NumInGroup tag in a list of elements to the last group with
it, by its place among `sources`. -/
def TableOf (fix : FixVersion) (sources : List Group) (elements : List MessageElement)
    (table : TagMap GroupIdx) : Prop :=
  ∃ groups, fix.Groups elements groups ∧ ∀ tag, table.get tag = (lastWith tag groups).bind sources.idxOf?

/-- A group as the repository defines it: its delimiter is the first tag of its
elements, and each tag has the place where it comes first. -/
structure DefinitionOf (fix : FixVersion) (sources : List Group) (g : Group) (d : GroupDef) : Prop where
  numInGroup : d.numInGroup = g.numInGroupTag
  order : ∃ tags, fix.Flattens g.elements tags ∧ d.delimiter = tags.head?.getD 0 ∧
    ∀ tag, d.members.get tag = tags.idxOf? tag
  nested : fix.TableOf sources g.elements d.nested

/-- A dictionary with one slot for each of `sources`. -/
structure DictionaryOf (fix : FixVersion) (sources : List Group) (d : Dictionary) : Prop where
  once : (sources.map Group.id).Nodup
  reached : ∀ g, fix.Reached g → g ∈ sources
  groups : List.Forall₂ (fix.DefinitionOf sources) sources d.groups
  header : fix.TableOf sources (Builder.headerElements fix) d.headerGroups
  messages : List.Forall₂ (fun m table => fix.TableOf sources m.elements table.groups)
    (Builder.sortedMessages fix) d.messages
  globalGroups : ∀ tag idx, d.globalGroups.get tag = some idx ↔
    (∃ m ∈ d.messages, (m.groups.get tag).isSome) ∧
      ∀ m ∈ d.messages, ∀ i, m.groups.get tag = some i → i = idx

/-- Every group is stored under its own id. -/
def GroupsById (fix : FixVersion) : Prop := ∀ id g, fix.getGroup id = some g → g.id = id

variable {fix : FixVersion} {b : Builder} {sources : List Group}

theorem Groups.stored (h : fix.Groups elements groups) (hg : g ∈ groups) :
    ∃ id, fix.getGroup id = some g := by
  obtain ⟨out, -, rfl⟩ := h
  obtain ⟨x, -, hx⟩ := List.mem_filterMap.mp hg
  cases x with
  | group ref => exact ⟨ref.groupId, hx⟩
  | _ => cases hx

theorem Groups.unique {groups'} (h : fix.Groups elements groups) (h' : fix.Groups elements groups') :
    groups = groups' := by
  obtain ⟨out, hout, rfl⟩ := h
  obtain ⟨out', hout', rfl⟩ := h'
  rw [hout.unique hout']

theorem GroupsById.eq_of_id (h : fix.GroupsById) {g'} (hg : ∃ id, fix.getGroup id = some g)
    (hg' : ∃ id, fix.getGroup id = some g') (hid : g.id = g'.id) : g = g' := by
  obtain ⟨i, hi⟩ := hg
  obtain ⟨j, hj⟩ := hg'
  rw [h i g hi, h j g' hj] at hid
  rw [hid, hj] at hi
  exact (Option.some.inj hi).symm

end FixVersion

namespace Builder

variable {fix : FixVersion} {b : Builder} {sources : List Group}

section
variable (h : b.Valid fix sources [])
include h

theorem Valid.once : (sources.map Group.id).Nodup := by
  rw [List.nodup_iff_getElem?_ne_getElem?]
  intro i j hij hj heq
  have hj' : j < sources.length := by simpa using hj
  obtain ⟨g, hg⟩ : ∃ g, sources[i]? = some g := ⟨_, List.getElem?_eq_getElem (by omega)⟩
  obtain ⟨g', hg'⟩ : ∃ g, sources[j]? = some g := ⟨_, List.getElem?_eq_getElem hj'⟩
  rw [List.getElem?_map, List.getElem?_map, hg, hg', Option.map_some, Option.map_some,
    Option.some.injEq] at heq
  have hi := h.slot_of i g hg
  have hj := h.slot_of j g' hg'
  rw [slot, heq] at hi
  rw [slot, hi] at hj
  exact absurd (Option.some.inj hj) (Nat.ne_of_lt hij)

section
variable (hids : fix.GroupsById)
include hids

theorem Valid.slot_eq (hg : ∃ id, fix.getGroup id = some g) : b.slot g = sources.idxOf? g := by
  have hnodup : sources.Nodup := h.once.of_map
  cases hslot : b.slot g with
  | some i =>
    obtain ⟨g', hg', hid⟩ := h.of_slot g.id i hslot
    have hstored := h.stored g' (List.mem_of_getElem? hg')
    rw [hids.eq_of_id hstored hg hid] at hg'
    obtain ⟨hlt, hget⟩ := List.getElem?_eq_some_iff.mp hg'
    refine (List.idxOf?_eq_some_iff.mpr ⟨hlt, hget, ?_⟩).symm
    intro j hj hsame
    exact List.pairwise_iff_getElem.mp hnodup j i (by omega) hlt hj (hsame.trans hget.symm)
  | none =>
    symm
    rw [List.idxOf?_eq_none_iff]
    intro hmem
    obtain ⟨i, hi⟩ := List.mem_iff_getElem?.mp hmem
    rw [h.slot_of i g hi] at hslot
    cases hslot

theorem Maps.tableOf (hmaps : b.Maps table groups) (hgroups : fix.Groups elements groups) :
    fix.TableOf sources elements table := by
  refine ⟨groups, hgroups, fun tag => ?_⟩
  rw [hmaps tag]
  cases hlast : lastWith tag groups with
  | none => rfl
  | some g =>
    have hmem : g ∈ groups := List.mem_reverse.mp (List.mem_of_find?_eq_some hlast)
    exact h.slot_eq hids (hgroups.stored hmem)

theorem Tabulates.tableOf (htable : Tabulates fix b elements table) :
    fix.TableOf sources elements table := by
  obtain ⟨groups, hgroups, hmaps, -⟩ := htable.groups
  exact hmaps.tableOf h hids hgroups

theorem CompiledAs.definitionOf {d} (hd : CompiledAs fix b g d)
    (hsmall : ∀ tags, fix.Flattens g.elements tags → tags.length < 65536) :
    fix.DefinitionOf sources g d where
  numInGroup := hd.numInGroup
  order := by
    obtain ⟨tags, hflat, hdelimiter, hmembers⟩ := hd.order
    refine ⟨tags, hflat, hdelimiter, fun tag => ?_⟩
    rw [hmembers, get_positions]
    -- places are narrowed to sixteen bits, which they fit in
    cases hidx : tags.idxOf? tag with
    | none => rfl
    | some i =>
      obtain ⟨hlt, -⟩ := List.idxOf?_eq_some_iff.mp hidx
      have hlength := hsmall tags hflat
      rw [Option.map_some, asU16, Nat.mod_eq_of_lt (by omega)]
  nested := by
    obtain ⟨groups, hgroups, -, hmaps⟩ := hd.nested
    exact hmaps.tableOf h hids hgroups

theorem Valid.definitions
    (hsmall : ∀ id g tags, fix.getGroup id = some g → fix.Flattens g.elements tags → tags.length < 65536) :
    List.Forall₂ (fix.DefinitionOf sources) sources b.groups := by
  rw [List.forall₂_iff_get]
  refine ⟨h.length.symm, fun i hi hi' => ?_⟩
  obtain ⟨d, hd, hcompiled⟩ := h.compiled i sources[i] (List.getElem?_eq_getElem hi) List.not_mem_nil
  rw [List.getElem?_eq_getElem hi'] at hd
  obtain ⟨id, hid⟩ := h.stored sources[i] (List.getElem_mem hi)
  rw [List.get_eq_getElem, List.get_eq_getElem, Option.some.inj hd]
  exact hcompiled.definitionOf h hids fun tags => hsmall id _ tags hid

theorem Valid.mem_sources {groups'} (hgroups : fix.Groups elements groups)
    (hgroups' : fix.Groups elements groups') (hsome : ∀ g ∈ groups', (b.slot g).isSome)
    (hg : g ∈ groups) : g ∈ sources := by
  rw [hgroups.unique hgroups'] at hg
  have hslot := hsome g hg
  rw [h.slot_eq hids (hgroups'.stored hg)] at hslot
  by_contra hnot
  rw [List.idxOf?_eq_none_iff.mpr hnot] at hslot
  cases hslot

end

end

theorem mem_sortedMessages {m} : m ∈ sortedMessages fix ↔ m ∈ fix.messages.values :=
  (List.mergeSort_perm ..).mem_iff

theorem mem_sources_of_reached (h : b.Valid fix sources []) (hids : fix.GroupsById)
    {headerTable : TagMap GroupIdx} (hheader : Tabulates fix b (headerElements fix) headerTable)
    {defs : List MessageDef}
    (hmessages : List.Forall₂ (fun m d => Tabulates fix b m.elements d.groups) (sortedMessages fix) defs)
    (hg : fix.Reached g) : g ∈ sources := by
  induction hg with
  | header hcomponent hgroups hg =>
    obtain ⟨groups', hgroups', -, hsome⟩ := hheader.groups
    rw [headerElements, hcomponent] at hgroups'
    exact h.mem_sources hids hgroups hgroups' hsome hg
  | message hm hgroups hg =>
    obtain ⟨d, -, htable⟩ := hmessages.exists_of_mem (mem_sortedMessages.mpr hm)
    obtain ⟨groups', hgroups', -, hsome⟩ := htable.groups
    exact h.mem_sources hids hgroups hgroups' hsome hg
  | nested _ hgroups hg ih =>
    obtain ⟨i, hi⟩ := List.mem_iff_getElem?.mp ih
    obtain ⟨d, -, hcompiled⟩ := h.compiled i _ hi List.not_mem_nil
    obtain ⟨groups', hgroups', hsome, -⟩ := hcompiled.nested
    exact h.mem_sources hids hgroups hgroups' hsome hg

/-- What is noted for all messages, as the dictionary has it. -/
theorem Notes.get_filterMap (h : Notes notes entries) (tag : Nat) (idx : GroupIdx) :
    TagMap.get (notes.filterMap fun x => x.2.map fun g => (x.1, g)) tag = some idx ↔
      notes.get tag = some (some idx) := by
  have hsub : ((notes.filterMap fun x => x.2.map fun g => (x.1, g)).map Prod.fst).Sublist
      (notes.map Prod.fst) := by
    generalize notes = notes
    induction notes with
    | nil => exact .slnil
    | cons x notes ih =>
      obtain ⟨t, g⟩ := x
      cases g with
      | none => exact .cons _ ih
      | some g => exact .cons_cons _ ih
  rw [TagMap.get, HashMap.lookup_eq_some_of_nodup (h.keys.sublist hsub), TagMap.get,
    HashMap.lookup_eq_some_of_nodup h.keys, List.mem_filterMap]
  constructor
  · intro hsome
    obtain ⟨x, hx, hmap⟩ := hsome
    obtain ⟨g, hg, heq⟩ := Option.map_eq_some_iff.mp hmap
    obtain ⟨t, g'⟩ := x
    obtain rfl : g' = some g := hg
    cases heq
    exact hx
  · intro hmem
    exact ⟨(tag, some idx), hmem, rfl⟩

/-- A tag means the group that all the messages with it agree on. -/
theorem Notes.global {defs : List MessageDef} (h : Notes notes (defs.flatMap MessageDef.groups))
    (hkeys : ∀ d ∈ defs, (d.groups.map Prod.fst).Nodup) (tag : Nat) (idx : GroupIdx) :
    TagMap.get (notes.filterMap fun x => x.2.map fun g => (x.1, g)) tag = some idx ↔
      (∃ m ∈ defs, (m.groups.get tag).isSome) ∧
        ∀ m ∈ defs, ∀ i, m.groups.get tag = some i → i = idx := by
  have hget : ∀ d ∈ defs, ∀ i, d.groups.get tag = some i ↔ (tag, i) ∈ d.groups := fun d hd i =>
    HashMap.lookup_eq_some_of_nodup (hkeys d hd)
  rw [h.get_filterMap, h.agreed tag idx]
  refine and_congr ?_ ?_
  · constructor
    · intro ⟨x, hx, hxt⟩
      obtain ⟨d, hd, hmem⟩ := List.mem_flatMap.mp hx
      obtain ⟨t, i⟩ := x
      obtain rfl : t = tag := hxt
      exact ⟨d, hd, by rw [(hget d hd i).mpr hmem]; rfl⟩
    · intro ⟨d, hd, hsome⟩
      obtain ⟨i, hi⟩ := Option.isSome_iff_exists.mp hsome
      exact ⟨(tag, i), List.mem_flatMap.mpr ⟨d, hd, (hget d hd i).mp hi⟩, rfl⟩
  · constructor
    · intro hall d hd i hi
      exact hall (tag, i) (List.mem_flatMap.mpr ⟨d, hd, (hget d hd i).mp hi⟩) rfl
    · intro hall x hx hxt
      obtain ⟨d, hd, hmem⟩ := List.mem_flatMap.mp hx
      obtain ⟨t, i⟩ := x
      obtain rfl : t = tag := hxt
      exact hall d hd i ((hget d hd i).mpr hmem)

/-- **The dictionary is the repository's.** -/
theorem build_dictionaryOf (hids : fix.GroupsById)
    (hsmall : ∀ id g tags, fix.getGroup id = some g → fix.Flattens g.elements tags → tags.length < 65536)
    {d : Dictionary} (hrun : build fix fuel = some d) :
    ∃ sources, fix.DictionaryOf sources d := by
  obtain ⟨c, ⟨⟨sources, hvalid⟩, hmessages, hnotes, -⟩, hheader, hgroups, hdefs, hglobal, -⟩ :=
    build_eq_some hrun
  refine ⟨sources, hvalid.once, ?_, ?_, hheader.tableOf hvalid hids, ?_, ?_⟩
  · intro g hg
    exact mem_sources_of_reached hvalid hids hheader hmessages hg
  · rw [hgroups]
    exact hvalid.definitions hids hsmall
  · rw [hdefs]
    exact hmessages.imp fun m table htable => htable.tableOf hvalid hids
  · rw [hdefs, hglobal]
    refine hnotes.global fun table htable => ?_
    obtain ⟨m, -, hm⟩ := hmessages.flip.exists_of_mem htable
    exact hm.keys

/-- **Compiling is correct**: it ends, and every group reached from the header or a message
has one slot, compiled from its own elements. -/
theorem build_compiles (fix : FixVersion) (hacyclic : fix.ComponentsAcyclic) (hids : fix.GroupsById)
    (hsmall : ∀ id g tags, fix.getGroup id = some g → fix.Flattens g.elements tags → tags.length < 65536) :
    (∃ fuel d, build fix fuel = some d) ∧
      ∀ fuel d, build fix fuel = some d → ∃ sources, fix.DictionaryOf sources d :=
  ⟨⟨_, build_returns hacyclic⟩, fun _ _ hrun => build_dictionaryOf hids hsmall hrun⟩

end Builder

/-- A repository whose two groups contain each other, through a component. -/
def crossed : FixVersion where
  beginString := "FIX.4.4"
  fields := ⟨[(8, ⟨8, "BeginString", "String", none, none⟩), (448, ⟨448, "PartyID", "String", none, none⟩),
    (453, ⟨453, "NoPartyIDs", "NumInGroup", none, none⟩), (523, ⟨523, "PartySubID", "String", none, none⟩),
    (802, ⟨802, "NoPartySubIDs", "NumInGroup", none, none⟩)], by decide⟩
  components := ⟨[(10, ⟨10, "StandardHeader", [.field ⟨8, true⟩], []⟩),
    (11, ⟨11, "Parties", [.group ⟨1, false⟩], []⟩),
    (12, ⟨12, "Order", [.component ⟨11, false⟩], []⟩)], by decide⟩
  groups := ⟨[(1, ⟨1, "PartyGrp", false, 453, [.field ⟨448, false⟩, .group ⟨2, false⟩], []⟩),
    (2, ⟨2, "PartySubGrp", false, 802, [.field ⟨523, false⟩, .component ⟨11, false⟩], []⟩)], by decide⟩
  messages := ⟨[("D", ⟨"NewOrderSingle", "D", [.component ⟨12, true⟩]⟩)], by decide⟩

theorem crossed_acyclic : crossed.ComponentsAcyclic :=
  FixVersion.computeMemberSets_returns_iff.mp ⟨4, _, rfl⟩

theorem crossed_groupsById : crossed.GroupsById := by
  intro id g hg
  have hall : ∀ x ∈ crossed.groups.entries, x.2.id = x.1 := by decide
  exact hall (id, g) (HashMap.get_eq_some_iff.mp hg)

theorem crossed_flattens {tags} (hg : crossed.getGroup id = some g)
    (htags : crossed.Flattens g.elements tags) : tags = [448, 802] ∨ tags = [523, 453] := by
  have hall : ∀ x ∈ crossed.groups.entries, crossed.memberOrder 3 x.2.elements [] = some [448, 802] ∨
      crossed.memberOrder 3 x.2.elements [] = some [523, 453] := by decide
  rcases hall (id, g) (HashMap.get_eq_some_iff.mp hg) with horder | horder
  · exact .inl (htags.unique (FixVersion.memberOrder_eq_some horder))
  · exact .inr (htags.unique (FixVersion.memberOrder_eq_some horder))

theorem crossed_groups : ∃ d, Builder.build crossed 9 = some d ∧
    d.groups = [⟨453, 448, [(448, 0), (802, 1)], [(802, 1)]⟩,
      ⟨802, 523, [(523, 0), (453, 1)], [(453, 0)]⟩] := by
  have hmessages : Builder.sortedMessages crossed =
      [⟨"NewOrderSingle", "D", [.component ⟨12, true⟩]⟩] := List.mergeSort_singleton _
  refine Option.map_eq_some_iff.mp ?_
  rw [Builder.build, hmessages]
  rfl

theorem build_crossed : ∃ d sources, Builder.build crossed 9 = some d ∧
    crossed.DictionaryOf sources d ∧ d.groups.map GroupDef.delimiter = [448, 523] := by
  obtain ⟨d, hd, hgroups⟩ := crossed_groups
  obtain ⟨-, hof⟩ := Builder.build_compiles crossed crossed_acyclic crossed_groupsById
    fun id g tags hg htags => by rcases crossed_flattens hg htags with rfl | rfl <;> decide
  obtain ⟨sources, hsources⟩ := hof 9 d hd
  exact ⟨d, sources, hd, hsources, by rw [hgroups]; rfl⟩

end Babelfix.Repo
