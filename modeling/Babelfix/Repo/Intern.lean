import Babelfix.Repo.Members

/-! # Interning groups

What compiling groups does to the tables: each group that is come to has one slot, whatever
groups it is met in, and once it is no longer being compiled the slot holds its delimiter,
its members and the slots of the groups in it. The recursion ends although groups may
contain each other, because each new group takes a slot before it is gone into. -/
namespace Babelfix.Repo

open Lib Tape

/-! ## Tables -/

variable {α : Type}

theorem get_cons (x : Nat × α) (table : TagMap α) (t : Nat) :
    TagMap.get (x :: table) t = if t = x.1 then some x.2 else table.get t := by
  obtain ⟨k, a⟩ := x
  by_cases h : t = k
  · simp [TagMap.get, h]
  · have hne : (t == k) = false := by simpa using h
    simp [TagMap.get, List.lookup_cons, hne, h]

theorem get_append_single (table : TagMap α) (tag : Nat) (a : α) (t : Nat) :
    TagMap.get (table ++ [(tag, a)]) t = (table.get t).or (if t = tag then some a else none) := by
  induction table with
  | nil => exact get_cons (tag, a) [] t
  | cons x table ih =>
    rw [List.cons_append, get_cons, get_cons, ih]
    split
    · rw [Option.some_or]
    · rfl

theorem get_insertTag (table : TagMap α) (tag : Nat) (a : α) (t : Nat) :
    (insertTag table tag a).get t = if t = tag then some a else table.get t := by
  have hmap : ∀ table : TagMap α, (TagMap.get (table.map fun x => if x.1 = tag then (tag, a) else x) t) =
      if t = tag then (table.get t).map fun _ => a else table.get t := by
    intro table
    induction table with
    | nil => simp [TagMap.get]
    | cons x table ih =>
      rw [List.map_cons, get_cons, get_cons, ih]
      by_cases hx : x.1 = tag
      · by_cases ht : t = tag <;> simp [hx, ht]
      · by_cases ht : t = x.1 <;> simp [hx, ht]
  rw [insertTag]
  split
  · rename_i hsome
    rw [hmap]
    split
    · rename_i ht
      obtain ⟨b, hb⟩ := Option.isSome_iff_exists.mp hsome
      rw [ht, hb, Option.map_some]
    · rfl
  · rename_i hnone
    rw [get_append_single]
    split
    · rename_i ht
      rw [ht, Option.not_isSome_iff_eq_none.mp hnone, Option.none_or]
    · rw [Option.or_none]

theorem get_orInsertTag (table : TagMap α) (tag : Nat) (a : α) (t : Nat) :
    (orInsertTag table tag a).get t = (table.get t).or (if t = tag then some a else none) := by
  rw [orInsertTag]
  split
  · rename_i hsome
    split
    · rename_i ht
      subst ht
      obtain ⟨b, hb⟩ := Option.isSome_iff_exists.mp hsome
      rw [hb, Option.some_or]
    · rw [Option.or_none]
  · exact get_append_single table tag a t

theorem get_positions (order : List Nat) (tag : Nat) :
    (Builder.positions order).get tag = (order.idxOf? tag).map asU16 := by
  have hfold : ∀ (order : List Nat) (k : Nat) (members : TagMap Nat),
      ((order.zipIdx k).foldl (fun members x => orInsertTag members x.1 (asU16 x.2)) members).get tag =
        (members.get tag).or ((order.idxOf? tag).map fun i => asU16 (i + k)) := by
    intro order
    induction order with
    | nil => simp
    | cons x order ih =>
      intro k members
      rw [List.zipIdx_cons, List.foldl_cons, ih, get_orInsertTag, Option.or_assoc, List.idxOf?_cons]
      by_cases hx : x = tag
      · simp [hx]
      · have hne : (x == tag) = false := by simpa using hx
        have hshift : (fun i => asU16 (i + k)) ∘ (fun i => i + 1) = fun i => asU16 (i + (k + 1)) := by
          funext i
          simp only [Function.comp, Nat.add_assoc, Nat.add_comm 1]
        rw [if_neg (fun h => hx h.symm), Option.none_or, hne, if_neg (by simp), Option.map_map, hshift]
  have hstart := hfold order 0 []
  exact hstart

/-! ## The slots -/

namespace FixVersion

def groupOf (fix : FixVersion) : MessageElement → Option Group
  | .group ref => fix.getGroup ref.groupId
  | _ => none

/-- The groups of a list of elements, in definition order. -/
def Groups (fix : FixVersion) (elements : List MessageElement) (groups : List Group) : Prop :=
  ∃ out, Unfolds fix.inComponents elements out ∧ groups = out.filterMap fix.groupOf

end FixVersion

/-- The last group of a list with a NumInGroup tag. -/
def lastWith (tag : Nat) (groups : List Group) : Option Group :=
  groups.reverse.find? fun g => g.numInGroupTag = tag

variable {g : Group} {ref : GroupRef}

namespace Builder

def slot (b : Builder) (g : Group) : Option GroupIdx := b.groupIds.get g.id

/-- A table that maps each tag to the slot of the last group with it. -/
def Maps (b : Builder) (table : TagMap GroupIdx) (groups : List Group) : Prop :=
  ∀ tag, table.get tag = (lastWith tag groups).bind b.slot

structure CompiledAs (fix : FixVersion) (b : Builder) (g : Group) (d : GroupDef) : Prop where
  numInGroup : d.numInGroup = g.numInGroupTag
  order : ∃ tags, fix.Flattens g.elements tags ∧ d.delimiter = tags.head?.getD 0 ∧
    d.members = positions tags
  nested : ∃ groups, fix.Groups g.elements groups ∧ (∀ h ∈ groups, (b.slot h).isSome) ∧
    b.Maps d.nested groups

/-- The slots are those of `sources`, and all but the `pending` ones are compiled. -/
structure Valid (fix : FixVersion) (sources : List Group) (pending : List Nat) (b : Builder) :
    Prop where
  length : b.groups.length = sources.length
  slot_of : ∀ i g, sources[i]? = some g → b.slot g = some i
  of_slot : ∀ id i, b.groupIds.get id = some i → ∃ g, sources[i]? = some g ∧ g.id = id
  stored : ∀ g ∈ sources, ∃ id, fix.getGroup id = some g
  pending_lt : ∀ i ∈ pending, i < sources.length
  compiled : ∀ i g, sources[i]? = some g → i ∉ pending → ∃ d, b.groups[i]? = some d ∧
    CompiledAs fix b g d

/-- The slots of `b` are kept, and what is being compiled is left alone. -/
structure Grows (b b' : Builder) (pending : List Nat) : Prop where
  slot : ∀ id i, b.groupIds.get id = some i → b'.groupIds.get id = some i
  pending : ∀ i ∈ pending, b'.groups[i]? = b.groups[i]?

variable {fix : FixVersion} {b b' : Builder} {sources : List Group} {pending : List Nat}

theorem Grows.refl (b : Builder) (pending : List Nat) : b.Grows b pending :=
  ⟨fun _ _ h => h, fun _ _ => rfl⟩

theorem Grows.trans {b''} (h : b.Grows b' pending) (h' : b'.Grows b'' pending) :
    b.Grows b'' pending where
  slot := fun id i hi => h'.slot id i (h.slot id i hi)
  pending := fun i hi => (h'.pending i hi).trans (h.pending i hi)

theorem Grows.isSome (h : b.Grows b' pending) (hg : (b.slot g).isSome) : (b'.slot g).isSome := by
  obtain ⟨i, hi⟩ := Option.isSome_iff_exists.mp hg
  rw [Builder.slot, h.slot g.id i hi]
  rfl

variable {groups : List Group}

theorem Grows.maps (h : b.Grows b' pending) {table} (hsome : ∀ g ∈ groups, (b.slot g).isSome)
    (hmaps : b.Maps table groups) : b'.Maps table groups := by
  intro tag
  rw [hmaps tag]
  cases hlast : lastWith tag groups with
  | none => rfl
  | some g =>
    have hmem : g ∈ groups := List.mem_reverse.mp (List.mem_of_find?_eq_some hlast)
    obtain ⟨i, hi⟩ := Option.isSome_iff_exists.mp (hsome g hmem)
    rw [Option.bind_some, Option.bind_some, hi]
    exact (h.slot g.id i hi).symm

theorem Grows.compiledAs (h : b.Grows b' pending) {d} (hc : CompiledAs fix b g d) :
    CompiledAs fix b' g d where
  numInGroup := hc.numInGroup
  order := hc.order
  nested := by
    obtain ⟨groups, hgroups, hsome, hmaps⟩ := hc.nested
    exact ⟨groups, hgroups, fun g hg => h.isSome (hsome g hg), h.maps hsome hmaps⟩

/-! ## Reserving and completing a slot -/

theorem slot_reserve (b : Builder) (g : Group) (id : Nat) :
    (b.reserve g).groupIds.get id =
      (b.groupIds.get id).or (if id = g.id then some b.groups.length else none) :=
  get_append_single ..

theorem Valid.reserve (h : b.Valid fix sources pending) (hnew : b.slot g = none)
    (hg : ∃ id, fix.getGroup id = some g) :
    (b.reserve g).Valid fix (sources ++ [g]) (b.groups.length :: pending) ∧ b.Grows (b.reserve g) pending ∧
      (b.reserve g).slot g = some b.groups.length := by
  have hgrows : b.Grows (b.reserve g) pending := by
    refine ⟨fun id i hi => ?_, fun i hi => ?_⟩
    · rw [slot_reserve, hi, Option.some_or]
    · have hlt := h.pending_lt i hi
      rw [← h.length] at hlt
      exact List.getElem?_append_left hlt
  have hslot : (b.reserve g).slot g = some b.groups.length := by
    rw [slot] at hnew
    rw [slot, slot_reserve, hnew, if_pos rfl, Option.none_or]
  refine ⟨⟨?_, ?_, ?_, ?_, ?_, ?_⟩, hgrows, hslot⟩
  · simp [Builder.reserve, h.length]
  · intro i g' hi
    rcases Nat.lt_or_ge i sources.length with hlt | hge
    · rw [List.getElem?_append_left hlt] at hi
      exact hgrows.slot _ _ (h.slot_of i g' hi)
    · rw [List.getElem?_append_right hge, List.getElem?_singleton] at hi
      split at hi
      · obtain rfl := Option.some.inj hi
        rw [hslot, h.length]
        congr 1
        omega
      · cases hi
  · intro id i hi
    rw [slot_reserve] at hi
    cases hold : b.groupIds.get id with
    | some j =>
      rw [hold, Option.some_or] at hi
      obtain rfl := Option.some.inj hi
      obtain ⟨g', hg', hid⟩ := h.of_slot id j hold
      exact ⟨g', by rw [List.getElem?_append_left (List.getElem?_eq_some_iff.mp hg').1, hg'], hid⟩
    | none =>
      rw [hold, Option.none_or] at hi
      split at hi
      · rename_i hid
        obtain rfl := Option.some.inj hi
        exact ⟨g, by rw [h.length, List.getElem?_append_right (Nat.le_refl _), Nat.sub_self]; rfl, hid.symm⟩
      · cases hi
  · intro g' hg'
    rcases List.mem_append.mp hg' with hg' | hg'
    · exact h.stored g' hg'
    · rw [List.mem_singleton.mp hg']
      exact hg
  · intro i hi
    rw [List.length_append, List.length_singleton]
    rcases List.mem_cons.mp hi with rfl | hi
    · rw [h.length]
      omega
    · have := h.pending_lt i hi
      omega
  · intro i g' hi hnot
    rw [List.mem_cons, not_or] at hnot
    have hlt : i < sources.length := by
      have hle := (List.getElem?_eq_some_iff.mp hi).1
      rw [List.length_append, List.length_singleton] at hle
      have hne := hnot.1
      rw [h.length] at hne
      omega
    rw [List.getElem?_append_left hlt] at hi
    obtain ⟨d, hd, hcompiled⟩ := h.compiled i g' hi hnot.2
    refine ⟨d, ?_, hgrows.compiledAs hcompiled⟩
    rw [← h.length] at hlt
    exact (List.getElem?_append_left hlt).trans hd

theorem Valid.complete {idx order nested d} (h : b.Valid fix sources (idx :: pending))
    (hidx : sources[idx]? = some g) (hslot : b.groups[idx]? = some d)
    (hnum : d.numInGroup = g.numInGroupTag) (horder : fix.Flattens g.elements order)
    (hgroups : fix.Groups g.elements groups) (hsome : ∀ g ∈ groups, (b.slot g).isSome)
    (hmaps : b.Maps nested groups) (hfresh : idx ∉ pending) :
    (b.complete idx order nested).Valid fix sources pending ∧
      b.Grows (b.complete idx order nested) pending := by
  have hget (i : Nat) : (b.complete idx order nested).groups[i]? =
      if idx = i then (b.groups[i]?).map fun d =>
        { d with delimiter := order.head?.getD 0, members := positions order, nested }
      else b.groups[i]? := by
    simp only [Builder.complete, List.getElem?_modify]
    split <;> simp
  have hgrows : b.Grows (b.complete idx order nested) pending := by
    refine ⟨fun _ _ hi => hi, fun i hi => ?_⟩
    rw [hget, if_neg]
    intro heq
    exact hfresh (heq ▸ hi)
  refine ⟨⟨?_, h.slot_of, h.of_slot, h.stored, fun i hi => h.pending_lt i (List.mem_cons_of_mem _ hi), ?_⟩,
    hgrows⟩
  · simp [Builder.complete, h.length]
  · intro i g' hi hnot
    rw [hget]
    by_cases hself : idx = i
    · subst hself
      rw [hidx] at hi
      obtain rfl := Option.some.inj hi
      rw [if_pos rfl, hslot]
      exact ⟨_, rfl, hnum, ⟨order, horder, rfl, rfl⟩, ⟨groups, hgroups, hsome, hmaps⟩⟩
    · rw [if_neg hself]
      have hnot' : i ∉ idx :: pending := by simp [hnot, Ne.symm hself]
      obtain ⟨d', hd', hcompiled⟩ := h.compiled i g' hi hnot'
      exact ⟨d', hd', hgrows.compiledAs hcompiled⟩

/-! ## Tables of slots -/

theorem lastWith_concat (tag : Nat) (groups : List Group) (g : Group) :
    lastWith tag (groups ++ [g]) = if g.numInGroupTag = tag then some g else lastWith tag groups := by
  by_cases h : g.numInGroupTag = tag <;> simp [h, lastWith]

theorem Maps.insert {table} (h : b.Maps table groups) {idx} (hslot : b.slot g = some idx) :
    b.Maps (insertTag table g.numInGroupTag idx) (groups ++ [g]) := by
  intro tag
  rw [get_insertTag, lastWith_concat]
  by_cases htag : tag = g.numInGroupTag
  · rw [if_pos htag, if_pos htag.symm, Option.bind_some, hslot]
  · rw [if_neg htag, if_neg fun heq => htag heq.symm, h tag]

/-! ## One element -/

section

variable {fuel : Nat} {elements : List MessageElement} {s : Builder × TagMap GroupIdx}

theorem collectGroups_nil : collectGroups fix (fuel + 1) [] s = some s := rfl

theorem collectGroups_component {ref c} (hc : fix.getComponent ref.componentId = some c) :
    collectGroups fix (fuel + 1) (.component ref :: elements) s =
      (collectGroups fix fuel c.elements s).bind (collectGroups fix (fuel + 1) elements) := by
  simp only [collectGroups, List.foldlM_cons, hc]
  rfl

theorem collectGroups_component_none {ref} (hc : fix.getComponent ref.componentId = none) :
    collectGroups fix (fuel + 1) (.component ref :: elements) s =
      collectGroups fix (fuel + 1) elements s := by
  simp only [collectGroups, List.foldlM_cons, hc]
  rfl

theorem collectGroups_group (hg : fix.getGroup ref.groupId = some g) :
    collectGroups fix (fuel + 1) (.group ref :: elements) s =
      ((intern fix fuel g s.1).map fun x => (x.1, insertTag s.2 g.numInGroupTag x.2)).bind
        (collectGroups fix (fuel + 1) elements) := by
  simp only [collectGroups, List.foldlM_cons, hg]
  rfl

theorem collectGroups_group_none (hg : fix.getGroup ref.groupId = none) :
    collectGroups fix (fuel + 1) (.group ref :: elements) s =
      collectGroups fix (fuel + 1) elements s := by
  simp only [collectGroups, List.foldlM_cons, hg]
  rfl

end

end Builder

namespace FixVersion

variable {fix : FixVersion} {elements : List MessageElement} {groups inner : List Group}

theorem groups_nil (fix : FixVersion) : fix.Groups [] [] := ⟨[], .nil, rfl⟩

section
variable (h : fix.Groups elements groups)
include h

theorem Groups.field (ref : FieldRef) : fix.Groups (.field ref :: elements) groups := by
  obtain ⟨out, hout, rfl⟩ := h
  exact ⟨_, .leaf (inComponents_field fix ref) hout, rfl⟩

theorem Groups.component {ref c} (hc : fix.getComponent ref.componentId = some c)
    (hinner : fix.Groups c.elements inner) :
    fix.Groups (.component ref :: elements) (inner ++ groups) := by
  obtain ⟨out, hout, rfl⟩ := h
  obtain ⟨out', hout', rfl⟩ := hinner
  refine ⟨_, .node (by rw [inComponents_component, hc]; rfl) hout' hout, ?_⟩
  rw [List.filterMap_cons, List.filterMap_append]
  rfl

theorem Groups.component_none {ref} (hc : fix.getComponent ref.componentId = none) :
    fix.Groups (.component ref :: elements) groups := by
  obtain ⟨out, hout, rfl⟩ := h
  exact ⟨_, .leaf (by rw [inComponents_component, hc]; rfl) hout, rfl⟩

theorem Groups.group (hg : fix.getGroup ref.groupId = some g) :
    fix.Groups (.group ref :: elements) (g :: groups) := by
  obtain ⟨out, hout, rfl⟩ := h
  refine ⟨_, .leaf (inComponents_group fix ref) hout, ?_⟩
  rw [List.filterMap_cons]
  simp only [groupOf, hg]

theorem Groups.group_none (hg : fix.getGroup ref.groupId = none) :
    fix.Groups (.group ref :: elements) groups := by
  obtain ⟨out, hout, rfl⟩ := h
  refine ⟨_, .leaf (inComponents_group fix ref) hout, ?_⟩
  rw [List.filterMap_cons]
  simp only [groupOf, hg]

end

end FixVersion

/-! ## The recursion -/

namespace Builder

variable {fix : FixVersion} {b b' : Builder} {sources : List Group} {pending : List Nat}

/-- What collecting groups comes to: each has a slot, and the table maps their tags to
the slots, besides what it mapped before. -/
structure Collects (fix : FixVersion) (sources : List Group) (pending : List Nat) (b : Builder)
    (before : List Group) (elements : List MessageElement) (r : Builder × TagMap GroupIdx) : Prop where
  valid : ∃ more, r.1.Valid fix (sources ++ more) pending
  grows : b.Grows r.1 pending
  groups : ∃ groups, fix.Groups elements groups ∧ r.1.Maps r.2 (before ++ groups) ∧
    ∀ g ∈ before ++ groups, (r.1.slot g).isSome

structure Interns (fix : FixVersion) (sources : List Group) (pending : List Nat) (b : Builder)
    (g : Group) (r : Builder × GroupIdx) : Prop where
  valid : ∃ more, r.1.Valid fix (sources ++ more) pending
  grows : b.Grows r.1 pending
  slot : r.1.slot g = some r.2

/-- A recursion that interns. -/
def InternsAt (fix : FixVersion) (fuel : Nat) : Prop :=
  ∀ sources pending b g r, b.Valid fix sources pending → (∃ id, fix.getGroup id = some g) →
    intern fix fuel g b = some r → Interns fix sources pending b g r

/-- A recursion that collects. -/
def CollectsAt (fix : FixVersion) (fuel : Nat) : Prop :=
  ∀ sources pending b table before elements r, b.Valid fix sources pending → b.Maps table before →
    (∀ g ∈ before, (b.slot g).isSome) → collectGroups fix fuel elements (b, table) = some r →
    Collects fix sources pending b before elements r

/-- The loop over a list, from what goes into components and groups. -/
theorem collectsAt_succ {fuel} (hinner : CollectsAt fix fuel) (hintern : InternsAt fix fuel) :
    CollectsAt fix (fuel + 1) := by
  intro sources pending b table before elements r hvalid hmaps hsome hrun
  induction elements generalizing sources b table before with
  | nil =>
    obtain rfl := Option.some.inj hrun
    exact ⟨⟨[], by simpa using hvalid⟩, .refl b pending,
      ⟨[], FixVersion.groups_nil fix, by simpa using hmaps, by simpa using hsome⟩⟩
  | cons x elements ih =>
    have hskip (hrest : Collects fix sources pending b before elements r)
        (hx : ∀ {groups}, fix.Groups elements groups → fix.Groups (x :: elements) groups) :
        Collects fix sources pending b before (x :: elements) r := by
      obtain ⟨groups, hgroups, hmore⟩ := hrest.groups
      exact ⟨hrest.valid, hrest.grows, ⟨groups, hx hgroups, hmore⟩⟩
    cases x with
    | field ref => exact hskip (ih _ _ _ _ hvalid hmaps hsome hrun) fun h => h.field ref
    | component ref =>
      cases hc : fix.getComponent ref.componentId with
      | none =>
        rw [collectGroups_component_none hc] at hrun
        exact hskip (ih _ _ _ _ hvalid hmaps hsome hrun) fun h => h.component_none hc
      | some c =>
        rw [collectGroups_component hc] at hrun
        obtain ⟨r₁, hfirst, hrest⟩ := Option.bind_eq_some_iff.mp hrun
        obtain ⟨⟨more₁, hvalid₁⟩, hgrows₁, ⟨groups₁, hgroups₁, hmaps₁, hsome₁⟩⟩ :=
          hinner sources pending b table before c.elements r₁ hvalid hmaps hsome hfirst
        obtain ⟨⟨more₂, hvalid₂⟩, hgrows₂, ⟨groups₂, hgroups₂, hmaps₂, hsome₂⟩⟩ :=
          ih (sources ++ more₁) r₁.1 r₁.2 (before ++ groups₁) hvalid₁ hmaps₁ hsome₁ hrest
        rw [List.append_assoc] at hmaps₂ hsome₂
        exact ⟨⟨more₁ ++ more₂, by rwa [← List.append_assoc]⟩, hgrows₁.trans hgrows₂,
          ⟨groups₁ ++ groups₂, hgroups₂.component hc hgroups₁, hmaps₂, hsome₂⟩⟩
    | group ref =>
      cases hg : fix.getGroup ref.groupId with
      | none =>
        rw [collectGroups_group_none hg] at hrun
        exact hskip (ih _ _ _ _ hvalid hmaps hsome hrun) fun h => h.group_none hg
      | some g =>
        rw [collectGroups_group hg] at hrun
        obtain ⟨s, hfirst, hrest⟩ := Option.bind_eq_some_iff.mp hrun
        obtain ⟨r₁, hr₁, rfl⟩ := Option.map_eq_some_iff.mp hfirst
        obtain ⟨⟨more₁, hvalid₁⟩, hgrows₁, hslot₁⟩ :=
          hintern sources pending b g r₁ hvalid ⟨_, hg⟩ hr₁
        have hmaps₁ := (hgrows₁.maps hsome hmaps).insert hslot₁
        have hsome₁ : ∀ g' ∈ before ++ [g], (r₁.1.slot g').isSome := by
          intro g' hg'
          rcases List.mem_append.mp hg' with hg' | hg'
          · exact hgrows₁.isSome (hsome g' hg')
          · rw [List.mem_singleton.mp hg', hslot₁]
            rfl
        obtain ⟨⟨more₂, hvalid₂⟩, hgrows₂, ⟨groups₂, hgroups₂, hmaps₂, hsome₂⟩⟩ :=
          ih (sources ++ more₁) r₁.1 _ (before ++ [g]) hvalid₁ hmaps₁ hsome₁ hrest
        rw [List.append_assoc, List.singleton_append] at hmaps₂ hsome₂
        exact ⟨⟨more₁ ++ more₂, by rwa [← List.append_assoc]⟩, hgrows₁.trans hgrows₂,
          ⟨g :: groups₂, hgroups₂.group hg, hmaps₂, hsome₂⟩⟩

/-- A group that is new takes a slot, is gone into, and is completed. -/
theorem internsAt_succ {fuel} (hinner : CollectsAt fix fuel) : InternsAt fix (fuel + 1) := by
  intro sources pending b g r hvalid hg hrun
  rw [intern] at hrun
  cases hslot : b.groupIds.get g.id with
  | some idx =>
    rw [hslot] at hrun
    obtain rfl := Option.some.inj hrun
    exact ⟨⟨[], by simpa using hvalid⟩, .refl b pending, hslot⟩
  | none =>
    rw [hslot] at hrun
    obtain ⟨order, horder, hrun⟩ := Option.bind_eq_some_iff.mp hrun
    obtain ⟨r₁, hcollect, rfl⟩ := Option.map_eq_some_iff.mp hrun
    obtain ⟨hvalid₀, hgrows₀, hslot₀⟩ := hvalid.reserve hslot hg
    obtain ⟨⟨more, hvalid₁⟩, hgrows₁, ⟨groups, hgroups, hmaps, hsome⟩⟩ :=
      hinner _ _ _ [] [] _ r₁ hvalid₀ (fun _ => rfl) (by simp) hcollect
    have hfresh : b.groups.length ∉ pending := by
      intro hmem
      have hlt := hvalid.pending_lt _ hmem
      rw [hvalid.length] at hlt
      omega
    have hidx : (sources ++ [g] ++ more)[b.groups.length]? = some g := by
      rw [hvalid.length, List.append_assoc, List.getElem?_append_right (Nat.le_refl _), Nat.sub_self]
      rfl
    have hplace : r₁.1.groups[b.groups.length]? = some ⟨g.numInGroupTag, 0, [], []⟩ := by
      rw [hgrows₁.pending _ List.mem_cons_self, Builder.reserve,
        List.getElem?_append_right (Nat.le_refl _), Nat.sub_self]
      rfl
    obtain ⟨hvalid₂, hgrows₂⟩ := hvalid₁.complete hidx hplace rfl (FixVersion.memberOrder_eq_some horder)
      hgroups (by simpa using hsome) (by simpa using hmaps) hfresh
    have hgrows₁' : (b.reserve g).Grows r₁.1 pending :=
      ⟨hgrows₁.slot, fun i hi => hgrows₁.pending i (List.mem_cons_of_mem _ hi)⟩
    have hgrows := hgrows₀.trans (hgrows₁'.trans hgrows₂)
    exact ⟨⟨[g] ++ more, by rwa [← List.append_assoc]⟩, hgrows,
      hgrows₂.slot _ _ (hgrows₁.slot _ _ hslot₀)⟩

/-- **What collecting and interning come to**, however deep they go. -/
theorem collectsAt_internsAt (fix : FixVersion) (fuel : Nat) : CollectsAt fix fuel ∧ InternsAt fix fuel := by
  induction fuel with
  | zero =>
    refine ⟨?_, ?_⟩
    · intro _ _ _ _ _ _ _ _ _ _ hrun
      cases hrun
    · intro _ _ _ _ _ _ _ hrun
      cases hrun
  | succ fuel ih => exact ⟨collectsAt_succ ih.1 ih.2, internsAt_succ ih.1⟩

end Builder

end Babelfix.Repo
