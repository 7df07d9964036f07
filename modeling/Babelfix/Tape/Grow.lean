import Babelfix.Tape.Content
import Babelfix.Tape.Envelope

/-! # What the parser builds is well formed

The path keeps an invariant: what is finished is formed and kept apart, and each open
group stands where its NumInGroup field may. Every operation of the tree builder keeps
it, so the sections of an accepted message are well formed. -/
namespace Babelfix.Tape

open Lib

variable {d : Dictionary} {msgDef : Option MsgIdx} {depth : Nat} {f : Forest Token}

theorem formed_top {header first first'} (h : Formed d (.top msgDef header) depth first f) :
    Formed d (.top msgDef header) depth first' f := by
  cases f with
  | nil => trivial
  | node t c r => exact ⟨trivial, h.2⟩

/-! ## Sections -/

variable {tag : Nat} {t : Token} {c : Forest Token}

namespace Sections

def headerPart : Sections → Forest Token
  | header h | body h _ | trailer h _ _ => h

def bodyPart : Sections → Forest Token
  | header _ => .nil
  | body _ b | trailer _ b _ => b

def trailerPart : Sections → Forest Token
  | header _ | body _ _ => .nil
  | trailer _ _ t => t

/-- A field of the section that has begun last. -/
def Takes (d : Dictionary) (tag : Nat) : Sections → Prop
  | header _ => d.isHeader tag
  | body _ _ => ¬ d.isHeader tag ∧ ¬ d.isTrailer tag
  | trailer _ _ t => d.isTrailer tag ∧ (t = .nil → ¬ d.isHeader tag)

/-- A trailer that has begun holds a field. -/
def Begun : Sections → Prop
  | trailer _ _ t => t ≠ .nil
  | _ => True

/-- The block of the section that has begun last. -/
def block (msgDef : Option MsgIdx) (s : Sections) : Block := .top msgDef (s.region = .header)

/-- The groups that have just ended. -/
def ended (d : Dictionary) (msgDef : Option MsgIdx) (s : Sections) : List GroupIdx :=
  ends d (.top msgDef false)
    (ends d (.top msgDef false) (ends d (.top msgDef true) [] s.headerPart) s.bodyPart)
    s.trailerPart

/-- Header, body and trailer hold fields of their own, and a reader finds their groups
again. -/
structure WellFormed (d : Dictionary) (msgDef : Option MsgIdx) (s : Sections) : Prop where
  header_tags : ∀ x ∈ s.headerPart.roots, d.isHeader x.tag
  body_tags : ∀ x ∈ s.bodyPart.roots, ¬ d.isHeader x.tag ∧ ¬ d.isTrailer x.tag
  trailer_tags : ∀ x ∈ s.trailerPart.roots, d.isTrailer x.tag
  trailer_first : ∀ x ∈ s.trailerPart.roots.head?, ¬ d.isHeader x.tag
  header_formed : Formed d (.top msgDef true) 0 true s.headerPart
  body_formed : Formed d (.top msgDef false) 0 true s.bodyPart
  trailer_formed : Formed d (.top msgDef false) 0 true s.trailerPart
  header_apart : Apart d (.top msgDef true) [] s.headerPart
  body_apart : Apart d (.top msgDef false) (ends d (.top msgDef true) [] s.headerPart) s.bodyPart
  trailer_apart : Apart d (.top msgDef false)
    (ends d (.top msgDef false) (ends d (.top msgDef true) [] s.headerPart) s.bodyPart)
    s.trailerPart

section

variable {d : Dictionary} {msgDef : Option MsgIdx} {s s' : Sections}

theorem enter_takes (hbegun : s.Begun) (h : s.enter d tag = some s') :
    s'.Takes d tag := by
  cases s <;> simp only [enter] at h <;> split at h <;> try split at h
  all_goals cases h <;> simp_all [Takes, Begun]

theorem enter_parts (h : s.enter d tag = some s') :
    s'.headerPart = s.headerPart ∧ s'.bodyPart = s.bodyPart ∧ s'.trailerPart = s.trailerPart := by
  cases s <;> simp only [enter] at h <;> split at h <;> try split at h
  all_goals cases h <;> simp [headerPart, bodyPart, trailerPart]

theorem ended_enter (h : s.enter d tag = some s') :
    s'.ended d msgDef = s.ended d msgDef := by
  obtain ⟨hh, hb, ht⟩ := enter_parts h
  rw [ended, ended, hh, hb, ht]

theorem WellFormed.of_parts (h : s.WellFormed d msgDef) (hh : s'.headerPart = s.headerPart)
    (hb : s'.bodyPart = s.bodyPart) (ht : s'.trailerPart = s.trailerPart) :
    s'.WellFormed d msgDef := by
  constructor
  · rw [hh]; exact h.header_tags
  · rw [hb]; exact h.body_tags
  · rw [ht]; exact h.trailer_tags
  · rw [ht]; exact h.trailer_first
  · rw [hh]; exact h.header_formed
  · rw [hb]; exact h.body_formed
  · rw [ht]; exact h.trailer_formed
  · rw [hh]; exact h.header_apart
  · rw [hh, hb]; exact h.body_apart
  · rw [hh, hb, ht]; exact h.trailer_apart

theorem ended_add (f : Forest Token) :
    (s.add f).ended d msgDef = ends d (s.block msgDef) (s.ended d msgDef) f := by
  cases s <;> simp [add, ended, block, region, headerPart, bodyPart, trailerPart, ends_append, ends]

theorem WellFormed.add (h : s.WellFormed d msgDef) (htakes : s.Takes d t.tag)
    (hformed : Formed d (s.block msgDef) 0 true (.node t c .nil))
    (hapart : Apart d (s.block msgDef) (s.ended d msgDef) (.node t c .nil)) :
    (s.add (.node t c .nil)).WellFormed d msgDef := by
  cases s with
  | header f =>
    constructor
    · intro x hx
      have hx : x ∈ f.roots ∨ x = t := by simpa [Sections.add, headerPart] using hx
      rcases hx with hx | rfl
      · exact h.header_tags x hx
      · exact htakes
    · simp [Sections.add, bodyPart]
    · simp [Sections.add, trailerPart]
    · simp [Sections.add, trailerPart]
    · exact (formed_append _ _).mpr ⟨h.header_formed, formed_top hformed⟩
    · trivial
    · trivial
    · exact (apart_append _ _ _).mpr ⟨h.header_apart, by
        simpa [ended, headerPart, bodyPart, trailerPart, ends, block, region, Sections.add] using hapart⟩
    · trivial
    · trivial
  | body g f =>
    constructor
    · exact h.header_tags
    · intro x hx
      have hx : x ∈ f.roots ∨ x = t := by simpa [Sections.add, bodyPart] using hx
      rcases hx with hx | rfl
      · exact h.body_tags x hx
      · exact htakes
    · simp [Sections.add, trailerPart]
    · simp [Sections.add, trailerPart]
    · exact h.header_formed
    · exact (formed_append _ _).mpr ⟨h.body_formed, formed_top hformed⟩
    · trivial
    · exact h.header_apart
    · exact (apart_append _ _ _).mpr ⟨h.body_apart, by
        simpa [ended, headerPart, bodyPart, trailerPart, ends, block, region, Sections.add] using hapart⟩
    · trivial
  | trailer g b f =>
    constructor
    · exact h.header_tags
    · exact h.body_tags
    · intro x hx
      have hx : x ∈ f.roots ∨ x = t := by simpa [Sections.add, trailerPart] using hx
      rcases hx with hx | rfl
      · exact h.trailer_tags x hx
      · exact htakes.1
    · intro x hx
      cases f with
      | nil =>
        obtain rfl : t = x := by simpa [Sections.add, trailerPart] using hx
        exact htakes.2 rfl
      | node u _ _ =>
        exact h.trailer_first x (by simpa [Sections.add, trailerPart] using hx)
    · exact h.header_formed
    · exact h.body_formed
    · exact (formed_append _ _).mpr ⟨h.trailer_formed, formed_top hformed⟩
    · exact h.header_apart
    · exact h.body_apart
    · exact (apart_append _ _ _).mpr ⟨h.trailer_apart, by
        simpa [ended, headerPart, bodyPart, trailerPart, ends, block, region, Sections.add] using hapart⟩

end

end Sections

/-! ## Paths -/

namespace Path

/-- The block that is open. -/
def block (msgDef : Option MsgIdx) (p : Path) : Block :=
  match p.levels with
  | l :: _ => .inst l.group
  | [] => p.sections.block msgDef

/-- Whether the open block is empty. -/
def atStart (p : Path) : Bool :=
  match p.levels with
  | l :: _ => l.current = .nil
  | [] => true

/-- The groups that have just ended. -/
def ended (d : Dictionary) (msgDef : Option MsgIdx) (p : Path) : List GroupIdx :=
  match p.levels with
  | l :: _ => ends d (.inst l.group) (ends d (.inst l.group) [] l.done) l.current
  | [] => p.sections.ended d msgDef

/-- A field that may come next in the open block. -/
def Takes (d : Dictionary) (tag : Nat) (p : Path) : Prop :=
  match p.levels with
  | l :: _ => (Block.inst l.group).Takes d (l.current = .nil) tag
  | [] => p.sections.Takes d tag

/-- Something stands in the open block. -/
def Started (p : Path) : Prop :=
  match p.levels with
  | l :: _ => l.current ≠ .nil
  | [] => p.sections.Begun

end Path

/-- A group's NumInGroup field may stand where a path ends. -/
structure Opening.Placed (d : Dictionary) (msgDef : Option MsgIdx) (p : Path) (o : Opening) :
    Prop where
  takes : p.Takes d o.tag
  opens : (p.block msgDef).opens d o.tag = some o.group
  value : parseUint o.value = .ok o.declared
  avoids : Avoids d (p.ended d msgDef) o.tag

/-- What an open group holds is formed and kept apart. -/
structure Level.Good (d : Dictionary) (depth : Nat) (l : Level) : Prop where
  depth_lt : depth < 2 ^ 8
  done_formed : FormedInstances d l.group depth l.done
  current_formed : Formed d (.inst l.group) depth true l.current
  done_apart : Apart d (.inst l.group) [] l.done
  current_apart : Apart d (.inst l.group) (ends d (.inst l.group) [] l.done) l.current

variable {p : Path}

namespace Path

def GoodLevels (d : Dictionary) (msgDef : Option MsgIdx) (s : Sections) : List Level → Prop
  | [] => s.WellFormed d msgDef
  | l :: outer =>
    l.toOpening.Placed d msgDef ⟨s, outer⟩ ∧ l.Good d (outer.length + 1) ∧
      GoodLevels d msgDef s outer

/-- Everything on the path is well formed so far. -/
def Good (d : Dictionary) (msgDef : Option MsgIdx) (p : Path) : Prop :=
  GoodLevels d msgDef p.sections p.levels

variable {d : Dictionary} {msgDef : Option MsgIdx}

@[simp] theorem block_add (f : Forest Token) (p : Path) :
    (p.add f).block msgDef = p.block msgDef := by
  obtain ⟨s, _ | ⟨l, outer⟩⟩ := p
  · simp [add, block, Sections.block]
  · rfl

theorem ended_add (f : Forest Token) (p : Path) :
    (p.add f).ended d msgDef = ends d (p.block msgDef) (p.ended d msgDef) f := by
  obtain ⟨s, _ | ⟨l, outer⟩⟩ := p
  · exact Sections.ended_add f
  · simp [add, ended, block, Level.add, ends_append]

theorem started_add (p : Path) :
    (p.add (.node t c .nil)).Started := by
  obtain ⟨s, _ | ⟨l, outer⟩⟩ := p
  · cases s with
    | trailer h b f => cases f <;> simp [add, Started, Sections.add, Sections.Begun]
    | _ => trivial
  · obtain ⟨o, done, current⟩ := l
    cases current <;> simp [add, Started, Level.add]

theorem Good.add (h : p.Good d msgDef) (htakes : p.Takes d t.tag)
    (hformed : Formed d (p.block msgDef) p.depth p.atStart (.node t c .nil))
    (hapart : Apart d (p.block msgDef) (p.ended d msgDef) (.node t c .nil)) :
    (p.add (.node t c .nil)).Good d msgDef := by
  obtain ⟨s, _ | ⟨l, outer⟩⟩ := p
  · exact Sections.WellFormed.add h htakes hformed hapart
  · obtain ⟨hplaced, hgood, houter⟩ := h
    refine ⟨hplaced, ⟨hgood.depth_lt, hgood.done_formed, ?_, hgood.done_apart, ?_⟩, houter⟩
    · exact (formed_append _ _).mpr ⟨hgood.current_formed, by rwa [Bool.true_and]⟩
    · exact (apart_append _ _ _).mpr ⟨hgood.current_apart, hapart⟩

end Path

/-! ### A finished group -/

variable {s : Sections}

section

variable {d : Dictionary} {msgDef : Option MsgIdx} {l : Level}

theorem Level.Good.instances_formed (h : l.Good d depth) (hne : l.current ≠ .nil) :
    FormedInstances d l.group depth l.instances :=
  (formedInstances_append _ _).mpr ⟨h.done_formed, rfl, hne, h.current_formed, trivial⟩

theorem Level.ends_instances (l : Level) :
    ends d (.inst l.group) [] l.instances =
      ends d (.inst l.group) (ends d (.inst l.group) [] l.done) l.current := by
  rw [Level.instances, ends_append]
  rfl

theorem Level.Good.instances_apart (h : l.Good d depth) :
    Apart d (.inst l.group) [] l.instances :=
  (apart_append _ _ _).mpr ⟨h.done_apart, h.current_apart, trivial⟩

theorem Opening.Placed.child_eq {o : Opening} (h : o.Placed d msgDef p) :
    (p.block msgDef).child d o.tag = o.group := by
  rw [Block.child, h.opens]
  rfl

theorem Path.Takes.block_takes (h : p.Takes d tag) :
    (p.block msgDef).Takes d p.atStart tag := by
  obtain ⟨s, _ | ⟨l, outer⟩⟩ := p
  · trivial
  · exact h

theorem Level.instances_ne_nil (l : Level) : l.instances ≠ .nil := by
  obtain ⟨o, done, current⟩ := l
  cases done <;> simp [Level.instances]

theorem Level.tree_formed (hplaced : l.toOpening.Placed d msgDef p) (hgood : l.Good d (p.depth + 1))
    (hcount : l.count = l.declared) (hne : l.current ≠ .nil) :
    Formed d (p.block msgDef) p.depth p.atStart l.tree := by
  refine ⟨hplaced.takes.block_takes, trivial, ?_⟩
  change ((p.block msgDef).opens d l.tag).isSome ∧ parseUint l.value = _ ∧ _ ∧
    FormedInstances d ((p.block msgDef).child d l.tag) _ _
  rw [hplaced.opens, hplaced.value, hplaced.child_eq, ← hcount]
  exact ⟨rfl, rfl, fun _ => hgood.depth_lt, hgood.instances_formed hne⟩

theorem Level.tree_apart (hplaced : l.toOpening.Placed d msgDef p) (hgood : l.Good d (p.depth + 1)) :
    Apart d (p.block msgDef) (p.ended d msgDef) l.tree := by
  refine ⟨hplaced.avoids, ?_, trivial⟩
  change Apart d (.inst ((p.block msgDef).child d l.tag)) _ _
  rw [hplaced.child_eq]
  exact hgood.instances_apart

theorem Level.ends_tree (hplaced : l.toOpening.Placed d msgDef p) (ended : List GroupIdx) :
    ends d (p.block msgDef) ended l.tree =
      ends d (.inst l.group) (ends d (.inst l.group) [] l.done) l.current ++ [l.group] := by
  change (if l.instances = .nil then [] else
    ends d (.inst ((p.block msgDef).child d l.tag)) [] l.instances ++
      [(p.block msgDef).child d l.tag]) = _
  rw [if_neg l.instances_ne_nil, hplaced.child_eq, Level.ends_instances]

/-- Hanging a finished group below the block that is open outside it. -/
theorem Path.Good.add_tree {outer} (h : (Path.mk s (l :: outer)).Good d msgDef)
    (hcount : l.count = l.declared) (hne : l.current ≠ .nil) :
    ((Path.mk s outer).add l.tree).Good d msgDef := by
  obtain ⟨hplaced, hgood, houter⟩ := h
  exact Path.Good.add houter hplaced.takes (Level.tree_formed hplaced hgood hcount hne)
    (Level.tree_apart hplaced hgood)

end

/-! ### Joining a group -/

theorem avoids_append_singleton {ended group} (h : Avoids d ended tag)
    (hnot : ¬ Belongs d group tag) : Avoids d (ended ++ [group]) tag := by
  intro g hg
  rcases List.mem_append.mp hg with hg | hg
  · exact h g hg
  · rw [List.mem_singleton.mp hg]
    exact hnot

/-- What joining a group leaves: a path on which the field may come next. At the top
level its section has still to be found. -/
structure Path.Joined (d : Dictionary) (msgDef : Option MsgIdx) (tag : Nat) (p : Path) : Prop where
  good : p.Good d msgDef
  avoids : Avoids d (p.ended d msgDef) tag
  takes : p.levels ≠ [] → p.Takes d tag
  begun : p.levels = [] → p.sections.Begun

/-- The groups that a field closes on its way are ones it does not belong to. -/
theorem Path.join_joined {levels} (h : join d tag s levels f = some p)
    (hgood : ((Path.mk s levels).add f).Good d msgDef)
    (hstarted : ((Path.mk s levels).add f).Started)
    (havoids : Avoids d (((Path.mk s levels).add f).ended d msgDef) tag) :
    p.Joined d msgDef tag := by
  induction levels generalizing f with
  | nil =>
    cases h
    exact ⟨hgood, havoids, fun h => absurd rfl h, fun _ => hstarted⟩
  | cons l outer ih =>
    have hgroup : (l.add f).group = l.group := rfl
    rw [join] at h
    split at h
    · rename_i hdelim
      split at h
      · cases h
      · split at h
        · rename_i hdepth
          cases h
          obtain ⟨hplaced, hlevel, houter⟩ := hgood
          have hends := Level.ends_instances (d := d) (l.add f)
          refine ⟨⟨hplaced, ⟨hdepth, hlevel.instances_formed hstarted, trivial,
            hlevel.instances_apart, trivial⟩, houter⟩, ?_, fun _ => hdelim, by simp⟩
          change Avoids d (ends d (.inst l.group) [] (l.add f).instances) tag
          rw [← hgroup, hends]
          exact havoids
        · cases h
    · rename_i hdelim
      split at h
      · rename_i hmember
        cases h
        refine ⟨hgood, havoids, fun _ => ?_, by simp⟩
        have hne : decide ((l.add f).current = .nil) = false := decide_eq_false hstarted
        change (Block.inst l.group).Takes d (decide ((l.add f).current = .nil)) tag
        rw [hne]
        exact ⟨hdelim, hmember⟩
      · rename_i hmember
        split at h
        · rename_i hcount
          have hnot : ¬ Belongs d l.group tag := fun hb => hb.elim hdelim hmember
          have hplaced : (l.add f).toOpening.Placed d msgDef ⟨s, outer⟩ := hgood.1
          refine ih h (hgood.add_tree (by simpa using hcount) hstarted) (started_add _) ?_
          rw [ended_add, Level.ends_tree hplaced]
          exact avoids_append_singleton havoids hnot
        · cases h

theorem Path.finish_wellFormed {s' levels} (h : finish s levels f = some s')
    (hgood : ((Path.mk s levels).add f).Good d msgDef)
    (hstarted : ((Path.mk s levels).add f).Started) : s'.WellFormed d msgDef := by
  induction levels generalizing f with
  | nil =>
    cases h
    exact hgood
  | cons l outer ih =>
    rw [finish] at h
    split at h
    · rename_i hcount
      exact ih h (hgood.add_tree (by simpa using hcount) hstarted) (started_add _)
    · cases h

/-! ## The tree builder -/

namespace Track

/-- What the tree builder keeps. Between fields, no group has just ended. -/
structure Good (z : Track) : Prop where
  path : z.path.Good z.dict z.msgDef
  fresh : ∀ o ∈ z.fresh, o.Placed z.dict z.msgDef z.path
  started : z.fresh = none → z.path.Started
  ended : z.fresh = none → z.path.ended z.dict z.msgDef = []

variable {t : Token} {z z' : Track}

theorem opens_eq (tag : Nat) (z : Track) :
    z.opens tag = (z.path.block z.msgDef).opens z.dict tag := by
  obtain ⟨d, msgDef, ⟨s, _ | ⟨l, outer⟩⟩, fresh⟩ := z <;> rfl

theorem Good.add_leaf {u} (hpath : z.path.Good z.dict z.msgDef) (hz : z.fresh = none)
    (htakes : z.path.Takes z.dict u.tag)
    (havoids : Avoids z.dict (z.path.ended z.dict z.msgDef) u.tag)
    (hkind : u.kind = .dataLen ∨ u.kind = .data ∨
      u.kind = .field ∧ (z.path.block z.msgDef).opens z.dict u.tag = none ∨
      u.kind = .group ∧ ((z.path.block z.msgDef).opens z.dict u.tag).isSome ∧
        parseUint u.value = .ok 0) : Good { z with path := z.path.add (.leaf u) } := by
  have hformed : Formed z.dict (z.path.block z.msgDef) z.path.depth z.path.atStart (.leaf u) := by
    refine ⟨htakes.block_takes, trivial, ?_⟩
    rcases hkind with h | h | ⟨h, hopens⟩ | ⟨h, hopens, hvalue⟩ <;> rw [h]
    · exact ⟨hopens, rfl⟩
    · exact ⟨hopens, hvalue, fun h => absurd rfl h, trivial⟩
  have hapart : Apart z.dict (z.path.block z.msgDef) (z.path.ended z.dict z.msgDef) (.leaf u) := by
    rcases hkind with h | h | ⟨h, -⟩ | ⟨h, -⟩ <;> simp [Forest.leaf, Apart, h, havoids]
  refine ⟨Path.Good.add hpath htakes hformed hapart, by simp [hz], fun _ => Path.started_add _, ?_⟩
  intro _
  rw [Path.ended_add]
  rcases hkind with h | h | ⟨h, -⟩ | ⟨h, -⟩ <;> simp [Forest.leaf, ends, h]

theorem place_good (ht : t.IsField) (hpath : z.path.Good z.dict z.msgDef) (hz : z.fresh = none)
    (htakes : z.path.Takes z.dict t.tag)
    (havoids : Avoids z.dict (z.path.ended z.dict z.msgDef) t.tag) (h : z.place t = some z') :
    z'.Good := by
  rcases place_cases h with ⟨hopens, rfl⟩ | ⟨-, group, declared, hopens, hdeclared, h⟩
  · refine Good.add_leaf hpath hz htakes havoids ?_
    rw [opens_eq] at hopens
    rcases ht with hk | hk | hk
    · exact .inr (.inr (.inl ⟨hk, hopens hk⟩))
    · exact .inl hk
    · exact .inr (.inl hk)
  · rw [opens_eq] at hopens
    rcases h with ⟨hpos, rfl⟩ | ⟨rfl, rfl⟩
    · refine ⟨hpath, ?_, by simp, by simp⟩
      intro o ho
      cases ho
      exact ⟨htakes, hopens, hdeclared, havoids⟩
    · exact Good.add_leaf (u := ⟨.group, t.tag, t.value⟩) hpath hz htakes havoids
        (.inr (.inr (.inr ⟨rfl, by simp [hopens], hdeclared⟩)))

theorem settle_good (ht : t.IsField) (hz : z.fresh = none)
    (hjoined : z.path.Joined z.dict z.msgDef t.tag) (h : z.settle t = some z') : z'.Good := by
  obtain ⟨d, msgDef, path, fresh⟩ := z
  rcases settle_cases h with ⟨s, s', rfl, hs', h⟩ | ⟨s, l, outer, rfl, -, h⟩
  · obtain ⟨hh, hb, ht'⟩ := Sections.enter_parts hs'
    have havoids : Avoids d (s'.ended d msgDef) t.tag := by
      rw [Sections.ended_enter hs']
      exact hjoined.avoids
    exact place_good (z := ⟨d, msgDef, ⟨s', []⟩, fresh⟩) ht
      (Sections.WellFormed.of_parts hjoined.good hh hb ht') hz
      (Sections.enter_takes (hjoined.begun rfl) hs') havoids h
  · exact place_good ht hjoined.good hz (hjoined.takes (by simp)) hjoined.avoids h

/-- **Taking a field keeps the invariant.** -/
theorem push_good (ht : t.IsField) (hz : z.Good) (h : z.push t = some z') : z'.Good := by
  obtain ⟨d, msgDef, ⟨s, levels⟩, fresh⟩ := z
  rcases push_cases h with ⟨o, rfl, hdelim, hdepth, h⟩ | ⟨rfl, path, hpath, h⟩
  · -- the group's first instance starts
    have hgood : (Path.mk s ({ o with done := .nil, current := .nil } :: levels)).Good d msgDef :=
      ⟨hz.fresh o rfl, ⟨hdepth, trivial, trivial, trivial, trivial⟩, hz.path⟩
    have havoids : Avoids d [] t.tag := by simp [Avoids]
    exact settle_good (z := ⟨d, msgDef, _, none⟩) ht rfl
      ⟨hgood, havoids, fun _ => hdelim, by simp⟩ h
  · have hadd : (Path.mk s levels).add .nil = ⟨s, levels⟩ := Path.add_nil _
    have hended := hz.ended rfl
    refine settle_good (z := ⟨d, msgDef, path, none⟩) ht rfl (Path.join_joined hpath ?_ ?_ ?_) h
    · rw [hadd]
      exact hz.path
    · rw [hadd]
      exact hz.started rfl
    · rw [hadd, hended]
      simp [Avoids]

theorem msgDef_push (h : z.push t = some z') : z'.msgDef = z.msgDef := by
  rcases push_cases h with ⟨o, ho, -, -, h⟩ | ⟨hz, path, hpath, h⟩
  all_goals
    rcases settle_cases h with ⟨s, s', hpath, hs', h⟩ | ⟨s, l, outer, hpath, -, h⟩
    · rw [(place_keeps h).2]
    · rw [(place_keeps h).2]

theorem feed_good {ts} (hts : ∀ t ∈ ts, t.IsField ∧ t.tag ≠ 35) (hz : z.Good)
    (h : z.feed ts = some z') : z'.Good ∧ z'.msgDef = z.msgDef := by
  induction ts generalizing z with
  | nil =>
    cases h
    exact ⟨hz, rfl⟩
  | cons t ts ih =>
    obtain ⟨z₁, hz₁, h⟩ := Option.bind_eq_some_iff.mp h
    obtain ⟨ht, htag⟩ := hts t List.mem_cons_self
    rw [take, typed, if_neg htag] at hz₁
    obtain ⟨hgood, hdef⟩ := ih (fun u hu => hts u (List.mem_cons_of_mem _ hu)) (push_good ht hz hz₁) h
    exact ⟨hgood, by rw [hdef, msgDef_push hz₁]⟩

end Track

/-! ## Accepted messages -/

/-- A dictionary in which BeginString, BodyLength and MsgType are header fields and
CheckSum is a trailer field, and none of them is in a group or counts one. -/
structure Dictionary.Standard (d : Dictionary) : Prop where
  header : ∀ tag ∈ [8, 9, 35], d.isHeader tag
  trailer : d.isTrailer 10
  delimiter : ∀ tag ∈ [8, 9, 35, 10], ∀ g, (d.group g).delimiter ≠ tag
  member : ∀ tag ∈ [8, 9, 35, 10], ∀ g, (d.group g).members.get tag = none
  nested : ∀ tag ∈ [8, 9, 35, 10], ∀ g, d.nestedGroup g tag = none
  topLevel : ∀ tag ∈ [8, 9, 35, 10], ∀ msgDef header, d.topLevelGroup msgDef header tag = none

namespace Dictionary

/-- None of the framing tags is in a table. -/
def unframed {α : Type} (table : TagMap α) : Bool :=
  [8, 9, 35, 10].all fun tag => (TagMap.get table tag).isNone

/-- Whether a dictionary is standard, by its tables. -/
def isStandard (d : Dictionary) : Bool :=
  [8, 9, 35].all d.isHeader && d.isTrailer 10 &&
    d.groups.all (fun g =>
      [8, 9, 35, 10].all (g.delimiter ≠ ·) && unframed g.members && unframed g.nested) &&
    d.messages.all (fun m => unframed m.groups) && unframed d.headerGroups && unframed d.globalGroups

theorem get_of_unframed {α : Type} {table : TagMap α} (h : unframed table = true)
    (htag : tag ∈ [8, 9, 35, 10]) : TagMap.get table tag = none := by
  have := List.all_eq_true.mp h tag htag
  simpa using this

theorem standard_of_isStandard (h : d.isStandard = true) : d.Standard := by
  simp only [isStandard, Bool.and_eq_true] at h
  obtain ⟨⟨⟨⟨⟨hheader, htrailer⟩, hgroups⟩, hmessages⟩, hheaders⟩, hglobals⟩ := h
  -- a group is one of the dictionary's, or the one that stands for none
  have hgroup (g : GroupIdx) : d.group g ∈ d.groups ∨ d.group g = ⟨0, 0, [], []⟩ := by
    unfold group
    cases hg : d.groups[g]? with
    | none => exact .inr rfl
    | some x => exact .inl (List.mem_of_getElem? hg)
  have hall (g : GroupIdx) : [8, 9, 35, 10].all ((d.group g).delimiter ≠ ·) = true ∧
      unframed (d.group g).members = true ∧ unframed (d.group g).nested = true := by
    rcases hgroup g with hg | hg
    · have := List.all_eq_true.mp hgroups _ hg
      simpa only [Bool.and_eq_true, and_assoc] using this
    · rw [hg]
      decide
  constructor
  case header => exact List.all_eq_true.mp hheader
  case trailer => exact htrailer
  case delimiter =>
    intro tag htag g
    have := List.all_eq_true.mp (hall g).1 tag htag
    simpa using this
  case member =>
    intro tag htag g
    exact get_of_unframed (hall g).2.1 htag
  case nested =>
    intro tag htag g
    exact get_of_unframed (hall g).2.2 htag
  case topLevel =>
    intro tag htag msgDef header
    have hdef : (msgDef.bind fun m => d.messages[m]?.bind fun x => x.groups.get tag) = none := by
      cases msgDef with
      | none => rfl
      | some m =>
        cases hm : d.messages[m]? with
        | none => simp [hm]
        | some x =>
          have := List.all_eq_true.mp hmessages x (List.mem_of_getElem? hm)
          simpa [hm] using get_of_unframed this htag
    cases header with
    | true => exact get_of_unframed hheaders htag
    | false =>
      simp only [topLevelGroup, hdef]
      exact get_of_unframed hglobals htag

end Dictionary

namespace Dictionary.Standard

variable {d : Dictionary}

theorem opens (h : d.Standard) (htag : tag ∈ [8, 9, 35, 10]) (b : Block) :
    b.opens d tag = none := by
  cases b with
  | top msgDef header => exact h.topLevel tag htag msgDef header
  | inst group => exact h.nested tag htag group

theorem not_belongs (h : d.Standard) (htag : tag ∈ [8, 9, 35, 10]) (g : GroupIdx) :
    ¬ Belongs d g tag := by
  rintro (hdelim | hmember)
  · exact h.delimiter tag htag g hdelim.symm
  · rw [h.member tag htag g] at hmember
    cases hmember

theorem take_header (h : d.Standard) (htag : t.tag ∈ [8, 9, 35]) (msgDef : Option MsgIdx) (f : Forest Token) :
    Track.take t ⟨d, msgDef, ⟨.header f, []⟩, none⟩ =
      some ⟨d, if t.tag = 35 then d.message t.value else msgDef,
        ⟨.header (f ++ .leaf t), []⟩, none⟩ := by
  have hmem : t.tag ∈ [8, 9, 35, 10] := by
    simp only [List.mem_cons, List.not_mem_nil, or_false] at htag ⊢
    tauto
  have hopens (md : Option MsgIdx) : d.topLevelGroup md true t.tag = none :=
    h.topLevel _ hmem md true
  have hheader := h.header _ htag
  by_cases h35 : t.tag = 35
  · rw [h35] at hopens hheader
    simp [Track.take, Track.typed, h35, Track.push, Path.join, Path.add, Track.settle,
      Sections.enter, hheader, Track.place, Track.opens, Sections.region, hopens, Sections.add]
  · simp [Track.take, Track.typed, h35, Track.push, Path.join, Path.add, Track.settle,
      Sections.enter, hheader, Track.place, Track.opens, Sections.region, hopens, Sections.add]

theorem good_header (h : d.Standard) (msgDef : Option MsgIdx) {t₁ t₂ t₃} (ht₁ : t₁.IsField)
    (ht₂ : t₂.IsField) (ht₃ : t₃.IsField) (htag₁ : t₁.tag = 8) (htag₂ : t₂.tag = 9)
    (htag₃ : t₃.tag = 35) :
    Track.Good ⟨d, msgDef, ⟨.header (.nil ++ .leaf t₁ ++ .leaf t₂ ++ .leaf t₃), []⟩, none⟩ := by
  have havoids (tag : Nat) : Avoids d [] tag := by simp [Avoids]
  have hended : ends d (.top msgDef true) [] (.nil ++ .leaf t₁ ++ .leaf t₂ ++ .leaf t₃) = [] := by
    simp only [Forest.leaf, Forest.nil_append, Forest.node_append]
    rw [ht₁.ends_node, ht₂.ends_node, ht₃.ends_node]
    rfl
  have hwell : (Sections.header (.nil ++ .leaf t₁ ++ .leaf t₂ ++ .leaf t₃)).WellFormed d msgDef := by
    constructor
    case header_tags =>
      intro x hx
      simp only [Sections.headerPart, Forest.leaf, Forest.nil_append, Forest.node_append,
        Forest.roots_node, Forest.roots_nil, List.mem_cons, List.not_mem_nil, or_false] at hx
      rcases hx with rfl | rfl | rfl
      · exact h.header _ (by simp [htag₁])
      · exact h.header _ (by simp [htag₂])
      · exact h.header _ (by simp [htag₃])
    case header_formed =>
      simp only [Sections.headerPart, Forest.leaf, Forest.nil_append, Forest.node_append]
      rw [ht₁.formed_node, ht₂.formed_node, ht₃.formed_node]
      exact ⟨trivial, ⟨trivial, ⟨trivial, trivial, fun _ => h.opens (by simp [htag₃]) _, rfl⟩,
        fun _ => h.opens (by simp [htag₂]) _, rfl⟩, fun _ => h.opens (by simp [htag₁]) _, rfl⟩
    case header_apart =>
      simp only [Sections.headerPart, Forest.leaf, Forest.nil_append, Forest.node_append]
      rw [ht₁.apart_node, ht₂.apart_node, ht₃.apart_node]
      exact ⟨havoids _, havoids _, havoids _, trivial⟩
    all_goals simp [Sections.bodyPart, Sections.trailerPart, Formed, Apart]
  exact ⟨hwell, by simp, fun _ => trivial, fun _ => hended⟩

end Dictionary.Standard

theorem Dictionary.Standard.feed_header (hd : d.Standard) {e : Envelope} (he : e.Tagged)
    (ts : List Token) : (Track.new d).feed (e.begins :: e.length :: e.msgType :: ts) =
      Track.feed ts ⟨d, d.message e.msgType.value,
        ⟨.header (.nil ++ .leaf e.begins ++ .leaf e.length ++ .leaf e.msgType), []⟩, none⟩ := by
  simp only [Track.feed, Track.new]
  rw [hd.take_header (by simp [he.begins_tag]), Option.bind_some,
    hd.take_header (by simp [he.length_tag]), Option.bind_some,
    hd.take_header (by simp [he.msgType_tag]), Option.bind_some, if_pos he.msgType_tag]

theorem Envelope.isField_head {e : Envelope} (h : ∀ t ∈ e.tokens, t.IsField) :
    e.begins.IsField ∧ e.length.IsField ∧ e.msgType.IsField := by
  refine ⟨h _ ?_, h _ ?_, h _ ?_⟩ <;> simp [tokens, head]

theorem Envelope.Tagged.untyped {e : Envelope} (h : e.Tagged) :
    ∀ t ∈ e.content ++ [e.sum], t.tag ≠ 35 := by
  intro t ht
  rcases List.mem_append.mp ht with ht | ht
  · exact (h.content_tag t ht).2.2.1
  · rw [List.mem_singleton.mp ht, h.sum_tag]
    simp

/-- **The sections of an accepted message are well formed, and hold its fields.** -/
theorem Builds.wellFormed (hd : d.Standard) {e : Envelope} (he : e.Tagged)
    (hfields : ∀ t ∈ e.tokens, t.IsField) (h : Builds d e.tokens msgDef s) :
    msgDef = d.message e.msgType.value ∧ s.WellFormed d msgDef ∧ s.fields = e.tokens := by
  obtain ⟨z, hfeed, hfresh, rfl, hfinish⟩ := h
  have hz : z.fields = e.tokens := by
    rw [Track.fields_feed hfields hfeed]
    rfl
  rw [show e.tokens = e.begins :: e.length :: e.msgType :: (e.content ++ [e.sum]) from rfl,
    hd.feed_header he] at hfeed
  have hmem : ∀ t ∈ [e.begins, e.length, e.msgType] ++ (e.content ++ [e.sum]), t.IsField := hfields
  have hrest : ∀ t ∈ e.content ++ [e.sum], t.IsField ∧ t.tag ≠ 35 := fun t ht =>
    ⟨hmem t (List.mem_append_right _ ht), he.untyped t ht⟩
  have hgood := hd.good_header (d.message e.msgType.value) (hmem e.begins (by simp))
    (hmem e.length (by simp)) (hmem e.msgType (by simp)) he.begins_tag he.length_tag he.msgType_tag
  obtain ⟨hgood, hdef⟩ := Track.feed_good hrest hgood hfeed
  have hdict : z.dict = d := Track.dict_feed hfeed
  have hadd : (Path.mk z.path.sections z.path.levels).add .nil = z.path := Path.add_nil _
  refine ⟨hdef, ?_, ?_⟩
  · rw [← hdict]
    refine Path.finish_wellFormed hfinish ?_ ?_
    · rw [hadd]
      exact hgood.path
    · rw [hadd]
      exact hgood.started hfresh
  · rw [Path.fields_finish hfinish, ← hz]
    simp [Track.fields, hfresh, Path.fields]

end Babelfix.Tape
