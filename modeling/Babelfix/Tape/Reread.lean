import Babelfix.Tape.Parsed

/-! # Well formed content is read back

The tree builder, given the fields of a well formed content, builds that content. While
it reads, groups may still be open that the content has already left; they are closed by
the next field, because that field belongs to none of them. -/
namespace Babelfix.Tape

open Lib

variable {t : Token}

namespace Track

theorem feed_append (xs ys : List Token) (z : Track) :
    z.feed (xs ++ ys) = (z.feed xs).bind (feed ys) := by
  induction xs generalizing z with
  | nil => rfl
  | cons t xs ih =>
    simp only [List.cons_append, feed]
    cases z.take t with
    | none => rfl
    | some z => exact ih z

theorem feed_cons (t : Token) (ts : List Token) (z : Track) :
    z.feed (t :: ts) = (z.take t).bind (feed ts) := rfl

theorem take_of_ne (h : t.tag ≠ 35) (z : Track) : z.take t = z.push t := by
  rw [take, typed, if_neg h]

end Track

/-! ## Paths with groups still open -/

variable {p q : Path} {tag : Nat} {ended : List GroupIdx} {s : Sections}

namespace Path

variable {d : Dictionary}

/-- Joining with a tree still to be hung is joining with it hung. -/
theorem join_add (tag : Nat) (s : Sections) (levels : List Level) (f : Forest Token) :
    join d tag s levels f =
      join d tag ((Path.mk s levels).add f).sections ((Path.mk s levels).add f).levels .nil := by
  cases levels with
  | nil => simp [join, add]
  | cons l outer => simp [join, add, Level.add, Level.count, Level.instances]

theorem finish_add (s : Sections) (levels : List Level) (f : Forest Token) :
    finish s levels f =
      finish ((Path.mk s levels).add f).sections ((Path.mk s levels).add f).levels .nil := by
  cases levels with
  | nil => simp [finish, add]
  | cons l outer => simp [finish, add, Level.add, Level.count, Level.instances]

theorem join_self (h : ∀ l ∈ p.levels.head?, tag ≠ (d.group l.group).delimiter ∧
      ((d.group l.group).members.get tag).isSome) :
    join d tag p.sections p.levels .nil = some p := by
  obtain ⟨s, _ | ⟨l, outer⟩⟩ := p
  · simp [join, add]
  · obtain ⟨hdelim, hmember⟩ := h l rfl
    simp [join, hdelim, hmember, Level.add]

/-- The open path `q` is `p` once the groups `ended` are closed. -/
structure Ready (d : Dictionary) (ended : List GroupIdx) (q p : Path) : Prop where
  join_eq : ∀ tag, Avoids d ended tag →
    join d tag q.sections q.levels .nil = join d tag p.sections p.levels .nil
  finish_eq : finish q.sections q.levels .nil = finish p.sections p.levels .nil

theorem Ready.refl (ended : List GroupIdx) (p : Path) : Ready d ended p p := ⟨fun _ _ => rfl, rfl⟩

theorem Ready.close {l outer} (h : Ready d ended q ⟨s, l :: outer⟩) (hcount : l.count = l.declared) :
    Ready d (ended ++ [l.group]) q ((Path.mk s outer).add l.tree) := by
  have hadd : l.add .nil = l := by simp [Level.add]
  constructor
  · intro tag havoids
    have hnot : ¬ Belongs d l.group tag := havoids _ (by simp)
    rw [h.join_eq tag fun g hg => havoids g (by simp [hg]), join, hadd,
      if_neg fun hd => hnot (.inl hd), if_neg fun hm => hnot (.inr hm), if_pos hcount, join_add]
  · rw [h.finish_eq, finish, hadd, if_pos hcount, finish_add]

end Path

/-! ## Reading -/

namespace Track

variable {d : Dictionary} {msgDef : Option MsgIdx}

theorem push_of_ready (h : Path.Ready d ended q p) (havoids : Avoids d ended t.tag)
    (hjoins : ∀ l ∈ p.levels.head?, t.tag ≠ (d.group l.group).delimiter ∧
      ((d.group l.group).members.get t.tag).isSome) :
    push t ⟨d, msgDef, q, none⟩ = settle t ⟨d, msgDef, p, none⟩ := by
  rw [push]
  rw [h.join_eq _ havoids, Path.join_self hjoins, Option.bind_some]

theorem push_next {l outer} (h : Path.Ready d ended q ⟨s, l :: outer⟩)
    (havoids : Avoids d ended t.tag) (htag : t.tag = (d.group l.group).delimiter)
    (hcount : l.count ≠ l.declared) (hdepth : outer.length + 1 < 2 ^ 8) :
    push t ⟨d, msgDef, q, none⟩ = settle t ⟨d, msgDef, ⟨s, l.next :: outer⟩, none⟩ := by
  have hadd : l.add .nil = l := by simp [Level.add]
  rw [push]
  rw [h.join_eq _ havoids, Path.join, if_pos htag, if_neg hcount, if_pos hdepth, hadd,
    Option.bind_some]

theorem settle_eq (hdepth : p.levels ≠ [] → p.depth < 2 ^ 8)
    (htop : p.levels = [] → p.sections.enter d t.tag = some p.sections) :
    settle t ⟨d, msgDef, p, none⟩ = place t ⟨d, msgDef, p, none⟩ := by
  obtain ⟨s, _ | ⟨l, outer⟩⟩ := p
  · simp [settle, htop]
  · exact if_pos (hdepth (by simp))

end Track

/-- `f` may come next on a path, if the groups `ended` have just ended. -/
structure Path.Expects (d : Dictionary) (msgDef : Option MsgIdx) (ended : List GroupIdx)
    (f : Forest Token) (p : Path) : Prop where
  formed : Formed d (p.block msgDef) p.depth p.atStart f
  apart : Apart d (p.block msgDef) ended f
  depth_lt : p.levels ≠ [] → p.depth < 2 ^ 8
  stays : p.levels = [] → ∀ x ∈ f.roots, p.sections.enter d x.tag = some p.sections
  untyped : ∀ t ∈ Tape.fields f, t.tag ≠ 35

/-- The field that comes next settles on the path `p`. -/
def Track.LeadsTo (p : Path) (f : Forest Token) (z : Track) : Prop :=
  ∀ t ∈ (Tape.fields f).head?, z.push t = Track.settle t ⟨z.dict, z.msgDef, p, none⟩

/-- Fields that may come next on a path are read onto it. -/
def ReadsOn (d : Dictionary) (msgDef : Option MsgIdx) (f : Forest Token) : Prop :=
  ∀ {p : Path} {ended : List GroupIdx} {z : Track}, f ≠ .nil → z.dict = d → z.msgDef = msgDef →
    p.Expects d msgDef ended f → z.LeadsTo p f →
    ∃ q, z.feed (fields f) = some ⟨d, msgDef, q, none⟩ ∧
      Path.Ready d (ends d (p.block msgDef) ended f) q (p.add f)

section

variable {d : Dictionary} {msgDef : Option MsgIdx} {b : Block} {depth : Nat} {first : Bool}
variable {f : Forest Token}

theorem Formed.takes_head (h : Formed d b depth first f) :
    ∀ t ∈ (fields f).head?, b.Takes d first t.tag := by
  rcases h.fields_cases with rfl | ⟨t, c, r, rfl, hfields⟩
  · simp
  · rw [hfields]
    intro u hu
    obtain rfl : t.asField = u := by simpa using hu
    rw [Token.tag_asField]
    exact h.1

theorem Formed.avoids_head (h : Formed d b depth first f) (hapart : Apart d b ended f) :
    ∀ t ∈ (fields f).head?, Avoids d ended t.tag := by
  rcases h.fields_cases with rfl | ⟨t, c, r, rfl, hfields⟩
  · simp
  · rw [hfields]
    intro u hu
    obtain rfl : t.asField = u := by simpa using hu
    rw [Token.tag_asField]
    rcases h.node_cases with ⟨ht, -⟩ | ⟨hgroup, -⟩
    · exact (ht.apart_node.mp hapart).1
    · rw [Apart, hgroup] at hapart
      exact hapart.1

end

/-! ### Trees -/

/-- Instances that complete a group are read onto it. -/
def ReadsInstances (d : Dictionary) (msgDef : Option MsgIdx) (f : Forest Token) : Prop :=
  ∀ (p : Path) (o : Opening) (done : Forest Token) {ended : List GroupIdx} {z : Track},
    f ≠ .nil → z.dict = d → z.msgDef = msgDef →
    FormedInstances d o.group (p.depth + 1) f → Apart d (.inst o.group) ended f →
    p.depth + 1 < 2 ^ 8 → (∀ t ∈ fields f, t.tag ≠ 35) →
    done.roots.length + f.roots.length = o.declared →
    z.LeadsTo ⟨p.sections, { o with done, current := .nil } :: p.levels⟩ f →
    ∃ (q : Path) (l : Level), z.feed (fields f) = some ⟨d, msgDef, q, none⟩ ∧ l.toOpening = o ∧
      l.instances = done ++ f ∧
      Path.Ready d (ends d (.inst o.group) ended f) q ⟨p.sections, l :: p.levels⟩

variable {f : Forest Token}

section

variable {d : Dictionary} {msgDef : Option MsgIdx} {t : Token} {c r : Forest Token}

namespace Track

theorem place_field (ht : t.IsField) (hopens : t.kind = .field → (p.block msgDef).opens d t.tag = none) :
    place t ⟨d, msgDef, p, none⟩ = some ⟨d, msgDef, p.add (.leaf t), none⟩ := by
  rw [place, opens_eq]
  rcases ht with h | h | h
  · simp [h, hopens h]
  · simp [h]
  · simp [h]

/-- A NumInGroup field opens its group, if there are to be instances. -/
theorem place_group {value n} (hopens : ((p.block msgDef).opens d tag).isSome)
    (hvalue : parseUint value = .ok n) : place ⟨.field, tag, value⟩ ⟨d, msgDef, p, none⟩ =
      if h : 0 < n then
        some ⟨d, msgDef, p, some ⟨(p.block msgDef).child d tag, tag, value, n, h⟩⟩
      else some ⟨d, msgDef, p.add (.leaf ⟨.group, tag, value⟩), none⟩ := by
  obtain ⟨group, hgroup⟩ := Option.isSome_iff_exists.mp hopens
  have hchild : (p.block msgDef).child d tag = group := by
    rw [Block.child, hgroup]
    rfl
  rw [place, if_pos rfl, opens_eq, hgroup, hchild]
  rw [hvalue]

theorem push_fresh {o} (htag : t.tag = (d.group o.group).delimiter) (hdepth : p.depth + 1 < 2 ^ 8) :
    push t ⟨d, msgDef, p, some o⟩ =
      settle t ⟨d, msgDef,
        ⟨p.sections, { o with done := .nil, current := .nil } :: p.levels⟩, none⟩ :=
  if_pos ⟨htag, hdepth⟩

end Track

variable {u : Token}

theorem Path.Expects.settle_eq (h : p.Expects d msgDef ended (.node t c r)) (hu : u.tag = t.tag) :
    Track.settle u ⟨d, msgDef, p, none⟩ = Track.place u ⟨d, msgDef, p, none⟩ :=
  Track.settle_eq h.depth_lt fun hp => by
    rw [hu]
    exact h.stays hp t (by simp)

theorem FormedInstances.head_tag {group depth} (h : FormedInstances d group depth f) :
    ∀ u ∈ (fields f).head?, u.tag = (d.group group).delimiter := by
  cases f with
  | nil => simp
  | node t c r =>
    obtain ⟨rfl, hne, hformed, -⟩ := h
    rcases hformed.fields_cases with rfl | ⟨t, c', r', rfl, hfields⟩
    · exact absurd rfl hne
    · intro u hu
      refine hformed.takes_head u ?_
      rw [fields_node, hfields] at hu
      rw [hfields]
      exact hu

theorem FormedInstances.avoids_head {group depth} (h : FormedInstances d group depth f)
    (hapart : Apart d (.inst group) ended f) : ∀ u ∈ (fields f).head?, Avoids d ended u.tag := by
  cases f with
  | nil => simp
  | node t c r =>
    obtain ⟨rfl, hne, hformed, -⟩ := h
    rcases hformed.fields_cases with rfl | ⟨t, c', r', rfl, hfields⟩
    · exact absurd rfl hne
    · intro u hu
      refine hformed.avoids_head hapart.1 u ?_
      rw [fields_node, hfields] at hu
      rw [hfields]
      exact hu

theorem read_tree (hc : ReadsInstances d msgDef c) (h : p.Expects d msgDef ended (.node t c r)) {z : Track}
    (hdict : z.dict = d) (hdef : z.msgDef = msgDef) (hlead : z.LeadsTo p (.node t c r)) :
    ∃ q, z.feed (t.asField :: fields c) = some ⟨d, msgDef, q, none⟩ ∧
      Path.Ready d (ends d (p.block msgDef) ended (.node t c .nil)) q (p.add (.node t c .nil)) := by
  subst hdict hdef
  have hkind := h.formed.kind_ne_inst
  have htake : z.take t.asField = Track.place t.asField ⟨z.dict, z.msgDef, p, none⟩ := by
    have hne : t.asField.tag ≠ 35 := h.untyped _ (mem_fields_node hkind)
    rw [Track.take_of_ne hne, hlead _ (by simp [Token.own, hkind]),
      h.settle_eq (Token.tag_asField t)]
  rw [Track.feed_cons, htake]
  rcases h.formed.node_cases with ⟨ht, rfl, hopens⟩ | ⟨hgroup, hopens, hvalue, hdepth, hinsts⟩
  · rw [ht.asField_eq, Track.place_field ht hopens]
    exact ⟨_, rfl, Path.Ready.refl _ _⟩
  · obtain ⟨kind, tag, value⟩ := t
    cases hgroup
    rw [show Token.asField ⟨.group, tag, value⟩ = ⟨.field, tag, value⟩ from rfl,
      Track.place_group hopens hvalue]
    by_cases hnil : c = .nil
    · -- a group without instances is finished at once
      subst hnil
      exact ⟨_, rfl, Path.Ready.refl _ _⟩
    · have hpos : 0 < c.roots.length := Nat.pos_of_ne_zero fun h => hnil (roots_length_eq_zero.mp h)
      rw [dif_pos hpos, Option.bind_some]
      have hapart := h.apart
      have huntyped : ∀ u ∈ fields c, u.tag ≠ 35 := fun u hu => h.untyped u (by simp [hu])
      let o : Opening := ⟨(p.block z.msgDef).child z.dict tag, tag, value, c.roots.length, hpos⟩
      have hfirst : Track.LeadsTo ⟨p.sections, { o with done := .nil, current := .nil } :: p.levels⟩ c
          ⟨z.dict, z.msgDef, p, some o⟩ := fun u hu =>
        Track.push_fresh (hinsts.head_tag u hu) (hdepth hnil)
      obtain ⟨q, l, hfeed, hl, hinstances, hready⟩ := hc p o .nil
        (z := ⟨z.dict, z.msgDef, p, some o⟩) hnil rfl rfl hinsts hapart.2.1 (hdepth hnil) huntyped
        (by simp [o]) hfirst
      have hcount : l.count = l.declared := by
        rw [Level.count, hinstances, hl]
        simp [o]
      have htree : l.tree = .node ⟨.group, tag, value⟩ c .nil := by
        rw [Level.tree, hinstances, Level.token, hl]
        rfl
      have hclose := hready.close hcount
      rw [htree, hl] at hclose
      refine ⟨q, hfeed, ?_⟩
      rw [ends]
      dsimp only
      rw [if_neg hnil]
      exact hclose

theorem Path.formed_add {g} (h : Formed d (p.block msgDef) p.depth false f) :
    Formed d ((p.add (.node u g .nil)).block msgDef) (p.add (.node u g .nil)).depth
      (p.add (.node u g .nil)).atStart f := by
  rw [Path.block_add, Path.depth_add]
  obtain ⟨s, _ | ⟨l, outer⟩⟩ := p
  · exact formed_top h
  · have hstart : (Path.add (.node u g .nil) ⟨s, l :: outer⟩).atStart = false :=
      decide_eq_false (Path.started_add (t := u) (c := g) ⟨s, l :: outer⟩)
    rw [hstart]
    exact h

theorem Path.enter_add (hp : p.levels = []) (f : Forest Token) (h : p.sections.enter d tag = some p.sections) :
    (p.add f).sections.enter d tag = some (p.add f).sections := by
  obtain ⟨s, levels⟩ := p
  subst hp
  cases s with
  | header g =>
    simp only [Sections.enter] at h
    split at h
    · simp [Path.add, Sections.add, Sections.enter, *]
    · split at h <;> cases h
  | body g b =>
    simp only [Sections.enter] at h
    split at h
    · cases h
    · split at h
      · cases h
      · simp [Path.add, Sections.add, Sections.enter, *]
  | trailer g b f =>
    simp only [Sections.enter] at h
    split at h
    · simp [Path.add, Sections.add, Sections.enter, *]
    · cases h

theorem Path.levels_add_eq_nil :
    (p.add f).levels = [] ↔ p.levels = [] := by
  obtain ⟨s, _ | ⟨l, outer⟩⟩ := p <;> simp [Path.add]

/-- What follows a tree may come next when the tree is there. -/
theorem Path.Expects.rest (h : p.Expects d msgDef ended (.node t c r)) :
    (p.add (.node t c .nil)).Expects d msgDef
      (ends d (p.block msgDef) ended (.node t c .nil)) r := by
  have happend : Forest.node t c r = .node t c .nil ++ r := rfl
  have hapart := h.apart
  rw [happend, apart_append] at hapart
  refine ⟨Path.formed_add h.formed.2.1, ?_, ?_, ?_, fun u hu => h.untyped u (by simp [hu])⟩
  · rw [Path.block_add]
    exact hapart.2
  · intro hp
    rw [Path.depth_add]
    exact h.depth_lt fun hnil => hp (Path.levels_add_eq_nil.mpr hnil)
  · intro hp x hx
    have hp := Path.levels_add_eq_nil.mp hp
    exact Path.enter_add hp _ (h.stays hp x (by simp [hx]))

/-- The field after a tree joins the block the tree is in. -/
theorem Path.Expects.leadsTo {g} (h : Formed d (p.block msgDef) p.depth false f)
    (hapart : Apart d (p.block msgDef) ended f)
    (hready : Path.Ready d ended q (p.add (.node u g .nil))) :
    Track.LeadsTo (p.add (.node u g .nil)) f ⟨d, msgDef, q, none⟩ := by
  intro x hx
  refine Track.push_of_ready hready (h.avoids_head hapart x hx) ?_
  intro l hl
  have htakes := h.takes_head x hx
  obtain ⟨s, _ | ⟨l', outer⟩⟩ := p
  · cases hl
  · obtain rfl : l'.add (.node u g .nil) = l := by simpa [Path.add] using hl
    exact htakes

theorem readsOn_node (hc : ReadsInstances d msgDef c) (hr : ReadsOn d msgDef r) :
    ReadsOn d msgDef (.node t c r) := by
  intro p ended z _ hdict hdef h hlead
  obtain ⟨q, hfeed, hready⟩ := read_tree hc h hdict hdef hlead
  have hown : t.own = [t.asField] := if_neg h.formed.kind_ne_inst
  have happend : Forest.node t c r = .node t c .nil ++ r := rfl
  have hadd : p.add (.node t c r) = (p.add (.node t c .nil)).add r := by
    obtain ⟨s, _ | ⟨l, outer⟩⟩ := p
    · cases s <;> simp [Path.add, Sections.add, Forest.append_assoc]
    · simp [Path.add, Level.add, Forest.append_assoc]
  have hends : ends d (p.block msgDef) ended (.node t c r) =
      ends d (p.block msgDef) (ends d (p.block msgDef) ended (.node t c .nil)) r := by
    rw [happend, ends_append]
  rw [fields_node, hown, ← List.append_assoc, Track.feed_append, List.singleton_append, hfeed,
    Option.bind_some, hadd, hends]
  by_cases hnil : r = .nil
  · subst hnil
    exact ⟨q, rfl, by simpa [ends] using hready⟩
  · have hrest := h.rest
    have hleads := Path.Expects.leadsTo h.formed.2.1
      (by have := hrest.apart; rwa [Path.block_add] at this) hready
    obtain ⟨q', hfeed', hready'⟩ := hr hnil rfl rfl hrest hleads
    rw [Path.block_add] at hready'
    exact ⟨q', hfeed', hready'⟩

theorem readsInstances_node (hc : ReadsOn d msgDef c) (hr : ReadsInstances d msgDef r) :
    ReadsInstances d msgDef (.node t c r) := by
  intro p o done ended z _ hdict hdef h hapart hdepth huntyped hcount hlead
  obtain ⟨rfl, hne, hformed, hrest⟩ := h
  obtain ⟨hapart, hapart'⟩ := hapart
  have hcount : done.roots.length + (r.roots.length + 1) = o.declared := hcount
  have hown : Token.inst.own = [] := rfl
  have hexpects : (Path.mk p.sections ({ o with done, current := .nil } :: p.levels)).Expects d msgDef
      ended c :=
    ⟨hformed, hapart, fun _ => hdepth, by simp, fun u hu => huntyped u (by simp [hu])⟩
  have hfirst : z.LeadsTo ⟨p.sections, { o with done, current := .nil } :: p.levels⟩ c := by
    intro u hu
    refine hlead u ?_
    rw [fields_node, hown, List.nil_append, List.head?_append, Option.mem_def.mp hu]
    rfl
  obtain ⟨q, hfeed, hready⟩ := hc hne hdict hdef hexpects hfirst
  have hadd : (Path.mk p.sections ({ o with done, current := .nil } :: p.levels)).add c =
      ⟨p.sections, { o with done, current := c } :: p.levels⟩ := rfl
  rw [fields_node, hown, List.nil_append, Track.feed_append, hfeed, Option.bind_some]
  by_cases hnil : r = .nil
  · subst hnil
    exact ⟨q, { o with done, current := c }, rfl, rfl, rfl, hready⟩
  · have hlevel : Level.next { o with done, current := c } =
        { o with done := done ++ .node .inst c .nil, current := .nil } := rfl
    have hpos : r.roots.length ≠ 0 := fun h => hnil (roots_length_eq_zero.mp h)
    have hnext : Track.LeadsTo ⟨p.sections,
        { o with done := done ++ .node .inst c .nil, current := .nil } :: p.levels⟩ r
        ⟨d, msgDef, q, none⟩ := by
      intro u hu
      rw [← hlevel]
      refine Track.push_next hready (hrest.avoids_head hapart' u hu) (hrest.head_tag u hu) ?_ hdepth
      simp only [Level.count, Level.instances, Forest.roots_append, List.length_append,
        Forest.roots_node, Forest.roots_nil, List.length_cons, List.length_nil]
      omega
    obtain ⟨q', l, hfeed', hl, hinstances, hready'⟩ := hr p o (done ++ .node .inst c .nil) hnil rfl rfl
      hrest hapart' hdepth (fun u hu => huntyped u (by simp [hu])) (by simp; omega) hnext
    exact ⟨q', l, hfeed', hl, by rw [hinstances, Forest.append_assoc]; rfl, hready'⟩

/-- **Well formed content is read back**, below the top level and there. -/
theorem reads (f : Forest Token) : ReadsOn d msgDef f ∧ ReadsInstances d msgDef f := by
  induction f with
  | nil => exact ⟨fun h => absurd rfl h, fun _ _ _ _ _ h => absurd rfl h⟩
  | node t c r ihc ihr => exact ⟨readsOn_node ihc.2 ihr.1, readsInstances_node ihc.1 ihr.2⟩

end

/-! ## Sections -/

variable {e : Envelope}

namespace Sections

variable {d : Dictionary} {msgDef : Option MsgIdx}

/-- The sections `s` with the fields `f`, the first of which starts `s'`. -/
def read (s s' : Sections) (f : Forest Token) : Sections := if f = .nil then s else s'.add f

/-- The fields of a section are read, also when they are its first. -/
theorem reads_section {s'} (hready : Path.Ready d ended q ⟨s, []⟩)
    (henter : ∀ x ∈ f.roots.head?, s.enter d x.tag = some s')
    (hexpects : (Path.mk s' []).Expects d msgDef ended f) :
    ∃ q', Track.feed (Tape.fields f) ⟨d, msgDef, q, none⟩ = some ⟨d, msgDef, q', none⟩ ∧
      Path.Ready d (ends d (s'.block msgDef) ended f) q' ⟨s.read s' f, []⟩ := by
  by_cases hnil : f = .nil
  · subst hnil
    exact ⟨q, rfl, hready⟩
  · have hlead : Track.LeadsTo ⟨s', []⟩ f ⟨d, msgDef, q, none⟩ := by
      intro t ht
      have havoids := hexpects.formed.avoids_head hexpects.apart t ht
      have hjoins : ∀ l ∈ ([] : List Level).head?, t.tag ≠ (d.group l.group).delimiter ∧
          ((d.group l.group).members.get t.tag).isSome := by simp
      rw [Track.push_of_ready hready havoids hjoins]
      rcases hexpects.formed.fields_cases with rfl | ⟨u, c, r, rfl, hfields⟩
      · exact absurd rfl hnil
      · obtain rfl : u.asField = t := by simpa [hfields] using ht
        have hfirst := henter u (by simp)
        have hstays := hexpects.stays rfl u (by simp)
        simp only [Track.settle, Token.tag_asField, hfirst, hstays]
    obtain ⟨q', hfeed, hready'⟩ := (reads f).1 hnil rfl rfl hexpects hlead
    rw [read, if_neg hnil]
    exact ⟨q', hfeed, hready'⟩

def upToBody (h b : Forest Token) : Sections := (header h).read (body h .nil) b

def upToTrailer (h b t : Forest Token) : Sections := (upToBody h b).read (trailer h b .nil) t

theorem close_upToTrailer (h b t : Forest Token) :
    (upToTrailer h b t).close = trailer h b t := by
  unfold upToTrailer upToBody read
  split
  · rename_i ht
    subst ht
    split
    · rename_i hb
      subst hb
      rfl
    · simp [add, close]
  · simp [add, close]

theorem WellFormed.reads_body (h : s.WellFormed d msgDef)
    (huntyped : ∀ t ∈ Tape.fields s.bodyPart, t.tag ≠ 35)
    (hready : Path.Ready d (ends d (.top msgDef true) [] s.headerPart) q
      ⟨header s.headerPart, []⟩) :
    ∃ q', Track.feed (Tape.fields s.bodyPart) ⟨d, msgDef, q, none⟩ =
        some ⟨d, msgDef, q', none⟩ ∧
      Path.Ready d (ends d (.top msgDef false) (ends d (.top msgDef true) [] s.headerPart)
        s.bodyPart) q' ⟨upToBody s.headerPart s.bodyPart, []⟩ := by
  have hexpects : (Path.mk (body s.headerPart .nil) []).Expects d msgDef
      (ends d (.top msgDef true) [] s.headerPart) s.bodyPart := by
    refine ⟨h.body_formed, h.body_apart, by simp, ?_, huntyped⟩
    intro _ x hx
    simp [enter, h.body_tags x hx]
  refine reads_section hready ?_ hexpects
  intro x hx
  simp [enter, h.body_tags x (List.mem_of_mem_head? hx)]

theorem WellFormed.reads_trailer (h : s.WellFormed d msgDef)
    (huntyped : ∀ t ∈ Tape.fields s.trailerPart, t.tag ≠ 35)
    (hready : Path.Ready d (ends d (.top msgDef false) (ends d (.top msgDef true) [] s.headerPart)
        s.bodyPart) q ⟨upToBody s.headerPart s.bodyPart, []⟩) :
    ∃ q', Track.feed (Tape.fields s.trailerPart) ⟨d, msgDef, q, none⟩ =
        some ⟨d, msgDef, q', none⟩ ∧
      Path.Ready d (s.ended d msgDef) q'
        ⟨upToTrailer s.headerPart s.bodyPart s.trailerPart, []⟩ := by
  have hexpects : (Path.mk (trailer s.headerPart s.bodyPart .nil) []).Expects d msgDef
      (ends d (.top msgDef false) (ends d (.top msgDef true) [] s.headerPart) s.bodyPart)
      s.trailerPart := by
    refine ⟨h.trailer_formed, h.trailer_apart, by simp, ?_, huntyped⟩
    intro _ x hx
    simp [enter, h.trailer_tags x hx]
  refine reads_section hready ?_ hexpects
  -- the first field of the trailer is not one of the header
  intro x hx
  have htrailer := h.trailer_tags x (List.mem_of_mem_head? hx)
  have hheader := h.trailer_first x hx
  unfold upToBody read
  split
  · rename_i hbody
    rw [hbody]
    simp [enter, htrailer, hheader]
  · rw [show (body s.headerPart .nil).add s.bodyPart = body s.headerPart s.bodyPart from rfl]
    simp [enter, htrailer, hheader]

theorem WellFormed.reads_header (hd : d.Standard) (htag : e.Tagged)
    (hisField : ∀ t ∈ e.tokens, t.IsField) {r} (h : s.WellFormed d (d.message e.msgType.value))
    (hheader : s.headerPart = .node e.begins .nil (.node e.length .nil (.node e.msgType .nil r)))
    (huntyped : ∀ t ∈ Tape.fields r, t.tag ≠ 35) :
    ∃ q, (Track.new d).feed (e.begins :: e.length :: e.msgType :: Tape.fields r) =
        some ⟨d, d.message e.msgType.value, q, none⟩ ∧
      Path.Ready d (ends d (.top (d.message e.msgType.value) true) [] s.headerPart) q
        ⟨header s.headerPart, []⟩ := by
  obtain ⟨hbegins, hlength, hmsgType⟩ := Envelope.isField_head hisField
  have htags := h.header_tags
  have hformed := h.header_formed
  have hapart := h.header_apart
  rw [hheader, hbegins.formed_node, hlength.formed_node, hmsgType.formed_node] at hformed
  rw [hheader, hbegins.apart_node, hlength.apart_node, hmsgType.apart_node] at hapart
  rw [hheader] at htags
  set h₀ : Forest Token := .nil ++ .leaf e.begins ++ .leaf e.length ++ .leaf e.msgType with hh₀
  have hexpects : (Path.mk (.header h₀) []).Expects d (d.message e.msgType.value) [] r := by
    refine ⟨formed_top hformed.2.1.2.1.2.1, hapart.2.2.2, by simp, ?_, huntyped⟩
    intro _ x hx
    simp [enter, htags x (by simp [hx])]
  obtain ⟨q, hfeed, hready⟩ := reads_section (Path.Ready.refl [] _)
    (fun x hx => hexpects.stays rfl x (List.mem_of_mem_head? hx)) hexpects
  have hread : (header h₀).read (header h₀) r = header s.headerPart := by
    rw [read, hheader]
    split
    · rename_i hr
      rw [hr]
      rfl
    · rfl
  refine ⟨q, ?_, ?_⟩
  · rw [hd.feed_header htag]
    exact hfeed
  · rw [hread] at hready
    rw [hheader, hbegins.ends_node, hlength.ends_node, hmsgType.ends_node, ← hheader]
    exact hready

/-- **Well formed sections are built from their fields.** -/
theorem WellFormed.builds (hd : d.Standard) (htag : e.Tagged) (hisField : ∀ t ∈ e.tokens, t.IsField)
    (h : s.WellFormed d (d.message e.msgType.value)) (hfields : s.fields = e.tokens) :
    ∃ s', Builds d e.tokens (d.message e.msgType.value) s' ∧ s'.close = s.close := by
  obtain ⟨r, hheader, hrest⟩ := h.header_eq hd htag hfields
  have huntyped : ∀ t ∈ Tape.fields r ++ (Tape.fields s.bodyPart ++ Tape.fields s.trailerPart),
      t.tag ≠ 35 := by
    rw [hrest]
    exact htag.untyped
  obtain ⟨q₁, hfeed₁, hready₁⟩ := h.reads_header hd htag hisField hheader fun t ht =>
    huntyped t (by simp [ht])
  obtain ⟨q₂, hfeed₂, hready₂⟩ := h.reads_body (fun t ht => huntyped t (by simp [ht])) hready₁
  obtain ⟨q₃, hfeed₃, hready₃⟩ := h.reads_trailer (fun t ht => huntyped t (by simp [ht])) hready₂
  have htokens : e.tokens = (e.begins :: e.length :: e.msgType :: Tape.fields r) ++
      (Tape.fields s.bodyPart ++ Tape.fields s.trailerPart) := by
    simp only [List.cons_append, hrest]
    rfl
  refine ⟨upToTrailer s.headerPart s.bodyPart s.trailerPart,
    ⟨⟨d, d.message e.msgType.value, q₃, none⟩, ?_, rfl, rfl, ?_⟩, ?_⟩
  · rw [htokens, Track.feed_append, hfeed₁, Option.bind_some, Track.feed_append, hfeed₂,
      Option.bind_some, hfeed₃]
  · rw [hready₃.finish_eq]
    simp [Path.finish]
  · rw [close_upToTrailer, close_eq]

end Sections

/-! ## Whole messages -/

variable {d : Dictionary}

theorem Sections.WellFormed.typed (hd : d.Standard) {msgDef} (htag : e.Tagged)
    (hisField : ∀ t ∈ e.tokens, t.IsField) (h : s.WellFormed d msgDef)
    (hfields : s.fields = e.tokens) (hsize : s.headerPart.size + headerGap < 2 ^ 32) :
    s.close.Typed msgDef := by
  obtain ⟨r, hheader, -⟩ := h.header_eq hd htag hfields
  obtain ⟨hbegins, hlength, hmsgType⟩ := Envelope.isField_head hisField
  have hstart : s.close.bodyStart = (flat 0 0 s.headerPart ++ gapSlots).length := by
    rw [Sections.close_eq, List.length_append, length_flat]
    exact asU32_of_lt hsize
  have htape : s.close.tape = (flat 0 0 s.headerPart ++ gapSlots) ++
      (flat 0 (Tape.text s.headerPart).length s.bodyPart ++
        flat 0 (Tape.text s.headerPart ++ Tape.text s.bodyPart).length s.trailerPart) := by
    rw [Sections.close_eq]
    simp [Sections.tape]
  right
  rw [htape, hstart, List.take_left, hheader, List.any_append]
  simp only [flat_node, flat_nil, hbegins.entry_eq, hlength.entry_eq, hmsgType.entry_eq]
  have hentry (pos : Nat) : (e.msgType.fieldEntry 0 pos).tag = 35 ∧
      (e.msgType.fieldEntry 0 pos).isField := by
    refine ⟨htag.msgType_tag, ?_⟩
    rcases hmsgType with h | h | h <;> simp [Token.fieldEntry, Entry.isField, h]
  simp [hentry]

/-- **What is well formed, framed and lexed is accepted.** -/
theorem Accepted.parse_eq (hd : d.Standard) {w m} (h : Accepted d w m e s)
    (hsize : s.headerPart.size + headerGap < 2 ^ 32) : Message.parse d w = .ok m := by
  obtain ⟨s', hbuilds, hclose⟩ := h.wellFormed.builds hd h.sound.toTagged h.lexes.isField h.fields
  refine parse_iff.mpr ⟨e, _, s', h.wire, h.sound, h.lexes, hbuilds, ?_, ?_⟩
  · rw [hclose]
    exact h.wellFormed.typed hd h.sound.toTagged h.lexes.isField h.fields hsize
  · rw [hclose]
    exact h.message

/-! ## Framing fields written afresh -/

theorem checksumOf_lt (bytes : Bytes) : checksumOf bytes < 256 := Nat.mod_lt _ (by omega)

theorem readChecksum_sumText {n} (h : n < 256) : readChecksum (sumText n) = .ok n := by
  have hdigit (i : Nat) (hi : i < 10) : 48 ≤ 48 + UInt8.ofNat i ∧ 48 + UInt8.ofNat i ≤ 57 := by
    interval_cases i <;> decide
  have h₁ := hdigit (n / 100) (by omega)
  have h₂ := hdigit (n / 10 % 10) (by omega)
  have h₃ := hdigit (n % 10) (by omega)
  have hvalue : n / 100 * 100 + n / 10 % 10 * 10 + n % 10 = n := by omega
  simp only [readChecksum, sumText, List.all_cons, List.all_nil, h₁, h₂, h₃, and_self, decide_true,
    Bool.and_self, if_true, digit_sub, digit_toNat _ (show n / 100 < 10 by omega),
    digit_toNat _ (show n / 10 % 10 < 10 by omega), digit_toNat _ (show n % 10 < 10 by omega),
    hvalue, if_pos h]

namespace Envelope

/-- The envelope with BodyLength written afresh. -/
def measured (e : Envelope) : Envelope :=
  { e with length := { e.length with value := writeUint e.body.length } }

/-- The envelope with BodyLength and CheckSum written afresh. -/
def fit (e : Envelope) : Envelope :=
  { e.measured with
    sum := { e.sum with value := sumText (checksumOf (texts e.measured.head)) } }

theorem Tagged.fit (h : e.Tagged) : e.fit.Tagged :=
  ⟨h.begins_tag, h.length_tag, h.msgType_tag, h.content_tag, h.sum_tag⟩

theorem Tagged.fit_sound (h : e.Tagged) (hbegins : e.begins.value = d.beginString)
    (hmsgType : e.msgType.value.all isAlphanumeric) (hlen : e.body.length ≤ u64Max) : e.fit.Sound d where
  toTagged := h.fit
  begins_value := hbegins
  length_value := parseUint_writeUint hlen
  msgType_value := hmsgType
  sum_value := readChecksum_sumText (checksumOf_lt _)

theorem Tagged.texts_fit (h : e.Tagged) (hbegins : e.begins.value = d.beginString) :
    texts e.fit.tokens = frame d e.body := by
  have hhead : texts e.measured.head = frameHead d e.body ++ e.body := by
    simp [measured, head, frameHead, body, Token.text, h.begins_tag, h.length_tag, hbegins]
  have htokens : e.fit.tokens = e.measured.head ++
      [⟨e.sum.kind, e.sum.tag, sumText (checksumOf (texts e.measured.head))⟩] := rfl
  rw [frame, ← hhead, htokens, texts_append]
  simp [Token.text, h.sum_tag]

end Envelope

end Babelfix.Tape
