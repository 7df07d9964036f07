import Babelfix.Tape.Lossless
import Babelfix.Tape.Seen

/-! # What is left of a content

What is written of a content is the content without the groups that have no instances. It
is formed as the content is, unless an instance started with such a group, and it is
compared alike. Its fields are those of the content without some NumInGroup fields, so
it can be read field by field. -/
namespace Babelfix.Tape

open Lib

/-- A content starts with a group that has no instances. -/
def startsEmpty : Forest Token → Bool
  | .node t .nil _ => t.kind = .group
  | _ => false

/-- No instance starts with a group that has no instances. -/
def NoneStartsEmpty : Forest Token → Prop
  | .nil => True
  | .node t c r =>
    (t.kind = .inst → startsEmpty c = false) ∧ NoneStartsEmpty c ∧ NoneStartsEmpty r

/-! ## Form -/

section

variable {d : Dictionary}

/-- An instance that starts with something is left, and so is every instance. -/
theorem prune_keeps (f : Forest Token) (hnone : NoneStartsEmpty f) :
    (∀ {b depth first}, Formed d b depth first f → f ≠ .nil → startsEmpty f = false →
      prune f ≠ .nil) ∧
    (∀ {group depth}, FormedInstances d group depth f →
      (prune f).roots.length = f.roots.length) := by
  induction f with
  | nil => exact ⟨fun _ h => absurd rfl h, fun _ => rfl⟩
  | node t c r ihc ihr =>
    obtain ⟨hstart, hc, hr⟩ := hnone
    obtain ⟨hkeeps, hcount⟩ := ihc hc
    constructor
    · intro b depth first hformed _ hempty
      rcases hformed.node_cases with ⟨ht, -, -⟩ | ⟨hgroup, -, -, -, hinsts⟩
      · rw [ht.prune_node]
        simp
      · have hne : c ≠ .nil := by
          intro h
          subst h
          simp [startsEmpty, hgroup] at hempty
        have hlive : prune c ≠ .nil := by
          intro h
          have hlen := hcount hinsts
          rw [h] at hlen
          exact hne (roots_length_eq_zero.mp hlen.symm)
        rw [prune, hgroup]
        dsimp only
        rw [if_neg hlive]
        simp
    · intro group depth hinsts
      obtain ⟨rfl, hne, hformed, hrest⟩ := hinsts
      have hlive := hkeeps hformed hne (hstart rfl)
      have hlen := (ihr hr).2 hrest
      rw [prune_inst, if_neg hlive]
      simp [hlen]

theorem prune_formed (f : Forest Token) (hnone : NoneStartsEmpty f) :
    (∀ {b depth first}, Formed d b depth first f →
      (∀ group, b = .inst group → first = true → startsEmpty f = false) →
      Formed d b depth first (prune f)) ∧
    (∀ {group depth}, FormedInstances d group depth f →
      FormedInstances d group depth (prune f)) := by
  induction f with
  | nil => exact ⟨fun _ _ => trivial, fun _ => trivial⟩
  | node t c r ihc ihr =>
    obtain ⟨hstart, hc, hr⟩ := hnone
    constructor
    · intro b depth first hformed hfirst
      have hrest : Formed d b depth false (prune r) := (ihr hr).1 hformed.2.1 (by simp)
      rcases hformed.node_cases with ⟨ht, rfl, hopens⟩ | ⟨hgroup, hopens, hvalue, hdepth, hinsts⟩
      · rw [ht.prune_node, ht.formed_node]
        exact ⟨hformed.1, hrest, hopens, rfl⟩
      · have hcount := (prune_keeps c hc).2 hinsts
        rw [prune, hgroup]
        dsimp only
        split
        · -- a group that is left out does not start an instance
          rename_i hnil
          have hempty : c = .nil := roots_length_eq_zero.mp (by rw [← hcount, hnil]; rfl)
          cases b with
          | top msgDef header => exact formed_top hrest
          | inst group =>
            cases first with
            | false => exact hrest
            | true =>
              have := hfirst group rfl rfl
              simp [startsEmpty, hempty, hgroup] at this
        · rename_i hlive
          have hle : (prune c).roots.length ≤ u64Max := by
            rw [hcount]
            exact parseUint_le hvalue
          refine ⟨hformed.1, hrest, hopens, parseUint_writeUint hle, fun _ => hdepth ?_,
            (ihc hc).2 hinsts⟩
          rintro rfl
          exact hlive rfl
    · intro group depth hinsts
      obtain ⟨rfl, hne, hformed, hrest⟩ := hinsts
      have hlive := (prune_keeps c hc).1 hformed hne (hstart rfl)
      rw [prune_inst, if_neg hlive]
      exact ⟨rfl, hlive, (ihc hc).1 hformed fun _ _ _ => hstart rfl, (ihr hr).2 hrest⟩

end

/-! ## Comparing -/

variable {d : Dictionary}

/-- A group without instances is not compared, so what is left is compared alike. -/
theorem sees_prune (f : Forest Token) (hnone : NoneStartsEmpty f) :
    (∀ {b depth first} tag, Formed d b depth first f →
      (sees depth tag (prune f)).filter Message.Compared =
        (sees depth tag f).filter Message.Compared) ∧
    (∀ {group depth} tag, FormedInstances d group depth f →
      (sees depth tag (prune f)).filter Message.Compared =
        (sees depth tag f).filter Message.Compared) := by
  induction f with
  | nil => exact ⟨fun _ _ => rfl, fun _ _ => rfl⟩
  | node t c r ihc ihr =>
    obtain ⟨hstart, hc, hr⟩ := hnone
    constructor
    · intro b depth first tag hformed
      have hrest := (ihr hr).1 tag hformed.2.1
      rcases hformed.node_cases with ⟨ht, rfl, -⟩ | ⟨hgroup, -, -, -, hinsts⟩
      · rw [ht.prune_node, sees_node, List.filter_append, hrest, ← List.filter_append, ← sees_node]
      · have hcount := (prune_keeps c hc).2 hinsts
        rw [prune, hgroup]
        dsimp only
        rw [sees, hgroup, List.filter_append, ← hrest]
        by_cases hnil : prune c = .nil
        · have hempty : c = .nil := roots_length_eq_zero.mp (by rw [← hcount, hnil]; rfl)
          subst hempty
          simp [prune, sees, Message.Compared]
        · rw [if_neg hnil, sees, List.filter_append]
          rw [hcount, List.filter_cons, List.filter_cons, (ihc hc).2 t.tag hinsts]
    · intro group depth tag hinsts
      obtain ⟨rfl, hne, hformed, hrest⟩ := hinsts
      have hlive := (prune_keeps c hc).1 hformed hne (hstart rfl)
      rw [prune_inst, if_neg hlive, sees, sees, List.filter_append, List.filter_append, (ihr hr).2 tag hrest]
      change ((⟨.inst, tag, depth, none, none⟩ :: sees depth 0 (prune c)).filter _) ++ _ =
        ((⟨.inst, tag, depth, none, none⟩ :: sees depth 0 c).filter _) ++ _
      rw [List.filter_cons, List.filter_cons, (ihc hc).1 0 hformed]

/-! ## Fields -/

/-- The fields that are left when NumInGroup fields are left out, or count less. -/
inductive Thins : List Token → List Token → Prop
  | nil : Thins [] []
  | keep {ts us : List Token} (t : Token) (h : Thins ts us) : Thins (t :: ts) (t :: us)
  | drop {ts us : List Token} {t : Token} (hkind : t.kind = .field) (htag : t.tag ∉ framingTags)
      (h : Thins ts us) : Thins (t :: ts) us
  | renumber {ts us : List Token} {t : Token} {n k : Nat} (hkind : t.kind = .field)
      (htag : t.tag ∉ framingTags) (hvalue : parseUint t.value = .ok n) (hle : k ≤ n)
      (h : Thins ts us) : Thins (t :: ts) ({ t with value := writeUint k } :: us)

namespace Thins

variable {ts us : List Token}

theorem append {ts' us'} (h : Thins ts us) (h' : Thins ts' us') :
    Thins (ts ++ ts') (us ++ us') := by
  induction h with
  | nil => exact h'
  | keep t _ ih => exact .keep t ih
  | drop hkind htag _ ih => exact .drop hkind htag ih
  | renumber hkind htag hvalue hle _ ih => exact .renumber hkind htag hvalue hle ih

theorem length_texts_le (h : Thins ts us) : (texts us).length ≤ (texts ts).length := by
  induction h with
  | nil => exact Nat.le_refl _
  | renumber _ _ hvalue hle _ ih =>
    have := digits_le_of_parseUint hvalue hle
    simp only [texts_cons, List.length_append, Token.length_text, Token.valOff, length_writeUint]
    omega
  | _ =>
    simp only [texts_cons, List.length_append]
    omega

theorem exists_tag (h : Thins ts us) : ∀ u ∈ us, ∃ t ∈ ts, t.tag = u.tag := by
  induction h with
  | nil => simp
  | keep t _ ih =>
    intro u hu
    rcases List.mem_cons.mp hu with rfl | hu
    · exact ⟨u, List.mem_cons_self, rfl⟩
    · obtain ⟨x, hx, htag⟩ := ih u hu
      exact ⟨x, List.mem_cons_of_mem _ hx, htag⟩
  | drop _ _ _ ih =>
    intro u hu
    obtain ⟨x, hx, htag⟩ := ih u hu
    exact ⟨x, List.mem_cons_of_mem _ hx, htag⟩
  | renumber _ _ _ _ _ ih =>
    intro u hu
    rcases List.mem_cons.mp hu with rfl | hu
    · exact ⟨_, List.mem_cons_self, rfl⟩
    · obtain ⟨x, hx, htag⟩ := ih u hu
      exact ⟨x, List.mem_cons_of_mem _ hx, htag⟩

/-- What is left can be read if the whole can. -/
theorem lexes (h : Thins ts us) {pending pending'} (hlexes : LexesBy soh d pending ts pending') :
    LexesBy soh d pending us pending' := by
  induction h generalizing pending with
  | nil => exact hlexes
  | keep t _ ih =>
    obtain ⟨hvalid, announced, hfollows, hrest⟩ := hlexes
    exact ⟨hvalid, announced, hfollows, ih hrest⟩
  | drop hkind _ _ ih =>
    obtain ⟨-, announced, hfollows, hrest⟩ := hlexes
    cases hfollows with
    | data => cases hkind
    | length => cases hkind
    | field => exact ih hrest
  | @renumber _ _ t n k hkind _ hvalue hle _ ih =>
    obtain ⟨hvalid, announced, hfollows, hrest⟩ := hlexes
    cases hfollows with
    | data => cases hkind
    | length => cases hkind
    | field hplain hsoh =>
      exact ⟨⟨hvalid.tag_pos, hvalid.tag_le, writeUint_ne_nil k⟩, none,
        .field hplain (soh_notMem_writeUint k), ih hrest⟩

theorem of_cons {t} (h : Thins (t :: ts) us) (ht : t.tag ∈ framingTags) :
    ∃ us', us = t :: us' ∧ Thins ts us' := by
  cases h with
  | keep _ h => exact ⟨_, rfl, h⟩
  | drop _ htag _ | renumber _ htag _ _ _ => exact absurd ht htag

theorem of_concat {t} (h : Thins (ts ++ [t]) us) (ht : t.tag ∈ framingTags) :
    ∃ us', us = us' ++ [t] ∧ Thins ts us' := by
  induction ts generalizing us with
  | nil =>
    obtain ⟨us', rfl, hrest⟩ := h.of_cons ht
    cases hrest
    exact ⟨[], rfl, .nil⟩
  | cons x ts ih =>
    cases h with
    | keep _ h =>
      obtain ⟨us', rfl, hrest⟩ := ih h
      exact ⟨x :: us', rfl, .keep x hrest⟩
    | drop hkind htag h =>
      obtain ⟨us', rfl, hrest⟩ := ih h
      exact ⟨us', rfl, .drop hkind htag hrest⟩
    | renumber hkind htag hvalue hle h =>
      obtain ⟨us', rfl, hrest⟩ := ih h
      exact ⟨_ :: us', rfl, .renumber hkind htag hvalue hle hrest⟩

end Thins

theorem roots_prune_le (f : Forest Token) : (prune f).roots.length ≤ f.roots.length := by
  induction f with
  | nil => exact Nat.le_refl _
  | node t c r _ ih =>
    rw [prune]
    split
    · split <;> simp only [Forest.roots_node, List.length_cons] <;> omega
    · split <;> simp only [Forest.roots_node, List.length_cons] <;> omega
    · simp only [Forest.roots_node, List.length_cons]
      omega

/-- Pruning a content leaves out NumInGroup fields, or has them count less. -/
theorem thins_prune (hd : d.Standard) (f : Forest Token) :
    (∀ {b depth first}, Formed d b depth first f → Thins (fields f) (fields (prune f))) ∧
    (∀ {group depth}, FormedInstances d group depth f → Thins (fields f) (fields (prune f))) := by
  induction f with
  | nil => exact ⟨fun _ => .nil, fun _ => .nil⟩
  | node t c r ihc ihr =>
    constructor
    · intro b depth first hformed
      have hrest := ihr.1 hformed.2.1
      rcases hformed.node_cases with ⟨ht, rfl, -⟩ | ⟨hgroup, hopens, hvalue, -, hinsts⟩
      · rw [ht.prune_node, fields_node, fields_node, ht.own_eq]
        exact .keep t hrest
      · have hfields := ihc.2 hinsts
        have htag : t.tag ∉ framingTags := by
          intro h
          rw [hd.opens h b] at hopens
          cases hopens
        obtain ⟨kind, tag, value⟩ := t
        cases hgroup
        rw [fields_node, show Token.own ⟨.group, tag, value⟩ = [⟨.field, tag, value⟩] from rfl, prune]
        dsimp only
        split
        · rename_i hnil
          rw [hnil] at hfields
          exact .drop rfl htag (hfields.append hrest)
        · rw [fields_node]
          exact .renumber rfl htag hvalue (roots_prune_le c) (hfields.append hrest)
    · intro group depth hinsts
      obtain ⟨rfl, hne, hformed, hinsts⟩ := hinsts
      have hfields := ihc.1 hformed
      have hrest := ihr.2 hinsts
      rw [fields_node, prune_inst]
      split
      · rename_i hnil
        rw [hnil] at hfields
        exact hfields.append hrest
      · rw [fields_node]
        exact hfields.append hrest

/-! ## Values written afresh -/

/-- A change of values that leaves alone what a content's form rests on: kinds, tags, and
what a group counts. -/
structure Revalues (g : Token → Token) : Prop where
  kind : ∀ t, (g t).kind = t.kind
  tag : ∀ t, (g t).tag = t.tag
  group : ∀ t, t.kind = .group → g t = t
  inst : g Token.inst = Token.inst

namespace Revalues

variable {g : Token → Token} {d : Dictionary} {b : Block} {depth : Nat}

theorem map_eq_nil {f : Forest Token} : f.map g = .nil ↔ f = .nil := by
  cases f <;> simp

section
variable (hg : Revalues g)
include hg

theorem isField_iff (t : Token) : (g t).IsField ↔ t.IsField := by
  simp only [Token.IsField, hg.kind]

theorem ends_map (ended : List GroupIdx) (f : Forest Token) :
    ends d b ended (f.map g) = ends d b ended f := by
  induction f generalizing b ended with
  | nil => rfl
  | node t c r ihc ihr =>
    rw [Forest.map_node, ends, ends, hg.kind, hg.tag]
    simp only [ihc, ihr, map_eq_nil]

theorem apart_map (ended : List GroupIdx) (f : Forest Token) :
    Apart d b ended (f.map g) ↔ Apart d b ended f := by
  induction f generalizing b ended with
  | nil => rfl
  | node t c r ihc ihr =>
    rw [Forest.map_node, Apart, Apart, hg.kind, hg.tag]
    simp only [ihc, ihr, map_eq_nil, hg.ends_map]

theorem formed_map (f : Forest Token) :
    (∀ {b depth first}, Formed d b depth first f → Formed d b depth first (f.map g)) ∧
    (∀ {group depth}, FormedInstances d group depth f →
      FormedInstances d group depth (f.map g)) := by
  induction f with
  | nil => exact ⟨fun _ => trivial, fun _ => trivial⟩
  | node t c r ihc ihr =>
    constructor
    · intro b depth first hformed
      have hrest := ihr.1 hformed.2.1
      rcases hformed.node_cases with ⟨ht, rfl, hopens⟩ | ⟨hgroup, hopens, hvalue, hdepth, hinsts⟩
      · rw [Forest.map_node, ((hg.isField_iff t).mpr ht).formed_node, hg.tag, hg.kind]
        exact ⟨hformed.1, hrest, hopens, rfl⟩
      · rw [Forest.map_node, hg.group t hgroup, Formed, hgroup]
        rw [Forest.roots_map, List.length_map, ne_eq, map_eq_nil]
        exact ⟨hformed.1, hrest, hopens, hvalue, hdepth, ihc.2 hinsts⟩
    · intro group depth hinsts
      obtain ⟨rfl, hne, hformed, hrest⟩ := hinsts
      exact ⟨hg.inst, fun h => hne (map_eq_nil.mp h), ihc.1 hformed, ihr.2 hrest⟩

theorem wellFormed {msgDef h b t} (hwell : (Sections.trailer h b t).WellFormed d msgDef) :
    (Sections.trailer (h.map g) (b.map g) (t.map g)).WellFormed d msgDef where
  header_tags := by
    intro x hx
    obtain ⟨y, hy, rfl⟩ := List.mem_map.mp (Forest.roots_map g h ▸ hx)
    rw [hg.tag]
    exact hwell.header_tags y hy
  body_tags := by
    intro x hx
    obtain ⟨y, hy, rfl⟩ := List.mem_map.mp (Forest.roots_map g b ▸ hx)
    rw [hg.tag]
    exact hwell.body_tags y hy
  trailer_tags := by
    intro x hx
    obtain ⟨y, hy, rfl⟩ := List.mem_map.mp (Forest.roots_map g t ▸ hx)
    rw [hg.tag]
    exact hwell.trailer_tags y hy
  trailer_first := by
    intro x hx
    have hx : x ∈ (t.map g).roots.head? := hx
    rw [Forest.roots_map, List.head?_map] at hx
    obtain ⟨y, hy, rfl⟩ := Option.mem_map.mp hx
    rw [hg.tag]
    exact hwell.trailer_first y hy
  header_formed := (hg.formed_map h).1 hwell.header_formed
  body_formed := (hg.formed_map b).1 hwell.body_formed
  trailer_formed := (hg.formed_map t).1 hwell.trailer_formed
  header_apart := (hg.apart_map [] h).mpr hwell.header_apart
  body_apart := by
    change Apart d _ (ends d _ [] (h.map g)) (b.map g)
    rw [hg.ends_map, hg.apart_map]
    exact hwell.body_apart
  trailer_apart := by
    change Apart d _ (ends d _ (ends d _ [] (h.map g)) (b.map g)) (t.map g)
    rw [hg.ends_map, hg.ends_map, hg.apart_map]
    exact hwell.trailer_apart

/-- Values that are not compared may be others. -/
theorem sees_map (heq : ∀ t : Token, t.tag ≠ 9 → t.tag ≠ 10 → g t = t) (depth tag : Nat)
    (f : Forest Token) : (sees depth tag (f.map g)).filter Message.Compared =
      (sees depth tag f).filter Message.Compared := by
  induction f generalizing depth tag with
  | nil => rfl
  | node t c r ihc ihr =>
    rw [Forest.map_node, sees_node, sees_node depth tag t, List.filter_append, List.filter_append,
      ihr]
    congr 1
    have hleaf (kind : Kind) : [(⟨kind, t.tag, depth, some (g t).value, none⟩ : Seen)].filter
        Message.Compared = [⟨kind, t.tag, depth, some t.value, none⟩].filter Message.Compared := by
      by_cases h9 : t.tag = 9
      · simp [Message.Compared, h9]
      · by_cases h10 : t.tag = 10
        · simp [Message.Compared, h10]
        · rw [heq t h9 h10]
    simp only [sees, hg.kind, hg.tag, List.append_nil]
    cases t.kind with
    | inst => simp only [List.filter_cons, ihc]
    | group => simp only [List.filter_cons, ihc, Forest.roots_map, List.length_map]
    | gap => exact hleaf _
    | field => exact hleaf _
    | dataLen => exact hleaf _
    | data => exact hleaf _

/-- The fields have the other values too, if what counts a group does not frame a
message. -/
theorem fields_map (heq : ∀ t : Token, t.tag ∉ framingTags → g t = t) {f}
    (hgroups : ∀ t ∈ f.preorder, t.kind = .group → t.tag ∉ framingTags) :
    fields (f.map g) = (fields f).map g := by
  induction f with
  | nil => rfl
  | node t c r ihc ihr =>
    have hown : (g t).own = t.own.map g := by
      unfold Token.own
      rw [hg.kind]
      split
      · rfl
      · by_cases hgroup : t.kind = .group
        · have htag := hgroups t (by simp) hgroup
          rw [hg.group t hgroup, List.map_singleton, heq _ (by simpa using htag)]
        · have hself (u : Token) (hu : u.kind ≠ .group) : u.asField = u := if_neg hu
          rw [hself _ (by rwa [hg.kind]), hself t hgroup, List.map_singleton]
    rw [Forest.map_node, fields_node, fields_node, hown,
      ihc fun u hu => hgroups u (by simp [hu]), ihr fun u hu => hgroups u (by simp [hu])]
    simp

end

end Revalues

end Babelfix.Tape
