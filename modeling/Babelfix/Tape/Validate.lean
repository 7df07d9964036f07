import Mathlib.Data.List.Sort
import Babelfix.Tape.Groups
import Babelfix.Tape.Safety

/-! # Strict validation

Opt-in checks of the rules parsing does not enforce (`message/validate.rs`): a tag
appears at most once in the message and at most once in each instance, and the fields of
an instance are in the order of its group's definition. -/
namespace Babelfix.Tape

open Lib

/-! ## The checks -/

/-- Sort the tags and look for two neighbours that are the same. -/
def checkUnique (tags : List Nat) : Except Fault Unit :=
  let sorted := tags.insertionSort (· ≤ ·)
  match (sorted.zip sorted.tail).find? fun w => w.1 = w.2 with
  | some (tag, _) => reject Reason.tagAppearsMoreThanOnce tag s!"tag {tag} appears more than once"
  | none => .ok ()

/-- The members among `seen` do not go back in the order of the definition. -/
def checkOrder (members : TagMap Nat) (group : Nat) : Option Nat → List Nat → Except Fault Unit
  | _, [] => .ok ()
  | last, tag :: seen =>
    match members.get tag with
    | none => checkOrder members group last seen
    | some pos =>
      if last.any fun l => pos < l then
        reject Reason.repeatingGroupFieldsOutOfOrder tag
          s!"tag {tag} is out of order in group {group}"
      else checkOrder members group (some pos) seen

namespace Message

mutual

/-- Gather the direct children from `i` up to `stop`, and check each group's instances. -/
def collectUpTo (m : Message) : Nat → Nat → Nat → List Nat → Except Fault (List Nat)
  | 0, _, _, seen => .ok seen
  | fuel + 1, i, stop, seen =>
    if i < stop then do
      let e := entryAt m.tape i
      let seen := if e.isTagged then seen ++ [e.tag] else seen
      if e.kind = .group then
        m.checkInstancesUpTo fuel (m.groupDefAt i) e.tag (i + 1) (nextSibling m.tape i)
      m.collectUpTo fuel (i + e.span) stop seen
    else .ok seen
termination_by structural fuel => fuel

/-- Check the instances of a group from `q` up to `stop`. -/
def checkInstancesUpTo (m : Message) : Nat → Option GroupIdx → Nat → Nat → Nat → Except Fault Unit
  | 0, _, _, _, _ => .ok ()
  | fuel + 1, group, tag, q, stop =>
    if q < stop then do
      let next := nextSibling m.tape q
      let seen ← m.collectUpTo fuel (q + 1) next []
      if let some group := group then
        checkOrder (m.dict.group group).members tag none seen
      checkUnique seen
      m.checkInstancesUpTo fuel group tag next stop
    else .ok ()
termination_by structural fuel => fuel

end

def collect (m : Message) (region : Region) (seen : List Nat) : Except Fault (List Nat) :=
  let (start, stop) := m.regionRange region
  m.collectUpTo m.tape.length start stop seen

/-- Hold the message to the rules that parsing tolerates. -/
def validateStrict (m : Message) : Except Fault Unit := do
  let seen ← m.collect .header []
  let seen ← m.collect .body seen
  let seen ← m.collect .trailer seen
  checkUnique seen

end Message

/-! ## What they accept -/

theorem neighbours_ne_iff {l : List Nat} (h : l.Pairwise (· ≤ ·)) :
    (∀ w ∈ l.zip l.tail, w.1 ≠ w.2) ↔ l.Nodup := by
  induction l with
  | nil => simp
  | cons a l ih =>
    cases l with
    | nil => simp
    | cons b l =>
      obtain ⟨ha, hl⟩ := List.pairwise_cons.mp h
      have hb := (List.pairwise_cons.mp hl).1
      have hmem : a ∈ b :: l ↔ a = b := by
        refine ⟨fun hmem => ?_, fun heq => by simp [heq]⟩
        rcases List.mem_cons.mp hmem with rfl | hmem
        · rfl
        · exact Nat.le_antisymm (ha b List.mem_cons_self) (hb a hmem)
      have hzip : (a :: b :: l).zip (a :: b :: l).tail = (a, b) :: (b :: l).zip (b :: l).tail := rfl
      rw [hzip, List.forall_mem_cons, ih hl, List.nodup_cons (a := a), hmem]

theorem checkUnique_iff (tags : List Nat) : checkUnique tags = .ok () ↔ tags.Nodup := by
  have hsorted := List.pairwise_insertionSort (· ≤ ·) tags
  rw [← (List.perm_insertionSort (· ≤ ·) tags).nodup_iff, ← neighbours_ne_iff hsorted]
  unfold checkUnique
  dsimp only
  split
  · rename_i tag _ hfind
    have heq := List.find?_some hfind
    refine ⟨fun h => (by cases h), fun h => absurd ?_ (h _ (List.mem_of_find?_eq_some hfind))⟩
    simpa using heq
  · rename_i hfind
    refine ⟨fun _ w hw => ?_, fun _ => rfl⟩
    simpa using List.find?_eq_none.mp hfind w hw

theorem checkOrder_iff (members : TagMap Nat) (group : Nat) (last : Option Nat) (seen : List Nat) :
    checkOrder members group last seen = .ok () ↔
      (last.toList ++ seen.filterMap members.get).IsChain (· ≤ ·) := by
  induction seen generalizing last with
  | nil => cases last <;> simp [checkOrder]
  | cons tag seen ih =>
    rw [checkOrder, List.filterMap_cons]
    cases hget : members.get tag with
    | none => exact ih last
    | some pos =>
      have hnext := ih (some pos)
      cases last with
      | none => simpa using hnext
      | some l =>
        by_cases hlt : pos < l
        · simp [hlt, reject]
        · have hle : l ≤ pos := by omega
          simpa [hlt, hle] using hnext

/-! ## Every instance -/

mutual

/-- The instances of the groups in a block, at any depth: each with its group's
definition. -/
def instancesBelow (d : Dictionary) (b : Option Block) :
    Forest Token → List (Option GroupIdx × Forest Token)
  | .nil => []
  | .node t c r =>
    (if t.kind = .group then instancesOf d (opensIn d b t.tag) c else []) ++ instancesBelow d b r

/-- The instances of a group, and those of the groups inside them. -/
def instancesOf (d : Dictionary) (group : Option GroupIdx) :
    Forest Token → List (Option GroupIdx × Forest Token)
  | .nil => []
  | .node _ c r => (group, c) :: (instancesBelow d (group.map .inst) c ++ instancesOf d group r)

end

def Message.instances (m : Message) : List (Option GroupIdx × Forest Token) :=
  [.header, .body, .trailer].flatMap fun region =>
    instancesBelow m.dict (some (m.top region)) (m.part region)

/-- The tags of a block's fields and groups. -/
def tagsOf (f : Forest Token) : List Nat := f.roots.map Token.tag

/-- No tag occurs twice in an instance, and its members are in the order of the
definition. -/
structure InOrder (d : Dictionary) (x : Option GroupIdx × Forest Token) : Prop where
  unique : (tagsOf x.2).Nodup
  order : ∀ group ∈ x.1,
    ((tagsOf x.2).filterMap (d.group group).members.get).Pairwise (· ≤ ·)

variable {m : Message} {gap : Nat}

theorem collectUpTo_gap {fuel} (hfuel : gap ≤ fuel) (pre : List Entry) {post}
    (htape : m.tape = pre ++ ((gapOf gap).preorder ++ post)) (seen : List Nat) :
    m.collectUpTo fuel pre.length (pre.length + gap) seen = .ok seen := by
  cases fuel with
  | zero => rfl
  | succ fuel =>
    cases gap with
    | zero => simp [Message.collectUpTo]
    | succ n =>
      have s := stands htape (fits_gapOf (n + 1))
      rw [Message.collectUpTo, if_pos (by omega)]
      rw [s.entry]
      cases fuel <;> simp [Entry.gap, Entry.isTagged, Entry.span, Message.collectUpTo]

section

variable {m : Message} {pre post : List Entry} {e : Entry} {c r : Forest Entry} {fuel stop : Nat}

theorem collectUpTo_field (s : Stands m.tape pre e .nil r post) (hfield : e.isField)
    (hlt : pre.length < stop) (seen : List Nat) :
    m.collectUpTo (fuel + 1) pre.length stop seen =
      m.collectUpTo fuel (pre ++ e :: Forest.nil.preorder).length stop (seen ++ [e.tag]) := by
  rw [Message.collectUpTo, if_pos hlt]
  rw [s.entry, if_neg (Entry.kind_ne_group hfield), if_pos (Entry.isTagged_of_isField hfield),
    Entry.span_field hfield, s.start]
  rfl

theorem collectUpTo_group (s : Stands m.tape pre e c r post) (hkind : e.kind = .group)
    (hlt : pre.length < stop) (seen : List Nat) :
    m.collectUpTo (fuel + 1) pre.length stop seen =
      (m.checkInstancesUpTo fuel (m.groupDefAt pre.length) e.tag (pre ++ [e]).length
          ((pre ++ [e]).length + c.size) >>= fun _ =>
        m.collectUpTo fuel (pre ++ e :: c.preorder).length stop (seen ++ [e.tag])) := by
  have hnext : pre.length + e.span = (pre ++ e :: c.preorder).length := by
    rw [← s.next, nextSibling, s.entry]
  have htagged : e.isTagged = true := by simp [Entry.isTagged, hkind]
  rw [Message.collectUpTo, if_pos hlt]
  rw [s.entry, if_pos hkind, if_pos htagged, hnext, s.next, s.mid, s.start]

/-- An instance is in order, going by what is in it. -/
theorem checkInstancesUpTo_iff (s : Stands m.tape pre e c r post) (hlt : pre.length < stop)
    (group : Option GroupIdx) (tag : Nat) :
    m.checkInstancesUpTo (fuel + 1) group tag pre.length stop = .ok () ↔
      ∃ seen, m.collectUpTo fuel (pre ++ [e]).length ((pre ++ [e]).length + c.size) [] = .ok seen ∧
        seen.Nodup ∧
        (∀ g ∈ group, (seen.filterMap (m.dict.group g).members.get).Pairwise (· ≤ ·)) ∧
        m.checkInstancesUpTo fuel group tag (pre ++ e :: c.preorder).length stop = .ok () := by
  rw [Message.checkInstancesUpTo, if_pos hlt]
  rw [s.next, s.start, bind_ok_iff, s.mid]
  refine exists_congr fun seen => and_congr_right fun _ => ?_
  cases group with
  | none =>
    rw [then_ok_iff, checkUnique_iff]
    simp
  | some group =>
    rw [then_ok_iff, then_ok_iff, checkUnique_iff, checkOrder_iff, Option.toList_none,
      List.nil_append, List.isChain_iff_pairwise, ← and_assoc, and_comm (a := List.Pairwise _ _),
      and_assoc]
    simp

end

/-- Collecting gathers the tags of a block, if every instance below it is in order; and
checking a group's instances succeeds if they are. -/
theorem Shaped.collected {P : Entry → Prop} {insts : Bool} {depth : Nat} {f : Forest Entry}
    (h : Shaped P insts depth f) (pre : List Entry) {post : List Entry} {fuel : Nat}
    (hfuel : f.size + gap ≤ fuel) (htape : m.tape = pre ++ (f.preorder ++ ((gapOf gap).preorder ++ post))) :
    (insts = false → ∀ region found b, InBlock m region found b pre.length f.size →
      ∀ seen r, m.collectUpTo fuel pre.length (pre.length + f.size + gap) seen = .ok r ↔
        r = seen ++ tagsOf (f.map m.content) ∧
          ∀ x ∈ instancesBelow m.dict b (f.map m.content), InOrder m.dict x) ∧
    (insts = true → gap = 0 → ∀ region g group, InGroup m region g group pre.length f.size →
      ∀ tag, m.checkInstancesUpTo fuel group tag pre.length (pre.length + f.size) = .ok () ↔
        ∀ x ∈ instancesOf m.dict group (f.map m.content), InOrder m.dict x) := by
  induction fuel generalizing insts depth f pre post gap with
  | zero =>
    cases h with
    | nil =>
      refine ⟨fun _ region found b _ seen r => ?_, fun _ _ _ _ _ _ _ => ?_⟩
      · simp [Message.collectUpTo, instancesBelow, tagsOf, eq_comm]
      · simp [Message.checkInstancesUpTo, instancesOf]
    | field | group | inst => simp at hfuel
  | succ fuel ih =>
    cases f with
    | nil =>
      refine ⟨fun _ region found b _ seen r => ?_, fun _ _ _ _ _ _ _ => ?_⟩
      · rw [show pre.length + Forest.nil.size + gap = pre.length + gap by simp,
          collectUpTo_gap (by simpa using hfuel) pre htape seen]
        simp [instancesBelow, tagsOf, eq_comm]
      · simp [Message.checkInstancesUpTo, instancesOf]
    | node e c r =>
      have hfits := h.fits
      have s := stands htape hfits
      have hstop : pre.length + (Forest.node e c r).size + gap =
          (pre ++ e :: c.preorder).length + r.size + gap := by rw [s.stop]
      simp only [Forest.size_node] at hfuel
      have hlt : pre.length < (pre ++ e :: c.preorder).length + r.size + gap := by
        simp
        omega
      rw [hstop]
      cases h with
      | field hfield hdepth hP hr =>
        refine ⟨fun _ region found b hblock seen x => ?_, fun h => by cases h⟩
        have hrest := (ih hr _ (by omega) s.after).1 rfl region found b (hblock.rest hfits htape)
        have hkind := Entry.kind_ne_group hfield
        rw [collectUpTo_field s hfield hlt, hrest]
        simp [tagsOf, instancesBelow, Message.content_field hfield, hkind]
      | group hkind hdepth hcount hspan hc hr =>
        refine ⟨fun _ region found b hblock seen x => ?_, fun h => by cases h⟩
        have hrest := (ih hr _ (by omega) s.after).1 rfl region found b (hblock.rest hfits htape)
        have hbelow := (ih hc (pre ++ [e]) (show c.size + 0 ≤ fuel by omega) s.below).2 rfl rfl region _ _
          (hblock.inGroup hfits htape) e.tag
        rw [collectUpTo_group s hkind hlt, then_ok_iff, hblock.groupDefAt_eq s, hbelow, hrest]
        simp [tagsOf, instancesBelow, Message.content_group hkind, or_imp, forall_and]
        tauto
      | inst hkind hdepth hspan hc hr =>
        refine ⟨fun h => (by cases h), fun _ hgap region g group hgroup tag => ?_⟩
        subst hgap
        have hrest := (ih hr _ (by omega) s.after).2 rfl rfl region g group
          (hgroup.rest hfits htape) tag
        have hbelow := (ih hc (pre ++ [e]) (show c.size + 0 ≤ fuel by omega) s.below).1 rfl region _ _
          (hgroup.inBlock hfits htape) []
        rw [s.stop, checkInstancesUpTo_iff s (by omega)]
        simp only [Nat.add_zero] at hbelow
        simp only [hbelow, hrest]
        rw [Forest.map_node, instancesOf, List.forall_mem_cons, List.forall_mem_append]
        constructor
        · intro h
          obtain ⟨seen, ⟨hseen, hinside⟩, hunique, horder, hafter⟩ := h
          cases hseen
          exact ⟨⟨hunique, horder⟩, hinside, hafter⟩
        · intro h
          obtain ⟨hinst, hinside, hafter⟩ := h
          exact ⟨_, ⟨rfl, hinside⟩, hinst.unique, hinst.order, hafter⟩

theorem Message.Lays.collect_iff {header body trailer} (h : m.Lays m.Spells header gap body trailer)
    (region : Region) (seen r : List Nat) :
    m.collect region seen = .ok r ↔ r = seen ++ tagsOf (m.part region) ∧
      ∀ x ∈ instancesBelow m.dict (some (m.top region)) (m.part region), InOrder m.dict x := by
  have hlen := h.length_tape
  obtain ⟨hheader, hbody, htrailer⟩ := h.part_eq
  unfold Message.collect Message.regionRange
  cases region with
  | header =>
    have hblock : InBlock m .header none (some (m.top .header)) ([] : List Entry).length header.size :=
      h.inBlock_header.mono (by simp)
    have htape : m.tape = [] ++ (header.preorder ++ ((gapOf gap).preorder ++
      (body ++ trailer).preorder)) := by simp [h.tape]
    have hcollected := (h.header.collected [] (show header.size + gap ≤ m.tape.length by omega) htape).1
      rfl _ _ _ hblock seen r
    rw [hheader, ← hcollected, h.bodyStart]
    simp
  | body =>
    have hpre : (header ++ gapOf gap).preorder.length = m.bodyStart := by simp [h.bodyStart]
    have hblock := h.inBlock_body
    rw [← hpre] at hblock
    have hcollected := (h.body.collected _ (show body.size + 0 ≤ m.tape.length by omega)
      h.tape_body).1 rfl _ _ _ hblock seen r
    rw [hbody, ← hcollected, hpre, h.bodyStart, h.trailerStart]
    rfl
  | trailer =>
    have hpre : (header ++ (gapOf gap ++ body)).preorder.length = m.trailerStart := by
      simp [h.trailerStart, Nat.add_assoc]
    have hblock := h.inBlock_trailer
    rw [← hpre] at hblock
    have hcollected := (h.trailer.collected _ (show trailer.size + 0 ≤ m.tape.length by omega)
      h.tape_trailer).1 rfl _ _ _ hblock seen r
    rw [htrailer, ← hcollected, hpre, h.trailerStart, hlen]
    rfl

/-- **Strict validation is exact**: it succeeds if no tag occurs twice at the top level of
the message, none twice in an instance, and the members of every instance of a group the
dictionary defines are in the order of the definition. -/
theorem validateStrict_iff {m : Message} (h : m.WellFormed) :
    m.validateStrict = .ok () ↔
      (tagsOf (m.part .header ++ (m.part .body ++ m.part .trailer))).Nodup ∧
        ∀ x ∈ m.instances, InOrder m.dict x := by
  obtain ⟨header, gap, body, trailer, h, -⟩ := h
  simp only [Message.validateStrict, bind_ok_iff, h.collect_iff, checkUnique_iff, Message.instances,
    List.flatMap_cons, List.flatMap_nil, List.append_nil, List.forall_mem_append, tagsOf,
    Forest.roots_append, List.map_append]
  constructor
  · intro h
    obtain ⟨seen, ⟨hseen, hheader⟩, seen', ⟨hseen', hbody⟩, seen'', ⟨hseen'', htrailer⟩, hunique⟩ := h
    subst hseen hseen' hseen''
    exact ⟨by simpa using hunique, hheader, hbody, htrailer⟩
  · intro h
    obtain ⟨hunique, hheader, hbody, htrailer⟩ := h
    exact ⟨_, ⟨rfl, hheader⟩, _, ⟨rfl, hbody⟩, _, ⟨rfl, htrailer⟩, by simpa using hunique⟩

/-- A message that passes. -/
theorem validateStrict_encodedNews : ∃ m,
    Message.parseDelimited (news (ascii "FIX.4.4")) encodedNews 124 = .ok m ∧
      (tagsOf (m.part .header ++ (m.part .body ++ m.part .trailer))).Nodup ∧
        ∀ x ∈ m.instances, InOrder m.dict x := by
  have hvalid : (Message.parseDelimited (news (ascii "FIX.4.4")) encodedNews 124).toOption.map
      Message.validateStrict = some (.ok ()) := by decide +kernel
  obtain ⟨m, hm, hvalid⟩ := Option.map_eq_some_iff.mp hvalid
  have hparse := toOption_eq_some.mp hm
  exact ⟨m, hparse, (validateStrict_iff (encodedNews_wellFormed hparse)).mp hvalid⟩

end Babelfix.Tape
