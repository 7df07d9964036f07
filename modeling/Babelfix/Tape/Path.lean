import Babelfix.Tape.Hints
import Babelfix.Tape.Navigate

/-! # Paths

The address of a position (`message/path.rs`): its region, the instances on the way to
it, and its tag. A path is made from the inside out, by looking for what is around an
entry again and again, and followed from the outside in, by looking for groups; its text
is the region, a step for each instance and the tag, with slashes between them. -/
namespace Babelfix.Tape

open Lib

/-- Which field or instance is meant. -/
structure FieldPath where
  region : Region
  /-- NumInGroup tags and indices, outermost first. -/
  instances : List (Nat × Nat)
  /-- Nothing if an instance or a region is meant. -/
  tag : Option Nat
  deriving DecidableEq, Repr

/-! ## Text -/

def Region.text : Region → Bytes
  | .header => ascii "header"
  | .body => ascii "body"
  | .trailer => ascii "trailer"

/-- One instance step of a text, `453[1]`. -/
def stepText (step : Nat × Nat) : Bytes := writeUint step.1 ++ 91 :: (writeUint step.2 ++ [93])

/-- A number may start with a plus. -/
def stripSign : Bytes → Bytes
  | 43 :: d :: ds => d :: ds
  | ds => ds

/-- `str::parse::<u32>`. -/
def parseU32 (text : Bytes) : Option Nat :=
  let ds := stripSign text
  if ds ≠ [] ∧ ds.all (IsDigit ·) ∧ numeral ds ≤ u32Max then some (numeral ds) else none

/-- `str::split_once`. -/
def splitOnce (sep : UInt8) : Bytes → Option (Bytes × Bytes)
  | [] => none
  | c :: cs =>
    if c = sep then some ([], cs) else (splitOnce sep cs).map fun x => (c :: x.1, x.2)

/-- `str::strip_suffix`. -/
def stripSuffix (c : UInt8) (text : Bytes) : Option Bytes :=
  if text.getLast? = some c then some text.dropLast else none

structure ParsePathError where
  path : Bytes
  deriving DecidableEq, Repr

def ParsePathError.text (e : ParsePathError) : Bytes := ascii "invalid field path: " ++ e.path

namespace FieldPath

def regionRoot (region : Region) : FieldPath := ⟨region, [], none⟩

def text (p : FieldPath) : Bytes :=
  p.region.text ++ p.instances.flatMap (fun step => 47 :: stepText step) ++
    p.tag.elim [] fun tag => 47 :: writeUint tag

/-- The parts of a text after the region. Only the last may be a tag. -/
def parseParts (p : FieldPath) : List Bytes → Option FieldPath
  | [] => some p
  | part :: rest =>
    match (stripSuffix 93 part).bind (splitOnce 91) with
    | some (group, index) =>
      (parseU32 group).bind fun group => (parseU32 index).bind fun index =>
        parseParts { p with instances := p.instances ++ [(group, index)] } rest
    | none => if rest = [] then (parseU32 part).map fun tag => { p with tag := some tag } else none

def parseRegion (text : Bytes) : Option Region :=
  if text = Region.header.text then some .header
  else if text = Region.body.text then some .body
  else if text = Region.trailer.text then some .trailer
  else none

def fromStr (s : Bytes) : Except ParsePathError FieldPath :=
  let path := match s.splitOn 47 with
    | [] => none
    | region :: parts => (parseRegion region).bind fun region => (regionRoot region).parseParts parts
  match path with
  | some path => .ok path
  | none => .error ⟨s⟩

end FieldPath

/-! ## Positions -/

namespace Message

/-- The step to an instance. -/
def stepAt (m : Message) (i : Nat) : List (Nat × Nat) :=
  if (entryAt m.tape i).kind = .inst then [(m.tagAt i, asU32 (m.instanceIndex i))] else []

/-- The steps to the instances around an entry, innermost first. -/
def chainUpTo (m : Message) : Nat → Nat → List (Nat × Nat)
  | 0, _ => []
  | fuel + 1, i =>
    match m.up i with
    | some u => m.stepAt u ++ m.chainUpTo fuel u
    | none => []

def path (m : Message) (i : Nat) : FieldPath where
  region := m.regionOf i
  instances := (m.stepAt i ++ m.chainUpTo m.tape.length i).reverse
  tag := if (entryAt m.tape i).kind = .inst then none else some (entryAt m.tape i).tag

/-- The instances of a group, from sibling to sibling. -/
def iterUpTo (m : Message) : Nat → Nat → Nat → List Nat
  | 0, _, _ => []
  | fuel + 1, i, stop => if i < stop then i :: m.iterUpTo fuel (nextSibling m.tape i) stop else []

def groupIter (m : Message) (b : BlockView) (tag : Nat) : List Nat :=
  match (m.findBlock b tag none).filter fun g => (entryAt m.tape g).kind = .group with
  | some g => m.iterUpTo (nextSibling m.tape g - (g + 1)) (g + 1) (nextSibling m.tape g)
  | none => []

/-- Follow the steps of a path from a block; `last` is the instance that was come to last. -/
def follow (m : Message) (b : BlockView) (last : Option Nat) :
    List (Nat × Nat) → Option (BlockView × Option Nat)
  | [] => some (b, last)
  | (group, n) :: rest =>
    ((m.groupIter b group)[n]?).bind fun q => m.follow (m.instanceBlock q) (some q) rest

def resolve (m : Message) (path : FieldPath) : Option Nat :=
  (m.follow (m.regionBlock path.region) none path.instances).bind fun x =>
    match path.tag with
    | some tag => m.findBlock x.1 tag none
    | none => x.2

end Message

/-! ## Reading a text back -/

theorem parseU32_writeUint {n} (h : n < 2 ^ 32) : parseU32 (writeUint n) = some n := by
  have hdigits : ∀ c ∈ writeUint n, IsDigit c := fun c => isDigit_of_mem_writeUint
  have hall : (writeUint n).all (IsDigit ·) = true :=
    List.all_eq_true.mpr fun c hc => decide_eq_true (hdigits c hc)
  have hmax : numeral (writeUint n) ≤ u32Max := by
    rw [numeral_writeUint, u32Max]
    omega
  have hsign : stripSign (writeUint n) = writeUint n := by
    unfold stripSign
    split
    · rename_i d ds heq
      rw [heq] at hdigits
      exact absurd (hdigits 43 (by simp)) (by decide)
    · rfl
  rw [parseU32, hsign, if_pos ⟨writeUint_ne_nil n, hall, hmax⟩, numeral_writeUint]

theorem splitOnce_append {sep xs ys} (h : sep ∉ xs) :
    splitOnce sep (xs ++ sep :: ys) = some (xs, ys) := by
  induction xs with
  | nil => simp [splitOnce]
  | cons x xs ih =>
    have hx : x ≠ sep := fun heq => h (by simp [heq])
    rw [List.cons_append, splitOnce, if_neg hx, ih fun hmem => h (List.mem_cons_of_mem _ hmem)]
    rfl

theorem notMem_writeUint {c} (hc : ¬ IsDigit c) (n : Nat) : c ∉ writeUint n :=
  fun hmem => hc (isDigit_of_mem_writeUint hmem)

theorem step_stepText (step : Nat × Nat) :
    (stripSuffix 93 (stepText step)).bind (splitOnce 91) = some (writeUint step.1, writeUint step.2) := by
  have hsplit : stepText step = (writeUint step.1 ++ 91 :: writeUint step.2) ++ [93] := by
    simp [stepText]
  rw [stripSuffix, hsplit, List.getLast?_concat, if_pos rfl, List.dropLast_concat, Option.bind_some,
    splitOnce_append (notMem_writeUint (by decide) _)]

theorem step_writeUint (tag : Nat) : (stripSuffix 93 (writeUint tag)).bind (splitOnce 91) = none := by
  rw [stripSuffix, if_neg, Option.bind_none]
  intro hlast
  exact notMem_writeUint (by decide) tag (List.mem_of_getLast? hlast)

namespace FieldPath

/-- The tags and indices of a path are kept in 32 bits. -/
structure Narrow (p : FieldPath) : Prop where
  steps : ∀ step ∈ p.instances, step.1 < 2 ^ 32 ∧ step.2 < 2 ^ 32
  tag : ∀ tag ∈ p.tag, tag < 2 ^ 32

/-- The parts of a text between slashes, after the region. -/
def parts (p : FieldPath) : List Bytes := p.instances.map stepText ++ (p.tag.map writeUint).toList

theorem text_eq_intercalate (p : FieldPath) : p.text = [47].intercalate (p.region.text :: p.parts) := by
  have hjoin : ∀ (x : Bytes) (ys : List Bytes),
      [47].intercalate (x :: ys) = x ++ ys.flatMap (fun y => 47 :: y) := by
    intro x ys
    induction ys generalizing x with
    | nil => simp
    | cons y ys ih =>
      rw [List.intercalate_cons_cons, ih]
      simp
  rw [text, hjoin, parts, List.flatMap_append, List.flatMap_map, List.append_assoc]
  cases p.tag <;> simp

theorem parseParts_steps {steps} (h : ∀ step ∈ steps, step.1 < 2 ^ 32 ∧ step.2 < 2 ^ 32)
    (p : FieldPath) (rest : List Bytes) : p.parseParts (steps.map stepText ++ rest) =
      { p with instances := p.instances ++ steps }.parseParts rest := by
  induction steps generalizing p with
  | nil => simp
  | cons step steps ih =>
    obtain ⟨hgroup, hindex⟩ := h step List.mem_cons_self
    rw [List.map_cons, List.cons_append, parseParts, step_stepText]
    dsimp only
    rw [parseU32_writeUint hgroup, parseU32_writeUint hindex, Option.bind_some, Option.bind_some,
      ih fun x hx => h x (List.mem_cons_of_mem _ hx)]
    simp

/-- **A path is read back from its text.** -/
theorem fromStr_text {p} (h : p.Narrow) : fromStr p.text = .ok p := by
  have hregion : parseRegion p.region.text = some p.region := by
    cases p.region <;> decide +kernel
  have hslash : ∀ part ∈ p.region.text :: p.parts, (47 : UInt8) ∉ part := by
    intro part hpart
    rcases List.mem_cons.mp hpart with rfl | hpart
    · cases p.region <;> decide +kernel
    · have h47 (n : Nat) : (47 : UInt8) ∉ writeUint n := notMem_writeUint (by decide) n
      rcases List.mem_append.mp hpart with hpart | hpart
      · obtain ⟨step, -, rfl⟩ := List.mem_map.mp hpart
        simp [stepText, h47]
      · obtain ⟨tag, -, rfl⟩ := Option.map_eq_some_iff.mp (Option.mem_toList.mp hpart)
        exact h47 tag
  have hsplit : p.text.splitOn 47 = p.region.text :: p.parts := by
    rw [text_eq_intercalate]
    exact List.splitOn_intercalate 47 hslash (by simp)
  have hparts : (regionRoot p.region).parseParts p.parts = some p := by
    rw [parts, parseParts_steps h.steps]
    cases htag : p.tag with
    | none =>
      rw [Option.map_none, Option.toList_none, parseParts, regionRoot, List.nil_append, ← htag]
    | some tag =>
      rw [Option.map_some, Option.toList_some, parseParts, step_writeUint]
      dsimp only
      rw [if_pos rfl, parseU32_writeUint (h.tag tag htag), Option.map_some, regionRoot, List.nil_append,
        ← htag]
  rw [fromStr, hsplit]
  dsimp only
  rw [hregion, Option.bind_some, hparts]

end FieldPath

/-! ## Following a path -/

/-- The tags of each region and of each instance are unique. -/
structure Message.Unique (m : Message) : Prop where
  region : ∀ r, m.UniqueIn (m.regionBlock r)
  inst : ∀ i, (entryAt m.tape i).kind = .inst → m.UniqueIn (m.instanceBlock i)

/-- Tags and places are kept in 32 bits. -/
structure Message.Narrow (m : Message) : Prop where
  tags : ∀ e ∈ m.tape, e.tag < 2 ^ 32
  places : m.tape.length ≤ 2 ^ 32

theorem Message.Narrow.tag_lt {m : Message} (h : m.Narrow) (i : Nat) : (entryAt m.tape i).tag < 2 ^ 32 := by
  rw [entryAt]
  cases hget : m.tape[i]? with
  | none => simp
  | some e => exact h.tags e (List.mem_of_getElem? hget)

variable {fuel : Nat}

theorem iterUpTo_eq {m : Message} {pre post f} (hfits : f.Fits Entry.span)
    (hkind : ∀ e ∈ f.roots, e.kind ≠ .gap) (hfuel : f.size ≤ fuel)
    (htape : m.tape = pre ++ (f.preorder ++ post)) :
    m.iterUpTo fuel pre.length (pre.length + f.size) = childrenAt pre.length f := by
  induction fuel generalizing f pre with
  | zero =>
    cases f with
    | nil => rfl
    | node e c r => simp at hfuel
  | succ fuel ih =>
    cases f with
    | nil =>
      rw [Message.iterUpTo, if_neg (by simp)]
      rfl
    | node e c r =>
      have hs := stands htape hfits
      simp only [Forest.size_node] at hfuel
      have hrest := ih hfits.2.2 (fun x hx => hkind x (by simp [hx])) (by omega) hs.after
      rw [Message.iterUpTo, if_pos (by simp), hs.next, hs.stop, hrest, ← (length_below pre e c).2,
        childrenAt, if_neg (hkind e (by simp))]

theorem length_childrenAt {f} (hkind : ∀ e ∈ f.roots, e.kind ≠ .gap) (i : Nat) :
    (childrenAt i f).length = f.roots.length := by
  induction f generalizing i with
  | nil => rfl
  | node e c r _ ih =>
    rw [childrenAt, if_neg (hkind e (by simp)), List.length_cons, ih fun x hx => hkind x (by simp [hx])]
    rfl

theorem siblingsBefore_eq {tape pre post} {a g : Forest Entry} (hfits : (a ++ g).Fits Entry.span)
    (hfuel : a.size ≤ fuel) (htape : tape = pre ++ ((a ++ g).preorder ++ post)) :
    Message.siblingsBefore tape (pre.length + a.size) fuel pre.length = a.roots.length := by
  induction fuel generalizing a pre with
  | zero =>
    cases a with
    | nil => rfl
    | node e c r => simp at hfuel
  | succ fuel ih =>
    cases a with
    | nil => rw [Message.siblingsBefore, if_neg (by simp)]; rfl
    | node e c r =>
      have hs := stands (r := r ++ g) htape hfits
      simp only [Forest.size_node] at hfuel
      have hrest := ih hfits.2.2 (by omega) hs.after
      have hstop : pre.length + (Forest.node e c r).size = (pre ++ e :: c.preorder).length + r.size := by
        simp
        omega
      rw [Message.siblingsBefore, if_pos (by simp), hs.next, hstop, hrest]
      rfl

namespace Siblings

variable {m : Message} {P : Entry → Prop} {s : Region → Forest Entry} {gap : Nat} {r : Region}
variable {found : Option Nat} {pre post : List Entry} {insts : Bool} {depth : Nat}
variable {f a b c : Forest Entry} {e : Entry}

section
variable (hm : m.Sections P s gap)
include hm

theorem unique_inside (hunique : m.Unique) (h : Siblings s gap r found pre false depth f post) :
    m.UniqueIn (m.inside r found) := by
  cases h with
  | top => exact hunique.region r
  | inst h =>
    refine hunique.inst _ ?_
    rw [h.entry_eq hm]
    exact (h.insts_eq hm).mp rfl

theorem find_eq (hunique : m.Unique)
    (h : Siblings s gap r found pre false depth (a ++ .node e c b) post) :
    m.findBlock (m.inside r found) e.tag none = some (pre.length + a.size) := by
  obtain ⟨k, tail, hc⟩ := h.covers hm
  have htagged : e.isTagged := by
    cases (shaped_append.mp (h.shaped hm)).2 with
    | field hfield => exact Entry.isTagged_of_isField hfield
    | group hkind => simp [Entry.isTagged, hkind]
  have hsplit : (a ++ Forest.node e c b) ++ (gapOf k ++ .nil) = a ++ .node e c (b ++ (gapOf k ++ .nil)) :=
    Forest.append_assoc ..
  have hbefore : findRoot e.tag pre.length a = none := by
    rw [findRoot_eq_none]
    intro x hx hfound
    exact hc.tags_ne (h.unique_inside hm hunique) hsplit x hx e (by simp) hfound.2 htagged hfound.1
  rw [hc.find_none, hsplit, findRoot_append _ _ hbefore, findRoot, if_pos ⟨rfl, htagged⟩]

theorem groupIter_eq (hunique : m.Unique) (hkind : e.kind = .group)
    (h : Siblings s gap r found pre false depth (a ++ .node e c b) post) :
    m.groupIter (m.inside r found) e.tag = childrenAt (pre ++ (a.preorder ++ [e])).length c := by
  have hinner := Siblings.group h hkind
  have hshaped := hinner.shaped hm
  have hiter := iterUpTo_eq hshaped.fits hshaped.kind_ne_gap (Nat.le_refl _) (hinner.tape_eq hm)
  obtain ⟨hstart, hstop⟩ := h.inside_root hm
  simp only [Message.instanceBlock] at hstart hstop
  have hfound : (some (pre.length + a.size)).filter (fun g => (entryAt m.tape g).kind = .group) =
      some (pre.length + a.size) := by
    rw [Option.filter_some, h.entry_eq hm, if_pos (by simpa using hkind)]
  rw [Message.groupIter, h.find_eq hm hunique, hfound]
  dsimp only
  rw [hstart, hstop, Nat.add_sub_cancel_left, hiter]

/-- Which instance of its group an entry of a level of instances is. -/
theorem instanceIndex_eq (h : Siblings s gap r found pre true depth (a ++ .node e c b) post) :
    m.instanceIndex (pre.length + a.size) = a.roots.length := by
  have hup : m.enclosing (pre.length + a.size) = found := h.up_eq hm
  have hfits := (h.shaped hm).fits
  have htape := h.tape_eq hm
  cases found with
  | none => cases h
  | some g =>
    have hg := (h.found_eq hm).1
    have hfuel : a.size ≤ pre.length + a.size - g := by omega
    rw [Message.instanceIndex, hup]
    dsimp only
    rw [← hg, siblingsBefore_eq hfits hfuel htape]

theorem length_lt (h : Siblings s gap r found pre insts depth (a ++ .node e c b) post) :
    pre.length + a.size < m.tape.length := by
  rw [h.tape_eq hm]
  simp

theorem index_lt (hnarrow : m.Narrow)
    (h : Siblings s gap r found pre insts depth (a ++ .node e c b) post) :
    a.roots.length < 2 ^ 32 := by
  have := roots_length_le a
  have := h.length_lt hm
  have := hnarrow.places
  omega

end

variable {g : Nat}

theorem stepAt_eq (hm : m.Sections P s gap) (hnarrow : m.Narrow)
    (h : Siblings s gap r (some g) pre true depth (a ++ .node e c b) post) :
    m.stepAt (pre.length + a.size) = [((entryAt m.tape g).tag, a.roots.length)] := by
  have hkind : e.kind = .inst := (h.insts_eq hm).mp rfl
  have hup : m.enclosing (pre.length + a.size) = some g := h.up_eq hm
  have htag : m.tagAt (pre.length + a.size) = (entryAt m.tape g).tag := by
    rw [Message.tagAt, h.entry_eq hm, hkind]
    dsimp only
    rw [hup, Option.map_some, Option.getD_some]
  rw [Message.stepAt, h.entry_eq hm, if_pos hkind, htag, h.instanceIndex_eq hm,
    asU32_of_lt (h.index_lt hm hnarrow)]

theorem getElem_fields (hm : m.Sections P s gap)
    (h : Siblings s gap r found pre insts depth (a ++ .node e c b) post) :
    (m.fields (m.inside r found))[a.roots.length]? = some (pre.length + a.size) := by
  have hroots : ∀ x ∈ a.roots, x.kind ≠ .gap := fun x hx => (h.shaped hm).kind_ne_gap x (by simp [hx])
  have hlen := length_childrenAt hroots pre.length
  rw [h.fields_eq hm, childrenAt_append, List.getElem?_append_right (by omega), hlen, Nat.sub_self,
    childrenAt, if_neg (h.kind_ne_gap hm), List.getElem?_cons_zero]

/-- The steps to a level lead from the section to what the level is inside of: to the
instance, or for a level of instances to a block where its group is found. -/
def LeadsTo (m : Message) (r : Region) (found : Option Nat) (steps : List (Nat × Nat)) : Bool → Prop
  | false => m.follow (m.regionBlock r) none steps = some (m.inside r found, found)
  | true => ∃ b last g, m.follow (m.regionBlock r) none steps = some (b, last) ∧ found = some g ∧
      m.groupIter b (entryAt m.tape g).tag = m.fields (m.instanceBlock g)

theorem follow_append (m : Message) (b : BlockView) (last : Option Nat) (xs ys : List (Nat × Nat)) :
    m.follow b last (xs ++ ys) = (m.follow b last xs).bind fun x => m.follow x.1 x.2 ys := by
  induction xs generalizing b last with
  | nil => rfl
  | cons x xs ih =>
    obtain ⟨group, n⟩ := x
    rw [List.cons_append, Message.follow, Message.follow, Option.bind_assoc]
    congr 1
    funext q
    exact ih _ _

section
variable (hm : m.Sections P s gap)
include hm

theorem leadsTo_inst {steps} (h : Siblings s gap r (some g) pre true depth (a ++ .node e c b) post)
    (hleads : LeadsTo m r (some g) steps true) :
    LeadsTo m r (some (pre.length + a.size)) (steps ++ [((entryAt m.tape g).tag, a.roots.length)])
      false := by
  obtain ⟨block, last, g', hfollow, hg, hiter⟩ := hleads
  obtain rfl := Option.some.inj hg
  have hnth : (m.fields (m.instanceBlock g))[a.roots.length]? = some (pre.length + a.size) :=
    h.getElem_fields hm
  rw [LeadsTo, follow_append, hfollow, Option.bind_some, Message.follow, hiter, hnth]
  rfl

/-- On the way out of a level one comes to what it is inside of first. -/
theorem chainUpTo_eq (h : Siblings s gap r (some g) pre insts depth (a ++ .node e c b) post)
    (hfuel : pre.length + a.size ≤ fuel) : ∃ fuel', g ≤ fuel' ∧
      m.chainUpTo fuel (pre.length + a.size) = m.stepAt g ++ m.chainUpTo fuel' g := by
  have hg := (h.found_eq hm).1
  cases fuel with
  | zero => omega
  | succ fuel =>
    refine ⟨fuel, by omega, ?_⟩
    rw [Message.chainUpTo, h.up_eq hm]

/-- Each level has its steps: they are what is met on the way out of it, and they lead to
it. By induction on the way to the level; only the instances on it make steps. -/
theorem steps (hunique : m.Unique) (hnarrow : m.Narrow)
    (h : Siblings s gap r found pre insts depth f post) :
    ∃ steps, (∀ step ∈ steps, step.1 < 2 ^ 32 ∧ step.2 < 2 ^ 32) ∧ LeadsTo m r found steps insts ∧
      ∀ a e c b, f = a ++ .node e c b → ∀ fuel, pre.length + a.size ≤ fuel →
        m.chainUpTo fuel (pre.length + a.size) = steps.reverse := by
  induction h with
  | top =>
    refine ⟨[], by simp, rfl, ?_⟩
    intro a e c b hf fuel _
    have hlevel : Siblings s gap r none (before s gap r).preorder false 0 (s r)
        (after s gap r).preorder := .top
    rw [hf] at hlevel
    cases fuel with
    | zero => rfl
    | succ fuel =>
      rw [Message.chainUpTo, hlevel.up_eq hm]
      rfl
  | @group found pre post depth a c b e h hkind ih =>
    obtain ⟨steps, hsteps, hleads, hchain⟩ := ih
    have hinner := Siblings.group h hkind
    refine ⟨steps, hsteps, ⟨_, _, _, hleads, rfl, ?_⟩, ?_⟩
    · rw [h.entry_eq hm, h.groupIter_eq hm hunique hkind]
      exact (hinner.fields_eq hm).symm
    · intro a' e' c' b' hc fuel hfuel
      subst hc
      have hstep : m.stepAt (pre.length + a.size) = [] := by
        rw [Message.stepAt, h.entry_eq hm, if_neg (by simp [hkind])]
      obtain ⟨fuel', hfuel', hup⟩ := hinner.chainUpTo_eq hm hfuel
      rw [hup, hstep, List.nil_append, hchain a e _ b rfl fuel' hfuel']
  | @inst found pre post depth a c b e h ih =>
    obtain ⟨steps, hsteps, hleads, hchain⟩ := ih
    obtain ⟨_, _, g, _, rfl, _⟩ := id hleads
    have hinner := Siblings.inst h
    refine ⟨steps ++ [((entryAt m.tape g).tag, a.roots.length)], ?_, h.leadsTo_inst hm hleads, ?_⟩
    · intro step hstep
      rcases List.mem_append.mp hstep with hstep | hstep
      · exact hsteps step hstep
      · obtain rfl := List.mem_singleton.mp hstep
        exact ⟨hnarrow.tag_lt g, h.index_lt hm hnarrow⟩
    · intro a' e' c' b' hc fuel hfuel
      subst hc
      obtain ⟨fuel', hfuel', hup⟩ := hinner.chainUpTo_eq hm hfuel
      rw [hup, h.stepAt_eq hm hnarrow, hchain a e _ b rfl fuel' hfuel', List.reverse_append]
      rfl

/-- The path of a root of a level is kept in 32 bits and leads to it. -/
theorem path_resolve (hunique : m.Unique) (hnarrow : m.Narrow)
    (h : Siblings s gap r found pre insts depth (a ++ .node e c b) post) :
    (m.path (pre.length + a.size)).Narrow ∧
      m.resolve (m.path (pre.length + a.size)) = some (pre.length + a.size) := by
  obtain ⟨steps, hsteps, hleads, hchain⟩ := h.steps hm hunique hnarrow
  have hchain := hchain a e c b rfl _ (Nat.le_of_lt (h.length_lt hm))
  have hregion : m.regionOf (pre.length + a.size) = r :=
    h.regionOf_eq hm (Nat.le_add_right _ _) (by simp)
  cases insts with
  | false =>
    have hkind : e.kind ≠ .inst := fun hkind => by simpa using (h.insts_eq hm).mpr hkind
    have hstep : m.stepAt (pre.length + a.size) = [] := by
      rw [Message.stepAt, h.entry_eq hm, if_neg hkind]
    have hpath : m.path (pre.length + a.size) = ⟨r, steps, some e.tag⟩ := by
      rw [Message.path, hregion, hstep, hchain, h.entry_eq hm, if_neg hkind]
      simp
    rw [hpath]
    refine ⟨⟨hsteps, ?_⟩, ?_⟩
    · intro tag htag
      obtain rfl := Option.some.inj htag
      rw [← h.entry_eq hm]
      exact hnarrow.tag_lt _
    · rw [Message.resolve, hleads, Option.bind_some]
      exact h.find_eq hm hunique
  | true =>
    have hkind : e.kind = .inst := (h.insts_eq hm).mp rfl
    obtain ⟨_, _, g, _, rfl, _⟩ := id hleads
    have hpath : m.path (pre.length + a.size) =
        ⟨r, steps ++ [((entryAt m.tape g).tag, a.roots.length)], none⟩ := by
      rw [Message.path, hregion, h.stepAt_eq hm hnarrow, hchain, h.entry_eq hm, if_pos hkind]
      simp
    have hlead := h.leadsTo_inst hm hleads
    rw [LeadsTo] at hlead
    rw [hpath]
    refine ⟨⟨?_, by simp⟩, ?_⟩
    · intro step hstep
      rcases List.mem_append.mp hstep with hstep | hstep
      · exact hsteps step hstep
      · obtain rfl := List.mem_singleton.mp hstep
        exact ⟨hnarrow.tag_lt g, h.index_lt hm hnarrow⟩
    · rw [Message.resolve, hlead, Option.bind_some]

end

end Siblings

/-- **Paths address positions**: the text of an entry's path, read back and followed,
leads to that entry, so that different entries have different texts. -/
theorem resolve_path {m : Message} (h : m.WellFormed) (hunique : m.Unique) (hnarrow : m.Narrow) :
    (∀ i ∈ m.walk, ∃ p, FieldPath.fromStr (m.path i).text = .ok p ∧ m.resolve p = some i) ∧
      ∀ i ∈ m.walk, ∀ j ∈ m.walk, (m.path i).text = (m.path j).text → i = j := by
  obtain ⟨s, gap, hm⟩ := h.sections
  have hread : ∀ i ∈ m.walk, FieldPath.fromStr (m.path i).text = .ok (m.path i) ∧
      m.resolve (m.path i) = some i := by
    intro i hi
    obtain ⟨r, hle, hlt⟩ := hm.mem_walk.mp hi
    obtain ⟨found, pre, insts, depth, a, e, c, b, post, h, rfl⟩ := hm.locate hle hlt
    obtain ⟨hpath, hresolve⟩ := h.path_resolve hm hunique hnarrow
    exact ⟨FieldPath.fromStr_text hpath, hresolve⟩
  refine ⟨fun i hi => ⟨_, hread i hi⟩, fun i hi j hj htext => ?_⟩
  obtain ⟨hi, hi'⟩ := hread i hi
  obtain ⟨hj, hj'⟩ := hread j hj
  rw [htext, hj] at hi
  have hpath : m.path j = m.path i := Except.ok.inj hi
  rw [hpath, hi'] at hj'
  exact Option.some.inj hj'

/-- The second party's identifier by its address. -/
theorem resolve_twoParties : (twoParties.path 7).text = ascii "body/453[1]/448" ∧
    ∃ p, FieldPath.fromStr (ascii "body/453[1]/448") = .ok p ∧ twoParties.resolve p = some 7 := by
  have htext : (twoParties.path 7).text = ascii "body/453[1]/448" := by decide +kernel
  have hinst : ∀ i, (entryAt twoParties.tape i).kind = .inst →
      twoParties.UniqueIn (twoParties.instanceBlock i) := by
    intro i hkind
    have hlt : i < 8 := by
      by_contra hge
      rw [entryAt, List.getElem?_eq_none (by simpa [twoParties] using hge)] at hkind
      cases hkind
    have hparty : i = 4 ∨ i = 6 := by
      revert hkind
      interval_cases i <;> simp [twoParties, entryAt, Entry.gap]
    rcases hparty with rfl | rfl <;> decide +kernel
  have hread := (resolve_path twoParties_wellFormed ⟨fun r => by cases r <;> decide +kernel, hinst⟩
    ⟨by decide +kernel, by decide +kernel⟩).1 7 (by decide +kernel)
  rw [htext] at hread
  exact ⟨htext, hread⟩

end Babelfix.Tape
