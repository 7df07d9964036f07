import Babelfix.Tape.Cursor

/-! # Siblings

The entries directly inside a section, a group or an instance, with what stands before
and after them on the tape. Every entry of a well-formed tape is a root of a level, and
the search for what is around it (`Cursor::enclosing`) finds what its level is inside of. -/
namespace Babelfix.Tape

open Lib

/-! ## Sections -/

/-- What stands before a section of a message on the tape. -/
def before (s : Region → Forest Entry) (gap : Nat) : Region → Forest Entry
  | .header => .nil
  | .body => s .header ++ gapOf gap
  | .trailer => s .header ++ (gapOf gap ++ s .body)

/-- What stands after a section of a message on the tape. -/
def after (s : Region → Forest Entry) (gap : Nat) : Region → Forest Entry
  | .header => gapOf gap ++ (s .body ++ s .trailer)
  | .body => s .trailer
  | .trailer => .nil

/-- The sections of a message, one after the other, with a gap after the header. -/
structure Message.Sits (m : Message) (s : Region → Forest Entry) (gap : Nat) : Prop where
  tape : m.tape = (s .header ++ (gapOf gap ++ (s .body ++ s .trailer))).preorder
  bodyStart : m.bodyStart = (s .header).size + gap
  trailerStart : m.trailerStart = (s .header).size + gap + (s .body).size

theorem before_append (s : Region → Forest Entry) (gap : Nat) (r : Region) :
    before s gap r ++ (s r ++ after s gap r) =
      s .header ++ (gapOf gap ++ (s .body ++ s .trailer)) := by
  cases r <;> simp [before, after, Forest.append_assoc]

namespace Message.Sits

variable {m : Message} {s : Region → Forest Entry} {gap : Nat}

theorem tape_eq (h : m.Sits s gap) (r : Region) :
    m.tape = (before s gap r).preorder ++ ((s r).preorder ++ (after s gap r).preorder) := by
  rw [h.tape, ← before_append s gap r]
  simp

theorem regionRange_eq (h : m.Sits s gap) (r : Region) :
    m.regionRange r = ((before s gap r).size,
      (before s gap r).size + (s r).size + if r = .header then gap else 0) := by
  cases r with
  | header => simp [regionRange, before, h.bodyStart]
  | body => simp [regionRange, before, h.bodyStart, h.trailerStart]
  | trailer =>
    have hlen : m.tape.length = (before s gap .trailer).size + (s .trailer).size := by
      rw [h.tape_eq .trailer]
      simp [after]
    simp [regionRange, hlen, h.trailerStart, before, Nat.add_assoc]

theorem length_tape (h : m.Sits s gap) (r : Region) :
    m.tape.length = (before s gap r).size + (s r).size + (after s gap r).size := by
  rw [h.tape_eq r]
  simp [Nat.add_assoc]

end Message.Sits

/-! ## Levels -/

/-- The levels of a section: what they are inside of, what stands before them, whether
they are instances, the depth of their fields, and what stands after them. -/
inductive Siblings (s : Region → Forest Entry) (gap : Nat) (r : Region) :
    Option Nat → List Entry → Bool → Nat → Forest Entry → List Entry → Prop
  | top : Siblings s gap r none (before s gap r).preorder false 0 (s r) (after s gap r).preorder
  | group {found : Option Nat} {pre post : List Entry} {depth : Nat} {a c b : Forest Entry} {e : Entry}
      (h : Siblings s gap r found pre false depth (a ++ .node e c b) post) (hkind : e.kind = .group) :
      Siblings s gap r (some (pre.length + a.size)) (pre ++ (a.preorder ++ [e])) true (depth + 1) c
        (b.preorder ++ post)
  | inst {found : Option Nat} {pre post : List Entry} {depth : Nat} {a c b : Forest Entry} {e : Entry}
      (h : Siblings s gap r found pre true depth (a ++ .node e c b) post) :
      Siblings s gap r (some (pre.length + a.size)) (pre ++ (a.preorder ++ [e])) false depth c
        (b.preorder ++ post)

/-- A message whose sections are of the right shape. -/
structure Message.Sections (m : Message) (P : Entry → Prop) (s : Region → Forest Entry) (gap : Nat) :
    Prop extends m.Sits s gap where
  shaped : ∀ r, Shaped P false 0 (s r)

theorem Message.WellFormed.sections {m : Message} (h : m.WellFormed) :
    ∃ s gap, m.Sections m.Spells s gap := by
  obtain ⟨header, gap, body, trailer, hlays, -⟩ := h
  refine ⟨fun r => match r with | .header => header | .body => body | .trailer => trailer, gap,
    ⟨⟨hlays.tape, hlays.bodyStart, hlays.trailerStart⟩, fun r => ?_⟩⟩
  cases r with
  | header => exact hlays.header
  | body => exact hlays.body
  | trailer => exact hlays.trailer

theorem Message.Sections.fits_before {m : Message} {P s gap} (h : m.Sections P s gap) (r : Region) :
    (before s gap r).Fits Entry.span := by
  have hheader := (h.shaped .header).fits
  have hbody := (h.shaped .body).fits
  cases r <;> simp [before, Forest.Fits, hheader, hbody, fits_gapOf]

variable {i : Nat}

namespace Siblings

variable {m : Message} {P : Entry → Prop} {s : Region → Forest Entry} {gap : Nat} {r : Region}
variable {found : Option Nat} {pre post : List Entry} {insts : Bool} {depth : Nat}
variable {f a b c : Forest Entry} {e : Entry}

theorem within (h : Siblings s gap r found pre insts depth f post) :
    (before s gap r).size ≤ pre.length ∧
      pre.length + f.size ≤ (before s gap r).size + (s r).size := by
  induction h with
  | top => simp
  | group _ _ ih | inst _ ih =>
    simp only [Forest.size_append, Forest.size_node] at ih
    simp only [List.length_append, Forest.length_preorder, List.length_singleton]
    omega

section
variable (hm : m.Sections P s gap)
include hm

theorem shaped (h : Siblings s gap r found pre insts depth f post) : Shaped P insts depth f := by
  induction h with
  | top => exact hm.shaped r
  | group _ hkind ih =>
    cases (shaped_append.mp ih).2 with
    | field hfield => simp [Entry.isField, hkind] at hfield
    | group _ _ _ _ hc _ => exact hc
  | inst _ ih =>
    cases (shaped_append.mp ih).2 with
    | inst _ _ _ hc _ => exact hc

theorem tape_eq (h : Siblings s gap r found pre insts depth f post) :
    m.tape = pre ++ (f.preorder ++ post) := by
  induction h with
  | top => exact hm.tape_eq r
  | group _ _ ih | inst _ ih =>
    rw [ih]
    simp

theorem tape_root (h : Siblings s gap r found pre insts depth (a ++ .node e c b) post) :
    m.tape = (pre ++ a.preorder) ++ ((Forest.node e c b).preorder ++ post) := by
  rw [h.tape_eq hm]
  simp

theorem stands (h : Siblings s gap r found pre insts depth (a ++ .node e c b) post) :
    Stands m.tape (pre ++ a.preorder) e c b post :=
  Tape.stands (h.tape_root hm) ((Forest.fits_append _ _ _).mp (h.shaped hm).fits).2

theorem entry_eq (h : Siblings s gap r found pre insts depth (a ++ .node e c b) post) :
    entryAt m.tape (pre.length + a.size) = e := by
  simpa using (h.stands hm).entry

theorem nextSibling_eq (h : Siblings s gap r found pre insts depth (a ++ .node e c b) post) :
    nextSibling m.tape (pre.length + a.size) = pre.length + a.size + c.size + 1 := by
  have hnext := (h.stands hm).next
  simp only [List.length_append, Forest.length_preorder, List.length_cons] at hnext
  omega

theorem regionOf_eq (h : Siblings s gap r found pre insts depth f post) (hle : pre.length ≤ i)
    (hlt : i < pre.length + f.size) : m.regionOf i = r := by
  obtain ⟨hlo, hhi⟩ := h.within
  have hbody := hm.bodyStart
  have htrailer := hm.trailerStart
  cases r with
  | header =>
    simp only [before, Forest.size_nil] at hlo hhi
    rw [Message.regionOf, if_pos (by omega)]
  | body =>
    simp only [before, Forest.size_append, size_gapOf] at hlo hhi
    rw [Message.regionOf, if_neg (by omega), if_pos (by omega)]
  | trailer =>
    simp only [before, Forest.size_append, size_gapOf] at hlo hhi
    rw [Message.regionOf, if_neg (by omega), if_neg (by omega)]

/-- The search for what is around an entry of a level comes to where the level starts. -/
theorem reaches (h : Siblings s gap r found pre insts depth f post) :
    Reaches m found pre.length f.size := by
  induction h with
  | top =>
    have hlen := hm.length_tape r
    rw [Forest.length_preorder]
    refine reaches_region (by omega) fun target hle hlt => ?_
    rw [(Siblings.top (r := r)).regionOf_eq hm (by simpa using hle) (by simpa using hlt),
      hm.regionRange_eq]
  | group h _ ih | inst h ih =>
    have hskip := ih.skip (h.shaped hm).fits (h.tape_eq hm)
    have hbelow := hskip.below ((Forest.fits_append _ _ _).mp (h.shaped hm).fits).2 (h.tape_root hm)
    simpa using hbelow

theorem up_eq (h : Siblings s gap r found pre insts depth (a ++ .node e c b) post) :
    m.up (pre.length + a.size) = found := by
  have hskip := (h.reaches hm).skip (h.shaped hm).fits (h.tape_eq hm)
  rw [List.length_append, Forest.length_preorder] at hskip
  exact hskip.enclosing_eq (by simp)

theorem inner (h : Siblings s gap r found pre insts depth (a ++ .node e c b) post) (hc : c ≠ .nil) :
    ∃ insts' depth', Siblings s gap r (some (pre.length + a.size)) (pre ++ (a.preorder ++ [e])) insts'
      depth' c (b.preorder ++ post) := by
  cases insts with
  | true => exact ⟨false, depth, .inst h⟩
  | false =>
    obtain ⟨hkind, -⟩ := (shaped_append.mp (h.shaped hm)).2.group_of_below hc
    exact ⟨true, depth + 1, .group h hkind⟩

/-- Every entry of a level is a root of a level. By induction on the size of the level: an
entry below a root is an entry of the level there. -/
theorem root_at {n} (h : Siblings s gap r found pre insts depth f post) (hn : f.size ≤ n)
    (hle : pre.length ≤ i) (hlt : i < pre.length + f.size) :
    ∃ found pre insts depth a e c b post, Siblings s gap r found pre insts depth (a ++ .node e c b) post ∧
      i = pre.length + a.size := by
  induction n generalizing found pre insts depth f post with
  | zero => omega
  | succ n ih =>
    obtain ⟨a, e, c, b, rfl, hlo, hhi⟩ := Tape.root_at (f := f) (k := i - pre.length) (by omega)
    by_cases hroot : i = pre.length + a.size
    · exact ⟨_, _, _, _, a, e, c, b, _, h, hroot⟩
    · have hne : c ≠ .nil := by
        intro hnil
        rw [hnil, Forest.size_nil] at hhi
        omega
      obtain ⟨insts', depth', hinner⟩ := h.inner hm hne
      simp only [Forest.size_append, Forest.size_node] at hn
      refine ih hinner (by omega) ?_ ?_
      · simp
        omega
      · simp
        omega

theorem inside_root (h : Siblings s gap r found pre insts depth (a ++ .node e c b) post) :
    (m.instanceBlock (pre.length + a.size)).start = (pre ++ (a.preorder ++ [e])).length ∧
      (m.instanceBlock (pre.length + a.size)).stop = (pre ++ (a.preorder ++ [e])).length + c.size := by
  constructor
  · simp [Message.instanceBlock, Nat.add_assoc]
  · simp only [Message.instanceBlock, h.nextSibling_eq hm]
    simp
    omega

/-- What is inside what a level is inside of: the level, with the header's gap after it if
that is the header. -/
theorem range (h : Siblings s gap r found pre insts depth f post) :
    ∃ k tail, m.tape = pre ++ ((f ++ gapOf k).preorder ++ tail) ∧
      (m.inside r found).start = pre.length ∧
      (m.inside r found).stop = pre.length + (f ++ gapOf k).size := by
  have htape := h.tape_eq hm
  cases h with
  | top =>
    have hrange := hm.regionRange_eq r
    cases r with
    | header =>
      refine ⟨gap, (s .body ++ s .trailer).preorder, ?_, ?_, ?_⟩
      · rw [htape]
        simp [after]
      · simp [Message.inside, Message.regionBlock, hrange]
      · simp [Message.inside, Message.regionBlock, hrange, Nat.add_assoc]
    | body | trailer =>
      refine ⟨0, _, by simpa [gapOf] using htape, ?_, ?_⟩
      · simp [Message.inside, Message.regionBlock, hrange]
      · simp [Message.inside, Message.regionBlock, hrange]
  | group h _ | inst h =>
    obtain ⟨hstart, hstop⟩ := h.inside_root hm
    exact ⟨0, _, by simpa [gapOf] using htape, hstart, by simpa [gapOf, Message.inside] using hstop⟩

/-- The places of a level's roots are what is met inside what it is inside of. -/
theorem fields_eq (h : Siblings s gap r found pre insts depth f post) :
    m.fields (m.inside r found) = childrenAt pre.length f := by
  obtain ⟨k, tail, htape, hstart, hstop⟩ := h.range hm
  have hfits : (f ++ gapOf k).Fits Entry.span := by
    rw [Forest.fits_append]
    exact ⟨(h.shaped hm).fits, fits_gapOf k⟩
  have hfields := fieldsUpTo_eq hfits (Nat.le_refl _) htape
  rw [childrenAt_append, childrenAt_gapOf, List.append_nil] at hfields
  rw [Message.fields, hstart, hstop, Nat.add_sub_cancel_left, hfields]

end

section
variable (hm : m.Sections P s gap)
  (h : Siblings s gap r found pre insts depth (a ++ .node e c b) post)
include hm h

theorem kind_ne_gap : e.kind ≠ .gap :=
  (h.shaped hm).kind_ne_gap e (by simp)

/-! ## Moves -/

theorem blockAt_eq : m.blockAt (pre.length + a.size) = m.inside r found := by
  rw [Message.blockAt, h.regionOf_eq hm (Nat.le_add_right _ _) (by simp)]
  exact congrArg (m.inside r) (h.up_eq hm)

theorem next_eq :
    m.next (pre.length + a.size) = (childrenAt (pre.length + a.size + c.size + 1) b).head? := by
  obtain ⟨k, tail, htape, hstart, hstop⟩ := h.range hm
  have hfits : (b ++ gapOf k).Fits Entry.span := by
    rw [Forest.fits_append]
    exact ⟨((Forest.fits_append _ _ _).mp (h.shaped hm).fits).2.2.2, fits_gapOf k⟩
  have htail : m.tape = (pre ++ a.preorder ++ e :: c.preorder) ++ ((b ++ gapOf k).preorder ++ tail) := by
    rw [htape]
    simp
  have hlen : (pre ++ a.preorder ++ e :: c.preorder).length = pre.length + a.size + c.size + 1 := by
    simp
    omega
  have hfuel : (b ++ gapOf k).size ≤ m.tape.length := by
    rw [htape]
    simp
    omega
  have hfields := fieldsUpTo_eq hfits hfuel htail
  rw [childrenAt_append, childrenAt_gapOf, List.append_nil, hlen] at hfields
  rw [Message.next, h.blockAt_eq hm, hstop, h.nextSibling_eq hm, nextUpTo_eq, ← hfields]
  congr 2
  simp
  omega

theorem prev_eq : m.prev (pre.length + a.size) = (childrenAt pre.length a).getLast? := by
  have hbefore : ∀ j ∈ childrenAt pre.length a, decide (j < pre.length + a.size) = true := by
    intro j hj
    simpa using (le_of_mem_childrenAt hj).2
  rw [Message.prev, h.blockAt_eq hm, h.fields_eq hm, childrenAt_append,
    List.takeWhile_append_of_pos hbefore, childrenAt, if_neg (h.kind_ne_gap hm)]
  simp

theorem down_eq :
    m.down (pre.length + a.size) = if c = .nil then none else some (pre.length + a.size + 1) := by
  have hsize : c = .nil ↔ ¬ 1 < c.size + 1 := by
    rw [← Forest.size_eq_zero]
    omega
  rw [Message.down, h.entry_eq hm]
  cases (shaped_append.mp (h.shaped hm)).2 with
  | field hfield =>
    unfold Entry.isField at hfield
    split at hfield <;> simp_all
  | group hkind _ _ hspan | inst hkind _ hspan =>
    simp only [hkind, Entry.span, hspan, hsize]
    split <;> simp_all

end

end Siblings

/-! ## All entries -/

section

variable {m : Message} {P : Entry → Prop} {s : Region → Forest Entry} {gap : Nat}

theorem kind_of_mem_gapOf {n e} (h : e ∈ (gapOf n).preorder) : e.kind = .gap := by
  cases n with
  | zero => simp [gapOf] at h
  | succ n =>
    simp only [gapOf, Forest.preorder_node, preorder_slots, Forest.preorder_nil, List.append_nil] at h
    rcases List.mem_cons.mp h with rfl | h
    · rfl
    · rw [List.eq_of_mem_replicate h]

section
variable (hm : m.Sections P s gap)
include hm

theorem Message.Sections.locate {r} (hle : (before s gap r).size ≤ i)
    (hlt : i < (before s gap r).size + (s r).size) : ∃ found pre insts depth a e c b post,
      Siblings s gap r found pre insts depth (a ++ .node e c b) post ∧ i = pre.length + a.size :=
  Siblings.top.root_at hm (Nat.le_refl _) (by simpa using hle) (by simpa using hlt)

theorem Message.Sections.exists_region (hkind : (entryAt m.tape i).kind ≠ .gap) :
    ∃ r, (before s gap r).size ≤ i ∧ i < (before s gap r).size + (s r).size := by
  have hlen := hm.length_tape .header
  simp only [before, after, Forest.size_append, Forest.size_nil, size_gapOf] at hlen
  have hlt : i < m.tape.length := by
    by_contra hge
    rw [entryAt, List.getElem?_eq_none (by omega)] at hkind
    exact hkind rfl
  by_cases hheader : i < (s .header).size
  · exact ⟨.header, by simp [before], by simpa [before] using hheader⟩
  by_cases hgap : i < (s .header).size + gap
  · -- the slots of the gap are all gaps
    have hentry : entryAt m.tape i = entryAt (gapOf gap).preorder (i - (s .header).size) := by
      rw [entryAt, entryAt, hm.tape, Forest.preorder_append, Forest.preorder_append,
        List.getElem?_append_right (by simpa using hheader), Forest.length_preorder,
        List.getElem?_append_left (by simp; omega)]
    have hget : entryAt (gapOf gap).preorder (i - (s .header).size) ∈ (gapOf gap).preorder := by
      rw [entryAt, List.getElem?_eq_getElem (by simp; omega), Option.getD_some]
      exact List.getElem_mem _
    exact absurd (kind_of_mem_gapOf hget) (hentry ▸ hkind)
  by_cases hbody : i < (s .header).size + gap + (s .body).size
  · exact ⟨.body, by simp [before]; omega, by simp [before]; omega⟩
  · exact ⟨.trailer, by simp [before]; omega, by simp [before]; omega⟩

theorem Siblings.insts_eq {r found pre post insts depth a b c e}
    (h : Siblings s gap r found pre insts depth (a ++ .node e c b) post) :
    insts = true ↔ e.kind = .inst := by
  cases (shaped_append.mp (h.shaped hm)).2 with
  | field hfield =>
    refine ⟨fun hinsts => by simp at hinsts, fun hkind => ?_⟩
    simp [Entry.isField, hkind] at hfield
  | group hkind | inst hkind => simp [hkind]

end

end

/-! ## A message with a group -/

/-- MsgType with two slots free after it, and two parties. -/
def twoParties : Message where
  dict := ⟨ascii "FIX.4.4", [], [], [], [], [], []⟩
  msgDef := none
  wire := ascii "35=D\x01448=A\x01448=B\x01"
  arena := []
  tape := [{ tag := 35, kind := .field, valOff := 3, off := 0, len := 1 }, .gap 2, {},
    { tag := 453, kind := .group, off := 2, len := 5 },
    { kind := .inst, depth := 1, len := 2 },
    { tag := 448, kind := .field, depth := 1, valOff := 4, off := 5, len := 1 },
    { kind := .inst, depth := 1, len := 2 },
    { tag := 448, kind := .field, depth := 1, valOff := 4, off := 11, len := 1 }]
  bodyStart := 3
  trailerStart := 8
  clean := false

theorem twoParties_wellFormed : twoParties.WellFormed := by
  have hspells {e : Entry} (hinside : e.off + e.valOff + e.len + 1 ≤ (twoParties.seg e.seg).length)
      (htext : twoParties.spanBytes e = writeUint e.tag ++ 61 :: (twoParties.value e ++ [soh])) :
      twoParties.Spells e := ⟨hinside, htext⟩
  refine ⟨.leaf (entryAt twoParties.tape 0), 2,
    .node (entryAt twoParties.tape 3)
      (.node (entryAt twoParties.tape 4) (.leaf (entryAt twoParties.tape 5))
        (.node (entryAt twoParties.tape 6) (.leaf (entryAt twoParties.tape 7)) .nil)) .nil, .nil,
    ⟨rfl, rfl, rfl, ?_, ?_, .nil⟩, ⟨⟨rfl, rfl, rfl⟩, ⟨?_, rfl, rfl⟩, rfl⟩⟩
  · exact .field rfl rfl (hspells (by decide +kernel) (by decide +kernel)) .nil
  · refine .group rfl rfl rfl rfl (.inst rfl rfl rfl ?_ (.inst rfl rfl rfl ?_ .nil)) .nil
    · exact .field rfl rfl (hspells (by decide +kernel) (by decide +kernel)) .nil
    · exact .field rfl rfl (hspells (by decide +kernel) (by decide +kernel)) .nil
  · exact ⟨⟨rfl, rfl, rfl⟩, rfl, ⟨rfl, rfl, rfl⟩, rfl, rfl⟩

end Babelfix.Tape
