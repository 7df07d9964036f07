import Babelfix.Tape.Siblings

/-! # Hints

Looking for a tag may start at a hint (`find_in` of `message/tape.rs`), which is trusted
if the entry there has the depth of the block and is no instance. On a well-formed tape
such an entry is one of the block's own, or a slot of the header's gap; so where tags are
unique, the search finds the same entry from there as it does from the start. -/
namespace Babelfix.Tape

open Lib

/-! ## Where a tag was found -/

variable {tag i : Nat} {f : Forest Entry}

/-- An entry that is found stands for the tag, and none before it does. -/
theorem findRoot_eq_some {j} (h : findRoot tag i f = some j) :
    ∃ a e c b, f = a ++ .node e c b ∧ j = i + a.size ∧ e.tag = tag ∧ e.isTagged ∧
      findRoot tag i a = none := by
  induction f generalizing i with
  | nil => cases h
  | node e c r _ ih =>
    rw [findRoot] at h
    split at h
    · rename_i hfound
      obtain rfl := Option.some.inj h
      exact ⟨.nil, e, c, r, rfl, rfl, hfound.1, hfound.2, rfl⟩
    · rename_i hother
      obtain ⟨a, e', c', b, rfl, rfl, htag, htagged, hnone⟩ := ih h
      refine ⟨.node e c a, e', c', b, rfl, ?_, htag, htagged, ?_⟩
      · simp only [Forest.size_node]
        omega
      · rw [findRoot, if_neg hother, hnone]

theorem findRoot_eq_none :
    findRoot tag i f = none ↔ ∀ e ∈ f.roots, ¬ (e.tag = tag ∧ e.isTagged) := by
  induction f generalizing i with
  | nil => simp [findRoot]
  | node e c r _ ih =>
    rw [findRoot]
    split
    · rename_i hfound
      simp only [reduceCtorEq, false_iff]
      exact fun h => h e (by simp) hfound
    · rename_i hother
      rw [ih]
      constructor
      · intro h x hx
        rcases List.mem_cons.mp hx with rfl | hx
        · exact hother
        · exact h x hx
      · exact fun h x hx => h x (List.mem_cons_of_mem _ hx)

theorem findRoot_append (f g : Forest Entry) (h : findRoot tag i f = none) :
    findRoot tag i (f ++ g) = findRoot tag (i + f.size) g := by
  induction f generalizing i with
  | nil => rfl
  | node e c r _ ih =>
    rw [findRoot] at h
    split at h
    · cases h
    · rename_i hother
      rw [Forest.node_append, findRoot, if_neg hother, ih h, Forest.size_node]
      congr 1
      omega

variable {pre post : List Entry}

theorem scan_eq {m : Message} (tag : Nat) (hfits : f.Fits Entry.span)
    (htape : m.tape = pre ++ (f.preorder ++ post)) :
    m.scan pre.length (pre.length + f.size) tag = findRoot tag pre.length f := by
  rw [Message.scan, Nat.add_sub_cancel_left, scanUpTo_eq pre hfits (Nat.le_refl _) htape]

/-! ## Blocks -/

namespace Message

/-- The blocks in which fields are looked up. -/
inductive IsBlock (m : Message) : BlockView → Prop
  | region (region : Region) : m.IsBlock (m.regionBlock region)
  | headerAndBody : m.IsBlock m.headerAndBody
  | inst (i : Nat) (hkind : (entryAt m.tape i).kind = .inst) : m.IsBlock (m.instanceBlock i)

def UniqueIn (m : Message) (b : BlockView) : Prop :=
  ((m.fields b).map fun i => (entryAt m.tape i).tag).Nodup

instance (m : Message) (b : BlockView) : Decidable (m.UniqueIn b) :=
  inferInstanceAs (Decidable (List.Nodup _))

end Message

/-! ## Boundaries -/

variable {depth : Nat}

theorem Shaped.le_depth {P insts} (h : Shaped P insts depth f) :
    ∀ e ∈ f.preorder, depth ≤ e.depth := by
  induction h with
  | nil => simp
  | field _ hdepth _ _ ih =>
    intro e he
    rcases List.mem_cons.mp he with rfl | he
    · omega
    · exact ih e (by simpa using he)
  | group _ hdepth _ _ _ _ ihc ihr =>
    intro e he
    rcases List.mem_cons.mp he with rfl | he
    · omega
    · rcases List.mem_append.mp he with he | he
      · have := ihc e he
        omega
      · exact ihr e he
  | inst _ hdepth _ _ _ ihc ihr =>
    intro e he
    rcases List.mem_cons.mp he with rfl | he
    · omega
    · rcases List.mem_append.mp he with he | he
      · exact ihc e he
      · exact ihr e he

/-- An entry that has the depth of the block is a root of it: what is below a root is
deeper. -/
theorem Shaped.boundary {P k} (h : Shaped P false depth f) (hk : k < f.size)
    (hdepth : (entryAt f.preorder k).depth = depth) : ∃ a b, f = a ++ b ∧ a.size = k := by
  obtain ⟨a, e, c, b, rfl, hle, hlt⟩ := root_at hk
  by_cases hroot : a.size = k
  · exact ⟨a, .node e c b, rfl, hroot⟩
  · have hne : c ≠ .nil := by
      intro hnil
      rw [hnil, Forest.size_nil] at hlt
      omega
    obtain ⟨-, -, -, -, hc, -⟩ := (shaped_append.mp h).2.group_of_below hne
    have hentry : entryAt (a ++ Forest.node e c b).preorder k = entryAt c.preorder (k - (a.size + 1)) := by
      rw [entryAt, entryAt, Forest.preorder_append, Forest.preorder_node,
        List.getElem?_append_right (by simp; omega), Forest.length_preorder,
        List.getElem?_cons, if_neg (by omega), List.getElem?_append_left (by simp; omega),
        Nat.sub_sub]
    have hmem : entryAt c.preorder (k - (a.size + 1)) ∈ c.preorder := by
      rw [entryAt, List.getElem?_eq_getElem (by simp; omega), Option.getD_some]
      exact List.getElem_mem _
    have := hc.le_depth _ hmem
    rw [← hentry] at this
    omega

/-! ## Searching from the middle -/

theorem findRoot_slots (tag i n : Nat) (f : Forest Entry) :
    findRoot tag i (slots n ++ f) = findRoot tag (i + n) f := by
  induction n generalizing i with
  | zero => rfl
  | succ n ih =>
    rw [slots, Forest.node_append, findRoot, if_neg (by simp [Entry.isTagged])]
    refine (ih _).trans ?_
    congr 1
    simp
    omega

theorem findRoot_gapOf (tag i n : Nat) (f : Forest Entry) :
    findRoot tag i (gapOf n ++ f) = findRoot tag (i + n) f := by
  cases n with
  | zero => rfl
  | succ n =>
    rw [gapOf, Forest.node_append, findRoot, if_neg (by simp [Entry.isTagged, Entry.gap]),
      Forest.nil_append, size_slots, Nat.add_assoc]

/-- A search that stops inside a gap has looked at what is before the gap. -/
theorem scanUpTo_gap (pre : List Entry) {tape fuel gap stop} (hfits : f.Fits Entry.span)
    (hfuel : stop ≤ pre.length + fuel) (hlo : pre.length + f.size ≤ stop)
    (hhi : stop ≤ pre.length + f.size + gap)
    (htape : tape = pre ++ ((f ++ gapOf gap).preorder ++ post)) :
    scanUpTo tape tag fuel pre.length stop = findRoot tag pre.length f := by
  rw [Forest.preorder_append, List.append_assoc] at htape
  refine scanUpTo_through pre hfits (by omega) htape hlo fun fuel => ?_
  cases fuel with
  | zero => rfl
  | succ fuel =>
    rw [scanUpTo]
    split
    · obtain ⟨gap, rfl⟩ : ∃ k, gap = k + 1 := ⟨gap - 1, by omega⟩
      have hentry : entryAt tape (pre.length + f.size) = .gap (gap + 1) := by
        rw [htape, ← List.append_assoc, ← Forest.length_preorder, ← List.length_append, gapOf,
          Forest.preorder_node, List.cons_append, entryAt_length]
      rw [hentry, if_neg (by simp [Entry.isTagged, Entry.gap])]
      cases fuel with
      | zero => rfl
      | succ fuel =>
        rw [scanUpTo, if_neg]
        simp only [Entry.span, Entry.gap]
        omega
    · rfl

variable {a : Forest Entry}

/-- Where tags are unique it does not matter in which of two parts one is looked for
first. -/
theorem findRoot_swap {b}
    (h : ∀ x ∈ a.roots, ∀ y ∈ b.roots, x.isTagged → y.isTagged → x.tag ≠ y.tag) :
    (findRoot tag (i + a.size) b).or (findRoot tag i a) = findRoot tag i (a ++ b) := by
  cases ha : findRoot tag i a with
  | none => rw [findRoot_append a b ha, Option.or_none]
  | some j =>
    obtain ⟨a₁, e, c, a₂, rfl, rfl, htag, htagged, hnone⟩ := findRoot_eq_some ha
    have hb : findRoot tag (i + (a₁ ++ Forest.node e c a₂).size) b = none := by
      rw [findRoot_eq_none]
      intro y hy hfound
      exact h e (by simp) y hy htagged hfound.2 (by rw [htag, hfound.1])
    rw [hb, Option.none_or, Forest.append_assoc, findRoot_append _ _ hnone, Forest.node_append,
      findRoot, if_pos ⟨htag, htagged⟩]

/-! ## Blocks on the tape -/

theorem map_tag_childrenAt {tape} (hfits : f.Fits Entry.span)
    (htape : tape = pre ++ (f.preorder ++ post)) :
    (childrenAt pre.length f).map (fun i => (entryAt tape i).tag) =
      (f.roots.filter fun e => e.kind ≠ .gap).map Entry.tag := by
  induction f generalizing pre with
  | nil => rfl
  | node e c r _ ih =>
    have hs := stands htape hfits
    have hrest := ih hfits.2.2 hs.after
    rw [childrenAt, (length_below pre e c).2, Forest.roots_node, List.filter_cons]
    by_cases hkind : e.kind = .gap
    · rw [if_pos hkind, hrest, if_neg (by simpa using hkind)]
    · rw [if_neg hkind, if_pos (by simpa using hkind), List.map_cons, List.map_cons, hrest, hs.entry]

/-- A block on the tape: its own entries, with a gap in between if it has the header's. -/
structure Message.Covers (m : Message) (P : Entry → Prop) (b : BlockView) (pre : List Entry)
    (x : Forest Entry) (gap : Nat) (y : Forest Entry) (post : List Entry) : Prop where
  tape : m.tape = pre ++ ((x ++ (gapOf gap ++ y)).preorder ++ post)
  start : b.start = pre.length
  stop : b.stop = pre.length + (x ++ (gapOf gap ++ y)).size
  front : Shaped P false b.depth x
  back : Shaped P false b.depth y

namespace Message.Covers

variable {m : Message} {P : Entry → Prop} {b : BlockView} {pre post : List Entry} {x y : Forest Entry}
variable {gap : Nat}

theorem fits (h : m.Covers P b pre x gap y post) : (x ++ (gapOf gap ++ y)).Fits Entry.span := by
  rw [Forest.fits_append, Forest.fits_append]
  exact ⟨h.front.fits, fits_gapOf gap, h.back.fits⟩

theorem find_none (h : m.Covers P b pre x gap y post) (tag : Nat) :
    m.findBlock b tag none = findRoot tag pre.length (x ++ (gapOf gap ++ y)) := by
  have hscan := scan_eq tag h.fits h.tape
  rw [findBlock, findIn, h.start, h.stop]
  simp only [Option.filter_none, Option.getD_none, hscan]
  cases findRoot tag pre.length (x ++ (gapOf gap ++ y)) <;> simp

variable {hint : Nat}

section
variable (h : m.Covers P b pre x gap y post)
include h

theorem find_some (hlo : pre.length < hint) (hhi : hint < b.stop)
    (hbound : m.isBoundary hint b.depth) : m.findBlock b tag (some hint) =
      (m.scan hint b.stop tag).or (m.scan pre.length hint tag) := by
  have htrusted : pre.length < hint ∧ hint < b.stop ∧ m.isBoundary hint b.depth = true :=
    ⟨hlo, hhi, hbound⟩
  rw [findBlock, findIn, h.start]
  simp only [Option.filter_some, htrusted, and_self, decide_true, if_true, Option.getD_some]
  cases m.scan hint b.stop tag <;> simp

theorem find_untrusted
    (hnot : ¬ (pre.length < hint ∧ hint < b.stop ∧ m.isBoundary hint b.depth = true)) :
    m.findBlock b tag (some hint) = m.findBlock b tag none := by
  rw [findBlock, findBlock, findIn, findIn, h.start, Option.filter_some,
    if_neg (by simpa using hnot), Option.filter_none]

/-- Different roots of a block with unique tags stand for different tags. -/
theorem tags_ne (hunique : m.UniqueIn b) {d} (hsplit : x ++ (gapOf gap ++ y) = a ++ d) :
    ∀ e ∈ a.roots, ∀ e' ∈ d.roots, e.isTagged → e'.isTagged → e.tag ≠ e'.tag := by
  have hfields := fieldsUpTo_eq h.fits (Nat.le_refl _) h.tape
  rw [UniqueIn, fields, h.start, h.stop, Nat.add_sub_cancel_left, hfields,
    map_tag_childrenAt h.fits h.tape, hsplit, Forest.roots_append, List.filter_append,
    List.map_append, List.nodup_append] at hunique
  have hkeep : ∀ e : Entry, e.isTagged → decide (e.kind ≠ .gap) = true := by
    intro e he
    rw [decide_eq_true_eq]
    intro hgap
    simp [Entry.isTagged, hgap] at he
  intro e he e' he' htagged htagged'
  exact hunique.2.2 _ (List.mem_map_of_mem (List.mem_filter.mpr ⟨he, hkeep e htagged⟩)) _
    (List.mem_map_of_mem (List.mem_filter.mpr ⟨he', hkeep e' htagged'⟩))

theorem find_root (hunique : m.UniqueIn b) {d} (hsplit : x ++ (gapOf gap ++ y) = a ++ d)
    (hhint : hint = pre.length + a.size) :
    (m.scan hint b.stop tag).or (m.scan pre.length hint tag) = m.findBlock b tag none := by
  have htape := h.tape
  have hfits := h.fits
  rw [hsplit] at htape hfits
  rw [Forest.fits_append] at hfits
  have htape₁ : m.tape = pre ++ (a.preorder ++ (d.preorder ++ post)) := by
    rw [htape]
    simp
  have htape₂ : m.tape = (pre ++ a.preorder) ++ (d.preorder ++ post) := by
    rw [htape]
    simp
  have hfront := scan_eq tag hfits.1 htape₁
  have hback := scan_eq tag hfits.2 htape₂
  rw [List.length_append, Forest.length_preorder] at hback
  have hstop : b.stop = pre.length + a.size + d.size := by
    rw [h.stop, hsplit, Forest.size_append, Nat.add_assoc]
  rw [h.find_none, hsplit, ← findRoot_swap (h.tags_ne hunique hsplit), hhint, hstop, hfront,
    hback]

theorem find_slot (hunique : m.UniqueIn b) {j} (hhint : hint = pre.length + x.size + (j + 1))
    (hgap : j + 1 < gap) :
    (m.scan hint b.stop tag).or (m.scan pre.length hint tag) = m.findBlock b tag none := by
  obtain ⟨n, rfl⟩ : ∃ n, gap = j + 1 + n := ⟨gap - (j + 1), by omega⟩
  have htape := h.tape
  have hslots : (gapOf (j + 1 + n)).preorder =
      Entry.gap (j + 1 + n) :: ((slots j).preorder ++ (slots n).preorder) := by
    rw [show j + 1 + n = j + n + 1 by omega, gapOf, Forest.preorder_node, Forest.preorder_nil,
      List.append_nil, preorder_slots, preorder_slots, preorder_slots, List.replicate_append_replicate]
  have htape₁ : m.tape = pre ++ ((x ++ gapOf (j + 1 + n)).preorder ++ (y.preorder ++ post)) := by
    rw [htape]
    simp
  have htape₂ : m.tape = (pre ++ x.preorder ++ Entry.gap (j + 1 + n) :: (slots j).preorder) ++
      ((slots n ++ y).preorder ++ post) := by
    rw [htape, Forest.preorder_append, Forest.preorder_append, hslots]
    simp
  have hfits : (slots n ++ y).Fits Entry.span := by
    rw [Forest.fits_append]
    exact ⟨fits_slots n, h.back.fits⟩
  have hfront : m.scan pre.length hint tag = findRoot tag pre.length x :=
    scanUpTo_gap pre h.front.fits (by omega) (by omega) (by omega) htape₁
  have hback := scan_eq tag hfits htape₂
  have hlen : (pre ++ x.preorder ++ Entry.gap (j + 1 + n) :: (slots j).preorder).length = hint := by
    rw [hhint]
    simp [Nat.add_assoc]
  have hstop : b.stop = hint + (slots n ++ y).size := by
    rw [h.stop, hhint]
    simp
    omega
  rw [hlen, findRoot_slots] at hback
  have hpast : pre.length + x.size + (j + 1 + n) = hint + n := by omega
  rw [h.find_none, ← findRoot_swap (h.tags_ne hunique rfl), findRoot_gapOf, hpast, hstop, hfront, hback]

/-- A trusted hint is one of the block's own entries or a slot of the gap. -/
theorem hint_cases (hlo : pre.length < hint) (hhi : hint < b.stop)
    (hbound : m.isBoundary hint b.depth) :
    (∃ a d, x ++ (gapOf gap ++ y) = a ++ d ∧ hint = pre.length + a.size) ∨
      ∃ j, hint = pre.length + x.size + (j + 1) ∧ j + 1 < gap := by
  have hdepth : (entryAt m.tape hint).depth = b.depth := by
    simp only [isBoundary, decide_eq_true_eq] at hbound
    exact hbound.1
  have hstop := h.stop
  simp only [Forest.size_append, size_gapOf] at hstop
  obtain ⟨k, rfl⟩ : ∃ k, hint = pre.length + k := ⟨hint - pre.length, by omega⟩
  by_cases hfront : k < x.size
  · have hentry : entryAt m.tape (pre.length + k) = entryAt x.preorder k := by
      rw [entryAt, entryAt, h.tape, List.getElem?_append_right (by omega), Nat.add_sub_cancel_left,
        Forest.preorder_append, List.append_assoc, List.getElem?_append_left (by simpa using hfront)]
    obtain ⟨a, d, rfl, hsize⟩ := h.front.boundary hfront (hentry ▸ hdepth)
    exact .inl ⟨a, d ++ (gapOf gap ++ y), Forest.append_assoc .., by rw [hsize]⟩
  by_cases hgap : k < x.size + gap
  · by_cases hfirst : k = x.size
    · exact .inl ⟨x, gapOf gap ++ y, rfl, by rw [hfirst]⟩
    · exact .inr ⟨k - x.size - 1, by omega, by omega⟩
  · have hentry : entryAt m.tape (pre.length + k) = entryAt y.preorder (k - (x.size + gap)) := by
      rw [entryAt, entryAt, h.tape, List.getElem?_append_right (by omega), Nat.add_sub_cancel_left,
        Forest.preorder_append, Forest.preorder_append, ← List.append_assoc, List.append_assoc,
        List.getElem?_append_right (by simp; omega), List.getElem?_append_left (by simp; omega)]
      simp
    obtain ⟨a, d, rfl, hsize⟩ := h.back.boundary (by omega) (hentry ▸ hdepth)
    refine .inl ⟨x ++ (gapOf gap ++ a), d, ?_, ?_⟩
    · simp only [Forest.append_assoc]
    · simp only [Forest.size_append, size_gapOf, hsize]
      omega

end

end Message.Covers

section

variable {m : Message} {P : Entry → Prop} {s : Region → Forest Entry} {gap : Nat}

theorem Siblings.covers {r found} (hm : m.Sections P s gap)
    (h : Siblings s gap r found pre false depth f post) :
    ∃ k tail, m.Covers P (m.inside r found) pre f k .nil tail := by
  have hdepth : (m.inside r found).depth = depth := by
    cases h with
    | top => rfl
    | @inst found pre post depth a c b e h =>
      cases (shaped_append.mp (h.shaped hm)).2 with
      | inst _ hdepth => rw [Message.inside, Message.instanceBlock, h.entry_eq hm, hdepth]
  obtain ⟨k, tail, htape, hstart, hstop⟩ := h.range hm
  exact ⟨k, tail, by simpa using htape, hstart, by simpa using hstop, hdepth ▸ h.shaped hm, .nil⟩

theorem Message.IsBlock.covers (hm : m.Sections P s gap) {b} (hb : m.IsBlock b) :
    ∃ pre x k y post, m.Covers P b pre x k y post := by
  cases hb with
  | region r =>
    obtain ⟨k, tail, hcovers⟩ := (Siblings.top (r := r)).covers hm
    exact ⟨_, _, k, .nil, tail, hcovers⟩
  | headerAndBody =>
    refine ⟨[], s .header, gap, s .body, (s .trailer).preorder, ?_, rfl, ?_, hm.shaped .header,
      hm.shaped .body⟩
    · rw [hm.tape]
      simp
    · simp [Message.headerAndBody, hm.trailerStart, Nat.add_assoc]
  | inst i hkind =>
    obtain ⟨r, hle, hlt⟩ := hm.exists_region (i := i) (by simp [hkind])
    obtain ⟨found, pre, insts, depth, a, e, c, d, post, h, rfl⟩ := hm.locate hle hlt
    rw [h.entry_eq hm] at hkind
    obtain rfl := (h.insts_eq hm).mpr hkind
    obtain ⟨k, tail, hcovers⟩ := (Siblings.inst h).covers hm
    exact ⟨_, _, k, .nil, tail, hcovers⟩

end

/-- **Hints cost time, never correctness**: on a well-formed tape, looking for a tag in a
block with unique tags gives the same with any hint as without. -/
theorem findBlock_hint {m : Message} (h : m.WellFormed) {b : BlockView} (hb : m.IsBlock b)
    (hunique : m.UniqueIn b) (tag hint : Nat) :
    m.findBlock b tag (some hint) = m.findBlock b tag none := by
  obtain ⟨s, gap, hm⟩ := h.sections
  obtain ⟨pre, x, k, y, post, hc⟩ := hb.covers hm
  by_cases htrusted : pre.length < hint ∧ hint < b.stop ∧ m.isBoundary hint b.depth = true
  · obtain ⟨hlo, hhi, hbound⟩ := htrusted
    rw [hc.find_some hlo hhi hbound]
    rcases hc.hint_cases hlo hhi hbound with ⟨a, d, hsplit, hhint⟩ | ⟨j, hhint, hgap⟩
    · exact hc.find_root hunique hsplit hhint
    · exact hc.find_slot hunique hhint hgap
  · exact hc.find_untrusted htrusted

/-- A slot of the gap as a hint, and a field of another block. -/
theorem findBlock_twoParties :
    twoParties.findBlock twoParties.headerAndBody 453 (some 2) = some 3 ∧
      twoParties.findBlock (twoParties.instanceBlock 6) 448 (some 5) = some 7 := by
  have hslot := findBlock_hint twoParties_wellFormed .headerAndBody (by decide +kernel) 453 2
  have hother := findBlock_hint twoParties_wellFormed (.inst 6 rfl) (by decide +kernel) 448 5
  exact ⟨hslot.trans (by decide +kernel), hother.trans (by decide +kernel)⟩

end Babelfix.Tape
