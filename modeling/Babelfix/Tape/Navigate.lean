import Babelfix.Tape.Siblings

/-! # Moving about a message

The moves of a cursor agree with the tree the tape lays out. -/
namespace Babelfix.Tape

open Lib

/-- The entry at `k` covers the one at `i`, which is not itself. -/
def Message.Contains (m : Message) (k i : Nat) : Prop := k < i ∧ i < nextSibling m.tape k

theorem exists_last {α : Type} {f : Forest α} (h : f ≠ .nil) : ∃ a e c, f = a ++ .node e c .nil := by
  induction f with
  | nil => exact absurd rfl h
  | node e c r _ ih =>
    by_cases hr : r = .nil
    · exact ⟨.nil, e, c, by rw [hr]; rfl⟩
    · obtain ⟨a, e', c', rfl⟩ := ih hr
      exact ⟨.node e c a, e', c', rfl⟩

/-! ## Out -/

variable {j : Nat}

namespace Siblings

variable {m : Message} {P : Entry → Prop} {s : Region → Forest Entry} {gap : Nat} {r : Region}
variable {found : Option Nat} {pre post : List Entry} {insts : Bool} {depth : Nat}
variable {f a b c : Forest Entry} {e : Entry}

theorem before_le (hm : m.Sections P s gap)
    (h : Siblings s gap r found pre insts depth (a ++ .node e c b) post) {k} (hle : pre.length ≤ k)
    (hlt : k < pre.length + a.size) : nextSibling m.tape k ≤ pre.length + a.size := by
  have htape := h.tape_eq hm
  rw [Forest.preorder_append, List.append_assoc] at htape
  exact nextSibling_le ((Forest.fits_append _ _ _).mp (h.shaped hm).fits).1 htape hle hlt

theorem found_eq (hm : m.Sections P s gap) {q}
    (h : Siblings s gap r (some q) pre insts depth f post) :
    pre.length = q + 1 ∧ nextSibling m.tape q = q + 1 + f.size := by
  cases h with
  | group h _ | inst h =>
    have hnext := h.nextSibling_eq hm
    refine ⟨?_, ?_⟩
    · simp
      omega
    · omega

/-- An entry before a level ends before it, or is what the level is inside of, or covers
more than that does. -/
theorem outside (hm : m.Sections P s gap) (h : Siblings s gap r found pre insts depth f post) :
    ∀ k < pre.length, nextSibling m.tape k ≤ pre.length ∨
      ∃ q, found = some q ∧ (k = q ∨ (k < q ∧ (entryAt m.tape q).span < (entryAt m.tape k).span)) := by
  induction h with
  | top =>
    intro k hk
    have htape : m.tape = [] ++ ((before s gap r).preorder ++ (s r ++ after s gap r).preorder) := by
      simpa using hm.tape_eq r
    have hbefore := nextSibling_le (hm.fits_before r) htape (Nat.zero_le k) (by simpa using hk)
    exact .inl (by simpa using hbefore)
  | @group found pre post depth a c b e h _ ih | @inst found pre post depth a c b e h ih =>
    intro k hk
    have hlen : (pre ++ (a.preorder ++ [e])).length = pre.length + a.size + 1 := by
      simp
      omega
    have hroot := h.nextSibling_eq hm
    rcases Nat.lt_or_ge k pre.length with hpre | hpre
    · rcases ih k hpre with hends | ⟨q, rfl, hq⟩
      · exact .inl (by omega)
      · -- what the level is inside of covers this root and more
        obtain ⟨hlen', hcover⟩ := h.found_eq hm
        simp only [nextSibling, Forest.size_append, Forest.size_node] at hcover hroot
        refine .inr ⟨_, rfl, .inr ⟨?_, ?_⟩⟩
        · rcases hq with rfl | hq <;> omega
        · rcases hq with rfl | hq <;> omega
    · by_cases hself : k = pre.length + a.size
      · exact .inr ⟨_, rfl, .inl hself⟩
      · have := h.before_le hm hpre (by omega)
        exact .inl (by omega)

/-- What covers a root of a level is what the level is inside of, or covers more. -/
theorem contains_cases (hm : m.Sections P s gap)
    (h : Siblings s gap r found pre insts depth (a ++ .node e c b) post) {k}
    (hk : m.Contains k (pre.length + a.size)) :
    ∃ q, found = some q ∧ (k = q ∨ (entryAt m.tape q).span < (entryAt m.tape k).span) := by
  obtain ⟨hlt, hcovers⟩ := hk
  rcases Nat.lt_or_ge k pre.length with hpre | hpre
  · rcases h.outside hm k hpre with hends | ⟨q, hq, hcase⟩
    · omega
    · exact ⟨q, hq, hcase.imp_right And.right⟩
  · have := h.before_le hm hpre hlt
    omega

theorem contains_found (hm : m.Sections P s gap) {q}
    (h : Siblings s gap r (some q) pre insts depth (a ++ .node e c b) post) :
    m.Contains q (pre.length + a.size) := by
  obtain ⟨hlen, hcover⟩ := h.found_eq hm
  simp only [Forest.size_append, Forest.size_node] at hcover
  exact ⟨by omega, by omega⟩

theorem depth_eq_zero_iff (h : Siblings s gap r found pre insts depth f post) :
    depth = 0 ↔ found = none := by
  induction h with
  | top => simp
  | group _ _ _ => simp
  | inst h ih =>
    cases h with
    | group _ _ => simp

section
variable (hm : m.Sections P s gap)
  (h : Siblings s gap r found pre insts depth (a ++ .node e c b) post)
include hm h

theorem up_iff (q : Nat) :
    m.up (pre.length + a.size) = some q ↔ m.Contains q (pre.length + a.size) ∧
      ∀ k, m.Contains k (pre.length + a.size) → k ≠ q →
        (entryAt m.tape q).span < (entryAt m.tape k).span := by
  rw [h.up_eq hm]
  constructor
  · rintro rfl
    refine ⟨h.contains_found hm, fun k hk hne => ?_⟩
    obtain ⟨q', hq', hcase⟩ := h.contains_cases hm hk
    obtain rfl := Option.some.inj hq'
    exact hcase.resolve_left hne
  · rintro ⟨hq, hleast⟩
    obtain ⟨q', rfl, hcase⟩ := h.contains_cases hm hq
    rcases hcase with rfl | hlt
    · rfl
    · by_cases hsame : q' = q
      · rw [hsame]
      · have := hleast q' (h.contains_found hm) hsame
        omega

theorem up_none_iff :
    m.up (pre.length + a.size) = none ↔ ∀ k, ¬ m.Contains k (pre.length + a.size) := by
  rw [h.up_eq hm]
  constructor
  · rintro rfl k hk
    obtain ⟨q, hq, -⟩ := h.contains_cases hm hk
    cases hq
  · intro hnone
    cases found with
    | none => rfl
    | some q => exact absurd (h.contains_found hm) (hnone q)

theorem inside (hkind : e.kind = .inst ∨ e.kind = .group) :
    ∃ insts' depth', Siblings s gap r (some (pre.length + a.size)) (pre ++ (a.preorder ++ [e])) insts'
      depth' c (b.preorder ++ post) := by
  rcases hkind with hkind | hkind
  · obtain rfl := (h.insts_eq hm).mpr hkind
    exact ⟨false, depth, .inst h⟩
  · cases insts with
    | true => exact absurd ((h.insts_eq hm).mp rfl) (by simp [hkind])
    | false => exact ⟨true, depth + 1, .group h hkind⟩

/-- Only the entries of a section itself are at depth zero. -/
theorem up_eq_none_iff : found = none ↔ e.depth = 0 := by
  have hdepth : e.depth = depth := by
    cases (shaped_append.mp (h.shaped hm)).2 with
    | field _ hdepth | group _ hdepth | inst _ hdepth => exact hdepth
  rw [hdepth, h.depth_eq_zero_iff]

/-! ## In and along -/

theorem up_down (hj : m.down (pre.length + a.size) = some j) :
    m.up j = some (pre.length + a.size) := by
  rw [h.down_eq hm] at hj
  split at hj
  · cases hj
  · rename_i hne
    obtain rfl := Option.some.inj hj
    obtain ⟨insts', depth', hinner⟩ := h.inner hm hne
    cases c with
    | nil => exact absurd rfl hne
    | node e' c' r' =>
      have hup := Siblings.up_eq (a := .nil) hm hinner
      simpa [Nat.add_assoc] using hup

theorem next_eq_some (hj : m.next (pre.length + a.size) = some j) :
    ∃ e' c' b', b = .node e' c' b' ∧ j = pre.length + (a ++ .node e c .nil).size ∧
      Siblings s gap r found pre insts depth ((a ++ .node e c .nil) ++ .node e' c' b') post := by
  rw [h.next_eq hm] at hj
  cases b with
  | nil => cases hj
  | node e' c' b' =>
    have hwhole : a ++ Forest.node e c (.node e' c' b') = (a ++ .node e c .nil) ++ .node e' c' b' := by
      rw [Forest.append_assoc]
      rfl
    rw [hwhole] at h
    rw [childrenAt, if_neg (h.kind_ne_gap hm), List.head?_cons] at hj
    obtain rfl := Option.some.inj hj
    refine ⟨e', c', b', rfl, ?_, h⟩
    simp
    omega

theorem prev_eq_some (hj : m.prev (pre.length + a.size) = some j) :
    ∃ a' e' c', a = a' ++ .node e' c' .nil ∧ j = pre.length + a'.size := by
  rw [h.prev_eq hm] at hj
  by_cases hnil : a = .nil
  · rw [hnil] at hj
    cases hj
  · obtain ⟨a', e', c', rfl⟩ := exists_last hnil
    have hkind : e'.kind ≠ .gap := (h.shaped hm).kind_ne_gap e' (by simp)
    rw [childrenAt_append, childrenAt, if_neg hkind] at hj
    refine ⟨a', e', c', rfl, ?_⟩
    simpa [childrenAt, eq_comm] using hj

theorem prev_next (hj : m.next (pre.length + a.size) = some j) :
    m.prev j = some (pre.length + a.size) ∧ m.up j = found := by
  obtain ⟨e', c', b', rfl, rfl, hnext⟩ := h.next_eq_some hm hj
  refine ⟨?_, hnext.up_eq hm⟩
  rw [hnext.prev_eq hm, childrenAt_append, childrenAt, if_neg (h.kind_ne_gap hm)]
  simp [childrenAt]

theorem next_prev (hj : m.prev (pre.length + a.size) = some j) :
    m.next j = some (pre.length + a.size) ∧ m.up j = found := by
  obtain ⟨a', e', c', rfl, rfl⟩ := h.prev_eq_some hm hj
  have hkind := h.kind_ne_gap hm
  rw [Forest.append_assoc, Forest.node_append, Forest.nil_append] at h
  refine ⟨?_, h.up_eq hm⟩
  rw [h.next_eq hm, childrenAt, if_neg hkind, List.head?_cons]
  simp
  omega

theorem iterate_next (n : Nat) :
    (fun i : Option Nat => i.bind m.next)^[n] (some (pre.length + a.size)) =
      (childrenAt (pre.length + a.size) (.node e c b))[n]? := by
  induction n generalizing a e c b with
  | zero =>
    rw [childrenAt, if_neg (h.kind_ne_gap hm)]
    rfl
  | succ n ih =>
    rw [Function.iterate_succ_apply, Option.bind_some, childrenAt, if_neg (h.kind_ne_gap hm),
      List.getElem?_cons_succ]
    cases hnext : m.next (pre.length + a.size) with
    | none =>
      rw [h.next_eq hm, List.head?_eq_none_iff] at hnext
      rw [hnext, List.getElem?_nil, Function.iterate_fixed rfl]
    | some j =>
      obtain ⟨e', c', b', rfl, rfl, hlevel⟩ := h.next_eq_some hm hnext
      rw [ih hlevel]
      congr 2
      simp
      omega

end

/-- Starting from the first root of a level, going on meets its roots. -/
theorem iterate_first (hm : m.Sections P s gap) (h : Siblings s gap r found pre insts depth f post)
    (n : Nat) :
    (fun i : Option Nat => i.bind m.next)^[n] (m.first (m.inside r found)) =
      (m.fields (m.inside r found))[n]? := by
  rw [Message.first, h.fields_eq hm]
  cases f with
  | nil => exact Function.iterate_fixed rfl n
  | node e c b =>
    have hgo := Siblings.iterate_next (a := .nil) hm h n
    have hkind : e.kind ≠ .gap := (h.shaped hm).kind_ne_gap e (by simp)
    rw [Forest.size_nil, Nat.add_zero] at hgo
    rw [← hgo, childrenAt, if_neg hkind, List.head?_cons]

end Siblings

/-! ## The walk -/

variable {i : Nat} {f : Forest Entry}

theorem mem_childrenAt (h : j ∈ childrenAt i f) :
    ∃ a e c b, f = a ++ .node e c b ∧ j = i + a.size := by
  induction f generalizing i with
  | nil => simp [childrenAt] at h
  | node e c r _ ih =>
    have hrest : j ∈ childrenAt (i + c.size + 1) r →
        ∃ a e' c' b, Forest.node e c r = a ++ .node e' c' b ∧ j = i + a.size := by
      intro hmem
      obtain ⟨a, e', c', b, rfl, rfl⟩ := ih hmem
      refine ⟨.node e c a, e', c', b, rfl, ?_⟩
      simp only [Forest.size_node]
      omega
    rw [childrenAt] at h
    split at h
    · exact hrest h
    · rcases List.mem_cons.mp h with rfl | h
      · exact ⟨.nil, e, c, r, rfl, rfl⟩
      · exact hrest h

variable {insts : Bool} {depth : Nat}

/-- A walk of entries that are not gaps meets them all. -/
theorem walks_eq_range' (h : ∀ e ∈ f.preorder, e.kind ≠ .gap) (i : Nat) :
    walks i f = List.range' i f.size := by
  induction f generalizing i with
  | nil => rfl
  | node e c r ihc ihr =>
    have hc := ihc (fun x hx => h x (by simp [hx])) (i + 1)
    have hr := ihr (fun x hx => h x (by simp [hx])) (i + c.size + 1)
    have hnode : walks i (.node e c r) = i :: walks (i + 1) c ++ walks (i + c.size + 1) r := by
      rw [walks]
      split
      · exact absurd ‹_› (h e (by simp))
      · rfl
    have hsize : (Forest.node e c r).size = c.size + r.size + 1 := by
      simp
      omega
    rw [hnode, hc, hr, hsize, List.range'_succ, ← List.range'_append_1, List.cons_append,
      show i + 1 + c.size = i + c.size + 1 by omega]

theorem walks_gapOf (i n : Nat) : walks i (gapOf n) = [] := by
  cases n with
  | zero => rfl
  | succ n => simp [gapOf, walks, Entry.gap]

section

variable {m : Message} {P : Entry → Prop} {s : Region → Forest Entry} {gap : Nat}

theorem Message.Sections.walk_eq (hm : m.Sections P s gap) :
    m.walk = List.range' 0 (s .header).size ++
      (List.range' m.bodyStart (s .body).size ++ List.range' m.trailerStart (s .trailer).size) := by
  have hfits : (s .header ++ (gapOf gap ++ (s .body ++ s .trailer))).Fits Entry.span := by
    simp only [Forest.fits_append]
    exact ⟨(hm.shaped _).fits, fits_gapOf gap, (hm.shaped _).fits, (hm.shaped _).fits⟩
  have hlen : m.tape.length = (s .header ++ (gapOf gap ++ (s .body ++ s .trailer))).size := by
    rw [hm.tape, Forest.length_preorder]
  have hwalk : walkUpTo m.tape m.tape.length ([] : List Entry).length = walks ([] : List Entry).length _ :=
    walkUpTo_eq hfits (Nat.le_of_eq hlen.symm) hm.tape
  have hrange (r : Region) (i : Nat) : walks i (s r) = List.range' i (s r).size :=
    walks_eq_range' (hm.shaped r).preorder_ne_gap i
  refine hwalk.trans ?_
  simp only [walks_append, walks_gapOf, hrange, List.nil_append, size_gapOf, List.length_nil,
    Nat.zero_add, hm.bodyStart, hm.trailerStart]

theorem Message.Sections.pairwise_walk (hm : m.Sections P s gap) : m.walk.Pairwise (· < ·) := by
  have hbody := hm.bodyStart
  have htrailer := hm.trailerStart
  rw [hm.walk_eq]
  simp only [List.pairwise_append, List.mem_append, List.mem_range'_1]
  refine ⟨List.pairwise_lt_range' .., ⟨List.pairwise_lt_range' .., List.pairwise_lt_range' .., ?_⟩, ?_⟩
  · intro i hi j hj
    omega
  · intro i hi j hj
    omega

theorem Message.Sections.mem_walk (hm : m.Sections P s gap) :
    i ∈ m.walk ↔ ∃ r, (before s gap r).size ≤ i ∧ i < (before s gap r).size + (s r).size := by
  have hbody := hm.bodyStart
  have htrailer := hm.trailerStart
  rw [hm.walk_eq]
  simp only [List.mem_append, List.mem_range'_1, hbody, htrailer]
  constructor
  · rintro (h | h | h)
    · exact ⟨.header, by simpa [before] using h⟩
    · exact ⟨.body, by simpa [before] using h⟩
    · exact ⟨.trailer, by simpa [before, Nat.add_assoc] using h⟩
  · rintro ⟨r, h⟩
    cases r with
    | header => exact .inl (by simpa [before] using h)
    | body => exact .inr (.inl (by simpa [before] using h))
    | trailer => exact .inr (.inr (by simpa [before, Nat.add_assoc] using h))

theorem Siblings.mem_walk {r found pre post} (hm : m.Sections P s gap)
    (h : Siblings s gap r found pre insts depth f post) (hle : pre.length ≤ i)
    (hlt : i < pre.length + f.size) : i ∈ m.walk := by
  have hwithin := h.within
  exact hm.mem_walk.mpr ⟨r, by omega, by omega⟩

theorem Siblings.fields_eq_filter {r found pre post} (hm : m.Sections P s gap)
    (h : Siblings s gap r found pre insts depth f post) : m.fields (m.inside r found) =
      m.walk.filter fun i => m.up i = found ∧ (found = none → m.regionOf i = r) := by
  have hsorted : (m.fields (m.inside r found)).Pairwise (· < ·) := by
    rw [h.fields_eq hm]
    exact pairwise_childrenAt _ _
  have hsorted' := hm.pairwise_walk.filter fun i => m.up i = found ∧ (found = none → m.regionOf i = r)
  refine List.Perm.eq_of_pairwise (fun i j _ _ hij hji => absurd hij (by omega))
    hsorted hsorted' ((List.perm_ext_iff_of_nodup ?_ ?_).mpr fun i => ?_)
  · exact hsorted.imp fun hij => by omega
  · exact hsorted'.imp fun hij => by omega
  · rw [List.mem_filter, decide_eq_true_eq]
    constructor
    · intro hi
      rw [h.fields_eq hm] at hi
      have hrange := le_of_mem_childrenAt hi
      obtain ⟨a, e, c, b, rfl, rfl⟩ := mem_childrenAt hi
      exact ⟨h.mem_walk hm hrange.1 hrange.2, h.up_eq hm,
        fun _ => h.regionOf_eq hm hrange.1 hrange.2⟩
    · rintro ⟨hwalk, hup, hregion⟩
      obtain ⟨r', hle, hlt⟩ := hm.mem_walk.mp hwalk
      obtain ⟨found', pre', insts', depth', a, e, c, b, post', h', rfl⟩ := hm.locate hle hlt
      have hfound : found' = found := (h'.up_eq hm).symm.trans hup
      have hr : m.regionOf (pre'.length + a.size) = r' :=
        h'.regionOf_eq hm (Nat.le_add_right _ _) (by simp)
      have hinside : m.inside r found = m.inside r' found' := by
        rw [hfound]
        cases found with
        | none => rw [← hregion rfl, hr]
        | some q => rfl
      rw [hinside, h'.fields_eq hm, childrenAt_append, childrenAt, if_neg (h'.kind_ne_gap hm)]
      simp

end

/-! ## Agreement -/

/-- The moves of a cursor agree with the tree that the spans make of a tape. -/
structure Message.Navigates (m : Message) : Prop where
  /-- What is up is the entry with the smallest span around this one. -/
  up : ∀ i ∈ m.walk, ∀ q, m.up i = some q ↔ m.Contains q i ∧
    ∀ k, m.Contains k i → k ≠ q → (entryAt m.tape q).span < (entryAt m.tape k).span
  /-- Nothing is around the entries at the top level only. -/
  top : ∀ i ∈ m.walk, (m.up i = none ↔ ∀ k, ¬ m.Contains k i) ∧
    (m.up i = none ↔ (entryAt m.tape i).depth = 0)
  down : ∀ i ∈ m.walk, ∀ j, m.down i = some j → j ∈ m.walk ∧ m.up j = some i
  next : ∀ i ∈ m.walk, ∀ j, m.next i = some j → j ∈ m.walk ∧ m.prev j = some i ∧ m.up j = m.up i
  prev : ∀ i ∈ m.walk, ∀ j, m.prev i = some j → j ∈ m.walk ∧ m.next j = some i ∧ m.up j = m.up i
  /-- The children of a section, in the order of the tape. -/
  region : ∀ r, m.fields (m.regionBlock r) = m.walk.filter fun i => m.up i = none ∧ m.regionOf i = r
  /-- The children of an instance, or of a group. -/
  inside : ∀ q ∈ m.walk, (entryAt m.tape q).kind = .inst ∨ (entryAt m.tape q).kind = .group →
    m.fields (m.instanceBlock q) = m.walk.filter fun i => m.up i = some q
  /-- Going on from the first child meets the children one by one, and then ends. -/
  visitRegion : ∀ r n, (fun i : Option Nat => i.bind m.next)^[n] (m.first (m.regionBlock r)) =
    (m.fields (m.regionBlock r))[n]?
  visitInside : ∀ q ∈ m.walk, (entryAt m.tape q).kind = .inst ∨ (entryAt m.tape q).kind = .group →
    ∀ n, (fun i : Option Nat => i.bind m.next)^[n] (m.first (m.instanceBlock q)) =
      (m.fields (m.instanceBlock q))[n]?

/-- **The moves of a cursor agree with the tree** a well-formed tape lays out. -/
theorem navigates_of_wellFormed {m : Message} (h : m.WellFormed) : m.Navigates := by
  obtain ⟨s, gap, hm⟩ := h.sections
  -- every entry of the walk is a root of a level
  have hroot {i : Nat} (hi : i ∈ m.walk) : ∃ r found pre insts depth a e c b post,
      Siblings s gap r found pre insts depth (a ++ .node e c b) post ∧ i = pre.length + a.size := by
    obtain ⟨r, hle, hlt⟩ := hm.mem_walk.mp hi
    exact ⟨r, hm.locate hle hlt⟩
  have hmem {r : Region} {found : Option Nat} {pre post : List Entry} {insts : Bool} {depth : Nat}
      {a c b : Forest Entry} {e : Entry}
      (h : Siblings s gap r found pre insts depth (a ++ .node e c b) post) :
      pre.length + a.size ∈ m.walk := h.mem_walk hm (Nat.le_add_right _ _) (by simp)
  constructor
  case up =>
    intro i hi q
    obtain ⟨r, found, pre, insts, depth, a, e, c, b, post, h, rfl⟩ := hroot hi
    exact h.up_iff hm q
  case top =>
    intro i hi
    obtain ⟨r, found, pre, insts, depth, a, e, c, b, post, h, rfl⟩ := hroot hi
    refine ⟨h.up_none_iff hm, ?_⟩
    rw [h.up_eq hm, h.entry_eq hm]
    exact h.up_eq_none_iff hm
  case down =>
    intro i hi j hj
    obtain ⟨r, found, pre, insts, depth, a, e, c, b, post, h, rfl⟩ := hroot hi
    refine ⟨?_, h.up_down hm hj⟩
    rw [h.down_eq hm] at hj
    split at hj
    · cases hj
    · rename_i hne
      obtain rfl := Option.some.inj hj
      have hsize : c.size ≠ 0 := fun hzero => hne (Forest.size_eq_zero.mp hzero)
      refine h.mem_walk hm (by omega) ?_
      simp
      omega
  case next =>
    intro i hi j hj
    obtain ⟨r, found, pre, insts, depth, a, e, c, b, post, h, rfl⟩ := hroot hi
    obtain ⟨hprev, hup⟩ := h.prev_next hm hj
    refine ⟨?_, hprev, hup.trans (h.up_eq hm).symm⟩
    obtain ⟨e', c', b', -, rfl, hnext⟩ := h.next_eq_some hm hj
    exact hmem hnext
  case prev =>
    intro i hi j hj
    obtain ⟨r, found, pre, insts, depth, a, e, c, b, post, h, rfl⟩ := hroot hi
    obtain ⟨hnext, hup⟩ := h.next_prev hm hj
    refine ⟨?_, hnext, hup.trans (h.up_eq hm).symm⟩
    obtain ⟨a', e', c', rfl, rfl⟩ := h.prev_eq_some hm hj
    exact h.mem_walk hm (Nat.le_add_right _ _) (by simp; omega)
  case region =>
    intro r
    have hfields := (Siblings.top (s := s) (r := r)).fields_eq_filter hm
    simpa [Message.inside] using hfields
  case inside =>
    intro q hq hkind
    obtain ⟨r, found, pre, insts, depth, a, e, c, b, post, h, rfl⟩ := hroot hq
    rw [h.entry_eq hm] at hkind
    obtain ⟨insts', depth', hinner⟩ := h.inside hm hkind
    have hfields := hinner.fields_eq_filter hm
    simpa [Message.inside] using hfields
  case visitRegion =>
    intro r n
    exact (Siblings.top (s := s) (r := r)).iterate_first hm n
  case visitInside =>
    intro q hq hkind n
    obtain ⟨r, found, pre, insts, depth, a, e, c, b, post, h, rfl⟩ := hroot hq
    rw [h.entry_eq hm] at hkind
    obtain ⟨insts', depth', hinner⟩ := h.inside hm hkind
    exact hinner.iterate_first hm n

/-- The second party follows the first, and its identifier is inside it. -/
theorem navigates_twoParties : twoParties.next 4 = some 6 ∧ twoParties.prev 6 = some 4 ∧
    twoParties.down 6 = some 7 ∧ twoParties.up 7 = some 6 := by
  have hmoves := navigates_of_wellFormed twoParties_wellFormed
  have hnext : twoParties.next 4 = some 6 := by decide +kernel
  have hdown : twoParties.down 6 = some 7 := by decide +kernel
  obtain ⟨hwalk, hprev, -⟩ := hmoves.next 4 (by decide +kernel) 6 hnext
  exact ⟨hnext, hprev, hdown, (hmoves.down 6 hwalk 7 hdown).2⟩

end Babelfix.Tape
