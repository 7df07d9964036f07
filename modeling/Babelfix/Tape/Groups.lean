import Babelfix.Tape.Reencode

/-! # The definitions of groups

Which definition a group on the tape goes by (`group_def_at` of `message/edit.rs`): that
of its tag in the block it is in, which is found by walking up the tape. A group the
dictionary does not know there has none, and neither has any group inside it. -/
namespace Babelfix.Tape

open Lib

namespace Message

/-- `group_def_at`, for a group that is in at most `fuel` others. -/
def groupDefUpTo (m : Message) : Nat → Nat → Option GroupIdx
  | 0, _ => none
  | fuel + 1, g =>
    let tag := (entryAt m.tape g).tag
    match m.enclosing g with
    | some inst => do
      let outer ← m.enclosing inst
      let outer ← m.groupDefUpTo fuel outer
      m.dict.nestedGroup outer tag
    | none => m.dict.topLevelGroup m.msgDef (m.regionOf g = .header) tag

/-- The definition of the group at `g`, if the dictionary knows it in this position. -/
def groupDefAt (m : Message) (g : Nat) : Option GroupIdx := m.groupDefUpTo m.tape.length g

end Message

/-! ## Content -/

theorem Shaped.recount_content {m : Message} {P insts depth f} (h : Shaped P insts depth f) :
    recount (f.map m.content) = f.map m.content := by
  induction h with
  | nil => rfl
  | @field _ e _ hfield _ _ _ ih =>
    rw [Forest.map_node, Message.content_field hfield, recount, if_neg (Entry.kind_ne_group hfield), ih]
    rfl
  | group hkind _ hcount _ _ _ ihc ihr =>
    rw [Forest.map_node, Message.content_group hkind, recount, if_pos rfl, ihc, ihr]
    simp [hcount]
  | inst hkind _ _ _ _ ihc ihr =>
    rw [Forest.map_node, Message.content_inst hkind, recount, ihc, ihr]
    rfl

theorem Message.Lays.part_eq {m : Message} {header body trailer gap}
    (h : m.Lays m.Spells header gap body trailer) :
    m.part .header = header.map m.content ∧ m.part .body = body.map m.content ∧
      m.part .trailer = trailer.map m.content := by
  obtain ⟨h₀, h₁, h₂⟩ := (h.has_of h.header.holds_content h.body.holds_content
    h.trailer.holds_content).part_eq
  rw [h.header.recount_content] at h₀
  rw [h.body.recount_content] at h₁
  rw [h.trailer.recount_content] at h₂
  exact ⟨h₀, h₁, h₂⟩

/-! ## The block around an entry -/

/-- The group that `tag` opens in a block, if it is known what block it is. -/
def opensIn (d : Dictionary) (b : Option Block) (tag : Nat) : Option GroupIdx :=
  b.bind fun b => b.opens d tag

/-- A section as a block. -/
def Message.top (m : Message) (region : Region) : Block := .top m.msgDef (region = .header)

/-- The `size` places from `i` on are in a section or an instance: `found` is what is
around them, and `b` says what may open a group there. -/
structure InBlock (m : Message) (region : Region) (found : Option Nat) (b : Option Block)
    (i size : Nat) : Prop where
  reaches : Reaches m found i size
  within : ∀ target, i ≤ target → target < i + size → m.regionOf target = region
  governs : (found = none ∧ b = some (m.top region)) ∨
    ∃ q g group, found = some q ∧ m.enclosing q = some g ∧ g < i ∧
      (∀ fuel, g < fuel → m.groupDefUpTo fuel g = group) ∧ b = group.map .inst

/-- The `size` places from `i` on are in the group at `g`, whose definition is `group`. -/
structure InGroup (m : Message) (region : Region) (g : Nat) (group : Option GroupIdx)
    (i size : Nat) : Prop where
  reaches : Reaches m (some g) i size
  within : ∀ target, i ≤ target → target < i + size → m.regionOf target = region
  before : g < i
  governs : ∀ fuel, g < fuel → m.groupDefUpTo fuel g = group

section

variable {m : Message} {region : Region} {pre post : List Entry} {e : Entry} {c r : Forest Entry}
variable {found : Option Nat} {b : Option Block} {g : Nat} {group : Option GroupIdx}

theorem InBlock.groupDefUpTo_eq (h : InBlock m region found b pre.length (Forest.node e c r).size)
    (s : Stands m.tape pre e c r post) {fuel} (hfuel : pre.length < fuel) :
    m.groupDefUpTo fuel pre.length = opensIn m.dict b e.tag := by
  have hregion := h.within pre.length (Nat.le_refl _) (by simp)
  cases fuel with
  | zero => omega
  | succ fuel =>
    rw [Message.groupDefUpTo, h.reaches.enclosing_eq (by simp), s.entry, hregion]
    rcases h.governs with ⟨rfl, rfl⟩ | ⟨q, outer, group, rfl, hq, hlt, hdef, rfl⟩
    · rfl
    · simp only [hq, Option.bind_eq_bind, Option.bind_some, hdef fuel (by omega)]
      cases group <;> rfl

/-- The definition of a group is what its tag opens in its block. -/
theorem InBlock.groupDefAt_eq (h : InBlock m region found b pre.length (Forest.node e c r).size)
    (s : Stands m.tape pre e c r post) : m.groupDefAt pre.length = opensIn m.dict b e.tag :=
  h.groupDefUpTo_eq s (by simp [s.after])

theorem InBlock.mono {i size size'} (h : InBlock m region found b i size) (hle : size' ≤ size) :
    InBlock m region found b i size' where
  reaches target hi hlt := h.reaches target hi (by omega)
  within target hi hlt := h.within target hi (by omega)
  governs := h.governs

variable (hfits : (Forest.node e c r).Fits Entry.span)
  (htape : m.tape = pre ++ ((Forest.node e c r).preorder ++ post))
include hfits htape

theorem InBlock.inGroup (h : InBlock m region found b pre.length (Forest.node e c r).size) :
    InGroup m region pre.length (opensIn m.dict b e.tag) (pre ++ [e]).length c.size where
  reaches := h.reaches.below hfits htape
  within target hle hlt := by
    simp only [List.length_append, List.length_singleton] at hle hlt
    exact h.within target (by omega) (by simp; omega)
  before := by simp
  governs _ hfuel := h.groupDefUpTo_eq (stands htape hfits) hfuel

theorem InBlock.rest (h : InBlock m region found b pre.length (Forest.node e c r).size) :
    InBlock m region found b (pre ++ e :: c.preorder).length r.size where
  reaches := h.reaches.after hfits htape
  within target hle hlt := by
    simp only [List.length_append, List.length_cons, Forest.length_preorder] at hle hlt
    exact h.within target (by omega) (by simp; omega)
  governs := by
    rcases h.governs with h | ⟨q, outer, group, hfound, hq, hlt, hdef⟩
    · exact .inl h
    · exact .inr ⟨q, outer, group, hfound, hq, by simp; omega, hdef⟩

theorem InGroup.inBlock (h : InGroup m region g group pre.length (Forest.node e c r).size) :
    InBlock m region (some pre.length) (group.map .inst) (pre ++ [e]).length c.size where
  reaches := h.reaches.below hfits htape
  within target hle hlt := by
    simp only [List.length_append, List.length_singleton] at hle hlt
    exact h.within target (by omega) (by simp; omega)
  governs := by
    have hbefore := h.before
    have hup := h.reaches.enclosing_eq (by simp)
    exact .inr ⟨pre.length, g, group, rfl, hup, by simp; omega, h.governs, rfl⟩

theorem InGroup.rest (h : InGroup m region g group pre.length (Forest.node e c r).size) :
    InGroup m region g group (pre ++ e :: c.preorder).length r.size where
  reaches := h.reaches.after hfits htape
  within target hle hlt := by
    simp only [List.length_append, List.length_cons, Forest.length_preorder] at hle hlt
    exact h.within target (by omega) (by simp; omega)
  before := by
    have := h.before
    simp
    omega
  governs := h.governs

end

namespace Message.Lays

variable {m : Message} {P : Entry → Prop} {header body trailer : Forest Entry} {gap : Nat}

section
variable (h : m.Lays P header gap body trailer)
include h

theorem length_tape : m.tape.length = header.size + gap + body.size + trailer.size := by
  rw [h.tape]
  simp
  omega

theorem inBlock_header : InBlock m .header none (some (m.top .header)) 0 (header.size + gap) := by
  have hregion : ∀ target, 0 ≤ target → target < 0 + (header.size + gap) →
      m.regionOf target = .header := by
    intro target _ hlt
    rw [regionOf, h.bodyStart, if_pos (by omega)]
  refine ⟨reaches_region (by rw [h.length_tape]; omega) fun target hle hlt => ?_, hregion,
    .inl ⟨rfl, rfl⟩⟩
  rw [hregion target hle hlt]
  rfl

theorem inBlock_body : InBlock m .body none (some (m.top .body)) m.bodyStart body.size := by
  have hregion : ∀ target, m.bodyStart ≤ target → target < m.bodyStart + body.size →
      m.regionOf target = .body := by
    intro target hle hlt
    rw [h.bodyStart] at hle hlt
    rw [regionOf, h.bodyStart, h.trailerStart, if_neg (by omega), if_pos (by omega)]
  refine ⟨reaches_region (by rw [h.length_tape, h.bodyStart]; omega) fun target hle hlt => ?_,
    hregion, .inl ⟨rfl, rfl⟩⟩
  rw [hregion target hle hlt]
  rfl

theorem inBlock_trailer :
    InBlock m .trailer none (some (m.top .trailer)) m.trailerStart trailer.size := by
  have hregion : ∀ target, m.trailerStart ≤ target → target < m.trailerStart + trailer.size →
      m.regionOf target = .trailer := by
    intro target hle hlt
    rw [h.trailerStart] at hle hlt
    rw [regionOf, h.bodyStart, h.trailerStart, if_neg (by omega), if_neg (by omega)]
  refine ⟨reaches_region (by rw [h.length_tape, h.trailerStart]) fun target hle hlt => ?_,
    hregion, .inl ⟨rfl, rfl⟩⟩
  rw [hregion target hle hlt]
  rfl

end

end Message.Lays

end Babelfix.Tape
