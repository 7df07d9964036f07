import Babelfix.Tape.Written

/-! # Comparing contents

What `PartialEq` looks at in a message depends only on its content: each token with its
depth, and for an instance the tag of the group it is in, which is found by stepping over
spans from the start of its section. -/
namespace Babelfix.Tape

open Lib

/-- What comparing looks at in a content at a depth, inside a group counted by `tag`. -/
def sees (depth tag : Nat) : Forest Token → List Seen
  | .nil => []
  | .node t c r =>
    (match t.kind with
      | .inst => ⟨.inst, tag, depth, none, none⟩ :: sees depth 0 c
      | .group => ⟨.group, t.tag, depth, none, some c.roots.length⟩ :: sees (depth + 1) t.tag c
      | _ => [⟨t.kind, t.tag, depth, some t.value, none⟩]) ++ sees depth tag r

theorem sees_append (depth tag : Nat) (f g : Forest Token) :
    sees depth tag (f ++ g) = sees depth tag f ++ sees depth tag g := by
  induction f with
  | nil => rfl
  | node t c r _ ih => simp only [Forest.node_append, sees, ih, List.append_assoc]

theorem sees_node (depth tag : Nat) (t : Token) (c r : Forest Token) :
    sees depth tag (.node t c r) = sees depth tag (.node t c .nil) ++ sees depth tag r :=
  sees_append depth tag (.node t c .nil) r

/-! ## The walk -/

/-- The places of a forest at `i`, without those of gaps. -/
def walks (i : Nat) : Forest Entry → List Nat
  | .nil => []
  | .node e c r =>
    (match e.kind with
      | .gap => []
      | _ => i :: walks (i + 1) c) ++ walks (i + c.size + 1) r

theorem walks_append (i : Nat) (f g : Forest Entry) :
    walks i (f ++ g) = walks i f ++ walks (i + f.size) g := by
  induction f generalizing i with
  | nil => simp [walks]
  | node e c r _ ih =>
    simp only [Forest.node_append, walks, ih, Forest.size_node, List.append_assoc]
    congr 3
    omega

theorem walkUpTo_eq {tape fuel pre f} (hfits : f.Fits Entry.span) (hfuel : f.size ≤ fuel)
    (htape : tape = pre ++ f.preorder) : walkUpTo tape fuel pre.length = walks pre.length f := by
  induction fuel generalizing f pre with
  | zero =>
    cases f with
    | nil => rfl
    | node e c r => simp at hfuel
  | succ fuel ih =>
    cases f with
    | nil =>
      rw [walkUpTo, if_neg (by simp [htape])]
      rfl
    | node e c r =>
      have hentry : entryAt tape pre.length = e := by
        rw [htape, Forest.preorder_node, entryAt_length]
      obtain ⟨hspan, hc, hr⟩ := hfits
      simp only [Forest.size_node] at hfuel
      have hinto : walkUpTo tape fuel (pre ++ [e]).length = walks (pre ++ [e]).length (c ++ r) :=
        ih (by simp [hc, hr]) (by simp; omega) (by simp [htape])
      have hover : walkUpTo tape fuel (pre ++ e :: c.preorder).length =
          walks (pre ++ e :: c.preorder).length r := ih hr (by omega) (by simp [htape])
      rw [← (length_below pre e c).1, walks_append,
        show pre.length + 1 + c.size = pre.length + c.size + 1 by omega] at hinto
      rw [← (length_below pre e c).2] at hover
      rw [walkUpTo, if_pos (by simp [htape])]
      dsimp only
      rw [hentry, hspan, show pre.length + (c.size + 1) = pre.length + c.size + 1 by omega, hinto,
        hover, walks]
      cases e.kind <;> simp

/-! ## The entry around an entry -/

/-- The search for what encloses one of the `size` places from `i` on comes to `i`, with
`found` around it. -/
def Reaches (m : Message) (found : Option Nat) (i size : Nat) : Prop :=
  ∀ target, i ≤ target → target < i + size → ∃ fuel, target - i ≤ fuel ∧
    m.enclosing target = enclosingUpTo m.tape target fuel i found

theorem enclosingUpTo_self (tape : List Entry) (fuel i : Nat) (found : Option Nat) :
    enclosingUpTo tape i fuel i found = found := by
  cases fuel with
  | zero => rfl
  | succ fuel => rw [enclosingUpTo, if_neg (by omega)]

section

variable {m : Message} {pre post : List Entry} {e : Entry} {c r : Forest Entry}
variable {found : Option Nat}

theorem Reaches.enclosing_eq {i size} (h : Reaches m found i size) (hsize : 0 < size) :
    m.enclosing i = found := by
  obtain ⟨fuel, -, heq⟩ := h i (Nat.le_refl _) (by omega)
  rw [heq, enclosingUpTo_self]

theorem reaches_region {i size} (hsize : i + size ≤ m.tape.length)
    (hregion : ∀ target, i ≤ target → target < i + size →
      (m.regionRange (m.regionOf target)).1 = i) : Reaches m none i size := by
  intro target hle hlt
  refine ⟨m.tape.length, by omega, ?_⟩
  rw [Message.enclosing, hregion target hle hlt]

variable (hfits : (Forest.node e c r).Fits Entry.span)
  (htape : m.tape = pre ++ ((Forest.node e c r).preorder ++ post))
include hfits htape

/-- The search goes below an entry for a place that is there. -/
theorem Reaches.below (h : Reaches m found pre.length (Forest.node e c r).size) :
    Reaches m (some pre.length) (pre ++ [e]).length c.size := by
  have hnext := nextSibling_node htape hfits
  rw [← (length_below pre e c).2] at hnext
  rw [← (length_below pre e c).1]
  intro target hle hlt
  obtain ⟨fuel, hfuel, heq⟩ := h target (by omega) (by simp; omega)
  cases fuel with
  | zero => omega
  | succ fuel =>
    refine ⟨fuel, by omega, ?_⟩
    rw [heq, enclosingUpTo, if_pos (by omega)]
    rw [hnext, if_pos (by omega)]

theorem Reaches.after (h : Reaches m found pre.length (Forest.node e c r).size) :
    Reaches m found (pre ++ e :: c.preorder).length r.size := by
  have hnext := nextSibling_node htape hfits
  rw [← (length_below pre e c).2] at hnext ⊢
  intro target hle hlt
  obtain ⟨fuel, hfuel, heq⟩ := h target (by omega) (by simp; omega)
  cases fuel with
  | zero => omega
  | succ fuel =>
    refine ⟨fuel, by omega, ?_⟩
    rw [heq, enclosingUpTo, if_pos (by omega)]
    rw [hnext, if_neg (by omega)]

end

/-! ## What is seen -/

namespace Message

variable {m : Message} {i : Nat} {e : Entry}

theorem see_field {t : Token} (ht : t.IsField) (he : entryAt m.tape i = e) (hkind : e.kind = t.kind)
    (htag : e.tag = t.tag) (hvalue : m.value e = t.value) :
    m.see i = ⟨t.kind, t.tag, e.depth, some t.value, none⟩ := by
  rcases ht with h | h | h <;>
    simp [see, tagAt, he, hkind, h, htag, hvalue, Entry.isField]

theorem see_group (he : entryAt m.tape i = e) (hkind : e.kind = .group) :
    m.see i = ⟨.group, e.tag, e.depth, none, some e.off⟩ := by
  simp [see, tagAt, he, hkind, Entry.isField]

theorem see_inst {g} (he : entryAt m.tape i = e) (hkind : e.kind = .inst)
    (hg : m.enclosing i = some g) :
    m.see i = ⟨.inst, (entryAt m.tape g).tag, e.depth, none, none⟩ := by
  simp [see, tagAt, he, hkind, hg, Entry.isField]

end Message

variable {m : Message}

/-- A tape that holds a content is seen as that content. For instances, their group is
around them. -/
theorem Holds.sees_eq {insts depth e f} (h : Holds m insts depth e f) (pre : List Entry) (tag : Nat)
    {post} (hfits : e.Fits Entry.span) (htape : m.tape = pre ++ (e.preorder ++ post)) {found}
    (hreach : Reaches m found pre.length e.size)
    (hfound : insts = true → ∃ g, found = some g ∧ (entryAt m.tape g).tag = tag) :
    (walks pre.length e).map m.see = sees depth tag f := by
  induction h generalizing pre post tag found with
  | nil => rfl
  | @gap depth e c r f hkind _ ih =>
    obtain ⟨-, hafter⟩ := split_node htape
    have hrest := ih _ _ hfits.2.2 hafter (hreach.after hfits htape) hfound
    rw [walks, hkind, (length_below pre e c).2]
    exact hrest
  | @field depth e r t f ht hkind htag hd hspan hvalue _ ih =>
    obtain ⟨-, hafter⟩ := split_node htape
    have hentry := entryAt_node htape
    have hrest := ih _ _ hfits.2.2 hafter (hreach.after hfits htape) hfound
    have hsee := Message.see_field ht hentry hkind htag hvalue
    rw [walks, (length_below pre e .nil).2, List.map_append, hrest, sees, hkind]
    rcases ht with h | h | h <;> simp [h, walks, hsee, hd]
  | @group depth e c r t c' f hkind ht htag hd hcount hc _ ihc ihr =>
    obtain ⟨hbelow, hafter⟩ := split_node htape
    have hentry := entryAt_node htape
    have hrest := ihr _ _ hfits.2.2 hafter (hreach.after hfits htape) hfound
    have hinside := ihc _ _ hfits.2.1 hbelow (hreach.below hfits htape) fun _ =>
      ⟨pre.length, rfl, by rw [hentry, htag]⟩
    rw [walks, (length_below pre e c).1, (length_below pre e c).2, List.map_append, hrest, sees,
      hkind, ht]
    rw [List.map_cons, hinside, Message.see_group hentry hkind, htag, hd, hcount]
  | @inst depth e c r c' f hkind hd hc _ ihc ihr =>
    obtain ⟨hbelow, hafter⟩ := split_node htape
    have hentry := entryAt_node htape
    have hrest := ihr _ _ hfits.2.2 hafter (hreach.after hfits htape) hfound
    have hinside := ihc _ 0 hfits.2.1 hbelow (hreach.below hfits htape) (by simp)
    obtain ⟨g, rfl, hg⟩ := hfound rfl
    have hencl : m.enclosing pre.length = some g := hreach.enclosing_eq (by simp)
    rw [walks, (length_below pre e c).1, (length_below pre e c).2, List.map_append, hrest, sees,
      hkind]
    change _ = (⟨.inst, tag, depth, none, none⟩ :: sees depth 0 c') ++ _
    rw [List.map_cons, hinside, Message.see_inst hentry hkind hencl, hg, hd]

theorem Message.Has.walk_eq {h b t} (hhas : m.Has h b t) :
    m.walk.map m.see = sees 0 0 (h ++ (b ++ t)) := by
  obtain ⟨eh, eb, et, htape, hfits, hbody, htrailer, hh, hb, ht⟩ := hhas
  have hlen : m.tape.length = eh.size + (eb.size + et.size) := by simp [htape]
  have hwalk : walkUpTo m.tape m.tape.length ([] : List Entry).length =
      walks ([] : List Entry).length (eh ++ (eb ++ et)) :=
    walkUpTo_eq hfits (by simp [hlen]) htape
  simp only [Forest.fits_append] at hfits
  obtain ⟨hfits₀, hfits₁, hfits₂⟩ := hfits
  obtain ⟨htape₀, htape₁, htape₂⟩ := split_sections htape
  have hlen₁ : eh.preorder.length = m.bodyStart := by rw [Forest.length_preorder, hbody]
  have hlen₂ : (eh ++ eb).preorder.length = m.trailerStart := by simp [htrailer]
  -- each section's places are looked for from its own start
  have hreach₀ : Reaches m none ([] : List Entry).length eh.size := by
    refine reaches_region (by simp [hlen]) fun target _ hlt => ?_
    have hlt : target < m.bodyStart := by simpa [hbody] using hlt
    simp [Message.regionOf, Message.regionRange, hlt]
  have hreach₁ : Reaches m none eh.preorder.length eb.size := by
    rw [hlen₁]
    refine reaches_region (by omega) fun target hle hlt => ?_
    simp [Message.regionOf, Message.regionRange, show ¬ target < m.bodyStart by omega,
      show target < m.trailerStart by omega]
  have hreach₂ : Reaches m none (eh ++ eb).preorder.length et.size := by
    rw [hlen₂]
    refine reaches_region (by omega) fun target hle hlt => ?_
    simp [Message.regionOf, Message.regionRange, show ¬ target < m.bodyStart by omega,
      show ¬ target < m.trailerStart by omega]
  have h₀ := hh.sees_eq [] 0 hfits₀ htape₀ hreach₀ (by simp)
  have h₁ := hb.sees_eq _ 0 hfits₁ htape₁ hreach₁ (by simp)
  have h₂ := ht.sees_eq _ 0 hfits₂ htape₂ hreach₂ (by simp)
  change (walkUpTo m.tape m.tape.length ([] : List Entry).length).map m.see = _
  rw [hwalk, walks_append, walks_append, List.map_append, List.map_append, h₀, sees_append,
    sees_append, ← h₁, ← h₂]
  simp

/-- **What a message is compared by is its content.** -/
theorem Message.Has.compared_eq {h b t} (hhas : m.Has h b t) :
    m.compared = (sees 0 0 (h ++ (b ++ t))).filter Message.Compared := by
  rw [Message.compared, hhas.walk_eq]

end Babelfix.Tape
