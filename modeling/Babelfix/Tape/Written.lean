import Babelfix.Tape.Content
import Babelfix.Tape.Flat

/-! # What is written of a message

A tape holds a content: a forest of fields, whose bytes are in one of the segments. What
the encoder writes is the content without its groups that have nothing to write, and
without the fields that frame a message. -/
namespace Babelfix.Tape

open Lib

/-- Leave out the groups without instances, and the instances without fields. A group
says how many instances are left. -/
def prune : Forest Token → Forest Token
  | .nil => .nil
  | .node t c r =>
    match t.kind with
    | .inst => if prune c = .nil then prune r else .node t (prune c) (prune r)
    | .group =>
      if prune c = .nil then prune r
      else .node ⟨.group, t.tag, writeUint (prune c).roots.length⟩ (prune c) (prune r)
    | _ => .node t .nil (prune r)

/-- A field that frames a message. -/
def Token.IsFraming (t : Token) : Prop :=
  t.IsField ∧ (t.tag = 8 ∨ t.tag = 9 ∨ t.tag = 10 ∨ t.tag = 35)

instance (t : Token) : Decidable t.IsField :=
  inferInstanceAs (Decidable (_ ∨ _))

instance (t : Token) : Decidable t.IsFraming := inferInstanceAs (Decidable (_ ∧ _))

/-- Leave out the fields at the top level that frame a message. -/
def strip : Forest Token → Forest Token
  | .nil => .nil
  | .node t c r => if t.IsFraming then strip r else .node t c (strip r)

/-- A forest of entries at a depth holds a content. Instances stand only below groups,
and nothing else does. -/
inductive Holds (m : Message) : Bool → Nat → Forest Entry → Forest Token → Prop
  | nil {insts : Bool} {depth : Nat} : Holds m insts depth .nil .nil
  | gap {depth : Nat} {e : Entry} {c r : Forest Entry} {f : Forest Token} (hkind : e.kind = .gap)
      (hr : Holds m false depth r f) : Holds m false depth (.node e c r) f
  | field {depth : Nat} {e : Entry} {r : Forest Entry} {t : Token} {f : Forest Token}
      (ht : t.IsField) (hkind : e.kind = t.kind) (htag : e.tag = t.tag) (hdepth : e.depth = depth)
      (hspan : m.spanBytes e = t.text) (hvalue : m.value e = t.value)
      (hr : Holds m false depth r f) : Holds m false depth (.node e .nil r) (.node t .nil f)
  | group {depth : Nat} {e : Entry} {c r : Forest Entry} {t : Token} {c' f : Forest Token}
      (hkind : e.kind = .group) (ht : t.kind = .group) (htag : e.tag = t.tag)
      (hdepth : e.depth = depth) (hcount : e.off = c'.roots.length)
      (hc : Holds m true (depth + 1) c c') (hr : Holds m false depth r f) :
      Holds m false depth (.node e c r) (.node t c' f)
  | inst {depth : Nat} {e : Entry} {c r : Forest Entry} {c' f : Forest Token}
      (hkind : e.kind = .inst) (hdepth : e.depth = depth) (hc : Holds m false depth c c')
      (hr : Holds m true depth r f) : Holds m true depth (.node e c r) (.node Token.inst c' f)

theorem roots_length_eq_zero {α : Type} {f : Forest α} : f.roots.length = 0 ↔ f = .nil := by
  cases f <;> simp

variable {t : Token}

theorem Token.IsField.prune_node (ht : t.IsField) (c r : Forest Token) :
    prune (.node t c r) = .node t .nil (prune r) := by
  rcases ht with h | h | h <;> simp [prune, h]

theorem prune_inst (c r : Forest Token) :
    prune (.node Token.inst c r) =
      if prune c = .nil then prune r else .node Token.inst (prune c) (prune r) := rfl

theorem prune_append (f g : Forest Token) : prune (f ++ g) = prune f ++ prune g := by
  induction f with
  | nil => rfl
  | node t c r _ ih =>
    simp only [Forest.node_append, prune, ih]
    split
    · split <;> rfl
    · split <;> rfl
    · rfl

theorem strip_append (f g : Forest Token) : strip (f ++ g) = strip f ++ strip g := by
  induction f with
  | nil => rfl
  | node t c r _ ih =>
    simp only [Forest.node_append, strip, ih]
    split <;> rfl

theorem Token.IsField.isFraming_iff (ht : t.IsField) :
    t.IsFraming ↔ t.tag = 8 ∨ t.tag = 9 ∨ t.tag = 10 ∨ t.tag = 35 :=
  ⟨fun h => h.2, fun h => ⟨ht, h⟩⟩

namespace Holds

variable {m : Message} {insts : Bool} {depth : Nat} {e : Forest Entry} {f : Forest Token}

theorem append {e' f'} (h : Holds m insts depth e f) (h' : Holds m insts depth e' f') :
    Holds m insts depth (e ++ e') (f ++ f') := by
  induction h with
  | nil => exact h'
  | gap hkind _ ih => exact .gap hkind (ih h')
  | field ht hkind htag hdepth hspan hvalue _ ih =>
    exact .field ht hkind htag hdepth hspan hvalue (ih h')
  | group hkind ht htag hdepth hcount hc _ _ ih =>
    exact .group hkind ht htag hdepth hcount hc (ih h')
  | inst hkind hdepth hc _ _ ih => exact .inst hkind hdepth hc (ih h')

/-- The encoder counts the instances that are left, and writes what is left. -/
theorem live_writes (h : Holds m insts depth e f) :
    (insts = true → live e = (prune f).roots.length) ∧
      (insts = false → (writes e = true ↔ prune f ≠ .nil)) := by
  induction h with
  | nil => simp [live, writes, prune]
  | gap hkind _ ih =>
    simp [writes, hkind, ih.2 rfl]
  | field ht hkind htag hdepth hspan hvalue _ ih =>
    rw [ht.prune_node, writes, hkind]
    rcases ht with h | h | h <;> simp [h]
  | @group depth e c r t c' f hkind ht htag hdepth hcount hc _ ihc ihr =>
    rw [writes, hkind, prune, ht]
    rw [ihc.1 rfl]
    by_cases hnil : prune c' = .nil
    · simp [hnil, ihr.2 rfl]
    · have hpos : 0 < (prune c').roots.length :=
        Nat.pos_of_ne_zero fun h => hnil (roots_length_eq_zero.mp h)
      simp [hnil, hpos]
  | @inst depth e c r c' f hkind hdepth hc _ ihc ihr =>
    refine ⟨fun _ => ?_, by simp⟩
    rw [live, prune_inst, ihr.1 rfl]
    by_cases hnil : prune c' = .nil
    · have hwrites : writes c = false := by
        have := ihc.2 rfl
        simp only [hnil, ne_eq, not_true_eq_false, iff_false, Bool.not_eq_true] at this
        exact this
      simp [hnil, hwrites]
    · rw [if_pos ((ihc.2 rfl).mpr hnil), if_neg hnil, Forest.roots_node, List.length_cons]
      omega

theorem live_eq (h : Holds m true depth e f) : live e = (prune f).roots.length :=
  h.live_writes.1 rfl

end Holds

variable {m : Message} {post : List Entry} {depth : Nat} {f : Forest Token}

theorem written_group {pre e c r tag} (hkind : e.kind = .group) (htag : e.tag = tag)
    (hc : Holds m true depth c f) (hfits : (Forest.node e c r).Fits Entry.span)
    (htape : m.tape = pre ++ ((Forest.node e c r).preorder ++ post)) : m.written (pre.length, e) =
      Token.wire ⟨.group, tag, writeUint (prune f).roots.length⟩ := by
  rw [Message.written, if_pos hkind, liveInstances_node htape hfits, hc.live_eq, htag]
  rfl

theorem written_field {i e} (ht : t.IsField) (hkind : e.kind = t.kind)
    (hspan : m.spanBytes e = t.text) : m.written (i, e) = t.wire := by
  have hne : e.kind ≠ .group := by
    rcases ht with h | h | h <;> simp [hkind, h]
  rw [Message.written, if_neg hne, hspan]
  rcases ht with h | h | h <;> simp [Token.wire, h]

variable {e : Forest Entry}

/-- Below the top level, the content without what is empty is written. -/
theorem Holds.visits_below {insts} (h : Holds m insts depth e f) (hdepth : 0 < depth) {pre}
    (hfits : e.Fits Entry.span) (htape : m.tape = pre ++ (e.preorder ++ post)) :
    (visits pre.length e).flatMap m.written = text (prune f) := by
  induction h generalizing pre post with
  | nil => rfl
  | @gap depth e c r f hkind _ ih =>
    obtain ⟨-, hafter⟩ := split_node htape
    rw [visits, hkind, (length_below pre e c).2]
    exact ih hdepth hfits.2.2 hafter
  | @field depth e r t f ht hkind htag hd hspan hvalue _ ih =>
    obtain ⟨-, hafter⟩ := split_node htape
    have hframing : ¬ e.IsFraming := by
      rintro ⟨h, -⟩
      omega
    rw [visits, (length_below pre e .nil).2, List.flatMap_append, ih hdepth hfits.2.2 hafter,
      ht.prune_node, text_node, text_nil, List.nil_append,
      ← written_field (i := pre.length) ht hkind hspan, hkind]
    rcases ht with h | h | h <;> simp [h, hframing]
  | @group depth e c r t c' f hkind ht htag hd hcount hc _ ihc ihr =>
    obtain ⟨hbelow, hafter⟩ := split_node htape
    have hgroup := written_group hkind htag hc hfits htape
    rw [visits, hkind, (length_below pre e c).1, (length_below pre e c).2, hc.live_eq, prune, ht]
    dsimp only
    rw [List.flatMap_append, ihr hdepth hfits.2.2 hafter]
    by_cases hnil : prune c' = .nil
    · simp [hnil]
    · rw [if_neg (fun h => hnil (roots_length_eq_zero.mp h)), if_neg hnil, List.flatMap_cons,
        ihc (by omega) hfits.2.1 hbelow, hgroup, text_node, List.append_assoc]
  | @inst depth e c r c' f hkind hd hc _ ihc ihr =>
    obtain ⟨hbelow, hafter⟩ := split_node htape
    rw [visits, hkind, (length_below pre e c).1, (length_below pre e c).2, prune_inst]
    rw [List.flatMap_append, ihc hdepth hfits.2.1 hbelow, ihr hdepth hfits.2.2 hafter]
    by_cases hnil : prune c' = .nil
    · simp [hnil]
    · rw [if_neg hnil, text_node]
      rfl

/-- At the top level, the fields that frame a message are not written with the rest. -/
theorem Holds.visits_top (h : Holds m false 0 e f) (pre : List Entry) (hfits : e.Fits Entry.span)
    (htape : m.tape = pre ++ (e.preorder ++ post)) :
    (visits pre.length e).flatMap m.written = text (strip (prune f)) := by
  induction e generalizing pre post f with
  | nil =>
    cases h
    rfl
  | node e c r _ ihr =>
    obtain ⟨hbelow, hafter⟩ := split_node htape
    have hrest {f : Forest Token} (hr : Holds m false 0 r f) := ihr hr _ hfits.2.2 hafter
    rw [visits, (length_below pre e c).2, List.flatMap_append]
    cases h with
    | gap hkind hr =>
      rw [hrest hr, hkind]
      rfl
    | @field _ _ _ t f ht hkind htag hd hspan hvalue hr =>
      have hframing : e.IsFraming ↔ t.IsFraming := by
        rw [ht.isFraming_iff, Entry.IsFraming, hd, htag]
        simp
      rw [hrest hr, ht.prune_node, strip]
      have hwritten := written_field (i := pre.length) ht hkind hspan
      by_cases hf : t.IsFraming
      · rw [if_pos hf, hkind]
        rcases ht with h | h | h <;> simp [h, hframing, hf]
      · rw [if_neg hf, text_node, text_nil, List.nil_append, ← hwritten, hkind]
        rcases ht with h | h | h <;> simp [h, hframing, hf]
    | @group _ _ _ _ t c' f hkind ht htag hd hcount hc hr =>
      have hgroup := written_group hkind htag hc hfits htape
      have hnot (value : Bytes) : ¬ Token.IsFraming ⟨.group, t.tag, value⟩ := by
        rintro ⟨h | h | h, -⟩ <;> cases h
      rw [hrest hr, hkind, (length_below pre e c).1, hc.live_eq, prune, ht]
      dsimp only
      by_cases hnil : prune c' = .nil
      · simp [hnil]
      · rw [if_neg (fun h => hnil (roots_length_eq_zero.mp h)), if_neg hnil, List.flatMap_cons,
          hc.visits_below (by omega) hfits.2.1 hbelow, hgroup, strip, if_neg (hnot _), text_node,
          List.append_assoc]

/-! ## The whole message -/

/-- A message's header, body and trailer. -/
def Message.Has (m : Message) (h b t : Forest Token) : Prop :=
  ∃ eh eb et : Forest Entry, m.tape = (eh ++ (eb ++ et)).preorder ∧
    (eh ++ (eb ++ et)).Fits Entry.span ∧ m.bodyStart = eh.size ∧
    m.trailerStart = eh.size + eb.size ∧ Holds m false 0 eh h ∧ Holds m false 0 eb b ∧
    Holds m false 0 et t

/-- The tape as each of its sections finds it. -/
theorem split_sections {tape} {x y z : Forest Entry} (h : tape = (x ++ (y ++ z)).preorder) :
    tape = [] ++ (x.preorder ++ (y ++ z).preorder) ∧ tape = x.preorder ++ (y.preorder ++ z.preorder) ∧
      tape = (x ++ y).preorder ++ (z.preorder ++ []) := by
  simp [h]

theorem Holds.findRoot_eq {tag} (h : Holds m false depth e f) (ht : t.IsField)
    (hfind : f.roots.find? (fun x => x.tag = tag) = some t) (pre : List Entry)
    (htape : m.tape = pre ++ (e.preorder ++ post)) :
    ∃ i, findRoot tag pre.length e = some i ∧ m.written (i, entryAt m.tape i) = t.wire := by
  induction e generalizing pre post f with
  | nil =>
    cases h
    simp at hfind
  | node e c r _ ihr =>
    obtain ⟨-, hafter⟩ := split_node htape
    have hentry := entryAt_node htape
    rw [findRoot, (length_below pre e c).2]
    cases h with
    | gap hkind hr =>
      rw [if_neg (by simp [Entry.isTagged, hkind])]
      exact ihr hr hfind _ hafter
    | @field _ _ _ u f hu hkind htag hd hspan hvalue hr =>
      rw [Forest.roots_node, List.find?_cons] at hfind
      by_cases heq : u.tag = tag
      · rw [decide_eq_true heq] at hfind
        obtain rfl := Option.some.inj hfind
        have htagged : e.isTagged := by
          rcases hu with h | h | h <;> simp [Entry.isTagged, hkind, h]
        refine ⟨pre.length, if_pos ⟨by rw [htag, heq], htagged⟩, ?_⟩
        rw [hentry]
        exact written_field hu hkind hspan
      · rw [decide_eq_false heq] at hfind
        rw [if_neg (by rw [htag]; exact fun h => heq h.1)]
        exact ihr hr hfind _ hafter
    | @group _ _ _ _ u c' f hkind hu htag hd hcount hc hr =>
      rw [Forest.roots_node, List.find?_cons] at hfind
      by_cases heq : u.tag = tag
      · rw [decide_eq_true heq] at hfind
        obtain rfl := Option.some.inj hfind
        rcases ht with h | h | h <;> rw [hu] at h <;> cases h
      · rw [decide_eq_false heq] at hfind
        rw [if_neg (by rw [htag]; exact fun h => heq h.1)]
        exact ihr hr hfind _ hafter

/-- **What is written for a message**: MsgType, and then its content without what is
empty and what frames it. -/
theorem Message.Has.encode_eq {h b t} (hhas : m.Has h b t) {msgType} (hfield : msgType.IsField)
    (hfind : h.roots.find? (fun x => x.tag = 35) = some msgType) (out : Bytes) :
    m.encodeDelimited out soh =
      out ++ frame m.dict (msgType.wire ++ text (strip (prune (h ++ (b ++ t))))) := by
  obtain ⟨eh, eb, et, htape, hfits, hbody, -, hh, hb, ht⟩ := hhas
  rw [encodeDelimited_soh]
  have hvisit : visitUpTo m.tape m.liveInstances m.tape.length ([] : List Entry).length =
      visits ([] : List Entry).length (eh ++ (eb ++ et)) :=
    visitUpTo_eq hfits (by simp [htape]) htape
  have hall : m.tape = [] ++ ((eh ++ (eb ++ et)).preorder ++ []) := by simp [htape]
  have hhead : m.tape = [] ++ (eh.preorder ++ (eb ++ et).preorder) := by simp [htape]
  have hrest := (hh.append (hb.append ht)).visits_top [] hfits hall
  obtain ⟨i, hi, hwritten⟩ := hh.findRoot_eq hfield hfind [] hhead
  have hscan : m.scan 0 m.bodyStart 35 = some i := by
    have hfits' := ((Forest.fits_append _ _ _).mp hfits).1
    rw [← hi, ← scanUpTo_eq [] hfits' (Nat.le_refl _) hhead, Message.scan, hbody]
    simp
  rw [Message.visit, Message.findIn]
  simp only [Option.filter_none, Option.getD_none, hscan]
  rw [List.flatMap_cons, hwritten]
  rw [← hrest, ← hvisit]
  rfl

end Babelfix.Tape
