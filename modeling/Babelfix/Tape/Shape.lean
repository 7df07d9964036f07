import Babelfix.Tape.Written

/-! # Well-formed tapes

What every tape should be: a forest laid out flat, with exact spans, counts and depths,
in which each Length is followed by its data, and whose fields' bytes are where their
entries say. What a single field must satisfy is a parameter, so that the same shape can
be spoken of while a message is still being read. -/
namespace Babelfix.Tape

open Lib

variable {n : Nat}

theorem asU32_of_lt (h : n < 2 ^ 32) : asU32 n = n := Nat.mod_eq_of_lt h

theorem insertIdx_length {α : Type} (xs ys : List α) (a : α) :
    (xs ++ ys).insertIdx xs.length a = xs ++ a :: ys := by
  induction xs with
  | nil => rfl
  | cons x xs ih => simp [ih]

theorem roots_length_le {α : Type} (f : Forest α) : f.roots.length ≤ f.size :=
  f.length_preorder ▸ f.roots_sublist.length_le

theorem Token.Valid.length_text_le {t : Token} (h : t.Valid) : 4 ≤ t.text.length := by
  have hdigits := digits_pos t.tag
  have hvalue := List.length_pos_iff.mpr h.value_ne_nil
  simp [Token.valOff]
  omega

variable {m : Message}

theorem fieldEntry_bytes {t : Token} {pre post} (depth : Nat)
    (hwire : m.wire = pre ++ (t.text ++ post)) (hlt : m.wire.length ≤ 2 ^ 32) :
    m.spanBytes (t.fieldEntry depth pre.length) = t.text ∧
      m.value (t.fieldEntry depth pre.length) = t.value := by
  have hlen : pre.length + t.text.length ≤ m.wire.length := by
    rw [hwire]
    simp
  rw [Token.length_text] at hlen
  have hpos : asU32 pre.length = pre.length := asU32_of_lt (by omega)
  have hvalue : asU32 t.value.length = t.value.length := asU32_of_lt (by omega)
  constructor
  · simp only [Message.spanBytes, Message.seg, Token.fieldEntry, hpos, hvalue]
    rw [hwire, ← Token.length_text, slice_append]
  · simp only [Message.value, Message.seg, Token.fieldEntry, hpos, hvalue]
    rw [hwire, slice_text]

/-! ## Shape -/

/-- Entries of a block at a depth, or the instances of a group whose fields are at that
depth. Each field satisfies `P`. -/
inductive Shaped (P : Entry → Prop) : Bool → Nat → Forest Entry → Prop
  | nil {insts : Bool} {depth : Nat} : Shaped P insts depth .nil
  | field {depth : Nat} {e : Entry} {r : Forest Entry} (hfield : e.isField)
      (hdepth : e.depth = depth) (hP : P e) (hr : Shaped P false depth r) :
      Shaped P false depth (.node e .nil r)
  | group {depth : Nat} {e : Entry} {c r : Forest Entry} (hkind : e.kind = .group)
      (hdepth : e.depth = depth) (hcount : e.off = c.roots.length) (hspan : e.len = c.size + 1)
      (hc : Shaped P true (depth + 1) c) (hr : Shaped P false depth r) :
      Shaped P false depth (.node e c r)
  | inst {depth : Nat} {e : Entry} {c r : Forest Entry} (hkind : e.kind = .inst)
      (hdepth : e.depth = depth) (hspan : e.len = c.size + 1) (hc : Shaped P false depth c)
      (hr : Shaped P true depth r) : Shaped P true depth (.node e c r)

variable {e : Entry}

theorem Entry.kind_ne_group (h : e.isField) : e.kind ≠ .group := by
  intro hkind
  simp [isField, hkind] at h

theorem Entry.isTagged_of_isField (h : e.isField) : e.isTagged := by
  unfold isField at h
  unfold isTagged
  split at h <;> simp_all

theorem Entry.span_group (h : e.kind = .group) (hlen : e.len = n + 1) :
    e.span = n + 1 := by
  simp [span, h, hlen]

theorem Entry.span_inst (h : e.kind = .inst) (hlen : e.len = n + 1) :
    e.span = n + 1 := by
  simp [span, h, hlen]

namespace Shaped

variable {P Q : Entry → Prop} {insts : Bool} {depth : Nat} {f g : Forest Entry}

theorem mono (h : Shaped P insts depth f) (hPQ : ∀ e ∈ f.preorder, P e → Q e) :
    Shaped Q insts depth f := by
  induction h with
  | nil => exact .nil
  | @field depth e r hfield hdepth hP _ ih =>
    exact .field hfield hdepth (hPQ e (by simp) hP) (ih fun x hx => hPQ x (by simp [hx]))
  | group hkind hdepth hcount hspan _ _ ihc ihr =>
    exact .group hkind hdepth hcount hspan (ihc fun x hx => hPQ x (by simp [hx]))
      (ihr fun x hx => hPQ x (by simp [hx]))
  | inst hkind hdepth hspan _ _ ihc ihr =>
    exact .inst hkind hdepth hspan (ihc fun x hx => hPQ x (by simp [hx]))
      (ihr fun x hx => hPQ x (by simp [hx]))

theorem append (hf : Shaped P insts depth f) (hg : Shaped P insts depth g) :
    Shaped P insts depth (f ++ g) := by
  induction hf with
  | nil => exact hg
  | field hfield hdepth hP _ ih => exact .field hfield hdepth hP (ih hg)
  | group hkind hdepth hcount hspan hc _ _ ih =>
    exact .group hkind hdepth hcount hspan hc (ih hg)
  | inst hkind hdepth hspan hc _ _ ih => exact .inst hkind hdepth hspan hc (ih hg)

theorem fits (h : Shaped P insts depth f) : f.Fits Entry.span := by
  induction h with
  | nil => trivial
  | field hfield _ _ _ ih => exact ⟨Entry.span_field hfield, trivial, ih⟩
  | group hkind _ _ hspan _ _ ihc ihr => exact ⟨Entry.span_group hkind hspan, ihc, ihr⟩
  | inst hkind _ hspan _ _ ihc ihr => exact ⟨Entry.span_inst hkind hspan, ihc, ihr⟩

theorem preorder_ne_gap (h : Shaped P insts depth f) : ∀ e ∈ f.preorder, e.kind ≠ .gap := by
  induction h with
  | nil => simp
  | field hfield _ _ _ ih =>
    intro x hx
    rcases List.mem_cons.mp hx with rfl | hx
    · intro hgap
      simp [Entry.isField, hgap] at hfield
    · exact ih x (by simpa using hx)
  | group hkind _ _ _ _ _ ihc ihr | inst hkind _ _ _ _ ihc ihr =>
    intro x hx
    rcases List.mem_cons.mp hx with rfl | hx
    · simp [hkind]
    · exact (List.mem_append.mp hx).elim (ihc x) (ihr x)

theorem kind_ne_gap (h : Shaped P insts depth f) : ∀ e ∈ f.roots, e.kind ≠ .gap :=
  fun e he => h.preorder_ne_gap e (f.roots_sublist.subset he)

end Shaped

/-! ## Lengths and data -/

/-- Each Length is followed by data as long as it says, and data follows only a Length:
`L e n` is that `e` says `n`. `pending` is the length the entry before the forest
announced, and the last argument what the forest's last entry announces. -/
def Paired (L : Entry → Nat → Prop) : Option Nat → Forest Entry → Option Nat → Prop
  | pending, .nil, pending' => pending = pending'
  | pending, .node e c r, pending' =>
    Paired L none c none ∧
      match e.kind with
      | .dataLen => pending = none ∧ ∃ n, L e n ∧ Paired L (some n) r pending'
      | .data => pending = some e.len ∧ Paired L none r pending'
      | _ => pending = none ∧ Paired L none r pending'

namespace Paired

variable {L L' : Entry → Nat → Prop} {pending mid pending' : Option Nat} {f g : Forest Entry}

theorem append (hf : Paired L pending f mid) (hg : Paired L mid g pending') :
    Paired L pending (f ++ g) pending' := by
  induction f generalizing pending with
  | nil =>
    cases hf
    exact hg
  | node e c r _ ih =>
    obtain ⟨hc, hf⟩ := hf
    refine ⟨hc, ?_⟩
    split at hf
    · obtain ⟨hp, n, hn, hr⟩ := hf
      exact ⟨hp, n, hn, ih hr⟩
    · exact ⟨hf.1, ih hf.2⟩
    · exact ⟨hf.1, ih hf.2⟩

theorem mono (h : Paired L pending f pending')
    (hL : ∀ e ∈ f.preorder, ∀ n, L e n → L' e n) : Paired L' pending f pending' := by
  induction f generalizing pending pending' with
  | nil => exact h
  | node e c r ihc ihr =>
    have hchild : ∀ x ∈ c.preorder, ∀ n, L x n → L' x n := fun x hx => hL x (by simp [hx])
    have hrest : ∀ x ∈ r.preorder, ∀ n, L x n → L' x n := fun x hx => hL x (by simp [hx])
    obtain ⟨hc, h⟩ := h
    refine ⟨ihc hc hchild, ?_⟩
    split at h
    · obtain ⟨hp, n, hn, hr⟩ := h
      exact ⟨hp, n, hL e (by simp) n hn, ihr hr hrest⟩
    · exact ⟨h.1, ihr h.2 hrest⟩
    · exact ⟨h.1, ihr h.2 hrest⟩

end Paired

/-! ## The gap -/

/-- Slots that are not in use. -/
def slots : Nat → Forest Entry
  | 0 => .nil
  | n + 1 => .node {} .nil (slots n)

/-- The gap after the header, if there is room in it. -/
def gapOf : Nat → Forest Entry
  | 0 => .nil
  | n + 1 => .node (.gap (n + 1)) (slots n) .nil

@[simp] theorem size_slots (n : Nat) : (slots n).size = n := by
  induction n with
  | zero => rfl
  | succ n ih => simp [slots, ih, Nat.add_comm]

@[simp] theorem size_gapOf (n : Nat) : (gapOf n).size = n := by
  cases n with
  | zero => rfl
  | succ n => simp [gapOf]

theorem preorder_slots (n : Nat) : (slots n).preorder = List.replicate n {} := by
  induction n with
  | zero => rfl
  | succ n ih => simp [slots, ih, List.replicate_succ]

theorem fits_slots (n : Nat) : (slots n).Fits Entry.span := by
  induction n with
  | zero => trivial
  | succ n ih => exact ⟨rfl, trivial, ih⟩

theorem fits_gapOf (n : Nat) : (gapOf n).Fits Entry.span := by
  cases n with
  | zero => trivial
  | succ n => exact ⟨by simp [Entry.span, Entry.gap], fits_slots n, trivial⟩

variable {f : Forest Entry}

theorem headerGapUpTo_eq (hfits : f.Fits Entry.span) (hkind : ∀ e ∈ f.roots, e.kind ≠ .gap)
    (pre : List Entry) {post} (htape : m.tape = pre ++ (f.preorder ++ post))
    (hle : pre.length + f.size ≤ m.bodyStart) {fuel} (hfuel : m.bodyStart - pre.length ≤ fuel) :
    ∃ fuel', m.bodyStart - (pre.length + f.size) ≤ fuel' ∧
      m.headerGapUpTo fuel pre.length = m.headerGapUpTo fuel' (pre.length + f.size) := by
  induction f generalizing pre fuel with
  | nil => exact ⟨fuel, hfuel, rfl⟩
  | node e c r _ ih =>
    obtain ⟨-, hafter⟩ := split_node htape
    have hentry := entryAt_node htape
    have hlen := (length_below pre e c).2
    obtain ⟨hspan, -, hr⟩ := hfits
    simp only [Forest.size_node] at hle ⊢
    cases fuel with
    | zero => omega
    | succ fuel =>
      have hne : e.kind ≠ .gap := hkind e (by simp)
      have hrest : m.bodyStart - (pre ++ e :: c.preorder).length ≤ fuel := by omega
      obtain ⟨fuel', hfuel', heq⟩ := ih hr (fun x hx => hkind x (by simp [hx])) _ hafter
        (by omega) hrest
      refine ⟨fuel', by omega, ?_⟩
      rw [Message.headerGapUpTo, if_pos (by omega)]
      rw [hentry, if_neg (fun h => hne h.1), hspan,
        show pre.length + (c.size + 1) = (pre ++ e :: c.preorder).length by omega, heq]
      congr 1
      omega

variable {header : Forest Entry} {gap : Nat}

theorem headerGap_eq {rest} (hfits : header.Fits Entry.span)
    (hkind : ∀ e ∈ header.roots, e.kind ≠ .gap)
    (htape : m.tape = (header ++ (gapOf gap ++ rest)).preorder)
    (hbody : m.bodyStart = header.size + gap) :
    m.headerGap = if gap = 0 then none else some header.size := by
  have htape' : m.tape = [] ++ (header.preorder ++ (gapOf gap ++ rest).preorder) := by simp [htape]
  obtain ⟨fuel, hfuel, heq⟩ := headerGapUpTo_eq hfits hkind [] htape' (by simp; omega)
    (Nat.sub_le _ _)
  simp only [List.length_nil, Nat.zero_add] at heq hfuel
  rw [Message.headerGap, heq]
  cases gap with
  | zero =>
    cases fuel with
    | zero => rfl
    | succ fuel => rw [Message.headerGapUpTo, if_neg (by omega), if_pos rfl]
  | succ n =>
    cases fuel with
    | zero => omega
    | succ fuel =>
      have hentry : entryAt m.tape header.size = .gap (n + 1) := by
        rw [htape, ← Forest.length_preorder header, Forest.preorder_append, Forest.preorder_append,
          gapOf, Forest.preorder_node, List.cons_append, entryAt_length]
      rw [Message.headerGapUpTo, if_pos (by omega)]
      rw [hentry, if_pos ⟨rfl, by simp [Entry.span, Entry.gap, hbody]⟩, if_neg (by omega)]

/-! ## Whole messages -/

variable {P : Entry → Prop} {body trailer : Forest Entry}

namespace Message

/-- A field's bytes are in its segment: its tag in decimal, `=`, its value and SOH. -/
structure Spells (m : Message) (e : Entry) : Prop where
  inside : e.off + e.valOff + e.len + 1 ≤ (m.seg e.seg).length
  text : m.spanBytes e = writeUint e.tag ++ 61 :: (m.value e ++ [soh])

/-- A Length field says `n`. -/
def States (m : Message) (e : Entry) (n : Nat) : Prop := parseUint (m.value e) = .ok n

/-- A message's header, the slots after it, its body and its trailer, whose fields
satisfy `P`. The header's gap ends where the body starts. -/
structure Lays (m : Message) (P : Entry → Prop) (header : Forest Entry) (gap : Nat)
    (body trailer : Forest Entry) : Prop where
  tape : m.tape = (header ++ (gapOf gap ++ (body ++ trailer))).preorder
  bodyStart : m.bodyStart = header.size + gap
  trailerStart : m.trailerStart = header.size + gap + body.size
  header : Shaped P false 0 header
  body : Shaped P false 0 body
  trailer : Shaped P false 0 trailer

/-- Every Length in a message is followed by its data. -/
structure Pairs (L : Entry → Nat → Prop) (header body trailer : Forest Entry) : Prop where
  header : Paired L none header none
  body : Paired L none body none
  trailer : Paired L none trailer none

def WellFormed (m : Message) : Prop :=
  ∃ header gap body trailer, m.Lays m.Spells header gap body trailer ∧
    Pairs m.States header body trailer

section
variable (h : m.Lays P header gap body trailer)
include h

theorem Lays.mono {Q} (hPQ : ∀ e, P e → Q e) : m.Lays Q header gap body trailer :=
  { h with
    header := h.header.mono fun e _ => hPQ e
    body := h.body.mono fun e _ => hPQ e
    trailer := h.trailer.mono fun e _ => hPQ e }

theorem Lays.fits : (header ++ (gapOf gap ++ (body ++ trailer))).Fits Entry.span := by
  simp only [Forest.fits_append]
  exact ⟨h.header.fits, fits_gapOf gap, h.body.fits, h.trailer.fits⟩

theorem Lays.tape_header :
    m.tape = [] ++ (header.preorder ++ (gapOf gap ++ (body ++ trailer)).preorder) := by
  simp [h.tape]

theorem Lays.tape_body :
    m.tape = (header ++ gapOf gap).preorder ++ (body.preorder ++ trailer.preorder) := by
  simp [h.tape]

theorem Lays.tape_trailer :
    m.tape = (header ++ (gapOf gap ++ body)).preorder ++ (trailer.preorder ++ []) := by
  simp [h.tape]

end

theorem Pairs.mono {L L'} (h : Pairs L header body trailer) (hL : ∀ e n, L e n → L' e n) :
    Pairs L' header body trailer where
  header := h.header.mono fun e _ => hL e
  body := h.body.mono fun e _ => hL e
  trailer := h.trailer.mono fun e _ => hL e

end Message

/-! ## Content -/

theorem Entry.isField_token (h : e.isField) (tag : Nat) (value : Bytes) :
    Token.IsField ⟨e.kind, tag, value⟩ := by
  unfold isField at h
  unfold Token.IsField
  split at h <;> simp_all

/-- What an entry says. -/
def Message.content (m : Message) (e : Entry) : Token :=
  match e.kind with
  | .inst => Token.inst
  | .group => ⟨.group, e.tag, writeUint e.off⟩
  | _ => ⟨e.kind, e.tag, m.value e⟩

theorem Message.content_field (h : e.isField) :
    m.content e = ⟨e.kind, e.tag, m.value e⟩ := by
  unfold Entry.isField at h
  unfold content
  split at h <;> simp_all

theorem Message.content_group (h : e.kind = .group) :
    m.content e = ⟨.group, e.tag, writeUint e.off⟩ := by
  simp [content, h]

theorem Message.content_inst (h : e.kind = .inst) :
    m.content e = Token.inst := by
  simp [content, h]

theorem Shaped.holds_content {insts depth} (h : Shaped m.Spells insts depth f) :
    Holds m insts depth f (f.map m.content) := by
  induction h with
  | nil => exact .nil
  | field hfield hdepth hP _ ih =>
    rw [Forest.map_node, Message.content_field hfield]
    exact .field (Entry.isField_token hfield _ _) rfl rfl hdepth hP.text rfl ih
  | group hkind hdepth hcount _ _ _ ihc ihr =>
    rw [Forest.map_node, Message.content_group hkind]
    exact .group hkind rfl rfl hdepth (by simp [hcount]) ihc ihr
  | inst hkind hdepth _ _ _ ihc ihr =>
    rw [Forest.map_node, Message.content_inst hkind]
    exact .inst hkind hdepth ihc ihr

theorem Message.Lays.has_of (h : m.Lays P header gap body trailer) {x y z}
    (hx : Holds m false 0 header x) (hy : Holds m false 0 body y) (hz : Holds m false 0 trailer z) :
    m.Has x y z := by
  have hgap : Holds m false 0 (gapOf gap) .nil := by
    cases gap with
    | zero => exact .nil
    | succ n => exact .gap rfl .nil
  have hxgap : Holds m false 0 (header ++ gapOf gap) x := by
    have := hx.append hgap
    rwa [Forest.append_nil] at this
  refine ⟨header ++ gapOf gap, body, trailer, ?_, ?_, ?_, ?_, hxgap, hy, hz⟩
  · rw [h.tape, Forest.append_assoc]
  · simp only [Forest.fits_append]
    exact ⟨⟨h.header.fits, fits_gapOf gap⟩, h.body.fits, h.trailer.fits⟩
  · simp [h.bodyStart]
  · simp [h.trailerStart]

section

variable {P : Entry → Prop} {insts : Bool} {depth : Nat}

theorem shaped_append {g} :
    Shaped P insts depth (f ++ g) ↔ Shaped P insts depth f ∧ Shaped P insts depth g := by
  refine ⟨fun h => ?_, fun h => h.1.append h.2⟩
  induction f with
  | nil => exact ⟨.nil, h⟩
  | node e c r _ ih =>
    cases h with
    | field hfield hdepth hP hr => exact ⟨.field hfield hdepth hP (ih hr).1, (ih hr).2⟩
    | group hkind hdepth hcount hspan hc hr =>
      exact ⟨.group hkind hdepth hcount hspan hc (ih hr).1, (ih hr).2⟩
    | inst hkind hdepth hspan hc hr => exact ⟨.inst hkind hdepth hspan hc (ih hr).1, (ih hr).2⟩

theorem Shaped.group_of_below {c r} (h : Shaped P false depth (.node e c r)) (hc : c ≠ .nil) :
    e.kind = .group ∧ e.depth = depth ∧ e.off = c.roots.length ∧ e.len = c.size + 1 ∧
      Shaped P true (depth + 1) c ∧ Shaped P false depth r := by
  cases h with
  | field => exact absurd rfl hc
  | group hkind hdepth hcount hspan hc hr => exact ⟨hkind, hdepth, hcount, hspan, hc, hr⟩

end

end Babelfix.Tape
