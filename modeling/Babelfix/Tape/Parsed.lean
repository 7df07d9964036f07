import Babelfix.Tape.Grow
import Babelfix.Tape.Shape

/-! # Accepted messages

An accepted message that is shorter than 4 GiB has the content it was read from: offsets,
lengths and spans all fit their 32 bits. -/
namespace Babelfix.Tape

open Lib

/-! ## Sizes -/

variable {t : Token}

theorem mem_fields_node {c r} (h : t.kind ≠ .inst) : t.asField ∈ fields (.node t c r) := by
  simp [Token.own, h]

theorem Token.asField_valid (h : t.asField.Valid) : t.Valid := by
  unfold Token.asField at h
  split at h
  · exact ⟨h.tag_pos, h.tag_le, h.value_ne_nil⟩
  · exact h

variable {d : Dictionary}

/-- Each entry of a content takes at least two bytes of its text, and each field that is
not below another two more. -/
theorem size_le_text (f : Forest Token) (hvalid : ∀ t ∈ fields f, t.Valid) :
    (∀ {b depth first}, Formed d b depth first f →
      2 * f.size + 2 * f.roots.length ≤ (text f).length) ∧
    (∀ {group depth}, FormedInstances d group depth f → 2 * f.size ≤ (text f).length) := by
  induction f with
  | nil => simp
  | node t c r ihc ihr =>
    obtain ⟨hc, hcs⟩ := ihc fun u hu => hvalid u (by simp [hu])
    obtain ⟨hr, hrs⟩ := ihr fun u hu => hvalid u (by simp [hu])
    constructor
    · intro b depth first hformed
      have hkind : t.kind ≠ .inst := by
        intro h
        have := hformed.2.2
        rw [h] at this
        exact this
      have hown := (Token.asField_valid (hvalid _ (mem_fields_node hkind))).length_text_le
      have hrest := hr hformed.2.1
      have hwire : t.wire = t.text := by simp [Token.wire, hkind]
      have hbelow : 2 * c.size ≤ (text c).length := by
        have := hformed.2.2
        split at this
        · exact hcs this.2.2.2
        · rw [this.2]; simp
        · rw [this]; simp
        · rw [this]; simp
        · exact this.elim
      simp only [Forest.size_node, Forest.roots_node, List.length_cons, text_node, hwire,
        List.length_append]
      omega
    · rintro group depth ⟨rfl, hne, hformed, hrest⟩
      have hfirst := hc hformed
      have hroots : c.roots.length ≠ 0 := fun h => hne (roots_length_eq_zero.mp h)
      have hafter := hrs hrest
      simp only [Forest.size_node, text_node, List.length_append]
      omega

/-! ## Laying a content out -/

variable {m : Message}

/-- A content laid out where its text lies on the wire is held there. -/
theorem lay_holds (hlt : m.wire.length < 2 ^ 32) (f : Forest Token)
    (hvalid : ∀ t ∈ fields f, t.Valid) (pre : Bytes) {post}
    (hwire : m.wire = pre ++ (text f ++ post)) : (∀ {b depth first}, Formed d b depth first f →
      (lay depth pre.length f).Fits Entry.span ∧ Holds m false depth (lay depth pre.length f) f) ∧
    (∀ {group depth}, FormedInstances d group depth f →
      (lay depth pre.length f).Fits Entry.span ∧ Holds m true depth (lay depth pre.length f) f) := by
  induction f generalizing pre post with
  | nil => exact ⟨fun _ => ⟨trivial, .nil⟩, fun _ => ⟨trivial, .nil⟩⟩
  | node t c r ihc ihr =>
    have hcvalid : ∀ u ∈ fields c, u.Valid := fun u hu => hvalid u (by simp [hu])
    have hrvalid : ∀ u ∈ fields r, u.Valid := fun u hu => hvalid u (by simp [hu])
    have hwire₁ : m.wire = (pre ++ t.wire) ++ (text c ++ (text r ++ post)) := by simp [hwire]
    have hwire₂ : m.wire = (pre ++ t.wire ++ text c) ++ (text r ++ post) := by simp [hwire]
    obtain ⟨-, hbelow⟩ := ihc hcvalid _ hwire₁
    obtain ⟨hbelow', -⟩ := ihc hcvalid _ hwire₁
    obtain ⟨hafter, hafter'⟩ := ihr hrvalid _ hwire₂
    rw [List.length_append] at hbelow hbelow'
    rw [List.length_append, List.length_append] at hafter hafter'
    have hlen : (text c).length ≤ m.wire.length := by
      rw [hwire₁]
      simp
      omega
    constructor
    · intro b depth first hformed
      obtain ⟨hfits, hholds⟩ := hafter hformed.2.1
      have hnode := hformed.2.2
      rw [lay]
      by_cases hgroup : t.kind = .group
      · rw [hgroup] at hnode
        obtain ⟨hfits₁, hholds₁⟩ := hbelow hnode.2.2.2
        have hsize := (size_le_text c hcvalid).2 hnode.2.2.2
        have hcount := roots_length_le c
        have hspan : asU32 (c.size + 1) = c.size + 1 := asU32_of_lt (by omega)
        have hoff : asU32 c.roots.length = c.roots.length := asU32_of_lt (by omega)
        have hdown : t.below depth = depth + 1 := if_pos hgroup
        rw [hdown, Token.entry, hgroup]
        rw [hspan, hoff]
        exact ⟨⟨by simp [Entry.span], hfits₁, hfits⟩, .group rfl hgroup rfl rfl rfl hholds₁ hholds⟩
      · have hfield : t.IsField ∧ c = .nil := by
          split at hnode
          · contradiction
          · exact ⟨.inl ‹_›, hnode.2⟩
          · exact ⟨.inr (.inl ‹_›), hnode⟩
          · exact ⟨.inr (.inr ‹_›), hnode⟩
          · exact hnode.elim
        obtain ⟨ht, rfl⟩ := hfield
        obtain ⟨hspan, hvalue⟩ := fieldEntry_bytes depth (by simpa [ht.wire_eq] using hwire) hlt.le
        rw [ht.entry_eq]
        refine ⟨⟨?_, trivial, hfits⟩, .field ht rfl rfl rfl hspan hvalue hholds⟩
        rcases ht with h | h | h <;> simp [Token.fieldEntry, Entry.span, h]
    · rintro group depth ⟨rfl, hne, hformed, hrest⟩
      obtain ⟨hfits, hholds⟩ := hafter' hrest
      obtain ⟨hfits₁, hholds₁⟩ := hbelow' hformed
      have hsize := (size_le_text c hcvalid).1 hformed
      have hspan : asU32 (c.size + 1) = c.size + 1 := asU32_of_lt (by omega)
      have hentry : Token.inst.entry depth pre.length c.roots.length c.size =
          { kind := .inst, depth, len := c.size + 1 } := by
        simp [Token.entry, Token.inst, hspan]
      rw [lay, hentry]
      exact ⟨⟨by simp [Entry.span], hfits₁, hfits⟩, .inst rfl rfl hholds₁ hholds⟩

/-! ## Whole messages -/

def gapForest : Forest Entry := .node (.gap headerGap) (slots (headerGap - 1)) .nil

theorem preorder_gapForest : gapForest.preorder = gapSlots := rfl

theorem size_gapForest : gapForest.size = headerGap := rfl

theorem fits_gapForest : gapForest.Fits Entry.span := ⟨rfl, fits_slots _, trivial⟩

variable {msgDef : Option MsgIdx} {s : Sections}

namespace Sections

theorem close_eq (s : Sections) : s.close = trailer s.headerPart s.bodyPart s.trailerPart := by
  cases s <;> rfl

theorem fields_eq (s : Sections) :
    s.fields = Tape.fields s.headerPart ++ (Tape.fields s.bodyPart ++ Tape.fields s.trailerPart) := by
  cases s <;> simp [fields, headerPart, bodyPart, trailerPart]

theorem text_eq_parts (s : Sections) :
    s.text = Tape.text s.headerPart ++ (Tape.text s.bodyPart ++ Tape.text s.trailerPart) := by
  cases s <;> simp [text, headerPart, bodyPart, trailerPart]

/-- **An accepted message has the content it was read from.** -/
theorem WellFormed.has (h : s.WellFormed d msgDef) (hvalid : ∀ t ∈ s.fields, t.Valid)
    (hlt : s.text.length < 2 ^ 32) :
    (s.close.message d msgDef s.text).Has s.headerPart s.bodyPart s.trailerPart := by
  set m := s.close.message d msgDef s.text with hm
  have hwire : m.wire = s.text := rfl
  rw [fields_eq] at hvalid
  rw [text_eq_parts] at hwire
  rw [← show m.wire = s.text from rfl] at hlt
  obtain ⟨hfits, hholds⟩ := (lay_holds hlt s.headerPart (fun t ht => hvalid t (by simp [ht])) []
    hwire).1 h.header_formed
  have hwire₁ : m.wire = Tape.text s.headerPart ++ (Tape.text s.bodyPart ++
      Tape.text s.trailerPart) := by simp [hwire]
  obtain ⟨hfits₁, hholds₁⟩ := (lay_holds hlt s.bodyPart (fun t ht => hvalid t (by simp [ht])) _
    hwire₁).1 h.body_formed
  have hwire₂ : m.wire = (Tape.text s.headerPart ++ Tape.text s.bodyPart) ++
      (Tape.text s.trailerPart ++ []) := by simp [hwire]
  obtain ⟨hfits₂, hholds₂⟩ := (lay_holds hlt s.trailerPart (fun t ht => hvalid t (by simp [ht])) _
    hwire₂).1 h.trailer_formed
  have hsize := (size_le_text s.headerPart fun t ht => hvalid t (by simp [ht])).1 h.header_formed
  have hsize₁ := (size_le_text s.bodyPart fun t ht => hvalid t (by simp [ht])).1 h.body_formed
  have hlen : (Tape.text s.headerPart).length + (Tape.text s.bodyPart).length ≤ m.wire.length := by
    rw [hwire]
    simp
  have hgap : headerGap = 20 := rfl
  refine ⟨lay 0 0 s.headerPart ++ gapForest, lay 0 (Tape.text s.headerPart).length s.bodyPart,
    lay 0 (Tape.text s.headerPart ++ Tape.text s.bodyPart).length s.trailerPart, ?_, ?_, ?_, ?_, ?_,
    hholds₁, hholds₂⟩
  · rw [hm, message, close_eq]
    simp [tape, flat, preorder_gapForest]
  · simp only [Forest.fits_append]
    exact ⟨⟨hfits, fits_gapForest⟩, hfits₁, hfits₂⟩
  · rw [hm, message, close_eq]
    simp only [bodyStart, Forest.size_append, size_lay, size_gapForest]
    exact asU32_of_lt (by omega)
  · rw [hm, message, close_eq]
    simp only [trailerStart, Forest.size_append, size_lay, size_gapForest]
    exact asU32_of_lt (by omega)
  · have hnil : Holds m false 0 gapForest .nil := .gap rfl .nil
    have := hholds.append hnil
    rwa [Forest.append_nil] at this

end Sections

structure Accepted (d : Dictionary) (w : Bytes) (m : Message) (e : Envelope) (s : Sections) :
    Prop where
  wire : w = texts e.tokens
  sound : e.Sound d
  lexes : LexesBy soh d none e.tokens none
  wellFormed : s.WellFormed d (d.message e.msgType.value)
  fields : s.fields = e.tokens
  message : m = s.close.message d (d.message e.msgType.value) w

variable {w : Bytes}

theorem accepted_of_parse (hd : d.Standard) (h : Message.parse d w = .ok m) : ∃ e s, Accepted d w m e s := by
  obtain ⟨e, msgDef, s, hw, hsound, hlexes, hbuilds, -, hm⟩ := parse_iff.mp h
  obtain ⟨rfl, hwell, hfields⟩ := hbuilds.wellFormed hd hsound.toTagged hlexes.isField
  exact ⟨e, s, hw, hsound, hlexes, hwell, hfields, hm⟩

variable {e : Envelope}

theorem Accepted.text_eq (h : Accepted d w m e s) : s.text = w := by
  rw [Sections.text_eq, h.fields, h.wire]

theorem Accepted.has (h : Accepted d w m e s) (hlt : w.length < 2 ^ 32) :
    m.Has s.headerPart s.bodyPart s.trailerPart := by
  have hvalid : ∀ t ∈ s.fields, t.Valid := by
    rw [h.fields]
    exact h.lexes.valid
  have hhas := h.wellFormed.has hvalid (by rw [h.text_eq]; exact hlt)
  rwa [h.text_eq, ← h.message] at hhas

/-! ## The first fields -/

/-- A formed forest is empty or starts with its first root's field. -/
theorem Formed.fields_cases {b depth first f} (h : Formed d b depth first f) :
    f = .nil ∨ ∃ t c r, f = .node t c r ∧ fields f = t.asField :: (fields c ++ fields r) := by
  cases f with
  | nil => exact .inl rfl
  | node t c r =>
    have hkind : t.kind ≠ .inst := by
      intro hinst
      have := h.2.2
      rw [hinst] at this
      exact this
    exact .inr ⟨t, c, r, rfl, by simp [Token.own, hkind]⟩

@[simp] theorem Token.tag_asField (t : Token) : t.asField.tag = t.tag := by
  unfold Token.asField
  split <;> rfl

/-- A field that is in no group and counts none is a leaf. -/
theorem Formed.leaf_of_opens {b depth first c r} (h : Formed d b depth first (.node t c r))
    (hopens : b.opens d t.tag = none) : t.IsField ∧ c = .nil ∧ Formed d b depth false r := by
  obtain ⟨-, hr, hnode⟩ := h
  split at hnode
  · rw [hopens] at hnode
    cases hnode.1
  · exact ⟨.inl ‹_›, hnode.2, hr⟩
  · exact ⟨.inr (.inl ‹_›), hnode, hr⟩
  · exact ⟨.inr (.inr ‹_›), hnode, hr⟩
  · exact hnode.elim

theorem Token.IsField.asField_eq (ht : t.IsField) : t.asField = t := by
  rcases ht with h | h | h <;> simp [Token.asField, h]

/-- BeginString, BodyLength and MsgType can only stand in the header. -/
theorem header_uncons (hd : d.Standard) {h b t} (hh : Formed d (.top msgDef true) 0 true h)
    (hb : Formed d (.top msgDef false) 0 true b) (ht : Formed d (.top msgDef false) 0 true t)
    (hbody : ∀ x ∈ b.roots, ¬ d.isHeader x.tag) (htrailer : ∀ x ∈ t.roots.head?, ¬ d.isHeader x.tag)
    {x xs} (hx : x.tag ∈ [8, 9, 35]) (hfields : fields h ++ (fields b ++ fields t) = x :: xs) :
    ∃ r, h = .node x .nil r ∧ Formed d (.top msgDef true) 0 true r ∧
      fields r ++ (fields b ++ fields t) = xs := by
  have hheader := hd.header _ hx
  have hmem : x.tag ∈ [8, 9, 35, 10] := by
    simp only [List.mem_cons, List.not_mem_nil, or_false] at hx ⊢
    tauto
  rcases hh.fields_cases with rfl | ⟨u, c, r, rfl, hu⟩
  · rcases hb.fields_cases with rfl | ⟨u, c, r, rfl, hu⟩
    · rcases ht.fields_cases with rfl | ⟨u, c, r, rfl, hu⟩
      · simp at hfields
      · rw [hu] at hfields
        have heq : u.asField = x := by simpa using (List.cons.inj hfields).1
        rw [← heq, Token.tag_asField] at hheader
        exact absurd hheader (htrailer u (by simp))
    · rw [hu] at hfields
      have heq : u.asField = x := by simpa using (List.cons.inj hfields).1
      rw [← heq, Token.tag_asField] at hheader
      exact absurd hheader (hbody u (by simp))
  · rw [hu, List.cons_append] at hfields
    obtain ⟨heq, hrest⟩ := List.cons.inj hfields
    have htag : u.tag = x.tag := by rw [← heq, Token.tag_asField]
    obtain ⟨hfield, rfl, hr⟩ := hh.leaf_of_opens (htag ▸ hd.opens hmem _)
    rw [hfield.asField_eq] at heq
    subst heq
    exact ⟨r, rfl, formed_top hr, by simpa using hrest⟩

/-- The header of a message starts with its first three fields. -/
theorem Sections.WellFormed.header_eq (hd : d.Standard) (htag : e.Tagged) (h : s.WellFormed d msgDef)
    (hfields : s.fields = e.tokens) :
    ∃ r, s.headerPart = .node e.begins .nil (.node e.length .nil (.node e.msgType .nil r)) ∧
      Tape.fields r ++ (Tape.fields s.bodyPart ++ Tape.fields s.trailerPart) =
        e.content ++ [e.sum] := by
  rw [Sections.fields_eq] at hfields
  have hbody : ∀ x ∈ s.bodyPart.roots, ¬ d.isHeader x.tag := fun x hx => (h.body_tags x hx).1
  obtain ⟨r₁, h₁, hf₁, hfields₁⟩ := header_uncons hd h.header_formed h.body_formed
    h.trailer_formed hbody h.trailer_first (by simp [htag.begins_tag]) hfields
  obtain ⟨r₂, h₂, hf₂, hfields₂⟩ := header_uncons hd hf₁ h.body_formed h.trailer_formed
    hbody h.trailer_first (by simp [htag.length_tag]) hfields₁
  obtain ⟨r₃, h₃, -, hfields₃⟩ := header_uncons hd hf₂ h.body_formed h.trailer_formed
    hbody h.trailer_first (by simp [htag.msgType_tag]) hfields₂
  exact ⟨r₃, by rw [h₁, h₂, h₃], hfields₃⟩

/-- The header's first MsgType is the third field. -/
theorem Accepted.find_msgType (hd : d.Standard) (h : Accepted d w m e s) :
    s.headerPart.roots.find? (fun x => x.tag = 35) = some e.msgType := by
  have htag := h.sound.toTagged
  obtain ⟨r, hheader, -⟩ := h.wellFormed.header_eq hd htag h.fields
  simp [hheader, htag.begins_tag, htag.length_tag, htag.msgType_tag]

end Babelfix.Tape
