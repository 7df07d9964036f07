import Babelfix.Tape.Pruned

/-! # Writing a message again

What is written from the tape of an accepted message is accepted and gives an equal
message, if a reader can still tell its groups apart when those without instances are
left out. -/
namespace Babelfix.Tape

open Lib

/-! ## The content of a tape -/

/-- The content of the entries from `i` up to `stop`. -/
def Message.contentUpTo (m : Message) : Nat → Nat → Nat → Forest Token
  | 0, _, _ => .nil
  | fuel + 1, i, stop =>
    if i < stop then
      let e := entryAt m.tape i
      let next := nextSibling m.tape i
      let rest := m.contentUpTo fuel next stop
      match e.kind with
      | .gap => rest
      | .inst => .node Token.inst (m.contentUpTo fuel (i + 1) next) rest
      | .group => .node ⟨.group, e.tag, writeUint e.off⟩ (m.contentUpTo fuel (i + 1) next) rest
      | _ => .node ⟨e.kind, e.tag, m.value e⟩ .nil rest
    else .nil

/-- The content of a section. -/
def Message.part (m : Message) (region : Region) : Forest Token :=
  m.contentUpTo m.tape.length (m.regionRange region).1 (m.regionRange region).2

/-- Each group's NumInGroup as it is written for its instances. -/
def recount : Forest Token → Forest Token
  | .nil => .nil
  | .node t c r =>
    .node (if t.kind = .group then { t with value := writeUint c.roots.length } else t) (recount c)
      (recount r)

theorem Holds.contentUpTo_eq {m insts depth fuel e f} (h : Holds m insts depth e f)
    (pre : List Entry) {post} (hfits : e.Fits Entry.span) (hfuel : e.size ≤ fuel)
    (htape : m.tape = pre ++ (e.preorder ++ post)) :
    m.contentUpTo fuel pre.length (pre.length + e.size) = recount f := by
  induction fuel generalizing insts depth e f pre post with
  | zero =>
    cases e with
    | nil =>
      cases h
      rfl
    | node e c r => simp at hfuel
  | succ fuel ih =>
    cases e with
    | nil =>
      cases h
      rw [Message.contentUpTo, if_neg (by simp)]
      rfl
    | node e c r =>
      have hs := stands htape hfits
      simp only [Forest.size_node] at hfuel
      have hrest {insts : Bool} {depth : Nat} {f : Forest Token} (hr : Holds m insts depth r f) :=
        ih hr _ hfits.2.2 (by omega) hs.after
      have hinside {insts : Bool} {depth : Nat} {f : Forest Token} (hc : Holds m insts depth c f) :=
        ih hc _ hfits.2.1 (by omega) hs.below
      rw [Message.contentUpTo, if_pos (by simp), hs.stop]
      dsimp only
      rw [hs.entry, hs.next, hs.start]
      cases h with
      | gap hkind hr => rw [hkind, hrest hr]
      | @field _ _ _ t f ht hkind htag hd hspan hvalue hr =>
        have hne : t.kind ≠ .group := by rcases ht with h | h | h <;> simp [h]
        rw [hrest hr, recount, if_neg hne, htag, hvalue, hkind]
        obtain ⟨kind, tag, value⟩ := t
        rcases ht with h | h | h <;> cases h <;> rfl
      | @group _ _ _ _ t c' f hkind ht htag hd hcount hc hr =>
        rw [hkind, hrest hr, hs.mid, hinside hc, recount, if_pos ht, htag, hcount, ht]
      | @inst _ _ _ _ c' f hkind hd hc hr =>
        rw [hkind, hrest hr, hs.mid, hinside hc]
        rfl

theorem Message.Has.part_eq {m : Message} {h b t} (hhas : m.Has h b t) :
    m.part .header = recount h ∧ m.part .body = recount b ∧ m.part .trailer = recount t := by
  obtain ⟨eh, eb, et, htape, hfits, hbody, htrailer, hh, hb, ht⟩ := hhas
  have hlen : m.tape.length = eh.size + (eb.size + et.size) := by simp [htape]
  simp only [Forest.fits_append] at hfits
  obtain ⟨hfits₀, hfits₁, hfits₂⟩ := hfits
  obtain ⟨htape₀, htape₁, htape₂⟩ := split_sections htape
  have h₀ := hh.contentUpTo_eq [] hfits₀ (show eh.size ≤ m.tape.length by omega) htape₀
  have h₁ := hb.contentUpTo_eq _ hfits₁ (show eb.size ≤ m.tape.length by omega) htape₁
  have h₂ := ht.contentUpTo_eq _ hfits₂ (show et.size ≤ m.tape.length by omega) htape₂
  rw [List.length_nil, Nat.zero_add, ← hbody] at h₀
  rw [Forest.length_preorder, ← htrailer, ← hbody] at h₁
  rw [Forest.length_preorder, Forest.size_append, Nat.add_assoc, ← hlen, ← htrailer] at h₂
  exact ⟨h₀, h₁, h₂⟩

theorem prune_recount (f : Forest Token) : prune (recount f) = prune f := by
  induction f with
  | nil => rfl
  | node t c r ihc ihr =>
    rw [recount]
    by_cases hgroup : t.kind = .group
    · rw [if_pos hgroup, prune, prune, ihc, ihr, hgroup]
    · rw [if_neg hgroup, prune, prune, ihc, ihr]

theorem startsEmpty_recount (f : Forest Token) : startsEmpty (recount f) = startsEmpty f := by
  cases f with
  | nil => rfl
  | node t c r =>
    have hkind : (if t.kind = .group then { t with value := writeUint c.roots.length } else t).kind =
        t.kind := by
      split <;> rfl
    cases c with
    | nil =>
      rw [recount, recount, startsEmpty, startsEmpty, hkind]
    | node _ _ _ => rfl

theorem noneStartsEmpty_recount {f} : NoneStartsEmpty (recount f) ↔ NoneStartsEmpty f := by
  induction f with
  | nil => rfl
  | node t c r ihc ihr =>
    have hkind : (if t.kind = .group then { t with value := writeUint c.roots.length } else t).kind =
        t.kind := by
      split <;> rfl
    rw [recount, NoneStartsEmpty, NoneStartsEmpty, hkind, startsEmpty_recount, ihc, ihr]

/-! ## Telling groups apart -/

/-- A reader can tell the groups of a content apart when those without instances are left
out: an instance still starts with its delimiter, and no field comes to follow a group it
could belong to, nor to start the trailer if it could stand in the header. -/
structure Legible (d : Dictionary) (msgDef : Option MsgIdx) (h b t : Forest Token) : Prop where
  header_starts : NoneStartsEmpty h
  body_starts : NoneStartsEmpty b
  trailer_starts : NoneStartsEmpty t
  header_apart : Apart d (.top msgDef true) [] (prune h)
  body_apart : Apart d (.top msgDef false) (ends d (.top msgDef true) [] (prune h)) (prune b)
  trailer_apart : Apart d (.top msgDef false)
    (ends d (.top msgDef false) (ends d (.top msgDef true) [] (prune h)) (prune b)) (prune t)
  trailer_first : ∀ x ∈ (prune t).roots.head?, ¬ d.isHeader x.tag

def Message.Legible (m : Message) : Prop :=
  Tape.Legible m.dict m.msgDef (m.part .header) (m.part .body) (m.part .trailer)

theorem Message.Has.legible {m : Message} {h b t} (hhas : m.Has h b t) (hm : m.Legible) :
    Tape.Legible m.dict m.msgDef h b t := by
  obtain ⟨hh, hb, ht⟩ := hhas.part_eq
  unfold Message.Legible at hm
  rw [hh, hb, ht] at hm
  obtain ⟨hs₀, hs₁, hs₂, ha₀, ha₁, ha₂, hfirst⟩ := hm
  simp only [prune_recount] at ha₀ ha₁ ha₂ hfirst
  exact ⟨noneStartsEmpty_recount.mp hs₀, noneStartsEmpty_recount.mp hs₁,
    noneStartsEmpty_recount.mp hs₂, ha₀, ha₁, ha₂, hfirst⟩

theorem roots_prune {f} : ∀ x ∈ (prune f).roots, ∃ y ∈ f.roots, y.tag = x.tag := by
  induction f with
  | nil => simp [prune]
  | node t c r _ ih =>
    have hrest : ∀ x ∈ (prune r).roots, ∃ y ∈ (Forest.node t c r).roots, y.tag = x.tag := by
      intro x hx
      obtain ⟨y, hy, htag⟩ := ih x hx
      exact ⟨y, List.mem_cons_of_mem _ hy, htag⟩
    have hnode {u : Token} {g : Forest Token} (hu : u.tag = t.tag) :
        ∀ x ∈ (Forest.node u g (prune r)).roots, ∃ y ∈ (Forest.node t c r).roots, y.tag = x.tag := by
      intro x hx
      rcases List.mem_cons.mp hx with rfl | hx
      · exact ⟨t, List.mem_cons_self, hu.symm⟩
      · exact hrest x hx
    rw [prune]
    split
    · split
      · exact hrest
      · exact hnode rfl
    · split
      · exact hrest
      · exact hnode rfl
    · exact hnode rfl

theorem Sections.WellFormed.prune {d msgDef} {s : Sections} (h : s.WellFormed d msgDef)
    (hlegible : Legible d msgDef s.headerPart s.bodyPart s.trailerPart) :
    (Sections.trailer (Tape.prune s.headerPart) (Tape.prune s.bodyPart)
      (Tape.prune s.trailerPart)).WellFormed d msgDef where
  header_tags := by
    intro x hx
    obtain ⟨y, hy, htag⟩ := roots_prune x hx
    rw [← htag]
    exact h.header_tags y hy
  body_tags := by
    intro x hx
    obtain ⟨y, hy, htag⟩ := roots_prune x hx
    rw [← htag]
    exact h.body_tags y hy
  trailer_tags := by
    intro x hx
    obtain ⟨y, hy, htag⟩ := roots_prune x hx
    rw [← htag]
    exact h.trailer_tags y hy
  trailer_first := hlegible.trailer_first
  header_formed := (prune_formed _ hlegible.header_starts).1 h.header_formed (by simp)
  body_formed := (prune_formed _ hlegible.body_starts).1 h.body_formed (by simp)
  trailer_formed := (prune_formed _ hlegible.trailer_starts).1 h.trailer_formed (by simp)
  header_apart := hlegible.header_apart
  body_apart := hlegible.body_apart
  trailer_apart := hlegible.trailer_apart

/-! ## The envelope written anew -/

/-- A CheckSum may stand where another one may. -/
theorem Token.FollowsBy.sumText {d pending} {t : Token} (h : t.FollowsBy soh d pending none) {n k}
    (hvalue : t.value = Tape.sumText n) (hk : k < 256) :
    Token.FollowsBy soh d pending { t with value := Tape.sumText k } none := by
  cases h with
  | data tag value =>
    have hlen : value.length = (Tape.sumText k).length := by
      rw [show value = Tape.sumText n from hvalue]
      rfl
    rw [hlen]
    exact .data tag _
  | field hkind _ => exact .field hkind (soh_notMem_sumText k hk)

namespace Envelope

variable {d : Dictionary} {e : Envelope}

/-- The envelope with other fields between MsgType and CheckSum. -/
def keep (e : Envelope) (content : List Token) : Envelope := { e with content }

/-- BodyLength is not a data field, unless BeginString says how long it is, and announces
none: it counts MsgType too. -/
theorem Sound.length_plain (he : e.Sound d) (h8 : d.kind 8 ≠ .dataLength 9) {p₁ p₂ p₃}
    (hbegins : e.begins.FollowsBy soh d none p₁) (hlength : e.length.FollowsBy soh d p₁ p₂)
    (hmsgType : e.msgType.FollowsBy soh d p₂ p₃) : p₁ = none ∧ p₂ = none ∧ e.length.kind = .field ∧
      ∀ data, d.kind e.length.tag ≠ .dataLength data := by
  have htag₈ := he.begins_tag
  have htag₉ := he.length_tag
  have hvalue := he.length_value
  have hbody : e.msgType.value.length < e.body.length := by
    simp [body]
    omega
  generalize hl : e.length = l at *
  cases hlength with
  | data tag value =>
    generalize hb : e.begins = b at *
    cases hbegins with
    | length hkind _ _ =>
      obtain rfl : _ = 8 := htag₈
      obtain rfl : tag = 9 := htag₉
      exact absurd hkind h8
  | length hkind hn _ =>
    have hn := hn.symm.trans hvalue
    generalize hm : e.msgType = m at *
    cases hmsgType with
    | data _ value =>
      have hlen : value.length = e.body.length := Except.ok.inj hn
      exact absurd hlen (Nat.ne_of_lt hbody)
  | field hkind _ => exact ⟨rfl, rfl, rfl, hkind⟩

/-- Other fields can be read in the envelope written anew if they could be in the old one. -/
theorem Sound.lexes_fit (he : e.Sound d) (h8 : d.kind 8 ≠ .dataLength 9) {content}
    (hlexes : LexesBy soh d none (e.keep content).tokens none) :
    LexesBy soh d none (e.keep content).fit.tokens none := by
  set e' := (e.keep content).fit with he'
  obtain ⟨hv₈, p₁, hf₈, hv₉, p₂, hf₉, hv₃₅, p₃, hf₃₅, hrest⟩ := hlexes
  obtain ⟨rfl, rfl, hkind, hplain⟩ := he.length_plain h8 hf₈ hf₉ hf₃₅
  obtain ⟨p₄, hcontent, hv₁₀, p₅, hf₁₀, rfl⟩ := LexesBy.append_iff.mp hrest
  have hsum := sumText_of_readChecksum he.sum_value
  have hf₉' : e'.length.FollowsBy soh d none none := by
    have hlength : e'.length = ⟨.field, e.length.tag, e'.length.value⟩ := by
      rw [← hkind]
      rfl
    rw [hlength]
    exact .field hplain (soh_notMem_writeUint _)
  have hf₁₀' : e'.sum.FollowsBy soh d p₄ none :=
    hf₁₀.sumText hsum (checksumOf_lt _)
  refine ⟨hv₈, none, hf₈, ⟨hv₉.tag_pos, hv₉.tag_le, writeUint_ne_nil _⟩, none, hf₉', hv₃₅, p₃, hf₃₅, ?_⟩
  exact LexesBy.append_iff.mpr ⟨p₄, hcontent,
    ⟨hv₁₀.tag_pos, hv₁₀.tag_le, by simp [he', fit, sumText]⟩, none, hf₁₀', rfl⟩

/-- BodyLength and CheckSum as they are written in `e`. -/
def refit (e : Envelope) (t : Token) : Token :=
  if t.IsField then
    if t.tag = 9 then { t with value := e.fit.length.value }
    else if t.tag = 10 then { t with value := e.fit.sum.value }
    else t
  else t

theorem refit_of_ne {t} (h9 : t.tag ≠ 9) (h10 : t.tag ≠ 10) : e.refit t = t := by
  simp [refit, h9, h10]

theorem refit_revalues (e : Envelope) : Revalues e.refit where
  kind := by
    intro t
    unfold refit
    split
    · split
      · rfl
      · split <;> rfl
    · rfl
  tag := by
    intro t
    unfold refit
    split
    · split
      · rfl
      · split <;> rfl
    · rfl
  group := by
    intro t ht
    exact if_neg (by simp [Token.IsField, ht])
  inst := rfl

theorem Tagged.tokens_fit (he : e.Tagged) (hlength : e.length.IsField) (hsum : e.sum.IsField) :
    e.fit.tokens = e.tokens.map e.refit := by
  have h₈ : e.refit e.begins = e.begins := refit_of_ne (by simp [he.begins_tag]) (by simp [he.begins_tag])
  have h₃₅ : e.refit e.msgType = e.msgType :=
    refit_of_ne (by simp [he.msgType_tag]) (by simp [he.msgType_tag])
  have h₉ : e.refit e.length = e.fit.length := by
    rw [refit, if_pos hlength, if_pos he.length_tag]
    rfl
  have h₁₀ : e.refit e.sum = e.fit.sum := by
    rw [refit, if_pos hsum, if_neg (by simp [he.sum_tag]), if_pos he.sum_tag]
    rfl
  have hcontent : e.content.map e.refit = e.content := by
    have hself : ∀ t ∈ e.content, e.refit t = id t := fun t ht =>
      refit_of_ne (he.content_tag t ht).2.1 (he.content_tag t ht).2.2.2
    rw [List.map_congr_left hself, List.map_id]
  simp only [tokens, head, List.map_append, List.map_cons, List.map_nil, h₈, h₉, h₃₅, h₁₀, hcontent]
  rfl

end Envelope

/-! ## Reading it again -/

/-- What counts a group does not frame a message. -/
theorem group_tags {d} (hd : d.Standard) (f : Forest Token) :
    (∀ {b depth first}, Formed d b depth first f →
      ∀ t ∈ f.preorder, t.kind = .group → t.tag ∉ framingTags) ∧
    (∀ {group depth}, FormedInstances d group depth f →
      ∀ t ∈ f.preorder, t.kind = .group → t.tag ∉ framingTags) := by
  induction f with
  | nil => simp
  | node t c r ihc ihr =>
    constructor
    · intro b depth first hformed u hu hkind
      simp only [Forest.preorder_node, List.mem_cons, List.mem_append] at hu
      rcases hformed.node_cases with ⟨ht, rfl, -⟩ | ⟨-, hopens, -, -, hinsts⟩
      · rcases hu with rfl | hu | hu
        · rcases ht with h | h | h <;> rw [hkind] at h <;> cases h
        · cases hu
        · exact ihr.1 hformed.2.1 u hu hkind
      · rcases hu with rfl | hu | hu
        · intro h
          rw [hd.opens h b] at hopens
          cases hopens
        · exact ihc.2 hinsts u hu hkind
        · exact ihr.1 hformed.2.1 u hu hkind
    · intro group depth hinsts u hu hkind
      obtain ⟨rfl, -, hformed, hrest⟩ := hinsts
      simp only [Forest.preorder_node, List.mem_cons, List.mem_append] at hu
      rcases hu with rfl | hu | hu
      · cases hkind
      · exact ihc.1 hformed u hu hkind
      · exact ihr.2 hrest u hu hkind

theorem Accepted.thins_fields {d} (hd : d.Standard) {w m e s} (h : Accepted d w m e s) :
    Thins e.tokens (Tape.fields (prune s.content)) := by
  have hwell := h.wellFormed
  rw [← h.fields, Sections.fields_eq, Sections.content, prune_append, prune_append, fields_append,
    fields_append]
  exact ((thins_prune hd _).1 hwell.header_formed).append
    (((thins_prune hd _).1 hwell.body_formed).append ((thins_prune hd _).1 hwell.trailer_formed))

/-- They are in the same envelope. -/
theorem Accepted.thins {d} (hd : d.Standard) {w m e s} (h : Accepted d w m e s) :
    ∃ content, Thins e.content content ∧
      Tape.fields (prune s.content) = (e.keep content).tokens := by
  have htag := h.sound.toTagged
  obtain ⟨us, hus, hhead⟩ := (h.thins_fields hd).of_concat (by simp [framingTags, htag.sum_tag])
  obtain ⟨us₁, rfl, h₁⟩ := hhead.of_cons (by simp [framingTags, htag.begins_tag])
  obtain ⟨us₂, rfl, h₂⟩ := h₁.of_cons (by simp [framingTags, htag.length_tag])
  obtain ⟨content, rfl, h₃⟩ := h₂.of_cons (by simp [framingTags, htag.msgType_tag])
  exact ⟨content, h₃, hus⟩

theorem Thins.tagged {e : Envelope} (he : e.Tagged) {content} (h : Thins e.content content) :
    (e.keep content).Tagged := by
  refine { he with content_tag := fun u hu => ?_ }
  obtain ⟨t, ht, htag⟩ := h.exists_tag u hu
  rw [← htag]
  exact he.content_tag t ht

theorem Envelope.texts_fit_keep (e : Envelope) (content : List Token) :
    texts (e.keep content).fit.tokens = e.begins.text ++
      ((e.keep content).fit.length.text ++ (e.msgType.text ++
        (texts content ++ ((e.keep content).fit.sum.text ++ [])))) := by
  simp [tokens, head]
  rfl

/-- A message that is written again is not longer. -/
theorem Envelope.Sound.length_fit_le {d} {e : Envelope} (he : e.Sound d) {content}
    (h : Thins e.content content) :
    (texts (e.keep content).fit.tokens).length ≤ (texts e.tokens).length := by
  have hcontent := h.length_texts_le
  have hbody : (e.keep content).body.length ≤ e.body.length := by
    simp only [body, keep, texts_cons, List.length_append]
    omega
  have hdigits := digits_le_of_parseUint he.length_value hbody
  have hsum : e.sum.value.length = 3 := by
    rw [sumText_of_readChecksum he.sum_value]
    rfl
  have hlength : (e.keep content).fit.length.text.length ≤ e.length.text.length := by
    simp only [Token.length_text, fit, measured, Token.valOff, length_writeUint]
    have htag : digits (e.keep content).length.tag = digits e.length.tag := rfl
    omega
  have hsum' : (e.keep content).fit.sum.text.length = e.sum.text.length := by
    simp only [Token.length_text, hsum]
    rfl
  have hright : texts e.tokens = e.begins.text ++ (e.length.text ++ (e.msgType.text ++
      (texts e.content ++ (e.sum.text ++ [])))) := by
    simp [tokens, head]
  rw [texts_fit_keep, hright]
  simp only [List.length_append]
  omega

/-- What is left of sections, with values changed by `g`. -/
def Sections.left (g : Token → Token) (s : Sections) : Sections :=
  .trailer ((prune s.headerPart).map g) ((prune s.bodyPart).map g) ((prune s.trailerPart).map g)

/-- Fields in an envelope written anew are accepted, as the content they are the fields of. -/
theorem Sections.WellFormed.refit {d} (hd : d.Standard) {e : Envelope} (htag : e.Tagged)
    (hbegins : e.begins.value = d.beginString) (htype : e.msgType.value.all isAlphanumeric)
    (hlen : e.body.length ≤ u64Max) (hlexes : LexesBy soh d none e.fit.tokens none) {h b t}
    (hwell : (Sections.trailer h b t).WellFormed d (d.message e.msgType.value))
    (hfields : Tape.fields h ++ (Tape.fields b ++ Tape.fields t) = e.tokens) :
    Accepted d (texts e.fit.tokens)
      ((Sections.trailer (h.map e.refit) (b.map e.refit) (t.map e.refit)).message d
        (d.message e.msgType.value) (texts e.fit.tokens))
      e.fit (.trailer (h.map e.refit) (b.map e.refit) (t.map e.refit)) := by
  have hg := e.refit_revalues
  have hmem := hlexes.isField
  have hlength : e.length.IsField := hmem e.fit.length (by simp [Envelope.tokens, Envelope.head])
  have hsum : e.sum.IsField := hmem e.fit.sum (by simp [Envelope.tokens])
  refine ⟨rfl, htag.fit_sound hbegins htype hlen, hlexes, hg.wellFormed hwell, ?_, rfl⟩
  have hself : ∀ t : Token, t.tag ∉ framingTags → e.refit t = t := by
    intro t ht
    refine Envelope.refit_of_ne ?_ ?_ <;> intro htag <;> exact ht (by simp [framingTags, htag])
  have hmap {b : Block} {first : Bool} (f : Forest Token) (hf : Formed d b 0 first f) :=
    hg.fields_map hself ((group_tags hd f).1 hf)
  rw [htag.tokens_fit hlength hsum, ← hfields, Sections.fields, hmap h hwell.header_formed,
    hmap b hwell.body_formed, hmap t hwell.trailer_formed]
  simp

/-- What is written again is accepted, as what is left of the content. -/
theorem Accepted.refit {d} (hd : d.Standard) (h8 : d.kind 8 ≠ .dataLength 9) {w m e s}
    (h : Accepted d w m e s)
    (hlegible : Legible d (d.message e.msgType.value) s.headerPart s.bodyPart s.trailerPart)
    {content} (hthins : Thins e.content content)
    (hfields : Tape.fields (prune s.content) = (e.keep content).tokens) :
    Accepted d (texts (e.keep content).fit.tokens)
      ((s.left (e.keep content).refit).message d (d.message e.msgType.value)
        (texts (e.keep content).fit.tokens))
      (e.keep content).fit (s.left (e.keep content).refit) := by
  have hlexes := (h.thins_fields hd).lexes h.lexes
  have hlen : (e.keep content).body.length ≤ u64Max := by
    have hle := hthins.length_texts_le
    have hmax := parseUint_le h.sound.length_value
    simp only [Envelope.body, Envelope.keep, texts_cons, List.length_append] at hmax ⊢
    omega
  rw [hfields] at hlexes
  rw [Sections.content, prune_append, prune_append, fields_append, fields_append] at hfields
  exact (h.wellFormed.prune hlegible).refit hd (hthins.tagged h.sound.toTagged)
    h.sound.begins_value h.sound.msgType_value hlen (h.sound.lexes_fit h8 hlexes) hfields

/-- What is left of a content is compared as the content is. -/
theorem Sections.WellFormed.sees_left {d msgDef} {s : Sections} (h : s.WellFormed d msgDef)
    (hlegible : Legible d msgDef s.headerPart s.bodyPart s.trailerPart) {g} (hg : Revalues g)
    (heq : ∀ t : Token, t.tag ≠ 9 → t.tag ≠ 10 → g t = t) :
    (sees 0 0 ((s.left g).headerPart ++ ((s.left g).bodyPart ++ (s.left g).trailerPart))).filter
        Message.Compared =
      (sees 0 0 (s.headerPart ++ (s.bodyPart ++ s.trailerPart))).filter Message.Compared := by
  simp only [left, headerPart, bodyPart, trailerPart, sees_append, List.filter_append,
    hg.sees_map heq]
  congr 1
  · exact (sees_prune _ hlegible.header_starts).1 0 h.header_formed
  · congr 1
    · exact (sees_prune _ hlegible.body_starts).1 0 h.body_formed
    · exact (sees_prune _ hlegible.trailer_starts).1 0 h.trailer_formed

/-- The fields that are left are those between MsgType and CheckSum. -/
theorem fields_strip_prune {d} (hd : d.Standard) {msgDef} {s : Sections} (h : s.WellFormed d msgDef)
    (hlegible : Legible d msgDef s.headerPart s.bodyPart s.trailerPart) :
    fields (strip (prune s.content)) =
      (fields (prune s.content)).filter fun t => t.tag ∉ framingTags := by
  have hwell := h.prune hlegible
  have hheader : fields (strip (prune s.headerPart)) = _ := fields_strip hd hwell.header_formed
  have hbody : fields (strip (prune s.bodyPart)) = _ := fields_strip hd hwell.body_formed
  have htrailer : fields (strip (prune s.trailerPart)) = _ := fields_strip hd hwell.trailer_formed
  rw [Sections.content, prune_append, prune_append, strip_append, strip_append, fields_append,
    fields_append, fields_append, fields_append, hheader, hbody, htrailer]
  simp [Sections.headerPart, Sections.bodyPart, Sections.trailerPart]

/-- The bytes that are written from a tape, as the fields of an envelope. -/
theorem Message.Has.encode_fit {m : Message} {h b t} (hhas : m.Has h b t) {e : Envelope}
    (htag : e.Tagged) (hbegins : e.begins.value = m.dict.beginString) (hmsgType : e.msgType.IsField)
    (hfind : h.roots.find? (fun x => x.tag = 35) = some e.msgType)
    (hfields : fields (strip (prune (h ++ (b ++ t)))) = e.content) (out : Bytes) :
    m.encodeDelimited out soh = out ++ texts e.fit.tokens := by
  have hbody : e.msgType.wire ++ text (strip (prune (h ++ (b ++ t)))) = e.body := by
    rw [text, hfields, hmsgType.wire_eq]
    rfl
  rw [hhas.encode_eq hmsgType hfind, hbody, htag.texts_fit hbegins]

/-- A message of less than 4 GiB that is laid out as the parser would is read as such. -/
theorem Accepted.parse_of_lt {d} (hd : d.Standard) {w m e s} (h : Accepted d w m e s)
    (hlt : w.length < 2 ^ 32) : Message.parse d w = .ok m := by
  have hvalid : ∀ t ∈ Tape.fields s.headerPart, t.Valid := by
    intro t ht
    apply h.lexes.valid t
    rw [← h.fields, Sections.fields_eq]
    exact List.mem_append_left _ ht
  have hsize := (size_le_text _ hvalid).1 h.wellFormed.header_formed
  have hle : (text s.headerPart).length ≤ w.length := by
    rw [← h.text_eq, Sections.text_eq_parts, List.length_append]
    exact Nat.le_add_right _ _
  have hgap : headerGap = 20 := rfl
  exact h.parse_eq hd (by omega)

/-- **What is written from the tape of a message gives an equal message.** -/
theorem reencode {d : Dictionary} (hd : d.Standard) (h8 : d.kind 8 ≠ .dataLength 9) {w : Bytes}
    {m : Message} (hparse : Message.parse d w = .ok m) (hlt : w.length < 2 ^ 32)
    (hlegible : m.Legible) :
    ∃ w' m', (∀ out, m.encodeDelimited out soh = out ++ w') ∧ Message.parse d w' = .ok m' ∧
      m'.eq m = true := by
  obtain ⟨e, s, h⟩ := accepted_of_parse hd hparse
  have hhas := h.has hlt
  have hdict : m.dict = d := by
    rw [h.message]
    rfl
  have hdef : m.msgDef = d.message e.msgType.value := by
    rw [h.message]
    rfl
  have hlegible := hhas.legible hlegible
  rw [hdict, hdef] at hlegible
  obtain ⟨content, hthins, hfields⟩ := h.thins hd
  have htag := hthins.tagged h.sound.toTagged
  have hagain := h.refit hd h8 hlegible hthins hfields
  have hlt' : (texts (e.keep content).fit.tokens).length < 2 ^ 32 := by
    have hle := h.sound.length_fit_le hthins
    rw [← h.wire] at hle
    omega
  have hhas' := hagain.has hlt'
  have hmsgType : e.msgType.IsField :=
    h.lexes.isField _ (by simp [Envelope.tokens, Envelope.head])
  have hwritten : fields (strip (prune s.content)) = content := by
    rw [fields_strip_prune hd h.wellFormed hlegible, hfields, htag.filter_tokens]
    rfl
  have hfind := h.find_msgType hd
  refine ⟨_, _, hhas.encode_fit htag ?_ hmsgType hfind hwritten,
    hagain.parse_of_lt hd hlt', ?_⟩
  · rw [hdict]
    exact h.sound.begins_value
  · rw [Message.eq, hhas'.compared_eq, hhas.compared_eq,
      h.wellFormed.sees_left hlegible (e.keep content).refit_revalues
        fun t h9 h10 => Envelope.refit_of_ne h9 h10, hdict]
    simp [Sections.message]

/-! ### A group that is left out -/

instance decidableNoneStartsEmpty : (f : Forest Token) → Decidable (NoneStartsEmpty f)
  | .nil => .isTrue trivial
  | .node _ c r =>
    have := decidableNoneStartsEmpty c
    have := decidableNoneStartsEmpty r
    inferInstanceAs (Decidable (_ ∧ _ ∧ _))

instance (d : Dictionary) (group : GroupIdx) (tag : Nat) : Decidable (Belongs d group tag) :=
  inferInstanceAs (Decidable (_ ∨ _))

instance (d : Dictionary) (ended : List GroupIdx) (tag : Nat) : Decidable (Avoids d ended tag) :=
  inferInstanceAs (Decidable (∀ group ∈ ended, ¬ Belongs d group tag))

instance decidableApart (d : Dictionary) :
    (b : Block) → (ended : List GroupIdx) → (f : Forest Token) → Decidable (Apart d b ended f)
  | _, _, .nil => .isTrue trivial
  | b, ended, .node t c r =>
    have := decidableApart d b ended c
    have := decidableApart d b (ends d b ended c) r
    have := decidableApart d (.inst (b.child d t.tag)) [] c
    have := decidableApart d b (if c = .nil then []
      else ends d (.inst (b.child d t.tag)) [] c ++ [b.child d t.tag]) r
    have := decidableApart d b [] r
    match h : t.kind with
    | .inst =>
      decidable_of_iff (Apart d b ended c ∧ Apart d b (ends d b ended c) r) (by rw [Apart, h])
    | .group =>
      decidable_of_iff (Avoids d ended t.tag ∧ Apart d (.inst (b.child d t.tag)) [] c ∧
        Apart d b (if c = .nil then []
          else ends d (.inst (b.child d t.tag)) [] c ++ [b.child d t.tag]) r) (by rw [Apart, h])
    | .gap => decidable_of_iff (Avoids d ended t.tag ∧ Apart d b [] r) (by rw [Apart, h])
    | .field => decidable_of_iff (Avoids d ended t.tag ∧ Apart d b [] r) (by rw [Apart, h])
    | .dataLen => decidable_of_iff (Avoids d ended t.tag ∧ Apart d b [] r) (by rw [Apart, h])
    | .data => decidable_of_iff (Avoids d ended t.tag ∧ Apart d b [] r) (by rw [Apart, h])

/-- Fields one after the other. -/
def leaves : List (Nat × String) → Forest Token
  | [] => .nil
  | (tag, value) :: rest => .node ⟨.field, tag, ascii value⟩ .nil (leaves rest)

/-- A group whose instances hold only fields. -/
def groupOf (tag : Nat) (instances : List (List (Nat × String))) : Forest Token :=
  .node ⟨.group, tag, writeUint instances.length⟩
    (instances.foldr (fun fields rest => .node Token.inst (leaves fields) rest) .nil) .nil

/-- An order with a party, no legs, and a text. -/
def legless : Bytes := wireOf "8=FIX.4.4|9=28|35=D|453=1|448=A|555=0|58=x|10=070|"

def leglessSections : Sections :=
  .trailer (leaves [(8, "FIX.4.4"), (9, "28"), (35, "D")])
    (groupOf 453 [[(448, "A")]] ++ groupOf 555 [] ++ leaves [(58, "x")])
    (leaves [(10, "070")])

/-- The legs are left out, and the order is read again. -/
theorem reencode_legless :
    ∃ m w' m', Message.parse orders legless = .ok m ∧ m.Legible ∧
      (∀ out, m.encodeDelimited out soh = out ++ w') ∧ Message.parse orders w' = .ok m' ∧
      m'.eq m = true := by
  have hparse : Message.parse orders legless =
      .ok (leglessSections.message orders (some 0) legless) := by decide +kernel
  have hlegible : (leglessSections.message orders (some 0) legless).Legible := by
    constructor <;> decide +kernel
  obtain ⟨w', m', hout, hagain, heq⟩ :=
    reencode orders_standard (by decide +kernel) hparse (by decide +kernel) hlegible
  exact ⟨_, w', m', hparse, hlegible, hout, hagain, heq⟩

/-! ### Messages that are not read again -/

/-- A byte string is accepted, but what is written for it is not, or gives another
message. -/
def Breaks (d : Dictionary) (w : Bytes) : Prop :=
  ∃ m, Message.parse d w = .ok m ∧
    ∀ m', Message.parse d (m.encodeDelimited [] soh) = .ok m' → m'.eq m = false

theorem breaks_of_error {d w w' m} (hparse : Message.parse d w = .ok m)
    (hwritten : m.encodeDelimited [] soh = w') (herror : (Message.parse d w').toOption = none) :
    Breaks d w := by
  refine ⟨m, hparse, ?_⟩
  intro m' hm'
  rw [hwritten] at hm'
  rw [hm'] at herror
  cases herror

/-- Between a party and a field that could start another stands a group without
instances. -/
def glued : Bytes := wireOf "8=FIX.4.4|9=29|35=D|453=1|448=A|555=0|448=B|10=068|"

def gluedSections : Sections :=
  .trailer (leaves [(8, "FIX.4.4"), (9, "29"), (35, "D")])
    (groupOf 453 [[(448, "A")]] ++ groupOf 555 [] ++ leaves [(448, "B")])
    (leaves [(10, "068")])

theorem glued_breaks : Breaks orders glued := by
  have hparse : Message.parse orders glued = .ok (gluedSections.message orders (some 0) glued) := by
    decide +kernel
  have hwritten : (gluedSections.message orders (some 0) glued).encodeDelimited [] soh =
      wireOf "8=FIX.4.4|9=23|35=D|453=1|448=A|448=B|10=049|" := by decide +kernel
  exact breaks_of_error hparse hwritten (by decide +kernel)

/-- A group (1000) whose instances start with a group (1001) of their own. -/
def nestedFirst : Dictionary :=
  { orders with
    groups := [⟨1000, 1001, [(1001, 0), (1002, 1)], [(1001, 1)]⟩, ⟨1001, 1003, [(1003, 0)], []⟩]
    messages := [⟨[(1000, 0)]⟩]
    globalGroups := [(1000, 0)] }

def headless : Bytes := wireOf "8=FIX.4.4|9=26|35=D|1000=1|1001=0|1002=x|10=195|"

def headlessSections : Sections :=
  .trailer (leaves [(8, "FIX.4.4"), (9, "26"), (35, "D")])
    (.node ⟨.group, 1000, ascii "1"⟩
      (.node Token.inst (groupOf 1001 [] ++ leaves [(1002, "x")]) .nil) .nil)
    (leaves [(10, "195")])

theorem headless_breaks : Breaks nestedFirst headless := by
  have hparse : Message.parse nestedFirst headless =
      .ok (headlessSections.message nestedFirst (some 0) headless) := by decide +kernel
  have hwritten : (headlessSections.message nestedFirst (some 0) headless).encodeDelimited [] soh =
      wireOf "8=FIX.4.4|9=19|35=D|1000=1|1002=x|10=149|" := by decide +kernel
  exact breaks_of_error hparse hwritten (by decide +kernel)

/-- A tag (93) of both the header and the trailer, which also has a group (453). -/
def sharedTag : Dictionary :=
  { orders with
    fields := (93, ⟨.plain, true, true⟩) :: (453, ⟨.plain, false, true⟩) :: orders.fields }

def shared : Bytes := wireOf "8=FIX.4.4|9=21|35=D|58=y|453=0|93=x|10=053|"

def sharedSections : Sections :=
  .trailer (leaves [(8, "FIX.4.4"), (9, "21"), (35, "D")]) (leaves [(58, "y")])
    (groupOf 453 [] ++ leaves [(93, "x"), (10, "053")])

theorem shared_breaks : Breaks sharedTag shared := by
  have hparse : Message.parse sharedTag shared =
      .ok (sharedSections.message sharedTag (some 0) shared) := by decide +kernel
  have hwritten : (sharedSections.message sharedTag (some 0) shared).encodeDelimited [] soh =
      wireOf "8=FIX.4.4|9=15|35=D|58=y|93=x|10=046|" := by decide +kernel
  exact breaks_of_error hparse hwritten (by decide +kernel)

/-- BeginString says how long BodyLength is. -/
def lengthFirst : Dictionary :=
  { orders with
    beginString := ascii "2"
    fields := (8, ⟨.dataLength 9, true, false⟩) :: (9, ⟨.data 8, true, false⟩) :: orders.fields }

def padded : Bytes := wireOf "8=2|9=05|35=D|10=110|"

def paddedSections : Sections :=
  .trailer (.node ⟨.dataLen, 8, ascii "2"⟩ .nil (.node ⟨.data, 9, ascii "05"⟩ .nil
    (leaves [(35, "D")]))) .nil (leaves [(10, "110")])

theorem padded_breaks : Breaks lengthFirst padded := by
  have hparse : Message.parse lengthFirst padded =
      .ok (paddedSections.message lengthFirst (some 0) padded) := by decide +kernel
  have hwritten : (paddedSections.message lengthFirst (some 0) padded).encodeDelimited [] soh =
      wireOf "8=2|9=5|35=D|10=062|" := by decide +kernel
  exact breaks_of_error hparse hwritten (by decide +kernel)

theorem textOrder_breaks : Breaks orders (texts (textOrder (2 ^ 32 - 1 + 1)).tokens) := by
  have hparse := textOrder_parse (n := 2 ^ 32 - 1 + 1) (by decide) (by decide)
  have hwritten := textOrder_encode (n := 2 ^ 32 - 1) (by decide) (by decide)
  exact breaks_of_error hparse hwritten (by decide +kernel)

theorem textOrder_long : 2 ^ 32 ≤ (texts (textOrder (2 ^ 32 - 1 + 1)).tokens).length := by
  have hbody := length_textOrder_body (2 ^ 32 - 1 + 1)
  have hlong : (textOrder (2 ^ 32 - 1 + 1)).body.length ≤
      (texts (textOrder (2 ^ 32 - 1 + 1)).tokens).length := by
    rw [Envelope.tokens, Envelope.head, Envelope.body]
    simp only [texts_append, texts_cons, List.length_append]
    omega
  omega

/-- Each condition is needed: a field that comes to follow a group it could belong to, an
instance that loses its delimiter, a header field that comes to start the trailer, a
BodyLength that is a data field, and a message of 4 GiB. -/
theorem reencode_breaks :
    (orders.Standard ∧ ∃ w, w.length < 2 ^ 32 ∧ Breaks orders w) ∧
      (nestedFirst.Standard ∧ ∃ w, w.length < 2 ^ 32 ∧ Breaks nestedFirst w) ∧
      (sharedTag.Standard ∧ ∃ w, w.length < 2 ^ 32 ∧ Breaks sharedTag w) ∧
      (lengthFirst.Standard ∧ ∃ w, w.length < 2 ^ 32 ∧ Breaks lengthFirst w) ∧
      ∃ w, 2 ^ 32 ≤ w.length ∧ Breaks orders w := by
  refine ⟨⟨orders_standard, glued, by decide +kernel, glued_breaks⟩,
    ⟨Dictionary.standard_of_isStandard (by decide +kernel), headless, by decide +kernel,
      headless_breaks⟩,
    ⟨Dictionary.standard_of_isStandard (by decide +kernel), shared, by decide +kernel,
      shared_breaks⟩,
    ⟨Dictionary.standard_of_isStandard (by decide +kernel), padded, by decide +kernel,
      padded_breaks⟩, _, textOrder_long, textOrder_breaks⟩

end Babelfix.Tape
