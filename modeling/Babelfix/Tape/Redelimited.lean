import Babelfix.Tape.Rendered

/-! # The delimiter does not matter

A message that is read back from its SOH form as it was is read back from its form with
another delimiter too: both consist of the same fields. -/
namespace Babelfix.Tape

open Lib
open List (Forall₂ SublistForall₂)

/-! ## From what was read to what is seen -/

/-- What is seen of a field a message was read from, where `R` is what is seen of a value:
the value, or something shorter, since a length is kept in 32 bits. -/
inductive Shown (R : Bytes → Bytes → Prop) : Seen → Token → Prop
  | field (t : Token) {value : Bytes} (hvalue : R value t.value) :
      Shown R ⟨t.kind, t.tag, 0, some value, none⟩ t
  | group (tag : Nat) {n count : Nat} {value : Bytes} (hvalue : parseUint value = .ok count)
      (hle : n ≤ count) : Shown R ⟨.group, tag, 0, none, some n⟩ ⟨.field, tag, value⟩

/-- A field with a value that may be shorter. -/
structure Token.Shortens (u t : Token) : Prop where
  kind : u.kind = t.kind
  tag : u.tag = t.tag
  length_le : u.value.length ≤ t.value.length

variable {d : Dictionary} {R : Bytes → Bytes → Prop}

theorem Shown.inner {s t} (h : Shown R s t) (hs : s.Inner) : t.inner := by
  unfold Seen.Inner at hs
  cases h <;> exact (Bool.and_eq_true_iff.mp hs).2

/-- What is written for what is seen is no longer than what was read. -/
theorem Rendered.shortens {u s t} (h : Rendered u s) (hs : Shown R s t)
    (hR : ∀ {v w}, R v w → v.length ≤ w.length) : u.Shortens t := by
  cases h with
  | field u =>
    generalize hseen : Seen.mk u.kind u.tag 0 (some u.value) none = s at hs
    cases hs with
    | field t hvalue =>
      obtain ⟨hkind, htag, -, hsame, -⟩ := Seen.mk.inj hseen
      cases hsame
      exact ⟨hkind, htag, hR hvalue⟩
    | group => cases (Seen.mk.inj hseen).2.2.2.1
  | @group tag n k hpos hle =>
    generalize hseen : Seen.mk .group tag 0 none (some n) = s at hs
    cases hs with
    | field => cases (Seen.mk.inj hseen).2.2.2.1
    | group tag' hvalue hcount =>
      obtain ⟨-, rfl, -, -, hsame⟩ := Seen.mk.inj hseen
      cases hsame
      refine ⟨rfl, rfl, ?_⟩
      rw [length_writeUint]
      exact digits_le_of_parseUint hvalue (hle.trans hcount)

theorem exists_of_value {ss ts} (h : Forall₂ (Shown R) ss ts) {s} (hs : s ∈ ss) {value}
    (hvalue : s.value = some value) : ∃ t ∈ ts, t.kind = s.kind ∧ t.tag = s.tag ∧ R value t.value := by
  obtain ⟨t, ht, hshown⟩ := h.exists_of_mem hs
  cases hshown with
  | field t hseen =>
    cases hvalue
    exact ⟨t, ht, rfl, rfl, hseen⟩
  | group => cases hvalue

/-! ### How many instances a group has -/

/-- Every group says how many instances it has. -/
def Counted : Forest Token → Prop
  | .nil => True
  | .node t c r =>
    (t.kind = .group → parseUint t.value = .ok c.roots.length) ∧ Counted c ∧ Counted r

theorem counted_nil : Counted .nil := trivial

theorem counted_append {f g : Forest Token} : Counted (f ++ g) ↔ Counted f ∧ Counted g := by
  induction f with
  | nil => simp [Counted]
  | node t c r _ ih => simp only [Forest.node_append, Counted, ih, and_assoc]

def Sections.Counted : Sections → Prop
  | header h => Tape.Counted h
  | body h b => Tape.Counted h ∧ Tape.Counted b
  | trailer h b t => Tape.Counted h ∧ Tape.Counted b ∧ Tape.Counted t

/-- A group that is open has said how many it will have. -/
structure Level.Counted (l : Level) : Prop where
  value : parseUint l.value = .ok l.declared
  done : Tape.Counted l.done
  current : Tape.Counted l.current

structure Path.Counted (p : Path) : Prop where
  sections : p.sections.Counted
  levels : ∀ l ∈ p.levels, l.Counted

structure Track.Counted (z : Track) : Prop where
  path : z.path.Counted
  fresh : ∀ o ∈ z.fresh, parseUint o.value = .ok o.declared

section

variable {f : Forest Token} {s s' : Sections} {l : Level} {z z' : Track} {t : Token} {tag : Nat}

theorem Sections.Counted.add (h : s.Counted) (hf : Tape.Counted f) : (s.add f).Counted := by
  cases s <;> simp_all [Sections.Counted, Sections.add, counted_append]

theorem Sections.Counted.enter (h : s.Counted) (henter : s.enter d tag = some s') : s'.Counted := by
  cases s <;> simp only [Sections.enter] at henter <;> split at henter <;> try split at henter
  all_goals cases henter <;> simp_all [Sections.Counted, Tape.Counted]

theorem Level.Counted.add (h : l.Counted) (hf : Tape.Counted f) : (l.add f).Counted :=
  ⟨h.value, h.done, counted_append.mpr ⟨h.current, hf⟩⟩

theorem Level.Counted.instances (h : l.Counted) : Tape.Counted l.instances :=
  counted_append.mpr ⟨h.done, by simp [Token.inst], h.current, trivial⟩

theorem Level.Counted.tree (h : l.Counted) (hcount : l.count = l.declared) : Tape.Counted l.tree := by
  refine ⟨fun _ => ?_, h.instances, trivial⟩
  change parseUint l.value = .ok l.count
  rw [h.value, hcount]

theorem Path.Counted.add {p : Path} (h : p.Counted) (hf : Tape.Counted f) : (p.add f).Counted := by
  obtain ⟨s, _ | ⟨l, outer⟩⟩ := p
  · exact ⟨h.sections.add hf, by simp [Path.add]⟩
  · exact ⟨h.sections, List.forall_mem_cons.mpr
      ⟨(h.levels l List.mem_cons_self).add hf, fun x hx => h.levels x (List.mem_cons_of_mem _ hx)⟩⟩

theorem Path.Counted.join {levels p} (h : Path.Counted ⟨s, levels⟩) (hf : Tape.Counted f)
    (hjoin : Path.join d tag s levels f = some p) : p.Counted := by
  induction levels generalizing f with
  | nil =>
    cases hjoin
    exact h.add hf
  | cons l outer ih =>
    have hl := (h.levels l List.mem_cons_self).add hf
    have houter : ∀ x ∈ outer, x.Counted := fun x hx => h.levels x (List.mem_cons_of_mem _ hx)
    rw [Path.join] at hjoin
    split at hjoin
    · split at hjoin
      · cases hjoin
      · split at hjoin
        · cases hjoin
          exact ⟨h.sections, List.forall_mem_cons.mpr ⟨⟨hl.value, hl.instances, trivial⟩, houter⟩⟩
        · cases hjoin
    · split at hjoin
      · cases hjoin
        exact ⟨h.sections, List.forall_mem_cons.mpr ⟨hl, houter⟩⟩
      · split at hjoin
        · rename_i hcount
          exact ih ⟨h.sections, houter⟩ (hl.tree (by simpa using hcount)) hjoin
        · cases hjoin

theorem Path.Counted.finish {levels} (h : Path.Counted ⟨s, levels⟩) (hf : Tape.Counted f)
    (hfinish : Path.finish s levels f = some s') : s'.Counted := by
  induction levels generalizing f with
  | nil =>
    cases hfinish
    exact h.sections.add hf
  | cons l outer ih =>
    rw [Path.finish] at hfinish
    split at hfinish
    · rename_i hcount
      exact ih ⟨h.sections, fun x hx => h.levels x (List.mem_cons_of_mem _ hx)⟩
        (((h.levels l List.mem_cons_self).add hf).tree (by simpa using hcount)) hfinish
    · cases hfinish

theorem Track.Counted.place (h : z.Counted) (ht : t.IsField) (hplace : z.place t = some z') :
    z'.Counted := by
  rcases Track.place_cases hplace with ⟨-, rfl⟩ | ⟨-, _, _, -, hvalue, ⟨_, rfl⟩ | ⟨rfl, rfl⟩⟩
  · exact ⟨h.path.add ⟨fun hkind => by rcases ht with ht | ht | ht <;> simp [ht] at hkind,
      trivial, trivial⟩, h.fresh⟩
  · exact ⟨h.path, by simpa using hvalue⟩
  · exact ⟨h.path.add ⟨fun _ => hvalue, trivial, trivial⟩, h.fresh⟩

theorem Track.Counted.settle (h : z.Counted) (ht : t.IsField) (hsettle : z.settle t = some z') :
    z'.Counted := by
  rcases Track.settle_cases hsettle with ⟨s, s', hpath, hs', hplace⟩ | ⟨-, -, -, -, -, hplace⟩
  · have hs : s.Counted := by
      have := h.path.sections
      rwa [hpath] at this
    have hentered : Track.Counted { z with path := ⟨s', []⟩ } := ⟨⟨hs.enter hs', by simp⟩, h.fresh⟩
    exact hentered.place ht hplace
  · exact h.place ht hplace

theorem Track.Counted.take (h : z.Counted) (ht : t.IsField) (htake : z.take t = some z') :
    z'.Counted := by
  have htyped : (z.typed t).Counted := by
    unfold Track.typed
    split <;> exact ⟨h.path, h.fresh⟩
  rcases Track.push_cases htake with ⟨o, ho, -, -, hsettle⟩ | ⟨-, path, hjoin, hsettle⟩
  · set first : Level := { o with done := .nil, current := .nil } with hfirst
    have hopened : first.Counted := ⟨htyped.fresh o ho, counted_nil, counted_nil⟩
    have hlevels : Path.Counted ⟨(z.typed t).path.sections, first :: (z.typed t).path.levels⟩ :=
      ⟨htyped.path.sections, List.forall_mem_cons.mpr ⟨hopened, htyped.path.levels⟩⟩
    have hentered : Track.Counted { z.typed t with
        path := ⟨(z.typed t).path.sections, first :: (z.typed t).path.levels⟩, fresh := none } :=
      ⟨hlevels, by simp⟩
    exact hentered.settle ht hsettle
  · have hjoined : Track.Counted { z.typed t with path } :=
      ⟨htyped.path.join counted_nil hjoin, htyped.fresh⟩
    exact hjoined.settle ht hsettle

theorem Track.Counted.feed {ts} (h : z.Counted) (hfields : ∀ t ∈ ts, t.IsField)
    (hfeed : z.feed ts = some z') : z'.Counted := by
  induction ts generalizing z with
  | nil =>
    cases hfeed
    exact h
  | cons t ts ih =>
    obtain ⟨z₁, hz₁, hfeed⟩ := Option.bind_eq_some_iff.mp hfeed
    exact ih (h.take (hfields t List.mem_cons_self) hz₁)
      (fun u hu => hfields u (List.mem_cons_of_mem _ hu)) hfeed

end

variable {ts : List Token}

theorem Builds.fields_eq (hfields : ∀ t ∈ ts, t.IsField) {msgDef s} (h : Builds d ts msgDef s) :
    s.fields = ts ∧ s.Counted := by
  obtain ⟨z, hfeed, hfresh, rfl, hfinish⟩ := h
  have hz : z.fields = ts := by
    rw [Track.fields_feed hfields hfeed]
    rfl
  have hnew : (Track.new d).Counted := ⟨⟨counted_nil, by simp [Track.new]⟩, by simp [Track.new]⟩
  refine ⟨?_, (hnew.feed hfields hfeed).path.finish counted_nil hfinish⟩
  rw [Path.fields_finish hfinish, ← hz]
  simp [Track.fields, hfresh, Path.fields]

/-! ### What is seen of a message that was read -/

variable {m : Message}

/-- What is seen of a field's value where it stands on the wire. -/
def Message.Shows (m : Message) (R : Bytes → Bytes → Prop) : Prop :=
  ∀ (depth : Nat) {pre post : Bytes} {t : Token}, m.wire = pre ++ (t.text ++ post) →
    R (m.value (t.fieldEntry depth pre.length)) t.value

theorem shown_flat {f} (hfields : ∀ t ∈ fields f, t.IsField) (hcounted : Counted f)
    (hR : m.Shows R) (depth : Nat) (pre post : Bytes) (hwire : m.wire = pre ++ (text f ++ post)) :
    Forall₂ (Shown R) ((flat depth pre.length f).filterMap m.glance) (fields f) := by
  induction f generalizing depth pre post with
  | nil => exact .nil
  | node t c r ihc ihr =>
    obtain ⟨hcount, hbelow, hafter⟩ := hcounted
    rw [fields_node] at hfields ⊢
    rw [text_node] at hwire
    have hc := ihc (fun x hx => hfields x (by simp [hx])) hbelow (t.below depth) (pre ++ t.wire)
      (text r ++ post) (by simp [hwire])
    have hr := ihr (fun x hx => hfields x (by simp [hx])) hafter depth (pre ++ t.wire ++ text c) post
      (by simp [hwire])
    simp only [List.length_append] at hc hr
    rw [flat_node, List.filterMap_cons, List.filterMap_append]
    have hrest := List.rel_append hc hr
    by_cases hinst : t.kind = .inst
    · have hnone : m.glance (t.entry depth pre.length c.roots.length c.size) = none := by
        simp [Message.glance, Token.entry, hinst, Entry.isTagged]
      rw [hnone, Token.own, if_pos hinst]
      exact hrest
    · rw [Token.own, if_neg hinst] at hfields ⊢
      by_cases hgroup : t.kind = .group
      · have hsome : m.glance (t.entry depth pre.length c.roots.length c.size) =
            some ⟨.group, t.tag, 0, none, some (asU32 c.roots.length)⟩ := by
          simp [Message.glance, Token.entry, hgroup, Entry.isTagged, Entry.isField]
        rw [hsome, Token.asField, if_pos hgroup]
        exact .cons (.group _ (hcount hgroup) (Nat.mod_le _ _)) hrest
      · have has : t.asField = t := if_neg hgroup
        rw [has] at hfields ⊢
        have ht := hfields t (by simp)
        have hspan : m.wire = pre ++ (t.text ++ (text c ++ (text r ++ post))) := by
          rw [hwire, Token.wire, if_neg hinst]
          simp
        rw [ht.entry_eq, Message.glance_of_isField (ht.isField_fieldEntry _ _)]
        exact .cons (.field t (hR depth hspan)) hrest

theorem Message.shows_length_le (m : Message) : m.Shows fun v w => v.length ≤ w.length :=
  fun _ _ _ _ _ => (List.length_take_le _ _).trans (Nat.mod_le _ _)

theorem flat_kind_ne_gap {f} (hfields : ∀ t ∈ fields f, t.IsField) (depth pos : Nat) :
    ∀ e ∈ flat depth pos f, e.kind ≠ .gap := by
  induction f generalizing depth pos with
  | nil => simp [flat, lay]
  | node t c r ihc ihr =>
    rw [fields_node] at hfields
    rw [flat_node, List.forall_mem_cons]
    refine ⟨?_, fun e he => ?_⟩
    · have hown := fun x hx => hfields x (List.mem_append_left _ hx)
      cases hkind : t.kind <;>
        simp_all [Token.entry, Token.own, Token.asField, Token.IsField, Token.fieldEntry]
    · rcases List.mem_append.mp he with he | he
      · exact ihc (fun x hx => hfields x (by simp [hx])) _ _ e he
      · exact ihr (fun x hx => hfields x (by simp [hx])) _ _ e he

/-- **What is seen of a message is what it was read from**, and it is compared by what is
seen. -/
theorem shown_message (hfields : ∀ t ∈ ts, t.IsField) {msgDef s} (h : Builds d ts msgDef s)
    (hm : m = s.close.message d msgDef (texts ts)) (hR : m.Shows R) :
    Forall₂ (Shown R) (m.tape.filterMap m.glance) ts ∧
      m.compared.filterMap Seen.flat = (m.tape.filterMap m.glance).filter Message.Compared := by
  obtain ⟨hs, hcounted⟩ := h.fields_eq hfields
  obtain ⟨x, y, z, hclose⟩ : ∃ x y z, s.close = .trailer x y z := by
    cases s <;> exact ⟨_, _, _, rfl⟩
  have hparts : fields x ++ (fields y ++ fields z) = ts ∧ Counted x ∧ Counted y ∧ Counted z := by
    rw [← hs]
    cases s <;> cases hclose <;> simp_all [Sections.fields, Sections.Counted, Counted]
  obtain ⟨rfl, hcx, hcy, hcz⟩ := hparts
  have htape : m.tape = flat 0 0 x ++ ((gapOf headerGap).preorder ++ (flat 0 (text x).length y ++
      flat 0 (text x ++ text y).length z)) := by
    rw [hm, hclose]
    rfl
  have hwire : m.wire = text x ++ (text y ++ text z) := by
    rw [hm]
    simp [Sections.message, text]
  have hx := fun t ht => hfields t (List.mem_append_left _ ht)
  have hy := fun t ht => hfields t (List.mem_append_right _ (List.mem_append_left _ ht))
  have hz := fun t ht => hfields t (List.mem_append_right _ (List.mem_append_right _ ht))
  constructor
  · rw [htape, List.filterMap_append, List.filterMap_append, List.filterMap_append,
      filterMap_glance_gapOf, List.nil_append]
    exact List.rel_append (shown_flat hx hcx hR 0 [] _ hwire)
      (List.rel_append (shown_flat hy hcy hR 0 (text x) _ hwire)
        (shown_flat hz hcz hR 0 (text x ++ text y) [] (by simp [hwire])))
  · refine Message.flat_compared htape (flat_kind_ne_gap hx _ _) fun e he => ?_
    rcases List.mem_append.mp he with he | he
    · exact flat_kind_ne_gap hy _ _ e he
    · exact flat_kind_ne_gap hz _ _ e he

/-! ## One text, one list of fields -/

/-- What stands before the first of a byte is one thing. -/
theorem cut_eq {c : UInt8} {v w x y : Bytes} (hv : c ∉ v) (hw : c ∉ w)
    (h : v ++ c :: x = w ++ c :: y) : v = w ∧ x = y := by
  have hleft : (v ++ c :: x).findIdx? (· == c) = some v.length :=
    findIdx_iff.mpr ⟨v, x, rfl, hv, rfl⟩
  have hright : (w ++ c :: y).findIdx? (· == c) = some w.length :=
    findIdx_iff.mpr ⟨w, y, rfl, hw, rfl⟩
  rw [h, hright] at hleft
  obtain ⟨rfl, hrest⟩ := List.append_inj h (Option.some.inj hleft).symm
  exact ⟨rfl, List.tail_eq_of_cons_eq hrest⟩

variable {delim : UInt8}

section

variable {t u : Token} {r r' : Bytes}

theorem Token.textWith_append (delim : UInt8) (t : Token) (r : Bytes) :
    t.textWith delim ++ r = writeUint t.tag ++ 61 :: (t.value ++ delim :: r) := by
  simp [Token.textWith]

theorem tag_eq_of_textWith (h : t.textWith delim ++ r = u.textWith delim ++ r') :
    t.tag = u.tag ∧ t.value ++ delim :: r = u.value ++ delim :: r' := by
  have hnot (n : Nat) : (61 : UInt8) ∉ writeUint n := by
    intro hmem
    exact absurd (isDigit_of_mem_writeUint hmem).2 (by decide)
  rw [Token.textWith_append, Token.textWith_append] at h
  obtain ⟨htag, hrest⟩ := cut_eq (hnot _) (hnot _) h
  exact ⟨writeUint_injective htag, hrest⟩

theorem tag_eq_of_text (h : t.text ++ r = u.text ++ r') :
    t.tag = u.tag ∧ t.value ++ soh :: r = u.value ++ soh :: r' :=
  tag_eq_of_textWith (show t.textWith soh ++ r = u.textWith soh ++ r' from h)

theorem value_eq_of_text (h : t.text ++ r = u.text ++ r') (ht : soh ∉ t.value)
    (hu : soh ∉ u.value) : t.value = u.value ∧ r = r' :=
  cut_eq ht hu (tag_eq_of_text h).2

end

theorem length_texts_le_of_shortens {us} (h : SublistForall₂ Token.Shortens us ts) :
    (texts us).length ≤ (texts ts).length := by
  induction h with
  | nil => exact Nat.zero_le _
  | cons hshort _ ih =>
    have := hshort.length_le
    simp only [texts_cons, List.length_append, Token.length_text, Token.valOff, hshort.tag]
    omega
  | cons_right _ ih =>
    rw [texts_cons, List.length_append]
    omega

/-- Fields that make the same text as fields of which they are a part are the same: each
takes no more room than the one it was made from. -/
theorem eq_of_shortens {us a b} (h : SublistForall₂ Token.Shortens us ts)
    (htexts : texts us ++ a = texts ts ++ b) (hlen : a.length = b.length) : us = ts := by
  have htotal := congrArg List.length htexts
  rw [List.length_append, List.length_append, hlen] at htotal
  induction h with
  | @nil ts =>
    cases ts with
    | nil => rfl
    | cons t ts =>
      simp only [texts_cons, List.length_append, Token.length_text, texts_nil, List.length_nil] at htotal
      omega
  | @cons u t us ts hshort h ih =>
    have hrest := length_texts_le_of_shortens h
    have hle := hshort.length_le
    rw [texts_cons, texts_cons, List.append_assoc, List.append_assoc] at htexts
    simp only [texts_cons, List.length_append, Token.length_text, Token.valOff, hshort.tag] at htotal
    obtain ⟨hvalue, htail⟩ := List.append_inj (tag_eq_of_text htexts).2 (by omega)
    rw [ih (List.tail_eq_of_cons_eq htail) (by omega)]
    obtain ⟨_, _, _⟩ := u
    obtain ⟨rfl, rfl, -⟩ := hshort
    cases hvalue
    rfl
  | cons_right h _ =>
    have hrest := length_texts_le_of_shortens h
    simp only [texts_cons, List.length_append, Token.length_text] at htotal
    omega

/-! ## Both lists of fields -/

variable {e : Envelope}

/-- MsgType is not data, even if BodyLength were a Length: it would be longer than the
whole body. -/
theorem Envelope.Sound.lexesBy_content (hsound : e.Sound d) (h : LexesBy delim d none e.tokens none) :
    delim ∉ e.begins.value ∧ e.msgType.kind ≠ .data ∧ delim ∉ e.msgType.value ∧
      (∃ pending, e.begins.FollowsBy delim d none pending ∧ e.length.FollowsBy delim d pending none) ∧
      LexesBy delim d none (e.msgType :: (e.content ++ [e.sum])) none := by
  obtain ⟨-, p₁, h₁, -, p₂, h₂, hvalid, p₃, h₃, hrest⟩ := h
  have hbegins : delim ∉ e.begins.value := by
    refine h₁.delim_notMem ?_
    intro hkind
    generalize e.begins = t at h₁ hkind
    cases h₁ <;> cases hkind
  have hkind : e.msgType.kind ≠ .data := by
    intro hkind
    have hlen : ∀ n, parseUint e.length.value = .ok n → e.msgType.value.length < n := by
      intro n hn
      rw [hsound.length_value] at hn
      cases hn
      simp only [body, texts_cons, List.length_append, Token.length_text]
      omega
    generalize e.length = t at h₂ hlen
    generalize e.msgType = u at h₃ hkind hlen
    cases h₃ with
    | data tag value =>
      cases h₂ with
      | length _ hn _ => exact absurd (hlen _ hn) (Nat.lt_irrefl _)
    | length | field => cases hkind
  have hnone : p₂ = none := by
    generalize e.msgType = u at h₃ hkind
    cases h₃ with
    | data => exact absurd rfl hkind
    | length | field => rfl
  rw [hnone] at h₂ h₃
  exact ⟨hbegins, hkind, h₃.delim_notMem hkind, ⟨p₁, h₁, h₂⟩, hvalid, p₃, h₃, hrest⟩

theorem length_sumText (n : Nat) : (sumText n).length = 3 := rfl

theorem not_mem_of_isDigit {value : Bytes} (h : ∀ c ∈ value, IsDigit c) (hdelim : ¬ IsDigit delim) :
    delim ∉ value := fun hmem => hdelim (h delim hmem)

theorem isDigit_of_mem_sumText {n} (h : n < 256) : ∀ c ∈ sumText n, IsDigit c := by
  intro c hc
  simp only [sumText, List.mem_cons, List.not_mem_nil, or_false] at hc
  rcases hc with rfl | rfl | rfl <;> exact isDigit_digit (by omega)

theorem Envelope.Sound.isDigit_of_derived (h : e.Sound d) {t} (ht : t ∈ e.tokens)
    (htag : t.tag = 9 ∨ t.tag = 10) : ∀ c ∈ t.value, IsDigit c := by
  simp only [tokens, head, List.mem_append, List.mem_cons, List.not_mem_nil, or_false] at ht
  rcases ht with (rfl | rfl | rfl | ht) | rfl
  · rw [h.begins_tag] at htag
    omega
  · exact (parseUint_ok h.length_value).2.1
  · rw [h.msgType_tag] at htag
    omega
  · have := h.content_tag t ht
    omega
  · rw [sumText_of_readChecksum h.sum_value]
    exact isDigit_of_mem_sumText (checksumOf_lt _)

variable {m' : Message}

section

variable {m : Message} {d : Dictionary} {header body trailer : Forest Entry} {gap : Nat}
variable {e : Envelope} {msgDef : Option MsgIdx} {s : Sections}

theorem filter_inner (ss : List Seen) :
    (ss.filter Message.Compared).filter Seen.Inner = ss.filter Seen.Inner := by
  rw [List.filter_filter]
  refine List.filter_congr fun s _ => ?_
  unfold Seen.Inner
  cases Message.Compared s <;> simp

theorem token_msgType {x} (h : m.Lays m.Spells header gap body trailer) (hx : x ∈ m.visit)
    (hkind : x.2.kind ≠ .group) (htag : x.2.tag = 35) {ss}
    (hseen : (m.tape.filterMap m.glance).filter Message.Compared = ss.filter Message.Compared)
    (hshown : Forall₂ (Shown R) ss e.tokens) (he : e.Tagged) :
    x.2.kind = e.msgType.kind ∧ R (m.value x.2) e.msgType.value := by
  have hmem : (⟨x.2.kind, x.2.tag, 0, some (m.value x.2), none⟩ : Seen) ∈
      (m.tape.filterMap m.glance).filter Message.Compared := by
    rw [List.mem_filter, List.mem_filterMap]
    refine ⟨⟨x.2, (h.mem_visit hx).1, Message.glance_of_isField (h.isField_of_mem_visit hx hkind)⟩, ?_⟩
    simp [Message.Compared, htag]
  rw [hseen, List.mem_filter] at hmem
  obtain ⟨t, ht, hkind, htag', hle⟩ := exists_of_value hshown hmem.1 rfl
  simp only [Envelope.tokens, Envelope.head, List.mem_append, List.mem_cons, List.not_mem_nil,
    or_false] at ht
  dsimp only at htag'
  rcases ht with (rfl | rfl | rfl | ht) | rfl
  · have := he.begins_tag
    omega
  · have := he.length_tag
    omega
  · exact ⟨hkind.symm, hle⟩
  · exact absurd (htag'.trans htag) (he.content_tag _ ht).2.2.1
  · have := he.sum_tag
    omega

theorem framed_eq {body} (hsound : e.Sound d) (hlexes : LexesBy soh d none e.tokens none)
    (h : texts (framed d body) = texts e.tokens) :
    e.length.value = writeUint (texts body).length ∧ ∃ a : Token,
      framed d body = frameStart d body ++ body ++ [a] ∧ a.tag = 10 ∧ soh ∉ a.value ∧
      a.text.length = e.sum.text.length ∧
      texts body ++ a.text = e.msgType.text ++ (texts e.content ++ e.sum.text) := by
  obtain ⟨hbegins, -⟩ := hsound.lexesBy_content hlexes
  have hlt := checksumOf_lt (texts (frameStart d body ++ body))
  have hsum := sumText_of_readChecksum hsound.sum_value
  simp only [framed, frameStart, Envelope.tokens, Envelope.head, texts_append, texts_cons, texts_nil,
    List.append_nil, List.cons_append, List.nil_append] at h
  obtain ⟨-, h⟩ := value_eq_of_text h (by rw [← hsound.begins_value]; exact hbegins) hbegins
  have hdigits : soh ∉ e.length.value :=
    not_mem_of_isDigit (parseUint_ok hsound.length_value).2.1 (by decide)
  obtain ⟨hlength, h⟩ := value_eq_of_text h (soh_notMem_writeUint _) hdigits
  refine ⟨hlength.symm, _, rfl, rfl, soh_notMem_sumText _ hlt, ?_, h⟩
  rw [Token.length_text, Token.length_text, hsum]
  simp only [Token.valOff, hsound.sum_tag, length_sumText]

end

/-- **The fields that are written are those that are read back**, if what is read back is
the message. -/
theorem visited_eq {header body trailer gap} (h : m.Lays m.Spells header gap body trailer)
    (hframing : ∀ e ∈ m.tape, e.isTagged → e.tag ∈ framingTags → e.kind ≠ .group ∧ e.depth = 0)
    (hparse : Message.parse m.dict (m.encodeDelimited [] soh) = .ok m')
    (heq : m'.compared = m.compared) :
    ∃ (e : Envelope) (msgDef : Option MsgIdx) (s : Sections), e.Sound m.dict ∧
      LexesBy soh m.dict none e.tokens none ∧ Builds m.dict e.tokens msgDef s ∧ s.close.Typed msgDef ∧
      m' = s.close.message m.dict msgDef (texts e.tokens) ∧ m.visited = e.msgType :: e.content ∧
      ∀ delim, textsWith delim (framed m.dict m.visited) = textsWith delim e.tokens := by
  have hencode := encodeDelimited_eq (fun _ => h.of_mem_visit) [] soh
  obtain ⟨e, msgDef, s, htext, hsound, hlexes, hbuilds, htyped, hm'⟩ := parse_iff.mp hparse
  rw [htext] at hm'
  rw [hencode] at htext
  obtain ⟨hshown, hcompared⟩ := shown_message hlexes.isField hbuilds hm' m'.shows_length_le
  have hseen : (m.tape.filterMap m.glance).filter Message.Compared =
      (m'.tape.filterMap m'.glance).filter Message.Compared := by
    rw [← h.flat_compared, ← hcompared, heq]
  obtain ⟨-, -, hmsgType, -⟩ := hsound.lexesBy_content hlexes
  obtain ⟨hlength, a, hframed, hatag, hasoh, halen, hrest⟩ := framed_eq hsound hlexes htext
  -- MsgType is the first field that is written
  cases hvisited : m.visited with
  | nil =>
    rw [hvisited] at hrest
    have := congrArg List.length hrest
    simp only [texts_nil, List.nil_append, List.length_append, halen, Token.length_text] at this
    omega
  | cons v vs =>
    rw [hvisited, texts_cons, List.append_assoc] at hrest
    have hvtag : v.tag = 35 := by rw [(tag_eq_of_text hrest).1, hsound.msgType_tag]
    obtain ⟨x, hx, hv⟩ : ∃ x ∈ m.visit, m.token x = v := by
      rw [← List.mem_map]
      change v ∈ m.visited
      rw [hvisited]
      exact List.mem_cons_self
    have hxtag : x.2.tag = 35 := by rw [← m.token_tag, hv, hvtag]
    obtain ⟨hmem, htagged⟩ := h.mem_visit hx
    have hgroup := (hframing x.2 hmem htagged (by simp [framingTags, hxtag])).1
    obtain ⟨hkind, hle⟩ := token_msgType h hx hgroup hxtag hseen hshown hsound.toTagged
    rw [Message.token, if_neg hgroup] at hv
    subst hv
    -- it ends where the one that was read ends, which does not contain SOH
    have hvsoh : soh ∉ m.value x.2 := by
      have hinitial : m.value x.2 <+: e.msgType.value :=
        List.prefix_of_prefix_length_le ⟨_, (tag_eq_of_text hrest).2⟩ (List.prefix_append _ _) hle
      exact fun hmem => hmsgType (hinitial.subset hmem)
    obtain ⟨hvalue, hrest⟩ := value_eq_of_text hrest hvsoh hmsgType
    have hfirst : (⟨x.2.kind, x.2.tag, m.value x.2⟩ : Token) = e.msgType := by
      have htag := hsound.msgType_tag
      generalize e.msgType = t at hkind hvalue htag
      obtain ⟨_, _, _⟩ := t
      dsimp only at hkind hvalue htag hxtag
      rw [hkind, hxtag, hvalue, htag]
    -- the others are written for what is seen, and make as long a text as what was read
    have hshort : SublistForall₂ Token.Shortens vs e.content := by
      have hrendered := h.rendered
      rw [hvisited, List.filter_cons_of_neg (by simp [Token.inner, framingTags, hxtag]),
        ← filter_inner, hseen, filter_inner,
        List.filter_eq_self.mpr (h.inner_of_visited hframing hvisited hvtag)] at hrendered
      have hinner := (List.sublistForall₂_iff.mpr ⟨_, hshown, .refl _⟩).filter Shown.inner
      have hfilter : e.tokens.filter Token.inner = e.content := hsound.toTagged.filter_tokens
      rw [hfilter] at hinner
      exact hrendered.comp hinner fun hwritten hseen => hwritten.shortens hseen id
    obtain rfl := eq_of_shortens hshort hrest halen
    have hsum : a.value = e.sum.value := by
      have hsumsoh : soh ∉ e.sum.value := by
        rw [sumText_of_readChecksum hsound.sum_value]
        exact soh_notMem_sumText _ (checksumOf_lt _)
      have hlast : a.text ++ [] = e.sum.text ++ [] := by
        simpa using List.append_cancel_left hrest
      exact (value_eq_of_text hlast hasoh hsumsoh).1
    rw [hfirst] at hvisited ⊢
    refine ⟨e, msgDef, s, hsound, hlexes, hbuilds, htyped, hm', rfl, fun delim => ?_⟩
    rw [hvisited] at hframed hlength
    rw [hframed]
    simp only [frameStart, Envelope.tokens, Envelope.head, textsWith_append, textsWith_cons,
      textsWith_nil, Token.textWith, hatag, hsum, hsound.begins_tag, hsound.begins_value,
      hsound.length_tag, hlength, hsound.sum_tag, List.append_nil, List.append_assoc,
      List.cons_append, List.nil_append]

/-- **With another delimiter, too, what is written is read back as the message**, if the
delimiter is in no value that is not data. -/
theorem parseDelimited_encodeDelimited {header body trailer gap}
    (h : m.Lays m.Spells header gap body trailer)
    (hframing : ∀ e ∈ m.tape, e.isTagged → e.tag ∈ framingTags → e.kind ≠ .group ∧ e.depth = 0)
    (hparse : Message.parse m.dict (m.encodeDelimited [] soh) = .ok m')
    (heq : m'.compared = m.compared) (hdigit : ¬ IsDigit delim) (hbegin : delim ∉ m.dict.beginString)
    (hvalues : ∀ e ∈ m.tape, e.isField → e.kind ≠ .data → delim ∉ m.value e) :
    ∃ e : Envelope, e.Sound m.dict ∧
      (∀ out, m.encodeDelimited out delim = out ++ textsWith delim e.tokens) ∧
      Message.parseDelimited m.dict (textsWith delim e.tokens) delim = .ok m' := by
  obtain ⟨e, msgDef, s, hsound, hlexes, hbuilds, htyped, rfl, hvisited, htexts⟩ :=
    visited_eq h hframing hparse heq
  have hwritten : ∀ t ∈ e.msgType :: e.content, t.kind ≠ .data → delim ∉ t.value := by
    rw [← hvisited]
    intro t ht hdata
    obtain ⟨x, hx, rfl⟩ := List.mem_map.mp ht
    by_cases hkind : x.2.kind = .group
    · rw [Message.token, if_pos hkind]
      exact not_mem_of_isDigit (fun c hc => isDigit_of_mem_writeUint hc) hdigit
    · rw [Message.token, if_neg hkind] at hdata ⊢
      exact hvalues x.2 (h.mem_visit hx).1 (h.isField_of_mem_visit hx hkind) hdata
  refine ⟨e, hsound, fun out => by rw [encodeDelimited_eq fun _ => h.of_mem_visit, htexts],
    parseDelimited_textsWith hsound hlexes hbuilds htyped ?_⟩
  intro t ht hdata
  simp only [Envelope.tokens, Envelope.head, List.mem_append, List.mem_cons, List.not_mem_nil,
    or_false] at ht
  rcases ht with (rfl | rfl | ht) | rfl
  · rw [hsound.begins_value]
    exact hbegin
  · exact not_mem_of_isDigit (parseUint_ok hsound.length_value).2.1 hdigit
  · exact hwritten t (List.mem_cons.mpr ht) hdata
  · rw [sumText_of_readChecksum hsound.sum_value]
    exact not_mem_of_isDigit (isDigit_of_mem_sumText (checksumOf_lt _)) hdigit

end Babelfix.Tape
