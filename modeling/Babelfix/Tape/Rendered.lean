import Babelfix.Lib.Sublist
import Babelfix.Tape.Finished
import Babelfix.Tape.Reencode

/-! # Writing with any delimiter

What a message with a well-formed tape is written as is a list of fields in a frame, for
any delimiter. If these fields, written with SOH, are read as a message equal to the one
that was written, then they are the fields that were read: a field whose value contains
SOH but is not data, or a Length whose data is not as long as it says, would have been
seen differently. So the delimiter does not matter. -/
namespace Babelfix.Tape

open Lib
open List (SublistForall₂)

/-! ## What is written -/

namespace Message

/-- The field that is written for an entry that is visited. -/
def token (m : Message) (x : Nat × Entry) : Token :=
  if x.2.kind = .group then ⟨.field, x.2.tag, writeUint (m.liveInstances x.1)⟩
  else ⟨x.2.kind, x.2.tag, m.value x.2⟩

theorem token_tag (m : Message) (x : Nat × Entry) : (m.token x).tag = x.2.tag := by
  unfold token
  split <;> rfl

theorem token_field (m : Message) {e} (hfield : e.isField) (i : Nat) :
    m.token (i, e) = ⟨e.kind, e.tag, m.value e⟩ := if_neg (Entry.kind_ne_group hfield)

theorem token_group (m : Message) {e} (hkind : e.kind = .group) (i : Nat) :
    m.token (i, e) = ⟨.field, e.tag, writeUint (m.liveInstances i)⟩ := if_pos hkind

/-- The fields written between BodyLength and CheckSum. -/
def visited (m : Message) : List Token := m.visit.map m.token

end Message

/-- The fields before those of `body`. -/
def frameStart (d : Dictionary) (body : List Token) : List Token :=
  [⟨.field, 8, d.beginString⟩, ⟨.field, 9, writeUint (texts body).length⟩]

def framed (d : Dictionary) (body : List Token) : List Token :=
  frameStart d body ++ body ++
    [⟨.field, 10, sumText (checksumOf (texts (frameStart d body ++ body)))⟩]

variable {x : Nat × Entry} {e : Entry}

section

variable {m : Message}

theorem written_eq_text (h : x.2.kind ≠ .group → m.Spells x.2) :
    m.written x = (m.token x).text := by
  unfold Message.written Message.token
  split
  · rfl
  · rename_i hkind
    exact (h hkind).text

theorem flatMap_written {xs : List (Nat × Entry)} (h : ∀ x ∈ xs, x.2.kind ≠ .group → m.Spells x.2) :
    xs.flatMap m.written = texts (xs.map m.token) := by
  induction xs with
  | nil => rfl
  | cons x xs ih =>
    rw [List.flatMap_cons, written_eq_text (h x List.mem_cons_self),
      ih fun y hy => h y (List.mem_cons_of_mem _ hy), List.map_cons, texts_cons]

theorem flatMap_eq_textsWith {xs : List (Nat × Entry)} (delim : UInt8) {f}
    (h : ∀ x ∈ xs, f x = (m.token x).textWith delim) :
    xs.flatMap f = textsWith delim (xs.map m.token) := by
  induction xs with
  | nil => rfl
  | cons x xs ih =>
    rw [List.flatMap_cons, h x List.mem_cons_self, ih fun y hy => h y (List.mem_cons_of_mem _ hy),
      List.map_cons, textsWith_cons]

theorem Message.Spells.textWith (h : m.Spells e) (delim : UInt8) :
    (m.spanBytes e).dropLast ++ [delim] = Token.textWith delim ⟨e.kind, e.tag, m.value e⟩ := by
  have hsplit : writeUint e.tag ++ 61 :: (m.value e ++ [soh]) =
      (writeUint e.tag ++ 61 :: m.value e) ++ [soh] := by simp
  rw [h.text, hsplit, List.dropLast_concat, Token.textWith]
  simp

/-- **What is written with a delimiter: the visited fields in a frame.** -/
theorem encodeDelimited_eq (h : ∀ x ∈ m.visit, x.2.kind ≠ .group → m.Spells x.2) (out : Bytes)
    (delim : UInt8) :
    m.encodeDelimited out delim = out ++ textsWith delim (framed m.dict m.visited) := by
  have hbody := flatMap_written h
  have hlen : (m.pieces.map Piece.len).sum = (texts m.visited).length := by
    rw [Message.pieces_len, hbody]
    rfl
  obtain ⟨h8, h9, h10⟩ := ascii_framing
  have hstart : ascii "8=" ++ m.dict.beginString ++ delim :: (ascii "9=" ++
      writeUint (texts m.visited).length ++ [delim]) = textsWith delim (frameStart m.dict m.visited) := by
    simp [frameStart, Token.textWith, h8, h9]
  have hsum : sohChecksum (textsWith delim (frameStart m.dict m.visited) ++ textsWith delim m.visited)
      (if delim = soh then 2 else 2 + m.visit.length) delim =
        checksumOf (texts (frameStart m.dict m.visited ++ m.visited)) := by
    rw [← textsWith_append]
    split
    · rename_i hdelim
      rw [hdelim, sohChecksum_soh, textsWith_soh]
    · have hcount : 2 + m.visit.length = (frameStart m.dict m.visited ++ m.visited).length := by
        simp [frameStart, Message.visited]
        omega
      rw [hcount, sohChecksum_textsWith]
  have hframe : out ++ textsWith delim (framed m.dict m.visited) =
      out ++ textsWith delim (frameStart m.dict m.visited) ++ textsWith delim m.visited ++ ascii "10=" ++
        [48 + UInt8.ofNat (checksumOf (texts (frameStart m.dict m.visited ++ m.visited)) / 100),
          48 + UInt8.ofNat (checksumOf (texts (frameStart m.dict m.visited ++ m.visited)) / 10 % 10),
          48 + UInt8.ofNat (checksumOf (texts (frameStart m.dict m.visited ++ m.visited)) % 10),
          delim] := by
    rw [h10]
    simp [framed, Token.textWith, sumText]
  rw [hframe]
  unfold Message.encodeDelimited
  dsimp only
  rw [hlen, hstart]
  by_cases hdelim : delim = soh
  · rw [if_pos hdelim] at hsum ⊢
    have hput : m.pieces.flatMap Piece.put = textsWith delim m.visited := by
      rw [Message.pieces_flatMap, hbody, hdelim, textsWith_soh]
      rfl
    rw [hput, if_pos hdelim, hsum]
  · rw [if_neg hdelim] at hsum ⊢
    rw [flatMap_eq_textsWith (m := m) delim fun x hx => ?_]
    · rw [if_neg hdelim, show m.visit.map m.token = m.visited from rfl, hsum]
    · unfold Message.token
      by_cases hkind : x.2.kind = .group
      · rw [if_pos hkind, hkind]
        rfl
      · rw [if_neg hkind, ← (h x hx hkind).textWith]
        split
        · rename_i hgroup
          exact absurd hgroup hkind
        · rfl

end

/-! ## What is seen, without nesting -/

/-- What is seen of a field or a group, wherever it is. -/
def Seen.flat (s : Seen) : Option Seen :=
  if s.kind = .inst ∨ s.kind = .gap then none else some { s with depth := 0 }

namespace Message

/-- What is seen of an entry, wherever it is. -/
def glance (m : Message) (e : Entry) : Option Seen :=
  if e.isTagged then
    some ⟨e.kind, e.tag, 0, if e.isField then some (m.value e) else none,
      if e.kind = .group then some e.off else none⟩
  else none

variable {m : Message}

theorem flat_see (i : Nat) : (m.see i).flat = m.glance (entryAt m.tape i) := by
  cases h : (entryAt m.tape i).kind <;>
    simp [Seen.flat, see, tagAt, glance, Entry.isTagged, h]

theorem glance_of_isField (h : e.isField) :
    m.glance e = some ⟨e.kind, e.tag, 0, some (m.value e), none⟩ := by
  unfold Entry.isField at h
  cases hkind : e.kind <;> simp_all [glance, Entry.isTagged, Entry.isField]

theorem glance_of_group (h : e.kind = .group) :
    m.glance e = some ⟨.group, e.tag, 0, none, some e.off⟩ := by
  simp [glance, Entry.isTagged, Entry.isField, h]

theorem glance_of_inst (h : e.kind = .inst) : m.glance e = none := by
  simp [glance, Entry.isTagged, h]

/-- Whether something is compared does not depend on its depth. -/
theorem filterMap_flat_filter (ss : List Seen) :
    (ss.filter Compared).filterMap Seen.flat = (ss.filterMap Seen.flat).filter Compared := by
  induction ss with
  | nil => rfl
  | cons s ss ih =>
    have hflat : ∀ x, s.flat = some x → Compared x = Compared s := by
      intro x hx
      unfold Seen.flat at hx
      split at hx
      · cases hx
      · cases hx
        rfl
    rw [List.filter_cons, List.filterMap_cons]
    cases hs : s.flat with
    | none =>
      split
      · rw [List.filterMap_cons, hs]
        exact ih
      · exact ih
    | some x =>
      rw [List.filter_cons, hflat x hs]
      split
      · rw [List.filterMap_cons, hs, ih]
      · exact ih

end Message

variable {f : Forest Entry} {P : Entry → Prop} {insts : Bool} {depth : Nat}

theorem walkUpTo_entries {es : List Entry} (hes : ∀ e ∈ es, e.kind ≠ .gap) (pre : List Entry) {post tape}
    (htape : tape = pre ++ (es ++ post)) (fuel : Nat) :
    (walkUpTo tape (es.length + fuel) pre.length).map (entryAt tape) =
      es ++ (walkUpTo tape fuel (pre ++ es).length).map (entryAt tape) := by
  induction es generalizing pre with
  | nil => simp
  | cons e es ih =>
    have hafter := ih (fun x hx => hes x (List.mem_cons_of_mem _ hx)) (pre ++ [e]) (by simp [htape])
    have hentry : entryAt tape pre.length = e := by rw [htape, List.cons_append, entryAt_length]
    have hkind := hes e List.mem_cons_self
    rw [List.length_cons, show es.length + 1 + fuel = es.length + fuel + 1 by omega, walkUpTo,
      if_pos (by simp [htape]), hentry]
    dsimp only
    split
    · exact absurd ‹_› hkind
    · rw [List.map_cons, hentry, (length_below pre e .nil).1, hafter]
      simp

theorem walkUpTo_end (tape : List Entry) (fuel : Nat) : walkUpTo tape fuel tape.length = [] := by
  cases fuel with
  | zero => rfl
  | succ fuel => rw [walkUpTo, if_neg (Nat.lt_irrefl _)]

theorem filterMap_glance_gapOf (m : Message) (gap : Nat) :
    (gapOf gap).preorder.filterMap m.glance = [] := by
  cases gap with
  | zero => rfl
  | succ n =>
    rw [gapOf, Forest.preorder_node, preorder_slots, List.filterMap_cons]
    simp [Message.glance, Entry.isTagged, Entry.gap]

variable {m : Message}

/-- **What a message is compared by, without nesting, is what is seen of its entries**,
wherever its groups say they end. -/
theorem Message.flat_compared {es fs : List Entry} {gap : Nat}
    (htape : m.tape = es ++ ((gapOf gap).preorder ++ fs)) (hes : ∀ e ∈ es, e.kind ≠ .gap)
    (hfs : ∀ e ∈ fs, e.kind ≠ .gap) :
    m.compared.filterMap Seen.flat = (m.tape.filterMap m.glance).filter Message.Compared := by
  have hafter : ∀ fuel, fs.length ≤ fuel →
      (walkUpTo m.tape fuel (es ++ (gapOf gap).preorder).length).map (entryAt m.tape) = fs := by
    intro fuel hfuel
    obtain ⟨extra, rfl⟩ := Nat.exists_eq_add_of_le hfuel
    have hall : (es ++ (gapOf gap).preorder ++ fs).length = m.tape.length := by simp [htape]
    have hrest : m.tape = (es ++ (gapOf gap).preorder) ++ (fs ++ []) := by simp [htape]
    rw [walkUpTo_entries hfs _ hrest, hall, walkUpTo_end]
    simp
  have hentries : m.walk.map (entryAt m.tape) = es ++ fs := by
    have hlen : m.tape.length = es.length + (gap + fs.length) := by simp [htape]
    change (walkUpTo m.tape m.tape.length ([] : List Entry).length).map _ = _
    rw [hlen, walkUpTo_entries hes [] htape, List.nil_append]
    congr 1
    cases gap with
    | zero => simpa [gapOf] using hafter (0 + fs.length) (by omega)
    | succ n =>
      have hentry : entryAt m.tape es.length = .gap (n + 1) := by
        rw [htape, gapOf, Forest.preorder_node, List.cons_append, entryAt_length]
      rw [show n + 1 + fs.length = n + fs.length + 1 by omega, walkUpTo, if_pos (by omega), hentry]
      simpa [Entry.gap, Entry.span] using hafter (n + fs.length) (by omega)
  have hflat : (m.walk.map m.see).filterMap Seen.flat =
      (m.walk.map (entryAt m.tape)).filterMap m.glance := by
    rw [List.filterMap_map, List.filterMap_map]
    exact List.filterMap_congr fun i _ => m.flat_see i
  rw [Message.compared, Message.filterMap_flat_filter, hflat, hentries, htape]
  simp [filterMap_glance_gapOf]

theorem Message.Lays.flat_compared {header body trailer gap} (h : m.Lays P header gap body trailer) :
    m.compared.filterMap Seen.flat = (m.tape.filterMap m.glance).filter Message.Compared := by
  have htape : m.tape = header.preorder ++ ((gapOf gap).preorder ++ (body.preorder ++ trailer.preorder)) := by
    simp [h.tape]
  refine Message.flat_compared htape h.header.preorder_ne_gap fun e he => ?_
  rcases List.mem_append.mp he with he | he
  · exact h.body.preorder_ne_gap e he
  · exact h.trailer.preorder_ne_gap e he

/-! ## From what is seen to what is written -/

/-- The field that is written for what is seen. A group says how many of its instances are
written. -/
inductive Rendered : Token → Seen → Prop
  | field (t : Token) : Rendered t ⟨t.kind, t.tag, 0, some t.value, none⟩
  | group (tag : Nat) {n k : Nat} (hpos : 0 < k) (hle : k ≤ n) :
      Rendered ⟨.field, tag, writeUint k⟩ ⟨.group, tag, 0, none, some n⟩

/-- Compared, and not written apart. -/
def Seen.Inner (s : Seen) : Bool := Message.Compared s && decide (s.tag ∉ framingTags)

/-- Not written apart. -/
def Token.inner (t : Token) : Bool := decide (t.tag ∉ framingTags)

theorem ne_of_notMem_framingTags {tag} (h : tag ∉ framingTags) : tag ≠ 9 ∧ tag ≠ 10 := by
  simp only [framingTags, List.mem_cons, List.not_mem_nil, or_false, not_or] at h
  omega

theorem Rendered.inner {t s} (h : Rendered t s) (ht : t.inner) : s.Inner := by
  have htag : t.tag ∉ framingTags := of_decide_eq_true ht
  have hne := ne_of_notMem_framingTags htag
  cases h with
  | field t => simp [Seen.Inner, Message.Compared, htag, hne]
  | group tag hpos hle =>
    have hn := Nat.ne_of_gt (hpos.trans_le hle)
    dsimp only at htag hne
    simp [Seen.Inner, Message.Compared, htag, hne, hn]

theorem Shaped.live_le (h : Shaped P insts depth f) : live f ≤ f.roots.length := by
  induction h with
  | nil => exact Nat.le_refl _
  | field _ _ _ _ ih | group _ _ _ _ _ _ _ ih | inst _ _ _ _ _ _ ih =>
    rw [live, Forest.roots_node, List.length_cons]
    split <;> omega

theorem visits_field {e} (hfield : e.isField) (pre : List Entry) (r : Forest Entry) :
    visits pre.length (.node e .nil r) =
      (if e.IsFraming then [] else [(pre.length, e)]) ++ visits (pre ++ [e]).length r := by
  rw [visits]
  unfold Entry.isField at hfield
  cases hk : e.kind <;> simp_all

theorem visits_blocks (header body trailer : Forest Entry) (gap : Nat) :
    visits 0 (header ++ (gapOf gap ++ (body ++ trailer))) = visits 0 header ++
      (visits (header ++ gapOf gap).preorder.length body ++
        visits (header ++ (gapOf gap ++ body)).preorder.length trailer) := by
  have hgap (i : Nat) : visits i (gapOf gap) = [] := by
    cases gap <;> rfl
  rw [visits_append, visits_append, visits_append, hgap]
  simp [Nat.add_assoc]

/-- **What is visited is written for what is seen.** Groups of which nothing is written are
left out. -/
theorem Shaped.rendered (h : Shaped P insts depth f) (pre : List Entry) {post}
    (htape : m.tape = pre ++ (f.preorder ++ post)) :
    SublistForall₂ Rendered ((visits pre.length f).map m.token) (f.preorder.filterMap m.glance) := by
  induction h generalizing pre post with
  | nil => exact .nil
  | @field depth e r hfield _ _ _ ih =>
    obtain ⟨-, hafter⟩ := split_node htape
    have hrest := ih _ hafter
    rw [visits_field hfield, Forest.preorder_node, List.filterMap_cons, Message.glance_of_isField hfield,
      List.map_append]
    dsimp only
    split
    · exact .cons_right hrest
    · rw [List.map_singleton, m.token_field hfield]
      exact .cons (.field _) hrest
  | @group depth e c r hkind _ hcount hspan hc hr ihc ihr =>
    obtain ⟨hbelow, hafter⟩ := split_node htape
    have hrest := ihr _ hafter
    have hinside := ihc _ hbelow
    have hle := hc.live_le
    rw [visits, hkind, (length_below pre e c).1, (length_below pre e c).2, Forest.preorder_node,
      List.filterMap_cons, Message.glance_of_group hkind, List.filterMap_append, List.map_append]
    dsimp only
    split
    · exact .cons_right (.append .nil hrest)
    · rw [List.map_cons, m.token_group hkind,
        liveInstances_node htape ⟨Entry.span_group hkind hspan, hc.fits, hr.fits⟩]
      exact .cons (.group _ (by omega) (by omega)) (hinside.append hrest)
  | @inst depth e c r hkind _ hspan hc hr ihc ihr =>
    obtain ⟨hbelow, hafter⟩ := split_node htape
    rw [visits, hkind, (length_below pre e c).1, (length_below pre e c).2, Forest.preorder_node,
      List.filterMap_cons, Message.glance_of_inst hkind, List.filterMap_append, List.map_append]
    exact (ihc _ hbelow).append (ihr _ hafter)

theorem visit_eq (m : Message) :
    ∃ first, m.visit = first ++ visitUpTo m.tape m.liveInstances m.tape.length 0 ∧ first.length ≤ 1 ∧
      ∀ x ∈ first, x.2 ∈ m.tape ∧ x.2.tag = 35 ∧ x.2.isTagged := by
  have hscan : ∀ {fuel i stop j : Nat}, scanUpTo m.tape 35 fuel i stop = some j →
      (entryAt m.tape j).tag = 35 ∧ (entryAt m.tape j).isTagged := by
    intro fuel
    induction fuel with
    | zero =>
      intro i stop j h
      cases h
    | succ fuel ih =>
      intro i stop j h
      rw [scanUpTo] at h
      split at h
      · dsimp only at h
        split at h
        · rename_i hfound
          cases h
          exact hfound
        · exact ih h
      · cases h
  rw [Message.visit]
  split
  · rename_i i hi
    refine ⟨[(i, entryAt m.tape i)], rfl, Nat.le_refl _, ?_⟩
    simp only [List.mem_singleton, forall_eq]
    rw [Message.findIn] at hi
    simp only [Option.filter_none, Option.getD_none, Nat.lt_irrefl, if_false] at hi
    have hfound : m.scan 0 m.bodyStart 35 = some i := by
      split at hi
      · rename_i hscan
        rw [hscan, hi]
      · cases hi
    obtain ⟨htag, htagged⟩ := hscan hfound
    refine ⟨?_, htag, htagged⟩
    by_contra hmem
    have hdefault : entryAt m.tape i = {} := by
      unfold entryAt at hmem ⊢
      cases hget : m.tape[i]? with
      | none => rfl
      | some e =>
        rw [hget] at hmem
        exact absurd (List.mem_of_getElem? hget) hmem
    rw [hdefault] at htag
    cases htag
  · exact ⟨[], rfl, by simp, by simp⟩

theorem mem_visits {i} (h : x ∈ visits i f) :
    x.2 ∈ f.preorder ∧ x.2.isTagged ∧ (x.2.kind ≠ .group → ¬ x.2.IsFraming) := by
  induction f generalizing i with
  | nil => simp [visits] at h
  | node e c r ihc ihr =>
    rw [visits, List.mem_append] at h
    rw [Forest.preorder_node, List.mem_cons, List.mem_append]
    rcases h with h | h
    · split at h
      · simp at h
      · exact ⟨.inr (.inl (ihc h).1), (ihc h).2⟩
      · rename_i hkind
        split at h
        · simp at h
        · rcases List.mem_cons.mp h with rfl | h
          · exact ⟨.inl rfl, by simp [Entry.isTagged, hkind], fun hne => absurd hkind hne⟩
          · exact ⟨.inr (.inl (ihc h).1), (ihc h).2⟩
      · rename_i hgap hinst hgroup
        split at h
        · simp at h
        · rename_i hframing
          rw [List.mem_singleton] at h
          subst h
          refine ⟨.inl rfl, ?_, fun _ => hframing⟩
          cases hkind : e.kind <;> simp_all [Entry.isTagged]
    · exact ⟨.inr (.inr (ihr h).1), (ihr h).2⟩

theorem Shaped.of_isField (h : Shaped P insts depth f) : ∀ e ∈ f.preorder, e.isField → P e := by
  induction h with
  | nil => simp
  | field hfield hdepth hP _ ih =>
    intro x hx hxf
    rw [Forest.preorder_node, List.mem_cons, List.mem_append] at hx
    rcases hx with rfl | hx | hx
    · exact hP
    · simp at hx
    · exact ih x hx hxf
  | group hkind _ _ _ _ _ ihc ihr | inst hkind _ _ _ _ ihc ihr =>
    intro x hx hxf
    rw [Forest.preorder_node, List.mem_cons, List.mem_append] at hx
    rcases hx with rfl | hx | hx
    · simp [Entry.isField, hkind] at hxf
    · exact ihc x hx hxf
    · exact ihr x hx hxf

theorem not_isTagged_of_mem_gapOf {gap} (h : e ∈ (gapOf gap).preorder) : ¬ e.isTagged := by
  cases gap with
  | zero => simp [gapOf] at h
  | succ n =>
    rw [gapOf, Forest.preorder_node, preorder_slots] at h
    simp only [Forest.preorder_nil, List.append_nil, List.mem_cons, List.mem_replicate] at h
    rcases h with rfl | ⟨-, rfl⟩ <;> simp [Entry.isTagged, Entry.gap]

namespace Message.Lays

variable {m : Message} {P : Entry → Prop} {header body trailer : Forest Entry} {gap : Nat}

section
variable (h : m.Lays P header gap body trailer)
include h

/-- Every field of the tape satisfies what the forest's fields do. -/
theorem of_isField (he : e ∈ m.tape) (hfield : e.isField) : P e := by
  rw [h.tape] at he
  simp only [Forest.preorder_append, List.mem_append] at he
  rcases he with he | he | he | he
  · exact h.header.of_isField e he hfield
  · exact absurd (Entry.isTagged_of_isField hfield) (not_isTagged_of_mem_gapOf he)
  · exact h.body.of_isField e he hfield
  · exact h.trailer.of_isField e he hfield

theorem visitUpTo_eq : visitUpTo m.tape m.liveInstances m.tape.length 0 =
    visits 0 (header ++ (gapOf gap ++ (body ++ trailer))) := by
  have htape : m.tape = [] ++ (header ++ (gapOf gap ++ (body ++ trailer))).preorder := h.tape
  exact Tape.visitUpTo_eq h.fits (by simp [h.tape]) htape

theorem visit_eq :
    ∃ first, m.visit = first ++ visits 0 (header ++ (gapOf gap ++ (body ++ trailer))) ∧
      first.length ≤ 1 ∧ ∀ x ∈ first, x.2 ∈ m.tape ∧ x.2.tag = 35 ∧ x.2.isTagged := by
  obtain ⟨first, heq, hfirst⟩ := Tape.visit_eq m
  exact ⟨first, by rw [heq, h.visitUpTo_eq], hfirst⟩

theorem mem_visit (hx : x ∈ m.visit) : x.2 ∈ m.tape ∧ x.2.isTagged := by
  obtain ⟨first, heq, -, hfirst⟩ := h.visit_eq
  rw [heq, List.mem_append] at hx
  rcases hx with hx | hx
  · exact ⟨(hfirst x hx).1, (hfirst x hx).2.2⟩
  · rw [h.tape]
    exact ⟨(mem_visits hx).1, (mem_visits hx).2.1⟩

theorem isField_of_mem_visit (hx : x ∈ m.visit) (hkind : x.2.kind ≠ .group) : x.2.isField := by
  have htagged := (h.mem_visit hx).2
  cases hk : x.2.kind <;> simp_all [Entry.isTagged, Entry.isField]

theorem of_mem_visit (hx : x ∈ m.visit) (hkind : x.2.kind ≠ .group) : P x.2 :=
  h.of_isField (h.mem_visit hx).1 (h.isField_of_mem_visit hx hkind)

/-- If the fields that frame a message are in no group, MsgType is the only one that is
visited. -/
theorem inner_of_visited
    (hframing : ∀ e ∈ m.tape, e.isTagged → e.tag ∈ framingTags → e.kind ≠ .group ∧ e.depth = 0)
    {v vs} (hvisited : m.visited = v :: vs) (hv : v.tag = 35) : ∀ t ∈ vs, t.inner := by
  obtain ⟨first, heq, hlength, -⟩ := h.visit_eq
  have hinner : ∀ t ∈ (visits 0 (header ++ (gapOf gap ++ (body ++ trailer)))).map m.token, t.inner := by
    intro t ht
    obtain ⟨x, hx, rfl⟩ := List.mem_map.mp ht
    obtain ⟨hmem, htagged, hnot⟩ := mem_visits hx
    by_contra hinner
    have htag : x.2.tag ∈ framingTags := by simpa [Token.inner, m.token_tag] using hinner
    obtain ⟨hgroup, hdepth⟩ := hframing x.2 (h.tape ▸ hmem) htagged htag
    refine hnot hgroup ⟨hdepth, ?_⟩
    simp only [framingTags, List.mem_cons, List.not_mem_nil, or_false] at htag
    omega
  rw [Message.visited, heq, List.map_append] at hvisited
  rcases first with _ | ⟨x, _ | ⟨y, first⟩⟩
  · rw [List.map_nil, List.nil_append] at hvisited
    rw [hvisited] at hinner
    exact absurd (hinner v List.mem_cons_self) (by simp [Token.inner, framingTags, hv])
  · obtain ⟨-, rfl⟩ := List.cons.inj hvisited
    exact hinner
  · simp at hlength

/-- **What is written, but for what is written apart, is written for what is compared.** -/
theorem rendered : SublistForall₂ Rendered (m.visited.filter Token.inner)
    ((m.tape.filterMap m.glance).filter Seen.Inner) := by
  obtain ⟨first, heq, -, hfirst⟩ := h.visit_eq
  have hapart : (first.map m.token).filter Token.inner = [] := by
    rw [List.filter_eq_nil_iff]
    intro t ht
    obtain ⟨x, hx, rfl⟩ := List.mem_map.mp ht
    simp [Token.inner, framingTags, m.token_tag, (hfirst x hx).2.1]
  have hall := (h.header.rendered [] h.tape_header).append
    ((h.body.rendered _ h.tape_body).append (h.trailer.rendered _ h.tape_trailer))
  have hseen : m.tape.filterMap m.glance = header.preorder.filterMap m.glance ++
      (body.preorder.filterMap m.glance ++ trailer.preorder.filterMap m.glance) := by
    rw [h.tape]
    simp [filterMap_glance_gapOf]
  rw [Message.visited, heq, List.map_append, List.filter_append, hapart, List.nil_append,
    visits_blocks, hseen, List.map_append, List.map_append]
  exact hall.filter Rendered.inner

end

end Message.Lays

end Babelfix.Tape
