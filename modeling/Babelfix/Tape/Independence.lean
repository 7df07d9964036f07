import Mathlib.Data.List.Chain
import Babelfix.Tape.Framing
import Babelfix.Tape.Redelimited

/-! # Two readers of one message

The fields that a message is written as are found again whatever ends them, or not at
all. Lengths and data are what this rests on: data is taken by its length, so it does not
matter what it contains, and a field that is not data contains neither delimiter. The
fields that frame a message are written apart from where they stand on the tape, so that
a Length and its data must not be among them. -/
namespace Babelfix.Tape

open Lib

/-! ## Fields that are found in one way -/

/-- What a reader expects after a field that is not data. -/
def Token.announcement (d : Dictionary) (t : Token) : Option (Nat × Nat) :=
  match d.kind t.tag with
  | .dataLength data => (parseUint t.value).toOption.map fun n => (data, n)
  | _ => none

/-- Fields that a reader who expects `pending` finds in one way: values satisfy `C`,
which keeps delimiters out of them, but data that is as long as was announced need not.
At the end of the text a delimiter can only be the last byte. -/
def Steady (d : Dictionary) (C : Bytes → Prop) : Option (Nat × Nat) → List Token → Prop
  | _, [] => True
  | none, t :: ts => C t.value ∧ Steady d C (t.announcement d) ts
  | some (tag, n), t :: ts =>
    t.tag = tag → (t.value.length = n ∨ ts = [] ∧ C t.value) ∧ Steady d C none ts

variable {delim : UInt8} {d : Dictionary} {t : Token} {pending : Option (Nat × Nat)}

theorem Token.FollowsBy.announcement_eq {u : Token} (h : u.FollowsBy delim d none pending)
    (htag : t.tag = u.tag) (hvalue : t.value = u.value) : t.announcement d = pending := by
  unfold Token.announcement
  rw [htag, hvalue]
  cases h with
  | length hkind hn _ => simp [hkind, hn, Except.toOption]
  | @field tag value hkind _ =>
    cases hk : d.kind tag with
    | plain => rfl
    | data => rfl
    | dataLength data => exact absurd hk (hkind data)

theorem cut_last {c : UInt8} {v w x : Bytes} (hv : c ∉ v) (h : v ++ [c] = w ++ c :: x) :
    v = w ∧ x = [] := by
  have hlen := congrArg List.length h
  simp only [List.length_append, List.length_cons, List.length_nil] at hlen
  have hw : c ∉ w := by
    intro hmem
    have hsub : w = v.take w.length := by
      have := congrArg (List.take w.length) h
      rw [List.take_left, List.take_append_of_le_length (by omega)] at this
      exact this.symm
    rw [hsub] at hmem
    exact hv (List.mem_of_mem_take hmem)
  obtain ⟨hvw, hx⟩ := cut_eq hv hw h
  exact ⟨hvw, hx.symm⟩

variable {ts : List Token} {pending' : Option (Nat × Nat)}

/-- **A reader finds such fields as they were written.** -/
theorem Steady.eq_of_textsWith {C : Bytes → Prop} (hC : ∀ v, C v → delim ∉ v) {us : List Token}
    (hts : Steady d C pending ts) (hus : LexesBy delim d pending us pending')
    (h : textsWith delim ts = textsWith delim us) :
    ts.map Token.line = us.map Token.line ∧ ∀ u ∈ us, u.kind ≠ .data → C u.value := by
  induction ts generalizing us pending with
  | nil =>
    cases us with
    | nil => simp
    | cons u us =>
      have := congrArg List.length h
      simp at this
      omega
  | cons t ts ih =>
    cases us with
    | nil =>
      have := congrArg List.length h
      simp at this
    | cons u us =>
      obtain ⟨htag, h⟩ := tag_eq_of_textWith h
      obtain ⟨-, announced, hfollows, hus⟩ := hus
      cases pending with
      | none =>
        obtain ⟨hclear, hts⟩ := hts
        have hkind : u.kind ≠ .data := by
          intro hkind
          cases hfollows <;> cases hkind
        obtain ⟨hvalue, hrest⟩ := cut_eq (hC _ hclear) (hfollows.delim_notMem hkind) h
        rw [hfollows.announcement_eq htag hvalue] at hts
        obtain ⟨hlines, hvalues⟩ := ih hts hus hrest
        refine ⟨by simp [Token.line, htag, hvalue, hlines], ?_⟩
        intro x hx
        rcases List.mem_cons.mp hx with rfl | hx
        · exact fun _ => hvalue ▸ hclear
        · exact hvalues x hx
      | some x =>
        cases hfollows with
        | data tag value =>
          obtain ⟨hsize, hts⟩ := hts htag
          have hboth : t.value = value ∧ textsWith delim ts = textsWith delim us := by
            rcases hsize with hsize | ⟨rfl, hclear⟩
            · obtain ⟨hvalue, hrest⟩ := List.append_inj h hsize
              exact ⟨hvalue, List.tail_eq_of_cons_eq hrest⟩
            · obtain ⟨hvalue, hrest⟩ := cut_last (hC _ hclear) h
              exact ⟨hvalue, hrest.symm⟩
          obtain ⟨hlines, hvalues⟩ := ih hts hus hboth.2
          refine ⟨by simp [Token.line, htag, hboth.1, hlines], ?_⟩
          intro y hy
          rcases List.mem_cons.mp hy with rfl | hy
          · exact fun hkind => absurd rfl hkind
          · exact hvalues y hy

/-! ## What is written -/

/-- Every data field of a message stands right after its Length. -/
structure Message.DataPaired (m : Message) : Prop where
  pair : m.tape.IsChain fun e e' => e'.kind = .data → m.dict.kind e.tag = .dataLength e'.tag
  only : ∀ e ∈ m.tape, e.isTagged → ∀ length, m.dict.kind length = .dataLength e.tag → e.kind = .data

/-- A message whose fields can be told apart by delimiters that `C` keeps out of values. -/
structure Message.Separable (m : Message) (C : Bytes → Prop) : Prop extends m.DataPaired where
  msgType : ∀ e ∈ m.tape, e.depth = 0 → e.tag = 35 → e.kind ≠ .dataLen ∧ e.kind ≠ .data
  begins : C m.dict.beginString
  values : ∀ e ∈ m.tape, e.isField → e.kind ≠ .data → C (m.value e)
  numbers : ∀ v, (∀ c ∈ v, IsDigit c) → C v

/-- What a dictionary with which a message can be read at all says of the fields that
frame one: one that is a Length is data itself, or its data is BodyLength. -/
structure Dictionary.Frames (d : Dictionary) : Prop where
  begins : ∀ data, d.kind 8 = .dataLength data → data = 9
  later : ∀ tag, tag = 9 ∨ tag = 10 → ∀ data, d.kind tag = .dataLength data →
    ∃ length, d.kind length = .dataLength tag

/-- What stands before a forest on the tape, and what a reader expects of its fields: if
the data of a Length comes next, the Length was read, unless it is BeginString. -/
structure Message.Before (m : Message) (pre : List Entry) (depth : Nat) (stated : Option Nat)
    (pending : Option (Nat × Nat)) : Prop where
  known : ∀ x ∈ pending, ∃ length, m.dict.kind length = .dataLength x.1
  length : ∀ n ∈ stated, ∃ init e, pre = init ++ [e] ∧ e.depth = depth ∧ m.States e n ∧
    ((¬ e.IsFraming ∧ pending = Token.announcement m.dict ⟨e.kind, e.tag, m.value e⟩) ∨
      e.IsFraming ∧ e.tag = 8)

variable {m : Message} {e : Entry}

theorem Message.Spells.length_value (h : m.Spells e) :
    (m.value e).length = e.len := by
  have := h.inside
  simp only [Message.value, slice, List.length_take, List.length_drop]
  omega

theorem announcement_known :
    ∀ x ∈ t.announcement d, ∃ length, d.kind length = .dataLength x.1 := by
  intro x hx
  unfold Token.announcement at hx
  split at hx
  · rename_i data hkind
    obtain ⟨n, -, rfl⟩ := Option.map_eq_some_iff.mp hx
    exact ⟨t.tag, hkind⟩
  · cases hx

section

variable {m : Message} {C : Bytes → Prop}

/-- A field that is not data is found where data is not expected. -/
theorem Message.DataPaired.steady_cons (hdata : m.DataPaired)
    (hknown : ∀ x ∈ pending, ∃ length, m.dict.kind length = .dataLength x.1) (he : e ∈ m.tape)
    (htagged : e.isTagged) (hkind : e.kind ≠ .data) (htag : t.tag = e.tag) (hclear : C t.value)
    (hts : Steady m.dict C (t.announcement m.dict) ts) :
    Steady m.dict C pending (t :: ts) := by
  cases pending with
  | none => exact ⟨hclear, hts⟩
  | some x =>
    obtain ⟨length, hlength⟩ := hknown x rfl
    intro heq
    rw [← heq, htag] at hlength
    exact absurd (hdata.only e he htagged length hlength) hkind

theorem map_token_visits_field (hfield : e.isField) (pre : List Entry) (r : Forest Entry) :
    (visits pre.length (.node e .nil r)).map m.token =
      (if e.IsFraming then [] else [⟨e.kind, e.tag, m.value e⟩]) ++
        (visits (pre ++ [e]).length r).map m.token := by
  rw [visits_field hfield, List.map_append]
  split
  · rfl
  · rw [List.map_singleton, m.token_field hfield]

variable {pre : List Entry} {depth : Nat}

theorem Message.Before.of_none {pre' depth' stated} (h : m.Before pre depth stated pending) :
    m.Before pre' depth' none pending :=
  ⟨h.known, by simp⟩

theorem Message.before_announcement (t : Token) (pre : List Entry) (depth : Nat) :
    m.Before pre depth none (t.announcement m.dict) :=
  ⟨announcement_known, by simp⟩

variable {n : Nat}

/-- What is announced is what comes next. -/
theorem Paired.data_next {L r} (h : Paired L (some n) r none) :
    ∃ e c r', r = .node e c r' ∧ e.kind = .data := by
  cases r with
  | nil => cases h
  | node e c r =>
    obtain ⟨-, h⟩ := h
    refine ⟨e, c, r, rfl, ?_⟩
    split at h
    · cases h.1
    · assumption
    · cases h.1

variable {post : List Entry}

theorem Message.DataPaired.kind_length (hdata : m.DataPaired) {init e'}
    (htape : m.tape = init ++ e :: e' :: post) (hkind : e'.kind = .data) :
    m.dict.kind e.tag = .dataLength e'.tag := by
  have hchain := hdata.pair
  rw [htape, List.isChain_append_cons_cons] at hchain
  exact hchain.2.1 hkind

/-- A Length that is written apart is BeginString. -/
theorem Message.Separable.framing_length (hm : m.Separable C) (hframes : m.dict.Frames) {r}
    (hkind : e.kind = .dataLen) (hframing : e.IsFraming)
    (htape : m.tape = (pre ++ [e]) ++ (r.preorder ++ post))
    (hpaired : Paired m.States (some n) r none) : e.tag = 8 := by
  have he : e ∈ m.tape := by simp [htape]
  obtain ⟨e', c, r', rfl, hdatum⟩ := hpaired.data_next
  have hlength := hm.kind_length (by rw [htape]; simp; rfl) hdatum
  have hnot : ¬ ∃ length, m.dict.kind length = .dataLength e.tag := by
    rintro ⟨length, h⟩
    have := hm.only e he (by simp [Entry.isTagged, hkind]) length h
    rw [hkind] at this
    cases this
  obtain ⟨hdepth, h8 | h9 | h10 | h35⟩ := hframing
  · exact h8
  · exact absurd (hframes.later e.tag (.inl h9) _ hlength) hnot
  · exact absurd (hframes.later e.tag (.inr h10) _ hlength) hnot
  · exact absurd hkind (hm.msgType e he hdepth h35).1

/-- Data that is written is what a reader expects. -/
theorem Message.Separable.pending_of_data (hm : m.Separable C) (hframes : m.dict.Frames)
    (hbefore : m.Before pre depth (some n) pending) (hkind : e.kind = .data) (hdepth : e.depth = depth)
    (hframing : ¬ e.IsFraming) (htape : m.tape = pre ++ e :: post) :
    pending = some (e.tag, n) := by
  obtain ⟨init, e₀, rfl, hdepth₀, hn, hcase⟩ := hbefore.length _ rfl
  have hlength := hm.kind_length (e := e₀) (by rw [htape]; simp; rfl) hkind
  rcases hcase with ⟨-, rfl⟩ | ⟨hframing₀, h8⟩
  · have hstated : parseUint (m.value e₀) = .ok n := hn
    simp [Token.announcement, hlength, hstated, Except.toOption]
  · -- the Length would be BeginString, and the data BodyLength
    rw [h8] at hlength
    have h9 := hframes.begins _ hlength
    exact absurd ⟨by rw [hdepth, ← hdepth₀]; exact hframing₀.1, .inr (.inl h9)⟩ hframing

/-- **What a forest is written as is found in one way**, if what follows it is. -/
theorem Shaped.steady (hm : m.Separable C) (hframes : m.dict.Frames) {insts f}
    (h : Shaped m.Spells insts depth f) (pre : List Entry)
    (htape : m.tape = pre ++ (f.preorder ++ post)) {stated}
    (hpaired : Paired m.States stated f none) (hbefore : m.Before pre depth stated pending) {rest}
    (hrest : ∀ pre' depth' pending', m.Before pre' depth' none pending' →
      Steady m.dict C pending' rest) :
    Steady m.dict C pending ((visits pre.length f).map m.token ++ rest) := by
  induction h generalizing pre post stated pending rest with
  | nil =>
    obtain rfl : stated = none := hpaired
    exact hrest _ _ _ hbefore
  | @field depth e r hfield hdepth hP hr ih =>
    have he : e ∈ m.tape := by simp [htape]
    have htagged := Entry.isTagged_of_isField hfield
    have hafter : m.tape = (pre ++ [e]) ++ (r.preorder ++ post) := by simp [htape]
    rw [map_token_visits_field hfield, List.append_assoc]
    obtain ⟨-, hpaired⟩ := hpaired
    cases hkind : e.kind with
    | gap | group | inst => simp [Entry.isField, hkind] at hfield
    | field =>
      rw [hkind] at hpaired
      obtain ⟨rfl, hpaired⟩ := hpaired
      split
      · exact ih _ hafter hpaired hbefore.of_none hrest
      · exact hm.steady_cons hbefore.known he htagged (by simp [hkind]) rfl
          (hm.values e he hfield (by simp [hkind]))
          (ih _ hafter hpaired (m.before_announcement _ _ _) hrest)
    | dataLen =>
      rw [hkind] at hpaired
      obtain ⟨rfl, n, hn, hpaired⟩ := hpaired
      split
      · rename_i hframing
        have h8 := hm.framing_length hframes hkind hframing hafter hpaired
        refine ih _ hafter hpaired ⟨hbefore.known, ?_⟩ hrest
        intro k hk
        cases hk
        exact ⟨pre, e, rfl, hdepth, hn, .inr ⟨hframing, h8⟩⟩
      · rename_i hframing
        refine hm.steady_cons hbefore.known he htagged (by simp [hkind]) rfl
          (hm.values e he hfield (by simp [hkind]))
          (ih _ hafter hpaired ⟨announcement_known, ?_⟩ hrest)
        intro k hk
        cases hk
        exact ⟨pre, e, rfl, hdepth, hn, .inl ⟨hframing, by rw [hkind]⟩⟩
    | data =>
      rw [hkind] at hpaired
      obtain ⟨rfl, hpaired⟩ := hpaired
      split
      · exact ih _ hafter hpaired hbefore.of_none hrest
      · rename_i hframing
        rw [hm.pending_of_data hframes hbefore hkind hdepth hframing (by rw [htape]; simp; rfl)]
        intro _
        exact ⟨.inl hP.length_value, ih _ hafter hpaired ⟨by simp, by simp⟩ hrest⟩
  | @group depth e c r hkind hdepth hcount hspan hc hr ihc ihr =>
    obtain ⟨hbelow, hafter⟩ := split_node htape
    have he : e ∈ m.tape := by simp [htape]
    have htoken := m.token_group hkind pre.length
    obtain ⟨hinside, hpaired⟩ := hpaired
    rw [hkind] at hpaired
    obtain ⟨rfl, hpaired⟩ := hpaired
    have hrest' : ∀ pre' depth' pending', m.Before pre' depth' none pending' →
        Steady m.dict C pending'
          ((visits (pre ++ e :: c.preorder).length r).map m.token ++ rest) :=
      fun pre' depth' pending' hb => ihr _ hafter hpaired hb.of_none hrest
    rw [visits, hkind, (length_below pre e c).1, (length_below pre e c).2, List.map_append,
      List.append_assoc]
    dsimp only
    split
    · exact hrest' pre depth _ hbefore
    · rw [List.map_cons, List.cons_append, htoken]
      exact hm.steady_cons hbefore.known he (by simp [Entry.isTagged, hkind]) (by simp [hkind]) rfl
        (hm.numbers _ fun c hc => isDigit_of_mem_writeUint hc)
        (ihc _ hbelow hinside (m.before_announcement _ _ _) hrest')
  | @inst depth e c r hkind hdepth hspan hc hr ihc ihr =>
    obtain ⟨hbelow, hafter⟩ := split_node htape
    obtain ⟨hinside, hpaired⟩ := hpaired
    rw [hkind] at hpaired
    obtain ⟨rfl, hpaired⟩ := hpaired
    rw [visits, hkind, (length_below pre e c).1, (length_below pre e c).2, List.map_append,
      List.append_assoc]
    exact ihc _ hbelow hinside hbefore.of_none fun pre' depth' pending' hb =>
      ihr _ hafter hpaired hb.of_none hrest

end

/-! ## Reading a message in two ways -/

theorem Envelope.Sound.frames {e : Envelope} (hsound : e.Sound d) (h : LexesBy delim d none e.tokens none) :
    d.Frames := by
  obtain ⟨-, -, -, ⟨p, hbegins, hlength⟩, hrest⟩ := hsound.lexesBy_content h
  constructor
  · intro data hkind
    rw [← hsound.begins_tag] at hkind
    rcases hbegins.of_length hkind with ⟨n, hn⟩ | ⟨-, n, rfl⟩
    · cases hn
    · rw [← hsound.length_tag]
      generalize e.length = t at hlength
      cases hlength
      rfl
  · rintro tag (rfl | rfl) data hkind
    · rw [← hsound.length_tag] at hkind ⊢
      rcases hlength.of_length hkind with ⟨n, rfl⟩ | ⟨-, n, hn⟩
      · exact hbegins.known _ rfl
      · cases hn
    · rw [← List.cons_append] at hrest
      obtain ⟨q, hhead, -, announced, hsum, rfl⟩ := LexesBy.append_iff.mp hrest
      rw [← hsound.sum_tag] at hkind ⊢
      rcases hsum.of_length hkind with ⟨n, rfl⟩ | ⟨-, n, hn⟩
      · exact hhead.known (by simp) _ rfl
      · cases hn

section

variable {m : Message} {header body trailer : Forest Entry} {gap : Nat} {C : Bytes → Prop}

/-- **What a message is written as, from MsgType on, is found in one way.** -/
theorem Message.Lays.steady (h : m.Lays m.Spells header gap body trailer)
    (hpairs : Message.Pairs m.States header body trailer) (hm : m.Separable C)
    (hframes : m.dict.Frames) {sum} (hsum : C sum.value) :
    Steady m.dict C none (m.visited ++ [sum]) := by
  have hlast : ∀ pending, Steady m.dict C pending [sum] := by
    intro pending
    cases pending with
    | none => exact ⟨hsum, trivial⟩
    | some x => exact fun _ => ⟨.inr ⟨rfl, hsum⟩, trivial⟩
  have hblocks : ∀ pending, m.Before [] 0 none pending → Steady m.dict C pending
      ((visits ([] : List Entry).length header ++ (visits (header ++ gapOf gap).preorder.length body ++
        visits (header ++ (gapOf gap ++ body)).preorder.length trailer)).map m.token ++ [sum]) := by
    intro pending hbefore
    rw [List.map_append, List.map_append, List.append_assoc, List.append_assoc]
    refine h.header.steady hm hframes [] h.tape_header hpairs.header hbefore fun _ _ _ hb => ?_
    refine h.body.steady hm hframes _ h.tape_body hpairs.body hb.of_none fun _ _ _ hb => ?_
    exact h.trailer.steady hm hframes _ h.tape_trailer hpairs.trailer hb.of_none
      fun _ _ pending' _ => hlast pending'
  rw [Message.visited, h.visit_blocks, List.map_append]
  cases hroot : findRoot 35 0 header with
  | none => exact hblocks none ⟨by simp, by simp⟩
  | some i =>
    obtain ⟨hmem, htag, htagged, hdepth⟩ := h.header.findRoot_entry [] h.tape_header hroot
    have hkind := (hm.msgType _ hmem hdepth htag).2
    refine hm.steady_cons (by simp) hmem htagged hkind ?_ ?_
      (hblocks _ (m.before_announcement _ _ _))
    · unfold Message.token
      split <;> rfl
    · unfold Message.token
      split
      · exact hm.numbers _ fun c hc => isDigit_of_mem_writeUint hc
      · rename_i hgroup
        refine hm.values _ hmem ?_ hkind
        cases hk : (entryAt m.tape i).kind <;> simp_all [Entry.isTagged, Entry.isField]

/-- **The fields that are found are those that were written.** -/
theorem Message.Lays.found_eq (h : m.Lays m.Spells header gap body trailer)
    (hpairs : Message.Pairs m.States header body trailer) (hm : m.Separable C) (hC : ∀ v, C v → delim ∉ v)
    {e : Envelope} (hsound : e.Sound m.dict) (hlexes : LexesBy delim m.dict none e.tokens none)
    (htexts : textsWith delim (framed m.dict m.visited) = textsWith delim e.tokens) :
    (framed m.dict m.visited).map Token.line = e.tokens.map Token.line ∧
      ∀ t ∈ e.tokens, t.kind ≠ .data → C t.value := by
  obtain ⟨hbegins, -, -, -, hrest⟩ := hsound.lexesBy_content hlexes
  set sum : Token :=
    ⟨.field, 10, sumText (checksumOf (texts (frameStart m.dict m.visited ++ m.visited)))⟩ with hsum
  have hdigits : C sum.value := hm.numbers _ (isDigit_of_mem_sumText (checksumOf_lt _))
  have hframed : framed m.dict m.visited = ⟨.field, 8, m.dict.beginString⟩ ::
      ⟨.field, 9, writeUint (texts m.visited).length⟩ :: (m.visited ++ [sum]) := by
    simp [framed, frameStart, hsum]
  have htokens : e.tokens = e.begins :: e.length :: (e.msgType :: (e.content ++ [e.sum])) := by
    simp [Envelope.tokens, Envelope.head]
  rw [hframed, htokens] at htexts ⊢
  -- BeginString is the dictionary's and BodyLength a number, so they end at the delimiter
  have h8 := (tag_eq_of_textWith htexts).2
  rw [hsound.begins_value] at h8
  have h8' := (cut_eq (hC _ hm.begins) (hC _ hm.begins) h8).2
  have hlength : C e.length.value := hm.numbers _ (parseUint_ok hsound.length_value).2.1
  have hwritten : C (writeUint (texts m.visited).length) :=
    hm.numbers _ fun c hc => isDigit_of_mem_writeUint hc
  obtain ⟨h9, hrest'⟩ := cut_eq (hC _ hwritten) (hC _ hlength) (tag_eq_of_textWith h8').2
  obtain ⟨hlines, hvalues⟩ :=
    (h.steady hpairs hm (hsound.frames hlexes) hdigits).eq_of_textsWith hC hrest hrest'
  refine ⟨?_, ?_⟩
  · simp [Token.line, hsound.begins_tag, hsound.begins_value, hsound.length_tag, ← h9, hlines]
  · intro t ht hkind
    simp only [List.mem_cons] at ht
    rcases ht with rfl | rfl | ht
    · rw [hsound.begins_value]
      exact hm.begins
    · exact hlength
    · exact hvalues t (by simpa using ht) hkind

end

/-- A complete message is read alike by both functions if it ends with SOH. -/
theorem parseDelimited_soh {w} :
    Message.parseDelimited d w soh = .ok m ↔ Message.parse d w = .ok m := by
  rw [parseDelimited_iff, parse_iff]
  simp only [textsWith_soh]
  constructor
  · rintro ⟨e, msgDef, s, rfl, h⟩
    exact ⟨e, msgDef, s, rfl, h⟩
  · rintro ⟨e, msgDef, s, rfl, h⟩
    exact ⟨e, msgDef, s, rfl, h⟩

/-- **What is read with one delimiter is read with the other**, and is the same bytes. -/
theorem Message.Lays.parse_redelimited {header body trailer gap delim'}
    (h : m.Lays m.Spells header gap body trailer)
    (hpairs : Message.Pairs m.States header body trailer)
    (hm : m.Separable fun v => delim ∉ v ∧ delim' ∉ v) {m'}
    (hparse : Message.parseDelimited m.dict (m.encodeDelimited [] delim) delim = .ok m') :
    Message.parseDelimited m.dict (m.encodeDelimited [] delim') delim' = .ok m' ∧
      m'.encode [] = m.encodeDelimited [] soh := by
  have hencode (delim : UInt8) := encodeDelimited_eq (fun _ => h.of_mem_visit) [] delim
  simp only [List.nil_append] at hencode
  obtain ⟨e, msgDef, s, htexts, hsound, hlexes, hbuilds, htyped, rfl⟩ := parseDelimited_iff.mp hparse
  rw [hencode] at htexts
  obtain ⟨hlines, hvalues⟩ := h.found_eq hpairs hm (fun v hv => hv.1) hsound hlexes htexts
  have hsame (delim : UInt8) : m.encodeDelimited [] delim = textsWith delim e.tokens := by
    rw [hencode, textsWith_eq_ended, textsWith_eq_ended, hlines]
  refine ⟨parseDelimited_iff.mpr ⟨e, msgDef, s, hsame delim', hsound, ?_, hbuilds, htyped, rfl⟩, ?_⟩
  · exact hlexes.redelimit fun t ht hkind => (hvalues t ht hkind).2
  · have hne : texts e.tokens ≠ [] := by
      simp [Envelope.tokens, Envelope.head, Token.text]
    have hwire : (s.close.message m.dict msgDef (texts e.tokens)).wireForm = some (texts e.tokens) := by
      rw [Message.wireForm, if_pos ⟨rfl, hne⟩]
      rfl
    rw [Message.encode, hwire, hsame soh, textsWith_soh]
    rfl

theorem Message.Separable.mono {C C'} (h : m.Separable C) (hC : ∀ v, C v → C' v) :
    m.Separable C' where
  toDataPaired := h.toDataPaired
  msgType := h.msgType
  begins := hC _ h.begins
  values := fun e he hfield hkind => hC _ (h.values e he hfield hkind)
  numbers := fun v hv => hC _ (h.numbers v hv)

/-- A message that is to be written with `delim`, or with SOH: only its data may contain
these, and data is told by its Length. -/
structure Message.Delimitable (m : Message) (delim : UInt8) : Prop extends m.DataPaired where
  wellFormed : m.WellFormed
  not_digit : ¬ IsDigit delim
  begins : delim ∉ m.dict.beginString ∧ soh ∉ m.dict.beginString
  values : ∀ e ∈ m.tape, e.isField → e.kind ≠ .data → delim ∉ m.value e ∧ soh ∉ m.value e

/-- **The delimiter does not matter** unless MsgType is a Length or data: what a message is
written as is rejected with either delimiter, or read as the same message with both, and
that message's bytes are those with SOH. -/
theorem delimiter_independence {m : Message} {delim : UInt8} (h : m.Delimitable delim)
    (hmsgType : ∀ e ∈ m.tape, e.depth = 0 → e.tag = 35 → e.kind ≠ .dataLen ∧ e.kind ≠ .data) :
    ((∃ f, Message.parseDelimited m.dict (m.encodeDelimited [] delim) delim = .error f) ∧
      ∃ f, Message.parse m.dict (m.encodeDelimited [] soh) = .error f) ∨
    ∃ m', Message.parseDelimited m.dict (m.encodeDelimited [] delim) delim = .ok m' ∧
      Message.parse m.dict (m.encodeDelimited [] soh) = .ok m' ∧
      m'.encode [] = m.encodeDelimited [] soh := by
  obtain ⟨header, gap, body, trailer, hlays, hpairs⟩ := h.wellFormed
  have hm : m.Separable fun v => delim ∉ v ∧ soh ∉ v :=
    ⟨h.toDataPaired, hmsgType, h.begins, h.values, fun v hv =>
      ⟨not_mem_of_isDigit hv h.not_digit, not_mem_of_isDigit hv (by decide)⟩⟩
  cases hdelim : Message.parseDelimited m.dict (m.encodeDelimited [] delim) delim with
  | ok m' =>
    obtain ⟨hsoh, hencode⟩ := hlays.parse_redelimited hpairs hm hdelim
    exact .inr ⟨m', rfl, parseDelimited_soh.mp hsoh, hencode⟩
  | error f =>
    refine .inl ⟨⟨f, rfl⟩, ?_⟩
    cases hsoh : Message.parse m.dict (m.encodeDelimited [] soh) with
    | error f' => exact ⟨f', rfl⟩
    | ok m' =>
      have hswap : m.Separable fun v => soh ∉ v ∧ delim ∉ v := hm.mono fun v hv => hv.symm
      have hagain := (hlays.parse_redelimited hpairs hswap (parseDelimited_soh.mpr hsoh)).1
      rw [hdelim] at hagain
      cases hagain

/-! ### News again -/

/-- Which tags are data is a matter of the dictionary's table. -/
theorem Message.dataPaired_of
    (hpair : m.tape.IsChain fun e e' => e'.kind = .data → m.dict.kind e.tag = .dataLength e'.tag)
    (honly : ∀ e ∈ m.tape, e.isTagged → ∀ x ∈ m.dict.fields, x.2.kind = .dataLength e.tag →
      e.kind = .data) : m.DataPaired := by
  refine ⟨hpair, fun e he htagged length hlength => ?_⟩
  unfold Dictionary.kind at hlength
  split at hlength
  · rename_i info hinfo
    exact honly e he htagged (length, info) (mem_of_lookup hinfo) hlength
  · cases hlength

/-- The line of news is read with bars as it is read with SOH. -/
theorem delimiter_independence_news : ∃ m m',
    Message.parseDelimited (news (ascii "FIX.4.4")) encodedNews 124 = .ok m ∧
      Message.parseDelimited m.dict (m.encodeDelimited [] 124) 124 = .ok m' ∧
      Message.parse m.dict (m.encodeDelimited [] soh) = .ok m' := by
  have hread : (Message.parseDelimited (news (ascii "FIX.4.4")) encodedNews 124).toOption.any
      (fun m => decide (
        m.tape.IsChain (fun e e' => e'.kind = .data → m.dict.kind e.tag = .dataLength e'.tag) ∧
        (∀ e ∈ m.tape, e.isTagged → ∀ x ∈ m.dict.fields, x.2.kind = .dataLength e.tag →
          e.kind = .data) ∧
        (∀ e ∈ m.tape, e.depth = 0 → e.tag = 35 → e.kind ≠ .dataLen ∧ e.kind ≠ .data) ∧
        (124 ∉ m.dict.beginString ∧ soh ∉ m.dict.beginString) ∧
        (∀ e ∈ m.tape, e.isField → e.kind ≠ .data → 124 ∉ m.value e ∧ soh ∉ m.value e) ∧
        (Message.parse m.dict (m.encodeDelimited [] soh)).isOk)) = true := by
    decide +kernel
  obtain ⟨m, hparse⟩ := parse_encodedNews
  rw [hparse] at hread
  simp only [Except.toOption, Option.any_some, decide_eq_true_eq] at hread
  obtain ⟨hpair, honly, hmsgType, hbegin, hvalues, hok⟩ := hread
  have hm : m.Delimitable 124 :=
    ⟨Message.dataPaired_of hpair honly, encodedNews_wellFormed hparse, by decide, hbegin, hvalues⟩
  rcases delimiter_independence hm hmsgType with ⟨-, f, hf⟩ | ⟨m', hbars, hsoh, -⟩
  · rw [hf] at hok
    cases hok
  · exact ⟨m, m', hparse, hbars, hsoh⟩

/-! ### MsgType as a Length, and as data -/

/-- Fields one after the other. -/
def leafEntries : List Entry → Forest Entry
  | [] => .nil
  | e :: es => .node e .nil (leafEntries es)

theorem shaped_leafEntries {es} (h : ∀ e ∈ es, e.isField ∧ e.depth = 0 ∧
      e.off + e.valOff + e.len + 1 ≤ (m.seg e.seg).length ∧
      m.spanBytes e = writeUint e.tag ++ 61 :: (m.value e ++ [soh])) :
    Shaped m.Spells false 0 (leafEntries es) := by
  induction es with
  | nil => exact .nil
  | cons e es ih =>
    obtain ⟨hfield, hdepth, hinside, htext⟩ := h e List.mem_cons_self
    exact .field hfield hdepth ⟨hinside, htext⟩ (ih fun x hx => h x (List.mem_cons_of_mem _ hx))

/-- A dictionary of the fields that frame a message, in which 35 and 100 are as given. -/
def typePair (kind35 kind100 : FieldKind) : Dictionary where
  beginString := ascii "FIX.4.4"
  fields := [(8, ⟨.plain, true, false⟩), (9, ⟨.plain, true, false⟩), (10, ⟨.plain, false, true⟩),
    (35, ⟨kind35, true, false⟩), (100, ⟨kind100, true, false⟩),
    (95, ⟨.dataLength 96, false, false⟩), (96, ⟨.data 95, false, false⟩)]
  groups := []
  messages := []
  messagesByType := []
  headerGroups := []
  globalGroups := []

/-- MsgType is the Length of 100. There are two, of which the first is written, and the
data of both. -/
def twoTypes : Message where
  dict := typePair (.dataLength 100) (.data 35)
  msgDef := none
  wire := ascii "35=1\x01100=a\x0135=3\x01100=x|y\x01"
  arena := []
  tape := [{ tag := 35, kind := .dataLen, valOff := 3, off := 0, len := 1 },
    { tag := 100, kind := .data, valOff := 4, off := 5, len := 1 },
    { tag := 35, kind := .dataLen, valOff := 3, off := 11, len := 1 },
    { tag := 100, kind := .data, valOff := 4, off := 16, len := 3 }]
  bodyStart := 4
  trailerStart := 4
  clean := false

/-- MsgType is the data of 100. It is written before its Length, and contains bars. -/
def barredType : Message where
  dict := typePair (.data 100) (.dataLength 35)
  msgDef := none
  wire := ascii "100=13\x0135=A|95=17|96=zz\x0158=abcd\x01"
  arena := []
  tape := [{ tag := 100, kind := .dataLen, valOff := 4, off := 0, len := 2 },
    { tag := 35, kind := .data, valOff := 3, off := 7, len := 13 },
    { tag := 58, kind := .field, valOff := 3, off := 24, len := 4 }]
  bodyStart := 2
  trailerStart := 3
  clean := false

theorem twoTypes_wellFormed : twoTypes.WellFormed := by
  refine ⟨leafEntries twoTypes.tape, 0, .nil, .nil, ⟨rfl, rfl, rfl, ?_, .nil, .nil⟩, ⟨?_, rfl, rfl⟩⟩
  · exact shaped_leafEntries (by decide +kernel)
  · exact ⟨rfl, rfl, 1, rfl, rfl, rfl, rfl, rfl, 3, rfl, rfl, rfl, rfl⟩

theorem barredType_wellFormed : barredType.WellFormed := by
  refine ⟨leafEntries (barredType.tape.take 2), 0, leafEntries (barredType.tape.drop 2), .nil,
    ⟨rfl, rfl, rfl, ?_, ?_, .nil⟩, ⟨?_, ?_, rfl⟩⟩
  · exact shaped_leafEntries (by decide +kernel)
  · exact shaped_leafEntries (by decide +kernel)
  · exact ⟨rfl, rfl, 13, rfl, rfl, rfl, rfl⟩
  · exact ⟨rfl, rfl, rfl⟩

/-- Where MsgType is a Length, a message may be read with SOH only, and where it is data,
with bars only. -/
theorem delimiter_matters :
    (∃ m : Message, m.Delimitable 124 ∧
      (Message.parse m.dict (m.encodeDelimited [] soh)).isOk = true ∧
      (Message.parseDelimited m.dict (m.encodeDelimited [] 124) 124).isOk = false) ∧
    ∃ m : Message, m.Delimitable 124 ∧
      (Message.parse m.dict (m.encodeDelimited [] soh)).isOk = false ∧
      (Message.parseDelimited m.dict (m.encodeDelimited [] 124) 124).isOk = true := by
  have hbar : ¬ IsDigit 124 := by decide
  refine ⟨⟨twoTypes, ⟨Message.dataPaired_of ?_ ?_, twoTypes_wellFormed, hbar, ?_, ?_⟩, ?_, ?_⟩,
    ⟨barredType, ⟨Message.dataPaired_of ?_ ?_, barredType_wellFormed, hbar, ?_, ?_⟩, ?_, ?_⟩⟩
  all_goals decide +kernel

end Babelfix.Tape
