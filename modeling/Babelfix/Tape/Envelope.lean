import Babelfix.Tape.Accept

/-! # What is accepted

A byte string is accepted if and only if it is the text of a list of fields that the
tree builder takes and that are framed as a message: BeginString, BodyLength and
MsgType first, CheckSum last, and both BodyLength and CheckSum right. This is so for any
delimiter: the checksum counts each as SOH. -/
namespace Babelfix.Tape

open Lib

/-! ## Framing -/

variable {ts : List Token} {f : Framed}

namespace Framed

def new : Framed := ⟨0, none, none⟩

/-- BodyLength and CheckSum are right. -/
def Checks (f : Framed) (wire : Bytes) : Prop :=
  ∃ pos sum, f.checksum = some (pos, sum) ∧ checksumOf (wire.take pos) = sum ∧
    ∀ declared start, f.bodyLength = some (declared, start) → declared = pos - start

theorem all_append (pos : Nat) (ts us : List Token) (f : Framed) :
    f.all pos (ts ++ us) = (f.all pos ts).all (pos + (texts ts).length) us := by
  induction ts generalizing pos f with
  | nil => rfl
  | cons t ts ih => simp [all, ih, Nat.add_assoc]

theorem checksum_all {pos} (h : ∀ t ∈ ts, t.tag ≠ 10) : (f.all pos ts).checksum = f.checksum := by
  induction ts generalizing pos f with
  | nil => rfl
  | cons t ts ih =>
    rw [all, ih fun u hu => h u (List.mem_cons_of_mem _ hu)]
    simp [next, h t List.mem_cons_self]

theorem bodyLength_all {pos} (h : ∀ t ∈ ts, t.tag ≠ 9) :
    (f.all pos ts).bodyLength = f.bodyLength := by
  induction ts generalizing pos f with
  | nil => rfl
  | cons t ts ih =>
    rw [all, ih fun u hu => h u (List.mem_cons_of_mem _ hu)]
    simp [next, h t List.mem_cons_self]

end Framed

variable {z : Track}

theorem checkFraming_iff {wire} : (z.parser f).checkFraming wire soh = .ok () ↔ f.Checks wire := by
  obtain ⟨ordinal, checksum, bodyLength⟩ := f
  cases checksum with
  | none => simp [Parser.checkFraming, Track.parser, Framed.Checks, garbled]
  | some c =>
    obtain ⟨pos, sum⟩ := c
    simp only [Parser.checkFraming, Track.parser, Framed.Checks, sohChecksum_soh]
    cases bodyLength with
    | none =>
      by_cases hsum : checksumOf (wire.take pos) = sum
      · simp [hsum, pure, Except.pure]
      · simp [hsum, Ne.symm hsum, garbled]
    | some b =>
      obtain ⟨declared, start⟩ := b
      by_cases hlen : declared = pos - start
      · by_cases hsum : checksumOf (wire.take pos) = sum
        · simp [hsum, hlen, pure, Except.pure]
        · simp [hsum, Ne.symm hsum, hlen, garbled]
      · simp [hlen, garbled, bind, Except.bind]

/-- The fields of a complete message. -/
structure Envelope where
  begins : Token
  length : Token
  msgType : Token
  content : List Token
  sum : Token
  deriving DecidableEq, Repr

variable {e : Envelope}

namespace Envelope

/-- Everything before CheckSum. -/
def head (e : Envelope) : List Token := e.begins :: e.length :: e.msgType :: e.content

def tokens (e : Envelope) : List Token := e.head ++ [e.sum]

/-- What BodyLength counts. -/
def body (e : Envelope) : Bytes := texts (e.msgType :: e.content)

/-- The fields stand where they belong. -/
structure Tagged (e : Envelope) : Prop where
  begins_tag : e.begins.tag = 8
  length_tag : e.length.tag = 9
  msgType_tag : e.msgType.tag = 35
  content_tag : ∀ t ∈ e.content, t.tag ≠ 8 ∧ t.tag ≠ 9 ∧ t.tag ≠ 35 ∧ t.tag ≠ 10
  sum_tag : e.sum.tag = 10

/-- They also say what is right. -/
structure Sound (d : Dictionary) (e : Envelope) : Prop extends Tagged e where
  begins_value : e.begins.value = d.beginString
  length_value : parseUint e.length.value = .ok e.body.length
  msgType_value : e.msgType.value.all isAlphanumeric
  sum_value : readChecksum e.sum.value = .ok (checksumOf (texts e.head))

theorem Tagged.head_ne_ten (h : e.Tagged) : ∀ t ∈ e.head, t.tag ≠ 10 := by
  intro t ht
  simp only [head, List.mem_cons] at ht
  rcases ht with rfl | rfl | rfl | ht
  · simp [h.begins_tag]
  · simp [h.length_tag]
  · simp [h.msgType_tag]
  · exact (h.content_tag t ht).2.2.2

theorem Tagged.checksum (h : e.Tagged) :
    (Framed.new.all 0 e.tokens).checksum =
      (readChecksum e.sum.value).toOption.map fun n => ((texts e.head).length, n) := by
  rw [tokens, Framed.all_append]
  simp [Framed.all, Framed.next, h.sum_tag]

theorem Tagged.bodyLength (h : e.Tagged) :
    (Framed.new.all 0 e.tokens).bodyLength =
      (parseUint e.length.value).toOption.map fun n =>
        (n, (e.begins.text ++ e.length.text).length) := by
  have hsum : (Framed.new.all 0 e.tokens).bodyLength =
      (Framed.new.all 0 [e.begins, e.length]).bodyLength := by
    rw [show e.tokens = [e.begins, e.length] ++ (e.msgType :: e.content ++ [e.sum]) from rfl,
      Framed.all_append, Framed.bodyLength_all]
    intro t ht
    simp only [List.cons_append, List.mem_cons, List.mem_append, List.not_mem_nil, or_false] at ht
    rcases ht with rfl | ht | rfl
    · simp [h.msgType_tag]
    · exact (h.content_tag t ht).2.1
    · simp [h.sum_tag]
  have hend : (e.begins.text ++ e.length.text).length =
      e.begins.text.length + 2 + e.length.value.length + 1 := by
    have hdigits : digits 9 = 1 := by decide +kernel
    simp [Token.valOff, h.length_tag, hdigits]
    omega
  rw [hsum, hend]
  simp [Framed.all, Framed.next, h.length_tag]

/-- The framing is right if BodyLength and CheckSum say what is so. -/
theorem Tagged.checks_iff (h : e.Tagged) {len sum} (hlen : parseUint e.length.value = .ok len)
    (hsum : readChecksum e.sum.value = .ok sum) :
    (Framed.new.all 0 e.tokens).Checks (texts e.tokens) ↔
      checksumOf (texts e.head) = sum ∧ len = e.body.length := by
  have htake : (texts e.tokens).take (texts e.head).length = texts e.head := by
    simp [tokens]
  have hbody : (texts e.head).length - (e.begins.text ++ e.length.text).length =
      e.body.length := by
    simp [head, body]
    omega
  simp only [Framed.Checks, h.checksum, h.bodyLength, hlen, hsum, Except.toOption, Option.map_some,
    Option.some.injEq, Prod.mk.injEq]
  constructor
  · rintro ⟨pos, n, ⟨rfl, rfl⟩, hcheck, hdeclared⟩
    rw [htake] at hcheck
    exact ⟨hcheck, by rw [hdeclared len _ ⟨rfl, rfl⟩, hbody]⟩
  · rintro ⟨hcheck, hdeclared⟩
    refine ⟨_, sum, ⟨rfl, rfl⟩, by rw [htake, hcheck], ?_⟩
    rintro declared start ⟨rfl, rfl⟩
    rw [hbody, hdeclared]

end Envelope

variable {ordinal : Nat}

theorem checkPlace_later {tag} :
    Parser.checkPlace .strict (ordinal + 3) tag = .ok () ↔ tag ≠ 8 ∧ tag ≠ 9 ∧ tag ≠ 35 := by
  by_cases h : tag = 8 ∨ tag = 9 ∨ tag = 35
  · simp [Parser.checkPlace, Parser.expected, h, reject]
    omega
  · simp [Parser.checkPlace, Parser.expected, h]
    omega

theorem checkPlace_first {tag expected} (h : Parser.expected ordinal = some expected) :
    Parser.checkPlace .strict ordinal tag = .ok () ↔ tag = expected := by
  by_cases htag : tag = expected
  · simp [Parser.checkPlace, h, htag]
  · simp [Parser.checkPlace, h, htag, garbled]

variable {d : Dictionary}

theorem admitsAll_later :
    AdmitsAll d (ordinal + 3) ts ↔ ∀ t ∈ ts, (t.tag ≠ 8 ∧ t.tag ≠ 9 ∧ t.tag ≠ 35) ∧
      (t.tag = 10 → ∃ n, readChecksum t.value = .ok n) := by
  induction ts generalizing ordinal with
  | nil => simp [AdmitsAll]
  | cons t ts ih =>
    rw [AdmitsAll, show ordinal + 3 + 1 = (ordinal + 1) + 3 by omega, ih, List.forall_mem_cons]
    refine and_congr_left fun _ => ⟨fun h => ⟨checkPlace_later.mp h.place, h.checksum⟩, ?_⟩
    rintro ⟨hplace, hsum⟩
    exact ⟨checkPlace_later.mpr hplace, fun h => absurd h hplace.1, fun h => absurd h hplace.2.1,
      fun h => absurd h hplace.2.2, hsum⟩

/-- Fields that keep the rules on their places, of which only the last is CheckSum, are
those of an envelope if there is a CheckSum. -/
theorem tagged_of_admits (hadmits : AdmitsAll d 0 ts) (hlast : ∀ t ∈ ts.dropLast, t.tag ≠ 10)
    (hten : ∃ t ∈ ts, t.tag = 10) :
    ∃ e : Envelope, ts = e.tokens ∧ e.Tagged := by
  obtain ⟨u, hu, huten⟩ := hten
  have hne : ts ≠ [] := List.ne_nil_of_mem hu
  obtain ⟨init, sum, rfl⟩ : ∃ init sum, ts = init ++ [sum] :=
    ⟨ts.dropLast, ts.getLast hne, (List.dropLast_append_getLast hne).symm⟩
  rw [List.dropLast_concat] at hlast
  have hsum : sum.tag = 10 := by
    rcases List.mem_append.mp hu with h | h
    · exact absurd huten (hlast u h)
    · rw [← List.mem_singleton.mp h, huten]
  -- the first three fields stand before CheckSum, since CheckSum may not take their places
  rcases init with _ | ⟨begins, _ | ⟨length, _ | ⟨msgType, content⟩⟩⟩
  · have := (checkPlace_first rfl).mp hadmits.1.place
    omega
  · have := (checkPlace_first rfl).mp hadmits.2.1.place
    omega
  · have := (checkPlace_first rfl).mp hadmits.2.2.1.place
    omega
  · obtain ⟨h8, h9, h35, hrest⟩ := hadmits
    refine ⟨⟨begins, length, msgType, content, sum⟩, rfl, (checkPlace_first rfl).mp h8.place,
      (checkPlace_first rfl).mp h9.place, (checkPlace_first rfl).mp h35.place, ?_, hsum⟩
    intro t ht
    obtain ⟨h8, h9, h35⟩ := (admitsAll_later.mp hrest t (List.mem_append_left _ ht)).1
    exact ⟨h8, h9, h35, hlast t (by simp [ht])⟩

namespace Envelope

theorem Tagged.admits_iff (h : e.Tagged) :
    AdmitsAll d 0 e.tokens ↔ e.begins.value = d.beginString ∧
      (∃ n, parseUint e.length.value = .ok n) ∧ e.msgType.value.all isAlphanumeric ∧
      ∃ n, readChecksum e.sum.value = .ok n := by
  rw [show e.tokens = e.begins :: e.length :: e.msgType :: (e.content ++ [e.sum]) from rfl]
  change _ ∧ _ ∧ _ ∧ AdmitsAll d (0 + 3) _ ↔ _
  rw [admitsAll_later]
  constructor
  · rintro ⟨h8, h9, h35, hrest⟩
    exact ⟨h8.beginString h.begins_tag, h9.bodyLength h.length_tag, h35.msgType h.msgType_tag,
      (hrest e.sum (by simp)).2 h.sum_tag⟩
  · rintro ⟨hbegin, hlen, htype, hsum⟩
    refine ⟨⟨(checkPlace_first rfl).mpr h.begins_tag, fun _ => hbegin, ?_, ?_, ?_⟩,
      ⟨(checkPlace_first rfl).mpr h.length_tag, ?_, fun _ => hlen, ?_, ?_⟩,
      ⟨(checkPlace_first rfl).mpr h.msgType_tag, ?_, ?_, fun _ => htype, ?_⟩, ?_⟩
    all_goals try simp [h.begins_tag, h.length_tag, h.msgType_tag]
    rintro t (ht | rfl)
    · obtain ⟨h8, h9, h35, h10⟩ := h.content_tag t ht
      exact ⟨⟨h8, h9, h35⟩, fun h => absurd h h10⟩
    · exact ⟨by simp [h.sum_tag], fun _ => hsum⟩

end Envelope

theorem exists_checksum {c} (h : (Framed.new.all 0 ts).checksum = some c) :
    ∃ t ∈ ts, t.tag = 10 := by
  by_contra hnone
  rw [Framed.checksum_all fun t ht hten => hnone ⟨t, ht, hten⟩] at h
  cases h

namespace Envelope

/-- Fields that keep the rules on their places and are framed right make an envelope. -/
theorem exists_of_checks (hadmits : AdmitsAll d 0 ts) (hlast : ∀ t ∈ ts.dropLast, t.tag ≠ 10)
    (hchecks : (Framed.new.all 0 ts).Checks (texts ts)) :
    ∃ e : Envelope, ts = e.tokens ∧ e.Sound d := by
  obtain ⟨pos, sum, hnoted, -⟩ := id hchecks
  obtain ⟨e, rfl, htagged⟩ := tagged_of_admits hadmits hlast (exists_checksum hnoted)
  obtain ⟨hbegin, ⟨len, hlen⟩, htype, ⟨sum, hsum⟩⟩ := htagged.admits_iff.mp hadmits
  obtain ⟨rfl, rfl⟩ := (htagged.checks_iff hlen hsum).mp hchecks
  exact ⟨e, rfl, { htagged with
    begins_value := hbegin, length_value := hlen, msgType_value := htype, sum_value := hsum }⟩

theorem Sound.admits (h : e.Sound d) : AdmitsAll d 0 e.tokens :=
  h.toTagged.admits_iff.mpr
    ⟨h.begins_value, ⟨_, h.length_value⟩, h.msgType_value, ⟨_, h.sum_value⟩⟩

theorem Sound.checks (h : e.Sound d) :
    (Framed.new.all 0 e.tokens).Checks (texts e.tokens) :=
  (h.toTagged.checks_iff h.length_value h.sum_value).mpr ⟨rfl, rfl⟩

end Envelope

/-! ## Delimiters -/

theorem sum_textsWith (delim : UInt8) (ts : List Token) :
    ((textsWith delim ts).map UInt8.toNat).sum + ts.length * soh.toNat =
      ((texts ts).map UInt8.toNat).sum + ts.length * delim.toNat := by
  induction ts with
  | nil => simp
  | cons t ts ih =>
    have hone : ((t.textWith delim).map UInt8.toNat).sum + soh.toNat =
        (t.text.map UInt8.toNat).sum + delim.toNat := by
      simp [Token.textWith, Token.text]
      omega
    simp only [textsWith_cons, texts_cons, List.map_append, List.sum_append, List.length_cons,
      Nat.add_mul, Nat.one_mul]
    omega

theorem sohChecksum_textsWith (delim : UInt8) (ts : List Token) :
    sohChecksum (textsWith delim ts) ts.length delim = checksumOf (texts ts) := by
  have hsum := sum_textsWith delim ts
  simp only [sohChecksum, checksumOf, mul_sub]
  omega

theorem Framed.ordinal_all (pos : Nat) (ts : List Token) (f : Framed) :
    (f.all pos ts).ordinal = f.ordinal + ts.length := by
  induction ts generalizing pos f with
  | nil => rfl
  | cons t ts ih =>
    rw [all, ih, List.length_cons]
    simp only [next]
    omega

variable {delim : UInt8} {p : Parser}

namespace Parser

theorem checkFraming_congr {buf buf' delim'} (h : ∀ pos sum, p.checksum = some (pos, sum) →
      sohChecksum (buf.take pos) (p.ordinal - 1) delim =
        sohChecksum (buf'.take pos) (p.ordinal - 1) delim') :
    p.checkFraming buf delim = p.checkFraming buf' delim' := by
  unfold checkFraming
  cases hsum : p.checksum with
  | none => rfl
  | some c =>
    obtain ⟨pos, sum⟩ := c
    simp only [h pos sum hsum]

theorem conclude_of_strict {wire} (h : p.framing = .strict) :
    p.conclude wire delim = (checkFraming wire delim p.finishRegions).bind fun _ =>
      if p.finishRegions.msg.msgDef.isNone ∧ ¬ hasMsgType p.finishRegions.msg then
        reject Reason.requiredTagMissing 35 "no MsgType(35)"
      else .ok ({ p.finishRegions.msg with wire, clean := delim = soh },
        p.finishRegions.terminators) := by
  have hframing : p.finishRegions.framing = .strict := by
    rw [← h]
    unfold finishRegions
    split <;> rfl
  unfold conclude
  simp only [hframing]
  cases checkFraming wire delim p.finishRegions with
  | error e => rfl
  | ok u => simp [bind, Except.bind, pure, Except.pure, hframing]

end Parser

/-- Both texts of a message have the same checksum. -/
theorem Envelope.Tagged.checkFraming_textsWith (h : e.Tagged) (delim : UInt8) (z : Track) :
    Parser.checkFraming (textsWith delim e.tokens) delim (z.parser (Framed.new.all 0 e.tokens)) =
      Parser.checkFraming (texts e.tokens) soh (z.parser (Framed.new.all 0 e.tokens)) := by
  refine Parser.checkFraming_congr fun pos sum hsum => ?_
  have hpos : pos = (texts e.head).length := by
    change (Framed.new.all 0 e.tokens).checksum = some (pos, sum) at hsum
    rw [h.checksum, Option.map_eq_some_iff] at hsum
    obtain ⟨n, -, heq⟩ := hsum
    exact (Prod.mk.inj heq).1.symm
  have hordinal : (z.parser (Framed.new.all 0 e.tokens)).ordinal - 1 = e.head.length := by
    change (Framed.new.all 0 e.tokens).ordinal - 1 = _
    rw [Framed.ordinal_all, Envelope.tokens, List.length_append]
    simp [Framed.new]
  have htake : (textsWith delim e.tokens).take pos = textsWith delim e.head := by
    rw [hpos, ← length_textsWith delim, Envelope.tokens, textsWith_append, List.take_left]
  have htake' : (texts e.tokens).take pos = texts e.head := by
    rw [hpos, Envelope.tokens, texts_append, List.take_left]
  rw [hordinal, htake, htake', sohChecksum_textsWith, sohChecksum_soh]

/-- Fields that keep the rules on their places and pass the checks make an envelope,
whatever ends them. -/
theorem Envelope.exists_of_checkFraming (hadmits : AdmitsAll d 0 ts) (hlast : ∀ t ∈ ts.dropLast, t.tag ≠ 10)
    (h : Parser.checkFraming (textsWith delim ts) delim (z.parser (Framed.new.all 0 ts)) = .ok ()) :
    ∃ e : Envelope, ts = e.tokens ∧ e.Sound d := by
  cases hnoted : (Framed.new.all 0 ts).checksum with
  | none =>
    have hnone : (z.parser (Framed.new.all 0 ts)).checksum = none := hnoted
    unfold Parser.checkFraming at h
    rw [hnone] at h
    cases h
  | some c =>
    obtain ⟨e, rfl, htagged⟩ := tagged_of_admits hadmits hlast (exists_checksum hnoted)
    rw [htagged.checkFraming_textsWith] at h
    exact exists_of_checks hadmits hlast (checkFraming_iff.mp h)

/-! ## Whole messages -/

namespace Sections

/-- A message that ended in its header or its body has an empty trailer. -/
def close : Sections → Sections
  | header h => trailer h .nil .nil
  | body h b => trailer h b .nil
  | trailer h b t => trailer h b t

/-- The message that was received as `wire`. -/
def message (d : Dictionary) (msgDef : Option MsgIdx) (wire : Bytes) (s : Sections) : Message where
  dict := d
  msgDef := msgDef
  wire := wire
  arena := []
  tape := s.tape
  bodyStart := s.bodyStart
  trailerStart := s.trailerStart
  clean := true

end Sections

theorem finishRegions_path (d : Dictionary) (msgDef : Option MsgIdx) (f : Framed) (s : Sections) :
    ((Track.mk d msgDef ⟨s, []⟩ none).parser f).finishRegions =
      { (Track.mk d msgDef ⟨s.close, []⟩ none).parser f with region := s.region } := by
  cases s with
  | header h =>
    simp [Parser.finishRegions, Parser.leaveHeader, Message.pushGap, Track.parser, Track.message,
      Track.tape, Path.tape, Path.tapeOf, Sections.tape, Track.stack, Path.frames, Path.framesOf,
      Sections.bodyStart, Sections.trailerStart, Sections.region, Sections.close, gapSlots,
      headerGap]
  | body h b =>
    simp [Parser.finishRegions, Track.parser, Track.message, Track.tape, Path.tape, Path.tapeOf,
      Sections.tape, Track.stack, Path.frames, Path.framesOf, Sections.bodyStart,
      Sections.trailerStart, Sections.region, Sections.close, Nat.add_assoc]
  | trailer h b t => rfl

def Track.new (d : Dictionary) : Track := ⟨d, none, ⟨.header .nil, []⟩, none⟩

/-- The fields build the sections `s` of a message of type `msgDef`. -/
def Builds (d : Dictionary) (ts : List Token) (msgDef : Option MsgIdx) (s : Sections) : Prop :=
  ∃ z, (Track.new d).feed ts = some z ∧ z.fresh = none ∧ z.msgDef = msgDef ∧
    Path.finish z.path.sections z.path.levels .nil = some s

theorem closeAll_ok (h : Parser.closeAll (z.parser f).stack (z.parser f) = .ok p) :
    z.fresh = none ∧ ∃ s, Path.finish z.path.sections z.path.levels .nil = some s ∧
      p = (Track.mk z.dict z.msgDef ⟨s, []⟩ none).parser f := by
  obtain ⟨d, msgDef, ⟨s, levels⟩, _ | o⟩ := z
  · have hclose := closeAll_path d msgDef f s levels .nil
    rw [Path.add_nil] at hclose
    rw [← toOption_eq_some] at h
    have hsome := hclose.symm.trans h
    obtain ⟨s', hs', rfl⟩ := Option.map_eq_some_iff.mp hsome
    exact ⟨rfl, s', hs', rfl⟩
  · -- a group that waits for its first instance cannot be closed
    have hdeclares := o.declares
    have hgroup : ((Track.mk d msgDef ⟨s, levels⟩ (some o)).parser f).closeGroup.toOption = none := by
      change Except.toOption (if 0 ≠ o.declared then _ else _) = _
      rw [if_pos (by omega)]
      rfl
    obtain ⟨p', hp', -⟩ := bind_eq_ok h
    rw [toOption_eq_some.mpr hp'] at hgroup
    cases hgroup

variable {s : Sections}

theorem closeAll_finish (hz : z.fresh = none) (h : Path.finish z.path.sections z.path.levels .nil = some s) :
    Parser.closeAll (z.parser f).stack (z.parser f) =
      .ok ((Track.mk z.dict z.msgDef ⟨s, []⟩ none).parser f) := by
  obtain ⟨d, msgDef, ⟨s, levels⟩, fresh⟩ := z
  subst hz
  have hclose := closeAll_path d msgDef f s levels .nil
  rw [Path.add_nil, h, Option.map_some, toOption_eq_some] at hclose
  exact hclose

/-- A message must say what it is. -/
def Sections.Typed (msgDef : Option MsgIdx) (s : Sections) : Prop :=
  msgDef.isSome ∨ (s.tape.take s.bodyStart).any fun e => e.tag = 35 && e.isField

theorem typed_iff {msgDef} : ¬ (((Track.mk d msgDef ⟨s, []⟩ none).parser f).msg.msgDef.isNone ∧
      ¬ Parser.hasMsgType ((Track.mk d msgDef ⟨s, []⟩ none).parser f).msg) ↔ s.Typed msgDef := by
  simp only [Parser.hasMsgType, Sections.Typed, Track.parser, Track.message, Track.tape, Path.tape,
    Path.tapeOf]
  cases msgDef <;> simp

/-- The message is what the sections hold, if the framing is right and it says what it is. -/
theorem conclude_iff {msgDef buf o r} :
    (((Track.mk d msgDef ⟨s, []⟩ none).parser f).marking o).conclude buf delim = .ok r ↔
      Parser.checkFraming buf delim ((Track.mk d msgDef ⟨s.close, []⟩ none).parser f) = .ok () ∧
        s.close.Typed msgDef ∧
        r = ({ s.close.message d msgDef buf with clean := delim = soh }, o) := by
  set p := (Track.mk d msgDef ⟨s.close, []⟩ none).parser f with hp
  have hmsg : { p.msg with wire := buf, clean := decide (delim = soh) } =
      { s.close.message d msgDef buf with clean := delim = soh } := by
    simp [hp, Sections.message, Track.parser, Track.message, Track.tape, Path.tape, Path.tapeOf]
  rw [Parser.conclude_of_strict rfl, Parser.finishRegions_marking, finishRegions_path, ← hp,
    ← typed_iff (d := d) (f := f), ← hp, ← hmsg]
  constructor
  · intro h
    obtain ⟨u, hu, h⟩ := bind_eq_ok h
    split at h
    · cases h
    · rename_i hnot
      cases h
      exact ⟨hu, hnot, rfl⟩
  · intro h
    obtain ⟨hu, hnot, rfl⟩ := h
    change (Parser.checkFraming buf delim p).bind _ = Except.ok _
    rw [hu]
    change (if p.msg.msgDef.isNone ∧ ¬ Parser.hasMsgType p.msg then _ else _) = _
    rw [if_neg hnot]
    rfl

/-- **What is accepted with any delimiter, and what message it is.** -/
theorem run_iff {bytes o r} :
    (((Track.new d).parser Framed.new).marking o).run bytes delim = .ok r ↔
      ∃ (e : Envelope) (msgDef : Option MsgIdx) (s : Sections), bytes = textsWith delim e.tokens ∧
        e.Sound d ∧ LexesBy delim d none e.tokens none ∧ Builds d e.tokens msgDef s ∧
        s.close.Typed msgDef ∧
        r = ({ s.close.message d msgDef bytes with clean := delim = soh },
          o.map (· ++ stops 0 e.tokens)) := by
  constructor
  · intro h
    obtain ⟨progress, hloop, h⟩ := bind_eq_ok h
    obtain ⟨ts, rest, z, pending, rfl, hreads, hfeed, rfl⟩ :=
      loop_found [] o rfl (Nat.le_refl _) hloop
    split at h
    · cases h
    · rename_i hpending
      split at h
      · cases h
      · rename_i hpos
        obtain rfl : rest = [] := by simpa using hpos
        obtain rfl : pending = none := by simpa using hpending
        obtain ⟨p, hclose, h⟩ := bind_eq_ok h
        rw [Parser.stack_marking, Parser.closeAll_marking] at hclose
        obtain ⟨q, hq, rfl⟩ := map_eq_ok hclose
        obtain ⟨hfresh, s, hfinish, rfl⟩ := closeAll_ok hq
        obtain ⟨hcheck, htyped, rfl⟩ := conclude_iff.mp h
        rw [List.append_nil] at hcheck ⊢
        obtain ⟨e, rfl, hsound⟩ := Envelope.exists_of_checkFraming hreads.admits hreads.last hcheck
        have hdict : z.dict = d := Track.dict_feed hfeed
        rw [hdict]
        exact ⟨e, z.msgDef, s, rfl, hsound, hreads.lexes, ⟨z, hfeed, hfresh, rfl, hfinish⟩, htyped,
          rfl⟩
  · intro h
    obtain ⟨e, msgDef, s, rfl, hsound, hlexes, ⟨z, hfeed, hfresh, rfl, hfinish⟩, htyped, rfl⟩ := h
    have hreads : ReadsBy delim d Framed.new none e.tokens none :=
      ⟨hlexes, hsound.admits, by simpa [Envelope.tokens] using hsound.head_ne_ten⟩
    have hloop := loop_feedWith [] o rfl (Nat.le_refl _) hreads hfeed
    have hclose := closeAll_finish (f := Framed.new.all 0 e.tokens) hfresh hfinish
    have hdict : z.dict = d := Track.dict_feed hfeed
    rw [hdict] at hclose
    have hcheck : Parser.checkFraming (textsWith delim e.tokens) delim
        ((Track.mk d z.msgDef ⟨s.close, []⟩ none).parser (Framed.new.all 0 e.tokens)) = .ok () := by
      rw [hsound.checkFraming_textsWith, checkFraming_iff]
      exact hsound.checks
    have hall : Parser.closeAll (z.parser (Framed.new.all 0 e.tokens)).stack
        ((z.parser (Framed.new.all 0 e.tokens)).marking (o.map (· ++ stops 0 e.tokens))) =
          .ok (((Track.mk d z.msgDef ⟨s, []⟩ none).parser (Framed.new.all 0 e.tokens)).marking
            (o.map (· ++ stops 0 e.tokens))) := by
      rw [Parser.closeAll_marking, hclose]
      rfl
    simp only [List.nil_append, List.length_nil] at hloop
    simp only [Parser.run, length_textsWith, hloop, bind, Except.bind, Option.isSome_none,
      Bool.false_eq_true, if_false, ne_eq, not_true_eq_false, Parser.stack_marking, hall]
    exact conclude_iff.mpr ⟨hcheck, htyped, rfl⟩

/-- **What is accepted on the wire, and what message it is.** -/
theorem parse_iff {w m} : Message.parse d w = .ok m ↔
      ∃ (e : Envelope) (msgDef : Option MsgIdx) (s : Sections), w = texts e.tokens ∧ e.Sound d ∧
        LexesBy soh d none e.tokens none ∧ Builds d e.tokens msgDef s ∧ s.close.Typed msgDef ∧
        m = s.close.message d msgDef w := by
  have hstart : Parser.new d .strict = ((Track.new d).parser Framed.new).marking none := rfl
  rw [Message.parse, hstart]
  constructor
  · intro h
    obtain ⟨r, hrun, h⟩ := bind_eq_ok h
    obtain ⟨e, msgDef, s, hw, hsound, hlexes, hbuilds, htyped, rfl⟩ := run_iff.mp hrun
    cases h
    exact ⟨e, msgDef, s, hw, hsound, hlexes, hbuilds, htyped, rfl⟩
  · intro h
    obtain ⟨e, msgDef, s, hw, hsound, hlexes, hbuilds, htyped, rfl⟩ := h
    rw [run_iff.mpr ⟨e, msgDef, s, hw, hsound, hlexes, hbuilds, htyped, rfl⟩]
    rfl

end Babelfix.Tape
