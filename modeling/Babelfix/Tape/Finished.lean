import Babelfix.Tape.Delimited
import Babelfix.Tape.Reading

/-! # Messages that were read

What the parser makes of the fields it has read: every group is closed, the sections are
bounded, and each field's bytes are where its entry says once the delimiters have been
replaced. -/
namespace Babelfix.Tape

open Lib

section

variable {d : Dictionary} {framing : Framing} {P : Entry → Prop} {z : Draft} {p p' : Parser}

/-! ## The end of the fields -/

theorem Drafted.closeAll (h : Drafted d framing P z p) (hsize : p.msg.tape.length < 2 ^ 32) {stack}
    (hstack : p.stack = stack) (hclose : Parser.closeAll stack p = .ok p') :
    ∃ z', Drafted d framing P z' p' ∧ z'.opened = [] ∧
      p'.msg.tape.length = p.msg.tape.length ∧
      ∀ {L : Entry → Nat → Prop} {spot : Region},
        PairedDraft L spot none z → PairedDraft L spot none z' := by
  induction stack generalizing p z with
  | nil =>
    cases hclose
    exact ⟨z, h, h.opened_eq_nil.mpr hstack, rfl, fun hpaired => hpaired⟩
  | cons frame stack ih =>
    obtain ⟨p₁, hclose₁, hclose⟩ := bind_eq_ok hclose
    obtain ⟨hdrafted, hlen, htail⟩ := h.closeGroup hsize (by simp [hstack]) hclose₁
    rw [hstack] at htail
    obtain ⟨z', hdrafted', hnil, hlen', hpaired⟩ := ih hdrafted (by omega) htail hclose
    exact ⟨z', hdrafted', hnil, hlen'.trans hlen, fun hp => hpaired (hp.close h.sane)⟩

theorem Drafted.finishRegions (h : Drafted d framing P z p) (hnil : z.opened = [])
    (hsize : p.msg.tape.length + headerGap < 2 ^ 32) :
    ∃ gap, p.finishRegions.msg.Lays P z.header gap z.body z.trailer := by
  obtain ⟨region, header, gap, body, trailer, opened⟩ := z
  subst hnil
  have htape : p.msg.tape = (header ++ (gapOf gap ++ (body ++ trailer))).preorder := h.tape
  have hregion := h.region
  have hbegun := h.begun
  unfold Parser.finishRegions
  cases region with
  | header =>
    obtain ⟨rfl, rfl, rfl, htape', hbody, -⟩ := h.leaveHeader hsize
    rw [hregion]
    exact ⟨headerGap, htape', hbody, by simpa using hbody, h.header, .nil, .nil⟩
  | body =>
    obtain rfl := hbegun.2 (by simp)
    rw [hregion]
    refine ⟨gap, htape, ?_, ?_, h.header, h.body, .nil⟩
    · simpa [Draft.bodyStart] using h.bodyStart
    · simp only
      rw [asU32_of_lt (by omega), htape]
      simp
      omega
  | trailer =>
    rw [hregion]
    refine ⟨gap, htape, ?_, ?_, h.header, h.body, h.trailer⟩
    · simpa [Draft.bodyStart] using h.bodyStart
    · simpa [Draft.trailerStart] using h.trailerStart

end

/-- The entry of a BeginString that was supplied. -/
def Supplied (m : Message) (e : Entry) : Prop :=
  e = { tag := 8, kind := .field, seg := .arena, valOff := 2, len := asU32 m.dict.beginString.length } ∧
    m.arena = writeUint 8 ++ 61 :: (m.dict.beginString ++ [soh])

variable {header body trailer : Forest Entry} {gap : Nat}

theorem lays_supplyBeginString {p : Parser} {P} (h : p.msg.Lays P header gap body trailer)
    (harena : p.msg.arena = []) :
    ∃ header', p.supplyBeginString.msg.Lays (fun e => P e ∨ Supplied p.supplyBeginString.msg e)
        header' gap body trailer ∧
      ∀ {L : Entry → Nat → Prop}, Paired L none header none → Paired L none header' none := by
  unfold Parser.supplyBeginString
  split
  · exact ⟨header, h.mono fun e => .inl, fun hp => hp⟩
  · refine ⟨.node (p.msg.appendField 8 p.msg.dict.beginString).2 .nil header, ?_, ?_⟩
    · refine ⟨?_, ?_, ?_, ?_, h.body.mono fun e _ => .inl, h.trailer.mono fun e _ => .inl⟩
      · simp [h.tape, Message.appendField]
      · simp only [h.bodyStart, Message.appendField, Forest.size_node, Forest.size_nil]
        omega
      · simp only [h.trailerStart, Message.appendField, Forest.size_node, Forest.size_nil]
        omega
      · refine .field rfl rfl (.inr ⟨?_, ?_⟩) (h.header.mono fun e _ => .inl)
        · simp [Message.appendField, harena, asU32, digits]
        · simp [Message.appendField, harena]
    · intro L hp
      exact ⟨rfl, rfl, hp⟩

variable {delim : UInt8} {m : Message}

/-- What is concluded: the sections are bounded, and a fragment has a BeginString. -/
theorem conclude_ok {p : Parser} {wire o} (h : p.conclude wire delim = .ok (m, o)) :
    ∃ q clean, (p.framing = .strict ∧ q = p.finishRegions ∨
        p.framing = .fragment ∧ q = p.finishRegions.supplyBeginString) ∧
      m = { q.msg with wire, clean } ∧ o = q.terminators := by
  have hframing : p.finishRegions.framing = p.framing := by
    unfold Parser.finishRegions
    split <;> rfl
  cases hp : p.framing with
  | strict =>
    rw [Parser.conclude_of_strict hp] at h
    obtain ⟨-, -, h⟩ := bind_eq_ok h
    split at h
    · cases h
    · cases h
      exact ⟨_, _, .inl ⟨rfl, rfl⟩, rfl, rfl⟩
  | fragment =>
    unfold Parser.conclude at h
    simp only [hframing, hp] at h
    obtain ⟨q, hq, h⟩ := bind_eq_ok h
    cases hq
    split at h
    · cases h
    · cases h
      exact ⟨_, _, .inr ⟨rfl, rfl⟩, rfl, rfl⟩

/-! ## The run -/

theorem Message.Lays.withWire {P Q} (h : m.Lays P header gap body trailer) (hPQ : ∀ e, P e → Q e)
    (wire : Bytes) (clean : Bool) :
    Message.Lays { m with wire, clean } Q header gap body trailer := by
  obtain ⟨htape, hbody, htrailer, hh, hb, ht⟩ := h.mono hPQ
  exact ⟨htape, hbody, htrailer, hh, hb, ht⟩

theorem textsWith_soh (ts : List Token) : textsWith soh ts = texts ts := rfl

theorem finishRegions_notes (p : Parser) : p.finishRegions.notes = p.notes := by
  unfold Parser.finishRegions
  split <;> rfl

theorem supplyBeginString_notes (p : Parser) : p.supplyBeginString.notes = p.notes := by
  unfold Parser.supplyBeginString
  split <;> rfl

section

variable {d : Dictionary} {framing : Framing} {delim : UInt8} {places : Option (List Nat)}
variable {buf : Bytes} {ts : List Token} {z : Draft} {s : Parser.Progress} {last : Bool}
variable {p q : Parser}

/-- What is left of the parser when every field has been read: nothing is open, and the
tape has at most the header's slots and `n` entries more. -/
structure Ended (d : Dictionary) (p : Parser) (n : Nat) (q : Parser) : Prop where
  dict : q.msg.dict = d
  stack : q.stack = []
  types : ∀ m ∈ q.msg.msgDef, ∃ msgType, d.message msgType = some m
  length : q.msg.tape.length ≤ p.msg.tape.length + headerGap + n
  notes : q.notes = p.notes

theorem Ended.supply {n} (h : Ended d p n q) : Ended d p (n + 1) q.supplyBeginString := by
  have hlength := h.length
  have hnotes := (supplyBeginString_notes q).trans h.notes
  unfold Parser.supplyBeginString at hnotes ⊢
  split
  · exact { h with length := by omega }
  · rename_i hnone
    rw [if_neg hnone] at hnotes
    refine ⟨h.dict, h.stack, h.types, ?_, hnotes⟩
    simp only [Message.appendField, List.length_cons]
    omega

theorem Reading.ended (h : Reading d framing delim places buf ts z s last)
    (hsize : s.parser.msg.tape.length + headerGap < 2 ^ 32)
    (hclose : Parser.closeAll s.parser.stack s.parser = .ok q) :
    Ended d s.parser 0 q.finishRegions ∧ q.finishRegions.msg.arena = [] ∧
      ∃ header gap body trailer, q.finishRegions.msg.Lays (Named ts) header gap body trailer ∧
        (s.pending = none → d.Compiled → d.KeepsData →
          Message.Pairs (Stated ts) header body trailer) := by
  obtain ⟨z', hdrafted, hnil, hlen, hpaired⟩ := h.drafted.closeAll (by omega) rfl hclose
  obtain ⟨gap, hlays⟩ := hdrafted.finishRegions hnil (by omega)
  have hnotes := (finishRegions_notes q).trans ((Parser.closeAll_onTape _).notes hclose)
  have hstack := hdrafted.opened_eq_nil.mp hnil
  refine ⟨?_, ?_, z'.header, gap, z'.body, z'.trailer, hlays, fun hnone hd hdata => ?_⟩
  · unfold Parser.finishRegions at hnotes ⊢
    cases hregion : q.region with
    | header =>
      rw [hregion] at hnotes
      refine ⟨hdrafted.dict, hstack, hdrafted.msgDef, ?_, hnotes⟩
      simp [Parser.leaveHeader, Message.pushGap, headerGap, hlen]
    | body | trailer =>
      rw [hregion] at hnotes
      exact ⟨hdrafted.dict, hstack, hdrafted.msgDef, by simp [hlen], hnotes⟩
  · rw [← hdrafted.arena]
    unfold Parser.finishRegions
    split <;> rfl
  · obtain ⟨spot, hp, -⟩ := h.paired hd hdata
    rw [hnone] at hp
    have hparts := (hpaired hp).parts
    simp only [ite_self] at hparts
    exact ⟨hparts .header, hparts .body, hparts .trailer⟩

end

/-- A message that was read from the fields `ts`, in sections. -/
structure ReadFrom (d : Dictionary) (framing : Framing) (ts : List Token) (m : Message)
    (header : Forest Entry) (gap : Nat) (body trailer : Forest Entry) : Prop where
  dict : m.dict = d
  lays : m.Lays (fun e => Named ts e ∨ framing = .fragment ∧ Supplied m e) header gap body trailer
  pairs : d.Compiled → d.KeepsData → Message.Pairs (Stated ts) header body trailer

variable {d : Dictionary} {framing : Framing}

/-- **What a run reads.** All bytes are fields, and the message is laid out. -/
theorem run_ok {buf} (places : Option (List Nat)) (hbuf : buf.length ≤ 2 ^ 32) {o}
    (h : ((Parser.new d framing).marking places).run buf delim = .ok (m, o)) :
    ∃ ts header gap body trailer, buf = textsWith delim ts ∧ m.wire = buf ∧
      o = places.map (· ++ stops 0 ts) ∧ ReadFrom d framing ts m header gap body trailer := by
  obtain ⟨s, hloop, h⟩ := bind_eq_ok h
  obtain ⟨last, hruns⟩ := Parser.loop_runs .start hloop
  obtain ⟨ts, z, hreading⟩ := Reading.of_runs hbuf hruns
  split at h
  · cases h
  · rename_i hpending
    split at h
    · cases h
    · rename_i hpos
      obtain ⟨p, hclose, h⟩ := bind_eq_ok h
      have hroom : s.parser.msg.tape.length + headerGap < 2 ^ 32 := by
        have := hreading.tape_le hbuf
        simp only [headerGap] at this ⊢
        omega
      obtain ⟨post, hpost⟩ := hreading.split
      have hall : buf = textsWith delim ts := by
        rw [not_not, hreading.pos, hpost, List.length_append, length_textsWith] at hpos
        rw [hpost, List.length_eq_zero_iff.mp (show post.length = 0 by omega), List.append_nil]
      obtain ⟨hend, harena, header, gap, body, trailer, hlays, hpairs⟩ := hreading.ended hroom hclose
      have hpairs := hpairs (by simpa using hpending)
      have hmarks {n : Nat} {q : Parser} (hq : Ended d s.parser n q) :
          q.terminators = places.map (· ++ stops 0 ts) := by
        rw [← hreading.noted.terminators]
        exact congrArg Parser.Notes.terminators hq.notes
      have hframing : p.framing = framing := by
        obtain ⟨z', hdrafted, -⟩ := hreading.drafted.closeAll (by omega) rfl hclose
        exact hdrafted.framing
      obtain ⟨q, clean, hq, rfl, rfl⟩ := conclude_ok h
      rw [hframing] at hq
      rcases hq with ⟨-, rfl⟩ | ⟨rfl, rfl⟩
      · exact ⟨ts, header, gap, body, trailer, hall, rfl, hmarks hend, hend.dict,
          hlays.withWire (fun e => .inl) buf clean, hpairs⟩
      · obtain ⟨header', hlays', hheader⟩ := lays_supplyBeginString hlays harena
        refine ⟨ts, header', gap, body, trailer, hall, rfl, hmarks hend.supply, hend.supply.dict,
          hlays'.withWire (fun e he => he.imp_right fun h => ⟨rfl, h⟩) buf clean, fun hd hdata => ?_⟩
        obtain ⟨hh, hb, ht⟩ := hpairs hd hdata
        exact ⟨hheader hh, hb, ht⟩

/-! ## Whole messages -/

section

variable {m : Message} {ts : List Token} {e : Entry}

theorem Named.spells (hwire : m.wire = texts ts) (hlen : m.wire.length ≤ 2 ^ 32) (h : Named ts e) :
    m.Spells e := by
  obtain ⟨t, pre, post, rfl, he⟩ := h
  have hsplit : m.wire = texts pre ++ (t.text ++ texts post) := by simp [hwire]
  obtain ⟨hspan, hvalue⟩ := fieldEntry_bytes e.depth hsplit hlen
  rw [← he] at hspan hvalue
  have htotal : (texts pre).length + t.text.length ≤ m.wire.length := by
    rw [hsplit]
    simp
  refine ⟨?_, ?_⟩
  · rw [he]
    rw [Token.length_text] at htotal
    simp only [Token.fieldEntry, Message.seg]
    rw [asU32_of_lt (by omega), asU32_of_lt (by omega)]
    omega
  · rw [hspan, hvalue, he]
    rfl

theorem Stated.states (hwire : m.wire = texts ts) (hlen : m.wire.length ≤ 2 ^ 32) {n}
    (h : Stated ts e n) : m.States e n := by
  obtain ⟨t, ⟨pre, post, rfl, he⟩, hn⟩ := h
  have hsplit : m.wire = texts pre ++ (t.text ++ texts post) := by simp [hwire]
  obtain ⟨-, hvalue⟩ := fieldEntry_bytes e.depth hsplit hlen
  rw [← he] at hvalue
  rwa [Message.States, hvalue]

theorem Supplied.spells (hlen : m.dict.beginString.length < 2 ^ 32) (h : Supplied m e) :
    m.Spells e := by
  obtain ⟨rfl, harena⟩ := h
  have hdigits : writeUint 8 = [56] := rfl
  have hvalue : asU32 m.dict.beginString.length = m.dict.beginString.length := asU32_of_lt hlen
  refine ⟨?_, ?_⟩
  · simp only [Message.seg, harena, hvalue, hdigits]
    simp
    omega
  · have htake : (61 :: (m.dict.beginString ++ [soh])).take (2 + m.dict.beginString.length) =
        61 :: (m.dict.beginString ++ [soh]) := List.take_of_length_le (by simp; omega)
    simp [Message.spanBytes, Message.value, Message.seg, harena, hvalue, hdigits, slice, htake]

end

/-- A message that was read has its fields where its entries say, once its bytes are the
fields' texts. -/
theorem ReadFrom.laid {ts} {m' : Message} (h : ReadFrom d framing ts m header gap body trailer)
    (hbegin : framing = .fragment → d.beginString.length < 2 ^ 32)
    (hm' : m' = { m with wire := texts ts, clean := m'.clean }) (hlen : (texts ts).length ≤ 2 ^ 32) :
    m'.Lays m'.Spells header gap body trailer ∧
      (d.Compiled → d.KeepsData → Message.Pairs m'.States header body trailer) := by
  have hwire : m'.wire = texts ts := by rw [hm']
  rw [← hwire] at hlen
  refine ⟨?_, fun hd hdata => (h.pairs hd hdata).mono fun e n => Stated.states hwire hlen⟩
  have hspells : ∀ e, Named ts e ∨ framing = .fragment ∧ Supplied m e → m'.Spells e := by
    intro e he
    rcases he with he | ⟨hfragment, he⟩
    · exact he.spells hwire hlen
    · have hsupplied : Supplied m' e := by
        rw [hm']
        exact he
      refine hsupplied.spells ?_
      rw [show m'.dict = d by rw [hm']; exact h.dict]
      exact hbegin hfragment
  have := h.lays.withWire hspells (texts ts) m'.clean
  rwa [← hm'] at this

theorem parse_lays {bytes} (hlen : bytes.length < 2 ^ 32) (h : Message.parse d bytes = .ok m) :
    ∃ header gap body trailer, m.Lays m.Spells header gap body trailer ∧
      (d.Compiled → d.KeepsData → Message.Pairs m.States header body trailer) := by
  obtain ⟨⟨m', o⟩, hrun, h⟩ := bind_eq_ok h
  cases h
  obtain ⟨ts, header, gap, body, trailer, rfl, hwire, -, hread⟩ :=
    run_ok none (by omega) hrun
  rw [textsWith_soh] at hwire hlen
  exact ⟨header, gap, body, trailer, hread.laid (by simp) (by rw [← hwire]) hlen.le⟩

/-- The bytes that are parsed: a fragment may lack its last delimiter. -/
def copied (framing : Framing) (bytes : Bytes) (delim : UInt8) : Bytes :=
  if framing = .fragment ∧ bytes.getLast? ≠ some delim then bytes ++ [delim] else bytes

theorem length_copied_le (framing : Framing) (bytes : Bytes) (delim : UInt8) :
    (copied framing bytes delim).length ≤ bytes.length + 1 := by
  unfold copied
  split <;> simp

/-- A message with another delimiter, or a fragment, that was read is laid out. -/
theorem parseCopy_lays {bytes} (hlen : bytes.length < 2 ^ 32)
    (hbegin : framing = .fragment → d.beginString.length < 2 ^ 32)
    (h : Message.parseCopy d bytes delim framing = .ok m) :
    ∃ header gap body trailer, m.Lays m.Spells header gap body trailer ∧
      (d.Compiled → d.KeepsData → Message.Pairs m.States header body trailer) := by
  have hbuf := length_copied_le framing bytes delim
  unfold Message.parseCopy at h
  rw [← copied] at h
  obtain ⟨⟨m', o⟩, hrun, h⟩ := bind_eq_ok h
  obtain ⟨ts, header, gap, body, trailer, hcopied, hwire, rfl, hread⟩ :=
    run_ok (some []) (by omega) hrun
  have hreplace := replace_stops delim [] ts
  simp only [List.nil_append, List.length_nil] at hreplace
  have htexts : (texts ts).length ≤ 2 ^ 32 := by
    rw [← length_textsWith delim, ← hcopied]
    omega
  cases h
  refine ⟨header, gap, body, trailer, hread.laid hbegin ?_ htexts⟩
  by_cases hsoh : delim = soh
  · subst hsoh
    rw [hcopied, textsWith_soh] at hwire
    simp [← hwire]
  · simp [hsoh, hcopied, hreplace]

end Babelfix.Tape
