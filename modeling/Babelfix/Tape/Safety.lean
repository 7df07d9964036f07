import Babelfix.Tape.Finished

/-! # Parsing is safe

Nothing the parser indexes is out of range and nothing it counts overflows, in any state
it passes through on any bytes, complete or not and with any delimiter: the places of
open groups are on the tape, the walk through the header ends where the body starts, and
depths fit a `u8` if groups do not nest deeper. -/
namespace Babelfix.Tape

open Lib

/-! ## Indices -/

/-- Groups nest less than `n` deep. -/
def Dictionary.NestsBelow (d : Dictionary) (n : Nat) : Prop := ∀ gs, d.Chain gs → gs.length < n

/-- The places that a walk through the header comes to, from sibling to sibling. -/
inductive Message.Walks (m : Message) : Nat → Prop
  | start : Walks m 0
  | next {i : Nat} (h : Walks m i) (hlt : i < m.bodyStart) : Walks m (nextSibling m.tape i)

/-- What was noted lies in the bytes: the delimiters to replace, and a CheckSum that does
not come before the body. -/
structure Parser.Notes.InRange (buf : Bytes) (k : Notes) : Prop where
  terminators : ∀ l ∈ k.terminators, ∀ i ∈ l, i < buf.length
  checksum : ∀ c ∈ k.checksum, c.1 ≤ buf.length ∧ 0 < k.ordinal ∧ ∀ b ∈ k.bodyLength, b.2 ≤ c.1

/-- Every index the parser may use from here is in range, and what it may count fits. -/
structure Parser.InRange (buf : Bytes) (p : Parser) : Prop where
  entry : ∀ frame ∈ p.stack, frame.entry < p.msg.tape.length
  inst : ∀ frame ∈ p.stack, ∀ i ∈ frame.inst, i < p.msg.tape.length
  group : ∀ frame ∈ p.stack, frame.group < p.msg.dict.groups.length
  depth : ∀ frame ∈ p.stack, frame.depth + 1 < 2 ^ 8
  count : ∀ frame ∈ p.stack, frame.count < u32Max
  msgDef : ∀ m ∈ p.msg.msgDef, m < p.msg.dict.messages.length
  bodyStart : p.msg.bodyStart ≤ p.msg.tape.length
  trailerStart : p.msg.trailerStart ≤ p.msg.tape.length
  /-- Late header fields are put where the header ends. -/
  header : p.stack = [] → p.region ≠ .header → ∀ i, p.msg.Walks i → i ≤ p.msg.bodyStart
  size : p.msg.tape.length + headerGap + 2 ≤ u32Max
  notes : p.notes.InRange buf

variable {P : Entry → Prop} {stack : List Frame}

theorem Stacks.length_eq {top opened} (h : Stacks P top opened stack) :
    stack.length = opened.length := by
  induction h with
  | nil => rfl
  | cons _ _ _ _ ih => rw [List.length_cons, List.length_cons, ih]

/-- Open groups are on the tape. -/
theorem Stacks.inRange {top opened} (h : Stacks P top opened stack) : ∀ frame ∈ stack,
      frame.entry < (openTape top opened).length ∧
      (∀ i ∈ frame.inst, i < (openTape top opened).length) ∧
      frame.depth < opened.length ∧ frame.count ≤ (openTape top opened).length := by
  induction h with
  | nil => simp
  | @cons o outer frame stack _ hframe _ _ ih =>
    have htape : (openTape top (o :: outer)).length =
        (openTape top outer).length + (o.closed.size + 1) := by
      rw [openTape, List.length_append, Opened.length_tape]
    intro x hx
    rcases List.mem_cons.mp hx with rfl | hx
    · have hroots := roots_length_le o.closed
      refine ⟨?_, fun i hi => ?_, ?_, ?_⟩
      · rw [hframe.entry, htape]
        omega
      · rw [hframe.inst] at hi
        obtain ⟨⟨e, c⟩, hinst, rfl⟩ := Option.map_eq_some_iff.mp hi
        have hsize := o.size_closed
        simp only [Opened.current, hinst, Option.map_some, Option.getD_some, List.length_cons] at hsize
        omega
      · rw [hframe.depth, List.length_cons]
        omega
      · rw [hframe.count]
        omega
    · obtain ⟨hentry, hinst, hdepth, hcount⟩ := ih x hx
      refine ⟨by omega, fun i hi => ?_, ?_, by omega⟩
      · have := hinst i hi
        omega
      · rw [List.length_cons]
        omega

variable {m : Message}

/-- A walk over whole trees ends where they end. -/
theorem walks_le {f : Forest Entry} {post} (hfits : f.Fits Entry.span)
    (htape : m.tape = f.preorder ++ post) (hbody : m.bodyStart = f.size) {i} (h : m.Walks i) :
    i ≤ m.bodyStart := by
  suffices hsplit : ∃ g r, f = g ++ r ∧ i = g.size by
    obtain ⟨g, r, rfl, rfl⟩ := hsplit
    rw [hbody, Forest.size_append]
    omega
  induction h with
  | start => exact ⟨.nil, f, rfl, rfl⟩
  | @next i _ hlt ih =>
    obtain ⟨g, r, rfl, rfl⟩ := ih
    cases r with
    | nil =>
      rw [hbody, Forest.append_nil] at hlt
      omega
    | node e c r =>
      have hentry : entryAt m.tape g.size = e := by
        rw [htape, Forest.preorder_append, Forest.preorder_node, ← Forest.length_preorder g,
          List.append_assoc, List.cons_append, entryAt_length]
      have hspan : e.span = c.size + 1 := ((Forest.fits_append _ _ _).mp hfits).2.1
      refine ⟨g ++ .node e c .nil, r, ?_, ?_⟩
      · rw [Forest.append_assoc]
        rfl
      · rw [nextSibling, hentry, hspan, Forest.size_append, Forest.size_node]
        simp

variable {p : Parser}

/-- **A parser that drafts a tape is in range.** -/
theorem Drafted.inRange {d framing z buf} (h : Drafted d framing P z p) (hd : d.Compiled)
    (hnest : d.NestsBelow 255) (hsize : p.msg.tape.length + headerGap + 2 ≤ u32Max)
    (hnotes : p.notes.InRange buf) : p.InRange buf := by
  have hframes := h.frames.inRange
  have htape : openTape z.top.preorder z.opened = p.msg.tape := h.tape.symm
  rw [htape] at hframes
  have hnested : z.opened.length < 255 := by
    rw [← h.frames.length_eq]
    simpa using hnest _ h.chain
  have htop : z.top.size ≤ p.msg.tape.length := by
    rw [← htape]
    induction z.opened with
    | nil => simp [openTape]
    | cons o outer ih =>
      rw [openTape, List.length_append]
      omega
  simp only [Draft.top, Forest.size_append, size_gapOf] at htop
  exact {
    entry := fun frame hf => (hframes frame hf).1
    inst := fun frame hf => (hframes frame hf).2.1
    group := by
      intro frame hf
      rw [h.dict]
      exact h.chain.lt hd _ (List.mem_map_of_mem hf)
    depth := by
      intro frame hf
      have := (hframes frame hf).2.2.1
      omega
    count := by
      intro frame hf
      have := (hframes frame hf).2.2.2
      omega
    msgDef := by
      intro m hm
      obtain ⟨msgType, htype⟩ := h.msgDef m hm
      rw [h.dict]
      exact hd.message htype
    bodyStart := by
      rw [h.bodyStart, Draft.bodyStart]
      split <;> omega
    trailerStart := by
      rw [h.trailerStart, Draft.trailerStart]
      split <;> omega
    header := by
      intro hstack hregion i hi
      have hnil := h.opened_eq_nil.mpr hstack
      rw [h.region] at hregion
      have hsplit : p.msg.tape =
          (z.header ++ gapOf z.gap).preorder ++ (z.body ++ z.trailer).preorder := by
        rw [← htape, hnil, openTape, Draft.top, ← Forest.preorder_append, Forest.append_assoc]
      refine walks_le ?_ hsplit ?_ hi
      · exact (Forest.fits_append _ _ _).mpr ⟨h.header.fits, fits_gapOf _⟩
      · rw [h.bodyStart, Draft.bodyStart, if_neg hregion]
        simp
    size := hsize
    notes := hnotes }

/-- A message that is laid out is in range, once no group is open. -/
theorem inRange_of_lays {header body trailer gap buf} (h : p.msg.Lays P header gap body trailer)
    (hstack : p.stack = []) (hmsgDef : ∀ m ∈ p.msg.msgDef, m < p.msg.dict.messages.length)
    (hsize : p.msg.tape.length + headerGap + 2 ≤ u32Max) (hnotes : p.notes.InRange buf) :
    p.InRange buf := by
  have hlen : p.msg.tape.length = header.size + (gap + (body.size + trailer.size)) := by
    rw [h.tape]
    simp
  exact {
    entry := by simp [hstack], inst := by simp [hstack], group := by simp [hstack]
    depth := by simp [hstack], count := by simp [hstack], msgDef := hmsgDef
    bodyStart := by rw [h.bodyStart]; omega
    trailerStart := by rw [h.trailerStart]; omega
    header := by
      intro _ _ i hi
      have hsplit : p.msg.tape = (header ++ gapOf gap).preorder ++ (body ++ trailer).preorder := by
        rw [h.tape, ← Forest.preorder_append, Forest.append_assoc]
      refine walks_le ?_ hsplit ?_ hi
      · exact (Forest.fits_append _ _ _).mpr ⟨h.header.fits, fits_gapOf _⟩
      · rw [h.bodyStart]
        simp
    size := hsize
    notes := hnotes }

/-! ## The states the parser passes through -/

variable {tag : Nat}

namespace Parser

/-- Any number of open groups is closed. -/
inductive Closes (p : Parser) : Parser → Prop
  | start : Closes p p
  | next {q q' : Parser} (h : Closes p q) (hne : q.stack ≠ []) (hclose : q.closeGroup = .ok q') :
      Closes p q'

/-- A field is found, and the rules for it are kept. -/
structure Meets (buf : Bytes) (delim : UInt8) (s : Progress) (x : Lexed) (p : Parser) : Prop where
  lex : lexField s.parser.msg.dict buf delim s.pos s.pending = .ok x
  rules : ∃ isLast,
    s.parser.framingRules x.tag s.pos (slice buf x.valStart (x.valEnd - x.valStart)) = .ok (p, isLast)

/-- The states that `p₀` passes through on `buf`, between any two changes of the tape. -/
inductive Passes (buf : Bytes) (delim : UInt8) (p₀ : Parser) : Parser → Prop
  | looping {s : Progress} {last : Bool} (h : Runs buf delim ⟨p₀, 0, none⟩ s last) :
      Passes buf delim p₀ s.parser
  | taking {s : Progress} {x : Lexed} {p q : Parser} (h : Runs buf delim ⟨p₀, 0, none⟩ s false)
      (hmeets : Meets buf delim s x p) (hcloses : p.Closes q) : Passes buf delim p₀ q
  | joined {s : Progress} {x : Lexed} {p q : Parser} (h : Runs buf delim ⟨p₀, 0, none⟩ s false)
      (hmeets : Meets buf delim s x p) (hjoin : joinGroup x.tag p.stack p = .ok q) :
      Passes buf delim p₀ q
  | entered {s : Progress} {x : Lexed} {p q r : Parser} (h : Runs buf delim ⟨p₀, 0, none⟩ s false)
      (hmeets : Meets buf delim s x p) (hjoin : joinGroup x.tag p.stack p = .ok q)
      (hnil : q.stack = []) (henter : q.enterRegion x.tag = .ok r) : Passes buf delim p₀ r
  | ending {s : Progress} {last : Bool} {q : Parser} (h : Runs buf delim ⟨p₀, 0, none⟩ s last)
      (hcloses : s.parser.Closes q) : Passes buf delim p₀ q
  | finished {s : Progress} {last : Bool} {q : Parser} (h : Runs buf delim ⟨p₀, 0, none⟩ s last)
      (hclose : closeAll s.parser.stack s.parser = .ok q) : Passes buf delim p₀ q.finishRegions
  | supplied {s : Progress} {last : Bool} {q : Parser} (h : Runs buf delim ⟨p₀, 0, none⟩ s last)
      (hclose : closeAll s.parser.stack s.parser = .ok q) :
      Passes buf delim p₀ q.finishRegions.supplyBeginString

/-- Parsing `buf` from `p₀` uses no index that is out of range. -/
structure Safe (buf : Bytes) (delim : UInt8) (p₀ : Parser) : Prop where
  inRange : ∀ p, Passes buf delim p₀ p → p.InRange buf
  values : ∀ {s : Progress} {x : Lexed}, Runs buf delim ⟨p₀, 0, none⟩ s false →
    lexField s.parser.msg.dict buf delim s.pos s.pending = .ok x →
      s.pos < x.valStart ∧ x.valStart < x.valEnd ∧ x.valEnd < buf.length
  /-- Also where a field is refused once its tag, or its end, has been found. -/
  starts : ∀ {s : Progress} {tag valStart : Nat}, Runs buf delim ⟨p₀, 0, none⟩ s false →
    parseTag buf s.pos delim = .ok (tag, valStart) → s.pos < valStart ∧ valStart ≤ buf.length ∧
      ∀ kind valEnd, valueEnd s.parser.msg.dict buf delim tag valStart s.pending = .ok (kind, valEnd) →
        valStart ≤ valEnd ∧ valEnd < buf.length

variable {p' : Parser}

end Parser

section

variable {d : Dictionary} {framing : Framing} {delim : UInt8} {places : Option (List Nat)}
variable {buf : Bytes} {ts : List Token} {z : Draft} {s : Parser.Progress} {last : Bool}
variable {P : Entry → Prop} {p q : Parser}

theorem Drafted.closes (h : Drafted d framing P z p) (hsize : p.msg.tape.length < 2 ^ 32)
    (hq : p.Closes q) :
    ∃ z', Drafted d framing P z' q ∧ q.msg.tape.length = p.msg.tape.length ∧ q.notes = p.notes := by
  induction hq with
  | start => exact ⟨z, h, rfl, rfl⟩
  | next _ hne hclose ih =>
    obtain ⟨z', hdrafted, hlen, hnotes⟩ := ih
    obtain ⟨hdrafted', hlen', -⟩ := hdrafted.closeGroup (by omega) hne hclose
    exact ⟨_, hdrafted', hlen'.trans hlen, (Parser.closeGroup_onTape.notes hclose).trans hnotes⟩

theorem lt_of_mem_stops {pos i ts} (h : i ∈ stops pos ts) : i < pos + (texts ts).length := by
  induction ts generalizing pos with
  | nil => cases h
  | cons t ts ih =>
    rw [texts_cons, List.length_append]
    rcases List.mem_cons.mp h with rfl | h
    · simp
      omega
    · have := ih h
      omega

theorem Reading.notes_inRange (h : Reading d framing delim places buf ts z s last)
    (hplaces : ∀ l ∈ places, l = []) : s.parser.notes.InRange buf := by
  have hpos := h.pos_le
  rw [h.pos] at hpos
  refine ⟨fun l hl i hi => ?_, fun c hc => ?_⟩
  · rw [show s.parser.notes.terminators = _ from h.noted.terminators] at hl
    obtain ⟨l', hl', rfl⟩ := Option.map_eq_some_iff.mp hl
    rw [hplaces l' hl', List.nil_append] at hi
    have := lt_of_mem_stops hi
    omega
  · obtain ⟨-, hle, hlt, hbody⟩ := h.noted.checksum c hc
    refine ⟨by omega, ?_, hbody⟩
    rw [show s.parser.notes.ordinal = _ from h.noted.ordinal]
    exact hlt

theorem Parser.Ruled.notes_inRange (h : Reading d framing delim places buf ts z s false)
    (hplaces : ∀ l ∈ places, l = []) {value isLast}
    (hruled : Parser.Ruled tag s.pos value s.parser p isLast) : p.notes.InRange buf := by
  have hstart := h.notes_inRange hplaces
  have hterminators : p.terminators = s.parser.terminators := by rw [hruled.same]
  have hordinal : p.ordinal = s.parser.ordinal + 1 := by rw [hruled.same]
  have hsum := hruled.checksum
  refine ⟨fun l hl => hstart.terminators l ?_, fun c hc => ?_⟩
  · rwa [show s.parser.notes.terminators = p.notes.terminators from hterminators.symm]
  have hc' : p.checksum = some c := hc
  cases isLast with
  | false =>
    cases (h.noted.checksum c (hsum ▸ hc')).1
  | true =>
    obtain ⟨n, hn⟩ := hsum
    rw [hn] at hc'
    cases hc'
    refine ⟨h.pos_le, by simp only [Parser.notes, hordinal]; omega, fun b hb => ?_⟩
    rcases hruled.bodyLength with hsame | ⟨hnot, -⟩
    · rw [h.pos]
      exact h.noted.bodyLength b (hsame ▸ hb)
    · cases hnot

theorem valueEnd_inRange {tag valStart pending kind valEnd}
    (h : valueEnd d buf delim tag valStart pending = .ok (kind, valEnd)) :
    valStart ≤ valEnd ∧ valEnd < buf.length := by
  cases pending with
  | some announcement =>
    simp only [valueEnd] at h
    split at h
    · cases h
    split at h
    · rename_i hdelim
      cases h
      exact ⟨Nat.le_add_right _ _, (List.getElem?_eq_some_iff.mp hdelim).1⟩
    · cases h
  | none =>
    simp only [valueEnd] at h
    split at h
    · cases h
    · rename_i len hlen
      have hlt := (List.findIdx?_eq_some_iff_getElem.mp hlen).1
      rw [List.length_drop] at hlt
      split at h <;> cases h <;> omega

theorem Reading.start_inRange (h : Reading d framing delim places buf ts z s last) {tag valStart}
    (htag : parseTag buf s.pos delim = .ok (tag, valStart)) :
    s.pos < valStart ∧ valStart ≤ buf.length := by
  obtain ⟨post, rfl⟩ := h.split
  have hpos : s.pos = (textsWith delim ts).length := by rw [h.pos, length_textsWith]
  rw [hpos] at htag ⊢
  obtain ⟨rest, rfl, -, -, rfl⟩ := parseTag_iff.mp htag
  refine ⟨by omega, ?_⟩
  simp only [List.length_append, List.length_cons, length_writeUint]
  omega

theorem Reading.value_inRange (h : Reading d framing delim places buf ts z s last) {x}
    (hlex : lexField s.parser.msg.dict buf delim s.pos s.pending = .ok x) :
    s.pos < x.valStart ∧ x.valStart < x.valEnd ∧ x.valEnd < buf.length := by
  obtain ⟨post, rfl⟩ := h.split
  have hpos : s.pos = (textsWith delim ts).length := by rw [h.pos, length_textsWith]
  rw [hpos] at hlex ⊢
  obtain ⟨t, rest, pending', rfl, hvalid, -, rfl⟩ := lexField_found hlex
  have hvalue := List.length_pos_iff.mpr hvalid.value_ne_nil
  simp only [Token.found, Token.valOff, List.length_append, Token.length_textWith]
  omega

/-- The parser is a draft still when a field has been found. -/
theorem Reading.meets (h : Reading d framing delim places buf ts z s false)
    (hplaces : ∀ l ∈ places, l = []) {x} (hmeets : Parser.Meets buf delim s x p) :
    Drafted d framing (Named ts) z p ∧ p.msg.tape = s.parser.msg.tape ∧ p.notes.InRange buf := by
  obtain ⟨isLast, hrules⟩ := hmeets.rules
  have hruled := Parser.framingRules_ruled hrules
  exact ⟨hruled.drafted h.drafted, by rw [hruled.same], hruled.notes_inRange h hplaces⟩

theorem Ended.msgDef {n} (hd : d.Compiled) (h : Ended d p n q) :
    ∀ m ∈ q.msg.msgDef, m < q.msg.dict.messages.length := by
  intro m hm
  obtain ⟨msgType, htype⟩ := h.types m hm
  rw [h.dict]
  exact hd.message htype

/-- **Every state the parser passes through is in range.** -/
theorem passes_inRange (hd : d.Compiled) (hnest : d.NestsBelow 255) (hbuf : buf.length ≤ 2 ^ 32)
    (hplaces : ∀ l ∈ places, l = [])
    (h : Parser.Passes buf delim ((Parser.new d framing).marking places) p) : p.InRange buf := by
  have hread {s last}
      (hruns : Parser.Runs buf delim ⟨(Parser.new d framing).marking places, 0, none⟩ s last) :
      ∃ ts z, Reading d framing delim places buf ts z s last ∧
        s.parser.msg.tape.length + 3 * headerGap + 3 ≤ u32Max := by
    obtain ⟨ts, z, h⟩ := Reading.of_runs hbuf hruns
    refine ⟨ts, z, h, ?_⟩
    have := h.tape_le hbuf
    simp only [headerGap, u32Max] at this ⊢
    omega
  have hu32 : u32Max < 2 ^ 32 := by decide
  cases h with
  | looping hruns =>
    obtain ⟨ts, z, h, _⟩ := hread hruns
    exact h.drafted.inRange hd hnest (by omega) (h.notes_inRange hplaces)
  | taking hruns hmeets hcloses =>
    obtain ⟨ts, z, h, _⟩ := hread hruns
    obtain ⟨hdrafted, htape, hnotes⟩ := h.meets hplaces hmeets
    obtain ⟨z', hdrafted', hlen, hsame⟩ := hdrafted.closes (by rw [htape]; omega) hcloses
    rw [htape] at hlen
    exact hdrafted'.inRange hd hnest (by omega) (hsame ▸ hnotes)
  | joined hruns hmeets hjoin =>
    obtain ⟨ts, z, h, _⟩ := hread hruns
    obtain ⟨hdrafted, htape, hnotes⟩ := h.meets hplaces hmeets
    obtain ⟨z', -, hdrafted', hlen, -⟩ := hdrafted.joinGroup (by rw [htape]; omega) hjoin
    rw [htape] at hlen
    exact hdrafted'.inRange hd hnest (by omega) ((Parser.joinGroup_onTape _ _).notes hjoin ▸ hnotes)
  | entered hruns hmeets hjoin hnil henter =>
    obtain ⟨ts, z, h, _⟩ := hread hruns
    obtain ⟨hdrafted, htape, hnotes⟩ := h.meets hplaces hmeets
    obtain ⟨z', -, hdrafted', hlen, -⟩ := hdrafted.joinGroup (by rw [htape]; omega) hjoin
    rw [htape] at hlen
    obtain ⟨hdrafted'', hlen', -⟩ :=
      hdrafted'.enterRegion (hdrafted'.opened_eq_nil.mpr hnil) (by omega) henter
    have hz' : z'.room ≤ headerGap := by
      unfold Draft.room
      split <;> omega
    refine hdrafted''.inRange hd hnest (by omega) ?_
    rw [(Parser.enterRegion_onTape _).notes henter, (Parser.joinGroup_onTape _ _).notes hjoin]
    exact hnotes
  | ending hruns hcloses =>
    obtain ⟨ts, z, h, _⟩ := hread hruns
    obtain ⟨z', hdrafted', hlen, hsame⟩ := h.drafted.closes (by omega) hcloses
    exact hdrafted'.inRange hd hnest (by omega) (hsame ▸ h.notes_inRange hplaces)
  | finished hruns hclose =>
    obtain ⟨ts, z, h, _⟩ := hread hruns
    obtain ⟨hend, harena, header, gap, body, trailer, hlays, -⟩ := h.ended (by omega) hclose
    exact inRange_of_lays hlays hend.stack (hend.msgDef hd) (by have := hend.length; omega)
      (hend.notes ▸ h.notes_inRange hplaces)
  | supplied hruns hclose =>
    obtain ⟨ts, z, h, _⟩ := hread hruns
    obtain ⟨hend, harena, header, gap, body, trailer, hlays, -⟩ := h.ended (by omega) hclose
    obtain ⟨header', hlays', -⟩ := lays_supplyBeginString hlays harena
    have hend' := hend.supply
    exact inRange_of_lays hlays' hend'.stack (hend'.msgDef hd) (by have := hend'.length; omega)
      (hend'.notes ▸ h.notes_inRange hplaces)

end

/-! ## Depths -/

variable {α : Type}

theorem bind_ne_overflow {β : Type} {x} {f : α → Except Fault β} (hx : x ≠ .error .overflow)
    (hf : ∀ a, x = .ok a → f a ≠ .error .overflow) : (x >>= f) ≠ .error .overflow := by
  cases x with
  | error e =>
    intro h
    cases h
    exact hx rfl
  | ok a => exact hf a rfl

@[simp] theorem garbled_ne_overflow (message : String) :
    (garbled message : Except Fault α) ≠ .error .overflow := by
  intro h
  cases h

@[simp] theorem reject_ne_overflow (reason tag : Nat) (message : String) :
    (reject reason tag message : Except Fault α) ≠ .error .overflow := by
  intro h
  cases h

theorem ok_ne_overflow (a : α) : (.ok a : Except Fault α) ≠ .error .overflow := by
  intro h
  cases h

@[simp] theorem pure_ne_overflow (a : α) : (pure a : Except Fault α) ≠ .error .overflow :=
  ok_ne_overflow a

theorem deeper_ne_overflow {depth} (h : depth + 1 < 2 ^ 8) : deeper depth ≠ .error .overflow := by
  rw [deeper, if_pos h]
  exact ok_ne_overflow _

theorem parseTag_ne_overflow (buf : Bytes) (pos : Nat) (delim : UInt8) :
    parseTag buf pos delim ≠ .error .overflow := by
  unfold parseTag
  generalize 0 = tag
  generalize buf.drop pos = bytes
  suffices h : ∀ i, parseTagFrom pos delim tag i bytes ≠ .error .overflow from h pos
  induction bytes generalizing tag with
  | nil => simp [parseTagFrom]
  | cons c rest ih =>
    intro i
    unfold parseTagFrom
    repeat' split
    all_goals simp [ih]

theorem lexField_ne_overflow (d : Dictionary) (buf : Bytes) (delim : UInt8) (pos : Nat)
    (pending : Option (Nat × Nat)) : lexField d buf delim pos pending ≠ .error .overflow := by
  refine bind_ne_overflow (parseTag_ne_overflow buf pos delim) fun r _ => bind_ne_overflow ?_ fun v _ => ?_
  · unfold valueEnd
    repeat' split
    all_goals simp
  · dsimp only
    split
    · simp
    · refine bind_ne_overflow ?_ fun _ _ => pure_ne_overflow _
      unfold announced
      repeat' split
      all_goals simp

namespace Parser

theorem framingRules_ne_overflow (tag pos : Nat) (value : Bytes) (p : Parser) :
    p.framingRules tag pos value ≠ .error .overflow := by
  refine bind_ne_overflow ?_ fun _ _ => ?_
  · unfold checkPlace
    repeat' split
    all_goals simp
  · have hchecksum : readChecksum value ≠ .error .overflow := by
      unfold readChecksum
      dsimp only
      repeat' split
      all_goals simp
    dsimp only
    repeat' split
    all_goals first | exact bind_ne_overflow hchecksum fun _ _ => pure_ne_overflow _ | simp

theorem closeGroup_ne_overflow (p : Parser) : p.closeGroup ≠ .error .overflow := by
  unfold closeGroup
  dsimp only
  repeat' split
  all_goals simp

theorem place_ne_overflow (p : Parser) (entry : Entry) (value : Bytes) (depth : Nat) :
    p.place entry value depth ≠ .error .overflow := by
  unfold place
  repeat' split
  all_goals simp

theorem enterRegion_ne_overflow (p : Parser) (tag : Nat) :
    p.enterRegion tag ≠ .error .overflow := by
  unfold enterRegion
  dsimp only
  repeat' split
  all_goals simp

end Parser

section

variable {d : Dictionary} {framing : Framing} {P : Entry → Prop} {z : Draft} {p : Parser}

section
variable (h : Drafted d framing P z p)
include h

/-- An open group is not too deep for another level. -/
theorem Drafted.depth_lt (hnest : d.NestsBelow 255) :
    ∀ frame ∈ p.stack, frame.depth + 1 < 2 ^ 8 := by
  intro frame hf
  have hdepth := (h.frames.inRange frame hf).2.2.1
  have hnested := hnest _ h.chain
  rw [List.length_map, h.frames.length_eq] at hnested
  omega

theorem Drafted.joinGroup_ne_overflow (hnest : d.NestsBelow 255)
    (hsize : p.msg.tape.length < 2 ^ 32) (tag : Nat) :
    Parser.joinGroup tag p.stack p ≠ .error .overflow := by
  generalize hstack : p.stack = stack
  induction stack generalizing p z with
  | nil => exact ok_ne_overflow _
  | cons frame outer ih =>
    rw [Parser.joinGroup]
    split
    · obtain ⟨o, outer', hz, -, hframe, -⟩ := h.uncons hstack
      rw [Parser.startInstance, h.closeInstance_eq hsize hstack hz hframe]
      simp only [hstack]
      split
      · exact reject_ne_overflow _ _ _
      · refine bind_ne_overflow (deeper_ne_overflow ?_) fun _ _ => ok_ne_overflow _
        exact h.depth_lt hnest frame (by simp [hstack])
    · split
      · split
        · exact reject_ne_overflow _ _ _
        · exact ok_ne_overflow _
      · refine bind_ne_overflow (Parser.closeGroup_ne_overflow p) fun p₁ hclose => ?_
        obtain ⟨hdrafted, hlen, htail⟩ := h.closeGroup hsize (by simp [hstack]) hclose
        rw [hstack] at htail
        exact ih hdrafted (by omega) htail

theorem Drafted.settle_ne_overflow (hnest : d.NestsBelow 255) (entry : Entry) (value : Bytes) :
    p.settle entry value ≠ .error .overflow := by
  unfold Parser.settle
  split
  · rename_i frame stack hstack
    refine bind_ne_overflow (deeper_ne_overflow ?_) fun _ _ => Parser.place_ne_overflow _ _ _ _
    exact h.depth_lt hnest frame (by simp [hstack])
  · split
    · split
      · exact reject_ne_overflow _ _ _
      · exact ok_ne_overflow _
    · exact bind_ne_overflow (Parser.enterRegion_ne_overflow p _) fun _ _ =>
        Parser.place_ne_overflow _ _ _ _

theorem Drafted.push_ne_overflow (hnest : d.NestsBelow 255) (hsize : p.msg.tape.length < 2 ^ 32)
    (entry : Entry) (value : Bytes) : p.push entry value ≠ .error .overflow := by
  refine bind_ne_overflow (h.joinGroup_ne_overflow hnest hsize entry.tag) fun q hjoin => ?_
  obtain ⟨z', -, hdrafted, -⟩ := h.joinGroup hsize hjoin
  exact hdrafted.settle_ne_overflow hnest entry value

end

variable {delim : UInt8} {places : Option (List Nat)} {buf : Bytes}

theorem loop_ne_overflow (hnest : d.NestsBelow 255) (hbuf : buf.length ≤ 2 ^ 32) {fuel s}
    (hruns : Parser.Runs buf delim ⟨(Parser.new d framing).marking places, 0, none⟩ s false) :
    Parser.loop buf delim fuel s ≠ .error .overflow := by
  induction fuel generalizing s with
  | zero => exact ok_ne_overflow _
  | succ fuel ih =>
    obtain ⟨ts, z, h⟩ := Reading.of_runs hbuf hruns
    have hsize : s.parser.msg.tape.length < 2 ^ 32 := by
      have := h.tape_le hbuf
      simp only [headerGap] at this
      omega
    rw [Parser.loop]
    split
    · rename_i hpos
      refine bind_ne_overflow (lexField_ne_overflow _ _ _ _ _) fun x hlex => bind_ne_overflow ?_
        fun r htake => ?_
      · refine bind_ne_overflow (Parser.framingRules_ne_overflow _ _ _ _) fun r hrules => ?_
        have hruled := Parser.framingRules_ruled hrules
        have hdrafted := hruled.drafted h.drafted
        have htape : r.1.msg.tape = s.parser.msg.tape := by rw [hruled.same]
        exact bind_ne_overflow (hdrafted.push_ne_overflow hnest (by rw [htape]; exact hsize) _ _)
          fun _ _ => ok_ne_overflow _
      · obtain ⟨p', isLast⟩ := r
        dsimp only
        split
        · exact ok_ne_overflow _
        · rename_i hlast
          rw [Bool.not_eq_true] at hlast
          subst hlast
          exact ih (hruns.next hpos hlex htake)
    · exact ok_ne_overflow _

theorem closeAll_ne_overflow (stack : List Frame) (p : Parser) :
    Parser.closeAll stack p ≠ .error .overflow := by
  induction stack generalizing p with
  | nil => exact ok_ne_overflow _
  | cons frame outer ih =>
    exact bind_ne_overflow (Parser.closeGroup_ne_overflow p) fun p' _ => ih p'

theorem checkFraming_ne_overflow (wire : Bytes) (delim : UInt8) (p : Parser) :
    p.checkFraming wire delim ≠ .error .overflow := by
  unfold Parser.checkFraming
  split
  · exact garbled_ne_overflow _
  · dsimp only
    split
    · split
      · exact bind_ne_overflow (garbled_ne_overflow _) fun _ _ => by
          split
          · exact garbled_ne_overflow _
          · exact ok_ne_overflow _
      · split
        · exact garbled_ne_overflow _
        · exact ok_ne_overflow _
    · split
      · exact garbled_ne_overflow _
      · exact ok_ne_overflow _

theorem conclude_ne_overflow (wire : Bytes) (delim : UInt8) (p : Parser) :
    p.conclude wire delim ≠ .error .overflow := by
  have hlast (q : Parser) : (if q.msg.msgDef.isNone = true ∧ ¬ Parser.hasMsgType q.msg then
      reject Reason.requiredTagMissing 35 "no MsgType(35)"
      else .ok ({ q.msg with wire, clean := q.framing = .strict ∧ delim = soh }, q.terminators) :
        Except Fault (Message × Option (List Nat))) ≠ .error .overflow := by
    split
    · exact reject_ne_overflow _ _ _
    · exact ok_ne_overflow _
  unfold Parser.conclude
  dsimp only
  split
  · exact bind_ne_overflow (checkFraming_ne_overflow _ _ _) fun _ _ =>
      bind_ne_overflow (ok_ne_overflow _) fun q _ => hlast q
  · exact bind_ne_overflow (ok_ne_overflow _) fun q _ => hlast q

/-- **No run overflows.** -/
theorem run_ne_overflow (places : Option (List Nat)) (hnest : d.NestsBelow 255) (hbuf : buf.length ≤ 2 ^ 32) :
    ((Parser.new d framing).marking places).run buf delim ≠ .error .overflow := by
  refine bind_ne_overflow (loop_ne_overflow hnest hbuf .start) fun s _ => ?_
  split
  · exact garbled_ne_overflow _
  · split
    · exact garbled_ne_overflow _
    · exact bind_ne_overflow (closeAll_ne_overflow _ _) fun q _ => conclude_ne_overflow _ _ q

end

/-! ## Whole messages -/

section

variable {d : Dictionary} {framing : Framing} {delim : UInt8} {buf : Bytes}

theorem run_safe (places : Option (List Nat)) (hd : d.Compiled) (hnest : d.NestsBelow 255)
    (hbuf : buf.length ≤ 2 ^ 32) (hplaces : ∀ l ∈ places, l = []) :
    ((Parser.new d framing).marking places).Safe buf delim where
  inRange := fun _ hp => passes_inRange hd hnest hbuf hplaces hp
  values := by
    intro s x hruns hlex
    obtain ⟨ts, z, h⟩ := Reading.of_runs hbuf hruns
    exact h.value_inRange hlex
  starts := by
    intro s tag valStart hruns htag
    obtain ⟨ts, z, h⟩ := Reading.of_runs hbuf hruns
    obtain ⟨hlt, hle⟩ := h.start_inRange htag
    exact ⟨hlt, hle, fun _ _ => valueEnd_inRange⟩

theorem parseCopy_ne_overflow (hnest : d.NestsBelow 255) {bytes} (hlen : bytes.length < 2 ^ 32) :
    Message.parseCopy d bytes delim framing ≠ .error .overflow := by
  have hbuf := length_copied_le framing bytes delim
  unfold Message.parseCopy
  rw [← copied]
  exact bind_ne_overflow (run_ne_overflow (some []) hnest (by omega)) fun _ _ =>
    ok_ne_overflow _

theorem parseCopy_wellFormed (hd : d.Compiled) (hdata : d.KeepsData) {bytes}
    (hlen : bytes.length < 2 ^ 32) (hbegin : framing = .fragment → d.beginString.length < 2 ^ 32)
    (h : Message.parseCopy d bytes delim framing = .ok m) : m.WellFormed := by
  obtain ⟨header, gap, body, trailer, hlays, hpairs⟩ := parseCopy_lays hlen hbegin h
  exact ⟨header, gap, body, trailer, hlays, hpairs hd hdata⟩

end

/-- The parser that remembers where fields end. -/
def Parser.copying (d : Dictionary) (framing : Framing) : Parser :=
  { Parser.new d framing with terminators := some [] }

/-- **Parsing is safe and yields a well-formed tape**, for any bytes and any delimiter.
The BeginString that a fragment is given is kept in the arena, whose lengths have 32
bits. -/
theorem parsing_safe {d : Dictionary} (hd : d.Compiled) (hnest : d.NestsBelow 255)
    (hdata : d.KeepsData) {bytes : Bytes} (hlen : bytes.length < 2 ^ 32) :
    (Message.parse d bytes ≠ .error .overflow ∧ (Parser.new d .strict).Safe bytes soh ∧
      ∀ m, Message.parse d bytes = .ok m → m.WellFormed) ∧
    (∀ delim, Message.parseDelimited d bytes delim ≠ .error .overflow ∧
      (Parser.copying d .strict).Safe bytes delim ∧
      ∀ m, Message.parseDelimited d bytes delim = .ok m → m.WellFormed) ∧
    (∀ delim, Message.parseFragment d bytes delim ≠ .error .overflow ∧
      (Parser.copying d .fragment).Safe (copied .fragment bytes delim) delim ∧
      (d.beginString.length < 2 ^ 32 →
        ∀ m, Message.parseFragment d bytes delim = .ok m → m.WellFormed)) := by
  have hplaces : ∀ l ∈ (some [] : Option (List Nat)), l = [] := by simp
  refine ⟨⟨?_, ?_, ?_⟩, fun delim => ⟨?_, ?_, ?_⟩, fun delim => ⟨?_, ?_, ?_⟩⟩
  · exact bind_ne_overflow (run_ne_overflow none hnest hlen.le) fun _ _ =>
      ok_ne_overflow _
  · exact run_safe none hd hnest hlen.le (by simp)
  · intro m hm
    obtain ⟨header, gap, body, trailer, hlays, hpairs⟩ := parse_lays hlen hm
    exact ⟨header, gap, body, trailer, hlays, hpairs hd hdata⟩
  · exact parseCopy_ne_overflow hnest hlen
  · exact run_safe (some []) hd hnest hlen.le hplaces
  · exact fun m => parseCopy_wellFormed hd hdata hlen (by simp)
  · exact parseCopy_ne_overflow hnest hlen
  · have hbuf := length_copied_le .fragment bytes delim
    exact run_safe (some []) hd hnest (by omega) hplaces
  · exact fun hbegin m => parseCopy_wellFormed hd hdata hlen fun _ => hbegin

/-! ### News with encoded text -/

theorem mem_of_lookup {β : Type} [BEq α] [LawfulBEq α] {table : List (α × β)} {key b}
    (h : table.lookup key = some b) : (key, b) ∈ table := by
  obtain ⟨before, after, rfl, -⟩ := List.lookup_eq_some_iff.mp h
  simp

/-- One message, B, whose lines of text (33) may be encoded: 354 is the length of 355. -/
def news (beginString : Bytes) : Dictionary where
  beginString
  fields := [(8, ⟨.plain, true, false⟩), (9, ⟨.plain, true, false⟩), (35, ⟨.plain, true, false⟩),
    (10, ⟨.plain, false, true⟩), (354, ⟨.dataLength 355, false, false⟩),
    (355, ⟨.data 354, false, false⟩)]
  groups := [⟨33, 58, [(58, 0), (354, 1), (355, 2)], []⟩]
  messages := [⟨[(33, 0)]⟩]
  messagesByType := [(ascii "B", 0)]
  headerGroups := []
  globalGroups := [(33, 0)]

section

variable (b : Bytes)

theorem news_groups {g} (h : g < (news b).groups.length) : g = 0 := by
  simpa [news] using h

theorem news_nestedGroup (outer tag : Nat) : (news b).nestedGroup outer tag = none := by
  cases outer with
  | zero => rfl
  | succ outer => rfl

theorem news_compiled : (news b).Compiled where
  top := by
    intro msg header tag g h
    suffices hg : g = 0 by
      rw [hg]
      exact Nat.one_pos
    unfold Dictionary.topLevelGroup at h
    split at h
    · cases h
    · split at h
      · rename_i g' hmsg
        cases h
        obtain ⟨m, -, hm⟩ := Option.bind_eq_some_iff.mp hmsg
        obtain ⟨def', hdef, hget⟩ := Option.bind_eq_some_iff.mp hm
        have hmem : def' ∈ (news b).messages := List.mem_of_getElem? hdef
        rw [List.mem_singleton.mp hmem] at hget
        have := mem_of_lookup hget
        simp only [List.mem_singleton, Prod.mk.injEq] at this
        exact this.2
      · have := mem_of_lookup h
        simp only [news, List.mem_singleton, Prod.mk.injEq] at this
        exact this.2
  nested := by
    intro outer tag g h
    rw [news_nestedGroup] at h
    cases h
  message := by
    intro msgType m h
    have := mem_of_lookup h
    simp only [news, List.mem_singleton, Prod.mk.injEq] at this
    rw [this.2]
    exact Nat.one_pos
  delimiter := by
    intro g hg _
    rw [news_groups b hg]
    rfl

theorem news_kind (tag : Nat) : (news b).kind tag = .plain ∨
    (tag = 354 ∧ (news b).kind tag = .dataLength 355) ∨ tag = 355 ∧ (news b).kind tag = .data 354 := by
  unfold Dictionary.kind
  split
  · rename_i info hinfo
    have hmem := mem_of_lookup hinfo
    simp only [news, List.mem_cons, Prod.mk.injEq, List.not_mem_nil, or_false] at hmem
    rcases hmem with ⟨-, rfl⟩ | ⟨-, rfl⟩ | ⟨-, rfl⟩ | ⟨-, rfl⟩ | ⟨rfl, rfl⟩ | ⟨rfl, rfl⟩
    all_goals simp
  · exact .inl rfl

theorem news_dataLength {length data} (h : (news b).kind length = .dataLength data) :
    length = 354 ∧ data = 355 := by
  obtain hk | ⟨rfl, hk⟩ | ⟨rfl, hk⟩ := news_kind b length
  all_goals cases hk.symm.trans h
  exact ⟨rfl, rfl⟩

theorem news_keepsData : (news b).KeepsData where
  members := by
    intro length data g h hg
    obtain ⟨rfl, rfl⟩ := news_dataLength b h
    rw [news_groups b hg]
    rfl
  delimiter := by
    intro length data g h hg
    obtain ⟨rfl, rfl⟩ := news_dataLength b h
    rw [news_groups b hg]
    exact Nat.ne_of_gt (by decide : 58 < 355)
  header := by
    intro length data h
    obtain ⟨rfl, rfl⟩ := news_dataLength b h
    rfl
  trailer := by
    intro length data h
    obtain ⟨rfl, rfl⟩ := news_dataLength b h
    rfl

theorem news_nestsBelow : (news b).NestsBelow 255 := by
  intro gs h
  cases h with
  | nil => decide
  | top => simp
  | nested h _ =>
    rw [news_nestedGroup] at h
    cases h

end

/-- A line whose encoded text contains the delimiter. -/
def encodedNews : Bytes := ascii "8=FIX.4.4|9=29|35=B|33=1|58=A|354=3|355=x|y|10=001|"

theorem length_encodedNews : encodedNews.length < 2 ^ 32 := by decide +kernel

theorem parse_encodedNews :
    ∃ m, Message.parseDelimited (news (ascii "FIX.4.4")) encodedNews 124 = .ok m :=
  exists_of_isOk (by decide +kernel)

theorem encodedNews_wellFormed {m}
    (h : Message.parseDelimited (news (ascii "FIX.4.4")) encodedNews 124 = .ok m) : m.WellFormed :=
  parseCopy_wellFormed (news_compiled _) (news_keepsData _) length_encodedNews (by simp) h

/-- The line is accepted, and its tape is well formed. -/
theorem wellFormed_encodedNews : ∃ m,
    Message.parseDelimited (news (ascii "FIX.4.4")) encodedNews 124 = .ok m ∧ m.WellFormed := by
  obtain ⟨m, hm⟩ := parse_encodedNews
  obtain ⟨-, hdelimited, -⟩ :=
    parsing_safe (news_compiled _) (news_nestsBelow _) (news_keepsData _) length_encodedNews
  exact ⟨m, hm, (hdelimited 124).2.2 m hm⟩

/-! ### A BeginString of 4 GiB -/

/-- What the fragment `35=B|` is read as. -/
def shortNews (b : Bytes) : Message where
  dict := news b
  msgDef := some 0
  wire := ascii "35=B\x01"
  arena := ascii "8=" ++ (b ++ [soh])
  tape := { tag := 8, kind := .field, seg := .arena, valOff := 2, len := asU32 b.length } ::
    { tag := 35, kind := .field, valOff := 3, len := 1 } ::
    Entry.gap headerGap :: List.replicate (headerGap - 1) {}
  bodyStart := 22
  trailerStart := 22
  clean := false

theorem parseFragment_shortNews (b : Bytes) :
    Message.parseFragment (news b) (ascii "35=B|") 124 = .ok (shortNews b) := by
  rfl

/-- A BeginString that does not fit is cut off: its entry's bytes do not end in SOH. -/
theorem not_spells_of_length {b} (hlen : b.length = 2 ^ 32) (hsoh : soh ∉ b)
    (harena : m.arena = ascii "8=" ++ (b ++ [soh])) :
    ¬ m.Spells { tag := 8, kind := .field, seg := .arena, valOff := 2, len := asU32 b.length } := by
  intro h
  have hzero : asU32 b.length = 0 := by
    rw [hlen]
    rfl
  cases b with
  | nil => simp at hlen
  | cons c b =>
    have htext := h.text
    simp only [hzero, Message.spanBytes, Message.value, Message.seg, harena] at htext
    have hlast : c = soh := (List.cons.inj (List.cons.inj (List.cons.inj htext).2).2).1
    exact hsoh (hlast ▸ List.mem_cons_self)

theorem not_wellFormed_shortNews {b} (hlen : b.length = 2 ^ 32) (hsoh : soh ∉ b) :
    ¬ (shortNews b).WellFormed := by
  rintro ⟨header, gap, body, trailer, hlays, -⟩
  have htape := hlays.tape
  cases header with
  | nil =>
    have hgap : gap = 22 := by simpa [shortNews] using hlays.bodyStart.symm
    subst hgap
    have hfirst := (List.cons.inj htape).1
    cases hfirst
  | node e c r =>
    have hfirst := (List.cons.inj htape).1
    have hspells : (shortNews b).Spells e := by
      cases hlays.header with
      | field _ _ hP _ => exact hP
      | group hkind => rw [← hfirst] at hkind; cases hkind
    rw [← hfirst] at hspells
    exact not_spells_of_length hlen hsoh rfl hspells

/-- A fragment of a dictionary whose BeginString is 4 GiB long is accepted, and its tape is
not well formed. -/
theorem parseFragment_long_beginString : ∃ d bytes delim m,
    d.Compiled ∧ d.NestsBelow 255 ∧ d.KeepsData ∧ bytes.length < 2 ^ 32 ∧
      Message.parseFragment d bytes delim = .ok m ∧ ¬ m.WellFormed := by
  refine ⟨news (List.replicate (2 ^ 32) 65), ascii "35=B|", 124, _, news_compiled _, news_nestsBelow _,
    news_keepsData _, by decide +kernel, parseFragment_shortNews _, not_wellFormed_shortNews ?_ ?_⟩
  · rw [List.length_replicate]
  · intro h
    exact absurd (List.eq_of_mem_replicate h) (by decide)

end Babelfix.Tape
