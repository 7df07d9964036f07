import Babelfix.Tape.Rendered
import Babelfix.Tape.Safety

/-! # What the encoder writes

For a well-formed tape, whatever the delimiter: BeginString, BodyLength, MsgType, every
field and every group that has something to say in the order of the tape, and CheckSum. -/
namespace Babelfix.Tape

open Lib

namespace Message

/-- A field as it is stored, without what ends it. -/
def stored (m : Message) (e : Entry) : Bytes := (m.spanBytes e).dropLast

/-- A group's NumInGroup: how many of its instances write something. -/
def counted (e : Entry) (c : Forest Entry) : Bytes := writeUint e.tag ++ 61 :: writeUint (live c)

/-- What a forest writes between BodyLength and CheckSum: every field, those that frame
the message apart, and every group with an instance that writes something. -/
def lines (m : Message) : Forest Entry → List Bytes
  | .nil => []
  | .node e c r =>
    (match e.kind with
      | .gap => []
      | .inst => m.lines c
      | .group => if live c = 0 then [] else counted e c :: m.lines c
      | _ => if e.IsFraming then [] else [m.stored e]) ++ m.lines r

/-- The first MsgType of a block. -/
def typeLine (m : Message) : Forest Entry → List Bytes
  | .nil => []
  | .node e c r =>
    if e.tag = 35 ∧ e.isTagged then [if e.kind = .group then counted e c else m.stored e]
    else m.typeLine r

end Message

/-- Lines, each ended by `delim`. -/
def ended (delim : UInt8) (lines : List Bytes) : Bytes := lines.flatMap (· ++ [delim])

theorem length_ended (delim delim' : UInt8) (lines : List Bytes) :
    (ended delim lines).length = (ended delim' lines).length := by
  simp [ended, List.length_flatMap]

/-- A token without what ends it. -/
def Token.line (t : Token) : Bytes := writeUint t.tag ++ 61 :: t.value

theorem textsWith_eq_ended (delim : UInt8) (ts : List Token) :
    textsWith delim ts = ended delim (ts.map Token.line) := by
  simp only [textsWith, ended, List.flatMap_map]
  refine List.flatMap_congr fun t _ => ?_
  simp [Token.textWith, Token.line]

variable {post : List Entry}

section

variable {m : Message} {insts : Bool} {depth : Nat} {f : Forest Entry}

variable {e : Entry}

theorem Message.Spells.stored (h : m.Spells e) :
    m.stored e = writeUint e.tag ++ 61 :: m.value e := by
  have hsplit : writeUint e.tag ++ 61 :: (m.value e ++ [soh]) =
      (writeUint e.tag ++ 61 :: m.value e) ++ [soh] := by simp
  rw [Message.stored, h.text, hsplit, List.dropLast_concat]

theorem line_field (hfield : e.isField) (h : m.Spells e) (i : Nat) :
    (m.token (i, e)).line = m.stored e := by
  rw [m.token_field hfield, h.stored]
  rfl

theorem line_group {pre c r} (hkind : e.kind = .group) (hfits : (Forest.node e c r).Fits Entry.span)
    (htape : m.tape = pre ++ ((Forest.node e c r).preorder ++ post)) :
    (m.token (pre.length, e)).line = Message.counted e c := by
  rw [m.token_group hkind, liveInstances_node htape hfits]
  rfl

/-- **The walk visits what is to be written.** -/
theorem Shaped.lines_eq (h : Shaped m.Spells insts depth f) (pre : List Entry)
    (htape : m.tape = pre ++ (f.preorder ++ post)) :
    (visits pre.length f).map (fun x => (m.token x).line) = m.lines f := by
  induction h generalizing pre post with
  | nil => rfl
  | @field depth e r hfield hdepth hP hr ih =>
    obtain ⟨-, hafter⟩ := split_node htape
    have hrest := ih _ hafter
    have hline := line_field hfield hP pre.length
    rw [visits, Message.lines, (length_below pre e .nil).2, List.map_append, hrest]
    cases hkind : e.kind with
    | gap | group | inst => simp [Entry.isField, hkind] at hfield
    | field | dataLen | data =>
      dsimp only
      split
      · rfl
      · rw [List.map_singleton, hline]
  | @group depth e c r hkind hdepth hcount hspan hc hr ihc ihr =>
    obtain ⟨hbelow, hafter⟩ := split_node htape
    have hfits : (Forest.node e c r).Fits Entry.span := (Shaped.group hkind hdepth hcount hspan hc hr).fits
    have hline := line_group hkind hfits htape
    rw [visits, Message.lines, hkind, (length_below pre e c).1, (length_below pre e c).2,
      List.map_append, ihr _ hafter]
    dsimp only
    split
    · rfl
    · rw [List.map_cons, hline, ihc _ hbelow]
  | @inst depth e c r hkind hdepth hspan hc hr ihc ihr =>
    obtain ⟨hbelow, hafter⟩ := split_node htape
    rw [visits, Message.lines, hkind, (length_below pre e c).1, (length_below pre e c).2,
      List.map_append, ihr _ hafter, ihc _ hbelow]

theorem Shaped.typeLine_eq (h : Shaped m.Spells false depth f) (pre : List Entry)
    (htape : m.tape = pre ++ (f.preorder ++ post)) :
    (findRoot 35 pre.length f).toList.map (fun i => (m.token (i, entryAt m.tape i)).line) =
      m.typeLine f := by
  induction f generalizing pre with
  | nil => rfl
  | node e c r _ ih =>
    obtain ⟨-, hafter⟩ := split_node htape
    have hentry := entryAt_node htape
    rw [findRoot, Message.typeLine, (length_below pre e c).2]
    split
    · rw [Option.toList_some, List.map_singleton, hentry]
      cases h with
      | field hfield hdepth hP hr =>
        rw [line_field hfield hP, if_neg (Entry.kind_ne_group hfield)]
      | group hkind hdepth hcount hspan hc hr =>
        rw [line_group hkind (Shaped.group hkind hdepth hcount hspan hc hr).fits htape, if_pos hkind]
    · cases h with
      | field _ _ _ hr => exact ih hr _ hafter
      | group _ _ _ _ _ hr => exact ih hr _ hafter

end

theorem lines_append (m : Message) (f g : Forest Entry) : m.lines (f ++ g) = m.lines f ++ m.lines g := by
  induction f with
  | nil => rfl
  | node e c r _ ih => simp [Message.lines, ih]

theorem findRoot_append_gapOf (tag i gap : Nat) (f : Forest Entry) :
    findRoot tag i (f ++ gapOf gap) = findRoot tag i f := by
  induction f generalizing i with
  | nil =>
    cases gap with
    | zero => rfl
    | succ n => simp [gapOf, findRoot, Entry.isTagged, Entry.gap]
  | node e c r _ ih => simp [findRoot, ih]

theorem Shaped.findRoot_entry {P depth tag i f} (h : Shaped P false depth f) (pre : List Entry)
    {tape} (htape : tape = pre ++ (f.preorder ++ post)) (hi : findRoot tag pre.length f = some i) :
    entryAt tape i ∈ tape ∧ (entryAt tape i).tag = tag ∧ (entryAt tape i).isTagged ∧
      (entryAt tape i).depth = depth := by
  induction f generalizing pre with
  | nil => cases hi
  | node e c r _ ih =>
    obtain ⟨-, hafter⟩ := split_node htape
    have hentry := entryAt_node htape
    have hparts : e.depth = depth ∧ Shaped P false depth r := by
      cases h with
      | field _ hdepth _ hr => exact ⟨hdepth, hr⟩
      | group _ hdepth _ _ _ hr => exact ⟨hdepth, hr⟩
    rw [findRoot, (length_below pre e c).2] at hi
    split at hi
    · rename_i hfound
      cases hi
      rw [hentry]
      exact ⟨by simp [htape], hfound.1, hfound.2, hparts.1⟩
    · exact ih hparts.2 _ hafter hi

namespace Message.Lays

variable {m : Message} {header body trailer : Forest Entry} {gap : Nat}

theorem visit_blocks {P} (h : m.Lays P header gap body trailer) :
    m.visit = (findRoot 35 0 header).toList.map (fun i => (i, entryAt m.tape i)) ++
      (visits ([] : List Entry).length header ++ (visits (header ++ gapOf gap).preorder.length body ++
        visits (header ++ (gapOf gap ++ body)).preorder.length trailer)) := by
  have hfits : (header ++ gapOf gap).Fits Entry.span := by
    rw [Forest.fits_append]
    exact ⟨h.header.fits, fits_gapOf gap⟩
  have htape : m.tape = [] ++ ((header ++ gapOf gap).preorder ++ (body ++ trailer).preorder) := by
    simp [h.tape]
  have hscan : m.scan 0 m.bodyStart 35 = findRoot 35 0 header := by
    have hfound : scanUpTo m.tape 35 (header ++ gapOf gap).size ([] : List Entry).length
        (([] : List Entry).length + (header ++ gapOf gap).size) = findRoot 35 0 (header ++ gapOf gap) :=
      scanUpTo_eq [] hfits (Nat.le_refl _) htape
    rw [findRoot_append_gapOf] at hfound
    rw [Message.scan, h.bodyStart]
    simpa using hfound
  rw [Message.visit, Message.findIn, h.visitUpTo_eq, visits_blocks]
  simp only [Option.filter_none, Option.getD_none, Nat.lt_irrefl, if_false, hscan]
  cases findRoot 35 0 header <;> rfl

/-- **What is visited is MsgType, and then what the blocks write.** -/
theorem visited_lines (h : m.Lays m.Spells header gap body trailer) :
    m.visited.map Token.line = m.typeLine header ++ m.lines (header ++ (body ++ trailer)) := by
  have hfirst := h.header.typeLine_eq [] h.tape_header
  have h₀ := h.header.lines_eq [] h.tape_header
  have h₁ := h.body.lines_eq _ h.tape_body
  have h₂ := h.trailer.lines_eq _ h.tape_trailer
  rw [lines_append, lines_append, ← hfirst, ← h₀, ← h₁, ← h₂, Message.visited, h.visit_blocks]
  simp [Function.comp_def]

end Message.Lays

/-- **What the encoder writes.** BodyLength is how long the lines are and CheckSum the
sum of everything before it with each line ended by SOH: neither depends on the
delimiter. -/
theorem encoder_framing {m : Message} (h : m.WellFormed) :
    ∃ header gap body trailer, m.Lays m.Spells header gap body trailer ∧
      ∃ lines, lines = m.typeLine header ++ m.lines (header ++ (body ++ trailer)) ∧
        ∃ n, (∀ delim, (ended delim lines).length = n) ∧
          ∃ sum, sum = checksumOf (opening m.dict (writeUint n) soh ++ ended soh lines) ∧
            ∀ out delim, m.encodeDelimited out delim =
              out ++ (opening m.dict (writeUint n) delim ++ ended delim lines ++ ascii "10=" ++ sumText sum ++
                [delim]) := by
  obtain ⟨header, gap, body, trailer, hlays, -⟩ := h
  refine ⟨header, gap, body, trailer, hlays, _, rfl, (ended soh _).length,
    fun delim => length_ended delim soh _, _, rfl, fun out delim => ?_⟩
  have hspells : ∀ x ∈ m.visit, x.2.kind ≠ .group → m.Spells x.2 := fun x hx hkind =>
    hlays.of_isField (hlays.mem_visit hx).1 (hlays.isField_of_mem_visit hx hkind)
  obtain ⟨h8, h9, h10⟩ := ascii_framing
  have hlines (delim : UInt8) : textsWith delim m.visited =
      ended delim (m.typeLine header ++ m.lines (header ++ (body ++ trailer))) := by
    rw [textsWith_eq_ended, hlays.visited_lines]
  have hstart (delim : UInt8) : textsWith delim (frameStart m.dict m.visited) =
      opening m.dict (writeUint (texts m.visited).length) delim := by
    simp [frameStart, opening, Token.textWith, h8, h9]
  rw [encodeDelimited_eq hspells, framed, textsWith_append, textsWith_append, ← textsWith_soh,
    textsWith_append, hstart, hstart, ← textsWith_soh, hlines, hlines]
  congr 1
  simp [Token.textWith, h10]

/-- The line of news is written with any delimiter, and what it says of its length and
its sum is the same each time. -/
theorem encoder_framing_news : ∃ m,
    Message.parseDelimited (news (ascii "FIX.4.4")) encodedNews 124 = .ok m ∧ m.WellFormed ∧
      ∃ lines n sum, (∀ delim, (ended delim lines).length = n) ∧
        ∀ out delim, m.encodeDelimited out delim =
          out ++ (opening m.dict (writeUint n) delim ++ ended delim lines ++ ascii "10=" ++ sumText sum ++
            [delim]) := by
  obtain ⟨m, hparse⟩ := parse_encodedNews
  have hm := encodedNews_wellFormed hparse
  obtain ⟨_, _, _, _, -, lines, -, n, hn, sum, -, hwrites⟩ := encoder_framing hm
  exact ⟨m, hparse, hm, lines, n, sum, hn, hwrites⟩

end Babelfix.Tape
