import Babelfix.Tape.Draft

/-! # The parser drafts a tape

Each operation of the parser on its tape and its stack of open groups is an operation on
the draft, whatever the message is delimited by and whether it is complete. The places
the parser remembers are on the tape, and finishing a group gives it the span and the
count that it has. -/
namespace Babelfix.Tape

open Lib

/-! ## Groups -/

section

variable {d : Dictionary} {framing : Framing} {P : Entry → Prop} {z : Draft} {p p' : Parser}

theorem Dictionary.Chain.tail {g gs} (h : d.Chain (g :: gs)) : d.Chain gs := by
  cases h with
  | top => exact .nil
  | nested _ houter => exact houter

theorem Drafted.add (h : Drafted d framing P z p) (hinst : ∀ o ∈ z.opened.head?, o.inst ≠ none) {f}
    (hf : Shaped P false z.opened.length f) : Drafted d framing P (z.add f)
      { p with msg := { p.msg with tape := p.msg.tape ++ f.preorder } } := by
  have htape := Draft.tape_add h.begun hinst f
  have hframes' : Stacks P (z.add f).top.preorder (z.add f).opened p.stack ∧
      Shaped P false 0 (z.add f).header ∧ Shaped P false 0 (z.add f).body ∧
      Shaped P false 0 (z.add f).trailer := by
    have hframes := h.frames
    obtain ⟨region, header, gap, body, trailer, opened⟩ := z
    generalize p.stack = stack at hframes ⊢
    cases hframes with
    | nil =>
      obtain ⟨-, -, -, -, -, -, -, -, hh, hb, ht, -⟩ := h
      cases region <;> exact ⟨.nil, by simp_all [Draft.add, Shaped.append]⟩
    | cons htidy hframe hinner hrest =>
      exact ⟨.cons (htidy.add hf) (hframe.add f) hinner hrest, h.header, h.body, h.trailer⟩
  obtain ⟨hframes', hh', hb', ht'⟩ := hframes'
  obtain ⟨hregion, hbody, htrailer, -⟩ := z.add_keeps f
  exact { h with
    tape := by rw [htape, h.tape]
    region := by rw [hregion]; exact h.region
    begun := h.begun.add f
    bodyStart := by rw [hbody]; exact h.bodyStart
    trailerStart := by rw [htrailer]; exact h.trailerStart
    header := hh', body := hb', trailer := ht', frames := hframes' }

variable {frame : Frame} {stack : List Frame}

section
variable (h : Drafted d framing P z p)
include h

theorem Drafted.uncons (hstack : p.stack = frame :: stack) :
    ∃ o outer, z.opened = o :: outer ∧ o.Tidy P outer.length ∧
      o.Frames (openTape z.top.preorder outer).length outer.length frame ∧
      (∀ o' ∈ outer.head?, o'.inst ≠ none) ∧ Stacks P z.top.preorder outer stack ∧
      p.msg.tape.length = (openTape z.top.preorder outer).length + (o.closed.size + 1) := by
  have hframes := h.frames
  have htape := h.tape
  rw [hstack] at hframes
  rw [Draft.tape] at htape
  generalize z.opened = opened at hframes htape
  cases hframes with
  | cons htidy hframe hinner hrest =>
    refine ⟨_, _, rfl, htidy, hframe, hinner, hrest, ?_⟩
    rw [htape, openTape, List.length_append, Opened.length_tape]

theorem Drafted.opened_eq_nil : z.opened = [] ↔ p.stack = [] := by
  have hframes := h.frames
  generalize z.opened = opened at hframes ⊢
  generalize p.stack = stack at hframes ⊢
  cases hframes <;> simp

theorem Drafted.closeInstance_eq (hsize : p.msg.tape.length < 2 ^ 32)
    (hstack : p.stack = frame :: stack) {o outer} (hz : z.opened = o :: outer)
    (hframe : o.Frames (openTape z.top.preorder outer).length outer.length frame) :
    p.closeInstance = { p with msg := { p.msg with
      tape := openTape z.top.preorder outer ++ o.entry :: o.closed.preorder } } := by
  have htape := h.tape
  rw [Draft.tape, hz, openTape] at htape
  have hinst := hframe.inst
  generalize openTape z.top.preorder outer = before at htape hinst ⊢
  obtain ⟨entry, done, inst⟩ := o
  cases inst with
  | none =>
    have hclosed : p.msg.tape = before ++ entry :: (Opened.closed ⟨entry, done, none⟩).preorder := by
      simp [htape, Opened.tape, Opened.current, Opened.closed]
    simp only [Parser.closeInstance, hstack, hinst, Option.map_none]
    rw [← hclosed, ← hstack]
  | some i =>
    obtain ⟨e, c⟩ := i
    have hsplit : p.msg.tape = (before ++ entry :: done.preorder) ++ e :: c.preorder := by
      simp [htape, Opened.tape, Opened.current]
    have hplace : before.length + 1 + done.size = (before ++ entry :: done.preorder).length := by
      simp
      omega
    have hlen : asU32 (p.msg.tape.length - (before ++ entry :: done.preorder).length) =
        c.size + 1 := by
      rw [asU32_of_lt (by omega), hsplit, List.length_append, Nat.add_sub_cancel_left]
      simp
    simp only [Parser.closeInstance, hstack, hinst, Option.map_some, hplace, hlen]
    rw [hsplit, entryAt_length, set_length]
    simp [Opened.closed]

theorem Drafted.pop (hstack : p.stack = frame :: stack) {outer}
    (hrest : Stacks P z.top.preorder outer stack) :
    Drafted d framing P { z with opened := outer } { p with
      stack := stack
      msg := { p.msg with tape := openTape z.top.preorder outer } } := by
  have hchain := h.chain
  rw [hstack] at hchain
  exact { h with tape := rfl, frames := hrest, chain := hchain.tail }

/-- **Closing a group finishes it.** -/
theorem Drafted.closeGroup (hsize : p.msg.tape.length < 2 ^ 32) (hne : p.stack ≠ [])
    (hclose : p.closeGroup = .ok p') :
    Drafted d framing P z.close p' ∧ p'.msg.tape.length = p.msg.tape.length ∧
      p'.stack = p.stack.tail := by
  cases hstack : p.stack with
  | nil => exact absurd hstack hne
  | cons frame stack =>
    obtain ⟨o, outer, hz, htidy, hframe, hinner, hrest, hlen⟩ := h.uncons hstack
    have hroots := roots_length_le o.closed
    have hspan : asU32 (o.closed.size + 1) = o.closed.size + 1 := asU32_of_lt (by omega)
    have hcount : asU32 o.closed.roots.length = o.closed.roots.length := asU32_of_lt (by omega)
    rw [Parser.closeGroup, h.closeInstance_eq hsize hstack hz hframe] at hclose
    simp only [hstack, hframe.entry, hframe.count] at hclose
    split at hclose
    · cases hclose
    · cases hclose
      have hadd := (h.pop hstack hrest).add hinner htidy.tree
      rw [Draft.close, hz]
      refine ⟨?_, ?_, rfl⟩
      · simpa [entryAt_length, hspan, hcount, Opened.tree] using hadd
      · simp [hlen]

end

variable {tag : Nat}

section
variable (h : Drafted d framing P z p)
include h

theorem Drafted.startInstance (hsize : p.msg.tape.length < 2 ^ 32) (hne : p.stack ≠ [])
    (hstart : p.startInstance tag = .ok p') :
    Drafted d framing P z.start p' ∧ p'.msg.tape.length = p.msg.tape.length + 1 ∧
      ∃ frame ∈ p'.stack.head?, frame.inst.isSome ∧ p.stack.head?.map Frame.group = some frame.group := by
  cases hstack : p.stack with
  | nil => exact absurd hstack hne
  | cons frame stack =>
    obtain ⟨o, outer, hz, htidy, hframe, hinner, hrest, hlen⟩ := h.uncons hstack
    rw [Parser.startInstance, h.closeInstance_eq hsize hstack hz hframe] at hstart
    simp only [hstack] at hstart
    split at hstart
    · cases hstart
    · obtain ⟨depth, hdepth, hstart⟩ := bind_eq_ok hstart
      cases hstart
      obtain rfl : depth = outer.length + 1 := by
        unfold deeper at hdepth
        split at hdepth
        · cases hdepth
          rw [hframe.depth]
        · cases hdepth
      have hplace : (openTape z.top.preorder outer ++ o.entry :: o.closed.preorder).length =
          (openTape z.top.preorder outer).length + 1 + o.closed.size := by
        simp
        omega
      have htape' : openTape z.top.preorder outer ++ o.entry :: o.closed.preorder ++
          [openInst (outer.length + 1)] =
            Draft.tape { z with opened := o.next (openInst (outer.length + 1)) :: outer } := by
        simp [Draft.tape, Draft.top, openTape, Opened.tape, Opened.next, Opened.current]
      have hchain := h.chain
      rw [hstack] at hchain
      rw [hplace, Draft.start, hz]
      refine ⟨?_, by simp [hlen]; omega, _, rfl, rfl, rfl⟩
      exact { h with
        tape := htape', frames := .cons htidy.next (hframe.next _) hinner hrest, chain := hchain }

/-- What finding a field's group does to the draft: groups are finished, and perhaps an
instance is started. -/
theorem Drafted.joinGroup (hsize : p.msg.tape.length < 2 ^ 32)
    (hjoin : Parser.joinGroup tag p.stack p = .ok p') :
    ∃ z', Draft.Joins z z' ∧ Drafted d framing P z' p' ∧
      p'.msg.tape.length ≤ p.msg.tape.length + 1 ∧
      ∀ frame ∈ p'.stack.head?, frame.inst.isSome ∧ Belongs d frame.group tag := by
  generalize hs : p.stack = stack at hjoin
  induction stack generalizing p z with
  | nil =>
    cases hjoin
    exact ⟨z, .stay z, h, by omega, by simp [hs]⟩
  | cons frame stack ih =>
    have hne : p.stack ≠ [] := by simp [hs]
    rw [Parser.joinGroup, h.dict] at hjoin
    split at hjoin
    · rename_i hdelim
      obtain ⟨hdrafted, hlen, frame', hframe', hinst, hgroup⟩ := h.startInstance hsize hne hjoin
      refine ⟨z.start, .start z, hdrafted, by omega, fun f hf => ?_⟩
      cases hframe'.symm.trans hf
      rw [hs] at hgroup
      have hgroup : frame.group = frame'.group := Option.some.inj hgroup
      exact ⟨hinst, hgroup ▸ .inl hdelim⟩
    · split at hjoin
      · rename_i hmember
        split at hjoin
        · cases hjoin
        · rename_i hinst
          cases hjoin
          refine ⟨z, .stay z, h, by omega, fun f hf => ?_⟩
          rw [hs] at hf
          cases hf
          exact ⟨by simpa [Option.isSome_iff_ne_none] using hinst, .inr hmember⟩
      · obtain ⟨p₁, hclose, hjoin⟩ := bind_eq_ok hjoin
        obtain ⟨hdrafted, hlen, hstack⟩ := h.closeGroup hsize hne hclose
        rw [hs] at hstack
        obtain ⟨z', hjoins, hdrafted', hlen', hopen⟩ := ih hdrafted (by omega) hstack hjoin
        exact ⟨z', .close hjoins, hdrafted', by omega, hopen⟩

/-- The innermost group has an open instance if its frame does. -/
theorem Drafted.inst_ne_none (hinst : ∀ frame ∈ p.stack.head?, frame.inst.isSome) :
    ∀ o ∈ z.opened.head?, o.inst ≠ none := by
  intro o ho
  cases hstack : p.stack with
  | nil =>
    rw [h.opened_eq_nil.mpr hstack] at ho
    cases ho
  | cons frame stack =>
    obtain ⟨o', outer, hz, -, hframe, -⟩ := h.uncons hstack
    rw [hz] at ho
    cases ho
    intro hnone
    have := hinst frame (by simp [hstack])
    rw [hframe.inst, hnone] at this
    cases this

end

/-! ## Regions -/

theorem preorder_gapOf_headerGap : (gapOf headerGap).preorder = gapSlots := by
  simp [gapOf, headerGap, gapSlots, preorder_slots]

/-- The room a draft may still need for the header's slots. -/
def Draft.room (z : Draft) : Nat := if z.region = .header then headerGap else 0

theorem Drafted.leaveHeader {header gap body trailer}
    (h : Drafted d framing P ⟨.header, header, gap, body, trailer, []⟩ p)
    (hsize : p.msg.tape.length + headerGap < 2 ^ 32) :
    gap = 0 ∧ body = .nil ∧ trailer = .nil ∧
      p.leaveHeader.msg.tape = (Draft.mk .body header headerGap .nil .nil []).tape ∧
      p.leaveHeader.msg.bodyStart = header.size + headerGap ∧
      p.leaveHeader.msg.tape.length = p.msg.tape.length + headerGap := by
  obtain ⟨rfl, rfl⟩ := h.begun.1 rfl
  obtain rfl := h.begun.2 (by simp)
  have htape : p.msg.tape = header.preorder := by simp [h.tape, Draft.tape, Draft.top, openTape, gapOf]
  have hlen : p.msg.tape.length = header.size := by simp [htape]
  refine ⟨rfl, rfl, rfl, ?_, ?_, ?_⟩
  · simp [Parser.leaveHeader, Message.pushGap, htape, Draft.tape, Draft.top, openTape,
      preorder_gapOf_headerGap, gapSlots]
  · simp only [Parser.leaveHeader, Message.pushGap]
    rw [asU32_of_lt (by simpa [headerGap] using hsize)]
    simp [hlen, headerGap]
  · simp [Parser.leaveHeader, Message.pushGap, headerGap]

theorem Drafted.enterRegion (h : Drafted d framing P z p) (hnil : z.opened = [])
    (hsize : p.msg.tape.length + headerGap < 2 ^ 32) (henter : p.enterRegion tag = .ok p') :
    Drafted d framing P (z.enter p'.region) p' ∧
      p'.msg.tape.length + (z.enter p'.region).room = p.msg.tape.length + z.room ∧
      p'.stack = p.stack := by
  obtain ⟨region, header, gap, body, trailer, opened⟩ := z
  subst hnil
  have htape := h.tape
  have hbegun := h.begun
  have hframes := h.frames
  rw [Parser.enterRegion, h.region] at henter
  cases region with
  | header =>
    dsimp only at henter
    split at henter
    · cases henter
      rw [h.region]
      exact ⟨h, rfl, rfl⟩
    · obtain ⟨rfl, rfl, rfl, htape', hbody', hlen⟩ := h.leaveHeader hsize
      split at henter
      · cases henter
        refine ⟨{ h with
          tape := htape', region := rfl, begun := by simp [Draft.Begun, Draft.enter]
          bodyStart := by simpa [Draft.bodyStart, Draft.enter] using hbody'
          trailerStart := by simpa [Draft.trailerStart, Draft.enter] using hbody'
          frames := hframes.of_nil }, ?_, rfl⟩
        simpa [Draft.room, Draft.enter] using hlen
      · cases henter
        have htrailer := h.trailerStart
        refine ⟨{ h with
          tape := htape', region := rfl, begun := by simp [Draft.Begun, Draft.enter]
          bodyStart := by simpa [Draft.bodyStart, Draft.enter] using hbody'
          trailerStart := by
            simpa [Draft.trailerStart, Draft.enter, Parser.leaveHeader, Message.pushGap] using htrailer
          frames := hframes.of_nil }, ?_, rfl⟩
        simpa [Draft.room, Draft.enter] using hlen
  | body =>
    dsimp only at henter
    split at henter
    · cases henter
    · split at henter
      · cases henter
        obtain rfl := hbegun.2 (by simp)
        have hlen : p.msg.tape.length = header.size + gap + body.size := by
          simp [htape, Draft.tape, Draft.top, openTape]
          omega
        have hbody := h.bodyStart
        refine ⟨{ h with
          region := rfl, begun := by simp [Draft.Begun, Draft.enter]
          bodyStart := by simpa [Draft.bodyStart, Draft.enter] using hbody
          trailerStart := ?_ }, ?_, rfl⟩
        · change asU32 p.msg.tape.length = _
          rw [asU32_of_lt (by omega), hlen]
          simp [Draft.trailerStart, Draft.enter]
        · simp [Draft.room, Draft.enter]
      · cases henter
        rw [h.region]
        exact ⟨h, rfl, rfl⟩
  | trailer =>
    dsimp only at henter
    split at henter
    · cases henter
      rw [h.region]
      exact ⟨h, rfl, rfl⟩
    · cases henter

variable {entry : Entry}

theorem Drafted.pushLateHeader (h : Drafted d framing P z p) (hnil : z.opened = [])
    (hregion : z.region ≠ .header) (hfield : entry.isField) (hP : P { entry with depth := 0 }) :
    Drafted d framing P (z.late { entry with depth := 0 }) (p.pushLateHeader entry) ∧
      (p.pushLateHeader entry).msg.tape.length ≤ p.msg.tape.length + 1 ∧
      (p.pushLateHeader entry).region = p.region ∧ (p.pushLateHeader entry).stack = p.stack := by
  obtain ⟨region, header, gap, body, trailer, opened⟩ := z
  subst hnil
  have hframes := h.frames
  have htape' : p.msg.tape = (header ++ (gapOf gap ++ (body ++ trailer))).preorder := h.tape
  have hbody' : p.msg.bodyStart = header.size + gap := by
    simpa [Draft.bodyStart, hregion] using h.bodyStart
  have hgap := headerGap_eq h.header.fits h.header.kind_ne_gap htape' hbody'
  have hheader : Shaped P false 0 (header ++ .leaf { entry with depth := 0 }) :=
    h.header.append (.field hfield rfl hP .nil)
  cases gap with
  | zero =>
    rw [if_pos rfl] at hgap
    have hinsert : p.msg.tape.insertIdx p.msg.bodyStart { entry with depth := 0 } =
        (Draft.mk region (header ++ .leaf { entry with depth := 0 }) 0 body trailer []).tape := by
      rw [hbody', htape', Nat.add_zero, ← Forest.length_preorder header, Forest.preorder_append,
        insertIdx_length]
      simp [Draft.tape, Draft.top, openTape, Forest.leaf]
    have hlate : p.pushLateHeader entry = { p with msg := { p.msg with
        tape := p.msg.tape.insertIdx p.msg.bodyStart { entry with depth := 0 }
        bodyStart := p.msg.bodyStart + 1
        trailerStart :=
          if p.region = .trailer then p.msg.trailerStart + 1 else p.msg.trailerStart } } := by
      rw [Parser.pushLateHeader, hgap]
    rw [hlate]
    refine ⟨{ h with
      tape := hinsert, begun := ⟨fun hr => absurd hr hregion, h.begun.2⟩
      bodyStart := ?_, trailerStart := ?_, header := hheader, frames := hframes.of_nil }, ?_, rfl, rfl⟩
    · simp [Draft.bodyStart, Draft.late, hregion, hbody', Forest.leaf]
    · simp only [h.region, h.trailerStart]
      by_cases htr : region = .trailer
      · simp [Draft.trailerStart, Draft.late, htr, Forest.leaf]
        omega
      · simp [Draft.trailerStart, Draft.late, htr]
    · exact List.length_insertIdx_le_succ
  | succ n =>
    rw [if_neg (by omega)] at hgap
    have hsplit : p.msg.tape = header.preorder ++ Entry.gap (n + 1) ::
        ((slots n).preorder ++ (body ++ trailer).preorder) := by
      simp [htape', gapOf]
    have hroom : (entryAt p.msg.tape header.size).span = n + 1 := by
      rw [hsplit, ← Forest.length_preorder header, entryAt_length]
      simp [Entry.span, Entry.gap]
    set tape := if 1 < n + 1 then
        (p.msg.tape.set header.size { entry with depth := 0 }).set (header.size + 1) (.gap n)
      else p.msg.tape.set header.size { entry with depth := 0 } with hset
    have htape'' : tape =
        (Draft.mk region (header ++ .leaf { entry with depth := 0 }) n body trailer []).tape := by
      have hfirst : p.msg.tape.set header.size { entry with depth := 0 } =
          (header.preorder ++ [{ entry with depth := 0 }]) ++
            ((slots n).preorder ++ (body ++ trailer).preorder) := by
        rw [hsplit, ← Forest.length_preorder header, set_length]
        simp
      rw [hset, hfirst]
      cases n with
      | zero => simp [Draft.tape, Draft.top, openTape, Forest.leaf, gapOf, slots]
      | succ n =>
        rw [if_pos (by omega), slots, Forest.preorder_node, List.cons_append,
          show header.size + 1 = (header.preorder ++ [{ entry with depth := 0 }]).length by simp,
          set_length]
        simp [Draft.tape, Draft.top, openTape, Forest.leaf, gapOf]
    have hlate : p.pushLateHeader entry = { p with msg := { p.msg with tape } } := by
      rw [Parser.pushLateHeader, hgap]
      simp only [hroom, Nat.add_sub_cancel]
      rfl
    rw [hlate]
    refine ⟨{ h with
      tape := htape'', begun := ⟨fun hr => absurd hr hregion, h.begun.2⟩
      bodyStart := ?_, trailerStart := ?_, header := hheader, frames := hframes.of_nil }, ?_, rfl, rfl⟩
    · simp [Draft.bodyStart, Draft.late, hregion, hbody', Forest.leaf]
      omega
    · simp only [h.trailerStart]
      by_cases htr : region = .trailer
      · simp [Draft.trailerStart, Draft.late, htr, Forest.leaf]
        omega
      · simp [Draft.trailerStart, Draft.late, htr]
    · simp only [hset]
      split <;> simp

/-! ## Placing a field -/

/-- A group that a field opens is one that may be open there. -/
theorem Dictionary.Chain.cons_of_opens (h : p.msg.dict.Chain (p.stack.map Frame.group)) {group}
    (hopens : p.opens tag = some group) : p.msg.dict.Chain (group :: p.stack.map Frame.group) := by
  unfold Parser.opens at hopens
  cases hstack : p.stack with
  | nil =>
    rw [hstack] at hopens
    exact .top hopens
  | cons frame stack =>
    rw [hstack] at h hopens
    exact .nested hopens h

theorem Draft.places_region {z z' depth} (h : Draft.Places z entry depth z') :
    z'.region = z.region := by
  cases h with
  | field | empty => exact (Draft.add_keeps _).1
  | opens => rfl

variable {value : Bytes}

section
variable (h : Drafted d framing P z p)
include h

/-- Putting a field on the tape, or opening the group it counts. -/
theorem Drafted.place (hinst : ∀ o ∈ z.opened.head?, o.inst ≠ none) (hfield : entry.isField)
    (hP : P { entry with depth := z.opened.length })
    (hplace : p.place entry value z.opened.length = .ok p') :
    ∃ z', Draft.Places z entry z.opened.length z' ∧ Drafted d framing P z' p' ∧
      p'.msg.tape.length = p.msg.tape.length + 1 := by
  unfold Parser.place at hplace
  split at hplace
  · cases hplace
    have hshaped : Shaped P false z.opened.length (.leaf { entry with depth := z.opened.length }) :=
      .field hfield rfl hP .nil
    exact ⟨_, .field, h.add hinst hshaped, by simp⟩
  · rename_i group hopens
    have hkind : entry.kind = .field := by
      by_contra hne
      simp [hne] at hopens
    rw [if_pos hkind] at hopens
    split at hplace
    · cases hplace
    · rename_i declared hdeclared
      split at hplace
      · rename_i hpos
        cases hplace
        refine ⟨_, .opens hkind, ?_, by simp⟩
        have hchain := h.chain
        rw [← h.dict] at hchain
        have htidy : Opened.Tidy P z.opened.length
            ⟨Draft.groupEntry entry.tag z.opened.length, .nil, none⟩ :=
          ⟨rfl, rfl, .nil, by simp, by simp⟩
        have hframe : Opened.Frames (openTape z.top.preorder z.opened).length z.opened.length
            ⟨Draft.groupEntry entry.tag z.opened.length, .nil, none⟩
            ⟨group, p.msg.tape.length, none, declared, 0, z.opened.length⟩ :=
          ⟨by rw [h.tape]; rfl, rfl, rfl, rfl, hpos⟩
        exact {
          dict := h.dict, framing := h.framing, arena := h.arena
          tape := by
            simp [Draft.tape, Draft.opens, Draft.top, openTape, Opened.tape, Opened.current, h.tape,
              Draft.groupEntry]
          region := h.region, begun := h.begun, bodyStart := h.bodyStart
          trailerStart := h.trailerStart, header := h.header, body := h.body, trailer := h.trailer
          frames := .cons htidy hframe hinst h.frames
          chain := by
            have := hchain.cons_of_opens hopens
            rwa [h.dict] at this
          msgDef := h.msgDef }
      · cases hplace
        have hshaped : Shaped P false z.opened.length
            (.leaf (Draft.groupEntry entry.tag z.opened.length)) := .group rfl rfl rfl rfl .nil .nil
        exact ⟨_, .empty hkind, h.add hinst hshaped, by simp⟩

theorem Drafted.depth_eq (hstack : p.stack = frame :: stack) {depth}
    (hdepth : deeper frame.depth = .ok depth) : depth = z.opened.length := by
  obtain ⟨o, outer, hz, -, hframe, -⟩ := h.uncons hstack
  unfold deeper at hdepth
  split at hdepth
  · cases hdepth
    rw [hz, hframe.depth, List.length_cons]
  · cases hdepth

/-- Placing a field inside the innermost open group, or at the top level. -/
theorem Drafted.settle (hsize : p.msg.tape.length + headerGap < 2 ^ 32)
    (hinst : ∀ o ∈ z.opened.head?, o.inst ≠ none) (hfield : entry.isField)
    (hP : ∀ depth, P { entry with depth }) (hsettle : p.settle entry value = .ok p') :
    ∃ z', Draft.Settles p z entry z' ∧ Drafted d framing P z' p' ∧
      p'.msg.tape.length + z'.room ≤ p.msg.tape.length + z.room + 1 := by
  unfold Parser.settle at hsettle
  split at hsettle
  · rename_i frame stack hstack
    obtain ⟨depth, hdepth, hplace⟩ := bind_eq_ok hsettle
    obtain rfl := h.depth_eq hstack hdepth
    obtain ⟨z', hplaces, hdrafted, hlen⟩ := h.place hinst hfield (hP _) hplace
    have hne : z.opened ≠ [] := by
      rw [ne_eq, h.opened_eq_nil, hstack]
      simp
    refine ⟨z', .inside hne hplaces, hdrafted, ?_⟩
    rw [Draft.room, Draft.places_region hplaces, ← Draft.room]
    omega
  · rename_i hstack
    have hnil := h.opened_eq_nil.mpr hstack
    split at hsettle
    · rename_i hlate
      have hregion : z.region ≠ .header := by
        have hlate' := hlate
        simp only [Parser.isLateHeader, decide_eq_true_eq] at hlate'
        rw [← h.region]
        exact hlate'.2.1
      split at hsettle
      · cases hsettle
      · cases hsettle
        obtain ⟨hdrafted, hlen, -⟩ := h.pushLateHeader hnil hregion hfield (hP 0)
        have hroom : (z.late { entry with depth := 0 }).room = z.room := rfl
        exact ⟨_, .late hnil hlate, hdrafted, by omega⟩
    · rename_i hlate
      obtain ⟨p₁, henter, hplace⟩ := bind_eq_ok hsettle
      obtain ⟨hdrafted, hlen, -⟩ := h.enterRegion hnil hsize henter
      have hnil' : (z.enter p₁.region).opened = [] := hnil
      obtain ⟨z', hplaces, hdrafted', hlen'⟩ := hdrafted.place (by simp [hnil']) hfield (hP _)
        (by rwa [hnil'])
      rw [hnil'] at hplaces
      refine ⟨z', .top hnil hlate henter hplaces, hdrafted', ?_⟩
      rw [Draft.room, Draft.places_region hplaces, ← Draft.room]
      omega

end

theorem Draft.Joins.region_eq {z z'} (h : Draft.Joins z z') : z'.region = z.region := by
  induction h with
  | stay => rfl
  | start z =>
    unfold Draft.start
    split <;> rfl
  | close _ ih =>
    rw [ih]
    unfold Draft.close
    split
    · exact (Draft.add_keeps _).1
    · rfl

/-- **Taking a field is an operation on the draft**: groups it does not belong to are
finished, and it is put where it belongs. -/
theorem Drafted.push (h : Drafted d framing P z p) (hsize : p.msg.tape.length + headerGap + 1 < 2 ^ 32)
    (hfield : entry.isField) (hP : ∀ depth, P { entry with depth }) (hpush : p.push entry value = .ok p') :
    ∃ p₁ z₁ z', Parser.joinGroup entry.tag p.stack p = .ok p₁ ∧ p₁.settle entry value = .ok p' ∧
      Draft.Joins z z₁ ∧ Drafted d framing P z₁ p₁ ∧
      (∀ frame ∈ p₁.stack.head?, frame.inst.isSome ∧ Belongs d frame.group entry.tag) ∧
      Draft.Settles p₁ z₁ entry z' ∧ Drafted d framing P z' p' ∧
      p'.msg.tape.length + z'.room ≤ p.msg.tape.length + z.room + 2 := by
  obtain ⟨p₁, hjoin, hsettle⟩ := bind_eq_ok hpush
  obtain ⟨z₁, hjoins, hdrafted, hlen, hframe⟩ := h.joinGroup (by omega) hjoin
  have hinst := hdrafted.inst_ne_none fun frame hf => (hframe frame hf).1
  obtain ⟨z', hsettles, hdrafted', hlen'⟩ := hdrafted.settle (by omega) hinst hfield hP hsettle
  refine ⟨p₁, z₁, z', hjoin, hsettle, hjoins, hdrafted, hframe, hsettles, hdrafted', ?_⟩
  have hroom : z₁.room = z.room := by rw [Draft.room, Draft.room, hjoins.region_eq]
  omega

end

end Babelfix.Tape
