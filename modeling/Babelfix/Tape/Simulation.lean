import Babelfix.Tape.Track

/-! # The parser builds the tree

Each operation of the parser on its tape and its stack of open groups is the tree
builder's on its path, up to the text of errors. -/
namespace Babelfix.Tape

open Lib

theorem toOption_bind {ε α β : Type} (x : Except ε α) (f : α → Except ε β) :
    (x >>= f).toOption = x.toOption.bind fun a => (f a).toOption := by
  cases x <;> rfl

theorem toOption_eq_some {ε α : Type} {x : Except ε α} {a} : x.toOption = some a ↔ x = .ok a := by
  cases x <;> simp [Except.toOption]

theorem set_length (xs ys : List Entry) (e e' : Entry) :
    (xs ++ e :: ys).set xs.length e' = xs ++ e' :: ys := by
  simp

theorem deeper_toOption (depth : Nat) :
    (deeper depth).toOption = if depth + 1 < 2 ^ 8 then some (depth + 1) else none := by
  unfold deeper
  split <;> rfl

/-! ## Groups -/

section

variable (d : Dictionary) (msgDef : Option MsgIdx) (f : Framed) (s : Sections) (l : Level)
  (outer : List Level)

theorem tape_split :
    Path.tapeOf s (l :: outer) =
      (Path.tapeOf s outer ++ openGroup l.toOpening outer.length ::
        flat (outer.length + 1) ((Path.textOf s outer).length + l.token.text.length) l.done) ++
      openInst (outer.length + 1) ::
        flat (outer.length + 1) ((Path.textOf s outer).length + l.token.text.length +
          (text l.done).length) l.current := by
  simp [Path.tapeOf, Level.tape]

theorem flat_instances (depth pos : Nat) :
    flat depth pos l.instances =
      flat depth pos l.done ++
        { openInst depth with len := asU32 (l.current.size + 1) } ::
          flat depth (pos + (text l.done).length) l.current := by
  simp [Level.instances, flat_append, flat_node, Token.entry, Token.inst, Token.below, Token.wire,
    openInst]

theorem parser_stack : ((Track.mk d msgDef ⟨s, l :: outer⟩ none).parser f).stack =
    l.frame outer.length (Path.tapeOf s outer).length :: Path.framesOf s outer := rfl

theorem closeInstance_path :
    ((Track.mk d msgDef ⟨s, l :: outer⟩ none).parser f).closeInstance =
      let p := (Track.mk d msgDef ⟨s, l :: outer⟩ none).parser f
      { p with msg := { p.msg with
          tape := Path.tapeOf s outer ++ openGroup l.toOpening outer.length ::
            flat (outer.length + 1) ((Path.textOf s outer).length + l.token.text.length)
              l.instances } } := by
  have htape : ((Track.mk d msgDef ⟨s, l :: outer⟩ none).parser f).msg.tape =
      Path.tapeOf s (l :: outer) := by
    simp [Track.parser, Track.message, Track.tape, Path.tape]
  set before := Path.tapeOf s outer ++ openGroup l.toOpening outer.length ::
    flat (outer.length + 1) ((Path.textOf s outer).length + l.token.text.length) l.done with hbefore
  have hidx : (Path.tapeOf s outer).length + 1 + l.done.size = before.length := by
    simp [hbefore]
    omega
  rw [Parser.closeInstance, parser_stack]
  dsimp only [Level.frame]
  rw [hidx, htape, tape_split, ← hbefore, entryAt_length, set_length, flat_instances]
  have hlen : asU32 (List.length (before ++ openInst (outer.length + 1) ::
      flat (outer.length + 1) ((Path.textOf s outer).length + l.token.text.length +
        (text l.done).length) l.current) - before.length) = asU32 (l.current.size + 1) := by
    simp
  rw [hlen, hbefore]
  simp [parser_stack, Level.frame]
  omega

theorem closeGroup_path :
    ((Track.mk d msgDef ⟨s, l :: outer⟩ none).parser f).closeGroup.toOption =
      if l.count = l.declared then
        some ((Track.mk d msgDef ((Path.mk s outer).add l.tree) none).parser f)
      else none := by
  rw [Parser.closeGroup, closeInstance_path]
  rw [parser_stack]
  dsimp only [Level.frame]
  rw [entryAt_length, set_length]
  by_cases hcount : l.count = l.declared
  · rw [if_neg (by simpa using hcount), if_pos hcount]
    have htree : flat outer.length (Path.textOf s outer).length l.tree =
        { openGroup l.toOpening outer.length with
            off := asU32 l.count, len := asU32 (l.instances.size + 1) } ::
          flat (outer.length + 1) ((Path.textOf s outer).length + l.token.text.length)
            l.instances := by
      simp [Level.tree, flat_node, Token.entry, Level.token, Opening.token, openGroup, Level.count,
        Token.below, Token.wire]
    have hlen : (Path.tapeOf s outer ++ openGroup l.toOpening outer.length ::
        flat (outer.length + 1) ((Path.textOf s outer).length + l.token.text.length)
          l.instances).length - (Path.tapeOf s outer).length = l.instances.size + 1 := by
      simp
    have htape := Path.tape_add l.tree ⟨s, outer⟩
    have hframes := Path.frames_add l.tree ⟨s, outer⟩
    simp only [Path.depth, Path.text] at htape
    rw [htree] at htape
    obtain _ | ⟨o, outer⟩ := outer
    · simp only [Except.toOption, Track.parser, Track.message, Track.tape, htape, Track.stack, hframes]
      simp [Path.add, Path.tape, Path.frames]
    · simp only [Except.toOption, Track.parser, Track.message, Track.tape, htape, Track.stack, hframes]
      simp [Path.add, Path.tape, Path.frames]
  · rw [if_pos (by simpa using hcount), if_neg hcount]
    rfl

theorem startInstance_path (tag : Nat) :
    (((Track.mk d msgDef ⟨s, l :: outer⟩ none).parser f).startInstance tag).toOption =
      if l.count = l.declared then none
      else if outer.length + 1 < 2 ^ 8 then
        some ((Track.mk d msgDef ⟨s, l.next :: outer⟩ none).parser f)
      else none := by
  rw [Parser.startInstance, closeInstance_path]
  rw [parser_stack]
  dsimp only [Level.frame]
  by_cases hcount : l.count = l.declared
  · rw [if_pos hcount, if_pos hcount]
    rfl
  · rw [if_neg hcount, if_neg hcount, toOption_bind, deeper_toOption]
    split
    · rename_i hdepth
      simp [Except.toOption, pure, Except.pure, Track.parser, Track.message, Track.tape, Path.tape,
        Track.stack, Path.frames, Path.tapeOf, Path.framesOf, Level.tape, Level.next, Level.token,
        Level.frame, Level.count, Level.instances, openInst]
      omega
    · rfl

end

section

variable (d : Dictionary) (msgDef : Option MsgIdx) (f : Framed) (s : Sections)

/-- Finding the group a field belongs to. The induction is on the open groups; `g` is
the group that has just been closed. -/
theorem joinGroup_path (tag : Nat) (levels : List Level) (g : Forest Token) :
    (Parser.joinGroup tag (Path.framesOf s levels)
      ((Track.mk d msgDef ((Path.mk s levels).add g) none).parser f)).toOption =
      (Path.join d tag s levels g).map fun path => (Track.mk d msgDef path none).parser f := by
  induction levels generalizing g with
  | nil => rfl
  | cons l outer ih =>
    rw [Path.framesOf, Parser.joinGroup, Path.join]
    simp only [Path.add, Level.frame]
    change ((if tag = (d.group l.group).delimiter then _ else _ : Except Fault Parser)).toOption = _
    split
    · rw [startInstance_path, Level.count_add, Level.toOpening_add]
      split
      · rfl
      · split <;> rfl
    · change ((if ((d.group l.group).members.get tag).isSome then _ else _ :
        Except Fault Parser)).toOption = _
      split
      · rfl
      · rw [toOption_bind, closeGroup_path, Level.count_add, Level.toOpening_add]
        split
        · exact ih _
        · rfl

theorem closeAll_path (levels : List Level) (g : Forest Token) :
    (Parser.closeAll (Path.framesOf s levels)
      ((Track.mk d msgDef ((Path.mk s levels).add g) none).parser f)).toOption =
      (Path.finish s levels g).map fun s => (Track.mk d msgDef ⟨s, []⟩ none).parser f := by
  induction levels generalizing g with
  | nil => rfl
  | cons l outer ih =>
    rw [Path.framesOf, Parser.closeAll, Path.finish, Path.add, toOption_bind, closeGroup_path,
      Level.count_add, Level.toOpening_add]
    split
    · exact ih _
    · rfl

/-! ## Regions -/

theorem enterRegion_path (tag : Nat) :
    (((Track.mk d msgDef ⟨s, []⟩ none).parser f).enterRegion tag).toOption =
      (s.enter d tag).map fun s => (Track.mk d msgDef ⟨s, []⟩ none).parser f := by
  cases s with
  | header h =>
    have hleave : ((Track.mk d msgDef ⟨.header h, []⟩ none).parser f).leaveHeader =
        { (Track.mk d msgDef ⟨.body h .nil, []⟩ none).parser f with region := .header } := by
      simp [Parser.leaveHeader, Message.pushGap, Track.parser, Track.message, Track.tape, Path.tape,
        Path.tapeOf, Sections.tape, Track.stack, Path.frames, Path.framesOf, Sections.bodyStart,
        Sections.trailerStart, Sections.region, gapSlots, headerGap]
    change Except.toOption (if d.isHeader tag then _ else _) = _
    rw [Sections.enter]
    split
    · rfl
    · rw [hleave]
      change Except.toOption (if d.isTrailer tag then _ else _) = _
      split
      · simp [Except.toOption, Track.parser, Track.message, Track.tape, Path.tape, Path.tapeOf,
          Sections.tape, Track.stack, Path.frames, Path.framesOf, Sections.bodyStart,
          Sections.trailerStart, Sections.region]
      · rfl
  | body h b =>
    change Except.toOption (if d.isHeader tag then _ else _) = _
    rw [Sections.enter]
    split
    · rfl
    · change Except.toOption (if d.isTrailer tag then _ else _) = _
      split
      · simp [Except.toOption, Track.parser, Track.message, Track.tape, Path.tape, Path.tapeOf,
          Sections.tape, Track.stack, Path.frames, Path.framesOf, Sections.bodyStart,
          Sections.trailerStart, Sections.region, Nat.add_assoc]
      · rfl
  | trailer h b t =>
    change Except.toOption (if d.isTrailer tag then _ else _) = _
    rw [Sections.enter]
    split <;> rfl

end

/-! ## Fields -/

variable {t : Token}

theorem Token.IsField.entry_eq (ht : t.IsField) (depth pos count size : Nat) :
    t.entry depth pos count size = t.fieldEntry depth pos := by
  rcases ht with h | h | h <;> simp [Token.entry, h]

theorem Token.IsField.wire_eq (ht : t.IsField) : t.wire = t.text := by
  rcases ht with h | h | h <;> simp [Token.wire, h]

theorem Token.IsField.own_eq (ht : t.IsField) : t.own = [t] := by
  rcases ht with h | h | h <;> simp [Token.own, Token.asField, h]

theorem opens_path (f : Framed) (tag : Nat) (z : Track) (hz : z.fresh = none) :
    (z.parser f).opens tag = z.opens tag := by
  obtain ⟨d, msgDef, ⟨s, _ | ⟨l, outer⟩⟩, fresh⟩ := z
  · subst hz
    rfl
  · subst hz
    rfl

/-- Adding a tree that lies on the tape as `entry` is appending `entry`. -/
theorem parser_add (f : Framed) {entry} (z : Track) (hz : z.fresh = none)
    (hentry : t.entry z.path.depth z.text.length 0 0 = entry) :
    Track.parser f { z with path := z.path.add (.leaf t) } =
      { z.parser f with msg := { z.message with tape := z.message.tape ++ [entry] } } := by
  have hflat : flat z.path.depth z.path.text.length (.leaf t) = [entry] := by
    rw [← hentry]
    simp [Forest.leaf, flat_node, Track.text, hz]
  have htape := Path.tape_add (.leaf t) z.path
  rw [hflat] at htape
  simp [Track.parser, Track.message, Track.tape, Track.stack, hz, htape]

theorem place_path (f : Framed) (ht : t.IsField) (z : Track) (hz : z.fresh = none) :
    ((z.parser f).place (t.fieldEntry 0 z.text.length) t.value z.path.depth).toOption =
      (z.place t).map (Track.parser f) := by
  have hopens : (if (t.fieldEntry 0 z.text.length).kind = .field then
      (z.parser f).opens (t.fieldEntry 0 z.text.length).tag else none) =
        if t.kind = .field then z.opens t.tag else none := opens_path f t.tag z hz ▸ rfl
  rw [Parser.place, Track.place, hopens]
  cases (if t.kind = .field then z.opens t.tag else none) with
  | none =>
    have hentry := ht.entry_eq z.path.depth z.text.length 0 0
    rw [Option.map_some, parser_add f z hz hentry]
    rfl
  | some group =>
    cases parseUint t.value with
    | error e => rfl
    | ok declared =>
      dsimp only
      split
      · simp only [Option.map_some, Except.toOption]
        simp [Track.parser, Track.message, Track.tape, Track.stack, hz, openGroup, Token.fieldEntry]
      · rw [Option.map_some, parser_add f z hz (t := ⟨.group, t.tag, t.value⟩) rfl]
        rfl

theorem settle_path (f : Framed) (ht : t.IsField) (z : Track) (hz : z.fresh = none) :
    ((z.parser f).settle (t.fieldEntry 0 z.text.length) t.value).toOption =
      (z.settle t).map (Track.parser f) := by
  obtain ⟨d, msgDef, ⟨s, _ | ⟨l, outer⟩⟩, fresh⟩ := z
  · subst hz
    have hstack : ((Track.mk d msgDef ⟨s, []⟩ none).parser f).stack = [] := rfl
    have hlate (tag : Nat) :
        ((Track.mk d msgDef ⟨s, []⟩ none).parser f).isLateHeader tag = false := by
      simp [Parser.isLateHeader, Track.parser]
    simp only [Parser.settle, hstack, hlate, Bool.false_eq_true, if_false]
    rw [toOption_bind]
    change ((((Track.mk d msgDef ⟨s, []⟩ none).parser f).enterRegion t.tag).toOption).bind _ = _
    rw [enterRegion_path, Track.settle]
    dsimp only
    cases hs : s.enter d t.tag with
    | none => rfl
    | some s' =>
      have htext : (Track.mk d msgDef ⟨s, []⟩ none).text = (Track.mk d msgDef ⟨s', []⟩ none).text := by
        simp [Track.text, Path.text, Path.textOf, Sections.text_enter hs]
      rw [htext]
      exact place_path f ht _ rfl
  · subst hz
    change ((deeper outer.length >>= _ : Except Fault Parser)).toOption = _
    rw [toOption_bind, deeper_toOption, Track.settle]
    dsimp only
    split
    · exact place_path f ht _ rfl
    · rfl

/-- A group that waits for its first instance takes its delimiter and nothing else. -/
theorem joinGroup_fresh (d : Dictionary) (msgDef : Option MsgIdx) (f : Framed) (path : Path)
    (o : Opening) (tag : Nat) :
    (Parser.joinGroup tag (Track.mk d msgDef path (some o)).stack
      ((Track.mk d msgDef path (some o)).parser f)).toOption =
      if tag = (d.group o.group).delimiter ∧ path.levels.length + 1 < 2 ^ 8 then
        some ((Track.mk d msgDef
          ⟨path.sections, { o with done := .nil, current := .nil } :: path.levels⟩ none).parser f)
      else none := by
  have hpos := o.declares
  rw [Track.stack, Parser.joinGroup]
  change Except.toOption (if tag = (d.group o.group).delimiter then _ else _) = _
  by_cases htag : tag = (d.group o.group).delimiter
  · rw [if_pos htag]
    have hclose : ((Track.mk d msgDef path (some o)).parser f).closeInstance =
        (Track.mk d msgDef path (some o)).parser f := rfl
    rw [Parser.startInstance, hclose]
    change Except.toOption (if 0 = o.declared then _ else _) = _
    rw [if_neg (by omega), toOption_bind, deeper_toOption]
    simp only [htag, true_and]
    change (if path.levels.length + 1 < 2 ^ 8 then _ else none).bind _ = _
    split
    · simp [Except.toOption, pure, Except.pure, Track.parser, Track.message, Track.tape, Track.stack,
        Path.tape, Path.tapeOf, Path.frames, Path.framesOf, Level.tape, Level.frame, Level.count,
        Level.instances, openInst, Path.depth]
    · rfl
  · rw [if_neg htag, if_neg (fun h : tag = _ ∧ _ => htag h.1)]
    split
    · rfl
    · rw [toOption_bind]
      have hclose : ((Track.mk d msgDef path (some o)).parser f).closeGroup.toOption = none := by
        have hcount : ¬ 0 = o.declared := by omega
        change Except.toOption (if 0 ≠ o.declared then _ else _) = _
        rw [if_pos hcount]
        rfl
      rw [hclose]
      rfl

/-- **Taking a field builds the tree.** -/
theorem push_path (f : Framed) (ht : t.IsField) (z : Track) :
    ((z.parser f).push (t.fieldEntry 0 z.text.length) t.value).toOption =
      (z.push t).map (Track.parser f) := by
  obtain ⟨d, msgDef, ⟨s, levels⟩, fresh⟩ := z
  rw [Parser.push, toOption_bind]
  change ((Parser.joinGroup t.tag (Track.mk d msgDef ⟨s, levels⟩ fresh).stack _).toOption).bind _ = _
  cases fresh with
  | none =>
    have hjoin := joinGroup_path d msgDef f s t.tag levels .nil
    rw [Path.add_nil] at hjoin
    change ((Parser.joinGroup t.tag (Path.framesOf s levels) _).toOption).bind _ = _
    rw [hjoin, Track.push]
    cases hpath : Path.join d t.tag s levels .nil with
    | none => rfl
    | some path =>
      have htext : (Track.mk d msgDef ⟨s, levels⟩ none).text = (Track.mk d msgDef path none).text := by
        simp only [Track.text, Path.text_join hpath]
        rfl
      rw [htext]
      exact settle_path f ht _ rfl
  | some o =>
    rw [joinGroup_fresh, Track.push]
    dsimp only
    split
    · have htext : (Track.mk d msgDef ⟨s, levels⟩ (some o)).text = (Track.mk d msgDef
          ⟨s, { o with done := .nil, current := .nil } :: levels⟩ none).text := by
        simp [Track.text, Path.text, Path.textOf, Level.text, Level.token]
      rw [htext]
      exact settle_path f ht _ rfl
    · rfl

end Babelfix.Tape
