import Babelfix.Lib.Forest
import Babelfix.Tape.Lex

/-! # The parser as a tree builder

What the parser does, said about trees instead of about a tape with open spans: the
open groups are a path into the forest that is being built, and finishing one hangs it
below the instance that is open outside it. The tape the parser keeps is the path laid
out flat, and `push` does to the tape what the tree builder does to the path. -/
namespace Babelfix.Tape

open Lib

/-! ## Laying a forest out -/

namespace Token

/-- An instance of a group. -/
def inst : Token := ⟨.inst, 0, []⟩

/-- A group's NumInGroup field. -/
def asField (t : Token) : Token := if t.kind = .group then { t with kind := .field } else t

/-- The field of a token alone. -/
def own (t : Token) : List Token := if t.kind = .inst then [] else [t.asField]

/-- What is written for a token alone. -/
def wire (t : Token) : Bytes := if t.kind = .inst then [] else t.text

/-- The depth of what is below a token. -/
def below (t : Token) (depth : Nat) : Nat := if t.kind = .group then depth + 1 else depth

def fieldEntry (t : Token) (depth pos : Nat) : Entry :=
  { tag := t.tag, kind := t.kind, depth, seg := .wire, valOff := t.valOff, off := asU32 pos,
    len := asU32 t.value.length }

/-- The entry of a token with `count` trees and `size` entries below it. -/
def entry (t : Token) (depth pos count size : Nat) : Entry :=
  match t.kind with
  | .group => { tag := t.tag, kind := .group, depth, off := asU32 count, len := asU32 (size + 1) }
  | .inst => { kind := .inst, depth, len := asU32 (size + 1) }
  | _ => t.fieldEntry depth pos

end Token

@[simp] theorem Token.text_asField (t : Token) : t.asField.text = t.text := by
  unfold Token.asField
  split <;> rfl

theorem Token.wire_eq (t : Token) : t.wire = texts t.own := by
  unfold Token.wire Token.own
  split <;> simp

def fields (f : Forest Token) : List Token := f.preorder.flatMap Token.own

@[simp] theorem fields_nil : fields .nil = [] := rfl

@[simp] theorem fields_node (t : Token) (c r : Forest Token) :
    fields (.node t c r) = t.own ++ (fields c ++ fields r) := by
  simp [fields]

@[simp] theorem fields_append (f g : Forest Token) : fields (f ++ g) = fields f ++ fields g := by
  simp [fields]

/-- What is written for a forest. -/
def text (f : Forest Token) : Bytes := texts (fields f)

/-- The entries of a forest that starts at a depth and at a place of the wire. -/
def lay (depth pos : Nat) : Forest Token → Forest Entry
  | .nil => .nil
  | .node t c r =>
    .node (t.entry depth pos c.roots.length c.size) (lay (t.below depth) (pos + t.wire.length) c)
      (lay depth (pos + t.wire.length + (text c).length) r)

/-- The tape of a forest. -/
def flat (depth pos : Nat) (f : Forest Token) : List Entry := (lay depth pos f).preorder

@[simp] theorem text_nil : text .nil = [] := rfl

@[simp] theorem text_node (t : Token) (c r : Forest Token) :
    text (.node t c r) = t.wire ++ (text c ++ text r) := by
  simp [text, Token.wire_eq]

@[simp] theorem text_append (f g : Forest Token) : text (f ++ g) = text f ++ text g := by
  simp [text]

theorem lay_append (depth pos : Nat) (f g : Forest Token) :
    lay depth pos (f ++ g) = lay depth pos f ++ lay depth (pos + (text f).length) g := by
  induction f generalizing pos with
  | nil => simp [lay]
  | node t c r _ ih => simp [lay, ih, Nat.add_assoc]

@[simp] theorem size_lay (depth pos : Nat) (f : Forest Token) : (lay depth pos f).size = f.size := by
  induction f generalizing depth pos with
  | nil => rfl
  | node t c r ihc ihr => simp [lay, ihc, ihr]

@[simp] theorem length_flat (depth pos : Nat) (f : Forest Token) :
    (flat depth pos f).length = f.size := by
  simp [flat]

@[simp] theorem flat_nil (depth pos : Nat) : flat depth pos .nil = [] := rfl

theorem flat_append (depth pos : Nat) (f g : Forest Token) :
    flat depth pos (f ++ g) = flat depth pos f ++ flat depth (pos + (text f).length) g := by
  simp [flat, lay_append]

theorem flat_node (depth pos : Nat) (t : Token) (c r : Forest Token) :
    flat depth pos (.node t c r) =
      t.entry depth pos c.roots.length c.size ::
        (flat (t.below depth) (pos + t.wire.length) c ++
          flat depth (pos + t.wire.length + (text c).length) r) := rfl

/-! ## Sections -/

/-- The header, and the body and the trailer once they have begun. -/
inductive Sections where
  | header (h : Forest Token)
  | body (h b : Forest Token)
  | trailer (h b t : Forest Token)
  deriving DecidableEq, Repr

def gapSlots : List Entry := Entry.gap headerGap :: List.replicate (headerGap - 1) {}

@[simp] theorem length_gapSlots : gapSlots.length = headerGap := rfl

variable {d : Dictionary} {tag : Nat} {s s' : Sections}

namespace Sections

def region : Sections → Region
  | header _ => .header
  | body _ _ => .body
  | trailer _ _ _ => .trailer

def text : Sections → Bytes
  | header h => Tape.text h
  | body h b => Tape.text h ++ Tape.text b
  | trailer h b t => Tape.text h ++ (Tape.text b ++ Tape.text t)

def tape : Sections → List Entry
  | header h => flat 0 0 h
  | body h b => flat 0 0 h ++ (gapSlots ++ flat 0 (Tape.text h).length b)
  | trailer h b t =>
    flat 0 0 h ++ (gapSlots ++ (flat 0 (Tape.text h).length b ++
      flat 0 (Tape.text h ++ Tape.text b).length t))

def bodyStart : Sections → Nat
  | header _ => 0
  | body h _ | trailer h _ _ => asU32 (h.size + headerGap)

def trailerStart : Sections → Nat
  | header _ | body _ _ => 0
  | trailer h b _ => asU32 (h.size + headerGap + b.size)

/-- Add to the section that has begun last. -/
def add (f : Forest Token) : Sections → Sections
  | header h => header (h ++ f)
  | body h b => body h (b ++ f)
  | trailer h b t => trailer h b (t ++ f)

/-- The section a field at the top level goes to. -/
def enter (d : Dictionary) (tag : Nat) : Sections → Option Sections
  | header h =>
    if d.isHeader tag then some (header h)
    else if d.isTrailer tag then some (trailer h .nil .nil)
    else some (body h .nil)
  | body h b =>
    if d.isHeader tag then none
    else if d.isTrailer tag then some (trailer h b .nil)
    else some (body h b)
  | trailer h b t => if d.isTrailer tag then some (trailer h b t) else none

section
variable (f : Forest Token)
include f

@[simp] theorem region_add (s : Sections) : (s.add f).region = s.region := by
  cases s <;> rfl

@[simp] theorem bodyStart_add (s : Sections) : (s.add f).bodyStart = s.bodyStart := by
  cases s <;> rfl

@[simp] theorem trailerStart_add (s : Sections) : (s.add f).trailerStart = s.trailerStart := by
  cases s <;> rfl

end

@[simp] theorem add_nil (s : Sections) : s.add .nil = s := by
  cases s <;> simp [add]

@[simp] theorem text_add (f : Forest Token) (s : Sections) :
    (s.add f).text = s.text ++ Tape.text f := by
  cases s <;> simp [add, text]

theorem tape_add (f : Forest Token) (s : Sections) :
    (s.add f).tape = s.tape ++ flat 0 s.text.length f := by
  cases s <;> simp [add, tape, text, flat_append, Nat.add_assoc]

def fields : Sections → List Token
  | header h => Tape.fields h
  | body h b => Tape.fields h ++ Tape.fields b
  | trailer h b t => Tape.fields h ++ (Tape.fields b ++ Tape.fields t)

theorem text_eq (s : Sections) : s.text = texts s.fields := by
  cases s <;> simp [text, fields, Tape.text]

@[simp] theorem fields_add (f : Forest Token) (s : Sections) :
    (s.add f).fields = s.fields ++ Tape.fields f := by
  cases s <;> simp [add, fields]

theorem fields_enter (h : s.enter d tag = some s') :
    s'.fields = s.fields := by
  cases s <;> simp only [enter] at h <;> split at h <;> try split at h
  all_goals cases h <;> simp [fields]

theorem text_enter (h : s.enter d tag = some s') :
    s'.text = s.text := by
  rw [text_eq, text_eq, fields_enter h]

end Sections

/-! ## The path -/

/-- A group that has no instance yet, but declares some. -/
structure Opening where
  group : GroupIdx
  tag : Nat
  value : Bytes
  declared : Nat
  declares : 0 < declared
  deriving DecidableEq, Repr

/-- A group with an open instance: the instances before it, and what that one holds. -/
structure Level extends Opening where
  done : Forest Token
  current : Forest Token
  deriving DecidableEq, Repr

def Opening.token (o : Opening) : Token := ⟨.group, o.tag, o.value⟩

namespace Level

def token (l : Level) : Token := l.toOpening.token

/-- The instances, the open one included. -/
def instances (l : Level) : Forest Token := l.done ++ .node Token.inst l.current .nil

def count (l : Level) : Nat := l.instances.roots.length

/-- The group with all its instances. -/
def tree (l : Level) : Forest Token := .node l.token l.instances .nil

def fields (l : Level) : List Token :=
  l.token.asField :: (Tape.fields l.done ++ Tape.fields l.current)

def text (l : Level) : Bytes := l.token.text ++ (Tape.text l.done ++ Tape.text l.current)

/-- Add to the open instance. -/
def add (f : Forest Token) (l : Level) : Level := { l with current := l.current ++ f }

/-- Start another instance. -/
def next (l : Level) : Level := { l with done := l.instances, current := .nil }

@[simp] theorem toOpening_add (f : Forest Token) (l : Level) :
    (l.add f).toOpening = l.toOpening := rfl

@[simp] theorem count_add (f : Forest Token) (l : Level) : (l.add f).count = l.count := by
  simp [count, instances, add]

end Level

/-- The entry of a group whose instances are not all there. -/
def openGroup (o : Opening) (depth : Nat) : Entry :=
  { tag := o.tag, kind := .group, depth, len := 1 }

def openInst (depth : Nat) : Entry := { kind := .inst, depth, len := 1 }

namespace Level

def tape (depth pos : Nat) (l : Level) : List Entry :=
  openGroup l.toOpening depth ::
    (flat (depth + 1) (pos + l.token.text.length) l.done ++
      openInst (depth + 1) ::
        flat (depth + 1) (pos + l.token.text.length + (Tape.text l.done).length) l.current)

/-- The frame of a group whose entry is at `at`. -/
def frame (depth entry : Nat) (l : Level) : Frame where
  group := l.group
  entry := entry
  inst := some (entry + 1 + l.done.size)
  declared := l.declared
  count := l.count
  depth := depth

end Level

/-- What is being built: the finished sections, and the open groups, innermost first. -/
structure Path where
  sections : Sections
  levels : List Level
  deriving DecidableEq, Repr

namespace Path

/-- Add to the open instance, or at the top level. -/
def add (f : Forest Token) : Path → Path
  | ⟨s, []⟩ => ⟨s.add f, []⟩
  | ⟨s, l :: outer⟩ => ⟨s, l.add f :: outer⟩

def fieldsOf (s : Sections) : List Level → List Token
  | [] => s.fields
  | l :: outer => fieldsOf s outer ++ l.fields

def textOf (s : Sections) : List Level → Bytes
  | [] => s.text
  | l :: outer => textOf s outer ++ l.text

def tapeOf (s : Sections) : List Level → List Entry
  | [] => s.tape
  | l :: outer => tapeOf s outer ++ l.tape outer.length (textOf s outer).length

def framesOf (s : Sections) : List Level → List Frame
  | [] => []
  | l :: outer => l.frame outer.length (tapeOf s outer).length :: framesOf s outer

def fields (p : Path) : List Token := fieldsOf p.sections p.levels

def text (p : Path) : Bytes := textOf p.sections p.levels

def tape (p : Path) : List Entry := tapeOf p.sections p.levels

def frames (p : Path) : List Frame := framesOf p.sections p.levels

/-- How deep a field goes now. -/
def depth (p : Path) : Nat := p.levels.length

theorem textOf_eq (s : Sections) (levels : List Level) :
    textOf s levels = texts (fieldsOf s levels) := by
  induction levels with
  | nil => exact s.text_eq
  | cons l outer ih => simp [textOf, fieldsOf, ih, Level.text, Level.fields, Tape.text]

section
variable (f : Forest Token)
include f

section
variable (p : Path)
include p

@[simp] theorem depth_add : (p.add f).depth = p.depth := by
  obtain ⟨s, _ | ⟨l, outer⟩⟩ := p <;> rfl

@[simp] theorem fields_add : (p.add f).fields = p.fields ++ Tape.fields f := by
  obtain ⟨s, _ | ⟨l, outer⟩⟩ := p
  · simp [add, fields, fieldsOf]
  · simp [add, fields, fieldsOf, Level.fields, Level.add, Level.token]

theorem tape_add : (p.add f).tape = p.tape ++ flat p.depth p.text.length f := by
  obtain ⟨s, _ | ⟨l, outer⟩⟩ := p
  · simp [add, tape, tapeOf, Sections.tape_add, depth, text, textOf]
  · simp [add, tape, tapeOf, Level.tape, Level.add, Level.token, flat_append, depth, text, textOf,
      Level.text, Nat.add_assoc]

@[simp] theorem frames_add : (p.add f).frames = p.frames := by
  obtain ⟨s, _ | ⟨l, outer⟩⟩ := p
  · rfl
  · simp [add, frames, framesOf, Level.frame, Level.add, Level.count, Level.instances]

@[simp] theorem region_add : (p.add f).sections.region = p.sections.region := by
  obtain ⟨s, _ | ⟨l, outer⟩⟩ := p <;> simp [add]

@[simp] theorem bodyStart_add : (p.add f).sections.bodyStart = p.sections.bodyStart := by
  obtain ⟨s, _ | ⟨l, outer⟩⟩ := p <;> simp [add]

@[simp] theorem trailerStart_add : (p.add f).sections.trailerStart = p.sections.trailerStart := by
  obtain ⟨s, _ | ⟨l, outer⟩⟩ := p <;> simp [add]

end

end

@[simp] theorem add_nil (p : Path) : p.add .nil = p := by
  obtain ⟨s, _ | ⟨l, outer⟩⟩ := p
  · simp [add]
  · simp [add, Level.add]

/-- Find the open group a field belongs to, finishing those it does not belong to. `f`
has still to be hung below the innermost. -/
def join (d : Dictionary) (tag : Nat) (s : Sections) : List Level → Forest Token → Option Path
  | [], f => some ((Path.mk s []).add f)
  | l :: outer, f =>
    if tag = (d.group l.group).delimiter then
      if l.count = l.declared then none
      else if outer.length + 1 < 2 ^ 8 then some ⟨s, (l.add f).next :: outer⟩
      else none
    else if ((d.group l.group).members.get tag).isSome then some ⟨s, l.add f :: outer⟩
    else if l.count = l.declared then join d tag s outer (l.add f).tree
    else none

/-- Finish every open group. -/
def finish (s : Sections) : List Level → Forest Token → Option Sections
  | [], f => some (s.add f)
  | l :: outer, f => if l.count = l.declared then finish s outer (l.add f).tree else none

variable {levels : List Level}

theorem fields_join {f p} (h : join d tag s levels f = some p) :
    p.fields = fieldsOf s levels ++ Tape.fields f := by
  induction levels generalizing f with
  | nil =>
    cases h
    exact fields_add f ⟨s, []⟩
  | cons l outer ih =>
    have hadd := fields_add f ⟨s, l :: outer⟩
    rw [join] at h
    split at h
    · split at h
      · cases h
      · split at h
        · cases h
          simp [fields, fieldsOf, Level.fields, Level.next, Level.token, Level.instances, Level.add,
            Token.own, Token.inst]
        · cases h
    · split at h
      · cases h
        exact hadd
      · split at h
        · rw [ih h]
          simp [fieldsOf, Level.fields, Level.tree, Level.token, Level.instances, Level.add,
            Token.own, Token.inst, Opening.token]
        · cases h

theorem fields_finish {f} (h : finish s levels f = some s') :
    s'.fields = fieldsOf s levels ++ Tape.fields f := by
  induction levels generalizing f with
  | nil =>
    cases h
    exact s.fields_add f
  | cons l outer ih =>
    rw [finish] at h
    split at h
    · rw [ih h]
      simp [fieldsOf, Level.fields, Level.tree, Level.token, Level.instances, Level.add, Token.own,
        Token.inst, Opening.token]
    · cases h

theorem text_join {p} (h : join d tag s levels .nil = some p) : p.text = textOf s levels := by
  have hfields := fields_join h
  rw [Tape.fields_nil, List.append_nil] at hfields
  rw [text, textOf_eq, textOf_eq, ← hfields]
  rfl

end Path

/-- The state of the tree builder: at most one group waits for its first instance. -/
structure Track where
  dict : Dictionary
  msgDef : Option MsgIdx
  path : Path
  fresh : Option Opening
  deriving DecidableEq, Repr

namespace Track

/-- The group a field opens where it stands. -/
def opens (tag : Nat) (z : Track) : Option GroupIdx :=
  match z.path.levels with
  | l :: _ => z.dict.nestedGroup l.group tag
  | [] => z.dict.topLevelGroup z.msgDef (z.path.sections.region = .header) tag

/-- Hang a field where it stands, or open the group it is the NumInGroup of. -/
def place (t : Token) (z : Track) : Option Track :=
  match if t.kind = .field then z.opens t.tag else none with
  | none => some { z with path := z.path.add (.leaf t) }
  | some group =>
    match parseUint t.value with
    | .error _ => none
    | .ok declared =>
      if h : 0 < declared then some { z with fresh := some ⟨group, t.tag, t.value, declared, h⟩ }
      else some { z with path := z.path.add (.leaf ⟨.group, t.tag, t.value⟩) }

/-- Place a field inside the open group, or at the top level. -/
def settle (t : Token) (z : Track) : Option Track :=
  match z.path with
  | ⟨s, []⟩ => (s.enter z.dict t.tag).bind fun s => place t { z with path := ⟨s, []⟩ }
  | ⟨_, _ :: outer⟩ => if outer.length + 1 < 2 ^ 8 then z.place t else none

/-- Take a field. A group without instances takes only its delimiter. -/
def push (t : Token) (z : Track) : Option Track :=
  match z.fresh with
  | some o =>
    if t.tag = (z.dict.group o.group).delimiter ∧ z.path.levels.length + 1 < 2 ^ 8 then
      let first : Level := { o with done := .nil, current := .nil }
      settle t { z with path := ⟨z.path.sections, first :: z.path.levels⟩, fresh := none }
    else none
  | none =>
    (Path.join z.dict t.tag z.path.sections z.path.levels .nil).bind fun path =>
      settle t { z with path }

def text (z : Track) : Bytes :=
  z.path.text ++ (z.fresh.map fun o => o.token.text).getD []

def fields (z : Track) : List Token :=
  z.path.fields ++ (z.fresh.map fun o => [o.token.asField]).getD []

theorem text_eq (z : Track) : z.text = texts z.fields := by
  obtain ⟨d, msgDef, path, _ | o⟩ := z
  · simp [text, fields, Path.text, Path.textOf_eq, Path.fields]
  · simp [text, fields, Path.text, Path.textOf_eq, Path.fields]

/-! ### The parser it stands for -/

def tape (z : Track) : List Entry :=
  z.path.tape ++ (z.fresh.map fun o => [openGroup o z.path.depth]).getD []

def stack (z : Track) : List Frame :=
  match z.fresh with
  | none => z.path.frames
  | some o => ⟨o.group, z.path.tape.length, none, o.declared, 0, z.path.depth⟩ :: z.path.frames

def message (z : Track) : Message where
  dict := z.dict
  msgDef := z.msgDef
  wire := []
  arena := []
  tape := z.tape
  bodyStart := z.path.sections.bodyStart
  trailerStart := z.path.sections.trailerStart
  clean := false

end Track

/-- What the parser knows of the message's framing. -/
structure Framed where
  ordinal : Nat
  checksum : Option (Nat × Nat)
  bodyLength : Option (Nat × Nat)
  deriving DecidableEq, Repr

/-- The parser of a complete message, with what it has built. -/
def Track.parser (f : Framed) (z : Track) : Parser where
  framing := .strict
  msg := z.message
  stack := z.stack
  region := z.path.sections.region
  ordinal := f.ordinal
  checksum := f.checksum
  bodyLength := f.bodyLength
  terminators := none

end Babelfix.Tape
