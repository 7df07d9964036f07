import Babelfix.Message.Value
import Mathlib.Data.List.Pairwise

/-! # Blocks and messages

A message as the session layer sees it: its type, its `BeginString`, and the
top-level entries of header, body and trailer in order. The session reads and
edits fields of the header and the body by tag; a repeating group is carried
along whole, so its contents stay as they are. `BeginString`, `BodyLength`,
`MsgType` and `CheckSum` are not entries: they are fixed by the message or
derived when it is encoded. The session's own fields are plain fields of the
dictionary and no group of it. -/
namespace Babelfix

inductive FieldErrorKind where
  | missing
  | value (e : ValueError)
  | derived
  deriving DecidableEq, Repr

/-- A problem with one field. -/
structure FieldError where
  tag : Nat
  kind : FieldErrorKind
  deriving DecidableEq, Repr

def FieldError.text (e : FieldError) : String :=
  match e.kind with
  | .missing => s!"tag {e.tag} is missing"
  | .value v => s!"tag {e.tag}: " ++ v.text
  | .derived => s!"tag {e.tag} is derived and cannot be set"

/-- A tag whose value decodes to `α`. -/
structure Field (α : Type) where
  tag : Nat
  decode : Bytes → Except ValueError α

/-- One top-level entry: a field, or a repeating group with its instances. -/
inductive Entry where
  | field (tag : Nat) (value : Bytes)
  | group (tag : Nat) (instances : List (List (Nat × Bytes)))
  deriving DecidableEq, Repr

def Entry.tag : Entry → Nat
  | .field tag _ => tag
  | .group tag _ => tag

@[simp] theorem Entry.tag_field (tag : Nat) (value : Bytes) : (Entry.field tag value).tag = tag :=
  rfl

abbrev Block := List Entry

namespace Block

def find (b : Block) (tag : Nat) : Option Entry := b.find? fun e => e.tag == tag

/-- The value bytes of the field `tag`; `none` if it is absent or a group. -/
def raw (b : Block) (tag : Nat) : Option Bytes :=
  match find b tag with
  | some (.field _ value) => some value
  | _ => none

def has (b : Block) (tag : Nat) : Bool := (find b tag).isSome

/-- The decoded value: `none` if absent, an error if malformed. -/
def get {α : Type} (b : Block) (f : Field α) : Except FieldError (Option α) :=
  match raw b f.tag with
  | none => .ok none
  | some v =>
    match f.decode v with
    | .ok a => .ok (some a)
    | .error e => .error ⟨f.tag, .value e⟩

/-- The decoded value; absent is an error too. -/
def req {α : Type} (b : Block) (f : Field α) : Except FieldError α :=
  match get b f with
  | .ok (some a) => .ok a
  | .ok none => .error ⟨f.tag, .missing⟩
  | .error e => .error e

/-- Put a freshly written field in the block, in place of the first entry for
the tag if there is one, at the end otherwise. -/
def place (tag : Nat) (value : Bytes) : Block → Block
  | [] => [.field tag value]
  | e :: rest => if e.tag = tag then .field tag value :: rest else e :: place tag value rest

/-- Remove the first entry for the tag. -/
def remove (tag : Nat) : Block → Block
  | [] => []
  | e :: rest => if e.tag = tag then rest else e :: remove tag rest

/-- Set a field. A value that is empty or holds the delimiter is refused, and
the field removed. -/
def set {α : Type} (b : Block) (f : Field α) (value : Bytes) : Block :=
  if value = [] ∨ soh ∈ value then remove f.tag b else place f.tag value b

/-- Give field `dst` the value field `src` has. -/
def copyValue {α β : Type} (b : Block) (src : Field α) (dst : Field β) :
    Except FieldError Block :=
  match find b src.tag with
  | none => .error ⟨src.tag, .missing⟩
  | some (.group _ _) => .error ⟨src.tag, .derived⟩
  | some (.field _ value) => .ok (place dst.tag value b)

def without (tags : List Nat) (b : Block) : Block := b.filter fun e => e.tag ∉ tags

/-! ## Reading after writing -/

@[simp] theorem find_nil (tag : Nat) : find [] tag = none := rfl

variable {e : Entry} {tag : Nat}

theorem find_cons_self (b : Block) (h : e.tag = tag) :
    find (e :: b) tag = some e := by
  simp [find, h]

theorem find_cons_ne (b : Block) (h : e.tag ≠ tag) :
    find (e :: b) tag = find b tag := by
  simp [find, h]

theorem place_cons_self (value : Bytes) (b : Block) (h : e.tag = tag) :
    place tag value (e :: b) = .field tag value :: b := by
  simp [place, h]

theorem place_cons_ne (value : Bytes) (b : Block) (h : e.tag ≠ tag) :
    place tag value (e :: b) = e :: place tag value b := by
  simp [place, h]

theorem remove_cons_self (b : Block) (h : e.tag = tag) :
    remove tag (e :: b) = b := by
  simp [remove, h]

theorem remove_cons_ne (b : Block) (h : e.tag ≠ tag) :
    remove tag (e :: b) = e :: remove tag b := by
  simp [remove, h]

@[simp] theorem find_place_self (tag : Nat) (value : Bytes) (b : Block) :
    find (place tag value b) tag = some (.field tag value) := by
  induction b with
  | nil => simp [place, find]
  | cons e rest ih =>
    by_cases he : e.tag = tag
    · rw [place_cons_self value rest he]
      exact find_cons_self _ rfl
    · rw [place_cons_ne value rest he, find_cons_ne _ he, ih]

theorem find_place_ne {tag'} (value : Bytes) (b : Block) (h : tag ≠ tag') :
    find (place tag value b) tag' = find b tag' := by
  induction b with
  | nil => simp [place, find, h]
  | cons e rest ih =>
    by_cases he : e.tag = tag
    · have he' : e.tag ≠ tag' := by rw [he]; exact h
      rw [place_cons_self value rest he, find_cons_ne rest he']
      exact find_cons_ne rest h
    · rw [place_cons_ne value rest he]
      by_cases he' : e.tag = tag'
      · rw [find_cons_self _ he', find_cons_self _ he']
      · rw [find_cons_ne _ he', find_cons_ne _ he', ih]

theorem find_remove_ne {tag'} (b : Block) (h : tag ≠ tag') :
    find (remove tag b) tag' = find b tag' := by
  induction b with
  | nil => rfl
  | cons e rest ih =>
    by_cases he : e.tag = tag
    · have he' : e.tag ≠ tag' := by rw [he]; exact h
      rw [remove_cons_self rest he, find_cons_ne rest he']
    · rw [remove_cons_ne rest he]
      by_cases he' : e.tag = tag'
      · rw [find_cons_self _ he', find_cons_self _ he']
      · rw [find_cons_ne _ he', find_cons_ne _ he', ih]

variable {α : Type}

theorem find_set_ne {f : Field α} (b : Block) (value : Bytes) (h : f.tag ≠ tag) :
    find (set b f value) tag = find b tag := by
  unfold set
  split
  · exact find_remove_ne b h
  · exact find_place_ne value b h

theorem set_of_valid (b : Block) (f : Field α) {value} (hne : value ≠ []) (hsoh : soh ∉ value) :
    set b f value = place f.tag value b := by
  unfold set
  rw [if_neg (by simp [hne, hsoh])]

variable {b b' : Block}

theorem get_eq_of_find {f : Field α} (h : find b f.tag = find b' f.tag) : get b f = get b' f := by
  simp [get, raw, h]

theorem req_eq_of_find {f : Field α} (h : find b f.tag = find b' f.tag) : req b f = req b' f := by
  simp [req, get_eq_of_find h]

theorem req_place_self (b : Block) (f : Field α) {value a} (h : f.decode value = .ok a) :
    req (place f.tag value b) f = .ok a := by
  simp [req, get, raw, h]

/-- A required field is there: `req` succeeds exactly with what `get` found. -/
theorem req_eq_ok {f : Field α} {a : α} :
    req b f = .ok a ↔ get b f = .ok (some a) := by
  unfold req
  split <;> simp_all

/-! ## Leaving fields out -/

variable {tags : List Nat}

end Block

/-- A FIX message. -/
structure Message where
  beginString : String
  msgType : String
  header : Block
  body : Block
  trailer : Block
  deriving DecidableEq, Repr

/-- An empty message of the given version and type. -/
def Message.new (beginString msgType : String) : Message :=
  ⟨beginString, msgType, [], [], []⟩

/-- Whether this is a session-level (admin) message: Heartbeat, TestRequest,
ResendRequest, Reject, SequenceReset, Logout, Logon or XMLnonFIX. -/
def Message.isAdmin (msg : Message) : Bool :=
  msg.msgType ∈ ["0", "1", "2", "3", "4", "5", "A", "n"]

end Babelfix
