import Babelfix.Tape.Marking
import Babelfix.Tape.Simulation

/-! # What the loop reads

The parser's loop reads a list of fields, one after the other, each as the field before
it announced, and the tree builder takes them. -/
namespace Babelfix.Tape

open Lib

/-! ## One field -/

/-- The rules on a field's place and value that make it part of a complete message. -/
structure Admits (d : Dictionary) (ordinal : Nat) (t : Token) : Prop where
  place : Parser.checkPlace .strict ordinal t.tag = .ok ()
  beginString : t.tag = 8 → t.value = d.beginString
  bodyLength : t.tag = 9 → ∃ n, parseUint t.value = .ok n
  msgType : t.tag = 35 → t.value.all isAlphanumeric
  checksum : t.tag = 10 → ∃ n, readChecksum t.value = .ok n

/-- What is known of the framing after a field at `pos`. -/
def Framed.next (pos : Nat) (t : Token) (f : Framed) : Framed where
  ordinal := f.ordinal + 1
  checksum :=
    if t.tag = 10 then (readChecksum t.value).toOption.map fun n => (pos, n) else f.checksum
  bodyLength :=
    if t.tag = 9 then (parseUint t.value).toOption.map fun n => (n, pos + 2 + t.value.length + 1)
    else f.bodyLength

namespace Track

/-- MsgType says what message this is. -/
def typed (t : Token) (z : Track) : Track :=
  if t.tag = 35 then { z with msgDef := z.dict.message t.value } else z

@[simp] theorem text_typed (t : Token) (z : Track) : (z.typed t).text = z.text := by
  unfold typed
  split <;> rfl

@[simp] theorem fields_typed (t : Token) (z : Track) : (z.typed t).fields = z.fields := by
  unfold typed
  split <;> rfl

@[simp] theorem dict_typed (t : Token) (z : Track) : (z.typed t).dict = z.dict := by
  unfold typed
  split <;> rfl

/-- Take one field of a message. -/
def take (t : Token) (z : Track) : Option Track := (z.typed t).push t

def feed : List Token → Track → Option Track
  | [], z => some z
  | t :: ts, z => (z.take t).bind (feed ts)

end Track

variable {d : Dictionary} {t : Token}

theorem admits_iff_of_place {ordinal} (h : Parser.checkPlace .strict ordinal t.tag = .ok ()) :
    Admits d ordinal t ↔ (t.tag = 8 → t.value = d.beginString) ∧
      (t.tag = 9 → ∃ n, parseUint t.value = .ok n) ∧ (t.tag = 35 → t.value.all isAlphanumeric) ∧
      (t.tag = 10 → ∃ n, readChecksum t.value = .ok n) :=
  ⟨fun a => ⟨a.beginString, a.bodyLength, a.msgType, a.checksum⟩,
    fun ⟨h8, h9, h35, h10⟩ => ⟨h, h8, h9, h35, h10⟩⟩

variable {f : Framed} {z : Track} {r : Parser × Bool}

theorem framingRules_iff {pos} : (z.parser f).framingRules t.tag pos t.value = .ok r ↔
      Admits z.dict f.ordinal t ∧
        r = ((z.typed t).parser (f.next pos t), decide (t.tag = 10)) := by
  cases hplace : Parser.checkPlace .strict f.ordinal t.tag with
  | error e =>
    constructor
    · intro h
      simp [Parser.framingRules, Track.parser, hplace, bind, Except.bind] at h
    · rintro ⟨h, -⟩
      rw [h.place] at hplace
      cases hplace
  | ok u =>
    rw [admits_iff_of_place hplace, @eq_comm _ r]
    simp only [Parser.framingRules, Track.parser, hplace, bind, Except.bind]
    by_cases h8 : t.tag = 8
    · by_cases hvalue : t.value = z.dict.beginString
      · simp [h8, hvalue, Track.message, Track.typed, Framed.next, pure, Except.pure]
      · simp [h8, hvalue, Track.message, garbled]
    by_cases h9 : t.tag = 9
    · cases hn : parseUint t.value with
      | error e => simp [h9, garbled]
      | ok n =>
        simp [h9, hn, Track.typed, Framed.next, pure, Except.pure, Except.toOption]
    by_cases h35 : t.tag = 35
    · by_cases hvalue : t.value.all isAlphanumeric
      · simp only [h35, hvalue]
        simp [Track.message, Track.typed, Framed.next, pure, Except.pure, h35]
        rfl
      · simp only [h35, hvalue]
        simp [reject]
    by_cases h10 : t.tag = 10
    · cases hn : readChecksum t.value with
      | error e => simp [h10]
      | ok n =>
        simp [h10, hn, Track.typed, Framed.next, pure, Except.pure, Except.toOption]
    · simp [h8, h9, h35, h10, Track.typed, Framed.next, pure, Except.pure]

variable {delim : UInt8} {pending pending' : Option (Nat × Nat)}

theorem Token.FollowsBy.isField (h : t.FollowsBy delim d pending pending') :
    t.IsField := by
  cases h with
  | data => exact .inr (.inr rfl)
  | length => exact .inr (.inl rfl)
  | field => exact .inl rfl

variable {pre rest : Bytes}

/-- Taking a field that was found: its framing rules, and its entry. -/
theorem take_found {p : Parser} :
    p.take (pre ++ (t.textWith delim ++ rest)) pre.length (t.found pre.length pending) =
      (p.framingRules t.tag pre.length t.value).bind fun r =>
        (r.1.push (t.fieldEntry 0 pre.length) t.value).bind fun p' =>
          .ok (p'.marking (p'.terminators.map (· ++ [pre.length + t.valOff + t.value.length])),
            r.2) := by
  have hvalue : slice (pre ++ (t.textWith delim ++ rest)) (pre.length + t.valOff)
      (pre.length + t.valOff + t.value.length - (pre.length + t.valOff)) = t.value := by
    rw [Nat.add_sub_cancel_left, slice_textWith]
  have hentry : ({
      tag := t.tag, kind := t.kind, seg := .wire, valOff := pre.length + t.valOff - pre.length,
      off := asU32 pre.length,
      len := asU32 (pre.length + t.valOff + t.value.length - (pre.length + t.valOff)) } : Entry) =
      t.fieldEntry 0 pre.length := by
    simp [Token.fieldEntry]
  rw [Parser.take]
  simp only [Token.found, hvalue, hentry]
  rfl

theorem take_iff (ht : t.IsField) (hpre : pre.length = z.text.length) :
    (z.parser f).take (pre ++ (t.text ++ rest)) pre.length (t.found pre.length pending) = .ok r ↔
      Admits z.dict f.ordinal t ∧
        ∃ z', z.take t = some z' ∧ r = (z'.parser (f.next pre.length t), decide (t.tag = 10)) := by
  have hpush := push_path (f.next pre.length t) ht (z.typed t)
  rw [Track.text_typed, ← hpre] at hpush
  rw [← Token.textWith_soh, take_found]
  constructor
  · intro h
    obtain ⟨r', hrules, h⟩ := bind_eq_ok h
    obtain ⟨hadmits, rfl⟩ := framingRules_iff.mp hrules
    obtain ⟨p, hp, h⟩ := bind_eq_ok h
    rw [toOption_eq_some.mpr hp, eq_comm, Option.map_eq_some_iff] at hpush
    obtain ⟨z', hz', rfl⟩ := hpush
    cases h
    exact ⟨hadmits, z', hz', rfl⟩
  · rintro ⟨hadmits, z', hz', rfl⟩
    have hrules : (z.parser f).framingRules t.tag pre.length t.value =
        .ok ((z.typed t).parser (f.next pre.length t), decide (t.tag = 10)) :=
      framingRules_iff.mpr ⟨hadmits, rfl⟩
    rw [show (z.typed t).push t = some z' from hz', Option.map_some, toOption_eq_some] at hpush
    rw [hrules]
    simp only [Except.bind, hpush]
    rfl

/-- The same whatever ends the field, and with its end remembered. -/
theorem take_textWith_iff (ht : t.IsField) (o : Option (List Nat)) (hpre : pre.length = z.text.length) :
    ((z.parser f).marking o).take (pre ++ (t.textWith delim ++ rest)) pre.length
        (t.found pre.length pending) = .ok r ↔
      Admits z.dict f.ordinal t ∧ ∃ z', z.take t = some z' ∧
        r = ((z'.parser (f.next pre.length t)).marking
          (o.map (· ++ [pre.length + t.valOff + t.value.length])), decide (t.tag = 10)) := by
  have hvalue : slice (pre ++ (t.textWith delim ++ rest)) (pre.length + t.valOff)
      (pre.length + t.valOff + t.value.length - (pre.length + t.valOff)) =
      slice (pre ++ (t.text ++ [])) (pre.length + t.valOff)
        (pre.length + t.valOff + t.value.length - (pre.length + t.valOff)) := by
    rw [Nat.add_sub_cancel_left, slice_textWith, slice_text]
  rw [Parser.take_marking o _ hvalue]
  constructor
  · intro h
    obtain ⟨r', htake, rfl⟩ := map_eq_ok h
    obtain ⟨hadmits, z', hz', rfl⟩ := (take_iff ht hpre).mp htake
    exact ⟨hadmits, z', hz', rfl⟩
  · intro h
    obtain ⟨hadmits, z', hz', rfl⟩ := h
    rw [(take_iff ht hpre).mpr ⟨hadmits, z', hz', rfl⟩]
    rfl

/-! ## All fields -/

/-- Each Length field is followed by its data field. Fields end with `delim`. -/
def LexesBy (delim : UInt8) (d : Dictionary) :
    Option (Nat × Nat) → List Token → Option (Nat × Nat) → Prop
  | pending, [], pending' => pending = pending'
  | pending, t :: ts, pending' =>
    t.Valid ∧ ∃ announced, t.FollowsBy delim d pending announced ∧ LexesBy delim d announced ts pending'

/-- Every field keeps the rules on its place. -/
def AdmitsAll (d : Dictionary) : Nat → List Token → Prop
  | _, [] => True
  | ordinal, t :: ts => Admits d ordinal t ∧ AdmitsAll d (ordinal + 1) ts

/-- What is known of the framing after fields that start at `pos`. -/
def Framed.all : Nat → List Token → Framed → Framed
  | _, [], f => f
  | pos, t :: ts, f => Framed.all (pos + t.text.length) ts (f.next pos t)

variable {z' : Track} {ts : List Token}

namespace Track

theorem place_cases (h : z.place t = some z') :
    ((t.kind = .field → z.opens t.tag = none) ∧ z' = { z with path := z.path.add (.leaf t) }) ∨
    t.kind = .field ∧ ∃ group declared, z.opens t.tag = some group ∧ parseUint t.value = .ok declared ∧
      ((∃ hpos, z' = { z with fresh := some ⟨group, t.tag, t.value, declared, hpos⟩ }) ∨
        declared = 0 ∧ z' = { z with path := z.path.add (.leaf ⟨.group, t.tag, t.value⟩) }) := by
  unfold place at h
  split at h
  · rename_i hopens
    cases h
    exact .inl ⟨fun hkind => by rwa [if_pos hkind] at hopens, rfl⟩
  · rename_i group hopens
    obtain ⟨hkind, hopens⟩ := Option.ite_none_right_eq_some.mp hopens
    split at h
    · cases h
    · rename_i declared hvalue
      refine .inr ⟨hkind, group, declared, hopens, hvalue, ?_⟩
      split at h
      · cases h
        exact .inl ⟨_, rfl⟩
      · rename_i hzero
        cases h
        exact .inr ⟨Nat.eq_zero_of_not_pos hzero, rfl⟩

theorem place_keeps (h : z.place t = some z') : z'.dict = z.dict ∧ z'.msgDef = z.msgDef := by
  rcases place_cases h with ⟨-, rfl⟩ | ⟨-, _, _, -, -, ⟨_, rfl⟩ | ⟨-, rfl⟩⟩ <;> exact ⟨rfl, rfl⟩

theorem fields_place (ht : t.IsField) (hz : z.fresh = none) (h : z.place t = some z') :
    z'.fields = z.fields ++ [t] := by
  rcases place_cases h with ⟨-, rfl⟩ | ⟨hkind, group, declared, -, -, h⟩
  · simp [fields, hz, Forest.leaf, ht.own_eq]
  · have hasField : Token.asField ⟨.group, t.tag, t.value⟩ = t := by
      obtain ⟨kind, tag, value⟩ := t
      cases hkind
      rfl
    rcases h with ⟨_, rfl⟩ | ⟨-, rfl⟩
    · simp [fields, hz, Opening.token, hasField]
    · simp [fields, hz, Forest.leaf, Token.own, hasField]

theorem settle_cases (h : z.settle t = some z') :
    (∃ s s', z.path = ⟨s, []⟩ ∧ s.enter z.dict t.tag = some s' ∧
      place t { z with path := ⟨s', []⟩ } = some z') ∨
    (∃ s l outer, z.path = ⟨s, l :: outer⟩ ∧ outer.length + 1 < 2 ^ 8 ∧ z.place t = some z') := by
  unfold settle at h
  split at h
  · rename_i s hs
    obtain ⟨s', hs', h⟩ := Option.bind_eq_some_iff.mp h
    exact .inl ⟨s, s', hs, hs', h⟩
  · rename_i s l outer hpath
    split at h
    · rename_i hdepth
      exact .inr ⟨s, l, outer, hpath, hdepth, h⟩
    · cases h

theorem fields_settle (ht : t.IsField) (hz : z.fresh = none) (h : z.settle t = some z') :
    z'.fields = z.fields ++ [t] := by
  rcases settle_cases h with ⟨s, s', hpath, hs', h⟩ | ⟨s, l, outer, hpath, -, h⟩
  · rw [fields_place ht (by simpa using hz) h]
    simp [fields, hz, hpath, Path.fields, Path.fieldsOf, Sections.fields_enter hs']
  · exact fields_place ht hz h

theorem dict_settle (h : z.settle t = some z') : z'.dict = z.dict := by
  rcases settle_cases h with ⟨s, s', hpath, hs', h⟩ | ⟨s, l, outer, hpath, -, h⟩
  · rw [(place_keeps h).1]
  · rw [(place_keeps h).1]

theorem push_cases (h : z.push t = some z') :
    (∃ o, z.fresh = some o ∧ t.tag = (z.dict.group o.group).delimiter ∧
      z.path.levels.length + 1 < 2 ^ 8 ∧
      settle t { z with
        path := ⟨z.path.sections, { o with done := .nil, current := .nil } :: z.path.levels⟩
        fresh := none } = some z') ∨
    (z.fresh = none ∧ ∃ path,
      Path.join z.dict t.tag z.path.sections z.path.levels .nil = some path ∧
      settle t { z with path } = some z') := by
  unfold push at h
  split at h
  · rename_i o ho
    split at h
    · rename_i hstart
      exact .inl ⟨o, ho, hstart.1, hstart.2, h⟩
    · cases h
  · rename_i hz
    obtain ⟨path, hpath, h⟩ := Option.bind_eq_some_iff.mp h
    exact .inr ⟨hz, path, hpath, h⟩

theorem fields_push (ht : t.IsField) (h : z.push t = some z') :
    z'.fields = z.fields ++ [t] := by
  rcases push_cases h with ⟨o, ho, -, -, h⟩ | ⟨hz, path, hpath, h⟩
  · rw [fields_settle ht rfl h]
    simp [fields, ho, Path.fields, Path.fieldsOf, Level.fields, Level.token]
  · rw [fields_settle ht (by simpa using hz) h]
    have hjoined := Path.fields_join hpath
    simp only [Tape.fields_nil, List.append_nil] at hjoined
    simp only [fields, hz, hjoined]
    rfl

theorem dict_push (h : z.push t = some z') : z'.dict = z.dict := by
  rcases push_cases h with ⟨o, ho, -, -, h⟩ | ⟨hz, path, hpath, h⟩
  · rw [dict_settle h]
  · rw [dict_settle h]

theorem fields_take (ht : t.IsField) (h : z.take t = some z') :
    z'.fields = z.fields ++ [t] := by
  rw [fields_push ht h, fields_typed]

theorem text_take (ht : t.IsField) (h : z.take t = some z') :
    z'.text = z.text ++ t.text := by
  rw [text_eq, text_eq, fields_take ht h, texts_append]
  simp

theorem dict_take (h : z.take t = some z') : z'.dict = z.dict := by
  rw [dict_push h, dict_typed]

theorem fields_feed (hts : ∀ t ∈ ts, t.IsField) (h : z.feed ts = some z') : z'.fields = z.fields ++ ts := by
  induction ts generalizing z with
  | nil =>
    cases h
    simp
  | cons t ts ih =>
    obtain ⟨z₁, hz₁, h⟩ := Option.bind_eq_some_iff.mp h
    rw [ih (fun u hu => hts u (List.mem_cons_of_mem _ hu)) h,
      fields_take (hts t List.mem_cons_self) hz₁]
    simp

theorem dict_feed (h : z.feed ts = some z') :
    z'.dict = z.dict := by
  induction ts generalizing z with
  | nil =>
    cases h
    rfl
  | cons t ts ih =>
    obtain ⟨z₁, hz₁, h⟩ := Option.bind_eq_some_iff.mp h
    rw [ih h, dict_take hz₁]

end Track

namespace LexesBy

variable {delim : UInt8} {d : Dictionary} {ts : List Token} {pending pending' : Option (Nat × Nat)}

section
variable (h : LexesBy delim d pending ts pending')
include h

theorem isField : ∀ t ∈ ts, t.IsField := by
  induction ts generalizing pending with
  | nil => simp
  | cons t ts ih =>
    obtain ⟨-, announced, hfollows, hrest⟩ := h
    intro u hu
    rcases List.mem_cons.mp hu with rfl | hu
    · exact hfollows.isField
    · exact ih hrest u hu

theorem valid : ∀ t ∈ ts, t.Valid := by
  induction ts generalizing pending with
  | nil => simp
  | cons t ts ih =>
    obtain ⟨hvalid, announced, -, hrest⟩ := h
    intro u hu
    rcases List.mem_cons.mp hu with rfl | hu
    · exact hvalid
    · exact ih hrest u hu

theorem delim_notMem : ∀ t ∈ ts, t.kind ≠ .data → delim ∉ t.value := by
  induction ts generalizing pending with
  | nil => simp
  | cons t ts ih =>
    obtain ⟨-, announced, hfollows, hrest⟩ := h
    intro u hu
    rcases List.mem_cons.mp hu with rfl | hu
    · exact hfollows.delim_notMem
    · exact ih hrest u hu

/-- What is read with one delimiter can be read with another that no value but those of
data fields contains. -/
theorem redelimit {delim'} (hdelim : ∀ t ∈ ts, t.kind ≠ .data → delim' ∉ t.value) :
    LexesBy delim' d pending ts pending' := by
  induction ts generalizing pending with
  | nil => exact h
  | cons t ts ih =>
    obtain ⟨hvalid, announced, hfollows, hrest⟩ := h
    obtain ⟨hclear, hdelim⟩ := List.forall_mem_cons.mp hdelim
    exact ⟨hvalid, announced, hfollows.redelimit hclear, ih hrest hdelim⟩

end

theorem append_iff {us} : LexesBy delim d pending (ts ++ us) pending' ↔
      ∃ announced, LexesBy delim d pending ts announced ∧ LexesBy delim d announced us pending' := by
  induction ts generalizing pending with
  | nil => simp [LexesBy]
  | cons t ts ih =>
    simp only [List.cons_append, LexesBy, ih]
    constructor
    · rintro ⟨hvalid, p, hfollows, q, hts, hus⟩
      exact ⟨q, ⟨hvalid, p, hfollows, hts⟩, hus⟩
    · rintro ⟨q, ⟨hvalid, p, hfollows, hts⟩, hus⟩
      exact ⟨hvalid, p, hfollows, q, hts, hus⟩

end LexesBy

section
variable {delim : UInt8} {ts : List Token}

/-- What a field announces is data. -/
theorem Token.FollowsBy.known (h : t.FollowsBy delim d pending pending') :
    ∀ x ∈ pending', ∃ length, d.kind length = .dataLength x.1 := by
  intro x hx
  cases h with
  | data | field => cases hx
  | @length tag data n value hkind _ _ =>
    cases hx
    exact ⟨tag, hkind⟩

theorem LexesBy.known (h : LexesBy delim d pending ts pending')
    (hpending : ∀ x ∈ pending, ∃ length, d.kind length = .dataLength x.1) :
    ∀ x ∈ pending', ∃ length, d.kind length = .dataLength x.1 := by
  induction ts generalizing pending with
  | nil =>
    cases h
    exact hpending
  | cons t ts ih =>
    obtain ⟨-, announced, hfollows, hrest⟩ := h
    exact ih hrest hfollows.known

theorem Token.FollowsBy.of_length (h : t.FollowsBy delim d pending pending') {data}
    (hkind : d.kind t.tag = .dataLength data) :
    (∃ n, pending = some (t.tag, n)) ∨ pending = none ∧ ∃ n, pending' = some (data, n) := by
  cases h with
  | data tag value => exact .inl ⟨_, rfl⟩
  | @length tag data' n value hlength _ _ =>
    rw [hlength] at hkind
    cases hkind
    exact .inr ⟨rfl, n, rfl⟩
  | field hplain _ => exact absurd hkind (hplain data)

end

/-! ## The loop -/

/-- What the loop has read, where fields end with `delim`: fields that are all taken, of
which only the last is CheckSum. -/
structure ReadsBy (delim : UInt8) (d : Dictionary) (f : Framed) (pending : Option (Nat × Nat))
    (ts : List Token) (pending' : Option (Nat × Nat)) : Prop where
  lexes : LexesBy delim d pending ts pending'
  admits : AdmitsAll d f.ordinal ts
  last : ∀ t ∈ ts.dropLast, t.tag ≠ 10

variable {fuel : Nat}

/-- The loop of `run` reads the fields that stand there, whatever ends them. -/
theorem loop_found (pre : Bytes) {post s} (o : Option (List Nat))
    (hpre : pre.length = z.text.length) (hfuel : post.length ≤ fuel)
    (h : Parser.loop (pre ++ post) delim fuel ⟨(z.parser f).marking o, pre.length, pending⟩ = .ok s) :
    ∃ ts rest z' pending', post = textsWith delim ts ++ rest ∧
      ReadsBy delim z.dict f pending ts pending' ∧ z.feed ts = some z' ∧
      s = ⟨(z'.parser (f.all pre.length ts)).marking (o.map (· ++ stops pre.length ts)),
        (pre ++ textsWith delim ts).length, pending'⟩ := by
  have hnone (o : Option (List Nat)) : o.map (· ++ stops pre.length []) = o := by
    cases o <;> simp [stops]
  induction fuel generalizing pre post f z pending o with
  | zero =>
    obtain rfl := List.length_eq_zero_iff.mp (Nat.le_zero.mp hfuel)
    cases h
    exact ⟨[], [], z, pending, rfl, ⟨rfl, trivial, by simp⟩, rfl, by simp [Framed.all, hnone]⟩
  | succ fuel ih =>
    rw [Parser.loop] at h
    split at h
    · obtain ⟨x, hx, h⟩ := bind_eq_ok h
      obtain ⟨t, rest, announced, rfl, hvalid, hfollows, rfl⟩ := lexField_found hx
      obtain ⟨r, hr, h⟩ := bind_eq_ok h
      obtain ⟨hadmits, z₁, hz₁, rfl⟩ := (take_textWith_iff hfollows.isField o hpre).mp hr
      have hpos : pre.length + t.valOff + t.value.length + 1 = (pre ++ t.textWith delim).length := by
        simp
        omega
      have hlen : pre.length + t.text.length = (pre ++ t.textWith delim).length := by simp
      simp only [Token.found, hpos] at h
      split at h
      · rename_i hten
        cases h
        exact ⟨[t], rest, z₁, announced, by simp,
          ⟨⟨hvalid, announced, hfollows, rfl⟩, ⟨hadmits, trivial⟩, by simp⟩,
          by simp [Track.feed, hz₁], by simp [Framed.all, stops]⟩
      · rename_i hten
        rw [← List.append_assoc] at h
        have hpre₁ : (pre ++ t.textWith delim).length = z₁.text.length := by
          rw [Track.text_take hfollows.isField hz₁, List.length_append, List.length_append, hpre,
            Token.length_text, Token.length_textWith]
        obtain ⟨ts, rest', z', pending', rfl, hreads, hfeed, rfl⟩ :=
          ih _ _ hpre₁ (by simp at hfuel ⊢; omega) h (fun o => by cases o <;> simp [stops])
        rw [Track.dict_take hz₁] at hreads
        refine ⟨t :: ts, rest', z', pending', by simp, ?_, ?_, ?_⟩
        · refine ⟨⟨hvalid, announced, hfollows, hreads.lexes⟩, ⟨hadmits, hreads.admits⟩, ?_⟩
          intro u hu
          cases ts with
          | nil => simp at hu
          | cons t' ts =>
            rcases List.mem_cons.mp hu with rfl | hu
            · simpa using hten
            · exact hreads.last u hu
        · simp [Track.feed, hz₁, hfeed]
        · rw [Framed.all, stops, hlen]
          cases o <;> simp
    · rename_i hend
      obtain rfl : post = [] := by
        simpa using hend
      cases h
      exact ⟨[], [], z, pending, rfl, ⟨rfl, trivial, by simp⟩, rfl, by simp [Framed.all, hnone]⟩

/-- Fields that stand one after the other to the end are all read, whatever ends them. -/
theorem loop_feedWith (pre : Bytes) (o : Option (List Nat)) (hpre : pre.length = z.text.length)
    (hfuel : (texts ts).length ≤ fuel) (hreads : ReadsBy delim z.dict f pending ts pending')
    (hfeed : z.feed ts = some z') :
    Parser.loop (pre ++ textsWith delim ts) delim fuel
        ⟨(z.parser f).marking o, pre.length, pending⟩ =
      .ok ⟨(z'.parser (f.all pre.length ts)).marking (o.map (· ++ stops pre.length ts)),
        (pre ++ textsWith delim ts).length, pending'⟩ := by
  induction ts generalizing fuel pre f z pending o with
  | nil =>
    obtain ⟨rfl, -, -⟩ := hreads
    cases hfeed
    cases fuel with
    | zero => simp [Parser.loop, Framed.all, stops]
    | succ fuel => simp [Parser.loop, Framed.all, stops]
  | cons t ts ih =>
    obtain ⟨⟨hvalid, announced, hfollows, hlexes⟩, ⟨hadmits, hall⟩, hlast⟩ := hreads
    obtain ⟨z₁, hz₁, hfeed⟩ := Option.bind_eq_some_iff.mp hfeed
    have hpos : pre.length + t.valOff + t.value.length + 1 = (pre ++ t.textWith delim).length := by
      simp
      omega
    have hlen : pre.length + t.text.length = (pre ++ t.textWith delim).length := by simp
    have hpre₁ : (pre ++ t.textWith delim).length = z₁.text.length := by
      rw [Track.text_take hfollows.isField hz₁, List.length_append, List.length_append, hpre,
        Token.length_text, Token.length_textWith]
    cases fuel with
    | zero => simp at hfuel
    | succ fuel =>
      have hlex : lexField z.dict (pre ++ (t.textWith delim ++ textsWith delim ts)) delim pre.length
          pending = .ok (t.found pre.length announced) :=
        lexField_textWith hvalid hfollows
      rw [textsWith_cons, Parser.loop, if_pos (by simp)]
      change (lexField z.dict _ delim pre.length pending >>= _) = _
      rw [hlex]
      change (((z.parser f).marking o).take _ pre.length _ >>= _) = _
      rw [(take_textWith_iff hfollows.isField o hpre).mpr ⟨hadmits, z₁, hz₁, rfl⟩]
      change (if decide (t.tag = 10) = true then _ else _) = _
      simp only [Token.found, hpos]
      by_cases hten : t.tag = 10
      · obtain rfl : ts = [] := by
          by_contra hne
          refine hlast t ?_ hten
          rw [List.dropLast_cons_of_ne_nil hne]
          exact List.mem_cons_self
        cases hlexes
        cases hfeed
        simp [hten, Framed.all, stops, pure, Except.pure]
      · rw [if_neg (by simpa using hten), ← List.append_assoc]
        have hlast₁ : ∀ u ∈ ts.dropLast, u.tag ≠ 10 := by
          intro u hu
          refine hlast u ?_
          rw [List.dropLast_cons_of_ne_nil (by rintro rfl; simp at hu)]
          exact List.mem_cons_of_mem _ hu
        rw [← Track.dict_take hz₁] at hlexes hall
        rw [ih _ _ hpre₁ (by simp at hfuel; omega) ⟨hlexes, hall, hlast₁⟩ hfeed]
        rw [Framed.all, stops, hlen]
        cases o <;> simp

end Babelfix.Tape
