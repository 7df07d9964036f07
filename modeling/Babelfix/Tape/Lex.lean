import Babelfix.Message.Numeral
import Babelfix.Tape.Parse

/-! # Fields on the wire

The bytes of one field, and that the parser finds exactly these: a field is found at a
place if and only if its text stands there and it is what the field before it
announced. This is so for any delimiter; on the wire it is SOH. -/
namespace Babelfix.Tape

/-- A field as it is written, or one of the entries that a repeating group makes of
them. An instance is not written itself. -/
structure Token where
  kind : Kind
  tag : Nat
  value : Bytes
  deriving DecidableEq, Repr

variable {d : Dictionary} {t : Token} {pending pending' : Option (Nat × Nat)} {delim : UInt8}

namespace Token

def text (t : Token) : Bytes := writeUint t.tag ++ 61 :: (t.value ++ [soh])

def textWith (delim : UInt8) (t : Token) : Bytes := writeUint t.tag ++ 61 :: (t.value ++ [delim])

theorem textWith_soh (t : Token) : t.textWith soh = t.text := rfl

/-- Where a field's value starts, counted from its tag. -/
def valOff (t : Token) : Nat := digits t.tag + 1

@[simp] theorem length_text (t : Token) : t.text.length = t.valOff + t.value.length + 1 := by
  simp [text, valOff]
  omega

@[simp] theorem length_textWith (delim : UInt8) (t : Token) :
    (t.textWith delim).length = t.valOff + t.value.length + 1 := by
  simp [textWith, valOff]
  omega

/-- Tags are positive `u32`s, and no value is empty. -/
structure Valid (t : Token) : Prop where
  tag_pos : 0 < t.tag
  tag_le : t.tag ≤ u32Max
  value_ne_nil : t.value ≠ []

/-- Fields that a message is read from: not groups, instances or gaps. -/
def IsField (t : Token) : Prop := t.kind = .field ∨ t.kind = .dataLen ∨ t.kind = .data

/-- A field that may follow one that announced `pending`, and what it announces. Fields end
with `delim`, which only a data field may contain. -/
inductive FollowsBy (delim : UInt8) (d : Dictionary) :
    Option (Nat × Nat) → Token → Option (Nat × Nat) → Prop
  | data (tag : Nat) (value : Bytes) :
      FollowsBy delim d (some (tag, value.length)) ⟨.data, tag, value⟩ none
  | length {tag data n : Nat} {value : Bytes} (hkind : d.kind tag = .dataLength data)
      (hn : parseUint value = .ok n) (hdelim : delim ∉ value) :
      FollowsBy delim d none ⟨.dataLen, tag, value⟩ (some (data, n))
  | field {tag : Nat} {value : Bytes} (hkind : ∀ data, d.kind tag ≠ .dataLength data)
      (hdelim : delim ∉ value) : FollowsBy delim d none ⟨.field, tag, value⟩ none

/-- Only data may contain the delimiter. -/
theorem FollowsBy.delim_notMem (h : t.FollowsBy delim d pending pending') (hkind : t.kind ≠ .data) :
    delim ∉ t.value := by
  cases h with
  | data => exact absurd rfl hkind
  | length _ _ hdelim | field _ hdelim => exact hdelim

theorem FollowsBy.redelimit {delim'} (h : t.FollowsBy delim d pending pending')
    (hdelim : t.kind ≠ .data → delim' ∉ t.value) : t.FollowsBy delim' d pending pending' := by
  cases h with
  | data tag value => exact .data tag value
  | length hkind hn _ => exact .length hkind hn (hdelim (by simp))
  | field hkind _ => exact .field hkind (hdelim (by simp))

/-- The token as it is found at `pos`. -/
def found (t : Token) (pos : Nat) (pending : Option (Nat × Nat)) : Lexed where
  tag := t.tag
  kind := t.kind
  valStart := pos + t.valOff
  valEnd := pos + t.valOff + t.value.length
  pending := pending

end Token

/-- The fields' texts one after the other. -/
def texts (ts : List Token) : Bytes := ts.flatMap Token.text

@[simp] theorem texts_nil : texts [] = [] := rfl

@[simp] theorem texts_cons (t : Token) (ts : List Token) : texts (t :: ts) = t.text ++ texts ts := rfl

@[simp] theorem texts_append (ts us : List Token) : texts (ts ++ us) = texts ts ++ texts us := by
  simp [texts]

/-- The fields' texts with another delimiter. -/
def textsWith (delim : UInt8) (ts : List Token) : Bytes := ts.flatMap (Token.textWith delim)

@[simp] theorem textsWith_nil (delim : UInt8) : textsWith delim [] = [] := rfl

@[simp] theorem textsWith_cons (delim : UInt8) (t : Token) (ts : List Token) :
    textsWith delim (t :: ts) = t.textWith delim ++ textsWith delim ts := rfl

@[simp] theorem textsWith_append (delim : UInt8) (ts us : List Token) :
    textsWith delim (ts ++ us) = textsWith delim ts ++ textsWith delim us := by
  simp [textsWith]

@[simp] theorem length_textsWith (delim : UInt8) (ts : List Token) :
    (textsWith delim ts).length = (texts ts).length := by
  induction ts with
  | nil => rfl
  | cons t ts ih => simp [ih]

/-- Where fields that start at `pos` end: the places of their delimiters. -/
def stops : Nat → List Token → List Nat
  | _, [] => []
  | pos, t :: ts => (pos + t.valOff + t.value.length) :: stops (pos + t.text.length) ts

/-! ## Tags -/

variable {tag : Nat}

theorem parseTagFrom_ok {pos i bytes r} (h : parseTagFrom pos delim tag i bytes = .ok r)
    (htag : tag ≤ u32Max) : ∃ ds rest, bytes = ds ++ 61 :: rest ∧ (∀ c ∈ ds, IsDigit c) ∧
      r = (numeralFrom tag ds, i + ds.length + 1) ∧ (i = pos → ds.head? ≠ some 48) ∧
      pos < i + ds.length ∧ 0 < numeralFrom tag ds ∧ numeralFrom tag ds ≤ u32Max := by
  induction bytes generalizing tag i with
  | nil => simp [parseTagFrom, garbled] at h
  | cons c rest ih =>
    simp only [parseTagFrom] at h
    split at h
    · rename_i heq
      split at h
      · simp [garbled] at h
      · rename_i hzero
        cases h
        refine ⟨[], rest, by simp [heq.1], by simp, by simp, by simp, by simpa using heq.2, ?_, ?_⟩
        · exact Nat.pos_of_ne_zero hzero
        · exact htag
    · split at h
      · simp [garbled] at h
      · rename_i hlead
        split at h
        · rename_i hdigit
          split at h
          · simp [garbled] at h
          · rename_i hle
            obtain ⟨ds, rest', rfl, hall, rfl, -, hpos, hnum, hmax⟩ := ih h (by omega)
            refine ⟨c :: ds, rest', rfl, ?_, ?_, ?_, ?_, hnum, hmax⟩
            · intro x hx
              rcases List.mem_cons.mp hx with rfl | hx
              · exact hdigit
              · exact hall x hx
            · simp only [numeralFrom_cons, List.length_cons, Prod.mk.injEq, true_and]
              omega
            · intro hi hhead
              exact hlead ⟨Option.some.inj hhead, hi⟩
            · simp only [List.length_cons]
              omega
        · split at h <;> simp [garbled] at h

variable {rest : Bytes}

theorem parseTagFrom_digits {pos i ds} (hall : ∀ c ∈ ds, IsDigit c)
    (hhead : i = pos → ds.head? ≠ some 48) (hpos : pos < i + ds.length) (hi : pos ≤ i)
    (hnum : 0 < numeralFrom tag ds) (hmax : numeralFrom tag ds ≤ u32Max) :
    parseTagFrom pos delim tag i (ds ++ 61 :: rest) =
      .ok (numeralFrom tag ds, i + ds.length + 1) := by
  induction ds generalizing tag i with
  | nil =>
    rw [List.nil_append, parseTagFrom, if_pos ⟨rfl, by simpa using hpos⟩,
      if_neg (by simpa [Nat.pos_iff_ne_zero] using hnum)]
    rfl
  | cons c ds ih =>
    obtain ⟨hlo, hhi⟩ := hall c List.mem_cons_self
    have hne : c ≠ 61 := by
      intro h
      subst h
      exact absurd hhi (by decide)
    have hstep : tag * 10 + (c - 48).toNat ≤ u32Max :=
      calc tag * 10 + (c - 48).toNat
          ≤ (tag * 10 + (c - 48).toNat) * 10 ^ ds.length :=
            Nat.le_mul_of_pos_right _ (Nat.pow_pos (by omega))
        _ ≤ numeralFrom tag (c :: ds) := le_numeralFrom _ ds
        _ ≤ u32Max := hmax
    rw [List.cons_append, parseTagFrom, if_neg (by simp [hne]),
      if_neg (fun h => hhead h.2 (by simp [h.1])), if_pos ⟨hlo, hhi⟩, if_neg (by omega)]
    rw [ih (fun x hx => hall x (List.mem_cons_of_mem _ hx)) (by omega) (by omega) (by omega) hnum
      hmax]
    simp only [numeralFrom_cons, List.length_cons]
    congr 2
    omega

variable {pre post : Bytes}

theorem parseTag_iff {valStart} : parseTag (pre ++ post) pre.length delim = .ok (tag, valStart) ↔
      ∃ rest, post = writeUint tag ++ 61 :: rest ∧ 0 < tag ∧ tag ≤ u32Max ∧
        valStart = pre.length + digits tag + 1 := by
  rw [parseTag, List.drop_left]
  constructor
  · intro h
    obtain ⟨ds, rest, rfl, hall, hr, hhead, hpos, hnum, hmax⟩ :=
      parseTagFrom_ok h (by simp [u32Max])
    have hds : writeUint (numeralFrom 0 ds) = ds := by
      refine writeUint_numeral ?_ hall (hhead rfl)
      rintro rfl
      simp at hpos
    cases hr
    refine ⟨rest, by rw [hds], hnum, hmax, ?_⟩
    rw [← length_writeUint, hds]
  · rintro ⟨rest, rfl, hpos, hmax, rfl⟩
    have hnum : numeralFrom 0 (writeUint tag) = tag := numeral_writeUint tag
    have hdig := digits_pos tag
    rw [parseTagFrom_digits (fun c hc => isDigit_of_mem_writeUint hc)
      (fun _ => head_writeUint hpos) (by simp; omega) (Nat.le_refl _) (by omega) (by omega)]
    simp [hnum]

/-! ## Values -/

theorem findIdx_iff {bytes len} : bytes.findIdx? (· == delim) = some len ↔
      ∃ value rest, bytes = value ++ delim :: rest ∧ delim ∉ value ∧ len = value.length := by
  induction bytes generalizing len with
  | nil => simp
  | cons c bytes ih =>
    rw [List.findIdx?_cons]
    by_cases hc : c = delim
    · subst hc
      simp only [beq_self_eq_true, if_true, Option.some.injEq]
      constructor
      · rintro rfl
        exact ⟨[], bytes, rfl, by simp, rfl⟩
      · rintro ⟨value, rest, heq, hnot, rfl⟩
        cases value with
        | nil => rfl
        | cons c value =>
          cases heq
          exact absurd List.mem_cons_self hnot
    · simp only [beq_iff_eq, hc, if_false, Option.map_eq_some_iff]
      constructor
      · rintro ⟨n, hn, rfl⟩
        obtain ⟨value, rest, rfl, hnot, rfl⟩ := ih.mp hn
        refine ⟨c :: value, rest, rfl, ?_, rfl⟩
        simp [hnot, Ne.symm hc]
      · rintro ⟨value, rest, heq, hnot, rfl⟩
        cases value with
        | nil =>
          cases heq
          exact absurd rfl hc
        | cons c' value =>
          cases heq
          exact ⟨value.length, ih.mpr ⟨value, rest, rfl, by simp at hnot; exact hnot.2, rfl⟩, rfl⟩

@[simp] theorem slice_append (pre value post : Bytes) :
    slice (pre ++ (value ++ post)) pre.length value.length = value := by
  simp [slice]

theorem split_at_value {n} (h : (pre ++ post)[pre.length + n]? = some delim) :
    ∃ value rest, post = value ++ delim :: rest ∧ value.length = n := by
  rw [List.getElem?_append_right (by omega), Nat.add_sub_cancel_left] at h
  obtain ⟨hlt, hn⟩ := List.getElem?_eq_some_iff.mp h
  refine ⟨post.take n, post.drop (n + 1), ?_, by simp; omega⟩
  rw [← hn, ← List.drop_eq_getElem_cons hlt, List.take_append_drop]

theorem append_textWith (delim : UInt8) (pre post : Bytes) (t : Token) :
    pre ++ (t.textWith delim ++ post) =
      (pre ++ writeUint t.tag ++ [61]) ++ (t.value ++ (delim :: post)) := by
  simp [Token.textWith]

theorem slice_textWith (delim : UInt8) (pre post : Bytes) (t : Token) :
    slice (pre ++ (t.textWith delim ++ post)) (pre.length + t.valOff) t.value.length = t.value := by
  rw [append_textWith]
  have hlen : (pre ++ writeUint t.tag ++ [61]).length = pre.length + t.valOff := by
    simp [Token.valOff]
  rw [← hlen, slice_append]

theorem slice_text (pre post : Bytes) (t : Token) :
    slice (pre ++ (t.text ++ post)) (pre.length + t.valOff) t.value.length = t.value :=
  slice_textWith soh pre post t

/-! ## Fields -/

theorem valueEnd_ok {kind valEnd}
    (h : valueEnd d (pre ++ post) delim tag pre.length pending = .ok (kind, valEnd)) :
    ∃ value rest, post = value ++ delim :: rest ∧ valEnd = pre.length + value.length ∧
      ((pending = some (tag, value.length) ∧ kind = .data) ∨
        (pending = none ∧ delim ∉ value ∧
          ((∃ data, d.kind tag = .dataLength data ∧ kind = .dataLen) ∨
            (∀ data, d.kind tag ≠ .dataLength data) ∧ kind = .field))) := by
  cases pending with
  | some announcement =>
    obtain ⟨dataTag, n⟩ := announcement
    simp only [valueEnd] at h
    split at h
    · cases h
    · rename_i htag
      split at h
      · rename_i hdelim
        cases h
        obtain ⟨value, rest, rfl, rfl⟩ := split_at_value hdelim
        exact ⟨value, rest, rfl, rfl, .inl ⟨by rw [not_not.mp htag], rfl⟩⟩
      · cases h
  | none =>
    simp only [valueEnd, List.drop_left] at h
    split at h
    · cases h
    · rename_i len hlen
      obtain ⟨value, rest, rfl, hdelim, rfl⟩ := findIdx_iff.mp hlen
      refine ⟨value, rest, rfl, ?_⟩
      split at h
      · rename_i data hkind
        cases h
        exact ⟨rfl, .inr ⟨rfl, hdelim, .inl ⟨data, hkind, rfl⟩⟩⟩
      · rename_i hkind
        cases h
        exact ⟨rfl, .inr ⟨rfl, hdelim, .inr ⟨hkind, rfl⟩⟩⟩

theorem lexField_found {x} (h : lexField d (pre ++ post) delim pre.length pending = .ok x) :
    ∃ (t : Token) (rest : Bytes) (pending' : Option (Nat × Nat)), post = t.textWith delim ++ rest ∧
      t.Valid ∧ t.FollowsBy delim d pending pending' ∧ x = t.found pre.length pending' := by
  obtain ⟨⟨tag, valStart⟩, htag, h⟩ := bind_eq_ok h
  obtain ⟨rest, rfl, hpos, hmax, rfl⟩ := parseTag_iff.mp htag
  obtain ⟨⟨kind, valEnd⟩, hend, h⟩ := bind_eq_ok h
  have hsplit : pre ++ (writeUint tag ++ 61 :: rest) = (pre ++ writeUint tag ++ [61]) ++ rest := by
    simp
  have hlen : (pre ++ writeUint tag ++ [61]).length = pre.length + digits tag + 1 := by
    simp
    omega
  dsimp only at h
  rw [hsplit] at h hend
  rw [← hlen] at h hend
  obtain ⟨value, post, rfl, rfl, hcase⟩ := valueEnd_ok hend
  split at h
  · cases h
  · rename_i hne
    have hvalue : value ≠ [] := by
      rintro rfl
      simp at hne
    rw [Nat.add_sub_cancel_left, slice_append] at h
    obtain ⟨pending', hann, h⟩ := bind_eq_ok h
    cases h
    refine ⟨⟨kind, tag, value⟩, post, pending', by simp [Token.textWith],
      ⟨hpos, hmax, hvalue⟩, ?_, ?_⟩
    · rcases hcase with ⟨rfl, rfl⟩ | ⟨rfl, hdelim, ⟨data, hkind, rfl⟩ | ⟨hkind, rfl⟩⟩
      · cases hann
        exact .data tag value
      · simp only [announced, hkind] at hann
        split at hann
        · rename_i n hn
          cases hann
          exact .length hkind hn hdelim
        · cases hann
      · cases hann
        exact .field hkind hdelim
    · simp [Token.found, Token.valOff]

theorem lexField_textWith (hvalid : t.Valid) (hfollows : t.FollowsBy delim d pending pending') :
    lexField d (pre ++ (t.textWith delim ++ rest)) delim pre.length pending =
      .ok (t.found pre.length pending') := by
  have htag : parseTag (pre ++ (t.textWith delim ++ rest)) pre.length delim =
      .ok (t.tag, pre.length + t.valOff) :=
    parseTag_iff.mpr
      ⟨t.value ++ delim :: rest, by simp [Token.textWith], hvalid.tag_pos, hvalid.tag_le, rfl⟩
  have hlen : (pre ++ writeUint t.tag ++ [61]).length = pre.length + t.valOff := by
    simp [Token.valOff]
  have hdrop : (pre ++ (t.textWith delim ++ rest)).drop (pre.length + t.valOff) =
      t.value ++ delim :: rest := by
    rw [append_textWith, ← hlen, List.drop_left]
  have hend : valueEnd d (pre ++ (t.textWith delim ++ rest)) delim t.tag (pre.length + t.valOff) pending =
      .ok (t.kind, pre.length + t.valOff + t.value.length) := by
    cases hfollows with
    | data tag value =>
      have hget : (pre ++ (Token.textWith delim ⟨.data, tag, value⟩ ++ rest))[
          pre.length + Token.valOff ⟨.data, tag, value⟩ + value.length]? = some delim := by
        rw [append_textWith, ← hlen, List.getElem?_append_right (by omega), Nat.add_sub_cancel_left,
          List.getElem?_append_right (by simp)]
        simp
      simp [valueEnd, hget]
    | length hkind hn hdelim =>
      have hidx := findIdx_iff.mpr ⟨_, rest, rfl, hdelim, rfl⟩
      simp only [valueEnd, hdrop, hidx, hkind]
    | @field tag value hkind hdelim =>
      have hidx := findIdx_iff.mpr ⟨_, rest, rfl, hdelim, rfl⟩
      cases h : d.kind tag with
      | plain => simp only [valueEnd, hdrop, hidx, h]
      | dataLength data => exact absurd h (hkind data)
      | data length => simp only [valueEnd, hdrop, hidx, h]
  have hne : pre.length + t.valOff + t.value.length ≠ pre.length + t.valOff := by
    have := List.length_pos_iff.mpr hvalid.value_ne_nil
    omega
  have hann : announced d t.tag t.value t.kind = .ok pending' := by
    cases hfollows with
    | data => rfl
    | length hkind hn hdelim => simp [announced, hkind, hn]
    | field => rfl
  simp only [lexField, htag, hend, bind, Except.bind, if_neg hne, Nat.add_sub_cancel_left,
    slice_textWith, hann]
  rfl

theorem lexField_text (hvalid : t.Valid) (hfollows : t.FollowsBy soh d pending pending') :
    lexField d (pre ++ (t.text ++ rest)) soh pre.length pending =
      .ok (t.found pre.length pending') :=
  lexField_textWith hvalid hfollows

end Babelfix.Tape
