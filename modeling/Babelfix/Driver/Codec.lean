import Babelfix.Lib.Stream
import Babelfix.Session.Types
import Babelfix.Tape.Encode
import Babelfix.Tape.Parse
import Babelfix.Tape.View

/-! # Framing

Splitting bytes into messages and back (`codec.rs`). `BodyLength` covers everything from
its own end to the start of `CheckSum`, so where a frame ends is known once its first two
fields are there. -/
namespace Babelfix.Driver
open Lib
open Session (Error Fault)

/-- `10=nnn` and its delimiter. -/
def checksumFieldLen : Nat := 7

/-- The largest frame accepted unless told otherwise: 4 MiB. -/
def defaultMaxFrameLen : Nat := 2 ^ 22

/-- `str::parse::<usize>`: a `+` may come before the digits. -/
def parseUsize : Bytes → Option Nat
  | 43 :: c :: rest => (parseUint (c :: rest)).toOption
  | raw => (parseUint raw).toOption

def invalid {α : Type} (text : String) : Except Fault α := .error (.err (.invalidMessage text))

/-! ## The decoder -/

/-- Where the first frame in a buffer is. -/
structure Frame where
  beginString : Bytes
  /-- The whole frame, through CheckSum's delimiter. -/
  len : Nat
  deriving DecidableEq, Repr

/-- Too long a frame, or too many bytes without the start of one. -/
def tooLong {α : Type} (max : Nat) : Except Fault α :=
  invalid s!"frame exceeds the {max} byte limit"

/-- More bytes are needed, unless there are too many already. -/
def incomplete (data : Bytes) (max : Nat) : Except Fault (Option Frame) :=
  if max < data.length then tooLong max else .ok none

/-- Find the first frame from its `8=...|9=...|`. -/
def frame (data : Bytes) (delimiter : UInt8) (max : Nat) : Except Fault (Option Frame) :=
  match data.findIdx? (· == delimiter) with
  | none => incomplete data max
  | some beginEnd =>
    match (data.take beginEnd).dropPrefix? (ascii "8=") with
    | none => invalid "Expected BeginString(8) first"
    | some beginString =>
      let rest := data.drop (beginEnd + 1)
      match rest.findIdx? (· == delimiter) with
      | none => incomplete data max
      | some lengthEnd =>
        match (rest.take lengthEnd).dropPrefix? (ascii "9=") with
        | none => invalid "Expected BodyLength(9) second"
        | some bodyLength =>
          match parseUsize bodyLength with
          | none => invalid "Invalid BodyLength(9)"
          | some bodyLength =>
            let headerLen := beginEnd + 1 + lengthEnd + 1
            -- additions that leave a `usize` are caught, like a length over the limit
            let len := headerLen + bodyLength + checksumFieldLen
            if len ≤ u64Max ∧ len ≤ max then .ok (some ⟨beginString, len⟩) else tooLong max

/-- Splits a byte stream into messages. It holds every message to the version of the
first. -/
structure FixDecoder where
  /-- The versions there are, in the order of their names. -/
  dicts : List Tape.Dictionary
  delimiter : UInt8
  dict : Option Tape.Dictionary
  maxFrameLen : Nat
  deriving DecidableEq, Repr

def forBeginString (dicts : List Tape.Dictionary) (beginString : Bytes) : Option Tape.Dictionary :=
  dicts.find? fun d => d.beginString = beginString

def ofParseError (e : Tape.ParseError) : Error :=
  match e.tag, e.rejectReason with
  | some tag, some reason =>
    let message := e.message
    .invalidMessage s!"{message} (tag {tag}, reject reason {reason})"
  | _, _ => .invalidMessage ("garbled message: " ++ e.message)

def ofParse {α : Type} : Except Tape.Fault α → Except Fault α
  | .ok a => .ok a
  | .error (.parse e) => .error (.err (ofParseError e))
  | .error .overflow => .error .overflow

namespace FixDecoder

/-- A decoder that takes its version from the first message it sees. -/
def new (dicts : List Tape.Dictionary) (delimiter : Option UInt8) : FixDecoder where
  dicts
  delimiter := delimiter.getD soh
  dict := none
  maxFrameLen := defaultMaxFrameLen

/-- A decoder for a known version. -/
def withDictionary (dicts : List Tape.Dictionary) (delimiter : Option UInt8)
    (dict : Tape.Dictionary) : FixDecoder :=
  { new dicts delimiter with dict := some dict }

def withMaxFrameLen (d : FixDecoder) (max : Nat) : FixDecoder := { d with maxFrameLen := max }

/-- The version a frame is held to. -/
def dictFor (d : FixDecoder) (beginString : Bytes) : Option Tape.Dictionary :=
  match d.dict with
  | some dict => some dict
  | none => forBeginString d.dicts beginString

def parseFrame (d : FixDecoder) (dict : Tape.Dictionary) (bytes : Bytes) :
    Except Fault Tape.Message :=
  ofParse <|
    if d.delimiter = soh then Tape.Message.parse dict bytes
    else Tape.Message.parseDelimited dict bytes d.delimiter

/-- What a call to `decode` leaves behind. -/
structure Decode where
  decoder : FixDecoder
  data : Bytes
  result : Except Fault (Option Tape.Message)
  deriving DecidableEq

/-- Take one complete message off the front of `data`, if there is one. -/
def decode (d : FixDecoder) (data : Bytes) : Decode :=
  match frame data d.delimiter d.maxFrameLen with
  | .error f => ⟨d, data, .error f⟩
  | .ok none => ⟨d, data, .ok none⟩
  | .ok (some frame) =>
    if data.length < frame.len then ⟨d, data, .ok none⟩
    else
      match d.dictFor frame.beginString with
      | none =>
        let version := Tape.lossy frame.beginString
        ⟨d, data, invalid s!"Unknown FIX version {version}"⟩
      | some dict =>
        ⟨{ d with dict := some dict }, data.drop frame.len,
          (d.parseFrame dict (data.take frame.len)).map some⟩

end FixDecoder

/-! ## The encoder -/

structure FixEncoder where
  delimiter : UInt8
  deriving DecidableEq, Repr

namespace FixEncoder

def new (delimiter : Option UInt8) : FixEncoder := ⟨delimiter.getD soh⟩

/-- Append the message as it goes on the wire. -/
def encode (e : FixEncoder) (msg : Tape.Message) (dst : Bytes) : Bytes :=
  if e.delimiter = soh then msg.encode dst else msg.encodeDelimited dst e.delimiter

end FixEncoder

/-! ## What has been found -/

/-- What `frame` returns when it does not fail: nothing yet, because one of the two fields
is not complete, or the frame they describe. -/
inductive Found (delimiter : UInt8) (max : Nat) (data : Bytes) : Option Frame → Prop
  | noBegin (hbegin : data.findIdx? (· == delimiter) = none) (hle : data.length ≤ max) :
    Found delimiter max data none
  | noLength {beginEnd : Nat} {beginString : Bytes}
    (hbegin : data.findIdx? (· == delimiter) = some beginEnd)
    (hstring : (data.take beginEnd).dropPrefix? (ascii "8=") = some beginString)
    (hlength : (data.drop (beginEnd + 1)).findIdx? (· == delimiter) = none)
    (hle : data.length ≤ max) : Found delimiter max data none
  | headed {beginEnd lengthEnd bodyLength : Nat} {beginString text : Bytes}
    (hbegin : data.findIdx? (· == delimiter) = some beginEnd)
    (hstring : (data.take beginEnd).dropPrefix? (ascii "8=") = some beginString)
    (hlength : (data.drop (beginEnd + 1)).findIdx? (· == delimiter) = some lengthEnd)
    (htext : ((data.drop (beginEnd + 1)).take lengthEnd).dropPrefix? (ascii "9=") = some text)
    (hnum : parseUsize text = some bodyLength)
    (hle : beginEnd + 1 + lengthEnd + 1 + bodyLength + checksumFieldLen ≤ u64Max ∧
      beginEnd + 1 + lengthEnd + 1 + bodyLength + checksumFieldLen ≤ max) :
    Found delimiter max data
      (some ⟨beginString, beginEnd + 1 + lengthEnd + 1 + bodyLength + checksumFieldLen⟩)

section

variable {xs ys data : Bytes} {delimiter : UInt8} {max : Nat}

variable {r : Option Frame}

theorem incomplete_eq_ok :
    incomplete data max = .ok r ↔ data.length ≤ max ∧ r = none := by
  unfold incomplete tooLong invalid
  split
  · simp
    omega
  · simp [eq_comm]
    omega

theorem frame_eq_ok :
    frame data delimiter max = .ok r ↔ Found delimiter max data r := by
  constructor
  · intro h
    unfold frame at h
    split at h
    · rename_i hbegin
      obtain ⟨hle, rfl⟩ := incomplete_eq_ok.mp h
      exact .noBegin hbegin hle
    rename_i beginEnd hbegin
    split at h
    · cases h
    rename_i beginString hstring
    simp only at h
    split at h
    · rename_i hlength
      obtain ⟨hle, rfl⟩ := incomplete_eq_ok.mp h
      exact .noLength hbegin hstring hlength hle
    rename_i lengthEnd hlength
    split at h
    · cases h
    rename_i text htext
    split at h
    · cases h
    rename_i bodyLength hnum
    split at h
    · rename_i hle
      cases h
      exact .headed hbegin hstring hlength htext hnum hle
    · cases h
  · intro h
    cases h with
    | noBegin hbegin hle =>
      simp only [frame, hbegin]
      exact incomplete_eq_ok.mpr ⟨hle, rfl⟩
    | noLength hbegin hstring hlength hle =>
      simp only [frame, hbegin, hstring, hlength]
      exact incomplete_eq_ok.mpr ⟨hle, rfl⟩
    | headed hbegin hstring hlength htext hnum hle =>
      simp only [frame, hbegin, hstring, hlength, htext, hnum]
      exact if_pos hle

theorem Found.unique {r'} (h : Found delimiter max data r) (h' : Found delimiter max data r') :
    r = r' :=
  Except.ok.inj ((frame_eq_ok.mpr h).symm.trans (frame_eq_ok.mpr h'))

/-! ## More bytes do not change a verdict -/

variable {i : Nat}

theorem findIdx_append_of_some (ys : Bytes) (h : xs.findIdx? (· == delimiter) = some i) :
    (xs ++ ys).findIdx? (· == delimiter) = some i := by
  rw [List.findIdx?_append, h, Option.some_or]

theorem findIdx_lt (h : xs.findIdx? (· == delimiter) = some i) : i < xs.length := by
  obtain ⟨hi, -⟩ := List.findIdx?_eq_some_iff_getElem.mp h
  exact hi

theorem le_of_findIdx_append (h : xs.findIdx? (· == delimiter) = none)
    (h' : (xs ++ ys).findIdx? (· == delimiter) = some i) : xs.length ≤ i := by
  rw [List.findIdx?_append, h, Option.none_or, Option.map_eq_some_iff] at h'
  omega

theorem split_append (ys : Bytes) (h : xs.findIdx? (· == delimiter) = some i) :
    (xs ++ ys).take i = xs.take i ∧ (xs ++ ys).drop (i + 1) = xs.drop (i + 1) ++ ys := by
  have hi := findIdx_lt h
  exact ⟨List.take_append_of_le_length (by omega), List.drop_append_of_le_length (by omega)⟩

variable {f : Frame}

theorem Found.append_some (h : Found delimiter max xs (some f)) (ys : Bytes) :
    Found delimiter max (xs ++ ys) (some f) := by
  cases h with
  | headed hbegin hstring hlength htext hnum hle =>
    obtain ⟨htake, hdrop⟩ := split_append ys hbegin
    obtain ⟨htake', -⟩ := split_append ys hlength
    exact .headed (findIdx_append_of_some ys hbegin) (by rw [htake, hstring])
      (by rw [hdrop]; exact findIdx_append_of_some ys hlength) (by rw [hdrop, htake', htext])
      hnum hle

/-- Bytes that do not fail did not fail while they were fewer. -/
theorem Found.of_append (h : Found delimiter max (xs ++ ys) r) :
    ∃ r', Found delimiter max xs r' := by
  cases hb : xs.findIdx? (· == delimiter) with
  | none =>
    refine ⟨none, .noBegin hb ?_⟩
    cases h with
    | noBegin _ hle | noLength _ _ _ hle =>
      rw [List.length_append] at hle
      omega
    | headed hbegin _ _ _ _ hle =>
      have := le_of_findIdx_append hb hbegin
      omega
  | some i =>
    have hi := findIdx_append_of_some ys hb
    obtain ⟨htake, hdrop⟩ := split_append ys hb
    cases h with
    | noBegin hbegin _ =>
      rw [hi] at hbegin
      cases hbegin
    | noLength hbegin hstring hlength hle =>
      rw [hi] at hbegin
      cases hbegin
      rw [htake] at hstring
      rw [hdrop, List.findIdx?_append, Option.or_eq_none_iff] at hlength
      rw [List.length_append] at hle
      exact ⟨none, .noLength hb hstring hlength.1 (by omega)⟩
    | headed hbegin hstring hlength htext hnum hle =>
      rw [hi] at hbegin
      cases hbegin
      rw [htake] at hstring
      rw [hdrop] at hlength htext
      cases hl : (xs.drop (i + 1)).findIdx? (· == delimiter) with
      | none =>
        have := le_of_findIdx_append hl hlength
        rw [List.length_drop] at this
        exact ⟨none, .noLength hb hstring hl (by omega)⟩
      | some j =>
        rw [findIdx_append_of_some ys hl] at hlength
        cases hlength
        rw [(split_append ys hl).1] at htext
        exact ⟨_, .headed hb hstring hl htext hnum hle⟩

theorem Found.length_le (h : Found delimiter max data none) : data.length ≤ max := by
  cases h with
  | noBegin _ hle | noLength _ _ _ hle => exact hle

theorem Found.len_le (h : Found delimiter max data (some f)) : f.len ≤ max := by
  cases h with
  | headed _ _ _ _ _ hle => exact hle.2

theorem Found.len_pos (h : Found delimiter max data (some f)) : 0 < f.len := by
  cases h with
  | headed =>
    simp only
    omega

end

namespace FixDecoder

/-- How `decode` ends. -/
inductive Decodes (d : FixDecoder) (data : Bytes) : Decode → Prop
  | malformed {e : Fault} (h : frame data d.delimiter d.maxFrameLen = .error e) :
    Decodes d data ⟨d, data, .error e⟩
  | pending {found : Option Frame} (h : Found d.delimiter d.maxFrameLen data found)
    (hlt : ∀ f, found = some f → data.length < f.len) : Decodes d data ⟨d, data, .ok none⟩
  | unknown {f : Frame} {e : Fault} (h : Found d.delimiter d.maxFrameLen data (some f))
    (hle : f.len ≤ data.length) (hdict : d.dictFor f.beginString = none) :
    Decodes d data ⟨d, data, .error e⟩
  | refused {f : Frame} {dict : Tape.Dictionary} {e : Fault}
    (h : Found d.delimiter d.maxFrameLen data (some f)) (hle : f.len ≤ data.length)
    (hdict : d.dictFor f.beginString = some dict)
    (hparse : d.parseFrame dict (data.take f.len) = .error e) :
    Decodes d data ⟨{ d with dict := some dict }, data.drop f.len, .error e⟩
  | parsed {f : Frame} {dict : Tape.Dictionary} {msg : Tape.Message}
    (h : Found d.delimiter d.maxFrameLen data (some f)) (hle : f.len ≤ data.length)
    (hdict : d.dictFor f.beginString = some dict)
    (hparse : d.parseFrame dict (data.take f.len) = .ok msg) :
    Decodes d data ⟨{ d with dict := some dict }, data.drop f.len, .ok (some msg)⟩

theorem decode_spec (d : FixDecoder) (data : Bytes) : Decodes d data (d.decode data) := by
  unfold decode
  split
  · rename_i h
    exact .malformed h
  · rename_i h
    exact .pending (frame_eq_ok.mp h) (fun f hf => by cases hf)
  rename_i f h
  split
  · rename_i hlt
    refine .pending (frame_eq_ok.mp h) ?_
    intro f' hf
    cases hf
    exact hlt
  split
  · rename_i hdict
    exact .unknown (frame_eq_ok.mp h) (by omega) hdict
  · rename_i dict hdict
    cases hparse : d.parseFrame dict (data.take f.len) with
    | error e => exact .refused (frame_eq_ok.mp h) (by omega) hdict hparse
    | ok msg => exact .parsed (frame_eq_ok.mp h) (by omega) hdict hparse

/-- What a decoder makes of the bytes there are. -/
def verdict (d : FixDecoder) (data : Bytes) : Decoded FixDecoder Tape.Message Fault UInt8 :=
  match (d.decode data).result with
  | .error f => .fail f
  | .ok none => .more
  | .ok (some msg) => .item (d.decode data).decoder msg (d.decode data).data

section

variable {d d' : FixDecoder} {data xs ys rest : Bytes} {msg : Tape.Message}

theorem decode_of_verdict (d : FixDecoder) (data : Bytes) :
    match d.verdict data with
    | .item d' msg rest => d.decode data = ⟨d', rest, .ok (some msg)⟩
    | .more => d.decode data = ⟨d, data, .ok none⟩
    | .fail f => (d.decode data).result = .error f := by
  have hspec := decode_spec d data
  unfold verdict
  generalize d.decode data = r at hspec ⊢
  cases hspec <;> rfl

theorem decode_of_item (h : d.verdict data = .item d' msg rest) :
    d.decode data = ⟨d', rest, .ok (some msg)⟩ := by
  simpa [h] using decode_of_verdict d data

theorem decode_of_more (h : d.verdict data = .more) : d.decode data = ⟨d, data, .ok none⟩ := by
  simpa [h] using decode_of_verdict d data

theorem decode_of_fail {f} (h : d.verdict data = .fail f) : (d.decode data).result = .error f := by
  simpa [h] using decode_of_verdict d data

/-- A message is taken exactly when a whole frame is there and parses. -/
theorem verdict_eq_item : d.verdict data = .item d' msg rest ↔
    ∃ f dict, Found d.delimiter d.maxFrameLen data (some f) ∧ f.len ≤ data.length ∧
      d.dictFor f.beginString = some dict ∧ d.parseFrame dict (data.take f.len) = .ok msg ∧
      d' = { d with dict := some dict } ∧ rest = data.drop f.len := by
  constructor
  · intro h
    have hspec := decode_spec d data
    unfold verdict at h
    generalize d.decode data = r at h hspec
    cases hspec with
    | malformed | pending | unknown | refused => cases h
    | parsed hfound hle hdict hparse =>
      cases h
      exact ⟨_, _, hfound, hle, hdict, hparse, rfl, rfl⟩
  · rintro ⟨f, dict, hfound, hle, hdict, hparse, rfl, rfl⟩
    simp only [verdict, decode, frame_eq_ok.mpr hfound, if_neg (Nat.not_lt.mpr hle), hdict, hparse]
    rfl

/-- More bytes are needed exactly when no whole frame is there. -/
theorem verdict_eq_more : d.verdict data = .more ↔
    ∃ found, Found d.delimiter d.maxFrameLen data found ∧
      ∀ f, found = some f → data.length < f.len := by
  constructor
  · intro h
    have hspec := decode_spec d data
    unfold verdict at h
    generalize d.decode data = r at h hspec
    cases hspec with
    | pending hfound hlt => exact ⟨_, hfound, hlt⟩
    | malformed | unknown | refused | parsed => cases h
  · rintro ⟨found, hfound, hlt⟩
    cases found with
    | none => simp only [verdict, decode, frame_eq_ok.mpr hfound]
    | some f => simp only [verdict, decode, frame_eq_ok.mpr hfound, if_pos (hlt f rfl)]

/-- **A verdict on the bytes there are stands when more arrive.** -/
theorem verdict_incremental : Incremental verdict where
  item := by
    intro d xs d' msg rest h ys
    obtain ⟨f, dict, hfound, hle, hdict, hparse, rfl, rfl⟩ := verdict_eq_item.mp h
    refine verdict_eq_item.mpr ⟨f, dict, hfound.append_some ys, ?_, hdict, ?_, rfl, ?_⟩
    · rw [List.length_append]
      omega
    · rw [List.take_append_of_le_length hle, hparse]
    · rw [List.drop_append_of_le_length hle]
  fail := by
    intro d xs e h ys
    have more : ∀ found, Found d.delimiter d.maxFrameLen xs found →
        ∃ f, found = some f ∧ f.len ≤ xs.length := by
      intro found hfound
      by_contra hnot
      push Not at hnot
      have hmore : d.verdict xs = .more := verdict_eq_more.mpr ⟨found, hfound, hnot⟩
      rw [h] at hmore
      cases hmore
    cases hv : d.verdict (xs ++ ys) with
    | fail e' => exact ⟨e', rfl⟩
    | more =>
      obtain ⟨found, hfound, hlt⟩ := verdict_eq_more.mp hv
      obtain ⟨r, hr⟩ := hfound.of_append
      obtain ⟨f, rfl, hle⟩ := more r hr
      have := hlt f ((hr.append_some ys).unique hfound).symm
      rw [List.length_append] at this
      omega
    | item d' msg rest =>
      obtain ⟨f, dict, hfound, -, hdict, hparse, -, -⟩ := verdict_eq_item.mp hv
      obtain ⟨r, hr⟩ := hfound.of_append
      obtain ⟨f', rfl, hle⟩ := more r hr
      cases (hr.append_some ys).unique hfound
      rw [List.take_append_of_le_length hle] at hparse
      have hitem := verdict_eq_item.mpr ⟨_, dict, hr, hle, hdict, hparse, rfl, rfl⟩
      rw [h] at hitem
      cases hitem
  shrinks := by
    intro d xs d' msg rest h
    obtain ⟨f, dict, hfound, hle, -, -, -, rfl⟩ := verdict_eq_item.mp h
    have := hfound.len_pos
    rw [List.length_drop]
    omega

theorem length_le_of_more (h : d.verdict data = .more) : data.length ≤ d.maxFrameLen := by
  obtain ⟨found, hfound, hlt⟩ := verdict_eq_more.mp h
  cases found with
  | none => exact hfound.length_le
  | some f => exact (hlt f rfl).le.trans hfound.len_le

end

end FixDecoder

end Babelfix.Driver
