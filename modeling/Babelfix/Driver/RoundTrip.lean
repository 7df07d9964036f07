import Babelfix.Driver.Codec
import Babelfix.Tape.Redelimited

/-! # A stream of messages

Messages written one after the other are taken off the stream one after the other: where
a frame ends is where its message was written to, whatever its values are, and what is
there of a message that is not complete stays in the buffer. -/
namespace Babelfix.Driver

open Lib Tape

/-! ## The frame of a message -/

theorem parseUsize_of_parseUint {raw n} (h : parseUint raw = .ok n) : parseUsize raw = some n := by
  have hplain : parseUsize raw = (parseUint raw).toOption := by
    obtain ⟨-, hdigits, -⟩ := parseUint_ok h
    unfold parseUsize
    split
    · exact absurd (hdigits 43 List.mem_cons_self).1 (by decide)
    · rfl
  rw [hplain, h]
  rfl

theorem found_textsWith {d} {e : Envelope} (h : e.Sound d) {delimiter}
    (hdigit : ¬ IsDigit delimiter) (heq : delimiter ≠ 61) (hbegin : delimiter ∉ d.beginString) {max}
    (hmax : (textsWith delimiter e.tokens).length ≤ max) (hu64 : max ≤ u64Max) :
    Found delimiter max (textsWith delimiter e.tokens)
      (some ⟨d.beginString, (textsWith delimiter e.tokens).length⟩) := by
  obtain ⟨h8, h9, -⟩ := ascii_framing
  have hhead {n : Nat} {value : Bytes} (hvalue : delimiter ∉ value) :
      delimiter ∉ writeUint n ++ [61] ++ value := by
    simp only [List.mem_append, List.mem_singleton, not_or]
    exact ⟨⟨not_mem_of_isDigit (fun c hc => isDigit_of_mem_writeUint hc) hdigit, heq⟩, hvalue⟩
  have hvalue : delimiter ∉ e.length.value :=
    not_mem_of_isDigit (parseUint_ok h.length_value).2.1 hdigit
  have hinitial (p value : Bytes) : (p ++ value).dropPrefix? p = some value :=
    List.dropPrefix?_eq_some_iff.mpr ⟨p, rfl, by simp⟩
  set rest := textsWith delimiter (e.msgType :: (e.content ++ [e.sum])) with hrest
  have hlength : textsWith delimiter (e.length :: e.msgType :: (e.content ++ [e.sum])) =
      (ascii "9=" ++ e.length.value) ++ delimiter :: rest := by
    rw [textsWith_cons, ← hrest, Token.textWith, h.length_tag, h9]
    simp
  have hdata : textsWith delimiter e.tokens = (ascii "8=" ++ d.beginString) ++ delimiter ::
      ((ascii "9=" ++ e.length.value) ++ delimiter :: rest) := by
    rw [← hlength, show e.tokens = e.begins :: e.length :: e.msgType :: (e.content ++ [e.sum]) from rfl,
      textsWith_cons, Token.textWith, h.begins_tag, h.begins_value, h8]
    simp
  have hsum : e.sum.text.length = checksumFieldLen :=
    Token.length_text_sum h.sum_tag (sumText_of_readChecksum h.sum_value)
  have hlen : rest.length = e.body.length + checksumFieldLen := by
    rw [hrest, length_textsWith, texts_cons, texts_append, ← hsum]
    simp [Envelope.body, Nat.add_assoc]
  have htotal : (textsWith delimiter e.tokens).length =
      (ascii "8=" ++ d.beginString).length + 1 + (ascii "9=" ++ e.length.value).length + 1 +
        e.body.length + checksumFieldLen := by
    rw [hdata]
    simp only [List.length_append, List.length_cons, hlen]
    omega
  have hdrop : ((ascii "8=" ++ d.beginString) ++ delimiter ::
      ((ascii "9=" ++ e.length.value) ++ delimiter :: rest)).drop
        ((ascii "8=" ++ d.beginString).length + 1) =
          (ascii "9=" ++ e.length.value) ++ delimiter :: rest := by
    rw [List.drop_append]
    simp
  rw [htotal] at hmax ⊢
  rw [hdata]
  refine .headed (findIdx_iff.mpr ⟨_, _, rfl, by rw [h8]; exact hhead hbegin, rfl⟩) ?_
    (by rw [hdrop]; exact findIdx_iff.mpr ⟨_, _, rfl, by rw [h9]; exact hhead hvalue, rfl⟩) ?_
    (parseUsize_of_parseUint h.length_value) ⟨by omega, hmax⟩
  · rw [List.take_left]
    exact hinitial _ _
  · rw [hdrop, List.take_left]
    exact hinitial _ _

/-! ## One message -/

/-- A message that can be sent with an encoder and read back. With SOH it is enough that
its bytes are read as the message. With another delimiter the message is always written
from its tape, and it is what is written from it that must be read as the message. The
tape is one that a message has: laid out, with the fields that frame it in no group. -/
structure RoundTrips (enc : FixEncoder) (max : Nat) (dict : Dictionary) (m : Tape.Message) : Prop where
  dict_eq : m.dict = dict
  length_le : (enc.encode m []).length ≤ max
  same : ∃ m', Tape.Message.parse dict (if enc.delimiter = soh then m.encode [] else m.encodeDelimited [] soh) =
    .ok m' ∧ m'.eq m
  laid : enc.delimiter ≠ soh → ∃ header gap body trailer, m.Lays m.Spells header gap body trailer
  framing : enc.delimiter ≠ soh →
    ∀ e ∈ m.tape, e.isTagged → e.tag ∈ framingTags → e.kind ≠ .group ∧ e.depth = 0
  delimiter_notMem : enc.delimiter ≠ soh →
    ∀ e ∈ m.tape, e.isField → e.kind ≠ .data → enc.delimiter ∉ m.value e

namespace FixEncoder

end FixEncoder

section

variable {enc : FixEncoder} {dec : FixDecoder} {dict : Dictionary} {m : Tape.Message}

/-- What is sent is the text of a message, and that is read as the message. -/
theorem RoundTrips.sent (h : RoundTrips enc dec.maxFrameLen dict m)
    (hdelimiter : dec.delimiter = enc.delimiter) (hdigit : ¬ IsDigit enc.delimiter)
    (hbegin : enc.delimiter ∉ dict.beginString) :
    ∃ (e : Envelope) (m' : Tape.Message), e.Sound dict ∧
      enc.encode m [] = textsWith enc.delimiter e.tokens ∧
      dec.parseFrame dict (textsWith enc.delimiter e.tokens) = .ok m' ∧ m'.eq m := by
  obtain ⟨m', hparse, heq⟩ := h.same
  by_cases hsoh : enc.delimiter = soh
  · rw [if_pos hsoh] at hparse
    obtain ⟨e, msgDef, s, htext, hsound, -⟩ := parse_iff.mp hparse
    have hencode : enc.encode m [] = textsWith enc.delimiter e.tokens := by
      rw [FixEncoder.encode, if_pos hsoh, htext, hsoh, textsWith_soh]
    refine ⟨e, m', hsound, hencode, ?_, heq⟩
    rw [FixDecoder.parseFrame, hdelimiter, if_pos hsoh, hsoh, textsWith_soh, ← htext, hparse]
    rfl
  · rw [if_neg hsoh, ← h.dict_eq] at hparse
    obtain ⟨header, gap, body, trailer, hlays⟩ := h.laid hsoh
    have hcompared : m'.compared = m.compared := by
      simp only [Tape.Message.eq, Bool.decide_and, Bool.and_eq_true, decide_eq_true_eq] at heq
      exact heq.2
    obtain ⟨e, hsound, hencode, hread⟩ := parseDelimited_encodeDelimited hlays (h.framing hsoh)
      hparse hcompared hdigit (by rw [h.dict_eq]; exact hbegin) (h.delimiter_notMem hsoh)
    rw [h.dict_eq] at hsound hread
    refine ⟨e, m', hsound, ?_, ?_, heq⟩
    · rw [FixEncoder.encode, if_neg hsoh, hencode, List.nil_append]
    · rw [FixDecoder.parseFrame, hdelimiter, if_neg hsoh, hread]
      rfl

theorem RoundTrips.verdict (h : RoundTrips enc dec.maxFrameLen dict m)
    (hdelimiter : dec.delimiter = enc.delimiter) (hdigit : ¬ IsDigit enc.delimiter)
    (hne : enc.delimiter ≠ 61) (hbegin : enc.delimiter ∉ dict.beginString)
    (hdict : dec.dictFor dict.beginString = some dict) (hmax : dec.maxFrameLen ≤ u64Max) :
    ∃ m', m'.eq m ∧
      dec.verdict (enc.encode m []) = .item { dec with dict := some dict } m' [] := by
  obtain ⟨e, m', hsound, hencode, hparse, heq⟩ := h.sent hdelimiter hdigit hbegin
  have hlength := h.length_le
  rw [hencode] at hlength
  have hfound := found_textsWith hsound hdigit hne hbegin hlength hmax
  rw [← hdelimiter] at hfound hparse hencode
  refine ⟨m', heq, FixDecoder.verdict_eq_item.mpr ⟨_, dict, hencode ▸ hfound, ?_, hdict, ?_, rfl, ?_⟩⟩
  · rw [hencode]
  · rw [hencode, List.take_length]
    exact hparse
  · rw [hencode, List.drop_length]

end

/-! ## The stream -/

section

variable {enc : FixEncoder} {dec : FixDecoder} {dict : Dictionary}

end

/-! ### With bars -/

/-- An order with two parties, as it was received. -/
def parties : Tape.Message :=
  Sections.message orders (some 0) partyOrder <|
    .trailer (leaves [(8, "FIX.4.4"), (9, "29"), (35, "D")])
      (groupOf 453 [[(448, "A"), (447, "D")], [(448, "B")]]) (leaves [(10, "089")])

end Babelfix.Driver
