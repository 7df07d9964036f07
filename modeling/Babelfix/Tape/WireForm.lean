import Babelfix.Tape.Redelimited
import Babelfix.Tape.Safety

/-! # What becomes of delimited text

A message that was read with another delimiter keeps its bytes with each field's end
replaced by SOH, and these are what is sent. They are read as the same message if no
field but one that was read as data contains SOH, and only then: nothing stops such a
field from being accepted where another byte ends it. -/
namespace Babelfix.Tape

open Lib

/-- Only data contains SOH. -/
def SohFree (ts : List Token) : Prop := ∀ t ∈ ts, t.kind ≠ .data → soh ∉ t.value

/-! ## Reading it again -/

/-- **If the bytes are read as the message again, only data contains SOH.** What is not
data is seen in both messages, unless it frames them or counts instances. -/
theorem sohFree_of_reread {d m m'} {e : Envelope} {msgDef s} (hlt : (texts e.tokens).length < 2 ^ 32)
    (hsound : e.Sound d) (hfields : ∀ t ∈ e.tokens, t.IsField) (hbuilds : Builds d e.tokens msgDef s)
    (hm : m = s.close.message d msgDef (texts e.tokens))
    (hparse : Message.parse d (texts e.tokens) = .ok m') (heq : m'.compared = m.compared) :
    SohFree e.tokens := by
  have hshows {m : Message} (hwire : m.wire = texts e.tokens) : m.Shows Eq := by
    intro depth pre post t hspan
    exact (fieldEntry_bytes depth hspan (hwire ▸ hlt.le)).2
  obtain ⟨e', msgDef', s', htexts, -, hlexes', hbuilds', -, hm'⟩ := parse_iff.mp hparse
  have hwire' : m'.wire = texts e.tokens := by rw [hm']; rfl
  rw [htexts] at hm'
  obtain ⟨hshown, hcompared⟩ := shown_message hfields hbuilds hm (hshows (by rw [hm]; rfl))
  obtain ⟨hshown', hcompared'⟩ := shown_message hlexes'.isField hbuilds' hm' (hshows hwire')
  rw [← heq, hcompared'] at hcompared
  intro t ht hkind
  obtain ⟨x, hx, hseen⟩ := hshown.flip.exists_of_mem ht
  cases hseen with
  | group _ hn => exact not_mem_of_isDigit (parseUint_ok hn).2.1 (by decide)
  | field t hvalue =>
    by_cases hframing : t.tag = 9 ∨ t.tag = 10
    · exact not_mem_of_isDigit (hsound.isDigit_of_derived ht hframing) (by decide)
    · rw [not_or] at hframing
      have hmem := List.mem_filter.mpr ⟨hx, show Message.Compared _ from by
        simp [Message.Compared, hframing]⟩
      rw [← hcompared, List.mem_filter] at hmem
      obtain ⟨u, hu, hukind, -, huvalue⟩ := exists_of_value hshown' hmem.1 rfl
      rw [← hvalue, huvalue]
      exact hlexes'.delim_notMem u hu (by rw [hukind]; exact hkind)

/-- **The bytes that are kept of a delimited text are read as the message if only data
contains SOH**, and for a text below 4 GiB only then. -/
theorem wire_of_delimited {d : Dictionary} {bytes : Bytes} {delim : UInt8} {m : Message}
    (h : Message.parseDelimited d bytes delim = .ok m) :
    ∃ ts, bytes = textsWith delim ts ∧ LexesBy delim d none ts none ∧
      m.wireForm = some (texts ts) ∧ (SohFree ts → Message.parse d (texts ts) = .ok m) ∧
      (bytes.length < 2 ^ 32 →
        (∃ m', Message.parse d (texts ts) = .ok m' ∧ m'.eq m) → SohFree ts) := by
  obtain ⟨e, msgDef, s, hbytes, hsound, hlexes, hbuilds, htyped, hmessage⟩ := parseDelimited_iff.mp h
  refine ⟨e.tokens, hbytes, hlexes, ?_, ?_, ?_⟩
  · have hne : texts e.tokens ≠ [] := by
      simp [Envelope.tokens, Envelope.head, Token.text]
    rw [hmessage, Message.wireForm, if_pos ⟨rfl, hne⟩]
    rfl
  · intro hfree
    have hsoh : LexesBy soh d none e.tokens none := hlexes.redelimit hfree
    exact parse_iff.mpr ⟨e, msgDef, s, rfl, hsound, hsoh, hbuilds, htyped, hmessage⟩
  · intro hlt hreread
    obtain ⟨m', hparse, heq⟩ := hreread
    simp only [Message.eq, decide_eq_true_eq] at heq
    rw [hbytes, length_textsWith] at hlt
    exact sohFree_of_reread hlt hsound hlexes.isField hbuilds hmessage hparse heq.2

theorem sohFree_of_notMem {delim ts} (h : soh ∉ textsWith delim ts) : SohFree ts := by
  intro t ht _ hmem
  refine h (List.mem_flatMap.mpr ⟨t, ht, ?_⟩)
  simp [Token.textWith, hmem]

/-- The line of news is kept as it is sent, though its encoded text contains the
delimiter. -/
theorem wire_of_encodedNews : ∃ m w,
    Message.parseDelimited (news (ascii "FIX.4.4")) encodedNews 124 = .ok m ∧
      m.wireForm = some w ∧ Message.parse (news (ascii "FIX.4.4")) w = .ok m := by
  obtain ⟨m, hparse⟩ := parse_encodedNews
  obtain ⟨ts, hbytes, -, hwire, hreads, -⟩ := wire_of_delimited hparse
  have hsoh : soh ∉ encodedNews := by decide +kernel
  rw [hbytes] at hsoh
  exact ⟨m, texts ts, hparse, hwire, hreads (sohFree_of_notMem hsoh)⟩

/-! ### A field within a field -/

/-- An order whose text (58) contains SOH. -/
def smuggling : Bytes := ascii "8=FIX.4.4|9=17|35=D|58=buy\x0154=2|10=190|"

def smugglingSections : Sections :=
  .trailer (leaves [(8, "FIX.4.4"), (9, "17"), (35, "D")]) (leaves [(58, "buy\x0154=2")])
    (leaves [(10, "190")])

/-- What is sent for it: the rest of the text is a field of its own. -/
def smuggledSections : Sections :=
  .trailer (leaves [(8, "FIX.4.4"), (9, "17"), (35, "D")]) (leaves [(58, "buy"), (54, "2")])
    (leaves [(10, "190")])

/-- The text of an order becomes a field when it is sent. -/
theorem smuggled_field : ∃ d bytes delim m w m', d.Standard ∧ delim ≠ soh ∧ ¬ IsDigit delim ∧
    delim ≠ 61 ∧ Message.parseDelimited d bytes delim = .ok m ∧ m.wireForm = some w ∧
    Message.parse d w = .ok m' ∧ m'.eq m = false := by
  have hparse : Message.parseDelimited orders smuggling 124 =
      .ok (smugglingSections.message orders (some 0) smugglingSections.text) := by decide +kernel
  have hagain : Message.parse orders smugglingSections.text =
      .ok (smuggledSections.message orders (some 0) smugglingSections.text) := by decide +kernel
  refine ⟨orders, smuggling, 124, _, _, _, orders_standard, by decide, by decide, by decide, hparse,
    rfl, hagain, ?_⟩
  decide +kernel

end Babelfix.Tape
