import Babelfix.Tape.Safety

/-! # Data fields and their Lengths

The fields of a text one after the other, as the parser finds them. What a Length
announces comes right after it and is as long as it says. The converse, that data comes
only after its Length, is not checked. -/
namespace Babelfix.Tape

/-! ## Reading on keeps the dictionary -/

variable {p : Parser} {buf : Bytes}

namespace Parser

variable {p' : Parser} {entry : Entry} {value : Bytes}

theorem settle_dict (h : p.settle entry value = .ok p') : p'.msg.dict = p.msg.dict := by
  unfold settle at h
  split at h
  · obtain ⟨depth, -, h⟩ := bind_eq_ok h
    exact (place_grown h).dict
  · split at h
    · split at h
      · cases h
      · cases h
        exact (pushLateHeader_frame p entry).2.1
    · obtain ⟨q, henter, h⟩ := bind_eq_ok h
      exact ((enterRegion_grown henter).trans (place_grown h)).dict

theorem push_dict (h : p.push entry value = .ok p') : p'.msg.dict = p.msg.dict := by
  obtain ⟨q, hjoin, h⟩ := bind_eq_ok h
  rw [settle_dict h, (joinGroup_grown hjoin).dict]

theorem take_dict {pos x isLast} (h : p.take buf pos x = .ok (p', isLast)) :
    p'.msg.dict = p.msg.dict := by
  obtain ⟨⟨q, last⟩, hrules, h⟩ := bind_eq_ok h
  obtain ⟨r, hpush, h⟩ := bind_eq_ok h
  cases h
  rw [show (Parser.msg _).dict = r.msg.dict from rfl, push_dict hpush, (framingRules_ruled hrules).same]

end Parser

/-! ## The fields of a text -/

variable {d : Dictionary} {delim : UInt8} {pending pending' : Option (Nat × Nat)}

theorem Parser.Runs.fields {s last} (h : Runs buf delim ⟨p, 0, none⟩ s last) :
    s.parser.msg.dict = p.msg.dict ∧ ∃ ts rest, buf = textsWith delim ts ++ rest ∧
      s.pos = (textsWith delim ts).length ∧ LexesBy delim p.msg.dict none ts s.pending := by
  induction h with
  | start => exact ⟨rfl, [], buf, rfl, rfl, rfl⟩
  | @next s x q isLast _ _ hlex htake ih =>
    obtain ⟨hdict, ts, rest, hbuf, hpos, hlexes⟩ := ih
    refine ⟨(take_dict htake).trans hdict, ?_⟩
    rw [hdict, hbuf, hpos] at hlex
    obtain ⟨t, rest', pending', rfl, hvalid, hfollows, rfl⟩ := lexField_found hlex
    refine ⟨ts ++ [t], rest', by simp [hbuf], ?_, ?_⟩
    · simp [Token.found]
      omega
    · exact LexesBy.append_iff.mpr ⟨s.pending, hlexes, hvalid, pending', hfollows, rfl⟩

end Babelfix.Tape
