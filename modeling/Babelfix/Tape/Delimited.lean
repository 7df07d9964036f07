import Babelfix.Tape.Envelope

/-! # Other delimiters

A message written with another delimiter in place of SOH, which no value but those of
data fields contains, is read as the message: the delimiters are replaced once all fields
have been found. -/
namespace Babelfix.Tape

theorem replace_stops (delim : UInt8) (pre : Bytes) (ts : List Token) :
    (stops pre.length ts).foldl (fun b i => b.set i soh) (pre ++ textsWith delim ts) =
      pre ++ texts ts := by
  induction ts generalizing pre with
  | nil => rfl
  | cons t ts ih =>
    have hset : (pre ++ textsWith delim (t :: ts)).set (pre.length + t.valOff + t.value.length) soh =
        (pre ++ t.text) ++ textsWith delim ts := by
      have hlen : pre.length + t.valOff + t.value.length =
          (pre ++ writeUint t.tag ++ [61] ++ t.value).length := by
        simp [Token.valOff]
        omega
      have hsplit : pre ++ textsWith delim (t :: ts) =
          (pre ++ writeUint t.tag ++ [61] ++ t.value) ++ (delim :: textsWith delim ts) := by
        simp [Token.textWith]
      rw [hsplit, hlen, List.set_append_right _ _ (Nat.le_refl _), Nat.sub_self, List.set_cons_zero]
      simp [Token.text]
    rw [stops, List.foldl_cons, hset, ← List.length_append, ih, texts_cons, List.append_assoc]

/-- **What is accepted with any delimiter is the message whose delimiters were replaced.** -/
theorem parseDelimited_iff {d bytes delim m} : Message.parseDelimited d bytes delim = .ok m ↔
      ∃ (e : Envelope) (msgDef : Option MsgIdx) (s : Sections), bytes = textsWith delim e.tokens ∧
        e.Sound d ∧ LexesBy delim d none e.tokens none ∧ Builds d e.tokens msgDef s ∧
        s.close.Typed msgDef ∧ m = s.close.message d msgDef (texts e.tokens) := by
  have hstart : ({ Parser.new d .strict with terminators := some [] } : Parser) =
      ((Track.new d).parser Framed.new).marking (some []) := rfl
  -- what is made of a run that ends well
  have hreplaced (e : Envelope) (msgDef : Option MsgIdx) (s : Sections) :
      (if delim = soh then { s.close.message d msgDef (textsWith delim e.tokens) with
          clean := delim = soh }
        else { s.close.message d msgDef (textsWith delim e.tokens) with
          wire := (stops 0 e.tokens).foldl (fun b i => b.set i soh) (textsWith delim e.tokens)
          clean := true }) = s.close.message d msgDef (texts e.tokens) := by
    have hwire := replace_stops delim [] e.tokens
    simp only [List.nil_append, List.length_nil] at hwire
    by_cases hsoh : delim = soh
    · subst hsoh
      rfl
    · rw [if_neg hsoh, hwire]
      rfl
  unfold Message.parseDelimited Message.parseCopy
  simp only [reduceCtorEq, false_and, if_false, hstart]
  constructor
  · intro h
    obtain ⟨r, hrun, h⟩ := bind_eq_ok h
    obtain ⟨e, msgDef, s, rfl, hsound, hlexes, hbuilds, htyped, rfl⟩ := run_iff.mp hrun
    cases h
    exact ⟨e, msgDef, s, rfl, hsound, hlexes, hbuilds, htyped, hreplaced e msgDef s⟩
  · intro h
    obtain ⟨e, msgDef, s, rfl, hsound, hlexes, hbuilds, htyped, rfl⟩ := h
    rw [run_iff.mpr ⟨e, msgDef, s, rfl, hsound, hlexes, hbuilds, htyped, rfl⟩]
    exact congrArg Except.ok (hreplaced e msgDef s)

/-- **A message is read with any delimiter as it is read with SOH.** -/
theorem parseDelimited_textsWith {d} {e : Envelope} {msgDef s delim} (hsound : e.Sound d)
    (hlexes : LexesBy soh d none e.tokens none) (hbuilds : Builds d e.tokens msgDef s)
    (htyped : s.close.Typed msgDef) (hdelim : ∀ t ∈ e.tokens, t.kind ≠ .data → delim ∉ t.value) :
    Message.parseDelimited d (textsWith delim e.tokens) delim =
      .ok (s.close.message d msgDef (texts e.tokens)) :=
  parseDelimited_iff.mpr ⟨e, msgDef, s, rfl, hsound, hlexes.redelimit hdelim, hbuilds,
    htyped, rfl⟩

end Babelfix.Tape
