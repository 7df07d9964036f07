import Babelfix.Tape.Lossless

/-! # What the framing detects

A message says how long it is and what its bytes add up to. So no byte of it can be changed
without being noticed, and a stream of messages can be cut into messages in one way only. -/
namespace Babelfix.Tape

/-- The CheckSum of what comes before it. -/
def closing (bytes : Bytes) : Bytes := writeUint 10 ++ 61 :: (sumText (checksumOf bytes) ++ [soh])

variable {d : Dictionary} {w u v : Bytes}

/-- What is accepted stands between an opening that counts it and the CheckSum of both. -/
theorem exists_framed (h : (Message.parse d w).isOk = true) : ∃ value body,
    parseUint value = .ok body.length ∧
      w = opening d value soh ++ body ++ closing (opening d value soh ++ body) := by
  cases hparse : Message.parse d w with
  | error e =>
    rw [hparse] at h
    cases h
  | ok m =>
    obtain ⟨e, -, -, rfl, hsound, -⟩ := parse_iff.mp hparse
    obtain ⟨h8, h9, -⟩ := ascii_framing
    have hhead : texts e.head = opening d e.length.value soh ++ e.body := by
      simp [Envelope.head, Envelope.body, opening, h8, h9, Token.text, hsound.begins_tag, hsound.length_tag,
        hsound.begins_value]
    refine ⟨e.length.value, e.body, hsound.length_value, ?_⟩
    rw [← hhead, Envelope.tokens, texts_append, closing, ← sumText_of_readChecksum hsound.sum_value]
    simp [Token.text, hsound.sum_tag]

/-! ## A changed byte -/

theorem closing_length (bytes : Bytes) : (closing bytes).length = 7 :=
  Token.length_text_sum (t := ⟨.field, 10, _⟩) rfl rfl

theorem checksumOf_of_closing (h : closing u = closing v) : checksumOf u = checksumOf v := by
  have hsum : sumText (checksumOf u) = sumText (checksumOf v) := by
    simpa [closing] using h
  have hread := readChecksum_sumText (checksumOf_lt u)
  rw [hsum, readChecksum_sumText (checksumOf_lt v)] at hread
  exact (Except.ok.inj hread).symm

theorem eq_of_checksumOf {pre post : Bytes} {a b : UInt8}
    (h : checksumOf (pre ++ a :: post) = checksumOf (pre ++ b :: post)) : a = b := by
  simp only [checksumOf, List.map_append, List.map_cons, List.sum_append, List.sum_cons] at h
  have ha := a.toNat_lt
  have hb := b.toNat_lt
  exact UInt8.toNat_inj.mp (by omega)

theorem split_of_lt {pre post c : Bytes} {a : UInt8} (h : pre ++ a :: post = u ++ c)
    (hlt : pre.length < u.length) : ∃ q, u = pre ++ a :: q ∧ post = q ++ c := by
  rcases List.append_eq_append_iff.mp h with ⟨q, rfl, hq⟩ | ⟨q, rfl, -⟩
  · cases q with
    | nil => simp at hlt
    | cons x q =>
      obtain ⟨rfl, rfl⟩ := List.cons.inj hq
      exact ⟨q, rfl, rfl⟩
  · simp at hlt

/-- **No single byte can be changed.** Whichever byte of a message is replaced by another, the
message is refused, even with another dictionary. -/
theorem changed_byte_refused (d d' : Dictionary) (pre post : Bytes) {a b : UInt8} (hne : a ≠ b)
    (h : (Message.parse d (pre ++ a :: post)).isOk = true) :
    (Message.parse d' (pre ++ b :: post)).isOk = false := by
  by_contra h'
  rw [Bool.not_eq_false] at h'
  obtain ⟨value, body, -, hw⟩ := exists_framed h
  obtain ⟨value', body', -, hw'⟩ := exists_framed h'
  generalize opening d value soh ++ body = u at hw
  generalize opening d' value' soh ++ body' = u' at hw'
  have hlen : u.length = u'.length := by
    have hl := congrArg List.length hw
    have hl' := congrArg List.length hw'
    simp only [List.length_append, List.length_cons, closing_length] at hl hl'
    omega
  rcases Nat.lt_or_ge pre.length u.length with hlt | hge
  · -- before CheckSum: the sums are the same, so the byte is
    obtain ⟨q, rfl, hq⟩ := split_of_lt hw hlt
    obtain ⟨q', rfl, hq'⟩ := split_of_lt hw' (hlen ▸ hlt)
    have hsame : q.length = q'.length := by simpa using hlen
    obtain ⟨rfl, hsum⟩ := List.append_inj (hq.symm.trans hq') hsame
    exact hne (eq_of_checksumOf (checksumOf_of_closing hsum))
  · -- in CheckSum: what it is the sum of is the same, so it is
    have hu := congrArg (List.take u.length) hw
    rw [List.take_append_of_le_length hge, List.take_left] at hu
    have hu' := congrArg (List.take u'.length) hw'
    rw [List.take_append_of_le_length (hlen ▸ hge), List.take_left, ← hlen, hu] at hu'
    rw [← hu', ← hw] at hw'
    exact hne (by simpa using hw'.symm)

/-- The second party's name is changed. -/
theorem changed_byte_refused_partyOrder : (Message.parse orders
    (wireOf "8=FIX.4.4|9=29|35=D|453=2|448=A|447=D|448=" ++ 67 :: wireOf "|10=089|")).isOk = false :=
  changed_byte_refused orders orders _ _ (a := 66) (by decide) (by decide +kernel)

/-! ## Streams -/

/-- A message ends where its opening says, whatever follows it. -/
theorem eq_of_append_eq (hu : (Message.parse d u).isOk = true) (hv : (Message.parse d v).isOk = true)
    {x y : Bytes} (h : u ++ x = v ++ y) : u = v := by
  obtain ⟨value, body, hcount, rfl⟩ := exists_framed hu
  obtain ⟨value', body', hcount', rfl⟩ := exists_framed hv
  -- a number has no SOH in it, so neither BodyLength goes on after the other
  have hstop {x x' y y' : Bytes} {n} (h : x ++ soh :: y = x' ++ soh :: y')
      (hx' : parseUint x' = .ok n) : x'.length ≤ x.length := by
    by_contra hlt
    obtain ⟨q, rfl, -⟩ := split_of_lt h (Nat.lt_of_not_le hlt)
    exact absurd ((parseUint_ok hx').2.1 soh (by simp)) (by decide)
  simp only [opening, List.append_assoc, List.cons_append, List.nil_append, List.append_cancel_left_eq,
    List.cons.injEq, true_and] at h
  obtain ⟨rfl, hrest⟩ := List.append_inj h (Nat.le_antisymm (hstop h.symm hcount) (hstop h hcount'))
  have hlen : body.length = body'.length := Except.ok.inj (hcount.symm.trans hcount')
  rw [(List.append_inj (List.cons.inj hrest).2 hlen).1]

/-- **A stream is cut into messages in one way only.** Two series of messages with the same bytes
are the same, so what a peer sent is read as what it sent or refused. -/
theorem stream_cut_unique (d : Dictionary) (us vs : List Bytes)
    (hus : ∀ u ∈ us, (Message.parse d u).isOk = true)
    (hvs : ∀ v ∈ vs, (Message.parse d v).isOk = true) (h : us.flatten = vs.flatten) : us = vs := by
  have hne {w : Bytes} (hw : (Message.parse d w).isOk = true) : w ≠ [] := by
    obtain ⟨value, body, -, rfl⟩ := exists_framed hw
    simp [opening]
  induction us generalizing vs with
  | nil =>
    cases vs with
    | nil => rfl
    | cons v vs => simp [hne (hvs v List.mem_cons_self)] at h
  | cons u us ih =>
    cases vs with
    | nil => simp [hne (hus u List.mem_cons_self)] at h
    | cons v vs =>
      rw [List.flatten_cons, List.flatten_cons] at h
      obtain rfl := eq_of_append_eq (hus u List.mem_cons_self) (hvs v List.mem_cons_self) h
      rw [List.append_cancel_left_eq] at h
      rw [ih vs (fun w hw => hus w (List.mem_cons_of_mem _ hw))
        (fun w hw => hvs w (List.mem_cons_of_mem _ hw)) h]

/-- Two messages are not one. -/
theorem stream_cut_unique_partyOrder :
    (Message.parse orders (partyOrder ++ partyOrder)).isOk = false := by
  by_contra h
  rw [Bool.not_eq_false] at h
  have hok : (Message.parse orders partyOrder).isOk = true := by decide +kernel
  have hcut := stream_cut_unique orders [partyOrder, partyOrder] [partyOrder ++ partyOrder]
    (by simpa using hok) (by simpa using h) (by simp)
  simp at hcut

end Babelfix.Tape
