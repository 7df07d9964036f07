import Babelfix.Driver.Model

/-! # Reads of any size

What a session driver does with a stream of bytes does not depend on how the stream was
cut into reads. -/
namespace Babelfix.Driver
open Lib
open Session (Fault Instant Progress SessionState)

/-- A session that goes on. -/
def live (p : Progress) : Bool := p = .continue

/-- How reading may end. -/
abbrev ReadHalt := Halt FixDecoder UInt8 SessionState Stop Progress

/-- What the driver is left with, and what its call returns. -/
inductive Ends : ReadHalt → SessionDriver → Except Stop Progress → Prop
  | waiting {dec : FixDecoder} {rest : Bytes} {s : SessionState} :
    Ends (.waiting dec rest s) ⟨s, ⟨dec, rest⟩⟩ (.ok .continue)
  | failed {s : SessionState} {p : Plumbing} {f : Fault} :
    Ends (.failed s) ⟨s, p⟩ (.error (.decode f))
  | stopped {s : SessionState} {p : Plumbing} {r : Except Stop Progress} (h : ¬ GoesOn live r) :
    Ends (.stopped s r) ⟨s, p⟩ r

section

variable {now : Instant} {dec dec' : FixDecoder} {xs rest : Bytes} {s : SessionState}
  {msg : Tape.Message} {o : List Action} {z : ReadHalt}

/-! ## Taking a message off the input -/

theorem next_of_item (h : dec.verdict xs = .item dec' msg rest) :
    (SessionDriver.onPlumbing Plumbing.next).run ⟨s, ⟨dec, xs⟩⟩ =
      ⟨⟨s, ⟨dec', rest⟩⟩, [], .ok (some msg)⟩ := by
  simp [SessionDriver.onPlumbing, Plumbing.next, FixDecoder.decode_of_item h, Except.mapError]

theorem next_of_more (h : dec.verdict xs = .more) :
    (SessionDriver.onPlumbing Plumbing.next).run ⟨s, ⟨dec, xs⟩⟩ =
      ⟨⟨s, ⟨dec, xs⟩⟩, [], .ok none⟩ := by
  simp [SessionDriver.onPlumbing, Plumbing.next, FixDecoder.decode_of_more h, Except.mapError]

theorem next_of_fail {f} (h : dec.verdict xs = .fail f) (s : SessionState) :
    ∃ p, (SessionDriver.onPlumbing Plumbing.next).run ⟨s, ⟨dec, xs⟩⟩ =
      ⟨⟨s, p⟩, [], .error (.decode f)⟩ := by
  simp [SessionDriver.onPlumbing, Plumbing.next, FixDecoder.decode_of_fail h, Except.mapError]

/-! ## The loop -/

variable {r : Except Stop Progress}

theorem goesOn_live : GoesOn live r ↔ r = .ok .continue := by
  constructor
  · rintro ⟨p, rfl, hp⟩
    exact congrArg _ (of_decide_eq_true hp)
  · intro h
    exact ⟨_, h, rfl⟩

theorem not_goesOn_live (h : ¬ GoesOn live r) :
    r = .ok .close ∨ ∃ e, r = .error e := by
  match r, h with
  | .error e, _ => exact .inr ⟨e, rfl⟩
  | .ok .close, _ => exact .inl rfl
  | .ok .continue, h => exact absurd (goesOn_live.mpr rfl) h

/-- The session driver once the session has been called. -/
def withSession (p : Plumbing) (r : Outcome SessionState Action Stop Progress) :
    Outcome SessionDriver Action Stop Progress :=
  ⟨⟨r.state, p⟩, r.out, r.result⟩

theorem readLoop_of_stop {fuel} (h : dec.verdict xs = .item dec' msg rest)
    (hstop : ¬ GoesOn live ((handle now msg).run s).result) :
    (SessionDriver.readLoop now (fuel + 1)).run ⟨s, ⟨dec, xs⟩⟩ =
      withSession ⟨dec', rest⟩ ((handle now msg).run s) := by
  rw [SessionDriver.readLoop, Call.run_bind, next_of_item h, Outcome.andThen_ok, Outcome.prepend_nil,
    Call.run_bind]
  simp only [SessionDriver.onSession, Call.run_within, withSession]
  rcases not_goesOn_live hstop with hr | ⟨e, hr⟩
  · rw [hr]
    simp
  · rw [hr]
    simp

theorem readLoop_of_go {fuel} (h : dec.verdict xs = .item dec' msg rest)
    (hgo : GoesOn live ((handle now msg).run s).result) :
    (SessionDriver.readLoop now (fuel + 1)).run ⟨s, ⟨dec, xs⟩⟩ =
      ((SessionDriver.readLoop now fuel).run ⟨((handle now msg).run s).state, ⟨dec', rest⟩⟩).prepend
        ((handle now msg).run s).out := by
  rw [SessionDriver.readLoop, Call.run_bind, next_of_item h, Outcome.andThen_ok, Outcome.prepend_nil,
    Call.run_bind]
  simp only [SessionDriver.onSession, Call.run_within]
  rw [goesOn_live.mp hgo]
  simp

theorem readLoop_ends (h : Drains FixDecoder.verdict live (handle now) dec xs s o z) (fuel : Nat)
    (hfuel : xs.length < fuel) :
    ∃ d r, (SessionDriver.readLoop now fuel).run ⟨s, ⟨dec, xs⟩⟩ = ⟨d, o, r⟩ ∧ Ends z d r := by
  induction h generalizing fuel with
  | waiting hv =>
    obtain ⟨fuel, rfl⟩ := Nat.exists_eq_succ_of_ne_zero (Nat.ne_of_gt (Nat.zero_lt_of_lt hfuel))
    refine ⟨_, _, ?_, .waiting⟩
    rw [SessionDriver.readLoop, Call.run_bind, next_of_more hv]
    rfl
  | @failed _ _ s e hv =>
    obtain ⟨fuel, rfl⟩ := Nat.exists_eq_succ_of_ne_zero (Nat.ne_of_gt (Nat.zero_lt_of_lt hfuel))
    obtain ⟨p, hp⟩ := next_of_fail hv s
    refine ⟨⟨s, p⟩, .error (.decode e), ?_, .failed⟩
    rw [SessionDriver.readLoop, Call.run_bind, hp]
    rfl
  | stopped hv hstop =>
    obtain ⟨fuel, rfl⟩ := Nat.exists_eq_succ_of_ne_zero (Nat.ne_of_gt (Nat.zero_lt_of_lt hfuel))
    exact ⟨_, _, readLoop_of_stop hv hstop, .stopped hstop⟩
  | step hv hgo _ ih =>
    obtain ⟨fuel, rfl⟩ := Nat.exists_eq_succ_of_ne_zero (Nat.ne_of_gt (Nat.zero_lt_of_lt hfuel))
    have hshrinks := FixDecoder.verdict_incremental.shrinks hv
    obtain ⟨d, r, hrun, hends⟩ := ih fuel (by omega)
    refine ⟨d, r, ?_, hends⟩
    rw [readLoop_of_go hv hgo, hrun]
    rfl

theorem onBytes_ends (now : Instant) (src : Bytes) (d : SessionDriver) :
    ∃ d' o r z, (SessionDriver.onBytes now src).run d = ⟨d', o, r⟩ ∧ Ends z d' r ∧
      Drains FixDecoder.verdict live (handle now) d.plumbing.decoder (d.plumbing.inBuf ++ src)
        d.state o z := by
  obtain ⟨o, z, hdrains⟩ : ∃ o z, Drains FixDecoder.verdict live (handle now) d.plumbing.decoder
      (d.plumbing.inBuf ++ src) d.state o z :=
    FixDecoder.verdict_incremental.drains _ _ _ _
  obtain ⟨d', r, hrun, hends⟩ := readLoop_ends hdrains _ (Nat.lt_succ_self _)
  exact ⟨d', o, r, z, hrun, hends, hdrains⟩

/-! ## Reads -/

theorem feed_cons (now : Instant) (src : Bytes) (reads : List (Instant × Bytes)) :
    SessionDriver.feed ((now, src) :: reads) = (do
      if (← SessionDriver.onBytes now src) = .close then return .close
      else SessionDriver.feed reads) := rfl

variable {d d' : SessionDriver}

theorem feed_of_stop {now src} (h : (SessionDriver.onBytes now src).run d = ⟨d', o, r⟩)
    (hr : ¬ GoesOn live r) (reads : List (Instant × Bytes)) :
    (SessionDriver.feed ((now, src) :: reads)).run d = ⟨d', o, r⟩ := by
  rw [feed_cons, Call.run_bind, h]
  rcases not_goesOn_live hr with rfl | ⟨e, rfl⟩
  · simp
  · simp

theorem feed_of_go {now src} (h : (SessionDriver.onBytes now src).run d = ⟨d', o, .ok .continue⟩)
    (reads : List (Instant × Bytes)) : (SessionDriver.feed ((now, src) :: reads)).run d =
      ((SessionDriver.feed reads).run d').prepend o := by
  rw [feed_cons, Call.run_bind, h]
  simp

/-- Feeding reads is reading what they bring, one after the other. -/
theorem feed_ends (now : Instant) (src : Bytes) (reads : List (Instant × Bytes))
    (d : SessionDriver) :
    ∃ d' o r z, (SessionDriver.feed ((now, src) :: reads)).run d = ⟨d', o, r⟩ ∧ Ends z d' r ∧
      Feeds FixDecoder.verdict live handle now d.plumbing.decoder (d.plumbing.inBuf ++ src)
        d.state reads o z := by
  induction reads generalizing now src d with
  | nil =>
    obtain ⟨d', o, r, z, hrun, hends, hdrains⟩ := onBytes_ends now src d
    refine ⟨d', o, r, z, ?_, hends, .last hdrains⟩
    by_cases hgo : GoesOn live r
    · obtain rfl := goesOn_live.mp hgo
      rw [feed_of_go hrun]
      simp [SessionDriver.feed]
    · exact feed_of_stop hrun hgo []
  | cons read reads ih =>
    obtain ⟨d', o, r, z, hrun, hends, hdrains⟩ := onBytes_ends now src d
    cases hends with
    | @waiting dec rest s =>
      obtain ⟨d', o', r', z', hrun', hends', hfeeds⟩ := ih read.1 read.2 ⟨s, ⟨dec, rest⟩⟩
      refine ⟨d', o ++ o', r', z', ?_, hends', .next hdrains hfeeds⟩
      rw [feed_of_go hrun, hrun']
      rfl
    | failed => exact ⟨_, o, _, _, feed_of_stop hrun not_goesOn_error _, .failed, .halted hdrains rfl⟩
    | stopped hstop => exact ⟨_, o, _, _, feed_of_stop hrun hstop _, .stopped hstop, .halted hdrains rfl⟩

/-! ## Cutting a stream -/

/-- Two calls return the same, or both fail to decode. -/
inductive SameEnd : Except Stop Progress → Except Stop Progress → Prop
  | same (r : Except Stop Progress) : SameEnd r r
  | undecodable (f g : Fault) : SameEnd (.error (.decode f)) (.error (.decode g))

/-- The session was given the same messages in the same order, did and wrote the same, and
reading ended in the same way; and where it goes on, the drivers are in the same state. -/
structure SameReading (a b : Outcome SessionDriver Action Stop Progress) : Prop where
  out : a.out = b.out
  state : a.state.state = b.state.state
  result : SameEnd a.result b.result
  driver : a.result = .ok .continue → a.state = b.state

theorem Ends.sameReading {r'} (h : Ends z d r) (h' : Ends z d' r') (o : List Action) :
    SameReading ⟨d, o, r⟩ ⟨d', o, r'⟩ := by
  cases h with
  | waiting =>
    cases h' with
    | waiting => exact ⟨rfl, rfl, .same _, fun _ => rfl⟩
  | failed =>
    cases h' with
    | failed => exact ⟨rfl, rfl, .undecodable _ _, fun h => by cases h⟩
  | stopped hstop =>
    cases h' with
    | stopped => exact ⟨rfl, rfl, .same _, fun h => absurd (goesOn_live.mpr h) hstop⟩

end

/-- **Chunking invariance.** Feeding a stream in pieces is feeding it in one call; and
while the decoder asks for more, it holds no more than one frame may have. -/
theorem feed_pieces (now : Instant) (d : SessionDriver) (first : Bytes) (rest : List Bytes) :
    SameReading ((SessionDriver.feed ((first :: rest).map fun piece => (now, piece))).run d)
      ((SessionDriver.onBytes now (first :: rest).flatten).run d) ∧
    ∀ (dec : FixDecoder) (data : Bytes), (dec.decode data).result = .ok none →
      (dec.decode data).data = data ∧ data.length ≤ dec.maxFrameLen := by
  constructor
  · obtain ⟨d₁, o₁, r₁, z₁, hrun₁, hends₁, hfeeds⟩ :=
      feed_ends now first (rest.map fun piece => (now, piece)) d
    obtain ⟨d₂, o₂, r₂, z₂, hrun₂, hends₂, hdrains⟩ := onBytes_ends now (first :: rest).flatten d
    have hwhole := hfeeds.drains FixDecoder.verdict_incremental (by simp)
    have hbytes : d.plumbing.inBuf ++ first ++
        (rest.map fun piece => (now, piece)).flatMap Prod.snd =
        d.plumbing.inBuf ++ (first :: rest).flatten := by
      simp [List.flatMap_map, List.flatMap_id']
    rw [hbytes] at hwhole
    obtain ⟨rfl, rfl⟩ := hwhole.unique hdrains
    rw [List.map_cons, hrun₁, hrun₂]
    exact hends₁.sameReading hends₂ o₁
  · intro dec data h
    have hmore : dec.verdict data = .more := by
      simp only [FixDecoder.verdict, h]
    exact ⟨by rw [FixDecoder.decode_of_more hmore], FixDecoder.length_le_of_more hmore⟩

end Babelfix.Driver
