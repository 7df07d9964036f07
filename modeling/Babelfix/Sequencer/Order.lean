import Babelfix.Lib.History
import Babelfix.Sequencer.Spec
import Mathlib.Data.List.TakeWhile

/-! # Nothing is sent before it is persisted

Whatever the target, and in whatever order the writes complete, what a sequencer
hands over is a prefix of what it numbered, and all of it has been reported
persisted. -/
namespace Babelfix.Sequencing
open Lib Session Sequencer

variable {τ ω : Type}

/-! ## Runs -/

/-- A call on a sequencer and its target. `drive` is any call on the target, made
with the sequencer's sink as its output. -/
inductive SeqInput (τ ω : Type) where
  | send (msg : Message)
  | sendRaw (msg : Message)
  | handled (seqNum : Nat)
  | watermarkPersisted (nextInSeqNum : Nat)
  | drive (call : Call τ ω Fault Progress)
  | persisted (seqNum : Nat) (now : Instant)
  | release (now : Instant)

/-- Make a call for its effect on the sequencer alone. -/
def Sequenced.quietly {α : Type} (c : SeqOp α) : Call (Sequenced τ) (Observed ω) Fault Progress := do
  let _ ← Sequenced.onSeq c
  return .continue

def SeqInput.call (target : CommandTarget τ ω) :
    SeqInput τ ω → Call (Sequenced τ) (Observed ω) Fault Progress
  | .send msg => Sequenced.quietly (Sequencer.send msg)
  | .sendRaw msg => Sequenced.quietly (Sequencer.sendRaw msg)
  | .handled n => Sequenced.quietly (Sequencer.handled n)
  | .watermarkPersisted n => Sequenced.quietly (Sequencer.onWatermarkPersisted n)
  | .drive call => Sequenced.onTarget target.event call
  | .persisted n now => Sequenced.persisted target n now
  | .release now => Sequenced.release target now

/-- The write a call reports, if it was awaited. -/
def SeqInput.reports (q : Sequencer) : SeqInput τ ω → List Nat
  | .persisted n _ => if q.inFlight.any fun e => e.seqNum = n then [n] else []
  | _ => []

theorem Sequenced.run_quietly {α : Type} (c : SeqOp α) (p : Sequenced τ) :
    (quietly (ω := ω) c).run p = ⟨⟨(c.run p.seq).state, p.target⟩, (c.run p.seq).out.map .app,
      (c.run p.seq).result >>= fun _ => .ok .continue⟩ := Call.andThen_lift _ _

theorem Sequenced.quietly_moves {α : Type} (c : SeqOp α) (p : Sequenced τ)
    (h : Moves (ω := ω) p.seq (c.run p.seq).state ((c.run p.seq).out.map .app)) :
    Moves p.seq ((quietly (ω := ω) c).run p).state.seq ((quietly (ω := ω) c).run p).out := by
  rw [run_quietly]
  exact h

theorem SeqInput.moves (target : CommandTarget τ ω) (i : SeqInput τ ω) (p : Sequenced τ) :
    Moves p.seq ((i.call target).run p).state.seq ((i.call target).run p).out ∨
      ∃ n now, i = .persisted n now ∧ (∃ e ∈ p.seq.inFlight, e.seqNum = n) ∧
        Moves (p.seq.collected n) ((i.call target).run p).state.seq
          ((i.call target).run p).out := by
  cases i with
  | send msg => exact .inl (Sequenced.quietly_moves _ p (send_spec msg p.seq).moves)
  | sendRaw msg => exact .inl (Sequenced.quietly_moves _ p (sendRaw_spec msg p.seq).moves)
  | handled n => exact .inl (Sequenced.quietly_moves _ p (handled_spec n p.seq).moves)
  | watermarkPersisted n =>
    exact .inl (Sequenced.quietly_moves _ p (onWatermarkPersisted_spec n p.seq).moves)
  | drive call => exact .inl (Sequenced.onTarget_moves target.event call p)
  | release now => exact .inl (Sequenced.release_moves target now p)
  | persisted n now =>
    have h := Sequenced.persisted_spec target n now p
    generalize hr : (Sequenced.persisted target n now).run p = r at h
    have hcall : ((SeqInput.persisted n now).call target).run p = r := hr
    rw [hcall]
    cases h with
    | refused => exact .inl .nil
    | noted hlive he hn =>
      have hmoves := Sequenced.release_moves target now ⟨p.seq.collected n, p.target⟩
      exact .inr ⟨n, now, rfl, ⟨_, he, hn⟩, hmoves⟩

/-! ## What a run shows -/

def Observed.numbered : Observed ω → Option (Nat × Message)
  | .app (.persist (.outbound n msg)) => some (n, msg)
  | _ => none

def Observed.handedOver : Observed ω → Option Message
  | .handed msg => some msg
  | _ => none

/-- The messages a run numbered, in the order their writes were asked for. -/
def numbered (o : List (Observed ω)) : List (Nat × Message) := o.filterMap Observed.numbered

/-- The messages a run handed to the target. -/
def handed (o : List (Observed ω)) : List Message := o.filterMap Observed.handedOver

@[simp] theorem numbered_append (o o' : List (Observed ω)) :
    numbered (o ++ o') = numbered o ++ numbered o' := List.filterMap_append

@[simp] theorem handed_append (o o' : List (Observed ω)) :
    handed (o ++ o') = handed o ++ handed o' := List.filterMap_append

@[simp] theorem numbered_app (n : Nat) (msg : Message) :
    numbered (ω := ω) [.app (.persist (.outbound n msg))] = [(n, msg)] := rfl

@[simp] theorem numbered_handed (msg : Message) : numbered (ω := ω) [.handed msg] = [] := rfl

@[simp] theorem handed_app (e : SeqEvent) : handed (ω := ω) [.app e] = [] := rfl

@[simp] theorem handed_handed (msg : Message) : handed (ω := ω) [.handed msg] = [msg] := rfl

theorem Sequencer.Idle.numbered {e : Observed ω} (h : Idle e) : e.numbered = none := by
  cases h with
  | app h => cases h <;> rfl
  | wrote => rfl

theorem Sequencer.Idle.handedOver {e : Observed ω} (h : Idle e) : e.handedOver = none := by
  cases h <;> rfl

theorem numbered_idle {o : List (Observed ω)} (h : ∀ e ∈ o, Idle e) : numbered o = [] :=
  List.filterMap_eq_nil_iff.mpr fun e he => (h e he).numbered

theorem handed_idle {o : List (Observed ω)} (h : ∀ e ∈ o, Idle e) : handed o = [] :=
  List.filterMap_eq_nil_iff.mpr fun e he => (h e he).handedOver

/-- Only Logons are handed over before the session is seen to log on. -/
def Gated (o : List (Observed ω)) : Prop :=
  Always (fun pre x => ∀ msg, x = .handed msg → .app (.session .loggedOn) ∉ pre →
    msg.msgType = "A") o

/-! ## The invariant -/

/-- How what has been numbered is divided: `settled`, handed over or ready to be,
and in flight. -/
structure Queued (q : Sequencer) (o : List (Observed ω)) (reported : List Nat)
    (settled : List (Nat × Message)) : Prop where
  split : numbered o = settled ++ q.inFlight.map fun e => (e.seqNum, e.msg)
  sent : settled.map Prod.snd = handed o ++ q.ready
  rising : (numbered o).Pairwise fun a b => a.1 < b.1
  below : ∀ a ∈ numbered o, a.1 < q.nextOutSeqNum
  own : ∀ a ∈ numbered o, Carries a.2 a.1
  done : ∀ a ∈ settled, a.1 ∈ reported
  flagged : ∀ e ∈ q.inFlight, e.persisted = true → e.seqNum ∈ reported
  seen : q.loggedOn = true → .app (.session .loggedOn) ∈ o
  gated : Gated o

variable {q : Sequencer} {o : List (Observed ω)} {reported : List Nat}
  {settled : List (Nat × Message)}

variable {o' : List (Observed ω)}

theorem Gated.quiet (h : Gated o) (hq : handed o' = []) :
    Gated (o ++ o') := by
  refine Always.append h ?_
  intro pre x post hsplit msg hx
  rw [hsplit, handed_append, hx] at hq
  exact absurd (List.append_eq_nil_iff.mp hq).2 (by simp [handed, Observed.handedOver])

variable {q' : Sequencer}

theorem Queued.quiet (h : Queued q o reported settled) (hin : q'.inFlight = q.inFlight)
    (hready : q'.ready = q.ready) (hnext : q'.nextOutSeqNum = q.nextOutSeqNum) (hnum : numbered o' = [])
    (hhand : handed o' = []) (hseen : q'.loggedOn = true → q.loggedOn = true ∨ .app (.session .loggedOn) ∈ o') :
    Queued q' (o ++ o') reported settled := by
  have hsame : numbered (o ++ o') = numbered o := by rw [numbered_append, hnum, List.append_nil]
  refine ⟨?_, ?_, ?_, ?_, ?_, h.done, ?_, ?_, h.gated.quiet hhand⟩
  · rw [hsame, hin]
    exact h.split
  · rw [handed_append, hhand, List.append_nil, hready]
    exact h.sent
  · rw [hsame]
    exact h.rising
  · rw [hsame, hnext]
    exact h.below
  · rw [hsame]
    exact h.own
  · rw [hin]
    exact h.flagged
  · intro hl
    rcases hseen hl with hl | hl
    · exact List.mem_append_left _ (h.seen hl)
    · exact List.mem_append_right _ hl

variable {n : Nat} {msg : Message}

theorem Queued.number (h : Queued q o reported settled) (hle : q.nextOutSeqNum ≤ n)
    (hn : Carries msg n) :
    Queued (q.awaiting n msg) (o ++ [.app (.persist (.outbound n (q.stamped msg)))]) reported
      settled := by
  have hlow : ∀ a ∈ numbered o, a.1 < n := fun a ha => Nat.lt_of_lt_of_le (h.below a ha) hle
  refine ⟨?_, ?_, ?_, ?_, ?_, h.done, ?_, ?_, h.gated.quiet (handed_app _)⟩
  · simp [h.split, awaiting]
  · simpa [awaiting] using h.sent
  · rw [numbered_append, numbered_app, List.pairwise_append]
    refine ⟨h.rising, List.pairwise_singleton _ _, ?_⟩
    intro a ha b hb
    rw [List.mem_singleton.mp hb]
    exact hlow a ha
  · intro a ha
    rw [numbered_append, numbered_app] at ha
    rcases List.mem_append.mp ha with ha | ha
    · exact Nat.lt_succ_of_lt (hlow a ha)
    · rw [List.mem_singleton.mp ha]
      exact Nat.lt_succ_self n
  · intro a ha
    rw [numbered_append, numbered_app] at ha
    rcases List.mem_append.mp ha with ha | ha
    · exact h.own a ha
    · rw [List.mem_singleton.mp ha]
      exact (stamped_msgSeqNum q msg).trans hn
  · intro e he hp
    rcases List.mem_append.mp he with he | he
    · exact h.flagged e he hp
    · rw [List.mem_singleton.mp he] at hp
      cases hp
  · intro hl
    exact List.mem_append_left _ (h.seen hl)

theorem Queued.hand (h : Queued q o reported settled) {rest} (hready : q.ready = msg :: rest)
    (hgo : q.MayGo msg) :
    Queued { q with ready := rest } (o ++ [.handed msg]) reported settled := by
  have hsame : numbered (o ++ [.handed msg]) = numbered o := by
    rw [numbered_append, numbered_handed, List.append_nil]
  refine ⟨?_, ?_, ?_, ?_, ?_, h.done, h.flagged, ?_, ?_⟩
  · rw [hsame]
    exact h.split
  · rw [h.sent, hready]
    simp
  · rw [hsame]
    exact h.rising
  · rw [hsame]
    exact h.below
  · rw [hsame]
    exact h.own
  · intro hl
    exact List.mem_append_left _ (h.seen hl)
  · refine Always.concat h.gated ?_
    intro m hm hunseen
    cases hm
    rcases hgo with hl | ha
    · exact absurd (h.seen hl) hunseen
    · exact ha

theorem Queued.move (h : Queued q o reported settled) (hm : Move q q' o') :
    Queued q' (o ++ o') reported settled := by
  cases hm with
  | number hle hn => exact h.number hle hn
  | logOn => exact h.quiet rfl rfl rfl rfl rfl fun _ => .inr (by simp)
  | hand hready hgo => exact h.hand hready hgo
  | aside ha ho =>
    cases ha
    exact h.quiet rfl rfl rfl (numbered_idle ho) (handed_idle ho) .inl

theorem Queued.moves (hm : Moves q q' o') (h : Queued q o reported settled) :
    Queued q' (o ++ o') reported settled := by
  induction hm generalizing o with
  | nil => simpa using h
  | cons hmove _ ih =>
    rw [← List.append_assoc]
    exact ih (h.move hmove)

/-! ## Noting a write -/

theorem markPersisted_map (n : Nat) (l : List InFlight) :
    ((markPersisted n l).map fun e => (e.seqNum, e.msg)) = l.map fun e => (e.seqNum, e.msg) := by
  induction l with
  | nil => rfl
  | cons e rest ih =>
    unfold markPersisted
    split
    · rfl
    · rw [List.map_cons, ih, List.map_cons]

theorem mem_markPersisted {l e} (h : e ∈ markPersisted n l) : e ∈ l ∨ e.seqNum = n := by
  induction l with
  | nil => cases h
  | cons x rest ih =>
    unfold markPersisted at h
    split at h
    · rename_i hx
      rcases List.mem_cons.mp h with rfl | h
      · exact .inr hx
      · exact .inl (List.mem_cons_of_mem _ h)
    · rcases List.mem_cons.mp h with rfl | h
      · exact .inl List.mem_cons_self
      · rcases ih h with h | h
        · exact .inl (List.mem_cons_of_mem _ h)
        · exact .inr h

/-- Noting the write of `n` settles what is persisted in order. -/
theorem Queued.collected (h : Queued q o reported settled) (n : Nat) :
    Queued (q.collected n) o (reported ++ [n]) (settled ++
      ((markPersisted n q.inFlight).takeWhile InFlight.persisted).map
        fun e => (e.seqNum, e.msg)) := by
  have hflag : ∀ e ∈ markPersisted n q.inFlight, e.persisted = true →
      e.seqNum ∈ reported ++ [n] := by
    intro e he hp
    rcases mem_markPersisted he with he | he
    · exact List.mem_append_left _ (h.flagged e he hp)
    · simp [he]
  refine ⟨?_, ?_, h.rising, h.below, h.own, ?_, ?_, h.seen, h.gated⟩
  · have hparts := List.takeWhile_append_dropWhile (p := InFlight.persisted)
      (l := markPersisted n q.inFlight)
    rw [h.split, ← markPersisted_map n, ← hparts, List.map_append, List.append_assoc]
    simp [Sequencer.collected]
  · rw [List.map_append, h.sent, List.append_assoc]
    simp [Sequencer.collected]
  · intro a ha
    rcases List.mem_append.mp ha with ha | ha
    · exact List.mem_append_left _ (h.done a ha)
    · obtain ⟨e, he, rfl⟩ := List.mem_map.mp ha
      exact hflag e ((List.takeWhile_sublist _).subset he) (List.mem_takeWhile_imp he)
  · intro e he
    exact hflag e ((List.dropWhile_sublist _).subset he)

/-! ## Whole runs -/

section
variable (target : CommandTarget τ ω)

/-- The awaited writes that a run reported. -/
def reportedIn (turns : List (Turn (SeqInput τ ω) (Sequenced τ) (Observed ω) Fault Progress)) :
    List Nat :=
  turns.flatMap fun t => t.input.reports t.before.seq

theorem reports_persisted {now} (h : ∃ e ∈ q.inFlight, e.seqNum = n) :
    (SeqInput.persisted (τ := τ) (ω := ω) n now).reports q = [n] := by
  have hany : (q.inFlight.any fun e => e.seqNum = n) = true := by simpa using h
  simp only [SeqInput.reports, hany, if_true]

theorem Queued.mono {reported'} (h : Queued q o reported settled) (hsub : reported ⊆ reported') :
    Queued q o reported' settled :=
  { h with
    done := fun a ha => hsub (h.done a ha)
    flagged := fun e he hp => hsub (h.flagged e he hp) }

theorem queued_step {p} (h : Queued p.seq o reported settled) (i : SeqInput τ ω) :
    ∃ settled', Queued ((i.call target).run p).state.seq (o ++ ((i.call target).run p).out)
      (reported ++ i.reports p.seq) settled' := by
  rcases i.moves target p with hm | ⟨n, now, rfl, hawaited, hm⟩
  · exact ⟨settled, .moves hm (h.mono (List.subset_append_left _ _))⟩
  · rw [reports_persisted hawaited]
    exact ⟨_, .moves hm (h.collected n)⟩

/-- A sequencer that has not numbered anything yet. -/
def fresh (sessionId : SessionIdentifier) (resume : Resume) (policy : InboundPolicy) (clock : Clock)
    (maxInFlight : Nat) (t : τ) : Sequenced τ :=
  ⟨(Sequencer.new sessionId resume policy clock).withMaxInFlight maxInFlight, t⟩

theorem run_queued (sessionId : SessionIdentifier) (resume : Resume) (policy : InboundPolicy)
    (clock : Clock) (maxInFlight : Nat) (t : τ) (inputs : List (SeqInput τ ω)) :
    let p := fresh sessionId resume policy clock maxInFlight t
    ∃ settled, Queued (final (SeqInput.call target) p inputs).seq
      (output (SeqInput.call target) p inputs)
      (reportedIn (trace (SeqInput.call target) p inputs)) settled := by
  intro p
  refine run_induction (motive := fun xs s => ∃ settled, Queued s.seq
    (output (SeqInput.call target) p xs) (reportedIn (trace (SeqInput.call target) p xs)) settled)
    (SeqInput.call target) p inputs ?_ ?_
  · refine ⟨[], ?_, ?_, ?_, ?_, ?_, ?_, ?_, ?_, ?_⟩ <;>
      simp [p, fresh, Sequencer.new, withMaxInFlight, numbered, handed, Gated, always_nil]
  · intro pre i ih
    obtain ⟨settled, ih⟩ := ih
    rw [output_append, trace_append, output_singleton, trace_singleton]
    simp only [reportedIn, List.flatMap_append, List.flatMap_singleton]
    exact queued_step target ih i

/-- What has been handed over is settled, with everything numbered up to it. -/
theorem Queued.settled_le (h : Queued q o reported settled) (hmsg : msg ∈ handed o)
    (hn : Carries msg n) :
    (∃ m, (n, m) ∈ settled) ∧ ∀ a ∈ numbered o, a.1 ≤ n → a ∈ settled := by
  have hmem : msg ∈ settled.map Prod.snd := by
    rw [h.sent]
    exact List.mem_append_left _ hmsg
  obtain ⟨b, hb, rfl⟩ := List.mem_map.mp hmem
  have hbn : b ∈ numbered o := by
    rw [h.split]
    exact List.mem_append_left _ hb
  have hnum : b.1 = n := (h.own b hbn).unique hn
  refine ⟨⟨b.2, by rw [← hnum]; exact hb⟩, ?_⟩
  intro a ha hle
  rw [h.split] at ha
  rcases List.mem_append.mp ha with ha | ha
  · exact ha
  · -- everything in flight comes after everything settled
    have hrising := h.rising
    rw [h.split] at hrising
    have hlt := (List.pairwise_append.mp hrising).2.2 b hb a ha
    omega

/-- **Persist before send.** For every target and every run of calls, the messages
handed over are a prefix of the messages numbered, whose numbers rise strictly and
are the ones they carry; when one is handed over, it and every message with a lower
number has been reported persisted; and only Logons are handed over before the
session is seen to log on. -/
theorem persist_before_send (sessionId : SessionIdentifier) (resume : Resume)
    (policy : InboundPolicy) (clock : Clock) (maxInFlight : Nat) (t : τ)
    (inputs : List (SeqInput τ ω)) :
    let p := fresh sessionId resume policy clock maxInFlight t
    let turns := trace (SeqInput.call target) p inputs
    let out := output (SeqInput.call target) p inputs
    handed out <+: (numbered out).map Prod.snd ∧
    (numbered out).Pairwise (fun a b => a.1 < b.1) ∧
    (∀ a ∈ numbered out, Carries a.2 a.1) ∧
    (∀ pre turn post msg n, turns = pre ++ turn :: post → .handed msg ∈ turn.outcome.out →
      Carries msg n →
      n ∈ reportedIn (pre ++ [turn]) ∧
        ∀ a ∈ numbered out, a.1 ≤ n → a.1 ∈ reportedIn (pre ++ [turn])) ∧
    Gated out := by
  intro p turns out
  obtain ⟨settled, h⟩ := run_queued target sessionId resume policy clock maxInFlight t inputs
  refine ⟨?_, h.rising, h.own, ?_, h.gated⟩
  · rw [h.split, List.map_append, h.sent, List.append_assoc]
    exact List.prefix_append _ _
  · intro pre turn post msg n hsplit hhanded hn
    obtain ⟨xs, ys, hinputs, hpre, hbefore, houtcome⟩ := trace_eq_append _ hsplit
    -- the run up to and including this turn
    obtain ⟨settled', h'⟩ :=
      run_queued target sessionId resume policy clock maxInFlight t (xs ++ [turn.input])
    have hturns : trace (SeqInput.call target) p (xs ++ [turn.input]) = pre ++ [turn] := by
      rw [trace_append, trace_singleton, ← hpre, ← hbefore, ← houtcome]
    have hout : output (SeqInput.call target) p (xs ++ [turn.input]) =
        output (SeqInput.call target) p xs ++ turn.outcome.out := by
      rw [output_append, output_singleton, ← hbefore, ← houtcome]
    have hin : msg ∈ handed (output (SeqInput.call target) p (xs ++ [turn.input])) := by
      rw [hout, handed_append]
      exact List.mem_append_right _ (List.mem_filterMap.mpr ⟨_, hhanded, rfl⟩)
    obtain ⟨⟨m, hm⟩, hall⟩ := h'.settled_le hin hn
    have hdone := h'.done
    rw [hturns] at hdone
    refine ⟨hdone _ hm, ?_⟩
    intro a ha hle
    have hrest : out = output (SeqInput.call target) p (xs ++ [turn.input]) ++
        output (SeqInput.call target) (final (SeqInput.call target) p (xs ++ [turn.input])) ys := by
      rw [← output_append]
      simp [out, hinputs]
    rw [hrest, numbered_append] at ha
    rcases List.mem_append.mp ha with ha | ha
    · exact hdone a (hall a ha hle)
    · -- what is numbered later has a higher number
      have hrising := h.rising
      rw [show output _ _ _ = out from rfl, hrest, numbered_append] at hrising
      have hmem : (n, m) ∈ numbered (output (SeqInput.call target) p (xs ++ [turn.input])) := by
        rw [h'.split]
        exact List.mem_append_left _ hm
      have hlt := (List.pairwise_append.mp hrising).2.2 _ hmem a ha
      exact absurd hle (Nat.not_le.mpr hlt)

end

end Babelfix.Sequencing
