import Babelfix.Sequencer.Connection

/-! # Numbers without gaps

What a sequencer numbers itself, it numbers one after the other, whatever happens in between
and whoever asks for it: the application by `send`, the session by its events. -/
namespace Babelfix.Sequencing
open Lib Session Sequencer

variable {τ ω α : Type} {q q' q'' : Sequencer} {o o' : List (Observed ω)}

/-- What was numbered on the way from `q` to `q'` has the numbers in between. -/
structure Counts (q q' : Sequencer) (o : List (Observed ω)) : Prop where
  numbers : (numbered o).map Prod.fst = List.range' q.nextOutSeqNum (numbered o).length
  next : q'.nextOutSeqNum = q.nextOutSeqNum + (numbered o).length

theorem Counts.none (hn : numbered o = []) (hnext : q'.nextOutSeqNum = q.nextOutSeqNum) :
    Counts q q' o := by
  refine ⟨?_, ?_⟩
  · simp [hn]
  · simp [hn, hnext]

theorem Counts.trans (h : Counts q q' o) (h' : Counts q' q'' o') : Counts q q'' (o ++ o') := by
  refine ⟨?_, ?_⟩
  · rw [numbered_append, List.map_append, h.numbers, h'.numbers, h.next, List.length_append,
      List.range'_append_1]
  · rw [h'.next, h.next, numbered_append, List.length_append, Nat.add_assoc]

theorem Sequencer.Assigned.counts {msg r} (h : Assigned msg q r) :
    Counts (ω := ω) q r.state (r.out.map .app) := by
  cases h with
  | numbered _ _ => exact ⟨rfl, rfl⟩
  | _ => exact .none rfl rfl

theorem Sequencer.Watermarked.counts {r : Outcome Sequencer SeqEvent Fault α}
    (h : Watermarked q r) : Counts (ω := ω) q r.state (r.out.map .app) := by
  obtain ⟨haside, hquiet⟩ := h
  refine .none (numbered_idle fun x hx => ?_) ?_
  · obtain ⟨e, he, rfl⟩ := List.mem_map.mp hx
    exact .app (hquiet e he)
  · generalize r.state = q' at haside
    cases haside
    rfl

theorem Sequencer.Intercepted.counts {e r} (h : Intercepted e q r) :
    Counts (ω := ω) q r.state (r.out.map .app) := by
  cases h with
  | asked _ h _ | refused _ h _ | passed _ _ h _ => exact h.counts
  | _ => exact .none rfl rfl

namespace Sequenced

theorem onTarget_counts (event : ω → Option Event) (c : Call τ ω Fault α) (p : Sequenced τ) :
    Counts p.seq ((onTarget event c).run p).state.seq ((onTarget event c).run p).out := by
  have hrule := onTarget_induction (P := fun seen _ q => Counts p.seq q seen)
    (F := fun seen q => Counts p.seq q seen) event ?_ ?_ c p (.none rfl rfl)
  · exact hrule.1.elim id id
  · intro seen x rest q _ h
    exact h.trans (.none rfl rfl)
  · intro seen x e rest q r _ hr h
    have hcounts := h.trans (hr ▸ onSessionEvent_spec e q).counts
    exact ⟨fun _ => hcounts, fun _ _ => hcounts⟩

theorem release_counts (target : CommandTarget τ ω) (now : Instant) (p : Sequenced τ) :
    Counts p.seq ((release target now).run p).state.seq ((release target now).run p).out := by
  refine release_observed target (J := fun o p' => Counts p.seq p'.seq o) now ?_ p (.none rfl rfl)
  intro o q t msg rest _ _ h
  have hhand : Counts (ω := ω) q { q with ready := rest } [.handed msg] := .none rfl rfl
  exact h.trans (hhand.trans (onTarget_counts target.event (target.onCommand (.send msg) now)
    ⟨{ q with ready := rest }, t⟩))

end Sequenced

theorem Sequenced.quietly_counts {c : SeqOp α} {p : Sequenced τ}
    (h : Counts (ω := ω) p.seq (c.run p.seq).state ((c.run p.seq).out.map .app)) :
    Counts p.seq ((quietly (ω := ω) c).run p).state.seq ((quietly (ω := ω) c).run p).out := by
  rwa [run_quietly]

theorem SeqInput.counts (target : CommandTarget τ ω) {i : SeqInput τ ω}
    (hi : ∀ msg, i ≠ .sendRaw msg) (p : Sequenced τ) :
    Counts p.seq ((i.call target).run p).state.seq ((i.call target).run p).out := by
  cases i with
  | sendRaw msg => exact absurd rfl (hi msg)
  | send msg =>
    refine Sequenced.quietly_counts ?_
    have h := send_spec msg p.seq
    generalize (Sequencer.send msg).run p.seq = r at h ⊢
    cases h with
    | busy _ => exact .none rfl rfl
    | assigned h => exact h.counts
  | handled n => exact Sequenced.quietly_counts (handled_spec n p.seq).counts
  | watermarkPersisted n =>
    exact Sequenced.quietly_counts (onWatermarkPersisted_spec n p.seq).counts
  | drive call => exact Sequenced.onTarget_counts target.event call p
  | release now => exact Sequenced.release_counts target now p
  | persisted n now =>
    have h := Sequenced.persisted_spec target n now p
    generalize hr : (Sequenced.persisted target n now).run p = r at h
    have hcall : ((SeqInput.persisted n now).call target).run p = r := hr
    rw [hcall]
    cases h with
    | refused => exact .none rfl rfl
    | noted _ _ _ =>
      have hcounts := Sequenced.release_counts target now ⟨p.seq.collected n, p.target⟩
      exact ⟨hcounts.numbers, hcounts.next⟩

/-- **No number is skipped.** Whatever the target and the calls, in whatever order the writes
complete, and whichever calls are refused: as long as the application leaves the numbering to
the sequencer, the messages whose writes it asks for have the numbers from where the session
resumed on, one after the other, and the next is the one after them. -/
theorem numbers_gapless (target : CommandTarget τ ω) (sessionId : SessionIdentifier)
    (resume : Resume) (policy : InboundPolicy) (clock : Clock) (maxInFlight : Nat) (t : τ)
    (inputs : List (SeqInput τ ω)) (hinputs : ∀ i ∈ inputs, ∀ msg, i ≠ .sendRaw msg) :
    let p := fresh sessionId resume policy clock maxInFlight t
    let out := output (SeqInput.call target) p inputs
    (numbered out).map Prod.fst = List.range' resume.nextOutSeqNum (numbered out).length ∧
      (final (SeqInput.call target) p inputs).seq.nextOutSeqNum =
        resume.nextOutSeqNum + (numbered out).length := by
  intro p out
  have hrun : (∀ i ∈ inputs, ∀ msg, i ≠ .sendRaw msg) →
      Counts p.seq (final (SeqInput.call target) p inputs).seq out := by
    refine run_induction (motive := fun xs s => (∀ i ∈ xs, ∀ msg, i ≠ .sendRaw msg) →
      Counts p.seq s.seq (output (SeqInput.call target) p xs)) (SeqInput.call target) p inputs
      (fun _ => .none rfl rfl) ?_
    intro pre i ih hall
    rw [output_append, output_singleton]
    exact (ih fun j hj => hall j (List.mem_append_left _ hj)).trans
      (i.counts target (hall i (by simp)) _)
  exact ⟨(hrun hinputs).numbers, (hrun hinputs).next⟩

namespace Sample

/-- Both sides log on, and the application sends a message. -/
def talking : List (SeqInput Endpoint Noted) :=
  [.drive (noted (EndpointInput.initiate 10 0).call), .persisted 1 0,
    .drive (noted (EndpointInput.receive (Session.Sample.numbered "A" 1) 0).call),
    .send (Session.Sample.numbered "D" 7), .persisted 3 0, .persisted 2 0]

end Sample

/-- The Logon, the TestRequest that follows it and the message of the application. -/
theorem numbers_gapless_talking :
    let out := output (SeqInput.call endpointTarget) Sample.link Sample.talking
    (numbered out).map Prod.fst = [1, 2, 3] := by
  intro out
  have hinputs : ∀ i ∈ Sample.talking, ∀ msg, i ≠ .sendRaw msg := by
    simp [Sample.talking]
  have hlen : (numbered out).length = 3 := by decide +kernel
  have hnums : (numbered out).map Prod.fst = List.range' 1 (numbered out).length :=
    (numbers_gapless endpointTarget _ .new _ _ _ _ Sample.talking hinputs).1
  rwa [hlen] at hnums

end Babelfix.Sequencing
