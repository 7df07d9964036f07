import Babelfix.Sequencer.Connection

/-! # After a failed write

`persist_failed` is meant to stop everything. What is numbered later is refused and
no write is reported any more, but `release` does not look at the failure: what was
ready before it still goes out. -/
namespace Babelfix.Sequencing
open Lib Session Sequencer

variable {τ ω : Type}

/-- A call on a sequencer and its target, or the report of a failed write. -/
inductive PublicCall (τ ω : Type) where
  | call (i : SeqInput τ ω)
  | persistFailed (seqNum : Nat)

def PublicCall.run (target : CommandTarget τ ω) :
    PublicCall τ ω → Call (Sequenced τ) (Observed ω) Fault Progress
  | .call i => i.call target
  | .persistFailed n => Sequenced.quietly (Sequencer.persistFailed n)

/-- Nothing that is ready may go out. -/
def Sequencer.Blocked (q : Sequencer) : Prop :=
  ∀ msg rest, q.ready = msg :: rest → ¬ q.MayGo msg

/-! ## A failure stays -/

theorem Sequencer.Moves.failed {q q'} {o : List (Observed ω)} (h : Moves q q' o) :
    q'.failed = q.failed := by
  induction h with
  | nil => rfl
  | cons hm _ ih =>
    refine ih.trans ?_
    cases hm with
    | number => rfl
    | logOn => rfl
    | hand => rfl
    | aside ha =>
      cases ha
      rfl

theorem PublicCall.keeps_failed (target : CommandTarget τ ω) (c : PublicCall τ ω) {p}
    (hf : p.seq.failed = true) : ((c.run target).run p).state.seq.failed = true := by
  cases c with
  | persistFailed n => rfl
  | call i =>
    rcases i.moves target p with hm | ⟨n, now, -, -, hm⟩
    · exact hm.failed.trans hf
    · exact hm.failed.trans hf

/-! ## What is handed over -/

theorem handed_map_app (o : List SeqEvent) : handed (ω := ω) (o.map .app) = [] := by
  refine List.filterMap_eq_nil_iff.mpr ?_
  intro x hx
  obtain ⟨e, -, rfl⟩ := List.mem_map.mp hx
  rfl

theorem Sequenced.quietly_handed {α : Type} (c : SeqOp α) (p : Sequenced τ) :
    handed ((quietly (ω := ω) c).run p).out = [] := by
  rw [run_quietly]
  exact handed_map_app _

/-- The sink tells the application and writes: it hands nothing to the target. -/
theorem Sequenced.onTarget_handed {α : Type} (event : ω → Option Event) (c : Call τ ω Fault α)
    (p : Sequenced τ) : handed ((onTarget event c).run p).out = [] := by
  refine onTarget_observed (P := fun seen _ => handed seen = []) event ?_ ?_ c p rfl
  · intro seen x q h
    rw [handed_append, h]
    rfl
  · intro seen e q r _ h
    rw [handed_append, h, handed_map_app]
    rfl

/-- `release` hands something over exactly if something may go. -/
theorem Sequenced.release_handed (target : CommandTarget τ ω) (now : Instant) (p : Sequenced τ) :
    handed ((release target now).run p).out = [] ↔ p.seq.Blocked := by
  constructor
  · intro h msg rest hready hgo
    have hrun : (releaseUpTo target now (rest.length + 1)).run p = _ :=
      run_releaseUpTo_some target hready hgo now rest.length p.target
    rw [run_release, hready, List.length_cons, hrun] at h
    -- the first thing it does is hand `msg` over
    have hfirst : (handOver target msg now).run ⟨{ p.seq with ready := rest }, p.target⟩ =
        Outcome.prepend [.handed msg] ((onTarget target.event (target.onCommand (.send msg) now)).run
          ⟨{ p.seq with ready := rest }, p.target⟩) := rfl
    rw [hfirst] at h
    generalize (onTarget target.event (target.onCommand (.send msg) now)).run
      ⟨{ p.seq with ready := rest }, p.target⟩ = r at h
    cases hr : r.result with
    | error f =>
      rw [Outcome.andThen_of_error _ (by exact hr)] at h
      simp [handed, Observed.handedOver] at h
    | ok progress =>
      rw [Outcome.andThen_of_ok _ (by exact hr)] at h
      simp [handed, Observed.handedOver] at h
  · intro h
    have hrun : (release target now).run p = ⟨p, [], .ok .continue⟩ :=
      run_releaseUpTo_none target h now p.seq.ready.length p.target
    rw [hrun]
    rfl

/-- After a failure, a call hands something over exactly if it is a `release` and
something may go. -/
theorem PublicCall.handed_of_failed (target : CommandTarget τ ω) (c : PublicCall τ ω) {p}
    (hf : p.seq.failed = true) :
    handed ((c.run target).run p).out = [] ↔ ∀ now, c = .call (.release now) → p.seq.Blocked := by
  have hother (h : handed ((c.run target).run p).out = [])
      (hc : ∀ now, c ≠ .call (.release now)) : handed ((c.run target).run p).out = [] ↔
        ∀ now, c = .call (.release now) → p.seq.Blocked :=
    ⟨fun _ now hnow => absurd hnow (hc now), fun _ => h⟩
  cases c with
  | persistFailed n => exact hother rfl (by simp)
  | call i =>
    cases i with
    | send msg => exact hother (Sequenced.quietly_handed _ p) (by simp)
    | sendRaw msg => exact hother (Sequenced.quietly_handed _ p) (by simp)
    | handled n => exact hother (Sequenced.quietly_handed _ p) (by simp)
    | watermarkPersisted n => exact hother (Sequenced.quietly_handed _ p) (by simp)
    | drive call => exact hother (Sequenced.onTarget_handed target.event call p) (by simp)
    | persisted n now =>
      refine hother ?_ (by simp)
      have h := Sequenced.persisted_spec target n now p
      show handed ((Sequenced.persisted target n now).run p).out = []
      generalize (Sequenced.persisted target n now).run p = r at h
      cases h with
      | refused => rfl
      | noted hlive =>
        rw [hf] at hlive
        cases hlive
    | release now =>
      have hrelease := Sequenced.release_handed target now p
      constructor
      · intro h _ _
        exact hrelease.mp h
      · intro h
        exact hrelease.mpr (h now rfl)

/-! ## Whole runs -/

theorem handed_eq_nil_iff (target : CommandTarget τ ω) (p : Sequenced τ) (hf : p.seq.failed = true)
    (calls : List (PublicCall τ ω)) :
    handed (output (PublicCall.run target) p calls) = [] ↔
      ∀ turn ∈ trace (PublicCall.run target) p calls, ∀ now,
        turn.input = .call (.release now) → turn.before.seq.Blocked := by
  induction calls generalizing p with
  | nil => simp [output, handed]
  | cons c rest ih =>
    have hout : output (PublicCall.run target) p (c :: rest) = ((c.run target).run p).out ++
        output (PublicCall.run target) ((c.run target).run p).state rest := rfl
    rw [hout, handed_append, List.append_eq_nil_iff, c.handed_of_failed target hf,
      ih _ (c.keeps_failed target hf)]
    simp [trace]

/-- **What still goes out after a failed write.** Whatever has happened before, once
`persist_failed` has been called nothing more is handed to the target if, and only if,
every later `release` finds nothing that may go. -/
theorem silent_after_failure_iff (target : CommandTarget τ ω) (p : Sequenced τ)
    (calls later : List (PublicCall τ ω)) (n : Nat) :
    let failed := final (PublicCall.run target) p (calls ++ [.persistFailed n])
    handed (output (PublicCall.run target) failed later) = [] ↔
      ∀ turn ∈ trace (PublicCall.run target) failed later, ∀ now,
        turn.input = .call (.release now) → turn.before.seq.Blocked := by
  intro failed
  refine handed_eq_nil_iff target failed ?_ later
  show (final (PublicCall.run target) p (calls ++ [.persistFailed n])).seq.failed = true
  rw [final_append]
  rfl

namespace Sample

/-- Our Logon goes out, an order is stored and waits for the peer's Logon, and another
is numbered. -/
def beforeFailure : List (PublicCall Endpoint Noted) :=
  let order := Message.new "FIX.4.4" "D"
  [.call (.drive (noted (EndpointInput.initiate 10 0).call)), .call (.persisted 1 0),
    .call (.send order), .call (.persisted 2 0), .call (.send order)]

/-- The peer's Logon arrives, and the driver releases. -/
def afterFailure : List (PublicCall Endpoint Noted) :=
  [.call (.drive (noted (EndpointInput.receive (Session.Sample.numbered "A" 1) 0).call)),
    .call (.release 0)]

end Sample

/-- The stored order goes out after the failure. -/
theorem handed_after_failure :
    let p := Sample.link
    let failed := final (PublicCall.run endpointTarget) p (Sample.beforeFailure ++ [.persistFailed 3])
    (handed (output (PublicCall.run endpointTarget) failed Sample.afterFailure)).map
      Message.msgType = ["D"] := by
  decide +kernel

end Babelfix.Sequencing
