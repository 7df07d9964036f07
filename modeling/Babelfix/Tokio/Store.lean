import Babelfix.Sequencer.Order
import Mathlib.Tactic.Abel

/-! # The writes of a session

A sequencer asks for writes; the tokio side of it (`store.rs`) starts them in the store and
feeds each one back once it has completed, which may be at once or later, in any order. -/
namespace Babelfix.Tokio
open Lib Session
open Sequencing hiding Sequenced

/-- A write whose completion the sequencer is waiting for. -/
inductive Write where
  | outbound (seqNum : Nat)
  | watermark (nextInSeqNum : Nat)
  deriving DecidableEq, Repr

/-- A completed write. An error stands for its text. -/
abbrev Done := Write × Except String Unit

/-- A store and the futures of its writes, as `FuturesUnordered` has them: each is yielded
once. What is going on in the store meanwhile is its own business. -/
structure SessionStore where
  Futures : Type
  Work : Type
  new : Futures
  push : Write → Futures → Futures
  work : Work → Futures → Futures
  /-- A write that has completed is taken out. -/
  poll : Futures → Option (Done × Futures)
  /-- The writes that have not been taken out. -/
  unfinished : Futures → Multiset Write
  unfinished_new : unfinished new = 0
  unfinished_push : ∀ w fs, unfinished (push w fs) = w ::ₘ unfinished fs
  unfinished_work : ∀ k fs, unfinished (work k fs) = unfinished fs
  yields_once : ∀ {fs d rest}, poll fs = some (d, rest) → unfinished fs = d.1 ::ₘ unfinished rest

/-- Stores nothing, and completes every write at once. -/
def volatileStore : SessionStore where
  Futures := List Write
  Work := Unit
  new := []
  push := List.cons
  work := fun _ fs => fs
  poll
    | [] => none
    | w :: rest => some ((w, .ok ()), rest)
  unfinished := Multiset.ofList
  unfinished_new := rfl
  unfinished_push := fun _ _ => rfl
  unfinished_work := fun _ _ => rfl
  yields_once := fun {fs _ _} h => by
    cases fs <;> cases h
    rfl

instance : Inhabited SessionStore := ⟨volatileStore⟩

/-- The writes a session has in flight. -/
structure Writes (store : SessionStore) where
  inFlight : store.Futures
  /-- Collected, and not fed back yet. -/
  done : List Done

namespace Writes

variable {store : SessionStore}

def new (store : SessionStore) : Writes store := ⟨store.new, []⟩

def start (ws : Writes store) (w : Write) : Writes store :=
  { ws with inFlight := store.push w ws.inFlight }

def collectUpTo : Nat → Writes store → Writes store
  | 0, ws => ws
  | fuel + 1, ws =>
    match store.poll ws.inFlight with
    | none => ws
    | some (d, rest) => collectUpTo fuel ⟨rest, ws.done ++ [d]⟩

-- each turn takes one out
def collectReady (ws : Writes store) : Writes store :=
  ws.collectUpTo (store.unfinished ws.inFlight).card

/-- The next write to complete, and the others. There is none while they are all in flight. -/
def next (ws : Writes store) : Option (Done × Writes store) :=
  match ws.done with
  | d :: rest => some (d, { ws with done := rest })
  | [] => (store.poll ws.inFlight).map fun x => (x.1, { ws with inFlight := x.2 })

/-- The writes that have not been fed back. -/
def outstanding (ws : Writes store) : Multiset Write :=
  store.unfinished ws.inFlight + ↑(ws.done.map Prod.fst)

variable {ws : Writes store} {d : Done}

theorem outstanding_start (w : Write) : (ws.start w).outstanding = ws.outstanding + {w} := by
  simp [start, outstanding, store.unfinished_push, ← Multiset.singleton_add]
  abel

theorem outstanding_startAll (ws : Writes store) (new : List Write) :
    (new.foldl start ws).outstanding = ws.outstanding + new := by
  induction new generalizing ws with
  | nil => simp
  | cons w new ih =>
    rw [List.foldl_cons, ih, outstanding_start, add_assoc]
    rfl

theorem outstanding_collectUpTo (fuel : Nat) (ws : Writes store) :
    (ws.collectUpTo fuel).outstanding = ws.outstanding := by
  induction fuel generalizing ws with
  | zero => rfl
  | succ fuel ih =>
    rw [collectUpTo]
    split
    · rfl
    · rename_i d rest hpoll
      rw [ih]
      simp only [outstanding, store.yields_once hpoll, List.map_append, ← Multiset.coe_add,
        List.map_singleton, Multiset.coe_singleton, ← Multiset.singleton_add]
      abel

theorem outstanding_next {rest} (h : ws.next = some (d, rest)) :
    ws.outstanding = d.1 ::ₘ rest.outstanding := by
  unfold next at h
  split at h
  · rename_i hdone
    cases h
    simp only [outstanding, hdone, List.map_cons, ← Multiset.cons_coe, Multiset.add_cons]
  · rename_i hdone
    obtain ⟨x, hpoll, hx⟩ := Option.map_eq_some_iff.mp h
    cases hx
    simp only [outstanding, store.yields_once hpoll, Multiset.cons_add]

end Writes

variable {τ ω α : Type}

/-- The write that an event asks for. -/
def write : Observed ω → Option Write
  | .app (.persist (.outbound n _)) => some (.outbound n)
  | .app (.persist (.watermark n)) => some (.watermark n)
  | _ => none

/-- A sequencer with what it commands, and the writes it has in flight. -/
structure Sequenced (store : SessionStore) (τ : Type) where
  core : Sequencing.Sequenced τ
  writes : Writes store

/-- A session that has just been started. -/
def Sequenced.new (store : SessionStore) (sessionId : SessionIdentifier) (resume : Resume)
    (policy : InboundPolicy) (clock : Clock) (maxInFlight : Nat) (t : τ) : Sequenced store τ :=
  ⟨fresh sessionId resume policy clock maxInFlight t, .new store⟩

/-- What happens to a session: the application and the driver call it, the store works, and
completed writes are fed back. -/
inductive Happening (store : SessionStore) (τ ω : Type) where
  | send (msg : Message)
  | sendRaw (msg : Message)
  | handled (seqNum : Nat)
  | drive (call : Call τ ω Fault Progress)
  | work (k : store.Work)
  | collect
  | feed (now : Instant)

section
variable {store : SessionStore} (target : CommandTarget τ ω)

/-- A call with the store's sink as its output: each write it asks for is started. -/
def sink (c : Call (Sequencing.Sequenced τ) (Observed ω) Fault α) :
    Call (Sequenced store τ) (Observed ω) Fault α :=
  ⟨fun p =>
    let r := c.run p.core
    ⟨⟨r.state, (r.out.filterMap write).foldl Writes.start p.writes⟩, r.out, r.result⟩⟩

def Write.report (now : Instant) : Write → SeqInput τ ω
  | .outbound n => .persisted n now
  | .watermark n => .watermarkPersisted n

/-- Feed one completed write back to the sequencer. -/
def complete (now : Instant) : Done → Call (Sequenced store τ) (Observed ω) Fault Progress
  | (w, .ok _) => sink (SeqInput.call target (w.report now))
  | (.outbound n, .error _) => do
    let e ← sink (Sequencing.Sequenced.onSeq (Sequencer.persistFailed n))
    Call.fault (.err e)
  | (.watermark n, .error e) =>
    Call.fault (.err (.persistence s!"inbound watermark {n} could not be persisted: {e}"))

/-- Wait for the next write to complete and feed it back. -/
def feedNext (now : Instant) : Call (Sequenced store τ) (Observed ω) Fault Progress := do
  let p ← Call.get
  match p.writes.next with
  | none => return .continue
  | some (d, rest) => do
    Call.modify fun p => { p with writes := rest }
    complete target now d

def Happening.step : Happening store τ ω → Call (Sequenced store τ) (Observed ω) Fault Progress
  | .send msg => sink (SeqInput.call target (.send msg))
  | .sendRaw msg => sink (SeqInput.call target (.sendRaw msg))
  | .handled n => sink (SeqInput.call target (.handled n))
  | .drive call => sink (SeqInput.call target (.drive call))
  | .work k => do
    Call.modify fun p => { p with writes.inFlight := store.work k p.writes.inFlight }
    return .continue
  | .collect => do
    Call.modify fun p => { p with writes := p.writes.collectReady }
    return .continue
  | .feed now => feedNext target now

end

/-- The completed write that a turn feeds back. -/
def fedBack {store : SessionStore}
    (t : Turn (Happening store τ ω) (Sequenced store τ) (Observed ω) Fault Progress) : Option Done :=
  match t.input with
  | .feed _ => t.before.writes.next.map Prod.fst
  | _ => none

/-- The numbers of the messages that were stored. -/
def stored (fed : List Done) : List Nat :=
  fed.filterMap fun
    | (.outbound n, .ok _) => some n
    | _ => none

/-! ## What becomes of the writes -/

/-- Where the writes are that were asked for, and what the sequencer made of those fed back. -/
structure Tracked {store : SessionStore} (o : List (Observed ω)) (fed : List Done)
    (p : Sequenced store τ) : Prop where
  balance : (↑(o.filterMap write) : Multiset Write) = ↑(fed.map Prod.fst) + p.writes.outstanding
  queued : ∃ settled, Queued p.core.seq o (stored fed) settled

variable {store : SessionStore} {target : CommandTarget τ ω} {p : Sequenced store τ}
  {o : List (Observed ω)} {fed : List Done}

/-- A call whose report, if it is one, is of a message that was stored. -/
theorem Tracked.input (h : Tracked o fed p) (i : SeqInput τ ω)
    (hi : i.reports p.core.seq ⊆ stored fed) :
    let r := (sink (i.call target)).run p
    Tracked (o ++ r.out) fed r.state := by
  intro r
  obtain ⟨settled, hq⟩ := h.queued
  obtain ⟨settled', hq'⟩ := queued_step target hq i
  refine ⟨?_, settled', hq'.mono (List.append_subset.mpr ⟨List.Subset.refl _, hi⟩)⟩
  have hstarted : r.state.writes.outstanding = p.writes.outstanding + ↑(r.out.filterMap write) :=
    Writes.outstanding_startAll p.writes _
  rw [List.filterMap_append, ← Multiset.coe_add, h.balance, hstarted, add_assoc]

theorem Tracked.next {d rest} (h : Tracked o fed p) (hnext : p.writes.next = some (d, rest)) :
    Tracked o (fed ++ [d]) ⟨p.core, rest⟩ := by
  obtain ⟨settled, hq⟩ := h.queued
  refine ⟨?_, settled, hq.mono ?_⟩
  · rw [h.balance, Writes.outstanding_next hnext, List.map_append, ← Multiset.coe_add, add_assoc]
    rfl
  · rw [stored, stored, List.filterMap_append]
    exact List.subset_append_left _ _

theorem Tracked.complete {d} (h : Tracked o fed p) (hd : d ∈ fed) (now : Instant) :
    let r := (complete target now d).run p
    Tracked (o ++ r.out) fed r.state := by
  match d with
  | (.outbound n, .ok _) =>
    refine h.input (.persisted n now) ?_
    have hn : n ∈ stored fed := List.mem_filterMap.mpr ⟨_, hd, rfl⟩
    simp only [SeqInput.reports]
    split <;> simp [hn]
  | (.watermark n, .ok _) => exact h.input (.watermarkPersisted n) (by simp [SeqInput.reports])
  | (.outbound n, .error _) =>
    -- a failed write stops the sequencer, and moves nothing in its queues
    obtain ⟨hbalance, settled, hq⟩ := h
    show Tracked (o ++ []) fed ⟨{ p.core with seq.failed := true }, p.writes⟩
    rw [List.append_nil]
    exact ⟨hbalance, settled, { hq with }⟩
  | (.watermark n, .error _) => simpa [Tokio.complete] using h

theorem Tracked.step (h : Tracked o fed p) (i : Happening store τ ω) :
    let r := (i.step target).run p
    Tracked (o ++ r.out) (fed ++ (fedBack ⟨p, i, r⟩).toList) r.state := by
  intro r
  have called (c : SeqInput τ ω) (hc : c.reports p.core.seq = []) :
      let r := (sink (c.call target)).run p
      Tracked (o ++ r.out) (fed ++ []) r.state := by
    rw [List.append_nil]
    exact h.input c (by simp [hc])
  have moved (ws : Writes store) (hws : ws.outstanding = p.writes.outstanding) :
      Tracked (o ++ []) (fed ++ []) ⟨p.core, ws⟩ := by
    rw [List.append_nil, List.append_nil]
    exact ⟨by rw [h.balance, hws], h.queued⟩
  cases i with
  | send msg => exact called (.send msg) rfl
  | sendRaw msg => exact called (.sendRaw msg) rfl
  | handled n => exact called (.handled n) rfl
  | drive call => exact called (.drive call) rfl
  | work k => exact moved ⟨_, _⟩ (by simp [Writes.outstanding, store.unfinished_work])
  | collect => exact moved _ (Writes.outstanding_collectUpTo _ _)
  | feed now =>
    simp only [r, Happening.step, feedNext, Call.run_bind, Call.run_get, Outcome.andThen_ok,
      fedBack]
    cases hnext : p.writes.next with
    | none => simpa using h
    | some taken =>
      obtain ⟨d, rest⟩ := taken
      simpa using (h.next hnext).complete (by simp) now

/-- Whenever the store completes the writes it is given, and whether they succeed or not: each
write that was asked for is fed back once or still waits to be. What the peer is sent, it is
sent in the order of its numbers, once its own write and that of every number before it were
fed back as stored. -/
theorem stored_before_sent (store : SessionStore) (target : CommandTarget τ ω)
    (sessionId : SessionIdentifier) (resume : Resume) (policy : InboundPolicy) (clock : Clock)
    (maxInFlight : Nat) (t : τ) (inputs : List (Happening store τ ω)) :
    let start := Sequenced.new store sessionId resume policy clock maxInFlight t
    let out := output (Happening.step target) start inputs
    let fed := (trace (Happening.step target) start inputs).filterMap fedBack
    (↑(out.filterMap write) : Multiset Write) = ↑(fed.map Prod.fst) +
      (final (Happening.step target) start inputs).writes.outstanding ∧
    handed out <+: (numbered out).map Prod.snd ∧
    ∀ msg ∈ handed out, ∀ n, Carries msg n →
      (.outbound n, .ok ()) ∈ fed ∧
      ∀ a ∈ numbered out, a.1 ≤ n → (.outbound a.1, .ok ()) ∈ fed := by
  intro start out fed
  obtain ⟨hbalance, settled, hq⟩ :
      Tracked out fed (final (Happening.step target) start inputs) := by
    refine run_induction (motive := fun xs p =>
      Tracked (output (Happening.step target) start xs)
        ((trace (Happening.step target) start xs).filterMap fedBack) p) _ _ inputs ?_ ?_
    · exact ⟨by simp [start, Sequenced.new, Writes.new, Writes.outstanding, store.unfinished_new],
        run_queued target sessionId resume policy clock maxInFlight t []⟩
    · intro pre i ih
      rw [output_append, trace_append, output_singleton, trace_singleton, List.filterMap_append]
      exact ih.step i
  have hstored : ∀ a ∈ settled, (.outbound a.1, .ok ()) ∈ fed := by
    intro a ha
    obtain ⟨d, hd, hn⟩ := List.mem_filterMap.mp (hq.done a ha)
    split at hn <;> cases hn
    exact hd
  refine ⟨hbalance, ?_, ?_⟩
  · rw [hq.split, List.map_append, hq.sent, List.append_assoc]
    exact List.prefix_append _ _
  · intro msg hmsg n hn
    obtain ⟨⟨m, hm⟩, hall⟩ := hq.settled_le hmsg hn
    exact ⟨hstored _ hm, fun a ha hle => hstored a (hall a ha hle)⟩

end Babelfix.Tokio
