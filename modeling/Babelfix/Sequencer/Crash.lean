import Babelfix.Sequencer.Connection
import Babelfix.Session.Wire
import Mathlib.Data.List.MinMax

/-! # Crashes

A process runs one connection after another over the same store. It may die at any
point, also in the middle of a call, and then starts again from what is stored. -/
namespace Babelfix.Sequencing
open Lib Session Sequencer

/-! ## The store and the process -/

/-- What is stored, and what the store has been asked to write. -/
structure Store where
  durable : List Nat
  watermark : Nat
  asked : List Nat
  marks : List Nat
  deriving DecidableEq, Repr

def Store.empty : Store := ⟨[], 1, [], []⟩

def Store.highest (st : Store) : Nat := st.durable.foldr max ⊥

def Store.resume (st : Store) : Resume := ⟨1 + st.highest, st.watermark⟩

def Observed.watermark {ω : Type} : Observed ω → Option Nat
  | .app (.persist (.watermark n)) => some n
  | _ => none

/-- The writes that a call asks for. -/
def Store.ask (st : Store) (o : List (Observed Noted)) : Store :=
  { st with
    asked := st.asked ++ (numbered o).map Prod.fst
    marks := st.marks ++ o.filterMap Observed.watermark }

/-- A process: its store, and the connection it has open. -/
structure Host where
  store : Store
  link : Option (Sequenced Endpoint)

def Host.new : Host := ⟨.empty, none⟩

/-- What is recorded of a run: the writes that completed, and what was put on the
wire. -/
inductive Entry where
  | stored (n : Nat)
  | wire (origin : Origin) (msg : Message)
  deriving DecidableEq, Repr

def Observed.entry : Observed Noted → Option Entry
  | .wrote (.effect (.transmit origin u)) => some (.wire origin u.msg)
  | _ => none

/-- What a call put on the wire. -/
def entries (o : List (Observed Noted)) : List Entry := o.filterMap Observed.entry

theorem entries_append (o o' : List (Observed Noted)) :
    entries (o ++ o') = entries o ++ entries o' := List.filterMap_append

theorem entries_app (o : List SeqEvent) : entries (o.map .app) = [] := by
  rw [entries, List.filterMap_map]
  exact List.filterMap_eq_nil_iff.mpr fun _ _ => rfl

inductive Happening where
  | call (i : ConnectionInput)
  /-- A write completes. The writes complete in any order. -/
  | store (n : Nat)
  | storeWatermark (n : Nat)
  /-- The process dies while it makes the call `i`, of which the first `done` effects
  have happened. -/
  | crash (i : ConnectionInput) (done : Nat)
  | restart (sessionId : SessionIdentifier) (config : SessionConfig) (policy : InboundPolicy)
    (clock : Clock) (maxInFlight : Nat)

/-- A write is reported only once it has completed. -/
def ConnectionInput.truthful (st : Store) : ConnectionInput → Bool
  | .persisted n _ => n ∈ st.durable
  | _ => true

namespace Host

def call (i : ConnectionInput) (host : Host) : Host × List Entry :=
  match host.link with
  | none => (host, [])
  | some p =>
    if i.truthful host.store then
      let r := i.call.run p
      (⟨host.store.ask r.out, some r.state⟩, entries r.out)
    else (host, [])

def written (n : Nat) (host : Host) : Host × List Entry :=
  if n ∈ host.store.asked then
    ({ host with store := { host.store with durable := host.store.durable ++ [n] } }, [.stored n])
  else (host, [])

def writtenWatermark (n : Nat) (host : Host) : Host × List Entry :=
  if n ∈ host.store.marks then
    ({ host with store := { host.store with watermark := n } }, [])
  else (host, [])

def crash (i : ConnectionInput) (done : Nat) (host : Host) : Host × List Entry :=
  match host.link with
  | none => (host, [])
  | some p =>
    if i.truthful host.store then
      let o := (i.call.run p).out.take done
      (⟨host.store.ask o, none⟩, entries o)
    else (⟨host.store, none⟩, [])

/-- Start again from what is stored. A write that has not completed by then never
will. -/
def restart (sessionId : SessionIdentifier) (config : SessionConfig) (policy : InboundPolicy)
    (clock : Clock) (maxInFlight : Nat) (host : Host) : Host × List Entry :=
  match host.link with
  | some _ => (host, [])
  | none =>
    let st := { host.store with asked := [], marks := [] }
    (⟨st, some (connection sessionId config st.resume policy clock maxInFlight)⟩, [])

end Host

def Happening.next : Happening → Host → Host × List Entry
  | .call i => Host.call i
  | .store n => Host.written n
  | .storeWatermark n => Host.writtenWatermark n
  | .crash i done => Host.crash i done
  | .restart sessionId config policy clock maxInFlight =>
    Host.restart sessionId config policy clock maxInFlight

def Happening.step (h : Happening) : Call Host Entry Fault Unit :=
  ⟨fun host => ⟨(h.next host).1, (h.next host).2, .ok ()⟩⟩

/-- What is sent goes through the sequencer, and the peer asks for everything from some
number on. -/
def ConnectionInput.Proper : ConnectionInput → Prop
  | .drive (.command (.send _) _) => False
  | .drive (.receive msg _) => OpenEnded msg
  | _ => True

def Happening.Proper : Happening → Prop
  | .call i => i.Proper
  | .crash i _ => i.Proper
  | _ => True

/-! ## The log -/

/-- A new message goes out under a number that has been stored, above everything on the
wire. -/
def Rightful (pre : List Entry) (x : Entry) : Prop :=
  ∀ msg, x = .wire .fresh msg → ∃ n, Carries msg n ∧ .stored n ∈ pre ∧
    ∀ origin m, .wire origin m ∈ pre → ∃ k, Carries m k ∧ k < n

variable {k n : Nat} {log : List Entry} {D : List Nat} {base : Nat}

/-- A log with nothing above `k` on the wire, when the numbers of `D` are stored. -/
structure Charted (D : List Nat) (log : List Entry) (k : Nat) : Prop where
  rightful : Always Rightful log
  below : ∀ origin m, .wire origin m ∈ log → ∃ n, Carries m n ∧ n ≤ k
  recorded : ∀ n ∈ D, .stored n ∈ log
  top : k = 0 ∨ k ∈ D

theorem Charted.store (h : Charted D log k) (n : Nat) :
    Charted (D ++ [n]) (log ++ [.stored n]) k := by
  refine ⟨h.rightful.concat (by rintro msg ⟨⟩), ?_, ?_, h.top.imp id (List.mem_append_left _)⟩
  · intro origin m hm
    exact h.below origin m ((List.mem_append.mp hm).resolve_right (by simp))
  · intro m hm
    simpa using (List.mem_append.mp hm).imp (h.recorded m) List.mem_singleton.mp

def onWire (x : Origin × Unstamped) : Entry := .wire x.1 x.2.msg

variable {msg : Message}

theorem Charted.wire {k' origin} (h : Charted D log k) (hle : k ≤ k') (htop : k' = k ∨ k' ∈ D)
    (hn : Carries msg n) (hk : n ≤ k') (hfresh : origin = .fresh → k < n ∧ n ∈ D) :
    Charted D (log ++ [.wire origin msg]) k' := by
  refine ⟨h.rightful.concat ?_, ?_, fun m hm => List.mem_append_left _ (h.recorded m hm),
    htop.elim (fun heq => heq ▸ h.top) .inr⟩
  · rintro _ ⟨⟩
    obtain ⟨hlt, hD⟩ := hfresh rfl
    refine ⟨n, hn, h.recorded n hD, fun origin m hm => ?_⟩
    obtain ⟨j, hj, hjk⟩ := h.below origin m hm
    exact ⟨j, hj, lt_of_le_of_lt hjk hlt⟩
  · intro origin m hm
    obtain hm | hm := List.mem_append.mp hm
    · obtain ⟨j, hj, hjk⟩ := h.below origin m hm
      exact ⟨j, hj, hjk.trans hle⟩
    · cases List.mem_singleton.mp hm
      exact ⟨n, hn, hk⟩

/-- What a session puts on the wire extends the log, also if only a first part of it
gets there. -/
theorem Charted.rising {k' xs ys} (h : Charted D log k) (hr : Rising D k xs k')
    (hys : ys <+: xs.map onWire) : Charted D (log ++ ys) k' := by
  induction ys generalizing log k xs with
  | nil =>
    rw [List.append_nil]
    refine ⟨h.rightful, ?_, h.recorded, hr.top.elim (fun heq => heq ▸ h.top) .inr⟩
    intro origin m hm
    obtain ⟨j, hj, hjk⟩ := h.below origin m hm
    exact ⟨j, hj, hjk.trans hr.le⟩
  | cons y ys ih =>
    rw [← List.singleton_append, ← List.append_assoc]
    cases hr with
    | nil => cases List.prefix_nil.mp hys
    | fresh hn hlt hD hrest =>
      obtain ⟨rfl, htail⟩ := List.cons_prefix_cons.mp hys
      exact ih (h.wire hlt.le (.inr hD) hn le_rfl fun _ => ⟨hlt, hD⟩) hrest htail
    | answer ho hn hle hrest =>
      obtain ⟨rfl, htail⟩ := List.cons_prefix_cons.mp hys
      exact ih (h.wire le_rfl (.inl rfl) hn hle fun heq => absurd heq ho) hrest htail

/-! ## The sequencer's side -/

/-- The sequencer numbers above `base`, and what it has ready is stored. -/
structure Supplied (D : List Nat) (base : Nat) (q : Sequencer) : Prop where
  next : base < q.nextOutSeqNum
  ready : ∀ msg ∈ q.ready, Given D base msg
  inFlight : ∀ e ∈ q.inFlight, Carries e.msg e.seqNum ∧ base < e.seqNum ∧
    (e.persisted = true → e.seqNum ∈ D)

variable {q : Sequencer}

theorem Supplied.move {q'} {o : List (Observed Noted)} (h : Supplied D base q) (hm : Move q q' o) :
    Supplied D base q' := by
  cases hm with
  | @number n msg hle hn =>
    have hbase : base < n := lt_of_lt_of_le h.next hle
    refine ⟨Nat.lt_succ_of_lt hbase, h.ready, ?_⟩
    intro e he
    obtain he | he := List.mem_append.mp he
    · exact h.inFlight e he
    · cases List.mem_singleton.mp he
      exact ⟨(stamped_msgSeqNum q msg).trans hn, hbase, by simp⟩
  | logOn => exact ⟨h.next, h.ready, h.inFlight⟩
  | hand hready hgo =>
    refine ⟨h.next, fun msg hmsg => h.ready msg ?_, h.inFlight⟩
    rw [hready]
    exact List.mem_cons_of_mem _ hmsg
  | aside ha ho =>
    cases ha
    exact ⟨h.next, h.ready, h.inFlight⟩

theorem Supplied.moves {q'} {o : List (Observed Noted)} (h : Supplied D base q) (hm : Moves q q' o) :
    Supplied D base q' := by
  induction hm with
  | nil => exact h
  | cons hmove _ ih => exact ih (h.move hmove)

theorem Supplied.collected (h : Supplied D base q) (hn : n ∈ D) : Supplied D base (q.collected n) := by
  have hmarked : ∀ e ∈ markPersisted n q.inFlight,
      Carries e.msg e.seqNum ∧ base < e.seqNum ∧ (e.persisted = true → e.seqNum ∈ D) := by
    intro e he
    have hpair := List.mem_map_of_mem (f := fun e : InFlight => (e.seqNum, e.msg)) he
    rw [markPersisted_map n] at hpair
    obtain ⟨e', he', hsame⟩ := List.mem_map.mp hpair
    obtain ⟨hseq, hmsg⟩ := Prod.mk.inj hsame
    obtain ⟨hreads, hbase, -⟩ := h.inFlight e' he'
    refine ⟨hseq ▸ hmsg ▸ hreads, hseq ▸ hbase, fun hp => ?_⟩
    obtain he | rfl := mem_markPersisted he
    · exact (h.inFlight e he).2.2 hp
    · exact hn
  refine ⟨h.next, ?_, fun e he => hmarked e ((List.dropWhile_sublist _).subset he)⟩
  intro msg hmsg
  obtain hmsg | hmsg := List.mem_append.mp hmsg
  · exact h.ready msg hmsg
  · obtain ⟨e, he, rfl⟩ := List.mem_map.mp hmsg
    obtain ⟨hreads, hbase, hstored⟩ := hmarked e ((List.takeWhile_sublist _).subset he)
    exact ⟨_, hreads, hbase, hstored (List.mem_takeWhile_imp he)⟩

/-! ## A connection -/

structure Linked (D : List Nat) (log : List Entry) (base : Nat) (p : Sequenced Endpoint) : Prop where
  supplied : Supplied D base p.seq
  serving : ∃ k, Serving D base k p.target ∧ Charted D log k

variable {p : Sequenced Endpoint}

/-- What goes through the sink is a first part of what the endpoint wrote. -/
theorem onTarget_entries (c : Call Endpoint Noted Fault Progress) (p : Sequenced Endpoint) :
    entries ((Sequenced.onTarget Noted.event c).run p).out <+:
      (transmissions (effects (c.run p.target).out)).map onWire := by
  generalize htotal : (transmissions (effects (c.run p.target).out)).map onWire = total
  have hrule := Sequenced.onTarget_induction
    (P := fun seen rest _ => entries seen ++ (transmissions (effects rest)).map onWire = total)
    (F := fun seen _ => entries seen <+: total) Noted.event ?_ ?_ c p htotal
  · exact hrule.1.elim (fun h => ⟨_, h⟩) id
  · intro seen x rest q hx h
    rw [← h, entries_append, List.append_assoc]
    cases x with
    | answered cmd result => rfl
    | effect e =>
      cases e with
      | event e => cases hx
      | transmit origin u => rfl
  · intro seen x e rest q r hx _ h
    have hrest : transmissions (effects (x :: rest)) = transmissions (effects rest) := by
      cases x with
      | answered cmd result => rfl
      | effect e =>
        cases e with
        | event e => rfl
        | transmit origin u => cases hx
    rw [entries_append, entries_app, List.append_nil]
    exact ⟨fun _ => hrest ▸ h, fun _ _ => ⟨_, h⟩⟩

theorem Linked.onTarget {c : Call Endpoint Noted Fault Progress} {i : EndpointInput}
    (h : Linked D log base p) (hs : (c.run p.target).state = (i.call.run p.target).state)
    (ho : effects (c.run p.target).out = (i.call.run p.target).out) (hi : i.Fits D base) :
    let r := (Sequenced.onTarget Noted.event c).run p
    Linked D (log ++ entries r.out) base r.state := by
  obtain ⟨hsup, k, hserving, hlog⟩ := h
  obtain ⟨k', hserving, hr⟩ := hserving.acted (acted_spec i p.target) hi
  refine ⟨hsup.moves (Sequenced.onTarget_moves _ c p), k', ?_, hlog.rising hr ?_⟩
  · rw [Sequenced.onTarget_target, hs]
    exact hserving
  · rw [← ho]
    exact onTarget_entries c p

theorem Linked.release (now : Instant) (h : Linked D log base p) :
    let r := (Sequenced.release endpointTarget now).run p
    Linked D (log ++ entries r.out) base r.state := by
  refine Sequenced.release_observed endpointTarget (J := fun o p => Linked D (log ++ entries o) base p)
    now ?_ p (by simpa [entries] using h)
  intro o q e msg rest hready hgo hJ
  have hgiven : Given D base msg := hJ.supplied.ready msg (by
    rw [hready]
    exact List.mem_cons_self)
  have hpopped : Linked D (log ++ entries o) base ⟨{ q with ready := rest }, e⟩ :=
    ⟨hJ.supplied.move (.hand hready hgo), hJ.serving⟩
  have hnext := hpopped.onTarget (c := endpointTarget.onCommand (.send msg) now)
    (i := .command (.send msg) now) rfl (effects_map _) hgiven
  have hrun : (Sequenced.handOver endpointTarget msg now).run ⟨{ q with ready := rest }, e⟩ =
      ((Sequenced.onTarget Noted.event (endpointTarget.onCommand (.send msg) now)).run
        ⟨{ q with ready := rest }, e⟩).prepend [.handed msg] := rfl
  rw [hrun, Outcome.prepend_out, Outcome.prepend_state, entries_append, ← List.append_assoc]
  exact hnext

theorem Linked.quietly {α : Type} (c : SeqOp α) (h : Linked D log base p)
    (hm : Moves (ω := Noted) p.seq (c.run p.seq).state ((c.run p.seq).out.map .app)) :
    let r := (Sequenced.quietly (ω := Noted) c).run p
    Linked D (log ++ entries r.out) base r.state := by
  rw [Sequenced.run_quietly]
  dsimp only
  rw [entries_app, List.append_nil]
  exact ⟨h.supplied.moves hm, h.serving⟩

/-- **Every call on a connection.** -/
theorem Linked.call {st} (i : ConnectionInput) (h : Linked st.durable log base p) (hi : i.Proper)
    (htrue : i.truthful st = true) :
    Linked st.durable (log ++ entries (i.call.run p).out) base (i.call.run p).state := by
  cases i with
  | drive i =>
    refine h.onTarget (c := noted i.call) (i := i) rfl (effects_map _) ?_
    cases i with
    | receive msg now => exact hi
    | command cmd now =>
      cases cmd with
      | send msg => exact hi.elim
      | _ => trivial
    | _ => trivial
  | send msg => exact h.quietly _ (send_spec msg p.seq).moves
  | sendRaw msg => exact h.quietly _ (sendRaw_spec msg p.seq).moves
  | handled n => exact h.quietly _ (handled_spec n p.seq).moves
  | watermarkPersisted n => exact h.quietly _ (onWatermarkPersisted_spec n p.seq).moves
  | release now => exact h.release now
  | persisted n now =>
    have hspec := Sequenced.persisted_spec endpointTarget n now p
    show Linked _ (log ++ entries ((Sequenced.persisted endpointTarget n now).run p).out) base
      ((Sequenced.persisted endpointTarget n now).run p).state
    generalize (Sequenced.persisted endpointTarget n now).run p = r at hspec ⊢
    cases hspec with
    | refused => simpa [entries] using h
    | noted hlive he hseq =>
      exact Linked.release now ⟨h.supplied.collected (of_decide_eq_true htrue), h.serving⟩

theorem Linked.store (h : Linked D log base p) (n : Nat) :
    Linked (D ++ [n]) (log ++ [.stored n]) base p := by
  obtain ⟨⟨hnext, hready, hflight⟩, k, ⟨hf, hidle⟩, hlog⟩ := h
  refine ⟨⟨hnext, fun msg hmsg => ?_, fun e he => ?_⟩, k,
    ⟨⟨hf.sent, hf.top, hf.range, hf.queue, fun msg hmsg => ?_⟩, hidle⟩, hlog.store n⟩
  · obtain ⟨m, hm, hbase, hD⟩ := hready msg hmsg
    exact ⟨m, hm, hbase, List.mem_append_left _ hD⟩
  · obtain ⟨hreads, hbase, hD⟩ := hflight e he
    exact ⟨hreads, hbase, fun hp => List.mem_append_left _ (hD hp)⟩
  · obtain ⟨m, hm, hk, hle, hD⟩ := hf.held msg hmsg
    exact ⟨m, hm, hk, hle, List.mem_append_left _ hD⟩

/-- A new connection starts above everything that is stored. -/
theorem linked_connection (st : Store) (sessionId : SessionIdentifier) (config : SessionConfig)
    (policy : InboundPolicy) (clock : Clock) (maxInFlight : Nat) (h : Charted st.durable log k) :
    Linked st.durable log st.highest
      (connection sessionId config st.resume policy clock maxInFlight) := by
  have hk : k ≤ st.highest := by
    obtain rfl | hD := h.top
    · exact Nat.zero_le _
    · exact List.le_max_of_le hD le_rfl
  refine ⟨⟨?_, by rintro _ ⟨⟩, by rintro _ ⟨⟩⟩, k, ⟨fenced_new _ _ _ _ hk, fun _ => hk⟩, h⟩
  show st.highest < 1 + st.highest
  omega

/-! ## Runs with crashes -/

/-- The process is where its log says. -/
inductive Safe : Host → List Entry → Prop
  | down {st log k} (h : Charted st.durable log k) : Safe ⟨st, none⟩ log
  | up {st log base p} (h : Linked st.durable log base p) : Safe ⟨st, some p⟩ log

/-- **Whatever happens, the log stays right.** -/
theorem safe_step {host} (x : Happening) (h : Safe host log) (hx : x.Proper) :
    Safe (x.next host).1 (log ++ (x.next host).2) := by
  have hsame : Safe host (log ++ []) := by rwa [List.append_nil]
  cases x with
  | call i =>
    cases h with
    | down h => exact hsame
    | @up st log base p h =>
      show Safe (Host.call i ⟨st, some p⟩).1 (log ++ (Host.call i ⟨st, some p⟩).2)
      unfold Host.call
      dsimp only
      split
      · exact .up (h.call i hx ‹_›)
      · exact hsame
  | crash i done =>
    cases h with
    | down h => exact hsame
    | @up st log base p h =>
      obtain ⟨k, -, hlog⟩ := h.serving
      show Safe (Host.crash i done ⟨st, some p⟩).1 (log ++ (Host.crash i done ⟨st, some p⟩).2)
      unfold Host.crash
      dsimp only
      split
      · -- what the whole call would have left is more than what is there
        obtain ⟨-, k', -, hall⟩ := h.call i hx ‹_›
        rw [← List.take_append_drop done (i.call.run p).out, entries_append, ← List.append_assoc]
          at hall
        exact .down ⟨hall.rightful.of_append, fun origin m hm => hall.below origin m
          (List.mem_append_left _ hm), fun n hn => List.mem_append_left _ (hlog.recorded n hn),
          hall.top⟩
      · rw [List.append_nil]
        exact .down hlog
  | store n =>
    show Safe (host.written n).1 (log ++ (host.written n).2)
    unfold Host.written
    split
    · cases h with
      | down h => exact .down (h.store n)
      | up h => exact .up (h.store n)
    · exact hsame
  | storeWatermark n =>
    show Safe (host.writtenWatermark n).1 (log ++ (host.writtenWatermark n).2)
    unfold Host.writtenWatermark
    rw [← List.append_nil log] at h
    split
    · cases h with
      | down h => exact .down h
      | up h => exact .up h
    · exact hsame
  | restart sessionId config policy clock maxInFlight =>
    cases h with
    | @down st log k h =>
      rw [← List.append_nil log] at h
      exact .up (linked_connection { st with asked := [], marks := [] } sessionId config policy clock
        maxInFlight h)
    | up h => exact hsame

theorem run_safe (xs : List Happening) (hxs : ∀ x ∈ xs, x.Proper) :
    Safe (final Happening.step Host.new xs) (output Happening.step Host.new xs) := by
  refine run_induction (motive := fun xs host => (∀ x ∈ xs, x.Proper) →
    Safe host (output Happening.step Host.new xs)) Happening.step Host.new xs ?_ ?_ hxs
  · intro _
    exact .down ⟨always_nil, by rintro _ _ ⟨⟩, by rintro _ ⟨⟩, .inl rfl⟩
  · intro pre x ih hall
    rw [output_append, output_singleton]
    exact safe_step x (ih fun y hy => hall y (List.mem_append_left _ hy))
      (hall x (List.mem_append_right _ List.mem_cons_self))

theorem Safe.rightful {host} (h : Safe host log) : Always Rightful log := by
  cases h with
  | down h => exact h.rightful
  | up h =>
    obtain ⟨-, k, -, hlog⟩ := h
    exact hlog.rightful

/-- **Crash safety.** Across all connections of a process that may die at any point and
starts again from its store, every new message that reaches the wire has had its number
stored before, under a number that no new message had before it; and the number is
above everything on the wire before it, which is so in particular for the Logon of each
connection. -/
theorem crash_safety (xs : List Happening) (hxs : ∀ x ∈ xs, x.Proper) (pre post : List Entry)
    (msg : Message) (hlog : output Happening.step Host.new xs = pre ++ .wire .fresh msg :: post) :
    ∃ n, Carries msg n ∧ .stored n ∈ pre ∧
      (∀ m, .wire .fresh m ∈ pre → m.header.req Fields.msgSeqNum ≠ .ok n) ∧
      ∀ origin m, .wire origin m ∈ pre → ∃ k, Carries m k ∧ k < n := by
  obtain ⟨n, hn, hstored, habove⟩ := (run_safe xs hxs).rightful pre _ post hlog msg rfl
  refine ⟨n, hn, hstored, ?_, habove⟩
  intro m hm hsame
  obtain ⟨k, hk, hlt⟩ := habove .fresh m hm
  cases hsame.symm.trans hk
  exact absurd hlt (Nat.lt_irrefl n)

namespace Sample

/-- Our Logon goes out; an order is numbered and stored, another is only numbered; the
process dies before either is sent, and its next connection starts at number 3. -/
def dying : List Happening :=
  let restart := Happening.restart Session.Sample.sessionId Session.Sample.config .onDelivery clock
    1024
  let order := Message.new "FIX.4.4" "D"
  [restart, .call (.drive (.initiate 10 0)), .store 1, .call (.persisted 1 0),
    .call (.send order), .call (.send order), .store 2, .crash (.release 0) 0, restart,
    .call (.drive (.initiate 10 0)), .store 3, .call (.persisted 3 0)]

def secondLogon : Message :=
  { SessionState.logonMessage Session.Sample.config with
    header := [.field 34 (writeUint 3), .field 49 (ascii "US"), .field 56 (ascii "THEM"),
      .field 52 (clock.read 0)] }

end Sample

theorem crash_safety_dying :
    let log := output Happening.step Host.new Sample.dying
    log = log.take 4 ++ [.wire .fresh Sample.secondLogon] ∧
      ∃ n, Carries Sample.secondLogon n ∧ .stored n ∈ log.take 4 ∧
        (∀ m, .wire .fresh m ∈ log.take 4 → m.header.req Fields.msgSeqNum ≠ .ok n) ∧
        ∀ origin m, .wire origin m ∈ log.take 4 →
          ∃ k, Carries m k ∧ k < n := by
  intro log
  have hlog : log = log.take 4 ++ [.wire .fresh Sample.secondLogon] := by decide +kernel
  refine ⟨hlog, crash_safety Sample.dying ?_ (log.take 4) [] Sample.secondLogon hlog⟩
  intro x hx
  simp only [Sample.dying, List.mem_cons, List.not_mem_nil, or_false] at hx
  rcases hx with rfl | rfl | rfl | rfl | rfl | rfl | rfl | rfl | rfl | rfl | rfl | rfl <;>
    trivial

end Babelfix.Sequencing
