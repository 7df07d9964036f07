import Babelfix.Sequencer.Connection

/-! # No persisted message is stranded

Once the session is logged on and every write has been reported, nothing is left
waiting in the sequencer: whatever made it ready, or made the session log on, also
released it, or asked for another write whose report will. The exception is a
session that is already closing when it logs on. -/
namespace Babelfix.Sequencing
open Lib Session Sequencer

/-- What goes on while messages are being released. -/
structure Flowing (q : Sequencer) (e : Endpoint) : Prop where
  seen : e.session.isLoggedOn = true → q.loggedOn = true
  /-- The Logout of a closing session is still on its way to the wire. -/
  logout : e.session.closing.isSome → ∃ msg, msg.msgType = "5" ∧
    (msg ∈ pipeline q ∨ msg ∈ queued e.session)

/-- What holds between calls. -/
structure Settled (q : Sequencer) (e : Endpoint) : Prop extends Flowing q e where
  released : q.loggedOn = true → q.ready = [] ∨ q.inFlight ≠ []

/-! ## The sequencer alone -/

/-- A sequencer that has numbered more and is otherwise where it was. -/
structure Grown (q q' : Sequencer) : Prop where
  ready : q'.ready = q.ready
  inFlight : q.inFlight <+: q'.inFlight
  loggedOn : q'.loggedOn = q.loggedOn

variable {q q' : Sequencer} {msg : Message}

theorem Grown.mem_pipeline (h : Grown q q') (hmsg : msg ∈ pipeline q) : msg ∈ pipeline q' := by
  rw [pipeline] at hmsg ⊢
  rw [h.ready]
  rcases List.mem_append.mp hmsg with hmsg | hmsg
  · exact List.mem_append_left _ hmsg
  · exact List.mem_append_right _ ((h.inFlight.map InFlight.msg).subset hmsg)

theorem Grown.ne_nil (h : Grown q q') (hne : q.inFlight ≠ []) :
    q'.inFlight ≠ [] := by
  intro hnil
  have hpre := h.inFlight
  rw [hnil] at hpre
  exact hne (List.prefix_nil.mp hpre)

theorem Sequencer.Aside.grown (h : Aside q q') : Grown q q' := by
  cases h
  exact ⟨rfl, List.prefix_refl _, rfl⟩

theorem awaiting_grown (q : Sequencer) (n : Nat) (msg : Message) : Grown q (q.awaiting n msg) :=
  ⟨rfl, List.prefix_append _ _, rfl⟩

theorem Sequencer.Assigned.grown {r} (h : Assigned msg q r) : Grown q r.state := by
  cases h with
  | numbered _ _ => exact awaiting_grown q _ _
  | _ => exact ⟨rfl, List.prefix_refl _, rfl⟩

variable {e : Endpoint}

theorem Flowing.grown (h : Flowing q e) (hg : Grown q q') :
    Flowing q' e := by
  refine ⟨?_, ?_⟩
  · rw [hg.loggedOn]
    exact h.seen
  · intro hc
    obtain ⟨msg, h5, hmsg⟩ := h.logout hc
    exact ⟨msg, h5, hmsg.imp_left hg.mem_pipeline⟩

theorem Settled.grown (h : Settled q e) (hg : Grown q q') :
    Settled q' e := by
  refine ⟨h.toFlowing.grown hg, ?_⟩
  rw [hg.loggedOn, hg.ready]
  intro hl
  exact (h.released hl).imp_right hg.ne_nil

/-! ## The endpoint's events -/

/-- What has become of a call's output `o` when `rest` of it is still to come. -/
structure Absorbed (q : Sequencer) (o rest : List Effect) (q' : Sequencer) : Prop where
  coming : rest <:+ o
  ready : q'.ready = q.ready
  kept : ∀ msg ∈ pipeline q, msg ∈ pipeline q'
  waiting : q.inFlight ≠ [] ∨ requests o ≠ [] → q'.inFlight ≠ [] ∨ requests rest ≠ []
  asked : ∀ msg ∈ requests o, (∃ m ∈ pipeline q', m.msgType = msg.msgType) ∨ msg ∈ requests rest
  told : q.loggedOn = true ∨ Announced o → q'.loggedOn = true ∨ Announced rest
  nothingElse : q'.loggedOn = true → q.loggedOn = true ∨ Announced o

theorem absorbed_start (q : Sequencer) (o : List Effect) : Absorbed q o o q :=
  ⟨List.suffix_refl _, rfl, fun _ h => h, id, fun _ h => .inr h, id, .inl⟩

variable {α : Type}

theorem suffix_tail {x : α} {rest o : List α} (h : x :: rest <:+ o) : rest <:+ o :=
  (List.suffix_cons x rest).trans h

variable {o : List Effect}

theorem Absorbed.grow {q'' : Sequencer} {rest : List Effect} {x : Effect} (h : Absorbed q o (x :: rest) q')
    (hg : Grown q' q'') (hr : requested x = none) (hl : x ≠ .event .loggedOn) : Absorbed q o rest q'' := by
  have hrest : requests (x :: rest) = requests rest := by
    rw [requests, requests, List.filterMap_cons, hr]
  refine ⟨suffix_tail h.coming, hg.ready.trans h.ready,
    fun m hm => hg.mem_pipeline (h.kept m hm), ?_, ?_, ?_, ?_⟩
  · intro hw
    rw [← hrest]
    exact (h.waiting hw).imp_left hg.ne_nil
  · intro msg hmsg
    rw [← hrest]
    refine (h.asked msg hmsg).imp_left ?_
    intro hm
    obtain ⟨m, hm, htype⟩ := hm
    exact ⟨m, hg.mem_pipeline hm, htype⟩
  · intro ht
    rw [hg.loggedOn]
    exact (h.told ht).imp_right fun ha => (List.mem_cons.mp ha).resolve_left (Ne.symm hl)
  · rw [hg.loggedOn]
    exact h.nothingElse

theorem absorbed_event {rest : List Effect} {e : Event} {r : Outcome Sequencer SeqEvent Fault Unit}
    (hi : Intercepted e q' r) (hok : r.result = .ok ()) (h : Absorbed q o (.event e :: rest) q') :
    Absorbed q o rest r.state := by
  cases hi with
  | @asked msg n r he ha hr =>
    subst he
    cases ha with
    | failed _ => cases hr
    | overflow _ _ => cases hr
    | numbered hlive hmax =>
      have hg := awaiting_grown q' q'.nextOutSeqNum (q'.numbered msg)
      have hlast : q'.stamped (q'.numbered msg) ∈
          pipeline (q'.awaiting q'.nextOutSeqNum (q'.numbered msg)) := by
        rw [pipeline_awaiting]
        exact List.mem_append_right _ (List.mem_singleton.mpr rfl)
      refine ⟨suffix_tail h.coming, h.ready, fun m hm => hg.mem_pipeline (h.kept m hm), ?_, ?_, ?_,
        h.nothingElse⟩
      · intro _
        simp [awaiting]
      · intro m hm
        rcases h.asked m hm with ⟨m', hm', htype⟩ | hm
        · exact .inl ⟨m', hg.mem_pipeline hm', htype⟩
        · rw [requests_request, List.mem_cons] at hm
          rcases hm with rfl | hm
          · exact .inl ⟨_, hlast, rfl⟩
          · exact .inr hm
      · intro ht
        exact (h.told ht).imp_right fun hann => (List.mem_cons.mp hann).resolve_left (by simp)
  | loggedOn he =>
    subst he
    exact ⟨suffix_tail h.coming, h.ready, h.kept, h.waiting, h.asked, fun _ => .inl rfl,
      fun _ => .inr (h.coming.subset List.mem_cons_self)⟩
  | passed hno hl hw hr =>
    refine h.grow hw.aside.grown ?_ ?_
    · cases e with
      | adminSendRequired msg => exact absurd rfl (hno msg)
      | _ => rfl
    · intro heq
      cases heq
      exact hl rfl
  | _ => cases hok

theorem absorbed_onTarget (c : Call Endpoint Noted Fault α) (p : Sequenced Endpoint) {a}
    (hok : ((Sequenced.onTarget Noted.event c).run p).result = .ok a) :
    Absorbed p.seq (effects (c.run p.target).out) []
        ((Sequenced.onTarget Noted.event c).run p).state.seq ∧
      (c.run p.target).result = .ok a := by
  obtain ⟨-, hrule⟩ := onEndpoint_induction
    (P := fun rest q => Absorbed p.seq (effects (c.run p.target).out) rest q) (F := fun _ => True)
    (fun _ _ _ _ h => h.grow ⟨rfl, List.prefix_refl _, rfl⟩ rfl (by simp))
    (fun _ _ _ _ hi h => ⟨fun hr => absorbed_event hi hr h, fun _ _ => trivial⟩)
    c p (absorbed_start _ _)
  exact hrule a hok

/-! ## Driving the endpoint -/

theorem Settled.drive {e'} (h : Settled q e) (ha : Absorbed q o [] q')
    (hw : Woken e.session e'.session o)
    (hcond : e.session.isLoggedOn = false → e'.session.isLoggedOn = true →
      e'.session.closing = none) : Settled q' e' := by
  have htold : q.loggedOn = true ∨ Announced o → q'.loggedOn = true := by
    intro ht
    exact (ha.told ht).resolve_right (by simp [Announced])
  have hwaiting : q.inFlight ≠ [] ∨ requests o ≠ [] → q'.inFlight ≠ [] := by
    intro hne
    exact (ha.waiting hne).resolve_right (by simp)
  -- logging on without closing is announced, and something is asked for
  have hfresh : e.session.isLoggedOn = false → e'.session.isLoggedOn = true →
      Announced o ∧ requests o ≠ [] := by
    intro hoff hon
    rcases hw.awake hon with hold | hawake
    · rw [hoff] at hold
      cases hold
    · exact hawake (hcond hoff hon)
  refine ⟨⟨?_, ?_⟩, ?_⟩
  · intro hon
    cases hoff : e.session.isLoggedOn with
    | true => exact htold (.inl (h.seen hoff))
    | false => exact htold (.inr (hfresh hoff hon).1)
  · intro hc
    rcases hw.logout hc with ⟨msg, hmsg, h5⟩ | ⟨hold, hstay⟩
    · rcases ha.asked msg hmsg with ⟨m, hm, htype⟩ | hm
      · exact ⟨m, htype.trans h5, .inl hm⟩
      · cases hm
    · obtain ⟨msg, h5, hmsg⟩ := h.logout hold
      exact ⟨msg, h5, hmsg.imp (ha.kept msg) (fun hm => hstay msg hm h5)⟩
  · intro hl
    have hkept : q.loggedOn = true → q'.ready = [] ∨ q'.inFlight ≠ [] := by
      intro hq
      rw [ha.ready]
      exact (h.released hq).imp_right fun hne => hwaiting (.inl hne)
    rcases ha.nothingElse hl with hq | hann
    · exact hkept hq
    · cases hoff : e.session.isLoggedOn with
      | true => exact hkept (h.seen hoff)
      | false => exact .inr (hwaiting (.inr (hfresh hoff (hw.announced hann)).2))

/-! ## Handing a message over -/

theorem flowing_handOver (now : Instant) {rest} (h : Flowing q e) (hready : q.ready = msg :: rest)
    (hok : ((Sequenced.handOver endpointTarget msg now).run
      ⟨{ q with ready := rest }, e⟩).result = .ok .continue) :
    let r := (Sequenced.handOver endpointTarget msg now).run ⟨{ q with ready := rest }, e⟩
    Flowing r.state.seq r.state.target := by
  intro r
  have hpipe : pipeline q = msg :: pipeline { q with ready := rest } := by
    simp [pipeline, hready]
  obtain ⟨habsorbed, hanswer⟩ := absorbed_onTarget (endpointTarget.onCommand (.send msg) now)
    ⟨{ q with ready := rest }, e⟩ hok
  have hphase : e.phase ≠ .idle := by
    intro hidle
    have hclose : ((Endpoint.command (.send msg) now).run e).result = .ok .close := by
      simp [Endpoint.command, hidle]
    have hcontinue : ((Endpoint.command (.send msg) now).run e).result = .ok .continue := hanswer
    rw [hclose] at hcontinue
    cases hcontinue
  have hcommand := run_command_send msg now hphase
  rw [Endpoint.run_onSession] at hcommand
  have hs := SessionState.send_spec msg now e.session
  generalize (SessionState.send msg now).run e.session = rs at hs hcommand
  have hrun : (endpointTarget.onCommand (.send msg) now).run e = ⟨⟨e.phase, rs.state⟩,
      .answered (.send msg) rs.result :: rs.out.map .effect, rs.result⟩ := by
    show Outcome.mk _ _ _ = _
    rw [hcommand]
  have htarget : r.state.target = ⟨e.phase, rs.state⟩ := by
    have hmoved := Sequenced.onTarget_target Noted.event (endpointTarget.onCommand (.send msg) now)
      ⟨{ q with ready := rest }, e⟩
    rw [hrun] at hmoved
    exact hmoved
  have habsorbed : Absorbed { q with ready := rest } rs.out [] r.state.seq := by
    rw [hrun, effects_answered, effects_map] at habsorbed
    exact habsorbed
  obtain ⟨hon, hclosing, hstay, hlast⟩ := hs.woken (by rw [hrun] at hanswer; exact hanswer)
  have htold : q.loggedOn = true ∨ Announced rs.out → r.state.seq.loggedOn = true := by
    intro ht
    exact (habsorbed.told ht).resolve_right (by simp [Announced])
  rw [htarget]
  refine ⟨?_, ?_⟩
  · intro hon'
    exact htold ((hon hon').imp_left h.seen)
  · intro hc
    have hc' : e.session.closing.isSome := by
      rw [← hclosing]
      exact hc
    obtain ⟨m, h5, hm⟩ := h.logout hc'
    refine ⟨m, h5, ?_⟩
    rcases hm with hm | hm
    · rw [hpipe, List.mem_cons] at hm
      rcases hm with rfl | hm
      · exact .inr (hlast h5)
      · exact .inl (habsorbed.kept m hm)
    · exact .inr (hstay m hm h5)

/-! ## Whole runs -/

/-- A call that releases what is ready. -/
def ConnectionInput.Releases : ConnectionInput → Prop
  | .persisted _ _ => True
  | .release _ => True
  | _ => False

/-- New messages reach the session only through the sequencer. -/
def ConnectionInput.ThroughSequencer : ConnectionInput → Prop
  | .drive (.command (.send _) _) => False
  | _ => True

variable {p : Sequenced Endpoint}

theorem settled_release (now : Instant) (h : Flowing p.seq p.target)
    (hok : ((Sequenced.release endpointTarget now).run p).result = .ok .continue) :
    let r := (Sequenced.release endpointTarget now).run p
    Settled r.state.seq r.state.target := by
  obtain ⟨hgoes, -⟩ := Sequenced.releaseUpTo_induction endpointTarget
    (I := fun _ p => Flowing p.seq p.target) (J := fun _ _ => True) now
    (fun _ _ _ _ _ hready _ h => ⟨flowing_handOver now h hready, fun _ => trivial⟩)
    p.seq.ready.length [] p h le_rfl
  obtain ⟨hflow, hend⟩ := hgoes hok
  intro r
  refine ⟨hflow, ?_⟩
  intro hl
  left
  cases hready : r.state.seq.ready with
  | nil => rfl
  | cons msg rest => exact absurd (.inl hl) (hend msg rest hready)

theorem settled_quietly {c : SeqOp α} (h : Settled p.seq p.target) (hg : Grown p.seq (c.run p.seq).state) :
    let r := (Sequenced.quietly (ω := Noted) c).run p
    Settled r.state.seq r.state.target := by
  rw [Sequenced.run_quietly]
  exact h.grown hg

theorem Flowing.collected (h : Flowing q e) (n : Nat) :
    Flowing (q.collected n) e := by
  refine ⟨h.seen, ?_⟩
  rw [pipeline_collected]
  exact h.logout

theorem settled_step (i : ConnectionInput) (h : Settled p.seq p.target) (hi : i.ThroughSequencer)
    (hok : (i.call.run p).result = .ok .continue) (hcond : p.target.session.isLoggedOn = false →
      (i.call.run p).state.target.session.isLoggedOn = true →
      (i.call.run p).state.target.session.closing = none ∨ i.Releases) :
    Settled (i.call.run p).state.seq (i.call.run p).state.target := by
  cases i with
  | drive i =>
    have hsend : ∀ msg now, i ≠ .command (.send msg) now := by
      intro msg now heq
      subst heq
      exact hi
    obtain ⟨habsorbed, hresult⟩ := absorbed_onTarget (noted i.call) p hok
    have htarget : ((ConnectionInput.drive i).call.run p).state.target =
        (i.call.run p.target).state := Sequenced.onTarget_target _ (noted i.call) p
    have hwoken := (acted_spec i p.target).woken hsend hresult
    have habsorbed : Absorbed p.seq (i.call.run p.target).out []
        ((ConnectionInput.drive i).call.run p).state.seq := by
      have hmap : effects ((noted i.call).run p.target).out = (i.call.run p.target).out :=
        effects_map _
      rw [← hmap]
      exact habsorbed
    rw [htarget] at hcond ⊢
    refine h.drive habsorbed hwoken ?_
    intro hoff hon
    exact (hcond hoff hon).resolve_right id
  | send msg =>
    refine settled_quietly h ?_
    have hout := send_spec msg p.seq
    generalize (Sequencer.send msg).run p.seq = r at hout ⊢
    cases hout with
    | busy hb => exact ⟨rfl, List.prefix_refl _, rfl⟩
    | assigned ha => exact ha.grown
  | sendRaw msg =>
    refine settled_quietly h ?_
    have hout := sendRaw_spec msg p.seq
    generalize (Sequencer.sendRaw msg).run p.seq = r at hout ⊢
    cases hout with
    | numbered _ _ _ _ => exact awaiting_grown _ _ _
    | _ => exact ⟨rfl, List.prefix_refl _, rfl⟩
  | handled n => exact settled_quietly h (handled_spec n p.seq).aside.grown
  | watermarkPersisted n => exact settled_quietly h (onWatermarkPersisted_spec n p.seq).aside.grown
  | release now => exact settled_release now h.toFlowing hok
  | persisted n now =>
    have hreport := Sequenced.persisted_spec endpointTarget n now p
    have hcall : (ConnectionInput.persisted n now).call.run p =
        (Sequenced.persisted endpointTarget n now).run p := rfl
    rw [hcall] at hok ⊢
    generalize (Sequenced.persisted endpointTarget n now).run p = r at hreport hok ⊢
    cases hreport with
    | refused => cases hok
    | noted hlive he hn => exact settled_release now (h.toFlowing.collected n) hok

/-- **Nothing persisted is stranded.** Along a run in which every call went well, and
in which the session was not closing already when it logged on, unless it logged on
in the middle of a release: once it is logged on and no write is outstanding, nothing
is left to be sent; and if the session has asked for a Logout, it has been handed to
the session, which holds it back for a replay that is still going on. -/
theorem nothing_stranded (sessionId : SessionIdentifier) (config : SessionConfig)
    (resume : Resume) (policy : InboundPolicy) (clock : Clock) (maxInFlight : Nat)
    (inputs : List ConnectionInput) (hinputs : ∀ i ∈ inputs, i.ThroughSequencer)
    (hok : ∀ t ∈ trace ConnectionInput.call
        (connection sessionId config resume policy clock maxInFlight) inputs,
      t.outcome.result = .ok .continue)
    (hcond : ∀ t ∈ trace ConnectionInput.call
        (connection sessionId config resume policy clock maxInFlight) inputs,
      t.before.target.session.isLoggedOn = false →
      t.outcome.state.target.session.isLoggedOn = true →
      t.outcome.state.target.session.closing = none ∨ t.input.Releases) :
    let p := final ConnectionInput.call
      (connection sessionId config resume policy clock maxInFlight) inputs
    p.target.session.isLoggedOn = true → p.seq.inFlight = [] →
      p.seq.ready = [] ∧ (p.target.session.closing.isSome →
        ∃ replay, p.target.session.replay = some replay ∧
          ∃ msg ∈ replay.queue, msg.msgType = "5") := by
  have hrun : ∀ p : Sequenced Endpoint, Settled p.seq p.target →
      (∀ i ∈ inputs, i.ThroughSequencer) →
      (∀ t ∈ trace ConnectionInput.call p inputs, t.outcome.result = .ok .continue) →
      (∀ t ∈ trace ConnectionInput.call p inputs,
        t.before.target.session.isLoggedOn = false →
        t.outcome.state.target.session.isLoggedOn = true →
        t.outcome.state.target.session.closing = none ∨ t.input.Releases) →
      Settled (final ConnectionInput.call p inputs).seq
        (final ConnectionInput.call p inputs).target := by
    clear hinputs hok hcond
    induction inputs with
    | nil => exact fun p hp _ _ _ => hp
    | cons i rest ih =>
      intro p hp hinputs hok hcond
      have hnext := settled_step i hp (hinputs i List.mem_cons_self)
        (hok ⟨p, i, i.call.run p⟩ List.mem_cons_self)
        (hcond ⟨p, i, i.call.run p⟩ List.mem_cons_self)
      exact ih _ hnext (fun j hj => hinputs j (List.mem_cons_of_mem _ hj))
        (fun t ht => hok t (List.mem_cons_of_mem _ ht))
        (fun t ht => hcond t (List.mem_cons_of_mem _ ht))
  have hstart : Settled (connection sessionId config resume policy clock maxInFlight).seq
      (connection sessionId config resume policy clock maxInFlight).target := by
    refine ⟨⟨?_, ?_⟩, ?_⟩
    · intro hon
      cases hon
    · intro hc
      cases hc
    · intro hl
      cases hl
  intro p hon hwrites
  have hp : Settled p.seq p.target := hrun _ hstart hinputs hok hcond
  have hready : p.seq.ready = [] := (hp.released (hp.seen hon)).resolve_right (by simp [hwrites])
  refine ⟨hready, ?_⟩
  intro hc
  obtain ⟨msg, h5, hmsg⟩ := hp.logout hc
  rw [pipeline, hready, hwrites] at hmsg
  have hqueued : msg ∈ queued p.target.session := hmsg.resolve_left (by simp)
  cases hreplay : p.target.session.replay with
  | none =>
    rw [queued, hreplay] at hqueued
    cases hqueued
  | some replay =>
    rw [queued, hreplay] at hqueued
    exact ⟨replay, rfl, msg, hqueued, h5⟩

namespace Sample

/-- A connection on which number 5 is expected from the peer. -/
def resumed : Sequenced Endpoint :=
  connection Session.Sample.sessionId Session.Sample.config ⟨1, 5⟩ .onDelivery clock 1024

/-- The initiator is answered with a Logon whose number is too low. -/
def refusedLogon : List ConnectionInput :=
  [.drive (.initiate 10 0), .persisted 1 0, .drive (.receive (Session.Sample.numbered "A" 3) 0),
    .persisted 2 0]

/-- The Logon that opens the acceptor's session. -/
def peerLogon : Message :=
  { Session.Sample.numbered "A" 1 with
    header := [.field 34 (writeUint 1), .field 49 (ascii "THEM"), .field 56 (ascii "US")] }

/-- The acceptor is asked for a resend before its Logon is out, and disconnects before
the replay is over. -/
def closingLogon : List ConnectionInput :=
  [.drive (.receive peerLogon 0), .drive (.receive (resendRequest 2 1 0) 0), .persisted 1 0,
    .persisted 2 0, .drive (.command .disconnect 0), .persisted 3 0,
    .drive (.command .replayComplete 0)]

/-- The application disconnects while a replay is going on. -/
def heldLogout : List ConnectionInput :=
  loggingOn ++ [.drive (.receive (resendRequest 2 1 0) 0), .drive (.command .disconnect 0),
    .persisted 3 0]

/-- Every call of a run went well. -/
def wentWell (p : Sequenced Endpoint) (inputs : List ConnectionInput) : Bool :=
  (trace ConnectionInput.call p inputs).all fun t => t.outcome.result = .ok .continue

/-- Whether the session is logged on, the numbers whose writes are outstanding, and the
types of what is ready to go. -/
def standing (p : Sequenced Endpoint) : Bool × List Nat × List String :=
  (p.target.session.isLoggedOn, p.seq.inFlight.map InFlight.seqNum,
    p.seq.ready.map Message.msgType)

/-- The types of what is on the wire. -/
def onTheWire (o : List (Observed Noted)) : List String :=
  o.filterMap fun
    | .wrote (.effect (.transmit _ u)) => some u.msg.msgType
    | _ => none

end Sample

/-- A Logout that waits behind a replay has been handed to the session. -/
theorem nothing_stranded_heldLogout :
    let p := final ConnectionInput.call Sample.link Sample.heldLogout
    p.seq.ready = [] ∧ ∃ replay, p.target.session.replay = some replay ∧
      ∃ msg ∈ replay.queue, msg.msgType = "5" := by
  intro p
  have hinputs : ∀ i ∈ Sample.heldLogout, i.ThroughSequencer := by
    intro i hi
    simp only [Sample.heldLogout, Sample.loggingOn, List.cons_append, List.nil_append,
      List.mem_cons, List.not_mem_nil, or_false] at hi
    rcases hi with rfl | rfl | rfl | rfl | rfl | rfl | rfl
    all_goals exact trivial
  have hwell : Sample.wentWell Sample.link Sample.heldLogout = true := by decide +kernel
  have hopen : (trace ConnectionInput.call Sample.link Sample.heldLogout).all
      (fun t => t.before.target.session.isLoggedOn || !t.outcome.state.target.session.isLoggedOn ||
        t.outcome.state.target.session.closing.isNone) = true := by decide +kernel
  have hresult := nothing_stranded _ _ _ _ _ _ Sample.heldLogout hinputs
    (fun t ht => by simpa using List.all_eq_true.mp hwell t ht)
    (fun t ht hoff hon => by
      have h := List.all_eq_true.mp hopen t ht
      rw [hoff, hon] at h
      exact .inl (by simpa using h))
  obtain ⟨hready, hlogout⟩ := hresult (by decide +kernel) (by decide +kernel)
  exact ⟨hready, hlogout (by decide +kernel)⟩

/-- A Logout is stranded in the sequencer if the peer's Logon is refused, or if the
session is closing when our Logon leaves a replay's queue; and one that was handed over
has not been transmitted while a replay holds it back. -/
theorem stranded_logout :
    (Sample.wentWell Sample.resumed Sample.refusedLogon = true ∧
      Sample.standing (final ConnectionInput.call Sample.resumed Sample.refusedLogon) =
        (true, [], ["5"])) ∧
    (Sample.wentWell Sample.link Sample.closingLogon = true ∧
      Sample.standing (final ConnectionInput.call Sample.link Sample.closingLogon) =
        (true, [], ["1", "5"])) ∧
    (Sample.wentWell Sample.link Sample.heldLogout = true ∧
      Sample.standing (final ConnectionInput.call Sample.link Sample.heldLogout) = (true, [], []) ∧
      Sample.onTheWire (output ConnectionInput.call Sample.link Sample.heldLogout) =
        ["A", "1"]) := by
  decide +kernel

end Babelfix.Sequencing
