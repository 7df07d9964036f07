import Babelfix.Sequencer.Connection

/-! # What the sequencer releases, the session accepts

The sequencer counts the numbers it gives out, the session those it has accepted,
and each follows the logon exchange for itself. `Coupled` ties the two together;
it holds as long as no peer asks for the resend of numbers that are still to
come. -/
namespace Babelfix.Sequencing
open Lib Session Sequencer

/-! ## The coupling -/

/-- The Logons that the endpoint is about to ask for. -/
def logonRequests (o : List Effect) : Nat := (requests o).countP isLogon

/-- The heartbeat interval a Logon states, in seconds. -/
def statedInterval (config : SessionConfig) : Nat := config.heartbeatInterval / nanosPerSec

/-- A Logon that describes the session that was configured. -/
def Genuine (s : SessionState) (msg : Message) : Prop :=
  msg.body.get Fields.heartBtInt = .ok (some ((statedInterval s.config : Nat) : Int)) ∧
    msg.beginString = s.sessionId.beginString

/-- How the sequencer and the endpoint stand to each other, `coming` Logons still
being on their way from one to the other. -/
structure Coupled (q : Sequencer) (e : Endpoint) (coming : Nat) : Prop where
  version : e.session.sessionId.beginString = e.session.config.dict.beginString
  interval : statedInterval e.session.config ≤ i64Max
  idle : e.phase = .idle → e.session.replay = none
  flags : q.loggedOn = true → e.session.isLoggedOn = true
  logons : (pipeline q).countP isLogon + logons e.session + coming ≤
    if e.phase = .idle then 0 else 1
  genuine : ∀ msg ∈ pipeline q, msg.msgType = "A" → Genuine e.session msg
  rising : (pipeline q).Pairwise Before
  beyond : ∀ msg ∈ pipeline q, ∃ n, Carries msg n ∧
    e.session.highestAccepted < n ∧ n < q.nextOutSeqNum
  next : e.session.highestAccepted < q.nextOutSeqNum

variable {q : Sequencer} {e : Endpoint} {coming : Nat}

theorem Coupled.mono {coming'} (h : Coupled q e coming) (hle : coming' ≤ coming) :
    Coupled q e coming' :=
  { h with logons := (Nat.add_le_add_left hle _).trans h.logons }

theorem Coupled.congr {q'} (h : Coupled q e coming) (hp : pipeline q' = pipeline q)
    (hn : q'.nextOutSeqNum = q.nextOutSeqNum)
    (hl : q'.loggedOn = true → e.session.isLoggedOn = true) : Coupled q' e coming := by
  refine ⟨h.version, h.interval, h.idle, hl, ?_, ?_, ?_, ?_, ?_⟩
  · rw [hp]
    exact h.logons
  · rw [hp]
    exact h.genuine
  · rw [hp]
    exact h.rising
  · rw [hp, hn]
    exact h.beyond
  · rw [hn]
    exact h.next

theorem Coupled.aside {q'} (h : Coupled q e coming) (ha : Aside q q') : Coupled q' e coming := by
  cases ha
  exact h.congr rfl rfl h.flags

theorem stamped_numbered_body (q : Sequencer) (msg : Message) :
    (q.stamped (q.numbered msg)).body = msg.body ∧
      (q.stamped (q.numbered msg)).beginString = msg.beginString ∧
      (q.stamped (q.numbered msg)).msgType = msg.msgType := ⟨rfl, rfl, rfl⟩

variable {msg : Message}

/-- Numbering a message, which if it is a Logon is genuine and was on its way. -/
theorem Coupled.assigned {r} (h : Coupled q e (coming + if msg.msgType = "A" then 1 else 0))
    (hgenuine : msg.msgType = "A" → Genuine e.session msg) (ha : Assigned msg q r) :
    Coupled r.state e coming := by
  cases ha with
  | failed _ | overflow _ _ => exact h.mono (Nat.le_add_right _ _)
  | numbered hlive hmax =>
    have hn : (q.stamped (q.numbered msg)).header.req Fields.msgSeqNum = .ok q.nextOutSeqNum := by
      rw [stamped_msgSeqNum]
      exact numbered_msgSeqNum q msg (by omega)
    refine ⟨h.version, h.interval, h.idle, h.flags, ?_, ?_, ?_, ?_, ?_⟩
    · have hlogons := h.logons
      rw [pipeline_awaiting, List.countP_append, List.countP_singleton, isLogon]
      rw [(stamped_numbered_body q msg).2.2]
      by_cases hA : msg.msgType = "A"
      · simp only [hA, if_true, decide_true] at hlogons ⊢
        omega
      · simp only [hA, if_false, decide_false, Bool.false_eq_true] at hlogons ⊢
        omega
    · intro m hm hA
      rw [pipeline_awaiting, List.mem_append, List.mem_singleton] at hm
      rcases hm with hm | rfl
      · exact h.genuine m hm hA
      · exact hgenuine hA
    · rw [pipeline_awaiting, List.pairwise_append]
      refine ⟨h.rising, List.pairwise_singleton _ _, ?_⟩
      intro a ha b hb
      obtain ⟨m, hm, -, hlt⟩ := h.beyond a ha
      rw [List.mem_singleton.mp hb]
      exact ⟨m, _, hm, hn, hlt⟩
    · intro m hm
      rw [pipeline_awaiting, List.mem_append, List.mem_singleton] at hm
      rcases hm with hm | rfl
      · obtain ⟨n, hn, hlow, hlt⟩ := h.beyond m hm
        exact ⟨n, hn, hlow, Nat.lt_succ_of_lt hlt⟩
      · exact ⟨_, hn, h.next, Nat.lt_succ_self _⟩
    · exact Nat.lt_succ_of_lt h.next

/-! ## Events -/

theorem logonMessage_genuine {s} (hv : s.sessionId.beginString = s.config.dict.beginString)
    (hi : statedInterval s.config ≤ i64Max) : Genuine s (SessionState.logonMessage s.config) := by
  have h98 : Fields.encryptMethod.tag ≠ Fields.heartBtInt.tag := by decide
  have h1137 : Fields.defaultApplVerID.tag ≠ Fields.heartBtInt.tag := by decide
  have hset : ∀ b : Block, (b.set Fields.heartBtInt (writeUint (statedInterval s.config))).get
      Fields.heartBtInt = .ok (some ((statedInterval s.config : Nat) : Int)) := by
    intro b
    rw [Block.set_of_valid _ _ (writeUint_ne_nil _) (soh_notMem_writeUint _)]
    exact Block.req_eq_ok.mp (Block.req_place_self _ _ (parseInt_writeUint hi))
  refine ⟨?_, hv.symm⟩
  rw [← hset []]
  refine Block.get_eq_of_find ?_
  unfold SessionState.logonMessage
  rw [Block.find_set_ne _ _ h98]
  split
  · rw [Block.find_set_ne _ _ h1137]
    rfl
  · rfl

/-- What the endpoint may still have to say, given where it has got to. -/
structure Saying (e : Endpoint) (o : List Effect) : Prop where
  logon : ∀ msg ∈ requests o, msg.msgType = "A" → Genuine e.session msg
  announced : Announced o → e.session.isLoggedOn = true

theorem logonRequests_request (msg : Message) (o : List Effect) :
    logonRequests (.event (.adminSendRequired msg) :: o) =
      logonRequests o + if msg.msgType = "A" then 1 else 0 := by
  rw [logonRequests, requests_request, List.countP_cons, isLogon, logonRequests]
  by_cases hA : msg.msgType = "A" <;> simp [hA]

theorem coupled_event {ev rest r} (hi : Intercepted ev q r)
    (h : Coupled q e (logonRequests (.event ev :: rest)) ∧ Saying e (.event ev :: rest)) :
    Coupled r.state e (logonRequests rest) ∧ Saying e rest := by
  obtain ⟨hc, hs⟩ := h
  have hsub : ∀ msg ∈ requests rest, msg ∈ requests (.event ev :: rest) := by
    intro msg hmsg
    rw [← List.singleton_append, requests_append]
    exact List.mem_append_right _ hmsg
  have hrest : Saying e rest :=
    ⟨fun msg hmsg => hs.logon msg (hsub msg hmsg),
      fun ha => hs.announced (List.mem_cons_of_mem _ ha)⟩
  have hle : logonRequests rest ≤ logonRequests (.event ev :: rest) := by
    rw [logonRequests, logonRequests, ← List.singleton_append, requests_append, List.countP_append]
    omega
  refine ⟨?_, hrest⟩
  cases hi with
  | @asked msg n r he ha hr | @refused msg f r he ha hr =>
    subst he
    rw [logonRequests_request] at hc
    exact hc.assigned (hs.logon msg List.mem_cons_self) ha
  | loggedOn he =>
    subst he
    exact (hc.mono hle).congr rfl rfl fun _ => hs.announced List.mem_cons_self
  | overflow he hn => exact hc.mono hle
  | passed _ _ hw hr => exact (hc.mono hle).aside hw.aside

/-- A call on the endpoint, once it has been seen to keep the coupling. -/
theorem coupled_onTarget {α : Type} (c : Call Endpoint Noted Fault α) (p : Sequenced Endpoint)
    (hc : Coupled p.seq (c.run p.target).state (logonRequests (effects (c.run p.target).out)))
    (hs : Saying (c.run p.target).state (effects (c.run p.target).out)) :
    let r := (Sequenced.onTarget Noted.event c).run p
    Coupled r.state.seq r.state.target 0 := by
  intro r
  have htarget : r.state.target = (c.run p.target).state := Sequenced.onTarget_target _ c p
  obtain ⟨hcoupled, -⟩ := onEndpoint_induction
    (P := fun o q => Coupled q (c.run p.target).state (logonRequests o) ∧
      Saying (c.run p.target).state o)
    (F := fun q => Coupled q (c.run p.target).state 0)
    (fun _ _ _ _ h => ⟨h.1, ⟨h.2.logon, fun ha => h.2.announced (List.mem_cons_of_mem _ ha)⟩⟩)
    (fun _ _ _ _ hi h => ⟨fun _ => coupled_event hi h,
      fun _ _ => (coupled_event hi h).1.mono (Nat.zero_le _)⟩) c p ⟨hc, hs⟩
  rw [htarget]
  exact hcoupled.elim And.left id

/-! ## Driving the endpoint -/

theorem Coupled.lt_nextToRelease (h : Coupled q e coming) : e.session.highestAccepted < nextToRelease q := by
  unfold nextToRelease
  split
  · rename_i msg rest hq
    obtain ⟨n, hn, hlt, -⟩ := h.beyond msg (by rw [hq]; exact List.mem_cons_self)
    rw [numberOf_eq hn]
    exact hlt
  · exact h.next

theorem Coupled.beyond_of_lt {k} (h : Coupled q e coming) (hk : k < nextToRelease q) :
    (∀ msg ∈ pipeline q, ∃ n, Carries msg n ∧ k < n ∧
      n < q.nextOutSeqNum) ∧ k < q.nextOutSeqNum := by
  have hrising := h.rising
  have hbeyond := h.beyond
  unfold nextToRelease at hk
  cases hq : pipeline q with
  | nil =>
    rw [hq] at hk
    exact ⟨by simp, hk⟩
  | cons first rest =>
    rw [hq] at hk hrising hbeyond
    obtain ⟨n, hn, -, hlt⟩ := hbeyond first List.mem_cons_self
    have hkn : k < n := by rw [← numberOf_eq hn]; exact hk
    refine ⟨?_, hkn.trans hlt⟩
    intro msg hmsg
    rcases List.mem_cons.mp hmsg with rfl | hmsg'
    · exact ⟨n, hn, hkn, hlt⟩
    · obtain ⟨m, hm, -, hmlt⟩ := hbeyond msg hmsg
      obtain ⟨a, b, ha, hb, hab⟩ := (List.pairwise_cons.mp hrising).1 msg hmsg'
      cases ha.unique hn
      cases hb.unique hm
      exact ⟨m, hm, hkn.trans hab, hmlt⟩

theorem Coupled.moved {e'} (h : Coupled q e 0) (hid : e'.session.sessionId = e.session.sessionId)
    (hconf : e'.session.config = e.session.config) (hphase : e'.phase ≠ .idle)
    (hflags : e.session.isLoggedOn = true → e'.session.isLoggedOn = true)
    (hlogons : (pipeline q).countP isLogon + Session.logons e'.session + coming ≤ 1)
    (hacc : e'.session.highestAccepted < nextToRelease q) : Coupled q e' coming := by
  obtain ⟨hbeyond, hnext⟩ := h.beyond_of_lt hacc
  refine ⟨?_, ?_, fun hidle => absurd hidle hphase, fun hl => hflags (h.flags hl), ?_, ?_, h.rising,
    hbeyond, hnext⟩
  · rw [hid, hconf]
    exact h.version
  · rw [hconf]
    exact h.interval
  · rw [if_neg hphase]
    exact hlogons
  · intro msg hmsg hA
    rw [Genuine, hid, hconf]
    exact h.genuine msg hmsg hA

variable {r : OpOutcome Progress}

theorem Conduct.logonRequests {s : SessionState} (h : Conduct s r) : logonRequests r.out = 0 := by
  rw [Sequencing.logonRequests, List.countP_eq_zero]
  intro msg hmsg
  simpa [isLogon] using h.admin msg hmsg

theorem Coupled.conduct {phase} (h : Coupled q e 0) (hp : e.phase ≠ .idle) (hp' : phase ≠ .idle)
    (hc : Conduct e.session r) (hup : AcceptedUpTo e.session r.state)
    (hrr : ∀ replay, e.session.replay = none → r.state.replay = some replay →
      replay.endSeqNo < nextToRelease q) :
    Coupled q ⟨phase, r.state⟩ (logonRequests r.out) ∧ Saying ⟨phase, r.state⟩ r.out := by
  refine ⟨h.moved hc.sessionId hc.config hp' (hc.isLoggedOn) ?_ ?_, ⟨?_, hc.announced⟩⟩
  · have hlogons := h.logons
    rw [if_neg hp] at hlogons
    have hle := hc.logons
    rw [Conduct.logonRequests hc]
    dsimp only
    omega
  · rcases hup with hup | ⟨replay, hnone, hsome, hup⟩
    · rw [hup]
      exact h.lt_nextToRelease
    · rw [hup]
      exact max_lt h.lt_nextToRelease (hrr replay hnone hsome)
  · intro msg hmsg hA
    exact absurd hA (hc.admin msg hmsg)

/-- Opening the session: the one Logon is asked for, and then `r` happened. -/
theorem Coupled.opened {phase now o} (h : Coupled q e 0) (hidle : e.phase = .idle)
    (hp' : phase ≠ .idle) (hc : Conduct (e.opened now) r)
    (hup : AcceptedUpTo (e.opened now) r.state)
    (hrr : ∀ replay, r.state.replay = some replay → replay.endSeqNo < nextToRelease q)
    (ho : requests o = [SessionState.logonMessage e.session.config]) (hno : ¬ Announced o) :
    Coupled q ⟨phase, r.state⟩ (logonRequests (o ++ r.out)) ∧
      Saying ⟨phase, r.state⟩ (o ++ r.out) := by
  have hlogons := h.logons
  rw [if_pos hidle] at hlogons
  have hoff : e.session.isLoggedOn = false := by
    have hsent : e.session.logonSent.toNat = 0 := by
      have := hlogons
      unfold Session.logons at this
      omega
    cases hs : e.session.logonSent with
    | false => simp [SessionState.isLoggedOn, hs]
    | true => rw [hs] at hsent; cases hsent
  have hid : r.state.sessionId = e.session.sessionId := hc.sessionId
  have hconf : r.state.config = e.session.config := hc.config
  have hcount : logonRequests (o ++ r.out) ≤ 1 := by
    have hzero := Conduct.logonRequests hc
    rw [Sequencing.logonRequests] at hzero ⊢
    rw [requests_append, List.countP_append, hzero, ho]
    exact List.countP_le_length
  refine ⟨h.moved hid hconf hp' (by rw [hoff]; intro h; cases h) ?_ ?_, ?_, ?_⟩
  · have hle : Session.logons r.state ≤ 0 := hc.logons
    dsimp only
    omega
  · rcases hup with hup | ⟨replay, -, hsome, hup⟩
    · rw [hup]
      exact Nat.lt_of_le_of_lt (Nat.zero_le _) h.lt_nextToRelease
    · rw [hup]
      exact max_lt (Nat.lt_of_le_of_lt (Nat.zero_le _) h.lt_nextToRelease) (hrr replay hsome)
  · intro msg hmsg hA
    rw [requests_append, ho, List.singleton_append, List.mem_cons] at hmsg
    rcases hmsg with rfl | hmsg
    · have hgenuine := logonMessage_genuine h.version h.interval
      rw [Genuine] at hgenuine ⊢
      rw [hid, hconf]
      exact hgenuine
    · exact absurd hA (hc.admin msg hmsg)
  · intro hann
    rcases (announced_append _ _).mp hann with hann | hann
    · exact absurd hann hno
    · exact hc.announced hann

theorem coupled_acted {i r} (h : Coupled q e 0) (ha : Acted i e r)
    (hsend : ∀ msg now, i ≠ .command (.send msg) now)
    (hrr : ∀ replay, e.session.replay = none → r.state.session.replay = some replay →
      replay.endSeqNo < nextToRelease q) :
    Coupled q r.state (logonRequests r.out) ∧ Saying r.state r.out := by
  cases ha with
  | nothing => exact ⟨h, ⟨by simp, by simp [Announced]⟩⟩
  | @announced logonTimeout now hi hp =>
    exact h.opened (o := announceOut e.session.config) hp (by simp) (conduct_opened e now) (.inl rfl)
      (fun replay hr => hrr replay (h.idle hp) hr) rfl (by simp [Announced, announceOut])
  | @welcomed logon now r hi hp hA hid hs =>
    exact h.opened (o := welcomeOut e.session.config logon) hp (by simp) hs.conduct
      (hs.outbound.2.1.acceptedUpTo)
      (fun replay hr => hrr replay (h.idle hp) hr) rfl (by simp [Announced, welcomeOut])
  | @answered logon now r phase hi hp hA hsent hs hok herr =>
    have hp' : phase ≠ .idle := by
      cases hr : r.result with
      | error f => rw [herr f hr]; exact hp
      | ok p => rw [hok p hr]; simp
    obtain ⟨hcoupled, hsaying⟩ := h.conduct hp hp' hs.conduct
      (hs.outbound.2.1.acceptedUpTo) hrr
    exact ⟨hcoupled, ⟨hsaying.logon, fun hann => hsaying.announced
      ((List.mem_cons.mp hann).resolve_left (by simp))⟩⟩
  | @passed j r hi hp hs =>
    obtain ⟨hj, hlogon⟩ := passed_input hi hsend
    exact h.conduct hp hp (step_conduct hs hj hlogon) (step_acceptedUpTo hs hj) hrr

/-! ## Handing a message over -/

variable {rest : List Message}

theorem Coupled.admissible (h : Coupled q e 0) (hready : q.ready = msg :: rest) (hgo : q.MayGo msg) :
    e.phase ≠ .idle ∧ ∃ n, Carries msg n ∧
      Admissible msg e.session n := by
  have hmem : msg ∈ pipeline q := by
    rw [pipeline, hready]
    exact List.mem_append_left _ List.mem_cons_self
  obtain ⟨n, hn, hlt, -⟩ := h.beyond msg hmem
  have hlogons := h.logons
  -- a Logon in the pipeline is the only one there is
  have hfirst : msg.msgType = "A" → e.phase ≠ .idle ∧ e.session.logonSent = false := by
    intro hA
    have hpos : 0 < (pipeline q).countP isLogon :=
      List.countP_pos_iff.mpr ⟨msg, hmem, by simp [isLogon, hA]⟩
    split at hlogons
    · omega
    · refine ⟨‹_›, ?_⟩
      unfold Session.logons at hlogons
      cases hs : e.session.logonSent with
      | false => rfl
      | true =>
        rw [hs, Bool.toNat_true] at hlogons
        omega
  have hphase : e.phase ≠ .idle := by
    rcases hgo with hgo | hA
    · intro hidle
      have hon := h.flags hgo
      rw [SessionState.isLoggedOn, Bool.and_eq_true] at hon
      rw [if_pos hidle, Session.logons, hon.1, Bool.toNat_true] at hlogons
      omega
    · exact (hfirst hA).1
  refine ⟨hphase, n, hn, ?_⟩
  refine ⟨Nat.lt_of_le_of_lt (Nat.zero_le _) hlt, hlt, ?_, ?_⟩
  · intro hA
    exact ⟨(hfirst hA).2, (h.genuine msg hmem hA).1, (h.genuine msg hmem hA).2⟩
  · intro hA
    have hon := h.flags (hgo.resolve_right hA)
    rw [SessionState.isLoggedOn, Bool.and_eq_true] at hon
    exact hon

/-- Handing the next message over leaves the rest of the pipeline coupled. -/
theorem Coupled.sent {now} (h : Coupled q e 0) (hready : q.ready = msg :: rest)
    (hphase : e.phase ≠ .idle) (hs : Sent msg now e.session r) (hok : ∀ f, r.result ≠ .error f) :
    Coupled { q with ready := rest } ⟨e.phase, r.state⟩ 0 := by
  have hpipe : pipeline q = msg :: pipeline { q with ready := rest } := by
    simp [pipeline, hready]
  obtain ⟨-, -, hon, hid, hconf⟩ := hs.said
  have hrising := h.rising
  rw [hpipe, List.pairwise_cons] at hrising
  have hmem : ∀ m ∈ pipeline { q with ready := rest }, m ∈ pipeline q := by
    intro m hm
    rw [hpipe]
    exact List.mem_cons_of_mem _ hm
  obtain ⟨n, hn, -, hlt⟩ := h.beyond msg (by rw [hpipe]; exact List.mem_cons_self)
  have haccepted : r.state.highestAccepted = n := by
    cases hs with
    | rejected hno => exact absurd rfl (hok _)
    | deferred hn' ha hr | dispatched hn' ha hr => exact hn'.unique hn
  refine ⟨?_, ?_, fun hidle => absurd hidle hphase, fun hl => hon (h.flags hl), ?_, ?_, hrising.2,
    ?_, ?_⟩
  · rw [hid, hconf]
    exact h.version
  · rw [hconf]
    exact h.interval
  · have hlogons := h.logons
    have hle := hs.logons
    rw [if_neg hphase, hpipe, List.countP_cons, isLogon] at hlogons
    rw [if_neg hphase]
    by_cases hA : msg.msgType = "A"
    · simp only [hA, decide_true, if_true] at hlogons hle ⊢
      omega
    · simp only [hA, decide_false, Bool.false_eq_true, if_false] at hlogons hle ⊢
      omega
  · intro m hm hA
    rw [Genuine, hid, hconf]
    exact h.genuine m (hmem m hm) hA
  · intro m hm
    obtain ⟨k, hk, -, hklt⟩ := h.beyond m (hmem m hm)
    obtain ⟨a, b, ha, hb, hab⟩ := hrising.1 m hm
    cases ha.unique hn
    cases hb.unique hk
    exact ⟨k, hk, by rw [haccepted]; exact hab, hklt⟩
  · rw [haccepted]
    exact hlt

/-- The session has not refused a message. -/
def Unrefused (o : Observed Noted) : Prop :=
  ∀ msg f, o ≠ .wrote (.answered (.send msg) (.error f))

theorem unrefused_app (e : SeqEvent) : Unrefused (.app e) := by
  intro msg f h
  cases h

theorem coupled_handOver (now : Instant) (h : Coupled q e 0) (hready : q.ready = msg :: rest)
    (hgo : q.MayGo msg) :
    let r := (Sequenced.handOver endpointTarget msg now).run ⟨{ q with ready := rest }, e⟩
    Coupled r.state.seq r.state.target 0 ∧ ∀ o ∈ r.out, Unrefused o := by
  intro r
  obtain ⟨hphase, n, hn, hadmissible⟩ := h.admissible hready hgo
  have hs := SessionState.send_spec msg now e.session
  generalize hrs : (SessionState.send msg now).run e.session = rs at hs
  have hok : ∀ f, rs.result ≠ .error f := by
    intro f hf
    cases hs with
    | rejected hno => exact hno n hn hadmissible
    | _ => cases hf
  have hrun : (endpointTarget.onCommand (.send msg) now).run e = ⟨⟨e.phase, rs.state⟩,
      .answered (.send msg) rs.result :: rs.out.map .effect, rs.result⟩ := by
    have hcommand := run_command_send msg now hphase
    rw [Endpoint.run_onSession, hrs] at hcommand
    show Outcome.mk _ _ _ = _
    rw [hcommand]
  obtain ⟨hreq, hann, -⟩ := hs.said
  have hout : r = ((Sequenced.onTarget Noted.event (endpointTarget.onCommand (.send msg) now)).run
      ⟨{ q with ready := rest }, e⟩).prepend [.handed msg] := rfl
  refine ⟨?_, ?_⟩
  · refine coupled_onTarget (endpointTarget.onCommand (.send msg) now)
      ⟨{ q with ready := rest }, e⟩ ?_ ?_
    · rw [hrun, effects_answered, effects_map, logonRequests, hreq]
      exact h.sent hready hphase hs hok
    · rw [hrun, effects_answered, effects_map]
      exact ⟨by simp [hreq], hann⟩
  · intro o ho msg' f heq
    subst heq
    rw [hout, Outcome.prepend_out, List.singleton_append, List.mem_cons] at ho
    have hwrote := Sequenced.onTarget_wrote _ _ (ho.resolve_left (by simp))
    rw [show Sequenced.target ⟨{ q with ready := rest }, e⟩ = e from rfl, hrun, List.mem_cons]
      at hwrote
    rcases hwrote with hwrote | hwrote
    · obtain ⟨-, hresult⟩ := Noted.answered.inj hwrote
      exact hok f hresult.symm
    · simp at hwrote

/-! ## Whole runs -/

/-- The application sends application messages, through the sequencer. -/
def ConnectionInput.AppOnly : ConnectionInput → Prop
  | .drive (.command (.send _) _) => False
  | .send msg => msg.isAdmin = false
  | .sendRaw _ => False
  | _ => True

theorem msgType_ne_logon (h : msg.isAdmin = false) : msg.msgType ≠ "A" := by
  intro hA
  simp [Message.isAdmin, hA] at h

variable {p : Sequenced Endpoint}

theorem coupled_quietly {α : Type} {c : SeqOp α} (h : Coupled (c.run p.seq).state p.target 0) :
    let r := (Sequenced.quietly (ω := Noted) c).run p
    Coupled r.state.seq r.state.target 0 ∧ ∀ o ∈ r.out, Unrefused o := by
  rw [Sequenced.run_quietly]
  refine ⟨h, ?_⟩
  intro o ho
  obtain ⟨e, -, rfl⟩ := List.mem_map.mp ho
  exact unrefused_app e

theorem coupled_release (now : Instant) (p : Sequenced Endpoint) (h : Coupled p.seq p.target 0) :
    let r := (Sequenced.release endpointTarget now).run p
    Coupled r.state.seq r.state.target 0 ∧ ∀ o ∈ r.out, Unrefused o := by
  refine Sequenced.release_observed endpointTarget
    (J := fun out p => Coupled p.seq p.target 0 ∧ ∀ o ∈ out, Unrefused o) now ?_ p ⟨h, by simp⟩
  intro out q e msg rest hready hgo hJ
  obtain ⟨hcoupled, hun⟩ := coupled_handOver now hJ.1 hready hgo
  refine ⟨hcoupled, ?_⟩
  intro o ho
  rcases List.mem_append.mp ho with ho | ho
  · exact hJ.2 o ho
  · exact hun o ho

theorem coupled_drive (i : EndpointInput) (h : Coupled p.seq p.target 0)
    (hsend : ∀ msg now, i ≠ .command (.send msg) now) (hrr : ∀ replay, p.target.session.replay = none →
      (i.call.run p.target).state.session.replay = some replay →
      replay.endSeqNo < nextToRelease p.seq) :
    let r := (Sequenced.onTarget Noted.event (noted i.call)).run p
    Coupled r.state.seq r.state.target 0 ∧ ∀ o ∈ r.out, Unrefused o := by
  obtain ⟨hcoupled, hsaying⟩ := coupled_acted h (acted_spec i p.target) hsend hrr
  refine ⟨coupled_onTarget (noted i.call) p ?_ ?_, ?_⟩
  · show Coupled _ (i.call.run p.target).state (logonRequests (effects (List.map _ _)))
    rw [effects_map]
    exact hcoupled
  · show Saying (i.call.run p.target).state (effects (List.map _ _))
    rw [effects_map]
    exact hsaying
  · intro o ho msg f heq
    subst heq
    have hwrote := Sequenced.onTarget_wrote (noted i.call) p ho
    obtain ⟨e, -, he⟩ := List.mem_map.mp hwrote
    cases he

theorem coupled_step (i : ConnectionInput) (h : Coupled p.seq p.target 0) (hi : i.AppOnly)
    (hrr : ∀ replay, p.target.session.replay = none →
      (i.call.run p).state.target.session.replay = some replay →
      replay.endSeqNo < nextToRelease p.seq) :
    Coupled (i.call.run p).state.seq (i.call.run p).state.target 0 ∧
      ∀ o ∈ (i.call.run p).out, Unrefused o := by
  cases i with
  | drive i =>
    refine coupled_drive i h ?_ ?_
    · intro msg now heq
      subst heq
      exact hi
    · intro replay hnone hsome
      refine hrr replay hnone ?_
      rw [← hsome]
      exact congrArg (fun e => e.session.replay) (Sequenced.onTarget_target _ (noted i.call) p)
  | send msg =>
    refine coupled_quietly ?_
    have hout := send_spec msg p.seq
    generalize (Sequencer.send msg).run p.seq = r at hout ⊢
    cases hout with
    | busy hb => exact h
    | assigned ha =>
      have hA : (original msg).msgType ≠ "A" := msgType_ne_logon hi
      refine Coupled.assigned ?_ (fun h => absurd h hA) ha
      rw [if_neg hA]
      exact h
  | sendRaw msg => exact absurd hi id
  | handled n => exact coupled_quietly (h.aside (handled_spec n p.seq).aside)
  | watermarkPersisted n => exact coupled_quietly (h.aside (onWatermarkPersisted_spec n p.seq).aside)
  | release now => exact coupled_release now p h
  | persisted n now =>
    have hreport := Sequenced.persisted_spec endpointTarget n now p
    have hcall : (ConnectionInput.persisted n now).call.run p =
        (Sequenced.persisted endpointTarget n now).run p := rfl
    rw [hcall]
    generalize (Sequenced.persisted endpointTarget n now).run p = r at hreport
    cases hreport with
    | refused => exact ⟨h, by simp⟩
    | noted hlive he hn =>
      exact coupled_release now _ (h.congr (pipeline_collected p.seq n) rfl h.flags)

/-- **The session accepts what the sequencer releases.** In every run of a connection
in which the application sends application messages through the sequencer, and no
replay that is started reaches as far as the next message to be released, the
session refuses none of the messages it is handed. -/
theorem released_accepted (sessionId : SessionIdentifier) (config : SessionConfig)
    (resume : Resume) (policy : InboundPolicy) (clock : Clock) (maxInFlight : Nat)
    (hout : 1 ≤ resume.nextOutSeqNum) (hversion : sessionId.beginString = config.dict.beginString)
    (hinterval : statedInterval config ≤ i64Max) (inputs : List ConnectionInput)
    (happ : ∀ i ∈ inputs, i.AppOnly) (hrr : ∀ t ∈ trace ConnectionInput.call
        (connection sessionId config resume policy clock maxInFlight) inputs,
      ∀ replay, t.before.target.session.replay = none →
        t.outcome.state.target.session.replay = some replay →
        replay.endSeqNo < nextToRelease t.before.seq) :
    ∀ msg f, .wrote (.answered (.send msg) (.error f)) ∉ output ConnectionInput.call
      (connection sessionId config resume policy clock maxInFlight) inputs := by
  have hrun : ∀ (p : Sequenced Endpoint), Coupled p.seq p.target 0 →
      (∀ i ∈ inputs, i.AppOnly) →
      (∀ t ∈ trace ConnectionInput.call p inputs, ∀ replay,
        t.before.target.session.replay = none →
        t.outcome.state.target.session.replay = some replay →
        replay.endSeqNo < nextToRelease t.before.seq) →
      ∀ o ∈ output ConnectionInput.call p inputs, Unrefused o := by
    clear happ hrr
    induction inputs with
    | nil => intro p _ _ _ o ho; cases ho
    | cons i rest ih =>
      intro p hp happ hrr o ho
      obtain ⟨hnext, hun⟩ := coupled_step i hp (happ i List.mem_cons_self)
        (hrr ⟨p, i, i.call.run p⟩ List.mem_cons_self)
      have hcons : output ConnectionInput.call p (i :: rest) = (i.call.run p).out ++
          output ConnectionInput.call (i.call.run p).state rest := rfl
      rw [hcons, List.mem_append] at ho
      rcases ho with ho | ho
      · exact hun o ho
      · exact ih _ hnext (fun j hj => happ j (List.mem_cons_of_mem _ hj))
          (fun t ht => hrr t (List.mem_cons_of_mem _ ht)) o ho
  have hempty : pipeline (connection sessionId config resume policy clock maxInFlight).seq = [] := rfl
  have hstart : Coupled (connection sessionId config resume policy clock maxInFlight).seq
      (connection sessionId config resume policy clock maxInFlight).target 0 := by
    refine ⟨hversion, hinterval, fun _ => rfl, ?_, ?_, ?_, ?_, ?_, hout⟩
    · intro hon
      cases hon
    · rw [hempty]
      exact Nat.le_refl 0
    · rw [hempty]
      simp
    · rw [hempty]
      exact List.Pairwise.nil
    · rw [hempty]
      simp
  intro msg f hmem
  exact hrun _ hstart happ hrr _ hmem msg f rfl

/-! ## A resend that reaches too far -/

namespace Sample

/-- The application sends a message, and before it is persisted the peer asks for a
resend of `first..=last`, to which there is nothing to retransmit. -/
def resending (first last : Nat) : List ConnectionInput :=
  loggingOn ++ [.send (Message.new "FIX.4.4" "D"), .drive (.receive (resendRequest 2 first last) 0),
    .drive (.command .replayComplete 0), .persisted 3 0]

theorem resending_appOnly (first last : Nat) : ∀ i ∈ resending first last, i.AppOnly := by
  intro i hi
  simp only [resending, loggingOn, List.cons_append, List.nil_append, List.mem_cons,
    List.not_mem_nil, or_false] at hi
  rcases hi with rfl | rfl | rfl | rfl | rfl | rfl | rfl | rfl
  all_goals first | exact trivial | rfl

/-- No replay that the turn starts reaches as far as the next message to release. -/
def withinReleased
    (t : Turn ConnectionInput (Sequenced Endpoint) (Observed Noted) Fault Progress) : Bool :=
  match t.before.target.session.replay, t.outcome.state.target.session.replay with
  | none, some replay => replay.endSeqNo < nextToRelease t.before.seq
  | _, _ => true

end Sample

/-- The messages that a session refused. -/
def refusals (o : List (Observed Noted)) : List (Message × Fault) :=
  o.filterMap fun
    | .wrote (.answered (.send msg) (.error f)) => some (msg, f)
    | _ => none

/-- A resend of everything sent so far stays below what is still to be released. -/
theorem released_accepted_resending :
    (∀ i ∈ Sample.resending 1 0, i.AppOnly) ∧
    ∀ msg f, .wrote (.answered (.send msg) (.error f)) ∉ output ConnectionInput.call
      Sample.link (Sample.resending 1 0) := by
  refine ⟨Sample.resending_appOnly 1 0, released_accepted _ _ _ _ _ _ (by decide) (by decide)
    (by decide) _ (Sample.resending_appOnly 1 0) ?_⟩
  intro t ht replay hnone hsome
  have hall : (trace ConnectionInput.call Sample.link (Sample.resending 1 0)).all
      Sample.withinReleased = true := by decide +kernel
  have hwithin := List.all_eq_true.mp hall t ht
  simpa [Sample.withinReleased, hnone, hsome] using hwithin

/-- A peer that asks for numbers up to 999 makes the session refuse what the
sequencer releases next. -/
theorem released_refused :
    (∀ i ∈ Sample.resending 1 999, i.AppOnly) ∧
    (refusals (output ConnectionInput.call Sample.link (Sample.resending 1 999))).map Prod.snd =
      [.err (.protocolViolation "MsgSeqNum 3 is not beyond 999, already sent")] :=
  ⟨Sample.resending_appOnly 1 999, by decide +kernel⟩

end Babelfix.Sequencing
