import Babelfix.Driver.Chunks

/-! # From the logon exchange to the session

The drivers of the logon exchange decode one frame. Whatever arrived with it moves into
the session in the input buffer, and is delivered when the session is started. -/
namespace Babelfix.Driver
open Lib
open Session (Effect Fault Instant Progress SessionState SessionConfig SessionIdentifier
  InitiatorHandshake AcceptorHandshake Op)

/-! ## A connection, read by read -/

/-- What a connection did before the session was started, what it did from then on, the
session if there is one, and how it ended. -/
structure Handoff where
  before : List Action
  after : List Action
  session : Option SessionState
  result : Except Stop Progress

/-- Start the session and feed it the remaining reads. -/
def EstablishedDriver.handoff (e : EstablishedDriver) (startAt : Instant)
    (reads : List (Instant × Bytes)) (before : List Action) : Handoff :=
  let r := (e.start startAt).andThen fun p =>
    if p = .close then pure .close else SessionDriver.feed reads
  ⟨before, r.out, some r.state.state, r.result⟩

/-- Feed reads until the exchange is complete, and go on with the session. -/
def InitiatorDriver.handoff (startAt : Instant) :
    List (Instant × Bytes) → InitiatorDriver → Handoff
  | [], _ => ⟨[], [], none, .ok .continue⟩
  | (now, src) :: reads, d =>
    let r := (InitiatorDriver.onBytes now src).run d
    match r.result with
    | .error e => ⟨r.out, [], none, .error e⟩
    | .ok none =>
      let rest := InitiatorDriver.handoff startAt reads r.state
      { rest with before := r.out ++ rest.before }
    | .ok (some e) => e.handoff startAt reads r.out

/-- Feed reads until the peer has named a session, accept it and go on with it. -/
def AcceptorDriver.handoff (config : SessionConfig) (nextInSeqNum : Nat)
    (acceptAt startAt : Instant) : List (Instant × Bytes) → AcceptorDriver → Handoff
  | [], _ => ⟨[], [], none, .ok .continue⟩
  | (_, src) :: reads, d =>
    let r := (AcceptorDriver.onBytes src).run d
    match r.result with
    | .error e => ⟨r.out, [], none, .error e⟩
    | .ok none =>
      let rest := AcceptorDriver.handoff config nextInSeqNum acceptAt startAt reads r.state
      { rest with before := r.out ++ rest.before }
    | .ok (some _) =>
      let accepted := r.state.accept config nextInSeqNum acceptAt
      match accepted.2 with
      | .error e => ⟨r.out ++ accepted.1, [], none, .error e⟩
      | .ok e => e.handoff startAt reads (r.out ++ accepted.1)

/-! ## What the session is given -/

/-- The session is given each message at its time, until it closes or errs. -/
def deliver (times : List Instant) (msgs : List Tape.Message) :
    Call SessionState Action Stop Progress :=
  handAllAt live .continue handle times msgs

/-- What an initiator's session makes of the peer's Logon. -/
def peerLogon (logon : Message) (now : Instant) : Op Progress := do
  Session.event (.rawMessageReceived logon)
  SessionState.start logon now

/-- The session processes the Logon, and then, if it goes on, the messages. Before the
session is started only the Logon shows. -/
inductive Delivers (logon : Session.OpOutcome Progress)
    (msgs : List Tape.Message) : Handoff → Prop
  | refused {f : Fault} (h : logon.result = .error f) :
    Delivers logon msgs ⟨logon.out.map .effect, [], none, .error (.session f)⟩
  | closed (h : logon.result = .ok .close) :
    Delivers logon msgs ⟨logon.out.map .effect, [], some logon.state, .ok .close⟩
  | delivered (h : logon.result = .ok .continue) (times : List Instant)
    (hlen : times.length = msgs.length) :
    Delivers logon msgs ⟨logon.out.map .effect, ((deliver times msgs).run logon.state).out,
      some ((deliver times msgs).run logon.state).state,
      ((deliver times msgs).run logon.state).result⟩

section

variable {dec dec' : FixDecoder} {frames : List (Bytes × Tape.Message)}

/-- A frame by itself decodes to its message. -/
def IsFrame (dec dec' : FixDecoder) (bytes : Bytes) (msg : Tape.Message) : Prop :=
  dec.decode bytes = ⟨dec', [], .ok (some msg)⟩

variable {msg : Tape.Message}

theorem IsFrame.verdict {bytes} (h : IsFrame dec dec' bytes msg) :
    dec.verdict bytes = .item dec' msg [] := by
  unfold IsFrame at h
  simp only [FixDecoder.verdict, h]

theorem verdict_nil (dec : FixDecoder) : dec.verdict [] = .more :=
  FixDecoder.verdict_eq_more.mpr ⟨none, .noBegin rfl (Nat.zero_le _), fun _ h => by cases h⟩

/-! ## The session proper -/

/-- Once the session is started, each frame is given to it exactly once, in order. -/
theorem feed_frames (hframes : ∀ f ∈ frames, IsFrame dec dec f.1 f.2) {buf src reads}
    (h : buf ++ src ++ reads.flatMap Prod.snd = frames.flatMap Prod.fst) (now : Instant)
    (s : SessionState) : ∃ times : List Instant, times.length = frames.length ∧
      ∃ p, (SessionDriver.feed ((now, src) :: reads)).run ⟨s, ⟨dec, buf⟩⟩ =
        withSession p ((deliver times (frames.map Prod.snd)).run s) := by
  obtain ⟨d, o, r, z, hrun, hends, hfeeds⟩ := feed_ends now src reads ⟨s, ⟨dec, buf⟩⟩
  have hitems : ∃ times : List Instant, times.length = frames.length ∧
      o = ((deliver times (frames.map Prod.snd)).run s).out ∧
      HandedOver live dec [] ((deliver times (frames.map Prod.snd)).run s) z :=
    hfeeds.items FixDecoder.verdict_incremental rfl (fun f hf => (hframes f hf).verdict)
      (verdict_nil dec) h
  obtain ⟨times, hlen, rfl, hz⟩ := hitems
  refine ⟨times, hlen, d.plumbing, hrun.trans ?_⟩
  cases hz with
  | waiting hgo =>
    cases hends
    rw [← goesOn_live.mp hgo]
    rfl
  | stopped hstop =>
    cases hends
    rfl

theorem EstablishedDriver.handoff_continue (s : SessionState) (p : Plumbing) (startAt : Instant)
    (reads : List (Instant × Bytes)) (before : List Action) :
    EstablishedDriver.handoff ⟨s, p, .continue⟩ startAt reads before =
      ⟨before, ((SessionDriver.feed ((startAt, []) :: reads)).run ⟨s, p⟩).out,
        some ((SessionDriver.feed ((startAt, []) :: reads)).run ⟨s, p⟩).state.state,
        ((SessionDriver.feed ((startAt, []) :: reads)).run ⟨s, p⟩).result⟩ := rfl

/-- The started session goes on with what came with the Logon and what is read later. -/
theorem EstablishedDriver.handoff_delivers (hframes : ∀ f ∈ frames, IsFrame dec dec f.1 f.2)
    {logon progress} (hlogon : logon.result = .ok progress) {rest reads}
    (h : rest ++ reads.flatMap Prod.snd = frames.flatMap Prod.fst) (startAt : Instant) :
    Delivers logon (frames.map Prod.snd)
      (EstablishedDriver.handoff ⟨logon.state, ⟨dec, rest⟩, progress⟩ startAt reads
        (logon.out.map .effect)) := by
  cases progress with
  | close => exact .closed hlogon
  | «continue» =>
    have hbytes : rest ++ [] ++ reads.flatMap Prod.snd = frames.flatMap Prod.fst := by
      rw [List.append_nil, h]
    obtain ⟨times, hlen, p, hrun⟩ := feed_frames hframes hbytes startAt logon.state
    rw [EstablishedDriver.handoff_continue, hrun]
    exact .delivered hlogon times (by simpa using hlen)

/-! ## The first frame -/

/-- The first frame is taken with the read that completes it, and what follows it stays. -/
theorem next_of_first {bytes} (hframe : IsFrame dec dec' bytes msg) {xs tail more}
    (h : xs ++ tail = bytes ++ more) :
    (xs.length < bytes.length ∧ Plumbing.next.run ⟨dec, xs⟩ = ⟨⟨dec, xs⟩, [], .ok none⟩) ∨
      ∃ rest, rest ++ tail = more ∧
        Plumbing.next.run ⟨dec, xs⟩ = ⟨⟨dec', rest⟩, [], .ok (some msg)⟩ := by
  have hverdict := hframe.verdict
  by_cases hle : bytes.length ≤ xs.length
  · obtain ⟨rest, rfl⟩ : bytes <+: xs :=
      List.prefix_of_prefix_length_le (List.prefix_append _ _) ⟨tail, h⟩ hle
    rw [List.append_assoc] at h
    refine .inr ⟨rest, List.append_cancel_left h, ?_⟩
    have hitem := FixDecoder.verdict_incremental.item hverdict rest
    simp [Plumbing.next, FixDecoder.decode_of_item hitem, Except.mapError]
  · obtain ⟨ys, rfl⟩ : xs <+: bytes :=
      List.prefix_of_prefix_length_le ⟨tail, h⟩ (List.prefix_append _ _) (by omega)
    have hne : ys ≠ [] := by
      intro hnil
      rw [hnil, List.append_nil] at hle
      exact hle (Nat.le_refl _)
    have hmore := FixDecoder.verdict_incremental.more hverdict hne
    refine .inl ⟨by omega, ?_⟩
    simp [Plumbing.next, FixDecoder.decode_of_more hmore, Except.mapError]

variable {logonFrame : Bytes} {logon : Tape.Message}

/-! ## The initiator -/

theorem onPeerLogon_eq {logon} (htype : logon.msgType = "A") {s} (hsent : s.highestSent ≠ 0)
    (now : Instant) :
    (InitiatorHandshake.onPeerLogon logon now).run s = (peerLogon logon now).run s := by
  simp [InitiatorHandshake.onPeerLogon, peerLogon, Session.expectLogon, htype, hsent]

section

variable {now : Instant} {src : Bytes} {handshake : Option InitiatorHandshake} {p : Plumbing}
  {config : DriverConfig} {buf : Bytes}

theorem InitiatorDriver.onBytes_more
    (h : Plumbing.next.run ⟨dec, buf ++ src⟩ = ⟨p, [], .ok none⟩) :
    (InitiatorDriver.onBytes now src).run ⟨handshake, ⟨dec, buf⟩, config⟩ =
      ⟨⟨handshake, p, config⟩, [], .ok none⟩ := by
  simp [InitiatorDriver.onBytes, InitiatorDriver.onPlumbing, Plumbing.extend, h]

theorem InitiatorDriver.onBytes_item (h : Plumbing.next.run ⟨dec, buf ++ src⟩ = ⟨p, [], .ok (some msg)⟩) :
    (InitiatorDriver.onBytes now src).run ⟨handshake, ⟨dec, buf⟩, config⟩ =
      (InitiatorDriver.complete msg now).run ⟨handshake, p, config⟩ := by
  simp [InitiatorDriver.onBytes, InitiatorDriver.onPlumbing, Plumbing.extend, h]

end

/-- Whatever the reads, the initiator's session processes the Logon and then each later
frame. -/
theorem InitiatorDriver.handoff_delivers (hlogon : IsFrame dec dec' logonFrame logon)
    (htype : logon.view.msgType = "A") (hframes : ∀ f ∈ frames, IsFrame dec' dec' f.1 f.2) {h}
    (hsent : h.state.highestSent ≠ 0) (config : DriverConfig) (startAt : Instant)
    (reads : List (Instant × Bytes)) (buf : Bytes) (hbuf : buf.length < logonFrame.length)
    (hreads : buf ++ reads.flatMap Prod.snd = logonFrame ++ frames.flatMap Prod.fst) :
    ∃ read ∈ reads, Delivers ((peerLogon logon.view read.1).run h.state) (frames.map Prod.snd)
      (InitiatorDriver.handoff startAt reads ⟨some h, ⟨dec, buf⟩, config⟩) := by
  induction reads generalizing buf with
  | nil =>
    have := congrArg List.length hreads
    simp at this
    omega
  | cons read reads ih =>
    rw [List.flatMap_cons, ← List.append_assoc] at hreads
    rcases next_of_first hlogon hreads with ⟨hlt, hnext⟩ | ⟨rest, hrest, hnext⟩
    · obtain ⟨read', hmem, hdelivers⟩ := ih (buf ++ read.2) hlt hreads
      refine ⟨read', List.mem_cons_of_mem _ hmem, ?_⟩
      rw [InitiatorDriver.handoff, InitiatorDriver.onBytes_more hnext]
      exact hdelivers
    · refine ⟨read, List.mem_cons_self, ?_⟩
      rw [InitiatorDriver.handoff, InitiatorDriver.onBytes_item hnext]
      simp only [InitiatorDriver.complete, onPeerLogon_eq htype hsent, ofSession]
      cases hresult : ((peerLogon logon.view read.1).run h.state).result with
      | error f => exact .refused hresult
      | ok progress => exact EstablishedDriver.handoff_delivers hframes hresult hrest startAt

/-! ## The acceptor -/

section

variable {src : Bytes} {handshake : AcceptorHandshake} {p : Plumbing} {buf : Bytes}

theorem AcceptorDriver.onBytes_more
    (h : Plumbing.next.run ⟨dec, buf ++ src⟩ = ⟨p, [], .ok none⟩) :
    (AcceptorDriver.onBytes src).run ⟨handshake, ⟨dec, buf⟩⟩ =
      ⟨⟨handshake, p⟩, [], .ok none⟩ := by
  simp [AcceptorDriver.onBytes, AcceptorDriver.onPlumbing, Plumbing.extend, h]

theorem AcceptorDriver.onBytes_item (h : Plumbing.next.run ⟨dec, buf ++ src⟩ = ⟨p, [], .ok (some msg)⟩) :
    (AcceptorDriver.onBytes src).run ⟨handshake, ⟨dec, buf⟩⟩ =
      (AcceptorDriver.identify msg).run ⟨handshake, p⟩ := by
  simp [AcceptorDriver.onBytes, AcceptorDriver.onPlumbing, Plumbing.extend, h]

end

theorem identify_eq {handshake : AcceptorHandshake} (hpending : handshake.pending = none) {logon}
    (htype : logon.msgType = "A") {id} (hid : Session.sessionIdFromLogon logon = .ok id) :
    handshake.identify logon = .ok { handshake with pending := some ⟨id, logon⟩ } := by
  simp [AcceptorHandshake.identify, hpending, Session.expectLogon, htype, hid, bind, Except.bind,
    pure, Except.pure]

/-- Whatever the reads, the acceptor's session processes the Logon and then each later
frame. -/
theorem AcceptorDriver.handoff_delivers (hlogon : IsFrame dec dec' logonFrame logon)
    (htype : logon.view.msgType = "A") (hframes : ∀ f ∈ frames, IsFrame dec' dec' f.1 f.2) {id}
    (hid : Session.sessionIdFromLogon logon.view = .ok id) {handshake}
    (hpending : handshake.pending = none) (config : SessionConfig) (nextInSeqNum : Nat)
    (acceptAt startAt : Instant) (reads : List (Instant × Bytes)) (buf : Bytes)
    (hbuf : buf.length < logonFrame.length)
    (hreads : buf ++ reads.flatMap Prod.snd = logonFrame ++ frames.flatMap Prod.fst) :
    Delivers ((AcceptorHandshake.welcome logon.view acceptAt).run
        (SessionState.new id config nextInSeqNum acceptAt)) (frames.map Prod.snd)
      (AcceptorDriver.handoff config nextInSeqNum acceptAt startAt reads
        ⟨handshake, ⟨dec, buf⟩⟩) := by
  induction reads generalizing buf with
  | nil =>
    have := congrArg List.length hreads
    simp at this
    omega
  | cons read reads ih =>
    rw [List.flatMap_cons, ← List.append_assoc] at hreads
    rcases next_of_first hlogon hreads with ⟨hlt, hnext⟩ | ⟨rest, hrest, hnext⟩
    · have hdelivers := ih (buf ++ read.2) hlt hreads
      rw [AcceptorDriver.handoff, AcceptorDriver.onBytes_more hnext]
      exact hdelivers
    · rw [AcceptorDriver.handoff, AcceptorDriver.onBytes_item hnext]
      simp only [AcceptorDriver.identify, identify_eq hpending htype hid, AcceptorDriver.accept,
        AcceptorHandshake.accept, ofSession, Option.map_some, List.nil_append]
      cases hresult : ((AcceptorHandshake.welcome logon.view acceptAt).run
          (SessionState.new id config nextInSeqNum acceptAt)).result with
      | error f => exact .refused hresult
      | ok progress => exact EstablishedDriver.handoff_delivers hframes hresult hrest startAt

end

namespace Sample

/-- A version with nothing but header fields and a checksum. -/
def dict : Tape.Dictionary where
  beginString := ascii "FIX.4.4"
  fields := [8, 9, 35, 34, 49, 56].map (fun tag => (tag, ⟨.plain, true, false⟩)) ++
    [(10, ⟨.plain, false, true⟩)]
  groups := []
  messages := []
  messagesByType := []
  headerGroups := []
  globalGroups := []

def decoder : FixDecoder := FixDecoder.withDictionary [dict] (some 124) dict

def logonFrame : Bytes := ascii "8=FIX.4.4|9=32|35=A|34=1|49=B|56=A|98=0|108=30|10=170|"

def heartbeatFrame : Bytes := ascii "8=FIX.4.4|9=20|35=0|34=2|49=B|56=A|10=126|"

/-- The message a frame holds. -/
def message (bytes : Bytes) (h : (Tape.Message.parseDelimited dict bytes 124).toOption.isSome) :
    Tape.Message :=
  (Tape.Message.parseDelimited dict bytes 124).toOption.get h

def logon : Tape.Message := message logonFrame (by decide +kernel)

def heartbeat : Tape.Message := message heartbeatFrame (by decide +kernel)

/-- The Logon in two reads, the second with the Heartbeat. -/
def reads : List (Instant × Bytes) :=
  [(0, logonFrame.take 20), (0, logonFrame.drop 20 ++ heartbeatFrame)]

end Sample

end Babelfix.Driver
