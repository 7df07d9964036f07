import Babelfix.Session.Resend
import Babelfix.Session.Endpoint

/-! # Numbers on the wire

As long as the peer's ResendRequests are open-ended, every new message goes out
under a number above everything that was on the wire, and every retransmission and
gap fill under one that is not. -/
namespace Babelfix.Session
open Lib

/-- What goes on the wire when nothing above `k` is on it, and nothing above `k'` after
it. The new messages carry numbers of `D`. -/
inductive Rising (D : List Nat) : Nat → List (Origin × Unstamped) → Nat → Prop
  | nil {k} : Rising D k [] k
  | fresh {k n u rest k'} (hn : Carries u.msg n) (hlt : k < n) (hD : n ∈ D)
    (h : Rising D n rest k') : Rising D k ((.fresh, u) :: rest) k'
  | answer {k n origin u rest k'} (ho : origin ≠ .fresh) (hn : Carries u.msg n) (hle : n ≤ k)
    (h : Rising D k rest k') : Rising D k ((origin, u) :: rest) k'

variable {D : List Nat} {k k' base : Nat} {xs ys : List (Origin × Unstamped)}

theorem Rising.le (h : Rising D k xs k') : k ≤ k' := by
  induction h with
  | nil => exact le_rfl
  | fresh _ hlt _ _ ih => exact hlt.le.trans ih
  | answer _ _ _ _ ih => exact ih

/-- The highest number comes from a new message, if it has changed. -/
theorem Rising.top (h : Rising D k xs k') : k' = k ∨ k' ∈ D := by
  induction h with
  | nil => exact .inl rfl
  | fresh _ _ hD _ ih => exact .inr (ih.elim (fun heq => heq ▸ hD) id)
  | answer _ _ _ _ ih => exact ih

/-- Answers to the peer come first. -/
theorem Rising.after (h : Rising D k ys k')
    (hx : ∀ x ∈ xs, x.1 ≠ .fresh ∧ ∃ n, Carries x.2.msg n ∧ n ≤ k) : Rising D k (xs ++ ys) k' := by
  induction xs with
  | nil => exact h
  | cons x rest ih =>
    obtain ⟨ho, n, hn, hle⟩ := hx x List.mem_cons_self
    exact .answer ho hn hle (ih fun y hy => hx y (List.mem_cons_of_mem _ hy))

theorem origin_ne_fresh {o} (h : freshSends o = []) : ∀ x ∈ transmissions o, x.1 ≠ .fresh := by
  intro x hx heq
  have hmem : x.2.msg ∈ freshSends o := List.mem_filterMap.mpr ⟨x, hx, by rw [if_pos heq]⟩
  rw [h] at hmem
  cases hmem

/-- The number of a message given to the session to send. -/
def Given (D : List Nat) (base : Nat) (msg : Message) : Prop :=
  ∃ n, Carries msg n ∧ base < n ∧ n ∈ D

/-- Nothing above `k` is on the wire; what is replayed has been on it, and what is held
back has not. Before this connection nothing above `base` was on it. -/
structure Fenced (D : List Nat) (base k : Nat) (s : SessionState) : Prop where
  sent : s.highestSent ≤ k
  top : k ≤ max base s.highestAccepted
  range : ∀ replay, s.replay = some replay → replay.endSeqNo ≤ k
  queue : (queued s).Pairwise Before
  held : ∀ msg ∈ queued s, ∃ n, Carries msg n ∧ k < n ∧ n ≤ s.highestAccepted ∧ n ∈ D

/-- What a call leaves and writes. -/
def Advances (D : List Nat) (base k : Nat) (s : SessionState) (o : List Effect) : Prop :=
  ∃ k', Fenced D base k' s ∧ Rising D k (transmissions o) k'

theorem fenced_new (sessionId : SessionIdentifier) (config : SessionConfig) (n : Nat) (now : Instant)
    (hk : k ≤ base) : Fenced D base k (.new sessionId config n now) where
  sent := Nat.zero_le k
  top := hk.trans (le_max_left _ _)
  range := by rintro _ ⟨⟩
  queue := .nil
  held := by rintro _ ⟨⟩

variable {s s' : SessionState} {o : List Effect}

theorem Fenced.same (h : Fenced D base k s) (hs : SameSending s s') : Fenced D base k s' := by
  have hq : queued s' = queued s := by rw [queued, queued, hs.replay]
  refine ⟨?_, ?_, ?_, ?_, ?_⟩
  · rw [hs.highestSent]
    exact h.sent
  · rw [hs.highestAccepted]
    exact h.top
  · rw [hs.replay]
    exact h.range
  · rw [hq]
    exact h.queue
  · rw [hq, hs.highestAccepted]
    exact h.held

/-- A request for everything from some number on. -/
def OpenEnded (msg : Message) : Prop :=
  msg.msgType = "2" → ∀ last, msg.body.req Fields.endSeqNo = .ok last → last = 0

variable {msg : Message}

theorem Fenced.inbound (h : Fenced D base k s) (hs : Outbound msg s s' o) (hopen : OpenEnded msg) :
    Advances D base k s' o := by
  obtain ⟨hsame, hrep, ho⟩ := hs
  rw [Advances, ho]
  refine ⟨k, ?_, .nil⟩
  cases hrep with
  | same hr ha _ => exact h.same ⟨hsame.sessionId, hsame.config, hsame.highestSent, ha, hr⟩
  | @started first last replay h2 hb he hnone hstart hr ha _ =>
    obtain ⟨-, -, rfl⟩ := Replay.start_eq_ok hstart
    have hempty : queued s' = [] := by rw [queued, hr]; rfl
    refine ⟨hsame.highestSent ▸ h.sent, ?_, ?_, by simp [hempty], by simp [hempty]⟩
    · rw [ha]
      exact h.top.trans (max_le_max_left _ (le_max_left _ _))
    · rw [hr]
      rintro _ ⟨⟩
      cases hopen h2 last he
      exact h.sent

theorem Fenced.replay {r} (h : Fenced D base k s) (hr : Replayed msg s r) :
    Advances D base k r.state r.out := by
  obtain ⟨hfresh, hle, hkeep, -⟩ := hr.order
  have hacc : r.state.highestAccepted = s.highestAccepted := by rw [hr.frame]
  refine ⟨k, ⟨hle k h.sent h.range, by rw [hacc]; exact h.top, ?_, ?_, ?_⟩, ?_⟩
  · intro replay' hr'
    obtain ⟨replay, hs, hend, -⟩ := hkeep replay' hr'
    exact hend ▸ h.range replay hs
  · rw [hr.queued_eq]
    exact h.queue
  · rw [hr.queued_eq, hacc]
    exact h.held
  · rw [← List.append_nil (transmissions r.out)]
    refine Rising.nil.after ?_
    intro x hx
    obtain ⟨replay, hs, hans⟩ := hr.answers x hx
    obtain ⟨n, hn, hnle⟩ := hans.number
    exact ⟨origin_ne_fresh hfresh x hx, n, hn, hnle.trans (h.range replay hs)⟩

theorem rising_queue {out : List Message} {top} (s : SessionState) (hq : out.Pairwise Before)
    (hb : ∀ msg ∈ out, ∃ n, Carries msg n ∧ k < n ∧ n ≤ top ∧ n ∈ D) :
    ∃ k', Rising D k (out.map fun msg => (.fresh, s.onWire msg)) k' ∧ (k' = k ∨ k' ≤ top) ∧
      ∀ msg ∈ out, ∀ n, Carries msg n → n ≤ k' := by
  induction out generalizing k with
  | nil => exact ⟨k, .nil, .inl rfl, by simp⟩
  | cons msg rest ih =>
    obtain ⟨n, hn, hlt, hle, hD⟩ := hb msg List.mem_cons_self
    obtain ⟨hfirst, hrest⟩ := List.pairwise_cons.mp hq
    obtain ⟨k', hr, htop, hall⟩ := ih (k := n) hrest (by
      intro x hx
      obtain ⟨a, b, ha, hbx, hab⟩ := hfirst x hx
      obtain ⟨m, hm, -, hmle, hmD⟩ := hb x (List.mem_cons_of_mem _ hx)
      cases hn.symm.trans ha
      cases hbx.symm.trans hm
      exact ⟨b, hbx, hab, hmle, hmD⟩)
    refine ⟨k', .fresh ((s.onWire_msgSeqNum msg).trans hn) hlt hD hr,
      .inr (htop.elim (fun heq => heq ▸ hle) id), ?_⟩
    intro x hx m hm
    obtain rfl | hx := List.mem_cons.mp hx
    · cases hn.symm.trans hm
      exact hr.le
    · exact hall x hx m hm

variable {r : OpOutcome Progress}

theorem Fenced.complete (h : Fenced D base k s) (hc : Completed s r) :
    Advances D base k r.state r.out := by
  obtain ⟨fills, rest, out, left, hf⟩ := hc.finishes
  have hqueue := h.queue
  have hheld := h.held
  rw [hf.queue] at hqueue hheld
  obtain ⟨k', hr, htop, hall⟩ := rising_queue s (List.pairwise_append.mp hqueue).1
    (fun msg hmsg => hheld msg (List.mem_append_left _ hmsg))
  have hrange : ∀ replay, s.replay = some replay → replay.endSeqNo ≤ k' :=
    fun replay hs => (h.range replay hs).trans hr.le
  refine ⟨k', ⟨hf.sent k' (h.sent.trans hr.le) hrange hall, ?_, ?_, by simp [hf.empty],
    by simp [hf.empty]⟩, ?_⟩
  · rw [hf.accepted]
    exact htop.elim (fun heq => heq ▸ h.top) (fun hle => hle.trans (le_max_right _ _))
  · intro replay' hr'
    obtain ⟨replay, hs, hend⟩ := hf.range replay' hr'
    exact hend ▸ hrange replay hs
  · rw [hf.output, transmissions_append, hf.rest]
    refine hr.after ?_
    intro x hx
    have ho := origin_ne_fresh hf.fills x hx
    obtain ⟨replay, hs, hans⟩ := hc.answers x
      (by rw [hf.output, transmissions_append]; exact List.mem_append_left _ hx) ho
    obtain ⟨n, hn, hle⟩ := hans.number
    exact ⟨ho, n, hn, hle.trans (h.range replay hs)⟩

theorem Fenced.send {now} (h : Fenced D base k s) (hs : Sent msg now s r)
    (hgiven : Given D base msg) : Advances D base k r.state r.out := by
  obtain ⟨m, hm, hbase, hD⟩ := hgiven
  have hlt : ∀ {n}, Carries msg n → Admissible msg s n → n = m ∧ k < m ∧ s.highestAccepted < m := by
    intro n hn ha
    cases hn.symm.trans hm
    exact ⟨rfl, lt_of_le_of_lt h.top (max_lt hbase ha.beyond), ha.beyond⟩
  cases hs with
  | rejected hno => exact ⟨k, h, .nil⟩
  | @deferred n replay hn ha hr =>
    obtain ⟨rfl, hk, hacc⟩ := hlt hn ha
    have hqueued : queued s = replay.queue := by rw [queued, hr]; rfl
    have hqueue := h.queue
    have hheld := h.held
    rw [hqueued] at hqueue hheld
    refine ⟨k, ⟨h.sent, hk.le.trans (le_max_right _ _), ?_, ?_, ?_⟩, .nil⟩
    · rintro _ ⟨⟩
      exact h.range replay hr
    · refine List.pairwise_append.mpr ⟨hqueue, List.pairwise_singleton _ _, ?_⟩
      intro a hmem b hb
      obtain ⟨j, hj, -, hle, -⟩ := hheld a hmem
      cases List.mem_singleton.mp hb
      exact ⟨j, n, hj, hn, lt_of_le_of_lt hle hacc⟩
    · intro x hx
      obtain hx | hx := List.mem_append.mp (show x ∈ replay.queue ++ [msg] from hx)
      · obtain ⟨j, hj, hjk, hle, hjD⟩ := hheld x hx
        exact ⟨j, hj, hjk, hle.trans hacc.le, hjD⟩
      · cases List.mem_singleton.mp hx
        exact ⟨n, hn, hk, le_rfl, hD⟩
  | @dispatched n hn ha hr =>
    obtain ⟨rfl, hk, -⟩ := hlt hn ha
    have hempty : queued (noted msg (transmitted (taken msg n now s) n)) = [] := by
      show queued s = []
      rw [queued, hr]
      rfl
    refine ⟨n, ⟨max_le (h.sent.trans hk.le) le_rfl, le_max_right _ _, ?_, by simp [hempty],
      by simp [hempty]⟩, ?_⟩
    · intro replay hreplay
      cases hr.symm.trans hreplay
    · rw [transmissions_dispatchOut]
      exact .fresh ((s.onWire_msgSeqNum msg).trans hn) hk hD .nil

/-- **Every call.** -/
theorem Fenced.step {i} (h : Fenced D base k s) (hs : Step i s r)
    (hopen : ∀ msg, i.inbound = some msg → OpenEnded msg)
    (hsend : ∀ msg now, i = .command (.send msg) now → Given D base msg) :
    Advances D base k r.state r.out := by
  cases hs.sending with
  | inbound hi hs => exact h.inbound hs (hopen _ hi)
  | send hi hs => exact h.send hs (hsend _ _ hi)
  | replay _ hs hstate hout =>
    rw [hstate, hout]
    exact (h.same (same_outReset s _)).replay hs
  | complete _ hs => exact (h.same (same_outReset s _)).complete hs
  | quiet _ hs ho _ =>
    rw [Advances, ho]
    exact ⟨k, h.same hs, .nil⟩

/-! ## One side of a connection -/

/-- What a connection is given to send is new, and the peer's requests are open-ended. -/
def EndpointInput.Fits (D : List Nat) (base : Nat) : EndpointInput → Prop
  | .command (.send msg) _ => Given D base msg
  | .receive msg _ => OpenEnded msg
  | _ => True

/-- A session that is yet to be opened starts afresh. -/
structure Serving (D : List Nat) (base k : Nat) (e : Endpoint) : Prop where
  fenced : Fenced D base k e.session
  idle : e.phase = .idle → k ≤ base

theorem Serving.acted {e i r} (h : Serving D base k e) (ha : Acted i e r) (hi : i.Fits D base) :
    ∃ k', Serving D base k' r.state ∧ Rising D k (transmissions r.out) k' := by
  cases ha with
  | nothing => exact ⟨k, h, .nil⟩
  | announced _ hp => exact ⟨k, ⟨fenced_new _ _ _ _ (h.idle hp), by simp⟩, .nil⟩
  | welcomed heq hp _ _ hs =>
    subst heq
    obtain ⟨k', hf, hr⟩ := (fenced_new _ _ _ _ (h.idle hp)).inbound hs.outbound hi
    exact ⟨k', ⟨hf, by simp⟩, hr⟩
  | @answered logon now r phase heq hp _ _ hs hok herr =>
    subst heq
    obtain ⟨k', hf, hr⟩ := h.fenced.inbound hs.outbound hi
    refine ⟨k', ⟨hf, fun hphase => ?_⟩, hr⟩
    cases hres : r.result with
    | error f => exact absurd ((herr f hres).symm.trans hphase) hp
    | ok p => cases (hok p hres).symm.trans hphase
  | @passed j r hj hp hs =>
    obtain ⟨k', hf, hr⟩ := h.fenced.step hs
      (by rintro msg hmsg; cases i <;> cases hj <;> cases hmsg; exact hi)
      (by rintro msg now rfl; cases i <;> cases hj; exact hi)
    exact ⟨k', ⟨hf, fun hphase => absurd hphase hp⟩, hr⟩

end Babelfix.Session
