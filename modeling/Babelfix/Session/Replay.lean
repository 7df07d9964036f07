import Babelfix.Session.Types

/-! # Answering a ResendRequest

How far through the requested range the replay is, and how many consecutive
numbers are owed a gap fill (`session/replay.rs`). -/
namespace Babelfix.Session

/-- What the replay wants done for one message the application offered. -/
inductive ReplayStep where
  | skip
  | absorb
  /-- Retransmit it, after a gap fill over these inclusive bounds if there is one. -/
  | retransmit (gapFill : Option (Nat × Nat))
  deriving DecidableEq, Repr

structure Replay where
  beginSeqNo : Nat
  endSeqNo : Nat
  /-- The next number in the range not yet accounted for. -/
  nextExpectedSeqNum : Nat
  /-- How many numbers immediately before it are owed a gap fill. -/
  gapFillCount : Nat
  /-- Messages sent normally while the replay was in progress. -/
  queue : List Message
  deriving DecidableEq, Repr

namespace Replay

/-- Begin a replay for the range the peer asked for. -/
def start (beginSeqNo endSeqNo nextOutSeqNum : Nat) : Except Fault Replay :=
  if endSeqNo > 0 ∧ beginSeqNo > endSeqNo then
    .error (.err (.protocolViolation "Invalid ResendRequest"))
  else if beginSeqNo = 0 then
    .error (.err (.protocolViolation "Invalid ResendRequest; BeginSeqNo must be at least 1"))
  else
    .ok {
      beginSeqNo
      -- `saturating_sub`: truncated subtraction is what is meant here
      endSeqNo := if endSeqNo > 0 then endSeqNo else nextOutSeqNum - 1
      nextExpectedSeqNum := beginSeqNo
      gapFillCount := 0
      queue := [] }

/-- Hold an ordinary outbound message until the replay finishes. -/
def defer (r : Replay) (msg : Message) : Replay := { r with queue := r.queue ++ [msg] }

/-- Account for a message the application offered for retransmission. -/
def offer (r : Replay) (msgSeqNum : Nat) (gapFilled : Bool) :
    Except Fault (Replay × ReplayStep) := do
  if msgSeqNum < r.nextExpectedSeqNum then
    return (r, .skip)
  if msgSeqNum > r.endSeqNo then
    return (r, .skip)
  let skipped ← subU64 msgSeqNum r.nextExpectedSeqNum
  let gapFillCount ← addU64 r.gapFillCount skipped
  let nextExpectedSeqNum ← addU64 msgSeqNum 1
  if gapFilled then
    let gapFillCount ← addU64 gapFillCount 1
    return ({ r with nextExpectedSeqNum, gapFillCount }, .absorb)
  if gapFillCount > 0 then
    let pastGap ← subU64 nextExpectedSeqNum gapFillCount
    let firstSkipped ← subU64 pastGap 1
    let last ← subU64 msgSeqNum 1
    return ({ r with nextExpectedSeqNum, gapFillCount := 0 }, .retransmit (some (firstSkipped, last)))
  return ({ r with nextExpectedSeqNum, gapFillCount := 0 }, .retransmit none)

/-- The gap fill that covers whatever is left of the requested range. -/
def trailingGapFill (r : Replay) : Except Fault (Option (Nat × Nat)) := do
  let first ← subU64 r.nextExpectedSeqNum r.gapFillCount
  return if first ≤ r.endSeqNo then some (first, r.endSeqNo) else none

/-- A replay starts at the number asked for, and runs to the one asked for or to
everything sent. -/
theorem start_eq_ok {first last nextOut r} (h : start first last nextOut = .ok r) :
    1 ≤ first ∧ (0 < last → first ≤ last) ∧
      r = ⟨first, if last > 0 then last else nextOut - 1, first, 0, []⟩ := by
  unfold start at h
  split at h
  · cases h
  split at h
  · cases h
  · cases h
    exact ⟨by omega, by omega, rfl⟩

/-- How many numbers before `n` are owed a gap fill once `n` is offered. -/
def owed (r : Replay) (n : Nat) : Nat := r.gapFillCount + (n - r.nextExpectedSeqNum)

/-- What offering the message numbered `n` can do. -/
inductive Offered (r : Replay) (n : Nat) : Bool → Replay × ReplayStep → Prop
  | skip {b} (h : n < r.nextExpectedSeqNum ∨ r.endSeqNo < n) : Offered r n b (r, .skip)
  | absorb (h : r.nextExpectedSeqNum ≤ n) (he : n ≤ r.endSeqNo) :
    Offered r n true
      ({ r with nextExpectedSeqNum := n + 1, gapFillCount := r.owed n + 1 }, .absorb)
  | plain (h : r.nextExpectedSeqNum ≤ n) (he : n ≤ r.endSeqNo) (ho : r.owed n = 0) :
    Offered r n false
      ({ r with nextExpectedSeqNum := n + 1, gapFillCount := 0 }, .retransmit none)
  | fill (h : r.nextExpectedSeqNum ≤ n) (he : n ≤ r.endSeqNo) (ho : 0 < r.owed n)
    (hle : r.owed n ≤ n) :
    Offered r n false ({ r with nextExpectedSeqNum := n + 1, gapFillCount := 0 },
      .retransmit (some (n - r.owed n, n - 1)))

/-- A replay that owes no more than it has passed takes any offer: its counters neither
overflow nor underflow. -/
theorem offer_isOk {r : Replay} (howed : r.gapFillCount ≤ r.nextExpectedSeqNum)
    (hbound : r.endSeqNo < u64Max) (n : Nat) (b : Bool) : ∃ p, r.offer n b = .ok p := by
  unfold offer
  by_cases hlow : n < r.nextExpectedSeqNum
  · exact ⟨_, by simp only [hlow, if_true]; rfl⟩
  by_cases hhigh : n > r.endSeqNo
  · exact ⟨_, by simp only [hlow, hhigh, if_true, if_false]; rfl⟩
  have hskipped : subU64 n r.nextExpectedSeqNum = .ok (n - r.nextExpectedSeqNum) := by
    rw [subU64_eq_ok]; omega
  have hcount : addU64 r.gapFillCount (n - r.nextExpectedSeqNum) = .ok (r.owed n) := by
    rw [addU64_eq_ok]; unfold Replay.owed; omega
  have hnext : addU64 n 1 = .ok (n + 1) := by rw [addU64_eq_ok]; omega
  have hle : r.owed n ≤ n := by unfold Replay.owed; omega
  have hpast : subU64 (n + 1) (r.owed n) = .ok (n + 1 - r.owed n) := by
    rw [subU64_eq_ok]; omega
  have hfirst : subU64 (n + 1 - r.owed n) 1 = .ok (n + 1 - r.owed n - 1) := by
    rw [subU64_eq_ok]; omega
  simp only [hlow, hhigh, if_false, hskipped, hcount, hnext, bind, Except.bind]
  cases b with
  | true =>
    have hmore : addU64 (r.owed n) 1 = .ok (r.owed n + 1) := by rw [addU64_eq_ok]; omega
    exact ⟨_, by simp only [if_true, hmore]; rfl⟩
  | false =>
    by_cases hzero : r.owed n > 0
    · have hlast : subU64 n 1 = .ok (n - 1) := by rw [subU64_eq_ok]; omega
      exact ⟨_, by simp only [Bool.false_eq_true, if_false, hzero, if_true, hpast, hfirst, hlast]
                   rfl⟩
    · exact ⟨_, by simp only [Bool.false_eq_true, if_false, hzero]; rfl⟩

theorem offer_spec {r n b p} (h : r.offer n b = .ok p) : Offered r n b p := by
  unfold offer at h
  split at h
  · cases h
    exact .skip (.inl ‹_›)
  split at h
  · cases h
    exact .skip (.inr ‹_›)
  have hlo : r.nextExpectedSeqNum ≤ n := by omega
  have hhi : n ≤ r.endSeqNo := by omega
  obtain ⟨skipped, hskipped, h⟩ := bind_eq_ok h
  obtain ⟨-, rfl⟩ := subU64_eq_ok.mp hskipped
  obtain ⟨count, hcount, h⟩ := bind_eq_ok h
  obtain ⟨-, hcount⟩ := addU64_eq_ok.mp hcount
  have howed : count = r.owed n := hcount
  subst howed
  obtain ⟨next, hnext, h⟩ := bind_eq_ok h
  obtain ⟨-, rfl⟩ := addU64_eq_ok.mp hnext
  cases b with
  | true =>
    obtain ⟨more, hmore, h⟩ := bind_eq_ok h
    obtain ⟨-, rfl⟩ := addU64_eq_ok.mp hmore
    cases h
    exact .absorb hlo hhi
  | false =>
    simp only [Bool.false_eq_true, if_false] at h
    split at h
    · rename_i hpos
      obtain ⟨past, hpast, h⟩ := bind_eq_ok h
      obtain ⟨-, rfl⟩ := subU64_eq_ok.mp hpast
      obtain ⟨first, hfirst, h⟩ := bind_eq_ok h
      obtain ⟨hone, rfl⟩ := subU64_eq_ok.mp hfirst
      obtain ⟨last, hlast, h⟩ := bind_eq_ok h
      obtain ⟨-, rfl⟩ := subU64_eq_ok.mp hlast
      cases h
      have hle : r.owed n ≤ n := by omega
      have hfirst : n + 1 - r.owed n - 1 = n - r.owed n := by omega
      rw [hfirst]
      exact .fill hlo hhi hpos hle
    · cases h
      exact .plain hlo hhi (by omega)

end Replay

end Babelfix.Session
