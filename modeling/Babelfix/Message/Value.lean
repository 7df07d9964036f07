import Babelfix.Lib.Except
import Mathlib.Data.Nat.Log
import Mathlib.Tactic.Ring
import Mathlib.Tactic.Linarith

/-! # Field values

The bytes of a field's value, and the three datatypes the session layer reads:
unsigned and signed integers and booleans (`message/types.rs`). A `u64` is a
`Nat`; decoding rejects what does not fit. -/
namespace Babelfix

abbrev Bytes := List UInt8

/-- The field delimiter. -/
def soh : UInt8 := 1

def u64Max : Nat := 2 ^ 64 - 1

def i64Max : Nat := 2 ^ 63 - 1

/-- Latin-1 text as bytes. -/
def ascii (s : String) : Bytes := s.toList.map fun c => UInt8.ofNat c.toNat

/-- Why a value could not be decoded or encoded. -/
inductive ValueError where
  | malformed
  | outOfRange
  | empty
  | delimiter
  | unrepresentable
  deriving DecidableEq, Repr

def ValueError.text : ValueError → String
  | .malformed => "malformed value"
  | .outOfRange => "value out of range"
  | .empty => "empty value"
  | .delimiter => "value contains the field delimiter"
  | .unrepresentable => "value not representable in Latin-1"

/-! ## Unsigned integers -/

/-- The number of decimal digits in `n`. -/
def digits (n : Nat) : Nat := if n = 0 then 1 else Nat.log 10 n + 1

/-- The last `n` decimal digits of `v`, filled in from the right. -/
def writeDigits : Nat → Nat → Bytes
  | 0, _ => []
  | n + 1, v => writeDigits n (v / 10) ++ [48 + UInt8.ofNat (v % 10)]

def writeUint (v : Nat) : Bytes := writeDigits (digits v) v

/-- The loop of `parse_uint`, with the value read so far. -/
def parseUintFrom (v : Nat) : Bytes → Except ValueError Nat
  | [] => .ok v
  | c :: rest =>
    let d := c - 48
    if d > 9 then
      .error .malformed
    else if v * 10 > u64Max then
      .error .outOfRange
    else if v * 10 + d.toNat > u64Max then
      .error .outOfRange
    else
      parseUintFrom (v * 10 + d.toNat) rest

/-- Digits only; leading zeros allowed. -/
def parseUint (raw : Bytes) : Except ValueError Nat :=
  if raw.isEmpty then .error .malformed else parseUintFrom 0 raw

theorem parseUintFrom_le {raw} : ∀ {v n : Nat}, v ≤ u64Max →
    parseUintFrom v raw = .ok n → n ≤ u64Max := by
  induction raw with
  | nil =>
    intro v n hv h
    cases h
    exact hv
  | cons c rest ih =>
    intro v n hv h
    simp only [parseUintFrom] at h
    split at h
    · cases h
    · split at h
      · cases h
      · split at h
        · cases h
        · exact ih (by omega) h

theorem parseUint_le {raw n} (h : parseUint raw = .ok n) : n ≤ u64Max := by
  unfold parseUint at h
  split at h
  · cases h
  · exact parseUintFrom_le (by simp [u64Max]) h

theorem digit_sub (d : Nat) : (48 + UInt8.ofNat d) - 48 = UInt8.ofNat d := by
  rw [UInt8.add_comm, UInt8.add_sub_cancel]

theorem digit_toNat (d : Nat) (h : d < 10) : (UInt8.ofNat d).toNat = d := by
  rw [UInt8.toNat_ofNat']; omega

theorem parseUintFrom_append (xs ys : Bytes) : ∀ v : Nat,
    parseUintFrom v (xs ++ ys) = (parseUintFrom v xs).bind fun w => parseUintFrom w ys := by
  induction xs with
  | nil => intro v; rfl
  | cons c rest ih =>
    intro v
    simp only [List.cons_append, parseUintFrom]
    split
    · rfl
    · split
      · rfl
      · split
        · rfl
        · exact ih _

/-- Reading back the digits written for `v` appends them to what was read. -/
theorem parseUintFrom_writeDigits : ∀ (n v w : Nat), w * 10 ^ n + v % 10 ^ n ≤ u64Max →
    parseUintFrom w (writeDigits n v) = .ok (w * 10 ^ n + v % 10 ^ n)
  | 0, v, w, _ => by simp [writeDigits, parseUintFrom, Nat.mod_one]
  | n + 1, v, w, h => by
    have hlt : v % 10 < 10 := Nat.mod_lt _ (by omega)
    have hsplit : v % 10 ^ (n + 1) = 10 * (v / 10 % 10 ^ n) + v % 10 := by
      rw [Nat.pow_succ', Nat.mod_mul]; ring
    have hpow : w * 10 ^ (n + 1) = 10 * (w * 10 ^ n) := by rw [Nat.pow_succ]; ring
    rw [writeDigits, parseUintFrom_append, parseUintFrom_writeDigits n (v / 10) w (by omega)]
    have hd := digit_toNat _ hlt
    have hle : ¬ UInt8.ofNat (v % 10) > 9 := by
      rw [gt_iff_lt, UInt8.lt_iff_toNat_lt, hd]
      simp; omega
    simp only [Except.bind, parseUintFrom, digit_sub, hle, if_false, hd]
    rw [if_neg (by omega), if_neg (by omega)]
    congr 1
    omega

theorem lt_pow_digits (v : Nat) : v < 10 ^ digits v := by
  unfold digits
  split
  · subst v; simp
  · exact Nat.lt_pow_succ_log_self (by omega) v

theorem digits_pos (v : Nat) : 0 < digits v := by
  unfold digits
  split <;> omega

theorem writeDigits_length : ∀ n v : Nat, (writeDigits n v).length = n
  | 0, _ => rfl
  | n + 1, v => by simp [writeDigits, writeDigits_length n]

theorem writeUint_ne_nil (v : Nat) : writeUint v ≠ [] := by
  intro h
  have := writeDigits_length (digits v) v
  rw [writeUint] at h
  rw [h] at this
  have := digits_pos v
  simp at *
  omega

/-- **A `u64` written is read back.** -/
theorem parseUint_writeUint {v} (h : v ≤ u64Max) : parseUint (writeUint v) = .ok v := by
  unfold parseUint
  rw [if_neg (by simpa using writeUint_ne_nil v), writeUint]
  have hv : v % 10 ^ digits v = v := Nat.mod_eq_of_lt (lt_pow_digits v)
  rw [parseUintFrom_writeDigits _ _ _ (by omega), hv]
  simp

theorem notMem_writeDigits {c} (hc : c.toNat < 48) : ∀ n v : Nat, c ∉ writeDigits n v
  | 0, _ => by simp [writeDigits]
  | n + 1, v => by
    simp only [writeDigits, List.mem_append, List.mem_singleton, not_or]
    refine ⟨notMem_writeDigits hc n _, ?_⟩
    intro h
    have hd := digit_toNat (v % 10) (Nat.mod_lt _ (by omega))
    have hval := congrArg UInt8.toNat h
    rw [UInt8.toNat_add, hd] at hval
    have hlt := Nat.mod_lt v (show 10 > 0 by omega)
    simp at hval
    omega

theorem soh_notMem_writeUint (v : Nat) : soh ∉ writeUint v := notMem_writeDigits (by decide) _ _

/-! ## Booleans and signed integers -/

def parseBoolean (raw : Bytes) : Except ValueError Bool :=
  if raw = [89] then .ok true
  else if raw = [78] then .ok false
  else .error .malformed

def writeBoolean (b : Bool) : Bytes := if b then [89] else [78]

/-- A signed integer: an optional `-` before the digits. -/
def parseInt (raw : Bytes) : Except ValueError Int :=
  match raw with
  | 45 :: rest =>
    match parseUint rest with
    | .ok n => if n ≤ 2 ^ 63 then .ok (-(n : Int)) else .error .outOfRange
    | .error e => .error e
  | _ =>
    match parseUint raw with
    | .ok n => if n ≤ i64Max then .ok (n : Int) else .error .outOfRange
    | .error e => .error e

theorem parseInt_writeUint {v} (h : v ≤ i64Max) : parseInt (writeUint v) = .ok (v : Int) := by
  have hu : v ≤ u64Max := h.trans (by decide)
  unfold parseInt
  split
  · rename_i rest hminus
    have hmem : (45 : UInt8) ∈ writeUint v := by rw [hminus]; exact List.mem_cons_self
    exact absurd hmem (notMem_writeDigits (by decide) _ _)
  · rw [parseUint_writeUint hu]
    exact if_pos h

end Babelfix
