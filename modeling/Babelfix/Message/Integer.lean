import Babelfix.Message.Value

/-! # Writing integers

How the integer types are written into a message (`ValueWriter` and the `ToFix`
implementations of `message/types.rs`) and read back as the field types UInt and Int.
Unsigned types are written as both, signed ones as Int only. -/
namespace Babelfix

/-- A call that returns a `Result`, or panics: `none`. -/
abbrev Checked (α : Type) : Type := ExceptT ValueError Option α

def Checked.crash {α : Type} : Checked α := ExceptT.mk none

/-! ## The writer -/

/-- `put_with`: room for `max` bytes is added and cut back to what was written. -/
def putWith (buf : Bytes) (max : Nat) (write : Bytes → Checked (Bytes × Nat)) : Checked Bytes := do
  let (room, n) ← write (List.replicate max 0)
  if n ≤ max then return buf ++ room.take n else Checked.crash

/-- The most decimal digits a `u64` has. -/
def maxUintDigits : Nat := 20

/-- `write_uint`: the digits at the start of `out`, and how many there are. -/
def writeUintAt (v : Nat) (out : Bytes) : Checked (Bytes × Nat) :=
  if digits v ≤ out.length then return (writeUint v ++ out.drop (digits v), digits v)
  else Checked.crash

def putUint (buf : Bytes) (v : Nat) : Checked Bytes := putWith buf maxUintDigits (writeUintAt v)

def putInt (buf : Bytes) (v : Int) : Checked Bytes :=
  putUint (if v < 0 then buf ++ [45] else buf) v.natAbs

/-! ## The types -/

/-- How wide a pointer is. -/
inductive Target where
  | bits16
  | bits32
  | bits64
  deriving DecidableEq, Repr

def Target.width : Target → Nat
  | .bits16 => 16
  | .bits32 => 32
  | .bits64 => 64

inductive IntType where
  | u8
  | u16
  | u32
  | u64
  | usize
  | i8
  | i16
  | i32
  | i64
  | isize
  deriving DecidableEq, Repr

namespace IntType

def width (target : Target) : IntType → Nat
  | u8 | i8 => 8
  | u16 | i16 => 16
  | u32 | i32 => 32
  | u64 | i64 => 64
  | usize | isize => target.width

def signed : IntType → Bool
  | u8 | u16 | u32 | u64 | usize => false
  | i8 | i16 | i32 | i64 | isize => true

def least (target : Target) (t : IntType) : Int :=
  if t.signed then -2 ^ (t.width target - 1) else 0

def greatest (target : Target) (t : IntType) : Int :=
  if t.signed then 2 ^ (t.width target - 1) - 1 else 2 ^ t.width target - 1

end IntType

/-- A value of the type `t`. -/
structure IntValue (target : Target) (t : IntType) where
  val : Int
  least_le : t.least target ≤ val
  le_greatest : val ≤ t.greatest target

/-- `as u64`. -/
def asU64 (v : Int) : Nat := (v % 2 ^ 64).toNat

/-- `as i64`. -/
def asI64 (v : Int) : Int := v.bmod (2 ^ 64)

/-! ## The implementations -/

/-- The field types that integers are written as. -/
inductive IntField where
  | uint
  | int
  deriving DecidableEq, Repr

/-- The number that is read. -/
def IntField.decode : IntField → Bytes → Except ValueError Int
  | .uint, raw => (parseUint raw).map Int.ofNat
  | .int, raw => parseInt raw

/-- `unsigned_to_fix!`, the same for UInt and Int. -/
def unsignedToFix (buf : Bytes) (v : Int) : Checked Bytes := putUint buf (asU64 v)

/-- `signed_to_fix!`. -/
def signedToFix (buf : Bytes) (v : Int) : Checked Bytes := putInt buf (asI64 v)

/-- `to_fix`, where it is implemented. -/
def IntType.toFix (t : IntType) : IntField → Option (Bytes → Int → Checked Bytes)
  | .uint => if t.signed then none else some unsignedToFix
  | .int => some (if t.signed then signedToFix else unsignedToFix)

/-! ## What is written is read back -/

theorem digits_le_maxUintDigits {v} (h : v ≤ u64Max) : digits v ≤ maxUintDigits := by
  have hlt : v < 10 ^ 20 := Nat.lt_of_le_of_lt h (by decide)
  unfold digits
  split
  · decide
  · exact Nat.log_lt_of_lt_pow ‹_› hlt

theorem putUint_eq {v} (h : v ≤ u64Max) (buf : Bytes) :
    putUint buf v = pure (buf ++ writeUint v) := by
  have hroom := digits_le_maxUintDigits h
  have hlen : (writeUint v).length = digits v := writeDigits_length _ _
  rw [putUint, putWith, writeUintAt, if_pos (by rwa [List.length_replicate]), pure_bind]
  dsimp only
  rw [if_pos hroom, ← hlen, List.take_left]

/-- The text of a signed integer. -/
def writeInt (v : Int) : Bytes := if v < 0 then 45 :: writeUint v.natAbs else writeUint v.natAbs

theorem putInt_eq {v} (h : v.natAbs ≤ u64Max) (buf : Bytes) :
    putInt buf v = pure (buf ++ writeInt v) := by
  rw [putInt, putUint_eq h, writeInt]
  split
  · rw [List.append_assoc, List.singleton_append]
  · rfl

theorem parseInt_writeInt {v : Int} (hlo : -2 ^ 63 ≤ v) (hhi : v ≤ i64Max) :
    parseInt (writeInt v) = .ok v := by
  unfold writeInt
  split
  · have habs : v.natAbs ≤ 2 ^ 63 := by omega
    simp only [parseInt, parseUint_writeUint (habs.trans (by decide))]
    rw [if_pos habs]
    exact congrArg Except.ok (by omega)
  · rw [parseInt_writeUint (by omega)]
    exact congrArg Except.ok (by omega)

/-- A number past the greatest `i64` is not read back as Int. -/
theorem parseInt_writeUint_iff {v} (h : v ≤ u64Max) :
    parseInt (writeUint v) = .ok (v : Int) ↔ v ≤ i64Max := by
  refine ⟨fun hread => ?_, parseInt_writeUint⟩
  by_contra hover
  unfold parseInt at hread
  split at hread
  · rename_i rest hminus
    have hmem : (45 : UInt8) ∈ writeUint v := by
      rw [hminus]
      exact List.mem_cons_self
    exact notMem_writeDigits (by decide) _ _ hmem
  · rw [parseUint_writeUint h] at hread
    dsimp only at hread
    rw [if_neg hover] at hread
    cases hread

theorem asU64_of_range {v : Int} (hlo : 0 ≤ v) (hhi : v ≤ u64Max) : asU64 v = v.toNat := by
  have hlt : v < 2 ^ 64 := Int.lt_of_le_of_lt hhi (by decide)
  rw [asU64, Int.emod_eq_of_lt hlo hlt]

theorem asI64_of_range {v : Int} (hlo : -2 ^ 63 ≤ v) (hhi : v ≤ i64Max) : asI64 v = v := by
  have hlt : v < 2 ^ 63 := Int.lt_of_le_of_lt hhi (by decide)
  exact Int.bmod_eq_of_le (by norm_num; omega) (by norm_num; omega)

namespace IntValue

variable {target : Target} {t : IntType}

theorem unsigned_range (v : IntValue target t) (ht : t.signed = false) : 0 ≤ v.val ∧ v.val ≤ u64Max := by
  have hlo := v.least_le
  have hhi := v.le_greatest
  rw [IntType.least, ht, if_neg Bool.false_ne_true] at hlo
  refine ⟨hlo, hhi.trans ?_⟩
  cases t <;> cases target <;> decide

theorem signed_range (v : IntValue target t) (ht : t.signed = true) :
    -2 ^ 63 ≤ v.val ∧ v.val ≤ i64Max := by
  have hlo := v.least_le
  have hhi := v.le_greatest
  rw [IntType.greatest, ht, if_pos rfl] at hhi
  refine ⟨le_trans ?_ hlo, hhi.trans ?_⟩ <;> cases t <;> cases target <;> decide

end IntValue

/-- An integer is written without a panic, and read back as the number it was if it is
written as UInt or is at most the greatest `i64`. -/
theorem decode_toFix_iff {target : Target} {t : IntType} {m : IntField}
    {toFix : Bytes → Int → Checked Bytes} (himpl : t.toFix m = some toFix) (v : IntValue target t)
    (buf : Bytes) :
    ∃ text, toFix buf v.val = pure (buf ++ text) ∧
      (m.decode text = .ok v.val ↔ (m = .int → v.val ≤ i64Max)) := by
  cases hsigned : t.signed with
  | true =>
    obtain ⟨hlo, hhi⟩ := v.signed_range hsigned
    have habs : v.val.natAbs ≤ u64Max := by
      have hmax : (i64Max : Int) ≤ u64Max := by decide
      have hmin : (2 ^ 63 : Int) ≤ u64Max := by decide
      omega
    cases m with
    | uint => simp [IntType.toFix, hsigned] at himpl
    | int =>
      simp only [IntType.toFix, hsigned, if_true, Option.some.injEq] at himpl
      subst himpl
      refine ⟨writeInt v.val, ?_, fun _ _ => hhi, fun _ => parseInt_writeInt hlo hhi⟩
      rw [signedToFix, asI64_of_range hlo hhi, putInt_eq habs]
  | false =>
    obtain ⟨hlo, hhi⟩ := v.unsigned_range hsigned
    obtain ⟨n, hn⟩ := Int.eq_ofNat_of_zero_le hlo
    have hle : n ≤ u64Max := by omega
    have himpl : toFix = unsignedToFix := by
      cases m <;> simp [IntType.toFix, hsigned] at himpl <;> exact himpl.symm
    subst himpl
    refine ⟨writeUint n, ?_, ?_⟩
    · rw [unsignedToFix, asU64_of_range hlo hhi, hn, Int.toNat_natCast, putUint_eq hle]
    · rw [hn]
      cases m with
      | uint => simp [IntField.decode, parseUint_writeUint hle, Except.map]
      | int =>
        have hiff := parseInt_writeUint_iff hle
        simpa [IntField.decode] using hiff

/-- The least `i64`. -/
theorem decode_toFix_least : IntType.i64.toFix .int = some signedToFix ∧
    ∃ text, signedToFix [] (-2 ^ 63) = pure ([] ++ text) ∧
      IntField.int.decode text = .ok (-2 ^ 63) := by
  obtain ⟨text, hwrite, hread⟩ := decode_toFix_iff (t := .i64) (m := .int) rfl
    (⟨-2 ^ 63, by decide, by decide⟩ : IntValue .bits64 .i64) []
  exact ⟨rfl, text, hwrite, hread.mpr fun _ => by decide⟩

/-- A `u64` past the greatest `i64` is written as Int, and cannot be read. -/
theorem unread_toFix : IntType.u64.toFix .int = some unsignedToFix ∧
    ∃ v : IntValue .bits64 .u64, unsignedToFix [] v.val = pure (writeUint (2 ^ 63)) ∧
      IntField.int.decode (writeUint (2 ^ 63)) = .error .outOfRange := by
  refine ⟨rfl, ⟨2 ^ 63, by decide, by decide⟩, ?_, by rfl⟩
  rw [unsignedToFix, asU64_of_range (by decide) (by decide)]
  exact putUint_eq (by decide) []

end Babelfix
