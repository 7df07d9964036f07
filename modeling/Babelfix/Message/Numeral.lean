import Babelfix.Message.Value
import Mathlib.Data.List.Induction
import Mathlib.Tactic.IntervalCases

/-! # Numerals

The number a string of digits denotes. A numeral without a leading zero is the one
that is written for its number, so reading it loses nothing. -/
namespace Babelfix

def IsDigit (c : UInt8) : Prop := 48 ≤ c ∧ c ≤ 57

instance (c : UInt8) : Decidable (IsDigit c) := inferInstanceAs (Decidable (_ ∧ _))

/-- The number `ds` denotes, read after `v`. -/
def numeralFrom (v : Nat) : Bytes → Nat
  | [] => v
  | c :: ds => numeralFrom (v * 10 + (c - 48).toNat) ds

def numeral (ds : Bytes) : Nat := numeralFrom 0 ds

@[simp] theorem numeralFrom_nil (v : Nat) : numeralFrom v [] = v := rfl

@[simp] theorem numeralFrom_cons (v : Nat) (c : UInt8) (ds : Bytes) :
    numeralFrom v (c :: ds) = numeralFrom (v * 10 + (c - 48).toNat) ds := rfl

theorem numeralFrom_append (v : Nat) (xs ys : Bytes) :
    numeralFrom v (xs ++ ys) = numeralFrom (numeralFrom v xs) ys := by
  induction xs generalizing v with
  | nil => rfl
  | cons c xs ih => exact ih _

theorem le_numeralFrom (v : Nat) (ds : Bytes) : v * 10 ^ ds.length ≤ numeralFrom v ds := by
  induction ds generalizing v with
  | nil => simp
  | cons c ds ih =>
    calc v * 10 ^ (ds.length + 1) = (v * 10) * 10 ^ ds.length := by rw [Nat.pow_succ]; ring
      _ ≤ (v * 10 + (c - 48).toNat) * 10 ^ ds.length := Nat.mul_le_mul_right _ (by omega)
      _ ≤ numeralFrom v (c :: ds) := ih _

variable {c : UInt8}

theorem IsDigit.toNat_sub_lt (h : IsDigit c) : (c - 48).toNat < 10 := by
  obtain ⟨hlo, hhi⟩ := h
  rw [UInt8.le_iff_toNat_le] at hlo hhi
  rw [UInt8.toNat_sub_of_le _ _ (by rwa [UInt8.le_iff_toNat_le])]
  simp at hlo hhi ⊢
  omega

theorem eq_digit (c : UInt8) : c = 48 + UInt8.ofNat (c - 48).toNat := by
  rw [UInt8.ofNat_toNat, UInt8.add_comm, UInt8.sub_add_cancel]

variable {v : Nat} {ds : Bytes}

theorem numeralFrom_lt (hds : ∀ c ∈ ds, IsDigit c) :
    numeralFrom v ds < (v + 1) * 10 ^ ds.length := by
  induction ds generalizing v with
  | nil => simp
  | cons c ds ih =>
    have hc := (hds c List.mem_cons_self).toNat_sub_lt
    calc numeralFrom v (c :: ds)
        < (v * 10 + (c - 48).toNat + 1) * 10 ^ ds.length :=
          ih fun x hx => hds x (List.mem_cons_of_mem _ hx)
      _ ≤ ((v + 1) * 10) * 10 ^ ds.length := Nat.mul_le_mul_right _ (by omega)
      _ = (v + 1) * 10 ^ (ds.length + 1) := by rw [Nat.pow_succ]; ring

theorem writeDigits_numeral (hds : ∀ c ∈ ds, IsDigit c) :
    writeDigits ds.length (numeral ds) = ds := by
  induction ds using List.reverseRecOn with
  | nil => rfl
  | append_singleton ds c ih =>
    have hc := hds c (by simp)
    have hlt := hc.toNat_sub_lt
    have hnum : numeral (ds ++ [c]) = numeral ds * 10 + (c - 48).toNat := by
      simp [numeral, numeralFrom_append]
    rw [List.length_append, List.length_singleton, writeDigits, hnum,
      show (numeral ds * 10 + (c - 48).toNat) / 10 = numeral ds by omega,
      show (numeral ds * 10 + (c - 48).toNat) % 10 = (c - 48).toNat by omega,
      ih fun x hx => hds x (by simp [hx]), ← eq_digit]

variable {n : Nat}

theorem digits_eq (hlo : 10 ^ n ≤ v) (hhi : v < 10 ^ (n + 1)) : digits v = n + 1 := by
  have hpos : v ≠ 0 := by
    omega
  rw [digits, if_neg hpos, Nat.log_eq_of_pow_le_of_lt_pow hlo hhi]

theorem writeUint_numeral (hne : ds ≠ []) (hds : ∀ c ∈ ds, IsDigit c) (hhead : ds.head? ≠ some 48) :
    writeUint (numeral ds) = ds := by
  obtain ⟨c, rest, rfl⟩ := List.exists_cons_of_ne_nil hne
  have hpos : 1 ≤ (c - 48).toNat := by
    by_contra hzero
    have h0 : (c - 48).toNat = 0 := by omega
    have := eq_digit c
    rw [h0] at this
    exact hhead (by rw [this]; rfl)
  have hlo : 10 ^ rest.length ≤ numeral (c :: rest) :=
    calc 10 ^ rest.length = 1 * 10 ^ rest.length := (one_mul _).symm
      _ ≤ (0 * 10 + (c - 48).toNat) * 10 ^ rest.length := Nat.mul_le_mul_right _ (by omega)
      _ ≤ _ := le_numeralFrom _ rest
  have hhi : numeral (c :: rest) < 10 ^ (rest.length + 1) := by
    simpa [numeral] using numeralFrom_lt (v := 0) hds
  rw [writeUint, digits_eq hlo hhi]
  exact writeDigits_numeral hds

theorem isDigit_digit {d} (h : d < 10) : IsDigit (48 + UInt8.ofNat d) := by
  interval_cases d <;> decide

theorem isDigit_of_mem_writeDigits : ∀ {n v : Nat}, c ∈ writeDigits n v → IsDigit c
  | 0, _, h => by simp [writeDigits] at h
  | n + 1, v, h => by
    rcases List.mem_append.mp h with h | h
    · exact isDigit_of_mem_writeDigits h
    · rw [List.mem_singleton.mp h]
      exact isDigit_digit (Nat.mod_lt v (by omega))

theorem isDigit_of_mem_writeUint (h : c ∈ writeUint v) : IsDigit c :=
  isDigit_of_mem_writeDigits h

theorem numeralFrom_writeDigits : ∀ n w v : Nat,
    numeralFrom w (writeDigits n v) = w * 10 ^ n + v % 10 ^ n
  | 0, w, v => by simp [writeDigits, Nat.mod_one]
  | n + 1, w, v => by
    have hlt : v % 10 < 10 := Nat.mod_lt _ (by omega)
    rw [writeDigits, numeralFrom_append, numeralFrom_writeDigits n, numeralFrom_cons,
      numeralFrom_nil, digit_sub, digit_toNat _ hlt, Nat.pow_succ', Nat.mod_mul]
    ring

theorem numeral_writeUint (v : Nat) : numeral (writeUint v) = v := by
  rw [numeral, writeUint, numeralFrom_writeDigits, Nat.mod_eq_of_lt (lt_pow_digits v)]
  simp

@[simp] theorem length_writeUint (v : Nat) : (writeUint v).length = digits v :=
  writeDigits_length _ _

theorem writeUint_injective {w} (h : writeUint v = writeUint w) : v = w := by
  rw [← numeral_writeUint v, h, numeral_writeUint]

theorem head_writeUint (hv : 0 < v) : (writeUint v).head? ≠ some 48 := by
  intro h
  obtain ⟨rest, hrest⟩ : ∃ rest, writeUint v = 48 :: rest := by
    cases hw : writeUint v with
    | nil => exact absurd hw (writeUint_ne_nil v)
    | cons c rest =>
      rw [hw] at h
      exact ⟨rest, by rw [Option.some.inj h]⟩
  have hlen := congrArg List.length hrest
  rw [length_writeUint, List.length_cons] at hlen
  have hlt : v < 10 ^ rest.length := by
    have hall : ∀ c ∈ rest, IsDigit c := fun c hc =>
      isDigit_of_mem_writeUint (by rw [hrest]; exact List.mem_cons_of_mem _ hc)
    have := numeralFrom_lt (v := 0) hall
    rw [← numeral_writeUint v, hrest]
    simpa [numeral] using this
  have hle : 10 ^ rest.length ≤ v := by
    rw [digits, if_neg (by omega)] at hlen
    rw [← Nat.succ.inj hlen]
    exact Nat.pow_log_le_self 10 (by omega)
  omega

variable {raw : Bytes}

/-- What `parse_uint` accepts are digits, and it returns their number. -/
theorem parseUintFrom_ok (h : parseUintFrom v raw = .ok n) :
    (∀ c ∈ raw, IsDigit c) ∧ n = numeralFrom v raw := by
  induction raw generalizing v with
  | nil =>
    cases h
    simp
  | cons c rest ih =>
    simp only [parseUintFrom] at h
    split at h
    · cases h
    · rename_i hd
      split at h
      · cases h
      · split at h
        · cases h
        · obtain ⟨hall, hn⟩ := ih h
          refine ⟨fun x hx => ?_, hn⟩
          rcases List.mem_cons.mp hx with rfl | hx
          · rw [gt_iff_lt, UInt8.lt_iff_toNat_lt] at hd
            rw [IsDigit, UInt8.le_iff_toNat_le, UInt8.le_iff_toNat_le]
            have hx := x.toNat_lt
            rw [UInt8.toNat_sub] at hd
            simp at hd ⊢
            omega
          · exact hall x hx

theorem parseUint_ok (h : parseUint raw = .ok n) :
    raw ≠ [] ∧ (∀ c ∈ raw, IsDigit c) ∧ n = numeral raw := by
  unfold parseUint at h
  split at h
  · cases h
  · rename_i hne
    obtain ⟨hall, hn⟩ := parseUintFrom_ok h
    exact ⟨by simpa using hne, hall, hn⟩

/-- What is read from a text without a leading zero is written back as that text. -/
theorem writeUint_of_parseUint (h : parseUint raw = .ok n) (hhead : raw.head? ≠ some 48) :
    writeUint n = raw := by
  obtain ⟨hne, hall, rfl⟩ := parseUint_ok h
  exact writeUint_numeral hne hall hhead

/-- A number needs no more digits than a text it does not exceed. -/
theorem digits_le_of_parseUint {k} (h : parseUint raw = .ok n) (hk : k ≤ n) :
    digits k ≤ raw.length := by
  obtain ⟨hne, hall, rfl⟩ := parseUint_ok h
  have hlt : numeral raw < 10 ^ raw.length := by
    have := numeralFrom_lt (v := 0) hall
    rwa [Nat.zero_add, Nat.one_mul] at this
  unfold digits
  split
  · exact List.length_pos_iff.mpr hne
  · exact Nat.log_lt_of_lt_pow ‹_› (Nat.lt_of_le_of_lt hk hlt)

end Babelfix
