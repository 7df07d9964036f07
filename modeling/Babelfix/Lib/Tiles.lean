import Mathlib.Data.List.Pairwise

/-! # Tilings of a range of numbers

A list of inclusive spans tiles a range if the first starts where the range does,
each next one starts right after the one before, and the last ends where the
range does. -/
namespace Babelfix.Lib

/-- The spans cover the numbers from `lo` up to but not including `hi`, in order and
each once. -/
def Tiles : Nat → Nat → List (Nat × Nat) → Prop
  | lo, hi, [] => lo = hi
  | lo, hi, span :: rest => span.1 = lo ∧ span.1 ≤ span.2 ∧ Tiles (span.2 + 1) hi rest

namespace Tiles

variable {lo mid hi : Nat} {xs ys : List (Nat × Nat)}

@[simp] theorem nil_iff : Tiles lo hi [] ↔ lo = hi := Iff.rfl

theorem le (h : Tiles lo hi xs) : lo ≤ hi := by
  induction xs generalizing lo with
  | nil => exact Nat.le_of_eq h
  | cons span rest ih =>
    obtain ⟨hlo, hle, hrest⟩ := h
    have := ih hrest
    omega

/-- Every span lies within the range. -/
theorem bounds (h : Tiles lo hi xs) {span} (hs : span ∈ xs) :
    lo ≤ span.1 ∧ span.1 ≤ span.2 ∧ span.2 < hi := by
  induction xs generalizing lo with
  | nil => cases hs
  | cons first rest ih =>
    obtain ⟨hlo, hle, hrest⟩ := h
    obtain rfl | hs := List.mem_cons.mp hs
    · have := hrest.le
      omega
    · have := ih hrest hs
      omega

theorem ascending (h : Tiles lo hi xs) : xs.Pairwise fun p q => p.2 < q.1 := by
  induction xs generalizing lo with
  | nil => exact .nil
  | cons span rest ih =>
    obtain ⟨hlo, hle, hrest⟩ := h
    refine .cons ?_ (ih hrest)
    intro q hq
    have := hrest.bounds hq
    omega

/-- The spans cover exactly the range. -/
theorem covers (h : Tiles lo hi xs) (n : Nat) :
    lo ≤ n ∧ n < hi ↔ ∃ span ∈ xs, span.1 ≤ n ∧ n ≤ span.2 := by
  constructor
  · rintro ⟨hlo, hhi⟩
    induction xs generalizing lo with
    | nil => cases h; omega
    | cons span rest ih =>
      obtain ⟨hstart, hle, hrest⟩ := h
      by_cases hn : n ≤ span.2
      · exact ⟨span, List.mem_cons_self, by omega, hn⟩
      · obtain ⟨span', hmem, hspan⟩ := ih hrest (by omega)
        exact ⟨span', List.mem_cons_of_mem _ hmem, hspan⟩
  · rintro ⟨span, hmem, hfrom, hto⟩
    have := h.bounds hmem
    omega

end Tiles

end Babelfix.Lib
