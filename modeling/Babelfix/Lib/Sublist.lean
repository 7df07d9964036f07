import Mathlib.Data.List.Forall2

/-! # Lists related to a part of a list

`SublistForall₂ R xs ys` says that `xs` is related, item by item, to a sublist of `ys`. -/
namespace List

variable {α β γ : Type*} {R : α → β → Prop} {xs : List α} {ys : List β}

theorem Forall₂.exists_of_mem (h : Forall₂ R xs ys) {x} (hx : x ∈ xs) : ∃ y ∈ ys, R x y := by
  obtain ⟨i, hi, rfl⟩ := getElem_of_mem hx
  have hlt : i < ys.length := h.length_eq ▸ hi
  exact ⟨ys[i], getElem_mem hlt, h.get hi hlt⟩

namespace SublistForall₂

theorem append {xs' ys'} (h : SublistForall₂ R xs ys) (h' : SublistForall₂ R xs' ys') :
    SublistForall₂ R (xs ++ xs') (ys ++ ys') := by
  induction h with
  | @nil ys =>
    induction ys with
    | nil => exact h'
    | cons y ys ih => exact .cons_right ih
  | cons hr _ ih => exact .cons hr ih
  | cons_right _ ih => exact .cons_right ih

/-- Filters that keep what is related to what is kept. -/
theorem filter (h : SublistForall₂ R xs ys) {p : α → Bool} {q : β → Bool}
    (hpq : ∀ {x y}, R x y → p x → q y) : SublistForall₂ R (xs.filter p) (ys.filter q) := by
  induction h with
  | nil => exact .nil
  | @cons x y _ _ hr _ ih =>
    rw [List.filter_cons, List.filter_cons]
    split
    · rw [if_pos (hpq hr ‹_›)]
      exact .cons hr ih
    · split
      · exact .cons_right ih
      · exact ih
  | cons_right _ ih =>
    rw [List.filter_cons]
    split
    · exact .cons_right ih
    · exact ih

theorem comp {S : β → γ → Prop} {T : α → γ → Prop} {zs} (h : SublistForall₂ R xs ys)
    (h' : SublistForall₂ S ys zs) (hT : ∀ {x y z}, R x y → S y z → T x z) :
    SublistForall₂ T xs zs := by
  induction h' generalizing xs with
  | nil =>
    cases h
    exact .nil
  | cons hs _ ih =>
    cases h with
    | nil => exact .nil
    | cons hr h => exact .cons (hT hr hs) (ih h)
    | cons_right h => exact .cons_right (ih h)
  | cons_right _ ih => exact .cons_right (ih h)

end SublistForall₂

end List
