import Mathlib.Data.List.Basic

/-! # What holds at every point of a history

`Always P l`: each item of `l` stands in the relation `P` to what comes before it. -/
namespace Babelfix.Lib

variable {α : Type} {P : List α → α → Prop}

def Always (P : List α → α → Prop) (l : List α) : Prop :=
  ∀ pre x post, l = pre ++ x :: post → P pre x

theorem always_nil : Always P [] := by
  intro pre x post h
  exact absurd h (by simp)

variable {l : List α}

theorem Always.of_append {l'} (h : Always P (l ++ l')) : Always P l := by
  intro pre x post hsplit
  refine h pre x (post ++ l') ?_
  rw [hsplit, List.append_assoc, List.cons_append]

/-- A history goes on, each new item being considered with all that came before. -/
theorem Always.append {l'} (h : Always P l)
    (h' : ∀ pre x post, l' = pre ++ x :: post → P (l ++ pre) x) : Always P (l ++ l') := by
  intro pre x post hsplit
  rcases List.append_eq_append_iff.mp hsplit with ⟨mid, rfl, hl'⟩ | ⟨mid, hl, hpost⟩
  · exact h' mid x post hl'
  · cases mid with
    | nil =>
      rw [List.append_nil] at hl
      have hfirst := h' [] x post hpost.symm
      rwa [List.append_nil, hl] at hfirst
    | cons y mid =>
      obtain ⟨rfl, -⟩ := List.cons.inj hpost
      exact h pre x mid hl

theorem Always.concat {x} (h : Always P l) (hx : P l x) : Always P (l ++ [x]) := by
  refine h.append ?_
  intro pre y post hsplit
  cases pre with
  | nil =>
    obtain ⟨rfl, -⟩ := List.cons.inj hsplit
    rwa [List.append_nil]
  | cons z pre => simp at hsplit

end Babelfix.Lib
