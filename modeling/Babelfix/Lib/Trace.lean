import Babelfix.Lib.Call
import Mathlib.Data.List.Induction

/-! # Runs of calls

A run makes one call after another on the same state, whatever each returned.
What happened is its trace: the state before each call, the input and the
outcome. -/
namespace Babelfix.Lib

/-- One call of a run. -/
structure Turn (ι σ ω ε α : Type) where
  before : σ
  input : ι
  outcome : Outcome σ ω ε α

section
variable {ι σ ω ε α : Type} (call : ι → Call σ ω ε α)

def trace : σ → List ι → List (Turn ι σ ω ε α)
  | _, [] => []
  | s, i :: rest => ⟨s, i, (call i).run s⟩ :: trace ((call i).run s).state rest

/-- The state a run ends in. -/
def final : σ → List ι → σ
  | s, [] => s
  | s, i :: rest => final ((call i).run s).state rest

/-- Everything a run wrote, in order. -/
def output (s : σ) (inputs : List ι) : List ω :=
  (trace call s inputs).flatMap fun t => t.outcome.out

@[simp] theorem final_nil (s : σ) : final call s [] = s := rfl

@[simp] theorem output_nil (s : σ) : output call s [] = [] := rfl

@[simp] theorem trace_nil (s : σ) : trace call s [] = [] := rfl

theorem trace_append (s : σ) (xs ys : List ι) :
    trace call s (xs ++ ys) = trace call s xs ++ trace call (final call s xs) ys := by
  induction xs generalizing s with
  | nil => rfl
  | cons x xs ih =>
    simp only [List.cons_append, trace, final]
    rw [ih]

theorem final_append (s : σ) (xs ys : List ι) :
    final call s (xs ++ ys) = final call (final call s xs) ys := by
  induction xs generalizing s with
  | nil => rfl
  | cons x xs ih => exact ih _

theorem output_append (s : σ) (xs ys : List ι) :
    output call s (xs ++ ys) = output call s xs ++ output call (final call s xs) ys := by
  simp only [output, trace_append, List.flatMap_append]

@[simp] theorem trace_singleton (s : σ) (i : ι) :
    trace call s [i] = [⟨s, i, (call i).run s⟩] := rfl

@[simp] theorem output_singleton (s : σ) (i : ι) : output call s [i] = ((call i).run s).out := by
  simp [output]

/-- A property of a run and the state it reached, proved by adding one call at a
time. -/
theorem run_induction {motive : List ι → σ → Prop} (s : σ) (inputs : List ι) (init : motive [] s)
    (step : ∀ pre i, motive pre (final call s pre) →
      motive (pre ++ [i]) ((call i).run (final call s pre)).state) :
    motive inputs (final call s inputs) := by
  induction inputs using List.reverseRecOn with
  | nil => exact init
  | append_singleton pre i ih =>
    rw [final_append]
    exact step pre i ih

variable {s : σ}

/-- What every call preserves holds at the end. -/
theorem final_invariant {P : σ → Prop} (inputs : List ι) (init : P s)
    (step : ∀ s i, P s → P ((call i).run s).state) : P (final call s inputs) :=
  run_induction (motive := fun _ s => P s) call s inputs init fun _ i h => step _ i h

variable {inputs : List ι}

/-- The turns before a turn are a run of their own, and end where it starts. -/
theorem trace_eq_append {pre post t} (h : trace call s inputs = pre ++ t :: post) :
    ∃ xs ys, inputs = xs ++ t.input :: ys ∧ pre = trace call s xs ∧
      t.before = final call s xs ∧ t.outcome = (call t.input).run t.before := by
  induction pre generalizing s inputs with
  | nil =>
    cases inputs with
    | nil => cases h
    | cons i rest =>
      cases h
      exact ⟨[], rest, rfl, rfl, rfl, rfl⟩
  | cons t' pre ih =>
    cases inputs with
    | nil => cases h
    | cons i rest =>
      obtain ⟨rfl, htail⟩ := List.cons.inj h
      obtain ⟨xs, ys, hin, hpre, hb, ho⟩ := ih htail
      exact ⟨i :: xs, ys, by rw [hin]; rfl, by rw [hpre]; rfl, hb, ho⟩

/-- Each turn of a run starts where the calls before it ended. -/
theorem mem_trace {t} (h : t ∈ trace call s inputs) : ∃ pre post, inputs = pre ++ t.input :: post ∧
      t.before = final call s pre ∧ t.outcome = (call t.input).run t.before := by
  obtain ⟨pre, post, hsplit⟩ := List.append_of_mem h
  obtain ⟨xs, ys, hin, -, hb, ho⟩ := trace_eq_append call hsplit
  exact ⟨xs, ys, hin, hb, ho⟩

/-- A property that each call of a run keeps because of how that call went (`H`): it holds
at the end, and before each call. -/
theorem run_induction_of {motive : List ι → σ → Prop} {H : Turn ι σ ω ε α → Prop}
    (h : ∀ t ∈ trace call s inputs, H t) (init : motive [] s) (step : ∀ pre i, motive pre (final call s pre) →
      H ⟨final call s pre, i, (call i).run (final call s pre)⟩ →
      motive (pre ++ [i]) ((call i).run (final call s pre)).state) :
    motive inputs (final call s inputs) ∧
      ∀ pre t post, trace call s inputs = pre ++ t :: post →
        ∃ xs ys, inputs = xs ++ t.input :: ys ∧ pre = trace call s xs ∧ motive xs t.before ∧
          t.outcome = (call t.input).run t.before := by
  have hrun : ∀ xs, (∀ t ∈ trace call s xs, H t) → motive xs (final call s xs) := by
    intro xs
    refine run_induction (motive := fun xs p => (∀ t ∈ trace call s xs, H t) → motive xs p)
      call s xs (fun _ => init) ?_
    intro pre i ih hall
    rw [trace_append, trace_singleton] at hall
    exact step pre i (ih fun t ht => hall t (List.mem_append_left _ ht))
      (hall _ (List.mem_append_right _ List.mem_cons_self))
  refine ⟨hrun inputs h, fun pre t post hsplit => ?_⟩
  obtain ⟨xs, ys, hinputs, hpre, hbefore, houtcome⟩ := trace_eq_append call hsplit
  refine ⟨xs, ys, hinputs, hpre, ?_, houtcome⟩
  rw [hbefore]
  refine hrun xs fun t' ht' => h t' ?_
  rw [hsplit, hpre]
  exact List.mem_append_left _ ht'

end

end Babelfix.Lib
