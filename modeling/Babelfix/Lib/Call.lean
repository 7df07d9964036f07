import Mathlib.Data.List.Basic

/-! # Calls on a mutable state

A call reads and changes a state of type `σ`, writes items of type `ω` to an
output, and either returns or stops at a fault of type `ε`. What it changed and
wrote before a fault stays: this is `&mut self` and a `Result`, with the output
as the list of what was written. Nothing here can fail to write. -/
namespace Babelfix.Lib

/-- What a call leaves behind: the state, what it wrote, and its result. -/
structure Outcome (σ ω ε α : Type) where
  state : σ
  out : List ω
  result : Except ε α

/-- A computation on a state `σ` with output `ω` and faults `ε`. -/
structure Call (σ ω ε α : Type) where
  run : σ → Outcome σ ω ε α

namespace Outcome

variable {σ ω ε α β : Type}

/-- The same outcome, after `o` had been written already. -/
def prepend (o : List ω) (r : Outcome σ ω ε α) : Outcome σ ω ε α :=
  { r with out := o ++ r.out }

@[simp] theorem prepend_mk (o o' : List ω) (s : σ) (r : Except ε α) :
    prepend o ⟨s, o', r⟩ = ⟨s, o ++ o', r⟩ := rfl

@[simp] theorem prepend_nil (r : Outcome σ ω ε α) : prepend [] r = r := rfl

@[simp] theorem prepend_state (o : List ω) (r : Outcome σ ω ε α) :
    (prepend o r).state = r.state := rfl

@[simp] theorem prepend_out (o : List ω) (r : Outcome σ ω ε α) :
    (prepend o r).out = o ++ r.out := rfl

@[simp] theorem prepend_result (o : List ω) (r : Outcome σ ω ε α) :
    (prepend o r).result = r.result := rfl

/-- Go on with `f` if the call returned, and stop at its fault otherwise. -/
def andThen (r : Outcome σ ω ε α) (f : α → Call σ ω ε β) : Outcome σ ω ε β :=
  match r.result with
  | .ok a => prepend r.out ((f a).run r.state)
  | .error e => ⟨r.state, r.out, .error e⟩

@[simp] theorem andThen_ok (s : σ) (o : List ω) (a : α) (f : α → Call σ ω ε β) :
    andThen ⟨s, o, .ok a⟩ f = prepend o ((f a).run s) := rfl

@[simp] theorem andThen_error (s : σ) (o : List ω) (e : ε) (f : α → Call σ ω ε β) :
    andThen ⟨s, o, .error e⟩ f = ⟨s, o, .error e⟩ := rfl

theorem andThen_of_ok {r : Outcome σ ω ε α} {a} (f : α → Call σ ω ε β) (h : r.result = .ok a) :
    r.andThen f = prepend r.out ((f a).run r.state) := by
  simp [andThen, h]

theorem andThen_of_error {r : Outcome σ ω ε α} {e} (f : α → Call σ ω ε β) (h : r.result = .error e) :
    r.andThen f = ⟨r.state, r.out, .error e⟩ := by
  simp [andThen, h]

end Outcome

namespace Call

variable {σ ω ε α β : Type}

instance : Monad (Call σ ω ε) where
  pure a := ⟨fun s => ⟨s, [], .ok a⟩⟩
  bind x f := ⟨fun s => (x.run s).andThen f⟩

/-- Read the state. -/
def get : Call σ ω ε σ := ⟨fun s => ⟨s, [], .ok s⟩⟩

/-- Change the state. -/
def modify (f : σ → σ) : Call σ ω ε Unit := ⟨fun s => ⟨f s, [], .ok ()⟩⟩

/-- Write one item to the output. -/
def emit (w : ω) : Call σ ω ε Unit := ⟨fun s => ⟨s, [w], .ok ()⟩⟩

/-- Stop with a fault. -/
def fault (e : ε) : Call σ ω ε α := ⟨fun s => ⟨s, [], .error e⟩⟩

/-- A result computed without the state: the `?` operator. -/
def lift (r : Except ε α) : Call σ ω ε α := ⟨fun s => ⟨s, [], r⟩⟩

def within {ρ : Type} (part : σ → ρ) (put : σ → ρ → σ) (x : Call ρ ω ε α) : Call σ ω ε α :=
  ⟨fun s =>
    let r := x.run (part s)
    ⟨put s r.state, r.out, r.result⟩⟩

@[simp] theorem run_pure (a : α) (s : σ) : (pure a : Call σ ω ε α).run s = ⟨s, [], .ok a⟩ := rfl

@[simp] theorem run_bind (x : Call σ ω ε α) (f : α → Call σ ω ε β) (s : σ) :
    (x >>= f).run s = (x.run s).andThen f := rfl

@[simp] theorem run_get (s : σ) : (get : Call σ ω ε σ).run s = ⟨s, [], .ok s⟩ := rfl

@[simp] theorem run_modify (f : σ → σ) (s : σ) :
    (modify f : Call σ ω ε Unit).run s = ⟨f s, [], .ok ()⟩ := rfl

@[simp] theorem run_emit (w : ω) (s : σ) :
    (emit w : Call σ ω ε Unit).run s = ⟨s, [w], .ok ()⟩ := rfl

@[simp] theorem run_fault (e : ε) (s : σ) :
    (fault e : Call σ ω ε α).run s = ⟨s, [], .error e⟩ := rfl

@[simp] theorem run_lift (r : Except ε α) (s : σ) :
    (lift r : Call σ ω ε α).run s = ⟨s, [], r⟩ := rfl

@[simp] theorem run_within {ρ : Type} (part : σ → ρ) (put : σ → ρ → σ) (x : Call ρ ω ε α) (s : σ) :
    (within part put x).run s =
      ⟨put s (x.run (part s)).state, (x.run (part s)).out, (x.run (part s)).result⟩ := rfl

theorem andThen_lift (r : Outcome σ ω ε α) (x : Except ε β) : (r.andThen fun _ => lift x) =
    ⟨r.state, r.out, r.result >>= fun _ => x⟩ := by
  cases hr : r.result with
  | ok a => simp [Outcome.andThen_of_ok _ hr, Outcome.prepend, bind, Except.bind]
  | error e => rw [Outcome.andThen_of_error _ hr]; rfl

@[simp] theorem run_ite (c : Prop) [Decidable c] (x y : Call σ ω ε α) (s : σ) :
    (if c then x else y).run s = if c then x.run s else y.run s := by
  split <;> rfl

end Call

end Babelfix.Lib
