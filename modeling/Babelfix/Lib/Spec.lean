import Babelfix.Lib.Call

/-! # What a call ends in

A postcondition for a call that returns, about what it returns, what it wrote and the
state it leaves, and one for a call that stops at a fault, about the state only. -/
namespace Babelfix.Lib

variable {σ ω ε α β : Type}

/-- A call that returned ended as `Q` says, and one that stopped at a fault as `E` says. -/
def Outcome.Ends (r : Outcome σ ω ε α) (Q : α → List ω → σ → Prop) (E : σ → Prop) : Prop :=
  match r.result with
  | .ok a => Q a r.out r.state
  | .error _ => E r.state

variable {Q Q' : α → List ω → σ → Prop} {R : β → List ω → σ → Prop} {E E' : σ → Prop}

variable {r : Outcome σ ω ε α}

theorem Outcome.Ends.mono (h : r.Ends Q E) (hQ : ∀ a o s, Q a o s → Q' a o s) (hE : ∀ s, E s → E' s) :
    r.Ends Q' E' := by
  unfold Outcome.Ends at h ⊢
  cases hr : r.result with
  | ok a =>
    rw [hr] at h
    exact hQ a _ _ h
  | error e =>
    rw [hr] at h
    exact hE _ h

theorem Outcome.Ends.ok (h : r.Ends Q E) {a} (hr : r.result = .ok a) : Q a r.out r.state := by
  unfold Outcome.Ends at h
  rw [hr] at h
  exact h

theorem Outcome.Ends.error (h : r.Ends Q E) {e} (hr : r.result = .error e) : E r.state := by
  unfold Outcome.Ends at h
  rw [hr] at h
  exact h

theorem Outcome.Ends.state {P : σ → Prop} (h : r.Ends Q E) (hQ : ∀ a o s, Q a o s → P s)
    (hE : ∀ s, E s → P s) : P r.state := by
  unfold Outcome.Ends at h
  cases hr : r.result with
  | ok a =>
    rw [hr] at h
    exact hQ a _ _ h
  | error e =>
    rw [hr] at h
    exact hE _ h

theorem Outcome.Ends.at (h : r.Ends Q E) : r.Ends (fun a o s => Q a o s ∧ s = r.state) E := by
  unfold Outcome.Ends at h ⊢
  cases hr : r.result with
  | ok a =>
    rw [hr] at h
    exact ⟨h, rfl⟩
  | error e =>
    rw [hr] at h
    exact h

namespace Call

variable {s : σ}

theorem ends_pure {a} (h : Q a [] s) : ((pure a : Call σ ω ε α).run s).Ends Q E := h

theorem ends_bind {c : Call σ ω ε α} {f : α → Call σ ω ε β} (h : (c.run s).Ends Q E)
    (hf : ∀ a o s', Q a o s' → ((f a).run s').Ends (fun b o' => R b (o ++ o')) E) :
    ((c >>= f).run s).Ends R E := by
  rw [run_bind]
  unfold Outcome.Ends at h
  cases hr : (c.run s).result with
  | ok a =>
    rw [hr] at h
    rw [Outcome.andThen_of_ok f hr]
    exact hf a _ _ h
  | error e =>
    rw [hr] at h
    rw [Outcome.andThen_of_error f hr]
    exact h

theorem ends_get {f : σ → Call σ ω ε β} (h : ((f s).run s).Ends R E) :
    ((get >>= f).run s).Ends R E := h

theorem ends_modify {g} {f : Unit → Call σ ω ε β} (h : ((f ()).run (g s)).Ends R E) :
    ((modify g >>= f).run s).Ends R E := h

theorem ends_lift {r : Except ε α} {f : α → Call σ ω ε β} (hok : ∀ a, r = .ok a → ((f a).run s).Ends R E)
    (herr : ∀ e, r = .error e → E s) :
    ((lift r >>= f).run s).Ends R E := by
  cases r with
  | ok a => exact hok a rfl
  | error e => exact herr e rfl

end Call

end Babelfix.Lib
