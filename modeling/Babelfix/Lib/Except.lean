/-! # Computations that may fail

What is known of the parts of a computation when it succeeds. -/
namespace Babelfix

variable {ε α β : Type} {x : Except ε α} {f : α → Except ε β} {b : β}

theorem bind_ok_iff : (x >>= f) = .ok b ↔ ∃ a, x = .ok a ∧ f a = .ok b := by
  cases x with
  | error e => simp [bind, Except.bind]
  | ok a => simp [bind, Except.bind]

/-- A computation that succeeds succeeds at its first step. -/
theorem bind_eq_ok (h : (x >>= f) = .ok b) : ∃ a, x = .ok a ∧ f a = .ok b := bind_ok_iff.mp h

theorem exists_bind_eq_ok : (∃ b, (x >>= f) = .ok b) ↔ ∃ a, x = .ok a ∧ ∃ b, f a = .ok b := by
  simp only [bind_ok_iff]
  exact ⟨fun ⟨b, a, ha, hb⟩ => ⟨a, ha, b, hb⟩, fun ⟨a, ha, b, hb⟩ => ⟨b, a, ha, hb⟩⟩

theorem then_ok_iff {x : Except ε Unit} {y : Except ε β} :
    (x >>= fun _ => y) = .ok b ↔ x = .ok () ∧ y = .ok b := by
  rw [bind_ok_iff]
  exact ⟨fun ⟨_, h⟩ => h, fun h => ⟨(), h⟩⟩

theorem map_eq_ok {f : α → β} (h : x.map f = .ok b) : ∃ a, x = .ok a ∧ b = f a := by
  cases x with
  | error e => cases h
  | ok a => exact ⟨a, rfl, (Except.ok.inj h).symm⟩

theorem ite_eq_map {c : Prop} [Decidable c] {f : α → β} {x y : Except ε β} {x' y' : Except ε α}
    (hpos : c → x = x'.map f) (hneg : ¬ c → y = y'.map f) :
    (if c then x else y) = (if c then x' else y').map f := by
  split
  · exact hpos ‹_›
  · exact hneg ‹_›

theorem exists_of_isOk (h : x.isOk = true) : ∃ a, x = .ok a := by
  cases x with
  | error e => cases h
  | ok a => exact ⟨a, rfl⟩

end Babelfix
