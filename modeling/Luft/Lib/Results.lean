import Mathlib.Tactic.TypeStar

/-!
# Results

A chain of steps each of which may fail has gone well when every one of them has (`bind_eq_ok`).
-/

set_option autoImplicit false

namespace Results

universe u

variable {ε : Type*} {α β : Type u} {x : Except ε α} {f : α → Except ε β} {b : β}

theorem bind_eq_ok (h : (x >>= f) = .ok b) : ∃ a, x = .ok a ∧ f a = .ok b := by
  cases x with
  | error e => cases h
  | ok a => exact ⟨a, rfl, h⟩

end Results
