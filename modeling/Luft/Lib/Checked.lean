import Mathlib.Algebra.Order.Group.Nat

/-!
# Unsigned arithmetic that stops where it would wrap

Sums, differences and products of unsigned numbers below `top`, with `none` where the machine's
result would not be the exact one.
-/

set_option autoImplicit false

namespace Checked

variable {top a b : ℕ}

def add (top a b : ℕ) : Option ℕ := if a + b < top then some (a + b) else none

def sub (a b : ℕ) : Option ℕ := if b ≤ a then some (a - b) else none

def mul (top a b : ℕ) : Option ℕ := if a * b < top then some (a * b) else none

theorem add_of_lt (h : a + b < top) : add top a b = some (a + b) := if_pos h

theorem add_of_le (h : top ≤ a + b) : add top a b = none := if_neg (Nat.not_lt.2 h)

theorem sub_of_le (h : b ≤ a) : sub a b = some (a - b) := if_pos h

theorem sub_of_lt (h : a < b) : sub a b = none := if_neg (Nat.not_le.2 h)

theorem mul_of_lt (h : a * b < top) : mul top a b = some (a * b) := if_pos h

theorem mul_of_le (h : top ≤ a * b) : mul top a b = none := if_neg (Nat.not_lt.2 h)

end Checked
