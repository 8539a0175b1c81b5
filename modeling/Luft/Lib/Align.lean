import Mathlib.Data.Nat.Basic
import Mathlib.Algebra.Order.Group.Nat
import Mathlib.Algebra.Divisibility.Basic

/-!
# Rounding to multiples

`up m n` and `down m n` are the multiples of `m` next to `n`, above and below.  `up_lt` and
`lt_down` say how near they are, `up_le` and `le_down` that they are the nearest.
-/

set_option autoImplicit false

namespace Align

/-- The next multiple of `m` from `n` up. -/
def up (m n : ℕ) : ℕ := (n + (m - 1)) / m * m

/-- The next multiple of `m` from `n` down. -/
def down (m n : ℕ) : ℕ := n / m * m

variable {m : ℕ}

theorem down_le (m n : ℕ) : down m n ≤ n := Nat.div_mul_le_self n m

theorem lt_down (hm : 0 < m) (n : ℕ) : n < down m n + m := by
  have hdiv := Nat.div_add_mod n m
  have hmod := Nat.mod_lt n hm
  rw [down, Nat.mul_comm]
  omega

theorem dvd_down (m n : ℕ) : m ∣ down m n := Nat.dvd_mul_left m (n / m)

theorem dvd_up (m n : ℕ) : m ∣ up m n := Nat.dvd_mul_left m ((n + (m - 1)) / m)

theorem le_up (hm : 0 < m) (n : ℕ) : n ≤ up m n := by
  have h := lt_down hm (n + (m - 1))
  rw [down] at h
  rw [up]
  omega

theorem up_lt (hm : 0 < m) (n : ℕ) : up m n < n + m := by
  have h := down_le m (n + (m - 1))
  rw [down] at h
  rw [up]
  omega

theorem le_down {k n : ℕ} (hk : m ∣ k) (h : k ≤ n) : k ≤ down m n := by
  obtain ⟨q, rfl⟩ := hk
  rcases Nat.eq_zero_or_pos m with rfl | hm
  · simp
  rw [down, Nat.mul_comm m q]
  exact Nat.mul_le_mul_right m ((Nat.le_div_iff_mul_le hm).2 (by rwa [Nat.mul_comm]))

theorem up_le {k n : ℕ} (hk : m ∣ k) (h : n ≤ k) : up m n ≤ k := by
  rcases Nat.eq_zero_or_pos m with rfl | hm
  · simp [up]
  have hlt := up_lt hm n
  obtain ⟨q, rfl⟩ := hk
  obtain ⟨p, hp⟩ := dvd_up m n
  rw [hp] at hlt ⊢
  have hpq : p < q + 1 := by
    have : m * p < m * (q + 1) := by rw [Nat.mul_succ]; omega
    exact Nat.lt_of_mul_lt_mul_left this
  exact Nat.mul_le_mul_left m (by omega)

theorem down_of_dvd {n : ℕ} (h : m ∣ n) : down m n = n := Nat.div_mul_cancel h

theorem up_of_dvd {n : ℕ} (hm : 0 < m) (h : m ∣ n) : up m n = n :=
  Nat.le_antisymm (up_le h (Nat.le_refl n)) (le_up hm n)

end Align
