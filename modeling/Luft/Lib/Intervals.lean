import Mathlib.Data.List.Pairwise
import Mathlib.Algebra.Order.Group.Nat

/-!
# Numbers as intervals

`numbers` lists an interval, both of its ends included.  Intervals that are `Apart` come in order with a
gap between any two, so each is as long as it can be (`Apart.maximal`): neither the number before it nor the
one after it is in any of them.
-/

set_option autoImplicit false

namespace Intervals

variable {r r' : ℕ × ℕ} {rs : List (ℕ × ℕ)} {n : ℕ}

def numbers (r : ℕ × ℕ) : List ℕ := List.range' r.1 (r.2 + 1 - r.1)

theorem mem_numbers : n ∈ numbers r ↔ r.1 ≤ n ∧ n ≤ r.2 := by
  rw [numbers, List.mem_range'_1]
  omega

theorem mem_all : n ∈ rs.flatMap numbers ↔ ∃ r ∈ rs, r.1 ≤ n ∧ n ≤ r.2 := by
  simp only [List.mem_flatMap, mem_numbers]

/-- Intervals that are in order and do not touch. -/
structure Apart (rs : List (ℕ × ℕ)) : Prop where
  ordered : ∀ r ∈ rs, r.1 ≤ r.2
  gaps : rs.Pairwise fun r r' ↦ r.2 + 1 < r'.1

namespace Apart

theorem nil : Apart [] := ⟨fun _ h ↦ absurd h List.not_mem_nil, .nil⟩

theorem cons (hr : r.1 ≤ r.2) (hgap : ∀ r' ∈ rs, r.2 + 1 < r'.1) (h : Apart rs) : Apart (r :: rs) where
  ordered := List.forall_mem_cons.2 ⟨hr, h.ordered⟩
  gaps := List.pairwise_cons.2 ⟨hgap, h.gaps⟩

theorem either (h : Apart rs) (hr : r ∈ rs) (hr' : r' ∈ rs) (hne : r ≠ r') :
    r.2 + 1 < r'.1 ∨ r'.2 + 1 < r.1 := by
  have hsymm : Std.Symm fun r r' : ℕ × ℕ ↦ r.2 + 1 < r'.1 ∨ r'.2 + 1 < r.1 := ⟨fun _ _ ↦ Or.symm⟩
  have hgaps : rs.Pairwise fun r r' ↦ r.2 + 1 < r'.1 ∨ r'.2 + 1 < r.1 := h.gaps.imp Or.inl
  exact hgaps.forall hr hr' hne

/-- The number after an interval is in none of them. -/
theorem after_not_mem (h : Apart rs) (hr : r ∈ rs) : r.2 + 1 ∉ rs.flatMap numbers := by
  rw [mem_all]
  rintro ⟨r', hr', hle, hge⟩
  have hordered := h.ordered r hr
  by_cases heq : r = r'
  · rw [heq] at hge
    omega
  · have := h.either hr hr' heq
    omega

/-- The number before an interval is in none of them. -/
theorem before_not_mem (h : Apart rs) (hr : r ∈ rs) (hn : n + 1 = r.1) : n ∉ rs.flatMap numbers := by
  rw [mem_all]
  rintro ⟨r', hr', hle, hge⟩
  have hordered := h.ordered r hr
  by_cases heq : r = r'
  · rw [← heq] at hle
    omega
  · have := h.either hr hr' heq
    omega

end Apart

/-- **As long as it can be**: all of its numbers are in the set, and the ones next to it are not. -/
structure Maximal (S : ℕ → Prop) (r : ℕ × ℕ) : Prop where
  ordered : r.1 ≤ r.2
  all : ∀ n, r.1 ≤ n → n ≤ r.2 → S n
  after : ¬ S (r.2 + 1)
  before : ∀ n, n + 1 = r.1 → ¬ S n

theorem Apart.maximal (h : Apart rs) (hr : r ∈ rs) : Maximal (· ∈ rs.flatMap numbers) r where
  ordered := h.ordered r hr
  all _ hle hge := mem_all.2 ⟨r, hr, hle, hge⟩
  after := h.after_not_mem hr
  before _ := h.before_not_mem hr

/-- An interval that goes one further back. -/
theorem numbers_cons {start last : ℕ} (h : start + 1 ≤ last) :
    start :: numbers (start + 1, last) = numbers (start, last) := by
  have hlength : last + 1 - start = last + 1 - (start + 1) + 1 := by omega
  rw [numbers, numbers, hlength, List.range'_succ]

end Intervals
