import Mathlib.Algebra.Order.Ring.Int
import Mathlib.Data.Nat.Find
import Mathlib.Order.Basic

/-!
# Going through a set of integers one after the other

`Walks next start places` is a walk: every place is what `next` answers at the one before.  It
`Enumerates` a set if it comes past every later member of the set, and past nothing else, in order.

A walk does so where each place is the next of a list that grows (`enumerates_of_seq`), and where each
answer is the least later member (`enumerates_of_least`): it passes every integer in the end
(`Walks.grows`), so no member is left out.
-/

set_option autoImplicit false

namespace Successive

variable {next : ℤ → Option ℤ} {start : ℤ} {places : ℕ → ℤ} {S : ℤ → Prop}

/-- One place after the other. -/
structure Walks (next : ℤ → Option ℤ) (start : ℤ) (places : ℕ → ℤ) : Prop where
  zero : places 0 = start
  step : ∀ k, next (places k) = some (places (k + 1))
  lt : ∀ k, places k < places (k + 1)

/-- **All later members of the set**, in order. -/
def Enumerates (next : ℤ → Option ℤ) (start : ℤ) (S : ℤ → Prop) : Prop :=
  ∃ places, Walks next start places ∧ ∀ z, (∃ k, places (k + 1) = z) ↔ S z ∧ start < z

namespace Walks

variable (h : Walks next start places)
include h

theorem lt_of_lt {j k : ℕ} (hjk : j < k) : places j < places k := by
  induction k, hjk using Nat.le_induction with
  | base => exact h.lt j
  | succ k _ ih => exact ih.trans (h.lt k)

theorem le_of_le {j k : ℕ} (hjk : j ≤ k) : places j ≤ places k := by
  rcases hjk.eq_or_lt with rfl | hlt
  · exact le_rfl
  · exact (h.lt_of_lt hlt).le

/-- It goes on by one at least. -/
theorem grows (k : ℕ) : start + k ≤ places k := by
  induction k with
  | zero => rw [h.zero, Nat.cast_zero, add_zero]
  | succ k ih =>
    have := h.lt k
    push_cast
    omega

theorem first : next start = some (places 1) := by
  rw [← h.step 0, h.zero]

end Walks

/-- A member after the start is not passed over. -/
theorem Enumerates.first_le (h : Walks next start places)
    (hall : ∀ z, (∃ k, places (k + 1) = z) ↔ S z ∧ start < z) {z : ℤ} (hz : S z) (hlt : start < z) :
    places 1 ≤ z := by
  obtain ⟨k, rfl⟩ := (hall z).2 ⟨hz, hlt⟩
  exact h.le_of_le (Nat.succ_le_succ (Nat.zero_le k))

/-- The set is what the places of a list are, the first of which is not after the start. -/
theorem enumerates_of_seq {p : ℕ → ℤ} (hlt : ∀ k, p k < p (k + 1)) (hzero : p 0 ≤ start)
    (hone : start < p 1) (hfirst : next start = some (p 1))
    (hnext : ∀ k, next (p (k + 1)) = some (p (k + 2))) (hS : ∀ z, S z ↔ ∃ k, p k = z) :
    Enumerates next start S := by
  have hwalks : Walks next start fun k ↦ if k = 0 then start else p k := by
    constructor
    · rfl
    · rintro (_ | k)
      · exact hfirst
      · exact hnext k
    · rintro (_ | k)
      · exact hone
      · exact hlt (k + 1)
  refine ⟨_, hwalks, fun z ↦ ?_⟩
  rw [hS]
  constructor
  · rintro ⟨k, rfl⟩
    refine ⟨⟨k + 1, rfl⟩, ?_⟩
    have := hwalks.lt_of_lt (Nat.succ_pos k)
    rwa [hwalks.zero] at this
  · rintro ⟨⟨_ | k, rfl⟩, hlt⟩
    · omega
    · exact ⟨k, rfl⟩

/-- The least member after `x`. -/
structure LeastAfter (S : ℤ → Prop) (x y : ℤ) : Prop where
  mem : S y
  lt : x < y
  least : ∀ z, S z → x < z → y ≤ z

/-- The places that a function of the start gives, one after the other. -/
def iterated (f : ℤ → ℤ) (start : ℤ) : ℕ → ℤ
  | 0 => start
  | k + 1 => f (iterated f start k)

/-- **Each answer is the least later member.** -/
theorem enumerates_of_least
    (h : ∀ x, x = start ∨ S x ∧ start < x → ∃ y, next x = some y ∧ LeastAfter S x y) :
    Enumerates next start S := by
  let f (x : ℤ) : ℤ := (next x).getD 0
  have hplace (k : ℕ) : iterated f start k = start ∨ S (iterated f start k) ∧ start < iterated f start k := by
    induction k with
    | zero => exact .inl rfl
    | succ k ih =>
      obtain ⟨y, hy, hleast⟩ := h _ ih
      have hf : iterated f start (k + 1) = y := congrArg (fun o ↦ Option.getD o 0) hy
      rw [hf]
      refine .inr ⟨hleast.mem, ?_⟩
      rcases ih with heq | ⟨-, hlt⟩
      · rw [← heq]
        exact hleast.lt
      · exact hlt.trans hleast.lt
  have hstep (k : ℕ) : next (iterated f start k) = some (iterated f start (k + 1)) ∧
      LeastAfter S (iterated f start k) (iterated f start (k + 1)) := by
    obtain ⟨y, hy, hleast⟩ := h _ (hplace k)
    have hf : iterated f start (k + 1) = y := congrArg (fun o ↦ Option.getD o 0) hy
    rw [hf]
    exact ⟨hy, hleast⟩
  have hwalks : Walks next start (iterated f start) := ⟨rfl, fun k ↦ (hstep k).1, fun k ↦ (hstep k).2.lt⟩
  refine ⟨_, hwalks, fun z ↦ ⟨?_, ?_⟩⟩
  · rintro ⟨k, rfl⟩
    rcases hplace (k + 1) with heq | hmem
    · have := hwalks.lt_of_lt (Nat.succ_pos k)
      rw [hwalks.zero, heq] at this
      exact absurd this (lt_irrefl _)
    · exact hmem
  · rintro ⟨hz, hlt⟩
    -- the first place that is not before the member
    have hpast : ∃ k, z ≤ iterated f start k := by
      refine ⟨(z - start).toNat, ?_⟩
      have := hwalks.grows (z - start).toNat
      omega
    classical
    rcases hfind : Nat.find hpast with _ | k
    · have := Nat.find_spec hpast
      rw [hfind] at this
      exact absurd hlt (not_lt.2 this)
    · have hspec := Nat.find_spec hpast
      rw [hfind] at hspec
      have hbefore := Nat.find_min hpast (m := k) (by omega)
      exact ⟨k, le_antisymm ((hstep k).2.least z hz (not_le.1 hbefore)) hspec⟩

end Successive
