import Mathlib.Data.List.Nodup
import Mathlib.Data.List.Perm.Subperm
import Mathlib.Data.Nat.Digits.Defs

/-!
# Names with numbers

A search for a free name counts up and stops at the first number whose name is free.  `firstFree` does so for a
given number of tries; where different numbers give different names, one try more than there are occupied names
is enough (`firstFree_isSome`).
-/

set_option autoImplicit false

namespace Numbered

variable {α : Type*} {free : ℕ → Bool} {fuel start n : ℕ}

/-- The first free number from `start` on, among as many as `fuel`. -/
def firstFree (free : ℕ → Bool) : ℕ → ℕ → Option ℕ
  | 0, _ => none
  | fuel + 1, n => if free n then some n else firstFree free fuel (n + 1)

theorem firstFree_eq_some_iff : firstFree free fuel start = some n ↔
    start ≤ n ∧ n < start + fuel ∧ free n = true ∧ ∀ k, start ≤ k → k < n → free k = false := by
  induction fuel generalizing start with
  | zero =>
    rw [firstFree]
    constructor
    · rintro ⟨⟩
    · rintro ⟨hle, hlt, -⟩
      omega
  | succ fuel ih =>
    rw [firstFree]
    cases hstart : free start with
    | true =>
      rw [if_pos rfl, Option.some_inj]
      constructor
      · rintro rfl
        exact ⟨le_rfl, by omega, hstart, fun k hle hlt ↦ by omega⟩
      · rintro ⟨hle, -, -, hbefore⟩
        by_contra hne
        have := hbefore start le_rfl (by omega)
        rw [hstart] at this
        cases this
    | false =>
      rw [if_neg Bool.false_ne_true, ih]
      constructor
      · rintro ⟨hle, hlt, hfree, hbefore⟩
        refine ⟨by omega, by omega, hfree, fun k hk hlt ↦ ?_⟩
        rcases Nat.eq_or_lt_of_le hk with rfl | hk
        · exact hstart
        · exact hbefore k hk hlt
      · rintro ⟨hle, hlt, hfree, hbefore⟩
        have hne : start ≠ n := by
          rintro rfl
          rw [hstart] at hfree
          cases hfree
        exact ⟨by omega, by omega, hfree, fun k hk hlt ↦ hbefore k (by omega) hlt⟩

/-- **Some number is free** among one more than there are occupied names. -/
theorem exists_free {name : ℕ → α} {start : ℕ} (hname : ∀ m n, start ≤ m → start ≤ n → name m = name n → m = n)
    (occupied : List α) :
    ∃ n, start ≤ n ∧ n < start + (occupied.length + 1) ∧ name n ∉ occupied := by
  by_contra hall
  push Not at hall
  have hsub : (List.range' start (occupied.length + 1)).map name ⊆ occupied := by
    rintro _ hx
    obtain ⟨n, hn, rfl⟩ := List.mem_map.1 hx
    obtain ⟨hle, hlt⟩ := List.mem_range'_1.1 hn
    exact hall n hle hlt
  have hnodup : ((List.range' start (occupied.length + 1)).map name).Nodup := by
    refine List.Nodup.map_on (fun m hm n hn ↦ ?_) (List.nodup_range' ..)
    exact hname m n (List.mem_range'_1.1 hm).1 (List.mem_range'_1.1 hn).1
  have hle := (List.subperm_of_subset hnodup hsub).length_le
  rw [List.length_map, List.length_range'] at hle
  omega

/-- With a free number among those that are tried, the search finds one. -/
theorem firstFree_isSome_of_free (hle : start ≤ n) (hlt : n < start + fuel) (hfree : free n = true) :
    (firstFree free fuel start).isSome := by
  have hexists : ∃ n, start ≤ n ∧ free n = true := ⟨n, hle, hfree⟩
  have hspec := Nat.find_spec hexists
  have hmin : Nat.find hexists ≤ n := Nat.find_min' hexists ⟨hle, hfree⟩
  rw [Option.isSome_iff_exists]
  refine ⟨Nat.find hexists, firstFree_eq_some_iff.2 ⟨hspec.1, by omega, hspec.2, fun k hk hlt ↦ ?_⟩⟩
  exact Bool.eq_false_iff.2 fun hfree ↦ Nat.find_min hexists hlt ⟨hk, hfree⟩

theorem firstFree_isSome (free : ℕ → Bool) (start : ℕ) {name : ℕ → α}
    (hname : ∀ m n, start ≤ m → start ≤ n → name m = name n → m = n) {occupied : List α}
    (hoccupied : ∀ n, free n = false → name n ∈ occupied) :
    (firstFree free (occupied.length + 1) start).isSome := by
  obtain ⟨n, hle, hlt, hfree⟩ := exists_free hname occupied
  exact firstFree_isSome_of_free hle hlt (Bool.eq_true_of_not_eq_false fun hn ↦ hfree (hoccupied n hn))

/-- Different numbers are written differently. -/
theorem toDigits_injective : Function.Injective (Nat.toDigits 10) := fun m n h ↦ by
  have hvalue := congrArg (Nat.ofDigitChars 10 · 0) h
  simpa only [Nat.ofDigitChars_ten_toDigits] using hvalue

theorem toLower_digit {c : Char} (h : c.isDigit) : c.toLower = c := by
  rw [Char.isDigit_iff_toNat] at h
  refine dif_neg fun hupper ↦ ?_
  have hle : 65 ≤ c.toNat := UInt32.le_iff_toNat_le.1 hupper.1
  have hlast : c.toNat ≤ 57 := h.2
  omega

/-- Digits have no case. -/
theorem map_toLower_toDigits (number : ℕ) :
    (Nat.toDigits 10 number).map Char.toLower = Nat.toDigits 10 number := by
  conv_rhs => rw [← List.map_id (Nat.toDigits 10 number)]
  refine List.map_congr_left fun c hc ↦ ?_
  exact toLower_digit (Nat.isDigit_of_mem_toDigits (by decide) (by decide) hc)

end Numbered
