import Luft.Reminders.Repeats

/-!
# Months

Months are counted from the January of the year 0.  A day is in the month whose first day it comes
no earlier than (`monthsOf_eq`), so where a repeat takes a day is read off the months: `following`
goes on by as many as the repeat says, and a date of a month stays in it.
-/

set_option autoImplicit false

namespace Reminders

/-- How many months the month of a day is after the January of the year 0. -/
def monthsOf (day : ℤ) : ℤ := (partsOf day).year * 12 + (partsOf day).month - 1

def startOfMonth (months : ℤ) : ℤ := firstOfMonth (months / 12) (months % 12 + 1)

def lengthOfMonth (months : ℤ) : ℤ := (monthLengths (months / 12)).getD (months % 12).toNat 0

theorem lengthOfMonth_bounds (months : ℤ) :
    28 ≤ lengthOfMonth months ∧ lengthOfMonth months ≤ 31 := by
  have hlt : (months % 12).toNat < (monthLengths (months / 12)).length := by
    rw [monthLengths]
    simp only [List.length_cons, List.length_nil]
    omega
  rw [lengthOfMonth, List.getD_eq_getElem _ _ hlt]
  exact monthLengths_bounds (List.getElem_mem hlt)

/-- A month starts where the one before it ends. -/
theorem startOfMonth_succ (months : ℤ) :
    startOfMonth (months + 1) = startOfMonth months + lengthOfMonth months := by
  obtain ⟨before, hbefore⟩ : ∃ before : ℕ, months % 12 = before := ⟨_, (Int.toNat_of_nonneg
    (by omega)).symm⟩
  have hlt : before < (monthLengths (months / 12)).length := by
    rw [monthLengths]
    simp only [List.length_cons, List.length_nil]
    omega
  have htake : ((monthLengths (months / 12)).take (before + 1)).sum =
      ((monthLengths (months / 12)).take before).sum + lengthOfMonth months := by
    rw [lengthOfMonth, hbefore, Int.toNat_natCast, List.sum_take_succ _ _ hlt,
      List.getD_eq_getElem _ _ hlt]
  have hstart : startOfMonth months =
      firstOfYear (months / 12) + ((monthLengths (months / 12)).take before).sum := by
    rw [startOfMonth, firstOfMonth, hbefore, add_sub_cancel_right, Int.toNat_natCast]
  rw [hstart, add_assoc, ← htake]
  have hlen : before < 12 := hlt
  rcases (Nat.le_of_lt_succ hlen).eq_or_lt with hlast | hinner
  · -- December is followed by the next year
    have hyear : (months + 1) / 12 = months / 12 + 1 := by omega
    have hmonth : (months + 1) % 12 = 0 := by omega
    have hall : (monthLengths (months / 12)).take (before + 1) = monthLengths (months / 12) :=
      List.take_of_length_le (by rw [hlast]; exact le_rfl)
    rw [hall, monthLengths_sum, startOfMonth, firstOfMonth, hyear, hmonth]
    simp
  · have hyear : (months + 1) / 12 = months / 12 := by omega
    have hmonth : (months + 1) % 12 = before + 1 := by omega
    rw [startOfMonth, firstOfMonth, hyear, hmonth, add_sub_cancel_right]
    norm_cast

theorem startOfMonth_strictMono : StrictMono startOfMonth :=
  strictMono_int_of_lt_succ fun months ↦ by
    rw [startOfMonth_succ]
    have := (lengthOfMonth_bounds months).1
    omega

/-- A day is in its month. -/
theorem monthsOf_spec (day : ℤ) :
    startOfMonth (monthsOf day) + ((partsOf day).day - 1) = day ∧ 1 ≤ (partsOf day).day ∧
      (partsOf day).day ≤ lengthOfMonth (monthsOf day) := by
  obtain ⟨before, hlt, hmonth, hdays, hlow, hhigh⟩ := partsOf_counted day
  have hyear : monthsOf day / 12 = (partsOf day).year := by
    rw [monthsOf, hmonth]
    omega
  have hposition : monthsOf day % 12 = before := by
    rw [monthsOf, hmonth]
    omega
  rw [startOfMonth, firstOfMonth, lengthOfMonth, hyear, hposition, add_sub_cancel_right,
    Int.toNat_natCast]
  exact ⟨hdays, hlow, hhigh⟩

theorem monthsOf_bounds (day : ℤ) :
    startOfMonth (monthsOf day) ≤ day ∧ day < startOfMonth (monthsOf day + 1) := by
  obtain ⟨hday, hlow, hhigh⟩ := monthsOf_spec day
  rw [startOfMonth_succ]
  constructor <;> omega

/-- The month of a day is the one it is in. -/
theorem monthsOf_eq {months day : ℤ} (hlow : startOfMonth months ≤ day)
    (hhigh : day < startOfMonth (months + 1)) : monthsOf day = months := by
  obtain ⟨hlow', hhigh'⟩ := monthsOf_bounds day
  have h := startOfMonth_strictMono.lt_iff_lt.1 (hlow.trans_lt hhigh')
  have h' := startOfMonth_strictMono.lt_iff_lt.1 (hlow'.trans_lt hhigh)
  omega

theorem le_monthsOf {months day : ℤ} (h : startOfMonth months ≤ day) : months ≤ monthsOf day := by
  have := startOfMonth_strictMono.lt_iff_lt.1 (h.trans_lt (monthsOf_bounds day).2)
  omega

/-! ## Days that are made -/

theorem makeDay_eq (year month date : ℤ) :
    makeDay year month date = startOfMonth (fullYear year * 12 + month - 1) + (date - 1) := by
  rw [makeDay, startOfMonth, show (fullYear year * 12 + month - 1) / 12 =
      fullYear year + (month - 1) / 12 by omega,
    show (fullYear year * 12 + month - 1) % 12 = (month - 1) % 12 by omega]

/-- The year and the month that some months are, as the repeats take them apart. -/
theorem makeDay_months {months : ℤ} (h : 1200 ≤ months) (date : ℤ) :
    makeDay (months / 12) (months % 12 + 1) date = startOfMonth months + (date - 1) := by
  have hfull : fullYear (months / 12) = months / 12 := if_neg (by omega)
  rw [makeDay_eq, hfull, show months / 12 * 12 + (months % 12 + 1) - 1 = months by omega]

theorem daysInMonth_months {months : ℤ} (h : 1200 ≤ months) :
    daysInMonth (months / 12) (months % 12 + 1) = lengthOfMonth months := by
  have hfull : fullYear (months / 12) = months / 12 := if_neg (by omega)
  have hlast : makeDay (months / 12) (months % 12 + 1 + 1) 0 = startOfMonth (months + 1) - 1 := by
    rw [makeDay_eq, hfull, show months / 12 * 12 + (months % 12 + 1 + 1) - 1 = months + 1 by omega]
    omega
  have hbounds := lengthOfMonth_bounds months
  have hsucc := startOfMonth_succ months
  have hmonth : monthsOf (startOfMonth (months + 1) - 1) = months :=
    monthsOf_eq (by omega) (by omega)
  have hday := (monthsOf_spec (startOfMonth (months + 1) - 1)).1
  rw [hmonth] at hday
  rw [daysInMonth, hlast]
  omega

/-- A date of a month, or its last day. -/
theorem clampedDay_months {months : ℤ} (h : 1200 ≤ months) (date : ℤ) :
    clampedDay (months / 12) (months % 12 + 1) date =
      startOfMonth months + (min date (lengthOfMonth months) - 1) := by
  rw [clampedDay, makeDay_months h, daysInMonth_months h]

/-- A date from 1 on stays in its month. -/
theorem monthsOf_clampedDay {months date : ℤ} (h : 1200 ≤ months) (hdate : 1 ≤ date) :
    monthsOf (clampedDay (months / 12) (months % 12 + 1) date) = months := by
  have hbounds := lengthOfMonth_bounds months
  have hsucc := startOfMonth_succ months
  rw [clampedDay_months h]
  exact monthsOf_eq (by omega) (by omega)

/-- Where the weekdays of a month are: the last is in its last week, the others in the week that is
named, counted from its first day. -/
theorem nthWeekday_months {months : ℤ} (h : 1200 ≤ months) (nth : Nth) :
    (nth.week < 0 → startOfMonth (months + 1) - 7 ≤
        nthWeekday (months / 12) (months % 12 + 1) nth ∧
      nthWeekday (months / 12) (months % 12 + 1) nth < startOfMonth (months + 1)) ∧
    (0 ≤ nth.week → startOfMonth months + (nth.week - 1) * 7 ≤
        nthWeekday (months / 12) (months % 12 + 1) nth ∧
      nthWeekday (months / 12) (months % 12 + 1) nth < startOfMonth months + nth.week * 7) := by
  have hsucc := startOfMonth_succ months
  rw [nthWeekday]
  constructor
  · intro hweek
    rw [if_pos hweek, makeDay_months h, daysInMonth_months h, addDays]
    constructor <;> omega
  · intro hweek
    rw [if_neg (not_lt.2 hweek), makeDay_months h, addDays]
    constructor <;> omega

/-- A weekday of a month from the first on, or the last, is not in a month before it. -/
theorem le_monthsOf_nthWeekday {months : ℤ} (h : 1200 ≤ months) {nth : Nth} (hweek : nth.week ≠ 0) :
    months ≤ monthsOf (nthWeekday (months / 12) (months % 12 + 1) nth) := by
  obtain ⟨hlast, hnamed⟩ := nthWeekday_months h nth
  have hbounds := lengthOfMonth_bounds months
  have hsucc := startOfMonth_succ months
  refine le_monthsOf ?_
  rcases lt_or_ge nth.week 0 with hneg | hpos
  · have := (hlast hneg).1
    omega
  · have := (hnamed hpos).1
    omega

/-- The weekday that comes before the first one is in the month before. -/
theorem monthsOf_nthWeekday_zero {months : ℤ} (h : 1200 ≤ months) {nth : Nth} (hweek : nth.week = 0) :
    monthsOf (nthWeekday (months / 12) (months % 12 + 1) nth) = months - 1 := by
  obtain ⟨hlow, hhigh⟩ := (nthWeekday_months h nth).2 hweek.ge
  have hbounds := lengthOfMonth_bounds (months - 1)
  have hsucc := startOfMonth_succ (months - 1)
  rw [sub_add_cancel] at hsucc
  rw [hweek] at hlow hhigh
  refine monthsOf_eq ?_ ?_
  · omega
  · rw [sub_add_cancel]
    omega

end Reminders
