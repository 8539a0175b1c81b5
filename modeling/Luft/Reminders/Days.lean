import Mathlib.Algebra.BigOperators.Group.List.Basic
import Mathlib.Algebra.Order.Ring.Int
import Mathlib.Data.Fintype.Basic
import Mathlib.Data.Int.ConditionallyCompleteOrder
import Mathlib.Data.List.GetD
import Mathlib.Data.List.Sort
import Mathlib.Tactic.IntervalCases

/-!
# Days on a wall calendar

A day is the number of days since the 1st of January 1970; the source keeps it as its `dayText`, and
where it compares two of those, `precedes` does.  `partsOf` takes a day apart, `makeDay` puts one
together from any numbers, carrying over what is past the end, and the two undo each other
(`makeDay_partsOf`).  Years from 0 to 99 count from 1900 where a day is made, as they do in the
source, so days before the year 100 are left out.
-/

set_option autoImplicit false

namespace Reminders

structure DayParts where
  year : ℤ
  /-- 1 to 12. -/
  month : ℤ
  day : ℤ
  deriving DecidableEq, Repr

/-! ## The calendar -/

def isLeap (year : ℤ) : Bool := (year % 4 = 0 ∧ year % 100 ≠ 0) ∨ year % 400 = 0

/-- The lengths of a year's months. -/
def monthLengths (year : ℤ) : List ℤ :=
  [31, if isLeap year then 29 else 28, 31, 30, 31, 30, 31, 31, 30, 31, 30, 31]

/-- The 1st of January. -/
def firstOfYear (year : ℤ) : ℤ :=
  365 * (year - 1970) + (year - 1) / 4 - (year - 1) / 100 + (year - 1) / 400 - 477

/-- The year a day is in, from a guess that is at most one off. -/
def yearOf (day : ℤ) : ℤ :=
  let guess := day * 400 / 146097 + 1970
  if day < firstOfYear guess then guess - 1
  else if firstOfYear (guess + 1) ≤ day then guess + 1
  else guess

/-- The month and the date that many days after the start of the first of some months. -/
def monthAfter : List ℤ → ℤ → ℤ → ℤ × ℤ
  | [], month, days => (month, days + 1)
  | length :: lengths, month, days =>
    if days < length then (month, days + 1) else monthAfter lengths (month + 1) (days - length)

def partsOf (day : ℤ) : DayParts :=
  let year := yearOf day
  let (month, date) := monthAfter (monthLengths year) 1 (day - firstOfYear year)
  ⟨year, month, date⟩

/-- The 1st of a month from 1 to 12. -/
def firstOfMonth (year month : ℤ) : ℤ :=
  firstOfYear year + ((monthLengths year).take (month - 1).toNat).sum

/-- The year that is meant where a day is made. -/
def fullYear (year : ℤ) : ℤ := if 0 ≤ year ∧ year ≤ 99 then 1900 + year else year

/-- The day these numbers land on; a day or month past the end carries over. -/
def makeDay (year month day : ℤ) : ℤ :=
  firstOfMonth (fullYear year + (month - 1) / 12) ((month - 1) % 12 + 1) + (day - 1)

def addDays (day : ℤ) (days : ℤ) : ℤ := day + days

/-- 0 for Sunday. -/
def weekdayOf (day : ℤ) : ℤ := (day + 4) % 7

def daysInMonth (year month : ℤ) : ℤ := (partsOf (makeDay year (month + 1) 0)).day

/-- That day of the month, or the month's last day when it's shorter. -/
def clampedDay (year month day : ℤ) : ℤ := makeDay year month (min day (daysInMonth year month))

/-! ## As text -/

def decimal (n : ℕ) : List Char := Nat.toDigits 10 n

def number (n : ℤ) : List Char := if n < 0 then '-' :: decimal n.natAbs else decimal n.toNat

/-- With a zero in front, if it has one digit. -/
def pad (n : ℤ) : List Char := List.replicate (2 - (number n).length) '0' ++ number n

/-- `YYYY-MM-DD`. -/
def dayText (day : ℤ) : List Char :=
  let parts := partsOf day
  number parts.year ++ '-' :: (pad parts.month ++ '-' :: pad parts.day)

/-- A day is before another, going by their texts. -/
def precedes (day day' : ℤ) : Bool := dayText day < dayText day'

example : dayText 20762 = "2026-11-05".toList ∧ precedes 20761 20762 := by decide

example : makeDay 2026 11 5 = 20762 ∧ partsOf 20762 = ⟨2026, 11, 5⟩ ∧ weekdayOf 20762 = 4 := by
  decide

example : daysInMonth 2024 2 = 29 ∧ daysInMonth 1900 2 = 28 ∧ daysInMonth 2026 12 = 31 := by decide

/-! ## Taking a day apart and putting it together -/

theorem firstOfYear_succ (year : ℤ) :
    firstOfYear (year + 1) = firstOfYear year + if isLeap year then 366 else 365 := by
  have h4 : year / 4 = (year - 1) / 4 + if year % 4 = 0 then 1 else 0 := by split <;> omega
  have h100 : year / 100 = (year - 1) / 100 + if year % 100 = 0 then 1 else 0 := by
    split <;> omega
  have h400 : year / 400 = (year - 1) / 400 + if year % 400 = 0 then 1 else 0 := by
    split <;> omega
  have hcentury : year % 100 = 0 → year % 4 = 0 := by omega
  have hfourth : year % 400 = 0 → year % 100 = 0 := by omega
  rw [firstOfYear, firstOfYear, add_sub_cancel_right, h4, h100, h400, isLeap]
  by_cases h : year % 4 = 0 <;> by_cases h' : year % 100 = 0 <;> by_cases h'' : year % 400 = 0 <;>
    simp [h, h', h''] at hcentury hfourth ⊢ <;> omega

theorem monthLengths_sum (year : ℤ) :
    (monthLengths year).sum = firstOfYear (year + 1) - firstOfYear year := by
  rw [firstOfYear_succ, monthLengths]
  split <;> simp only [List.sum_cons, List.sum_nil] <;> omega

theorem monthLengths_bounds {year length : ℤ} (h : length ∈ monthLengths year) :
    28 ≤ length ∧ length ≤ 31 := by
  simp only [monthLengths, List.mem_cons, List.not_mem_nil, or_false] at h
  split at h <;> omega

/-- A day is in its year. -/
theorem yearOf_spec (day : ℤ) :
    firstOfYear (yearOf day) ≤ day ∧ day < firstOfYear (yearOf day + 1) := by
  have hguess : firstOfYear (day * 400 / 146097 + 1970 - 1) ≤ day ∧
      day < firstOfYear (day * 400 / 146097 + 1970 + 1 + 1) := by
    simp only [firstOfYear]
    constructor <;> omega
  rw [yearOf]
  split_ifs with hlow hhigh
  · exact ⟨hguess.1, by rwa [sub_add_cancel]⟩
  · exact ⟨hhigh, hguess.2⟩
  · exact ⟨not_lt.1 hlow, not_le.1 hhigh⟩

/-- Where a month that is counted off ends up: some months in, on a date in that month. -/
theorem monthAfter_spec {lengths : List ℤ} {month days : ℤ} (hlow : 0 ≤ days)
    (hhigh : days < lengths.sum) :
    ∃ before < lengths.length, (monthAfter lengths month days).1 = month + before ∧
      (lengths.take before).sum + ((monthAfter lengths month days).2 - 1) = days ∧
      1 ≤ (monthAfter lengths month days).2 ∧
      (monthAfter lengths month days).2 ≤ lengths.getD before 0 := by
  induction lengths generalizing month days with
  | nil => exact absurd hhigh (not_lt.2 hlow)
  | cons length lengths ih =>
    rw [List.sum_cons] at hhigh
    rw [monthAfter]
    split_ifs with h
    · exact ⟨0, Nat.succ_pos _, by simp, by simp, by omega, by simpa [Int.add_one_le_iff] using h⟩
    · obtain ⟨before, hlt, hmonth, hsum, hdate⟩ :=
        @ih (month + 1) (days - length) (by omega) (by omega)
      refine ⟨before + 1, Nat.succ_lt_succ hlt, ?_, ?_, ?_⟩
      · rw [hmonth, Nat.cast_succ]; omega
      · rw [List.take_succ_cons, List.sum_cons]; omega
      · simpa using hdate

/-- The month of a day comes after some months of its year, and the date is one of that month. -/
theorem partsOf_counted (day : ℤ) :
    ∃ before < 12, (partsOf day).month = 1 + (before : ℕ) ∧
      firstOfYear (partsOf day).year + ((monthLengths (partsOf day).year).take before).sum +
        ((partsOf day).day - 1) = day ∧
      1 ≤ (partsOf day).day ∧
      (partsOf day).day ≤ (monthLengths (partsOf day).year).getD before 0 := by
  have hyear := yearOf_spec day
  have hsum := monthLengths_sum (yearOf day)
  obtain ⟨before, hlt, hmonth, hdays, hlow, hhigh⟩ :=
    @monthAfter_spec (monthLengths (yearOf day)) 1 (day - firstOfYear (yearOf day)) (by omega)
      (by omega)
  refine ⟨before, hlt, hmonth, ?_, hlow, hhigh⟩
  simp only [partsOf]
  omega

/-- The parts of a day are those of a date. -/
structure DayParts.Valid (parts : DayParts) : Prop where
  month : 1 ≤ parts.month ∧ parts.month ≤ 12
  day : 1 ≤ parts.day ∧ parts.day ≤ 31

theorem partsOf_spec (day : ℤ) :
    (partsOf day).Valid ∧
      firstOfMonth (partsOf day).year (partsOf day).month + ((partsOf day).day - 1) = day := by
  obtain ⟨before, hlt, hmonth, hdays, hlow, hhigh⟩ := partsOf_counted day
  have hlong : (monthLengths (partsOf day).year).getD before 0 ≤ 31 := by
    rw [List.getD_eq_getElem _ _ hlt]
    exact (monthLengths_bounds (List.getElem_mem hlt)).2
  refine ⟨⟨by omega, hlow, hhigh.trans hlong⟩, ?_⟩
  rw [firstOfMonth, hmonth, show (1 + (before : ℤ) - 1).toNat = before by omega, hdays]

/-- **A day is made of its parts.** -/
theorem makeDay_partsOf {day : ℤ} (h : fullYear (partsOf day).year = (partsOf day).year) :
    makeDay (partsOf day).year (partsOf day).month (partsOf day).day = day := by
  obtain ⟨⟨hmonth, -⟩, hday⟩ := partsOf_spec day
  rw [makeDay, h, Int.ediv_eq_zero_of_lt (by omega) (by omega), add_zero,
    Int.emod_eq_of_lt (by omega) (by omega), sub_add_cancel, hday]

end Reminders
