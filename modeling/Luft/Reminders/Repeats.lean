import Luft.Reminders.Days

/-!
# Repeats

Which day a repeating reminder falls on next (`following`) and first (`firstFrom`).  A repeat on
days of the week looks for its next day one day at a time, in this week and every so many weeks
later.  A search that finds nothing up to the end of the next week that counts finds nothing ever
(`nextWeekly_eq_none`); it is `none` here and does not end in the source.
-/

set_option autoImplicit false

namespace Reminders

inductive RepeatUnit
  | day
  | week
  | month
  | year
  deriving DecidableEq, Repr

/-- A weekday of a month, such as the last Friday (`week` -1). -/
structure Nth where
  week : ℤ
  weekday : ℤ
  deriving DecidableEq, Repr

@[ext]
structure Repeat where
  unit : RepeatUnit
  every : ℤ
  /-- For weeks: the days it falls on, 0 for Sunday. -/
  weekdays : Option (List ℤ) := none
  /-- For months: a weekday instead of a date. -/
  nth : Option Nth := none
  /-- For months and years: the date asked for. -/
  date : Option ℤ := none
  deriving DecidableEq, Repr

def MONDAY_FIRST (weekday : ℤ) : ℤ := (weekday + 6) % 7

def nthWeekday (year month : ℤ) (nth : Nth) : ℤ :=
  if nth.week < 0 then
    let last := makeDay year month (daysInMonth year month)
    addDays last (-((weekdayOf last - nth.weekday + 7) % 7))
  else
    let first := makeDay year month 1
    addDays first ((nth.weekday - weekdayOf first + 7) % 7 + (nth.week - 1) * 7)

/-- A day that many days ahead is one of the weekdays, in a week that counts. -/
def fallsOn (every : ℤ) (weekdays : List ℤ) (day : ℤ) (ahead : ℕ) : Bool :=
  (MONDAY_FIRST (weekdayOf day) + ahead) / 7 % every = 0 ∧ every ≠ 0 ∧
    weekdayOf (addDays day ahead) ∈ weekdays

def nextWeekly (rule : Repeat) (day : ℤ) : Option ℤ :=
  match rule.weekdays with
  | none | some [] => some (addDays day (rule.every * 7))
  | some weekdays =>
    ((List.range' 1 (7 * rule.every.natAbs + 7)).find? (fallsOn rule.every weekdays day)).map
      fun ahead : ℕ ↦ addDays day ahead

def nextMonthly (rule : Repeat) (day : ℤ) : ℤ :=
  let parts := partsOf day
  let months := parts.year * 12 + parts.month - 1 + rule.every
  match rule.nth with
  | some nth => nthWeekday (months / 12) (months % 12 + 1) nth
  | none => clampedDay (months / 12) (months % 12 + 1) (rule.date.getD parts.day)

/-- The first day it falls on after `day`. -/
def following (rule : Repeat) (day : ℤ) : Option ℤ :=
  match rule.unit with
  | .day => some (addDays day rule.every)
  | .week => nextWeekly rule day
  | .month => some (nextMonthly rule day)
  | .year =>
    let parts := partsOf day
    some (clampedDay (parts.year + rule.every) parts.month (rule.date.getD parts.day))

/-- The first day from `day` on that it falls on, for a repeat that names its days. -/
def firstFrom (rule : Repeat) (day : ℤ) : Option ℤ :=
  if rule.weekdays.getD [] ≠ [] ∧ weekdayOf day ∉ rule.weekdays.getD [] then
    nextWeekly { rule with every := 1 } day
  else
    let parts := partsOf day
    match rule.unit, rule.nth, rule.date with
    | .month, some nth, _ =>
      let inMonth := nthWeekday parts.year parts.month nth
      some (if precedes inMonth day then nextMonthly rule day else inMonth)
    | .month, none, some date =>
      let inMonth := clampedDay parts.year parts.month date
      some
        (if date = 0 then makeDay parts.year parts.month parts.day
        else if precedes inMonth day then nextMonthly rule day
        else inMonth)
    | _, _, _ => some (makeDay parts.year parts.month parts.day)

/-! ## The weekly search -/

theorem fallsOn_iff {every : ℤ} {weekdays : List ℤ} {day : ℤ} {ahead : ℕ} :
    fallsOn every weekdays day ahead ↔
      every ∣ (MONDAY_FIRST (weekdayOf day) + ahead) / 7 ∧ every ≠ 0 ∧
        weekdayOf (addDays day ahead) ∈ weekdays := by
  rw [fallsOn, decide_eq_true_iff, Int.dvd_iff_emod_eq_zero]

/-- A day that the search would find is found, or an earlier one, by the end of the next week that
counts. -/
theorem exists_fallsOn {every : ℤ} {weekdays : List ℤ} {day : ℤ} {ahead : ℕ} (hpos : 1 ≤ ahead)
    (h : fallsOn every weekdays day ahead) :
    ∃ ahead' ∈ List.range' 1 (7 * every.natAbs + 7), fallsOn every weekdays day ahead' := by
  obtain ⟨hdvd, hne, hmem⟩ := fallsOn_iff.1 h
  have hposition : 0 ≤ MONDAY_FIRST (weekdayOf day) ∧ MONDAY_FIRST (weekdayOf day) < 7 := by
    rw [MONDAY_FIRST]
    omega
  obtain ⟨position, hp⟩ : ∃ position, MONDAY_FIRST (weekdayOf day) = position := ⟨_, rfl⟩
  rw [hp] at hdvd hposition
  have hnonneg : 0 ≤ (position + ahead) / 7 := by omega
  rcases hnonneg.eq_or_lt with hzero | hweek
  · refine ⟨ahead, List.mem_range'_1.2 ⟨hpos, ?_⟩, h⟩
    omega
  · -- the same weekday, in the first week after this one that counts
    have hle : (every.natAbs : ℤ) ≤ (position + ahead) / 7 :=
      Int.le_of_dvd hweek (Int.natAbs_dvd.2 hdvd)
    have habs : 0 < every.natAbs := Int.natAbs_pos.2 hne
    obtain ⟨skipped, hskipped⟩ : ∃ skipped : ℕ,
        (skipped : ℤ) = (position + ahead) / 7 - every.natAbs := ⟨_, Int.toNat_of_nonneg (by omega)⟩
    obtain ⟨ahead', hahead⟩ : ∃ ahead' : ℕ, (ahead' : ℤ) = ahead - 7 * skipped :=
      ⟨_, Int.toNat_of_nonneg (by omega)⟩
    refine ⟨ahead', List.mem_range'_1.2 ⟨by omega, by omega⟩, fallsOn_iff.2 ⟨?_, hne, ?_⟩⟩
    · have hweek' : (position + ahead') / 7 = every.natAbs := by omega
      rw [hp, hweek']
      exact Int.dvd_natAbs.2 dvd_rfl
    · have hsame : weekdayOf (addDays day ahead') = weekdayOf (addDays day ahead) := by
        rw [weekdayOf, weekdayOf, addDays, addDays]
        omega
      rwa [hsame]

/-- **The weekly search ends** exactly when there is a day for it to find. -/
theorem nextWeekly_eq_none {rule : Repeat} {day weekday : ℤ} {weekdays : List ℤ}
    (h : rule.weekdays = some (weekday :: weekdays)) :
    nextWeekly rule day = none ↔
      ∀ ahead, 1 ≤ ahead → ¬ fallsOn rule.every (weekday :: weekdays) day ahead := by
  rw [nextWeekly, h]
  simp only [Option.map_eq_none_iff, List.find?_eq_none]
  constructor
  · intro hnone ahead hpos hfalls
    obtain ⟨ahead', hmem, hfalls'⟩ := exists_fallsOn hpos hfalls
    exact hnone ahead' hmem hfalls'
  · intro hnone ahead hmem
    exact hnone ahead (List.mem_range'_1.1 hmem).1

/-- The 31st makes do in shorter months and comes back. -/
example : following { unit := .month, every := 1, date := some 31 } (makeDay 2026 1 31) =
      some (makeDay 2026 2 28) ∧
    following { unit := .month, every := 1, date := some 31 } (makeDay 2026 2 28) =
      some (makeDay 2026 3 31) := by
  decide

/-- Every other week on Mondays and Thursdays. -/
example : following { unit := .week, every := 2, weekdays := some [1, 4] } (makeDay 2026 11 5) =
    some (makeDay 2026 11 16) := by
  decide

end Reminders
