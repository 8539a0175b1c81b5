import Luft.Lib.Successive
import Luft.Reminders.CatchingUp
import Mathlib.Tactic.Ring

/-!
# Where repeats land

The days of a repeat's pattern, counted from the day it starts on (`OnPattern`), are said without
`following`: every so many days, the weekdays of every so many weeks from Monday on, a weekday or a
date of every so many months.  `following` goes through exactly those in some cases (`Steady`):

* the days and the weeks are right, whenever they go on by one at least;
* a date that is not kept in the repeat is lost in the first month that is shorter, since all that is
  left of it is the day that was reached;
* a fifth weekday goes over into the month after, where a month has four of them, and the one before
  the first is in no month.
-/

set_option autoImplicit false

namespace Reminders

open Successive

/-- The Monday a day's week starts with. -/
def mondayOf (day : ℤ) : ℤ := day - MONDAY_FIRST (weekdayOf day)

/-- A day is the date of the month, or its last day where the month is shorter. -/
def OnDate (months date day : ℤ) : Prop :=
  monthsOf day = months ∧ (partsOf day).day = min date (lengthOfMonth months)

/-- A day is the weekday of the month: the last one, or that many weeks into it. -/
def OnNth (months : ℤ) (nth : Nth) (day : ℤ) : Prop :=
  monthsOf day = months ∧ weekdayOf day = nth.weekday ∧
    if nth.week < 0 then lengthOfMonth months - 7 < (partsOf day).day
    else (nth.week - 1) * 7 < (partsOf day).day ∧ (partsOf day).day ≤ nth.week * 7

/-- A day of the pattern, that many repeats after the start. -/
def OnPatternAfter (rule : Repeat) (start : ℤ) (k : ℤ) (day : ℤ) : Prop :=
  match rule.unit with
  | .day => day = start + k * rule.every
  | .week =>
    match rule.weekdays with
    | none | some [] => day = start + k * (rule.every * 7)
    | some weekdays => weekdayOf day ∈ weekdays ∧ mondayOf day = mondayOf start + k * (rule.every * 7)
  | .month =>
    match rule.nth with
    | some nth => OnNth (monthsOf start + k * rule.every) nth day
    | none => OnDate (monthsOf start + k * rule.every) (rule.date.getD (partsOf start).day) day
  | .year => OnDate (monthsOf start + k * (rule.every * 12)) (rule.date.getD (partsOf start).day) day

/-- A day of the pattern. -/
def OnPattern (rule : Repeat) (start : ℤ) (day : ℤ) : Prop := ∃ k : ℕ, OnPatternAfter rule start k day

/-- Going on from the start comes to the days of the pattern, one after the other. -/
def Lands (rule : Repeat) (start : ℤ) : Prop :=
  Enumerates (following rule) start (OnPattern rule start)

/-- It first falls on the first day of the pattern that is not before the start. -/
def LandsFirst (rule : Repeat) (start : ℤ) : Prop :=
  ∃ day, firstFrom rule start = some day ∧ OnPattern rule start day ∧ start ≤ day ∧
    ∀ z, OnPattern rule start z → start ≤ z → day ≤ z

/-! ## Weeks -/

theorem mondayOf_add (day ahead : ℤ) :
    mondayOf (addDays day ahead) = mondayOf day + (MONDAY_FIRST (weekdayOf day) + ahead) / 7 * 7 := by
  rw [mondayOf, mondayOf, addDays, MONDAY_FIRST, MONDAY_FIRST, weekdayOf, weekdayOf]
  omega

theorem mondayOf_bounds (day : ℤ) : mondayOf day ≤ day ∧ day < mondayOf day + 7 := by
  rw [mondayOf, MONDAY_FIRST]
  omega

section

variable {weekdays : List ℤ}

/-- The days of every so many weeks, as the search for them meets them. -/
theorem fallsOn_iff_mondayOf {every : ℤ} (hevery : 1 ≤ every) (day : ℤ) (ahead : ℕ) :
    fallsOn every weekdays day ahead ↔ weekdayOf (addDays day ahead) ∈ weekdays ∧
      ∃ k : ℕ, mondayOf (addDays day ahead) = mondayOf day + k * (every * 7) := by
  have hfirst : 0 ≤ (MONDAY_FIRST (weekdayOf day) + ahead) / 7 := by
    rw [MONDAY_FIRST]
    omega
  rw [fallsOn_iff, mondayOf_add]
  constructor
  · rintro ⟨⟨k, hk⟩, -, hmem⟩
    have hnonneg : 0 ≤ k := by
      by_contra hneg
      have : every * k ≤ every * (-1) := Int.mul_le_mul_of_nonneg_left (by omega) (by omega)
      omega
    obtain ⟨n, rfl⟩ := Int.eq_ofNat_of_zero_le hnonneg
    refine ⟨hmem, n, ?_⟩
    rw [hk]
    ring
  · rintro ⟨hmem, k, hk⟩
    refine ⟨⟨k, ?_⟩, by omega, hmem⟩
    have : (MONDAY_FIRST (weekdayOf day) + ahead) / 7 * 7 = every * k * 7 := by
      rw [add_right_inj] at hk
      rw [hk]
      ring
    omega

/-- There is a day to find. -/
theorem exists_fallsOn_weekday {every : ℤ} (hevery : 1 ≤ every) {weekday : ℤ} (hmem : weekday ∈ weekdays)
    (hrange : 0 ≤ weekday ∧ weekday ≤ 6) (day : ℤ) :
    ∃ ahead : ℕ, 1 ≤ ahead ∧ fallsOn every weekdays day ahead := by
  obtain ⟨hle, hlt⟩ := mondayOf_bounds day
  obtain ⟨ahead, hahead⟩ : ∃ ahead : ℕ,
      (ahead : ℤ) = mondayOf day + every * 7 + MONDAY_FIRST weekday - day := by
    refine ⟨_, Int.toNat_of_nonneg ?_⟩
    rw [MONDAY_FIRST]
    omega
  have hfirst : 0 ≤ MONDAY_FIRST weekday ∧ MONDAY_FIRST weekday < 7 := by
    rw [MONDAY_FIRST]
    omega
  have hweekday : weekdayOf (addDays day ahead) = weekday := by
    rw [addDays, hahead, mondayOf, MONDAY_FIRST, MONDAY_FIRST, weekdayOf, weekdayOf]
    omega
  refine ⟨ahead, by omega, (fallsOn_iff_mondayOf hevery day ahead).2 ⟨hweekday ▸ hmem, 1, ?_⟩⟩
  rw [mondayOf, hweekday, addDays, hahead, Nat.cast_one, one_mul]
  omega

/-- **The weekly search** answers the least later day that counts. -/
theorem nextWeekly_least (rule : Repeat) (hevery : 1 ≤ rule.every) {weekday : ℤ}
    (hrule : rule.weekdays = some (weekday :: weekdays))
    (hdays : ∀ w ∈ weekday :: weekdays, 0 ≤ w ∧ w ≤ 6) (day : ℤ) :
    ∃ y, nextWeekly rule day = some y ∧ LeastAfter (fun z ↦ weekdayOf z ∈ weekday :: weekdays ∧
      ∃ k : ℕ, mondayOf z = mondayOf day + k * (rule.every * 7)) day y := by
  obtain ⟨_, hpos, hfalls⟩ :=
    exists_fallsOn_weekday hevery (List.mem_cons_self ..) (hdays weekday (List.mem_cons_self ..)) day
  obtain ⟨_, hrange, hfalls'⟩ := exists_fallsOn hpos hfalls
  obtain ⟨ahead, hfind⟩ := Option.isSome_iff_exists.1 (List.find?_isSome.2 ⟨_, hrange, hfalls'⟩)
  obtain ⟨hahead, hmem, hbefore⟩ := List.find?_range'_eq_some.1 hfind
  have hone := (List.mem_range'_1.1 hmem).1
  refine ⟨addDays day ahead, ?_, (fallsOn_iff_mondayOf hevery day ahead).1 hahead, ?_, ?_⟩
  · rw [nextWeekly, hrule]
    simp only [hfind, Option.map_some]
  · rw [addDays]
    omega
  · rintro z hz hlt
    obtain ⟨ahead', hahead'⟩ : ∃ ahead' : ℕ, (ahead' : ℤ) = z - day :=
      ⟨_, Int.toNat_of_nonneg (by omega)⟩
    have hadd : addDays day ahead' = z := by
      rw [addDays]
      omega
    by_contra hcon
    rw [addDays] at hcon
    have hmiss := hbefore ahead' (by omega) (by omega)
    rw [(fallsOn_iff_mondayOf hevery day ahead').2 (hadd.symm ▸ hz)] at hmiss
    exact absurd hmiss (by decide)

end

/-! ## Months -/

/-- The date of a month, or its last day. -/
def dateIn (months date : ℤ) : ℤ := clampedDay (months / 12) (months % 12 + 1) date

/-- Where the weekday of a month is looked for. -/
def weekdayIn (months : ℤ) (nth : Nth) : ℤ := nthWeekday (months / 12) (months % 12 + 1) nth

theorem lt_of_monthsOf_lt {a b : ℤ} (h : monthsOf a < monthsOf b) : a < b := by
  by_contra hle
  have := le_monthsOf ((monthsOf_bounds b).1.trans (not_lt.1 hle))
  omega

theorem lengthOfMonth_leap (months k : ℤ) :
    lengthOfMonth (months + 4800 * k) = lengthOfMonth months := by
  have hyear : (months + 4800 * k) / 12 = months / 12 + 400 * k := by omega
  have hmonth : (months + 4800 * k) % 12 = months % 12 := by omega
  have hleap (year : ℤ) : isLeap (year + 400 * k) = isLeap year := by
    rw [isLeap, isLeap]
    congr 1
    rw [eq_iff_iff]
    omega
  rw [lengthOfMonth, lengthOfMonth, hyear, hmonth, monthLengths, monthLengths, hleap]

/-- A February of a year that is not a leap year. -/
theorem lengthOfMonth_february {months : ℤ} (h : months % 48 = 13) : lengthOfMonth months = 28 := by
  have hmonth : months % 12 = 1 := by omega
  have hleap : isLeap (months / 12) = false := by
    rw [isLeap, decide_eq_false_iff_not]
    omega
  rw [lengthOfMonth, hmonth, monthLengths, hleap]
  rfl

section

variable {months date day : ℤ} {nth : Nth}

theorem monthsOf_dateIn (h : 1200 ≤ months) (hdate : 1 ≤ date) : monthsOf (dateIn months date) = months :=
  monthsOf_clampedDay h hdate

theorem day_dateIn (h : 1200 ≤ months) (hdate : 1 ≤ date) :
    (partsOf (dateIn months date)).day = min date (lengthOfMonth months) := by
  have hspec := (monthsOf_spec (dateIn months date)).1
  rw [monthsOf_dateIn h hdate] at hspec
  rw [dateIn, clampedDay_months h] at hspec ⊢
  omega

theorem onDate_iff (h : 1200 ≤ months) : OnDate months date day ↔ 1 ≤ date ∧ day = dateIn months date := by
  constructor
  · rintro ⟨hmonths, hday⟩
    obtain ⟨hspec, hlow, -⟩ := monthsOf_spec day
    rw [hmonths] at hspec
    rw [dateIn, clampedDay_months h]
    omega
  · rintro ⟨hdate, rfl⟩
    exact ⟨monthsOf_dateIn h hdate, day_dateIn h hdate⟩

/-- The last weekday of a month, counted back from its last day. -/
theorem weekdayIn_last (h : 1200 ≤ months) (hweek : nth.week < 0) : weekdayIn months nth =
    startOfMonth (months + 1) - 1 - ((startOfMonth (months + 1) - 1 + 4) % 7 - nth.weekday + 7) % 7 := by
  have hlast : startOfMonth months + (lengthOfMonth months - 1) = startOfMonth (months + 1) - 1 := by
    rw [startOfMonth_succ]
    omega
  rw [weekdayIn, nthWeekday, if_pos hweek, daysInMonth_months h, makeDay_months h, hlast]
  rfl

theorem weekdayIn_counted (h : 1200 ≤ months) (hweek : 0 ≤ nth.week) : weekdayIn months nth =
    startOfMonth months +
      ((nth.weekday - (startOfMonth months + 4) % 7 + 7) % 7 + (nth.week - 1) * 7) := by
  rw [weekdayIn, nthWeekday, if_neg (not_lt.2 hweek), makeDay_months h, sub_self, add_zero]
  rfl

/-- A day is the weekday of the month if that is in the month at all. -/
theorem onNth_iff (h : 1200 ≤ months) (hweekday : 0 ≤ nth.weekday ∧ nth.weekday ≤ 6) :
    OnNth months nth day ↔ monthsOf (weekdayIn months nth) = months ∧ day = weekdayIn months nth := by
  have hsucc := startOfMonth_succ months
  suffices hday : monthsOf day = months → (weekdayOf day = nth.weekday ∧
      (if nth.week < 0 then lengthOfMonth months - 7 < (partsOf day).day
        else (nth.week - 1) * 7 < (partsOf day).day ∧ (partsOf day).day ≤ nth.week * 7) ↔
      day = weekdayIn months nth) by
    constructor
    · rintro ⟨hmonths, hwhere⟩
      have heq := (hday hmonths).1 hwhere
      exact ⟨heq ▸ hmonths, heq⟩
    · rintro ⟨hmonths, heq⟩
      rw [← heq] at hmonths
      exact ⟨hmonths, (hday hmonths).2 heq⟩
  intro hmonths
  obtain ⟨hspec, hlow, hhigh⟩ := monthsOf_spec day
  rw [hmonths] at hspec hhigh
  rw [weekdayOf]
  rcases lt_or_ge nth.week 0 with hweek | hweek
  · rw [if_pos hweek, weekdayIn_last h hweek]
    omega
  · rw [if_neg (not_lt.2 hweek), weekdayIn_counted h hweek]
    omega

/-- Later months have the weekday later, whether it is in them or not. -/
theorem weekdayIn_lt (h : 1200 ≤ months) {months' : ℤ} (hlt : months < months') :
    weekdayIn months nth < weekdayIn months' nth := by
  obtain ⟨hlast, hcounted⟩ := nthWeekday_months h nth
  obtain ⟨hlast', hcounted'⟩ := nthWeekday_months (h.trans hlt.le) nth
  have hsucc := startOfMonth_succ months
  have hsucc' := startOfMonth_succ months'
  have hbounds := lengthOfMonth_bounds months
  have hbounds' := lengthOfMonth_bounds months'
  have hmono := startOfMonth_strictMono.monotone (show months + 1 ≤ months' by omega)
  rw [weekdayIn, weekdayIn]
  rcases lt_or_ge nth.week 0 with hweek | hweek
  · have := hlast hweek
    have := hlast' hweek
    omega
  · have := hcounted hweek
    have := hcounted' hweek
    omega

theorem weekdayIn_inj (h : 1200 ≤ months) {months' : ℤ} (h' : 1200 ≤ months')
    (heq : weekdayIn months nth = weekdayIn months' nth) : months = months' := by
  rcases lt_trichotomy months months' with hlt | rfl | hlt
  · exact absurd heq (weekdayIn_lt h hlt).ne
  · rfl
  · exact absurd heq (weekdayIn_lt h' hlt).ne'

/-- The last weekday is in its month, and so are the first four. -/
theorem monthsOf_weekdayIn (h : 1200 ≤ months) (hweek : nth.week < 0 ∨ 1 ≤ nth.week ∧ nth.week ≤ 4) :
    monthsOf (weekdayIn months nth) = months := by
  obtain ⟨hlast, hcounted⟩ := nthWeekday_months h nth
  have hsucc := startOfMonth_succ months
  have hbounds := lengthOfMonth_bounds months
  rcases hweek with hneg | ⟨hone, hfour⟩
  · obtain ⟨hlow, hhigh⟩ := hlast hneg
    exact monthsOf_eq (by rw [weekdayIn]; omega) hhigh
  · obtain ⟨hlow, hhigh⟩ := hcounted (zero_le_one.trans hone)
    exact monthsOf_eq (by rw [weekdayIn]; omega) (by rw [weekdayIn]; omega)

end

/-! ## Dates, one after the other -/

section

variable {next : ℤ → Option ℤ} {step date start : ℤ}

/-- The days that a date is in every so many months. -/
def Dates (start step date day : ℤ) : Prop := ∃ k : ℕ, OnDate (monthsOf start + k * step) date day

theorem exists_dates (hstep : 0 ≤ step) (hstart : 1200 ≤ monthsOf start) (day : ℤ) :
    Dates start step date day ↔ 1 ≤ date ∧ ∃ k : ℕ, dateIn (monthsOf start + k * step) date = day := by
  have hmonths (k : ℕ) : 1200 ≤ monthsOf start + k * step :=
    hstart.trans (le_add_of_nonneg_right (mul_nonneg (Int.natCast_nonneg k) hstep))
  constructor
  · rintro ⟨k, hk⟩
    obtain ⟨hdate, rfl⟩ := (onDate_iff (hmonths k)).1 hk
    exact ⟨hdate, k, rfl⟩
  · rintro ⟨hdate, k, rfl⟩
    exact ⟨k, (onDate_iff (hmonths k)).2 ⟨hdate, rfl⟩⟩

/-- It goes through them if each is followed by the one after it, and the one of the month it starts in
is not ahead. -/
theorem enumerates_dates (hstep : 1 ≤ step) (hstart : 1200 ≤ monthsOf start) (hdate : 1 ≤ date)
    (hzero : dateIn (monthsOf start) date ≤ start)
    (hfirst : next start = some (dateIn (monthsOf start + step) date))
    (hnext : ∀ k : ℕ, next (dateIn (monthsOf start + k * step) date) =
      some (dateIn (monthsOf start + k * step + step) date)) :
    Enumerates next start (Dates start step date) := by
  have hmonths (k : ℕ) : monthsOf (dateIn (monthsOf start + k * step) date) = monthsOf start + k * step :=
    monthsOf_dateIn (hstart.trans (le_add_of_nonneg_right
      (mul_nonneg (Int.natCast_nonneg k) (zero_le_one.trans hstep)))) hdate
  have hsucc (k : ℕ) : monthsOf start + (k + 1 : ℕ) * step = monthsOf start + k * step + step := by
    push_cast
    ring
  refine enumerates_of_seq (p := fun k ↦ dateIn (monthsOf start + k * step) date) (fun k ↦ ?_) ?_ ?_ ?_
    (fun k ↦ ?_) fun z ↦ ?_
  · refine lt_of_monthsOf_lt ?_
    rw [hmonths, hmonths, hsucc]
    omega
  · simpa only [Nat.cast_zero, zero_mul, add_zero] using hzero
  · refine lt_of_monthsOf_lt ?_
    rw [hmonths]
    omega
  · simpa only [Nat.cast_one, one_mul] using hfirst
  · rw [hnext (k + 1), ← hsucc]
  · rw [exists_dates (zero_le_one.trans hstep) hstart]
    exact and_iff_right hdate

/-- A date of the month a day is in comes no later than the day, going by their dates. -/
theorem dateIn_le_iff (hstart : 1200 ≤ monthsOf start) :
    dateIn (monthsOf start) date ≤ start ↔ min date (lengthOfMonth (monthsOf start)) ≤ (partsOf start).day := by
  have hspec := (monthsOf_spec start).1
  rw [dateIn, clampedDay_months hstart]
  omega

theorem dateIn_same (hstart : 1200 ≤ monthsOf start) :
    dateIn (monthsOf start) (partsOf start).day = start := by
  obtain ⟨hspec, -, hhigh⟩ := monthsOf_spec start
  rw [dateIn, clampedDay_months hstart, min_eq_left hhigh, hspec]

/-- **A date that is kept.** -/
theorem enumerates_kept (hnext : ∀ x, next x = some (dateIn (monthsOf x + step) date)) (hstep : 0 ≤ step)
    (hstart : 1200 ≤ monthsOf start) :
    Enumerates next start (Dates start step date) ↔ 1 ≤ step ∧ 1 ≤ date ∧
      min date (lengthOfMonth (monthsOf start)) ≤ (partsOf start).day := by
  constructor
  · rintro ⟨places, hwalks, hall⟩
    have hplace (k : ℕ) : places (k + 1) = dateIn (monthsOf (places k) + step) date :=
      (Option.some.inj ((hnext _).symm.trans (hwalks.step k))).symm
    have hdate : 1 ≤ date := ((exists_dates hstep hstart _).1 ((hall _).1 ⟨0, rfl⟩).1).1
    have hone : places 1 = dateIn (monthsOf start + step) date := by rw [hplace, hwalks.zero]
    have hpos : 1 ≤ step := by
      by_contra hneg
      have hzero : step = 0 := by omega
      -- it stays where it is
      have hsame : places 2 = places 1 := by
        rw [hplace, hone, hzero, add_zero, add_zero, monthsOf_dateIn hstart hdate]
      exact absurd (hwalks.lt 1) (by rw [hsame]; exact lt_irrefl _)
    refine ⟨hpos, hdate, (dateIn_le_iff hstart).1 (not_lt.1 fun hlt ↦ ?_)⟩
    have hmem : Dates start step date (dateIn (monthsOf start) date) :=
      (exists_dates hstep hstart _).2 ⟨hdate, 0, by rw [Nat.cast_zero, zero_mul, add_zero]⟩
    have hle := Enumerates.first_le hwalks hall hmem hlt
    have hlater : dateIn (monthsOf start) date < places 1 := by
      refine lt_of_monthsOf_lt ?_
      rw [hone, monthsOf_dateIn hstart hdate, monthsOf_dateIn (hstart.trans (by omega)) hdate]
      omega
    omega
  · rintro ⟨hpos, hdate, hle⟩
    refine enumerates_dates hpos hstart hdate ((dateIn_le_iff hstart).2 hle) (hnext start) fun k ↦ ?_
    rw [hnext, monthsOf_dateIn (hstart.trans (le_add_of_nonneg_right
      (mul_nonneg (Int.natCast_nonneg k) hstep))) hdate]

/-- What is left of a date that is not kept gets smaller, and no larger again. -/
theorem lost_places {places : ℕ → ℤ} (hwalks : Successive.Walks next start places)
    (hnext : ∀ x, next x = some (dateIn (monthsOf x + step) (partsOf x).day)) (hstep : 0 ≤ step)
    (hstart : 1200 ≤ monthsOf start) (k : ℕ) :
    monthsOf (places k) = monthsOf start + k * step ∧
      ∀ j ≤ k, (partsOf (places k)).day ≤ lengthOfMonth (monthsOf start + j * step) := by
  induction k with
  | zero =>
    rw [hwalks.zero, Nat.cast_zero, zero_mul, add_zero]
    refine ⟨rfl, fun j hj ↦ ?_⟩
    rw [Nat.le_zero.1 hj, Nat.cast_zero, zero_mul, add_zero]
    exact (monthsOf_spec start).2.2
  | succ k ih =>
    obtain ⟨hmonths, hdate⟩ := ih
    have hplace : places (k + 1) = dateIn (monthsOf (places k) + step) (partsOf (places k)).day :=
      (Option.some.inj ((hnext _).symm.trans (hwalks.step k))).symm
    have hsucc : monthsOf (places k) + step = monthsOf start + (k + 1 : ℕ) * step := by
      rw [hmonths]
      push_cast
      ring
    have hlow := (monthsOf_spec (places k)).2.1
    have hlarge : 1200 ≤ monthsOf start + (k + 1 : ℕ) * step :=
      hstart.trans (le_add_of_nonneg_right (mul_nonneg (Int.natCast_nonneg _) hstep))
    rw [hplace, hsucc, day_dateIn hlarge hlow]
    refine ⟨monthsOf_dateIn hlarge hlow, fun j hj ↦ ?_⟩
    rcases Nat.le_succ_iff.1 hj with hle | rfl
    · exact (min_le_left ..).trans (hdate j hle)
    · exact min_le_right ..

variable (step) in
/-- **A date that is not kept.** -/
theorem enumerates_lost (hnext : ∀ x, next x = some (dateIn (monthsOf x + step) (partsOf x).day))
    (hstep : 0 ≤ step) (hstart : 1200 ≤ monthsOf start) :
    Enumerates next start (Dates start step (partsOf start).day) ↔ 1 ≤ step ∧
      ∀ k : ℕ, (partsOf start).day ≤ lengthOfMonth (monthsOf start + k * step) := by
  have hdate := (monthsOf_spec start).2.1
  constructor
  · rintro ⟨places, hwalks, hall⟩
    have hone : places 1 = dateIn (monthsOf start + step) (partsOf start).day :=
      (Option.some.inj ((hnext start).symm.trans hwalks.first)).symm
    have hpos : 1 ≤ step := by
      by_contra hneg
      have hzero : step = 0 := by omega
      have hlt := hwalks.lt 0
      rw [hwalks.zero, hone, hzero, add_zero, dateIn_same hstart] at hlt
      exact absurd hlt (lt_irrefl _)
    refine ⟨hpos, fun k ↦ ?_⟩
    -- the month it started in comes again, as long as it was
    have hlater := lost_places hwalks hnext hstep hstart (4800 * (k + 1))
    obtain ⟨j, hmonths, hday⟩ := ((hall _).1 ⟨4800 * (k + 1) - 1, rfl⟩).1
    rw [show 4800 * (k + 1) - 1 + 1 = 4800 * (k + 1) by omega] at hmonths hday
    have hagain : monthsOf start + (4800 * (k + 1) : ℕ) * step =
        monthsOf start + 4800 * ((k + 1) * step) := by
      push_cast
      ring
    rw [← hmonths, hlater.1, hagain, lengthOfMonth_leap, min_eq_left (monthsOf_spec start).2.2] at hday
    rw [← hday]
    exact hlater.2 k (by omega)
  · rintro ⟨hpos, hlong⟩
    refine enumerates_dates hpos hstart hdate (dateIn_same hstart).le (hnext start) fun k ↦ ?_
    have hlarge : 1200 ≤ monthsOf start + k * step :=
      hstart.trans (le_add_of_nonneg_right (mul_nonneg (Int.natCast_nonneg k) hstep))
    rw [hnext, monthsOf_dateIn hlarge hdate, day_dateIn hlarge hdate, min_eq_left (hlong k)]

end

/-! ## Weekdays of the months, one after the other -/

section

variable {next : ℤ → Option ℤ} {start : ℤ} {nth : Nth}

/-- The days that a weekday is in every month. -/
def Weekdays (start : ℤ) (nth : Nth) (day : ℤ) : Prop := ∃ k : ℕ, OnNth (monthsOf start + k) nth day

theorem exists_weekdays (hweekday : 0 ≤ nth.weekday ∧ nth.weekday ≤ 6) (hstart : 1200 ≤ monthsOf start)
    (day : ℤ) : Weekdays start nth day ↔ ∃ k : ℕ,
      monthsOf (weekdayIn (monthsOf start + k) nth) = monthsOf start + k ∧
        day = weekdayIn (monthsOf start + k) nth := by
  refine exists_congr fun k ↦ ?_
  exact onNth_iff (by omega) hweekday

/-- Where every place is a weekday of its month, the months go on by one: no month is left out. -/
theorem weekdays_months {places : ℕ → ℤ} (hwalks : Successive.Walks next start places)
    (hnext : ∀ x, next x = some (weekdayIn (monthsOf x + 1) nth)) (hstart : 1200 ≤ monthsOf start)
    (hall : ∀ k : ℕ, ∃ months : ℤ, 1200 ≤ months ∧ monthsOf (weekdayIn months nth) = months ∧
      places (k + 1) = weekdayIn months nth) (k : ℕ) :
    monthsOf (places k) = monthsOf start + k := by
  induction k with
  | zero => rw [hwalks.zero, Nat.cast_zero, add_zero]
  | succ k ih =>
    have hplace : places (k + 1) = weekdayIn (monthsOf (places k) + 1) nth :=
      (Option.some.inj ((hnext _).symm.trans (hwalks.step k))).symm
    obtain ⟨months, hlarge, hsame, hmonths⟩ := hall k
    have heq := weekdayIn_inj hlarge (by omega) (hmonths.symm.trans hplace)
    rw [hmonths, hsame, heq, ih]
    push_cast
    omega

/-- **The weekday of a month** is landed on if it is in every month. -/
theorem enumerates_weekdays (hnext : ∀ x, next x = some (weekdayIn (monthsOf x + 1) nth))
    (hweekday : 0 ≤ nth.weekday ∧ nth.weekday ≤ 6) (hstart : 1200 ≤ monthsOf start) :
    Enumerates next start (Weekdays start nth) ↔ (nth.week < 0 ∨ 1 ≤ nth.week ∧ nth.week ≤ 4) ∧
      weekdayIn (monthsOf start) nth ≤ start := by
  constructor
  · rintro ⟨places, hwalks, hall⟩
    have hmem (k : ℕ) := (exists_weekdays hweekday hstart _).1 ((hall _).1 ⟨k, rfl⟩).1
    have hweek : nth.week < 0 ∨ 1 ≤ nth.week ∧ nth.week ≤ 4 := by
      by_contra hcon
      rcases eq_or_ne nth.week 0 with hzero | hne
      · obtain ⟨k, hsame, -⟩ := hmem 0
        rw [weekdayIn, monthsOf_nthWeekday_zero (by omega) hzero] at hsame
        omega
      · have hone : 1 ≤ nth.week := by omega
        have hmonths := weekdays_months hwalks hnext hstart fun k ↦ by
          obtain ⟨j, hsame, hplace⟩ := hmem k
          exact ⟨_, by omega, hsame, hplace⟩
        -- a February that is four weeks long comes
        obtain ⟨k, hk⟩ : ∃ k : ℕ, (monthsOf start + (k + 1)) % 48 = 13 :=
          ⟨((12 - monthsOf start) % 48).toNat, by omega⟩
        obtain ⟨j, hsame, hplace⟩ := hmem k
        have hj : monthsOf start + j = monthsOf start + (k + 1) := by
          rw [← hsame, ← hplace, hmonths]
          push_cast
          rfl
        rw [hj] at hsame
        obtain ⟨hlow, -⟩ :=
          (nthWeekday_months (show 1200 ≤ monthsOf start + (k + 1) by omega) nth).2 (by omega)
        have hlong := (monthsOf_bounds (weekdayIn (monthsOf start + (k + 1)) nth)).2
        rw [hsame, startOfMonth_succ, lengthOfMonth_february hk] at hlong
        rw [weekdayIn] at hlong
        omega
    refine ⟨hweek, not_lt.1 fun hlt ↦ ?_⟩
    have hzero : Weekdays start nth (weekdayIn (monthsOf start) nth) := by
      refine (exists_weekdays hweekday hstart _).2 ⟨0, ?_, ?_⟩
      · rw [Nat.cast_zero, add_zero, monthsOf_weekdayIn hstart hweek]
      · rw [Nat.cast_zero, add_zero]
    have hle := Enumerates.first_le hwalks hall hzero hlt
    have hone : places 1 = weekdayIn (monthsOf start + 1) nth :=
      (Option.some.inj ((hnext start).symm.trans hwalks.first)).symm
    have hlater : weekdayIn (monthsOf start) nth < places 1 := by
      refine lt_of_monthsOf_lt ?_
      rw [hone, monthsOf_weekdayIn hstart hweek, monthsOf_weekdayIn (by omega) hweek]
      omega
    omega
  · rintro ⟨hweek, hle⟩
    have hmonths (k : ℕ) : monthsOf (weekdayIn (monthsOf start + k) nth) = monthsOf start + k :=
      monthsOf_weekdayIn (by omega) hweek
    refine enumerates_of_seq (p := fun k ↦ weekdayIn (monthsOf start + k) nth) (fun k ↦ ?_) ?_ ?_ ?_
      (fun k ↦ ?_) fun z ↦ ?_
    · refine lt_of_monthsOf_lt ?_
      rw [hmonths, hmonths]
      push_cast
      omega
    · simpa only [Nat.cast_zero, add_zero] using hle
    · refine lt_of_monthsOf_lt ?_
      rw [hmonths]
      push_cast
      omega
    · simpa only [Nat.cast_one] using hnext start
    · rw [hnext, hmonths, show monthsOf start + (k + 1 : ℕ) + 1 = monthsOf start + (k + 2 : ℕ) by
        push_cast
        omega]
    · rw [exists_weekdays hweekday hstart]
      constructor
      · rintro ⟨k, -, rfl⟩
        exact ⟨k, rfl⟩
      · rintro ⟨k, rfl⟩
        exact ⟨k, hmonths k, rfl⟩

end

/-! ## Days and weeks, one after the other -/

/-- Every so many days, as long as they are not none. -/
theorem enumerates_days {next : ℤ → Option ℤ} (step : ℤ) (hstep : 0 ≤ step)
    (hnext : ∀ x, next x = some (addDays x step)) (start : ℤ) :
    Enumerates next start (fun day ↦ ∃ k : ℕ, day = start + k * step) ↔ 1 ≤ step := by
  constructor
  · rintro ⟨places, hwalks, -⟩
    have hlt := hwalks.lt 0
    have hone := Option.some.inj ((hnext start).symm.trans hwalks.first)
    rw [hwalks.zero, ← hone, addDays] at hlt
    omega
  · intro hpos
    refine enumerates_of_seq (p := fun k ↦ start + k * step) (fun k ↦ ?_) ?_ ?_ ?_ (fun k ↦ ?_) fun z ↦ ?_
    · push_cast
      rw [add_mul, one_mul]
      omega
    · rw [Nat.cast_zero, zero_mul, add_zero]
    · rw [Nat.cast_one, one_mul]
      omega
    · rw [hnext, addDays, Nat.cast_one, one_mul]
    · rw [hnext, addDays]
      push_cast
      rw [add_mul, add_mul, one_mul]
      congr 1
      omega
    · exact exists_congr fun k ↦ eq_comm

/-- The weekdays of every so many weeks, as long as they are not none. -/
theorem enumerates_weeks (rule : Repeat) {weekday : ℤ} {weekdays : List ℤ} (hevery : 0 ≤ rule.every)
    (hrule : rule.weekdays = some (weekday :: weekdays))
    (hdays : ∀ w ∈ weekday :: weekdays, 0 ≤ w ∧ w ≤ 6) (start : ℤ) :
    Enumerates (nextWeekly rule) start (fun day ↦ ∃ k : ℕ, weekdayOf day ∈ weekday :: weekdays ∧
      mondayOf day = mondayOf start + k * (rule.every * 7)) ↔ 1 ≤ rule.every := by
  constructor
  · rintro ⟨places, hwalks, -⟩
    by_contra hneg
    have hzero : rule.every = 0 := by omega
    have hnone : nextWeekly rule start = none := by
      refine (nextWeekly_eq_none hrule).2 fun ahead _ hfalls ↦ ?_
      exact (fallsOn_iff.1 hfalls).2.1 hzero
    rw [hwalks.first] at hnone
    exact absurd hnone (Option.some_ne_none _)
  · intro hpos
    refine enumerates_of_least fun x hx ↦ ?_
    obtain ⟨j, hj⟩ : ∃ j : ℕ, mondayOf x = mondayOf start + j * (rule.every * 7) := by
      rcases hx with rfl | ⟨⟨j, -, hj⟩, -⟩
      · exact ⟨0, by rw [Nat.cast_zero, zero_mul, add_zero]⟩
      · exact ⟨j, hj⟩
    obtain ⟨y, hy, ⟨hmem, k, hk⟩, hlt, hleast⟩ := nextWeekly_least rule hpos hrule hdays x
    refine ⟨y, hy, ⟨j + k, hmem, ?_⟩, hlt, ?_⟩
    · rw [hk, hj]
      push_cast
      ring
    · rintro z ⟨k', hmem', hk'⟩ hxz
      refine hleast z ⟨hmem', ?_⟩ hxz
      -- the week of a later day is not an earlier one
      have hweek : mondayOf x < mondayOf z + 7 :=
        lt_of_le_of_lt ((mondayOf_bounds x).1.trans hxz.le) (mondayOf_bounds z).2
      have hle : j ≤ k' := by
        by_contra hgt
        have hmul : ((k' : ℤ) + 1) * (rule.every * 7) ≤ j * (rule.every * 7) :=
          Int.mul_le_mul_of_nonneg_right (by omega) (by omega)
        rw [add_mul, one_mul] at hmul
        omega
      refine ⟨k' - j, ?_⟩
      rw [hk', hj, Nat.cast_sub hle]
      ring

/-! ## The first one -/

theorem append_lt_append_iff (text a b : List Char) : text ++ a < text ++ b ↔ a < b := by
  induction text with
  | nil => exact Iff.rfl
  | cons c text ih => rw [List.cons_append, List.cons_append, List.cons_lt_cons_self, ih]

/-- Days of one month are before one another as their texts are. -/
theorem precedes_iff {day day' : ℤ} (h : monthsOf day = monthsOf day') :
    precedes day day' ↔ day < day' := by
  obtain ⟨hyear, hmonth⟩ := monthsOf_parts day
  obtain ⟨hyear', hmonth'⟩ := monthsOf_parts day'
  have hspec := (monthsOf_spec day).1
  have hspec' := (monthsOf_spec day').1
  obtain ⟨⟨-, hlow, hhigh⟩, -⟩ := partsOf_spec day
  obtain ⟨⟨-, hlow', hhigh'⟩, -⟩ := partsOf_spec day'
  rw [h] at hyear hmonth hspec
  have hpad : ∀ a < 32, ∀ b < 32, pad (a : ℕ) < pad (b : ℕ) ↔ a < b := by decide +kernel
  have hdates := hpad (partsOf day).day.toNat (by omega) (partsOf day').day.toNat (by omega)
  rw [Int.toNat_of_nonneg (by omega), Int.toNat_of_nonneg (by omega)] at hdates
  rw [precedes, decide_eq_true_iff, dayText, dayText, ← hyear, ← hmonth, ← hyear', ← hmonth']
  rw [append_lt_append_iff, List.cons_lt_cons_self, append_lt_append_iff, List.cons_lt_cons_self, hdates]
  omega

/-- Going from the first day of a pattern that is not before the start. -/
theorem landsFirst_of_first {rule : Repeat} {start day : ℤ} (h : firstFrom rule start = some day) :
    LandsFirst rule start ↔ OnPattern rule start day ∧ start ≤ day ∧
      ∀ z, OnPattern rule start z → start ≤ z → day ≤ z := by
  constructor
  · rintro ⟨day', hday', hfirst⟩
    rw [h] at hday'
    exact Option.some.inj hday' ▸ hfirst
  · intro hfirst
    exact ⟨day, h, hfirst⟩

/-- A start that is given back has to be in the pattern. -/
theorem landsFirst_of_start (rule : Repeat) {start : ℤ} (h : firstFrom rule start = some start) :
    LandsFirst rule start ↔ OnPattern rule start start := by
  rw [landsFirst_of_first h]
  exact ⟨fun hfirst ↦ hfirst.1, fun hmem ↦ ⟨hmem, le_rfl, fun _ _ hz ↦ hz⟩⟩

/-- The weekday of the month the start is in comes, or the one of the next where that is past. -/
def FirstWeekday (nth : Nth) (start : ℤ) : Prop :=
  if precedes (weekdayIn (monthsOf start) nth) start then
    monthsOf (weekdayIn (monthsOf start + 1) nth) = monthsOf start + 1
  else monthsOf (weekdayIn (monthsOf start) nth) = monthsOf start

instance (nth : Nth) (start : ℤ) : Decidable (FirstWeekday nth start) := by
  rw [FirstWeekday]
  infer_instance

theorem landsFirst_nth {nth : Nth} (hweekday : 0 ≤ nth.weekday ∧ nth.weekday ≤ 6) {start : ℤ}
    (hstart : 1200 ≤ monthsOf start) :
    LandsFirst ⟨.month, 1, none, some nth, none⟩ start ↔ FirstWeekday nth start := by
  have hpattern (z : ℤ) : OnPattern ⟨.month, 1, none, some nth, none⟩ start z ↔ ∃ k : ℕ,
      monthsOf (weekdayIn (monthsOf start + k) nth) = monthsOf start + k ∧
        z = weekdayIn (monthsOf start + k) nth := by
    rw [← exists_weekdays hweekday hstart]
    refine exists_congr fun k ↦ ?_
    rw [OnPatternAfter, mul_one]
  have hfirst : firstFrom ⟨.month, 1, none, some nth, none⟩ start =
      some (if precedes (weekdayIn (monthsOf start) nth) start then
        weekdayIn (monthsOf start + 1) nth else weekdayIn (monthsOf start) nth) :=
    firstFrom_nth rfl rfl rfl start
  rw [landsFirst_of_first hfirst, FirstWeekday]
  split_ifs with hpast
  · constructor
    · rintro ⟨hmem, -⟩
      obtain ⟨k, hsame, hk⟩ := (hpattern _).1 hmem
      rwa [← weekdayIn_inj (by omega) (by omega) hk] at hsame
    · intro hsame
      refine ⟨(hpattern _).2 ⟨1, hsame, rfl⟩, (lt_of_monthsOf_lt (by omega)).le, fun z hz hle ↦ ?_⟩
      obtain ⟨_ | k, hsame', rfl⟩ := (hpattern z).1 hz
      · rw [Nat.cast_zero, add_zero] at hsame' hle
        exact absurd ((precedes_iff hsame').1 hpast) (not_lt.2 hle)
      · rcases k.eq_zero_or_pos with rfl | hk
        · exact le_rfl
        · exact (weekdayIn_lt (by omega) (by omega)).le
  · constructor
    · rintro ⟨hmem, -⟩
      obtain ⟨k, hsame, hk⟩ := (hpattern _).1 hmem
      rwa [← weekdayIn_inj (by omega) (by omega) hk] at hsame
    · intro hsame
      refine ⟨(hpattern _).2 ⟨0, ?_, ?_⟩, ?_, fun z hz _ ↦ ?_⟩
      · rwa [Nat.cast_zero, add_zero]
      · rw [Nat.cast_zero, add_zero]
      · rw [precedes_iff hsame] at hpast
        exact not_lt.1 hpast
      · obtain ⟨k, -, rfl⟩ := (hpattern z).1 hz
        rcases k.eq_zero_or_pos with rfl | hk
        · rw [Nat.cast_zero, add_zero]
        · exact (weekdayIn_lt hstart (by omega)).le

/-- A date of a month comes in the month the start is in, or in the next. -/
theorem landsFirst_date {date start : ℤ} (hstart : FourDigits start) :
    LandsFirst ⟨.month, 1, none, none, some date⟩ start ↔ 1 ≤ date := by
  have hmonths := hstart.monthsOf
  have hpattern (z : ℤ) : OnPattern ⟨.month, 1, none, none, some date⟩ start z ↔
      1 ≤ date ∧ ∃ k : ℕ, dateIn (monthsOf start + k * 1) date = z :=
    exists_dates zero_le_one (by omega) z
  constructor
  · rintro ⟨_, -, hmem, -⟩
    exact ((hpattern _).1 hmem).1
  · intro hpos
    have hsame := monthsOf_dateIn (show 1200 ≤ monthsOf start by omega) hpos
    have hnext := monthsOf_dateIn (show 1200 ≤ monthsOf start + 1 by omega) hpos
    have hfirst : firstFrom ⟨.month, 1, none, none, some date⟩ start =
        some (if precedes (dateIn (monthsOf start) date) start then
          dateIn (monthsOf start + 1) date else dateIn (monthsOf start) date) :=
      firstFrom_date rfl rfl rfl rfl (by omega) start
    have hlater {j k : ℕ} (hjk : j < k) :
        dateIn (monthsOf start + j * 1) date < dateIn (monthsOf start + k * 1) date := by
      refine lt_of_monthsOf_lt ?_
      rw [monthsOf_dateIn (by omega) hpos, monthsOf_dateIn (by omega) hpos]
      omega
    rw [landsFirst_of_first hfirst]
    split_ifs with hpast
    · refine ⟨(hpattern _).2 ⟨hpos, 1, rfl⟩, (lt_of_monthsOf_lt (by omega)).le, fun z hz hle ↦ ?_⟩
      obtain ⟨-, k, rfl⟩ := (hpattern z).1 hz
      rcases lt_trichotomy k 1 with hk | rfl | hk
      · rw [Nat.lt_one_iff.1 hk, Nat.cast_zero, zero_mul, add_zero] at hle
        exact absurd ((precedes_iff hsame).1 hpast) (not_lt.2 hle)
      · exact le_rfl
      · exact (hlater hk).le
    · rw [precedes_iff hsame, not_lt] at hpast
      refine ⟨(hpattern _).2 ⟨hpos, 0, by rw [Nat.cast_zero, zero_mul, add_zero]⟩, hpast, fun z hz _ ↦ ?_⟩
      obtain ⟨-, k, rfl⟩ := (hpattern z).1 hz
      rcases k.eq_zero_or_pos with rfl | hk
      · rw [Nat.cast_zero, zero_mul, add_zero]
      · have := hlater hk
        rw [Nat.cast_zero, zero_mul, add_zero] at this
        exact this.le

/-- The weekday the start is on, or the next one that is named. -/
theorem landsFirst_weekdays {weekday : ℤ} {weekdays : List ℤ}
    (hdays : ∀ w ∈ weekday :: weekdays, 0 ≤ w ∧ w ≤ 6) {start : ℤ} (hstart : FourDigits start) :
    LandsFirst ⟨.week, 1, some (weekday :: weekdays), none, none⟩ start := by
  have hpattern (z : ℤ) : OnPattern ⟨.week, 1, some (weekday :: weekdays), none, none⟩ start z ↔
      weekdayOf z ∈ weekday :: weekdays ∧ ∃ k : ℕ, mondayOf z = mondayOf start + k * (1 * 7) :=
    exists_and_left
  have hsame : makeDay (partsOf start).year (partsOf start).month (partsOf start).day = start :=
    makeDay_partsOf (if_neg (by have := hstart.1; omega))
  by_cases hnamed : weekdayOf start ∈ weekday :: weekdays
  · have hfirst : firstFrom ⟨.week, 1, some (weekday :: weekdays), none, none⟩ start = some start :=
      (if_neg fun h ↦ h.2 hnamed).trans (congrArg some hsame)
    rw [landsFirst_of_start _ hfirst, hpattern]
    exact ⟨hnamed, 0, by rw [Nat.cast_zero, zero_mul, add_zero]⟩
  · obtain ⟨y, hy, ⟨hmem, hlt, hleast⟩⟩ := nextWeekly_least
      ⟨.week, 1, some (weekday :: weekdays), none, none⟩ le_rfl rfl hdays start
    have hfirst : firstFrom ⟨.week, 1, some (weekday :: weekdays), none, none⟩ start = some y :=
      (if_pos ⟨List.cons_ne_nil _ _, hnamed⟩).trans hy
    rw [landsFirst_of_first hfirst]
    refine ⟨(hpattern y).2 hmem, hlt.le, fun z hz hle ↦ hleast z ((hpattern z).1 hz) ?_⟩
    rcases hle.eq_or_lt with rfl | hlt'
    · exact absurd ((hpattern start).1 hz).1 hnamed
    · exact hlt'

/-! ## Which repeats land -/

/-- A date that is kept and not ahead in its month, or that every month to come has. -/
def SteadyDate (date : Option ℤ) (step start : ℤ) : Prop :=
  match date with
  | some date => 1 ≤ date ∧ min date (lengthOfMonth (monthsOf start)) ≤ (partsOf start).day
  | none => ∀ k : ℕ, (partsOf start).day ≤ lengthOfMonth (monthsOf start + k * step)

/-- It goes on by one at least, and not to where a month may be too short. -/
def Steady (rule : Repeat) (start : ℤ) : Prop :=
  1 ≤ rule.every ∧
    match rule.unit with
    | .day | .week => True
    | .month =>
      match rule.nth with
      | some nth =>
        (nth.week < 0 ∨ 1 ≤ nth.week ∧ nth.week ≤ 4) ∧ weekdayIn (monthsOf start) nth ≤ start
      | none => SteadyDate rule.date rule.every start
    | .year => SteadyDate rule.date (rule.every * 12) start

/-- The first day is right: a year's is the start itself, so it has to be on the date. -/
def SteadyFirst (rule : Repeat) (start : ℤ) : Prop :=
  match rule.unit, rule.nth, rule.date with
  | .month, some nth, _ => FirstWeekday nth start
  | .month, none, some date => 1 ≤ date
  | .year, _, some date => min date (lengthOfMonth (monthsOf start)) = (partsOf start).day
  | _, _, _ => True

theorem enumerates_date (rule : Repeat) (step : ℤ) {start : ℤ}
    (hnext : ∀ x, following rule x = some (dateIn (monthsOf x + step) (rule.date.getD (partsOf x).day)))
    (hstep : 0 ≤ step) (hstart : 1200 ≤ monthsOf start) :
    Enumerates (following rule) start (Dates start step (rule.date.getD (partsOf start).day)) ↔
      1 ≤ step ∧ SteadyDate rule.date step start := by
  rw [SteadyDate.eq_def]
  cases hdate : rule.date with
  | none =>
    rw [hdate] at hnext
    exact enumerates_lost step hnext hstep hstart
  | some date =>
    rw [hdate] at hnext
    exact enumerates_kept hnext hstep hstart

theorem lands_iff_steady {rule : Repeat} (hplain : Plain rule) {start : ℤ} (hstart : FourDigits start) :
    Lands rule start ↔ Steady rule start := by
  have hmonths : 1200 ≤ monthsOf start := by
    have := hstart.monthsOf
    omega
  cases hplain with
  | @day every h => exact (enumerates_days every h (fun _ ↦ rfl) start).trans (and_iff_left trivial).symm
  | @week every h =>
    refine (enumerates_days (every * 7) (by omega) (fun _ ↦ rfl) start).trans ?_
    rw [Steady, and_iff_left trivial]
    exact ⟨fun _ ↦ (by omega : 1 ≤ every), fun (_ : 1 ≤ every) ↦ by omega⟩
  | @weekdays every h weekday weekdays hdays =>
    refine Iff.trans ?_ (and_iff_left trivial).symm
    exact enumerates_weeks ⟨.week, every, some (weekday :: weekdays), none, none⟩ h rfl hdays start
  | @nth nth hweek hday =>
    have hpattern : OnPattern ⟨.month, 1, none, some nth, none⟩ start = Weekdays start nth := by
      funext z
      refine propext (exists_congr fun k ↦ ?_)
      rw [OnPatternAfter, mul_one]
    rw [Lands, hpattern]
    refine (enumerates_weekdays (fun x ↦ ?_) hday hmonths).trans (and_iff_right le_rfl).symm
    exact congrArg some (nextMonthly_nth rfl x)
  | @month every h date hdate =>
    refine enumerates_date ⟨.month, every, none, none, date⟩ every (fun x ↦ ?_) h hmonths
    exact congrArg some (nextMonthly_date rfl x)
  | @year every h date =>
    refine (enumerates_date ⟨.year, every, none, none, date⟩ (every * 12) (fun x ↦ ?_)
      (by omega) hmonths).trans (and_congr_left fun _ ↦ ?_)
    · obtain ⟨hyear, hmonth⟩ := monthsOf_parts x
      rw [dateIn, show (monthsOf x + every * 12) / 12 = monthsOf x / 12 + every by omega,
        show (monthsOf x + every * 12) % 12 = monthsOf x % 12 by omega, hyear, hmonth]
      rfl
    · show 1 ≤ every * 12 ↔ 1 ≤ every
      omega

/-- The start is on a date of its own month. -/
theorem dates_self (step : ℤ) {date start : ℤ} :
    Dates start step date start ↔ min date (lengthOfMonth (monthsOf start)) = (partsOf start).day := by
  constructor
  · rintro ⟨k, hk, hday⟩
    have hzero : (k : ℤ) * step = 0 := by omega
    rw [hday, hzero, add_zero]
  · intro hday
    refine ⟨0, ?_, ?_⟩ <;> rw [Nat.cast_zero, zero_mul, add_zero]
    exact hday.symm

theorem landsFirst_iff_steady {rule : Repeat} (hplain : Plain rule) (hevery : rule.every = 1) {start : ℤ}
    (hstart : FourDigits start) : LandsFirst rule start ↔ SteadyFirst rule start := by
  have hmonths : 1200 ≤ monthsOf start := by
    have := hstart.monthsOf
    omega
  have hsame : some (makeDay (partsOf start).year (partsOf start).month (partsOf start).day) =
      some start :=
    congrArg some (makeDay_partsOf (if_neg (by have := hstart.1; omega)))
  have hself : min (partsOf start).day (lengthOfMonth (monthsOf start)) = (partsOf start).day :=
    min_eq_left (monthsOf_spec start).2.2
  obtain ⟨unit, every, weekdays, nth, date⟩ := rule
  obtain rfl : every = 1 := hevery
  cases hplain with
  | day _ =>
    refine (landsFirst_of_start ⟨.day, 1, none, none, none⟩ hsame).trans (iff_of_true ?_ trivial)
    exact ⟨0, (add_zero start).symm.trans (congrArg (start + ·) (zero_mul 1).symm)⟩
  | week _ =>
    refine (landsFirst_of_start ⟨.week, 1, none, none, none⟩ hsame).trans (iff_of_true ?_ trivial)
    exact ⟨0, (add_zero start).symm.trans (congrArg (start + ·) (zero_mul (1 * 7)).symm)⟩
  | weekdays _ hdays => exact iff_of_true (landsFirst_weekdays hdays hstart) trivial
  | nth _ hday => exact landsFirst_nth hday hmonths
  | month _ _ =>
    cases date with
    | none =>
      refine (landsFirst_of_start ⟨.month, 1, none, none, none⟩ hsame).trans
        (iff_of_true ?_ trivial)
      exact (dates_self 1).2 hself
    | some date => exact landsFirst_date hstart
  | year _ =>
    refine (landsFirst_of_start ⟨.year, 1, none, none, date⟩ hsame).trans ?_
    refine (dates_self (1 * 12)).trans ?_
    cases date with
    | none => exact iff_of_true hself trivial
    | some date => exact Iff.rfl

/-- **Repeats land on their days** exactly where they are steady. -/
theorem lands_iff {rule : Repeat} {start : ℤ} (hplain : Plain rule) (hstart : FourDigits start) :
    (Lands rule start ↔ Steady rule start) ∧
      (rule.every = 1 → (LandsFirst rule start ↔ SteadyFirst rule start)) :=
  ⟨lands_iff_steady hplain hstart, fun hevery ↦ landsFirst_iff_steady hplain hevery hstart⟩

/-- Every month on the 28th, from a 28th on. -/
theorem lands_iff_monthly :
    (Lands ⟨.month, 1, none, none, some 28⟩ (makeDay 2027 1 28) ↔
        Steady ⟨.month, 1, none, none, some 28⟩ (makeDay 2027 1 28)) ∧
      ((1 : ℤ) = 1 → (LandsFirst ⟨.month, 1, none, none, some 28⟩ (makeDay 2027 1 28) ↔
        SteadyFirst ⟨.month, 1, none, none, some 28⟩ (makeDay 2027 1 28))) :=
  lands_iff (.month zero_le_one fun d hd ↦ Option.some.inj hd ▸ (by decide)) (by decide)

/-- Every month from the 31st of January on, with no date kept: it stays on the 28th after February. -/
theorem monthly_drifts : ¬ ∀ rule start, Plain rule → FourDigits start →
    Lands rule start ∧ (rule.every = 1 → LandsFirst rule start) := by
  intro h
  have hplain : Plain ⟨.month, 1, none, none, none⟩ :=
    .month zero_le_one fun d hd ↦ absurd hd (Option.not_mem_none d)
  have hlands := (h _ (makeDay 2027 1 31) hplain (by decide)).1
  have hsteady := ((enumerates_lost 1 (fun _ ↦ rfl) zero_le_one (by decide)).1 hlands).2 1
  exact absurd hsteady (by decide)

end Reminders
