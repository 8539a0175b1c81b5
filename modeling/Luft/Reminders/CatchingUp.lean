import Luft.Reminders.Months
import Luft.Reminders.RuleText

/-!
# Catching up

Catching up goes from day to day along `StepsTo`.  It never comes back to the day it set out from
(`firstFrom_eq_of_steps`): a repeat is left where it is exactly when it falls on the day it is at.
-/

set_option autoImplicit false

namespace Reminders

def StepsTo (rule : Repeat) (day day' : ℤ) : Prop := following rule day = some day'

theorem steps_of_caughtUpWithin {rule : Repeat} {today : ℤ} {steps : ℕ} {day day' : ℤ}
    (h : caughtUpWithin rule today steps day = .ok day') :
    Relation.ReflTransGen (StepsTo rule) day day' := by
  induction steps generalizing day with
  | zero => exact nomatch h
  | succ steps ih =>
    rw [caughtUpWithin] at h
    split at h
    · split at h
      · rename_i next hnext
        exact .head hnext (ih h)
      · exact nomatch h
    · rw [Except.ok.inj h]

/-- What every step keeps holds after some steps. -/
theorem holds_of_steps {rule : Repeat} {P : ℤ → Prop} {day day' : ℤ}
    (h : Relation.ReflTransGen (StepsTo rule) day day')
    (hstep : ∀ a b, P a → StepsTo rule a b → P b) (hday : P day) : P day' := by
  induction h with
  | refl => exact hday
  | tail _ hnext ih => exact hstep _ _ ih hnext

/-! ## By weeks -/

theorem lt_nextWeekly {rule : Repeat} (hevery : 1 ≤ rule.every) {day day' : ℤ}
    (h : nextWeekly rule day = some day') : day < day' := by
  rw [nextWeekly] at h
  split at h
  · rw [← Option.some.inj h, addDays]
    omega
  · rw [← Option.some.inj h, addDays]
    omega
  · obtain ⟨ahead, hahead, rfl⟩ := Option.map_eq_some_iff.1 h
    have := (List.mem_range'_1.1 (List.mem_of_find?_eq_some hahead)).1
    rw [addDays]
    omega

/-! ## By months -/

section

variable {rule : Repeat} {day day' : ℤ}

theorem nextMonthly_nth {nth : Nth} (h : rule.nth = some nth) (day : ℤ) : nextMonthly rule day =
    nthWeekday ((monthsOf day + rule.every) / 12) ((monthsOf day + rule.every) % 12 + 1) nth := by
  rw [nextMonthly, h]
  rfl

theorem nextMonthly_date (h : rule.nth = none) (day : ℤ) : nextMonthly rule day =
    clampedDay ((monthsOf day + rule.every) / 12) ((monthsOf day + rule.every) % 12 + 1)
      (rule.date.getD (partsOf day).day) := by
  rw [nextMonthly, h]
  rfl

/-- A repeat on a date goes on by as many months as it says. -/
theorem monthsOf_nextMonthly_date (hnth : rule.nth = none) (hevery : 0 ≤ rule.every)
    (hdate : ∀ date ∈ rule.date, 1 ≤ date) (hmonths : 1200 ≤ monthsOf day) :
    monthsOf (nextMonthly rule day) = monthsOf day + rule.every := by
  rw [nextMonthly_date hnth]
  refine monthsOf_clampedDay (by omega) ?_
  cases hrule : rule.date with
  | none => exact (monthsOf_spec day).2.1
  | some date => exact hdate date hrule

/-- A repeat on a weekday of a month goes on by as many months at least. -/
theorem le_monthsOf_nextMonthly_nth {nth : Nth} (hnth : rule.nth = some nth)
    (hweek : nth.week ≠ 0) (hevery : 0 ≤ rule.every) (hmonths : 1200 ≤ monthsOf day) :
    monthsOf day + rule.every ≤ monthsOf (nextMonthly rule day) := by
  rw [nextMonthly_nth hnth]
  exact le_monthsOf_nthWeekday (by omega) hweek

theorem monthsOf_nextMonthly_zero {nth : Nth} (hnth : rule.nth = some nth) (hweek : nth.week = 0)
    (hevery : 0 ≤ rule.every) (hmonths : 1200 ≤ monthsOf day) :
    monthsOf (nextMonthly rule day) = monthsOf day + rule.every - 1 := by
  rw [nextMonthly_nth hnth]
  exact monthsOf_nthWeekday_zero (by omega) hweek

end

/-- The month of a day, taken apart. -/
theorem monthsOf_parts (day : ℤ) : monthsOf day / 12 = (partsOf day).year ∧
    monthsOf day % 12 + 1 = (partsOf day).month := by
  obtain ⟨⟨hmonth, -⟩, -⟩ := partsOf_spec day
  rw [monthsOf]
  constructor <;> omega

theorem FourDigits.monthsOf {day : ℤ} (h : FourDigits day) : 12000 ≤ monthsOf day := by
  obtain ⟨⟨hmonth, -⟩, -⟩ := partsOf_spec day
  have hyear := h.1
  rw [Reminders.monthsOf]
  omega

/-! ## Never back -/

theorem StepsTo.nextMonthly {rule : Repeat} (hunit : rule.unit = .month) {day day' : ℤ}
    (h : StepsTo rule day day') : nextMonthly rule day = day' := by
  rw [StepsTo, following, hunit] at h
  exact Option.some.inj h

/-- A repeat that goes on by months at every step only comes to a day of the month it first falls
in, or of an earlier one, if that is the day it first falls on. -/
theorem eq_of_monthly_steps {rule : Repeat} (hunit : rule.unit = .month)
    (hnext : ∀ day, 1200 ≤ monthsOf day → monthsOf day < monthsOf (nextMonthly rule day))
    {first day : ℤ} (hmonths : 1200 ≤ monthsOf first) (hle : monthsOf day ≤ monthsOf first)
    (h : Relation.ReflTransGen (StepsTo rule) first day) : first = day := by
  rcases h.cases_head with heq | ⟨next, hstep, hrest⟩
  · exact heq
  · have hlt : monthsOf first < monthsOf next := hstep.nextMonthly hunit ▸ hnext first hmonths
    have hrest' : monthsOf next ≤ monthsOf day := by
      refine holds_of_steps (P := fun b ↦ monthsOf next ≤ monthsOf b) hrest (fun a b ha hab ↦ ?_) le_rfl
      have := hnext a (by omega)
      rw [hab.nextMonthly hunit] at this
      omega
    omega

/-- A repeat on the weekday before the first one of a month stays in the month it is in. -/
theorem eq_of_steps_zero {rule : Repeat} {nth : Nth} (hunit : rule.unit = .month)
    (hevery : rule.every = 1) (hnth : rule.nth = some nth) (hweek : nth.week = 0) {first day : ℤ}
    (hmonths : 1200 < monthsOf day)
    (hfirst : first = nextMonthly rule day ∨
      first = nthWeekday (monthsOf day / 12) (monthsOf day % 12 + 1) nth)
    (h : Relation.ReflTransGen (StepsTo rule) first day) : first = day := by
  have hsteady {a b : ℤ} (ha : 1200 ≤ monthsOf a) (hab : nextMonthly rule a = b) :
      monthsOf b = monthsOf a := by
    rw [← hab, monthsOf_nextMonthly_zero hnth hweek (by omega) ha, hevery]
    omega
  rcases hfirst with hfirst | hfirst
  · have hhere : nextMonthly rule first = first := by
      have hmonth := hsteady hmonths.le hfirst.symm
      rw [nextMonthly_nth hnth, hmonth, ← nextMonthly_nth hnth, hfirst]
    refine (holds_of_steps (P := fun b ↦ b = first) h (fun a b ha hab ↦ ?_) rfl).symm
    rw [← hab.nextMonthly hunit, ha, hhere]
  · -- it would be in the month before for ever
    have hbefore : monthsOf first = monthsOf day - 1 := by
      rw [hfirst, monthsOf_nthWeekday_zero hmonths.le hweek]
    have hall : monthsOf day = monthsOf first := by
      refine holds_of_steps (P := fun b ↦ monthsOf b = monthsOf first) h (fun a b ha hab ↦ ?_) rfl
      rw [hsteady (by omega) (hab.nextMonthly hunit), ha]
    omega

/-! ### The first day -/

theorem firstFrom_date {rule : Repeat} (hunit : rule.unit = .month) (hdays : rule.weekdays = none)
    (hnth : rule.nth = none) {date : ℤ} (hdate : rule.date = some date) (hne : date ≠ 0) (day : ℤ) :
    firstFrom rule day =
      let inMonth := clampedDay (monthsOf day / 12) (monthsOf day % 12 + 1) date
      some (if precedes inMonth day then nextMonthly rule day else inMonth) := by
  obtain ⟨hyear, hmonth⟩ := monthsOf_parts day
  rw [firstFrom, hdays, hunit, hnth, hdate, hyear, hmonth]
  exact if_neg (fun h ↦ h.1 rfl) |>.trans (congrArg some (if_neg hne))

theorem firstFrom_nth {rule : Repeat} (hunit : rule.unit = .month) (hdays : rule.weekdays = none)
    {nth : Nth} (hnth : rule.nth = some nth) (day : ℤ) :
    firstFrom rule day =
      let inMonth := nthWeekday (monthsOf day / 12) (monthsOf day % 12 + 1) nth
      some (if precedes inMonth day then nextMonthly rule day else inMonth) := by
  obtain ⟨hyear, hmonth⟩ := monthsOf_parts day
  rw [firstFrom, hdays, hunit, hnth, hyear, hmonth]
  exact if_neg fun h ↦ h.1 rfl

/-- **Catching up never comes back** to the day it set out from, once it left it. -/
theorem firstFrom_eq_of_steps {rule : Repeat} (hplain : Plain rule) (hevery : 1 ≤ rule.every)
    (hdate : rule.date ≠ some 0) {first day : ℤ} (hday : FourDigits day)
    (hfirst : firstFrom rule day = some first)
    (h : Relation.ReflTransGen (StepsTo rule) first day) : first = day := by
  have hmonths := hday.monthsOf
  have hsame : makeDay (partsOf day).year (partsOf day).month (partsOf day).day = day :=
    makeDay_partsOf (if_neg (by have := hday.1; omega))
  cases hplain with
  | day => exact (Option.some.inj hfirst).symm.trans hsame
  | week => exact (Option.some.inj hfirst).symm.trans hsame
  | year => exact (Option.some.inj hfirst).symm.trans hsame
  | @weekdays every _ weekday weekdays =>
    rw [firstFrom] at hfirst
    split at hfirst
    · have hlt : day < first := lt_nextWeekly le_rfl hfirst
      have hle : first ≤ day := by
        refine holds_of_steps (P := fun b ↦ first ≤ b) h (fun a b ha hab ↦ ha.trans ?_) le_rfl
        exact (lt_nextWeekly hevery hab).le
      omega
    · exact (Option.some.inj hfirst).symm.trans hsame
  | @month every _ date hnonneg =>
    cases date with
    | none => exact (Option.some.inj hfirst).symm.trans hsame
    | some date =>
      have hne : date ≠ 0 := fun heq ↦ hdate (congrArg some heq)
      have hpos : 1 ≤ date := by
        have := hnonneg date rfl
        omega
      have hnext (a : ℤ) (ha : 1200 ≤ monthsOf a) :
          monthsOf (nextMonthly ⟨.month, every, none, none, some date⟩ a) = monthsOf a + every :=
        monthsOf_nextMonthly_date rfl (zero_le_one.trans hevery)
          (fun _ hd ↦ (Option.some.inj hd) ▸ hpos) ha
      rw [firstFrom_date rfl rfl rfl rfl hne] at hfirst
      have hle : monthsOf day ≤ monthsOf first := by
        rw [← Option.some.inj hfirst]
        split_ifs
        · rw [hnext day (by omega)]
          exact le_add_of_nonneg_right (zero_le_one.trans hevery)
        · rw [monthsOf_clampedDay (by omega) hpos]
      refine eq_of_monthly_steps rfl (fun a ha ↦ ?_) (by omega) hle h
      rw [hnext a ha]
      exact lt_add_of_pos_right _ hevery
  | @nth nth hweek _ =>
    rw [firstFrom_nth rfl rfl rfl] at hfirst
    have hfirst' := Option.some.inj hfirst
    by_cases hzero : nth.week = 0
    · refine eq_of_steps_zero rfl rfl rfl hzero (by omega) ?_ h
      split_ifs at hfirst'
      · exact .inl hfirst'.symm
      · exact .inr hfirst'.symm
    · have hnext (a : ℤ) (ha : 1200 ≤ monthsOf a) :
          monthsOf a + 1 ≤ monthsOf (nextMonthly ⟨.month, 1, none, some nth, none⟩ a) :=
        le_monthsOf_nextMonthly_nth rfl hzero zero_le_one ha
      have hle : monthsOf day ≤ monthsOf first := by
        rw [← hfirst']
        split_ifs
        · have := hnext day (by omega)
          omega
        · exact le_monthsOf_nthWeekday (by omega) hzero
      exact eq_of_monthly_steps rfl (fun a ha ↦ hnext a ha) (by omega) hle h

end Reminders
