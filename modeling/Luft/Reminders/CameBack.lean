import Luft.Reminders.RoundTrip

/-!
# What comes back of a calendar file

What comes of a reminder is what `foundIn` makes of its properties; `foundIn_iff` says when that is
the reminder as it was, and `readCalendar_writeCalendar` that a file gives all of its reminders back,
in order, when each of them is `Restorable`.
-/

set_option autoImplicit false

namespace Reminders

variable {p : Places} {present today now : ℤ}

/-! ## What a component says -/

theorem find_propertiesOf (now : ℤ) (r : Reminder) (name : List Char) :
    (propertiesOf now r).find name =
      (((baseProperties now r).find name).or
        (if dateName r = name then r.when.map (dateProperty r) else none)).or
        (if "RRULE".toList = name then r.repeats.map fun rule ↦
          (⟨"RRULE".toList, [], join [';'] (ruleParts rule)⟩ : Property) else none) := by
  have hdate : List.find? (·.name = name) (r.when.map (dateProperty r)).toList =
      if dateName r = name then r.when.map (dateProperty r) else none := by
    cases r.when with
    | none => exact (ite_self _).symm
    | some w => simp only [Option.map_some, Option.toList_some, List.find?_singleton,
        dateProperty_name, decide_eq_true_eq]
  have hrule : List.find? (·.name = name) (r.repeats.map fun rule ↦
      (⟨"RRULE".toList, [], join [';'] (ruleParts rule)⟩ : Property)).toList =
        if "RRULE".toList = name then r.repeats.map fun rule ↦
          (⟨"RRULE".toList, [], join [';'] (ruleParts rule)⟩ : Property) else none := by
    cases r.repeats with
    | none => exact (ite_self _).symm
    | some rule => simp only [Option.map_some, Option.toList_some, List.find?_singleton,
        decide_eq_true_eq]
  rw [propertiesOf, Properties.find, List.find?_append, List.find?_append, hdate, hrule]
  rfl

theorem dateName_cases (r : Reminder) : dateName r = "DTSTART".toList ∨ dateName r = "DUE".toList := by
  rw [dateName]
  split_ifs
  · exact .inl rfl
  · exact .inr rfl

/-- A name that is not that of the date or of the rule. -/
theorem find_base {name : List Char}
    (h : "DTSTART".toList ≠ name ∧ "DUE".toList ≠ name ∧ "RRULE".toList ≠ name) (now : ℤ)
    (r : Reminder) : (propertiesOf now r).find name = (baseProperties now r).find name := by
  have hdate : dateName r ≠ name := by
    rcases dateName_cases r with heq | heq <;> rw [heq]
    · exact h.1
    · exact h.2.1
  rw [find_propertiesOf, if_neg hdate, if_neg h.2.2, Option.or_none, Option.or_none]

theorem find_start (now : ℤ) (r : Reminder) :
    ((propertiesOf now r).find "DTSTART".toList).or ((propertiesOf now r).find "DUE".toList) =
      r.when.map (dateProperty r) := by
  have hstart : (baseProperties now r).find "DTSTART".toList = none := rfl
  have hdue : (baseProperties now r).find "DUE".toList = none := rfl
  have hrule : "RRULE".toList ≠ "DTSTART".toList ∧ "RRULE".toList ≠ "DUE".toList := by decide
  have hne : "DUE".toList ≠ "DTSTART".toList := by decide
  rw [find_propertiesOf, find_propertiesOf, hstart, hdue, if_neg hrule.1, if_neg hrule.2]
  rcases dateName_cases r with heq | heq
  · rw [heq, if_pos rfl, if_neg hne.symm]
    cases r.when <;> rfl
  · rw [heq, if_neg hne, if_pos rfl]
    cases r.when <;> rfl

theorem find_rule (now : ℤ) (r : Reminder) : (propertiesOf now r).find "RRULE".toList =
    r.repeats.map fun rule ↦ ⟨"RRULE".toList, [], join [';'] (ruleParts rule)⟩ := by
  have hbase : (baseProperties now r).find "RRULE".toList = none := rfl
  have hdate : dateName r ≠ "RRULE".toList := by
    rcases dateName_cases r with heq | heq <;> rw [heq] <;> decide
  rw [find_propertiesOf, hbase, if_neg hdate, if_pos rfl]
  rfl

theorem kindFor_propertiesOf (title name : List Char) (now : ℤ) (r : Reminder) :
    kindFor title (propertiesOf now r) name = r.kind := by
  have hown : (propertiesOf now r).value "X-LUFT-KIND".toList = some (kindName r.kind) := by
    rw [Properties.value, find_base (by decide)]
    rfl
  rw [kindFor, hown]
  cases r.kind <;> rfl

/-- A date is read back exactly when its year has four digits. -/
theorem whenOf_dateProperty {r : Reminder} {w : When} (h : FourDigits w.day) :
    whenOf p (dateProperty r w) = some w := by
  obtain ⟨day, time⟩ := w
  rw [whenOf, dateProperty]
  cases time with
  | none =>
    simp only [stampOf_compactDay h, Option.map_some]
  | some time =>
    have hzone : lookup ([] : List (List Char × Option (List Char))) "TZID".toList = none := rfl
    simp only [stampOf_time h, Option.map_some, hzone, Bool.false_eq_true, if_false,
      Option.join_none]
    have hsame (n : Fin 100) : Fin.ofNat 100 (n : ℕ) = n := Fin.ext (Nat.mod_eq_of_lt n.isLt)
    rw [hsame, hsame]

/-- … and of a day from today on only then. -/
theorem fourDigits_of_whenOf {r : Reminder} {w : When} (hyear : 0 ≤ (partsOf w.day).year)
    (h : (whenOf p (dateProperty r w)).isSome) : FourDigits w.day := by
  rw [whenOf, Option.isSome_map, dateProperty] at h
  cases htime : w.time with
  | none =>
    simp only [htime] at h
    obtain ⟨stamp, hstamp⟩ := Option.isSome_iff_exists.1 h
    rw [← List.append_nil (compactDay w.day)] at hstamp
    refine four_digits_of_stamp hyear (fun c hc ↦ ?_) hstamp
    exact absurd hc (Option.not_mem_none c)
  | some time =>
    simp only [htime] at h
    obtain ⟨stamp, hstamp⟩ := Option.isSome_iff_exists.1 h
    refine four_digits_of_stamp hyear (fun c hc ↦ ?_) hstamp
    rw [List.head?_cons, Option.mem_some_iff] at hc
    rw [← hc]
    decide

/-- Going by texts, a day before the year 0 is before one with four digits. -/
theorem year_nonneg {today day : ℤ} (htoday : FourDigits today) (h : ¬ precedes day today) :
    0 ≤ (partsOf day).year := by
  by_contra hneg
  refine h ?_
  obtain ⟨hlow, hhigh⟩ := htoday
  obtain ⟨c, rest, hcons⟩ := List.exists_cons_of_ne_nil (decimal_ne_nil (partsOf today).year.toNat)
  have hdigit : c.isDigit := isDigit_of_mem_decimal (hcons ▸ List.mem_cons_self)
  have hlt : '-' < c := by
    rw [Char.isDigit, Bool.and_eq_true, decide_eq_true_eq] at hdigit
    exact UInt32.lt_of_lt_of_le (by decide : ('-' : Char).val < ('0' : Char).val) hdigit.1
  rw [precedes, dayText, dayText, number, if_pos (not_le.1 hneg), number_of_nonneg (by omega),
    hcons]
  exact decide_eq_true (List.Lex.rel hlt)


/-- What reading gives of a reminder. -/
def Reminder.found (r : Reminder) : Found := ⟨some r.id, trim r.title, r.kind, r.when, r.repeats, r.headsUp⟩

/-- A reminder from today on, as quick add and the form make it. -/
structure Ready (today : ℤ) (r : Reminder) : Prop where
  opened : r.doneAt = none
  line : '\n' ∉ r.id
  plain : ∀ rule ∈ r.repeats, Plain rule
  upcoming : ∀ w ∈ r.when, ¬ precedes w.day today

/-- What makes a reminder come back as it was. -/
structure Restorable (r : Reminder) : Prop where
  years : ∀ w ∈ r.when, FourDigits w.day
  every : ∀ rule ∈ r.repeats, 1 ≤ rule.every
  date : ∀ rule ∈ r.repeats, rule.date ≠ some 0 ∧ (rule.unit = .year → rule.date = none)
  birthday : r.kind = .birthday → r.when.isSome → r.repeats.isSome
  falls : ∀ w ∈ r.when, ∀ rule ∈ r.repeats, firstFrom rule w.day = some w.day

/-- What comes of a reminder whose date is read back. -/
def comesBack (today : ℤ) (r : Reminder) (written : Option When) (repeats : Option Repeat) :
    Except Failure (Option Found) := do
  let repeats :=
    if repeats.isNone ∧ r.kind = .birthday ∧ written.isSome then
      some { unit := .year, every := 1 }
    else repeats
  let w ←
    match written, repeats with
    | some w, some rule => (caughtUp rule w today).map some
    | _, _ => .ok written
  if isEvent r ∧ w.any (fun w ↦ precedes w.day today) then .ok none
  else .ok (some ⟨some r.id, trim r.title, r.kind, w, repeats, r.headsUp⟩)

theorem foundIn_eq {r : Reminder} (hplain : ∀ rule ∈ r.repeats, Plain rule) :
    foundIn p present today (componentName r) (propertiesOf now r) r.headsUp =
      match writtenIn p (propertiesOf now r) with
      | none => .ok none
      | some written => comesBack today r written (r.repeats.map readBack) := by
  have hsummary : (propertiesOf now r).find "SUMMARY".toList =
      some ⟨"SUMMARY".toList, [], escaped r.title⟩ := find_base (by decide) now r
  have hstatus : (propertiesOf now r).value "STATUS".toList = none :=
    congrArg (Option.map Property.value) (find_base (by decide) now r)
  have hcompleted : (propertiesOf now r).find "COMPLETED".toList = none :=
    find_base (by decide) now r
  have huid : (propertiesOf now r).value "UID".toList = some r.id :=
    congrArg (Option.map Property.value) (find_base (by decide) now r)
  have hname : componentName r = "VEVENT".toList ↔ isEvent r := by
    rw [componentName]
    cases isEvent r <;> decide
  have hopen : ¬ ((none : Option (List Char)) = some "COMPLETED".toList ∨
      (none : Option Property).isSome = true ∨
      (none : Option (List Char)) = some "CANCELLED".toList) := by
    rintro (h | h | h)
    · exact Option.some_ne_none _ h.symm
    · exact Bool.false_ne_true h
    · exact Option.some_ne_none _ h.symm
  rw [foundIn, hsummary]
  simp only [hstatus, hcompleted, huid, kindFor_propertiesOf, hname, unescaped_escaped, find_rule]
  rw [if_neg hopen]
  cases writtenIn p (propertiesOf now r) with
  | none => rfl
  | some written =>
    cases hrepeats : r.repeats with
    | none => rfl
    | some rule =>
      simp only [Option.map_some, repeatOf_rule (hplain rule hrepeats) p present]
      rfl

theorem writtenIn_none {r : Reminder} (h : r.when = none) (now : ℤ) :
    writtenIn p (propertiesOf now r) = some none := by
  rw [writtenIn, find_start, h]
  rfl

theorem writtenIn_some {r : Reminder} {w : When} (h : r.when = some w) (now : ℤ) :
    writtenIn p (propertiesOf now r) = (whenOf p (dateProperty r w)).map some := by
  rw [writtenIn, find_start, h]
  rfl

/-- A repeat that falls on the day it is at stays there. -/
theorem caughtUp_eq_iff {rule : Repeat} (hplain : Plain rule) (hevery : 1 ≤ rule.every)
    (hdate : rule.date ≠ some 0) {w : When} {today : ℤ} (hday : FourDigits w.day)
    (hupcoming : ¬ precedes w.day today) :
    caughtUp rule w today = .ok w ↔ firstFrom rule w.day = some w.day := by
  rw [caughtUp]
  constructor
  · intro h
    split at h
    · exact nomatch h
    · rename_i first hfirst
      cases hcaught : caughtUpWithin rule today STEPS first with
      | error => rw [hcaught] at h; exact nomatch h
      | ok day =>
        rw [hcaught] at h
        have hsame : day = w.day := congrArg When.day (Except.ok.inj h)
        rw [hsame] at hcaught
        rw [hfirst, firstFrom_eq_of_steps hplain hevery hdate hday hfirst
          (steps_of_caughtUpWithin hcaught)]
  · intro h
    have hstays : caughtUpWithin rule today STEPS w.day = .ok w.day := by
      rw [STEPS, caughtUpWithin, if_neg hupcoming]
    rw [h]
    simp only [hstays]
    rfl


theorem comesBack_repeats {r : Reminder} {w : When} {rule : Repeat} {f : Found} :
    comesBack today r (some w) (some rule) = .ok (some f) ↔
      ∃ w', caughtUp rule w today = .ok w' ∧ ¬ (isEvent r ∧ precedes w'.day today) ∧
        f = ⟨some r.id, trim r.title, r.kind, some w', some rule, r.headsUp⟩ := by
  have hgiven : ¬ ((some rule).isNone ∧ r.kind = .birthday ∧ (some w).isSome) :=
    fun h ↦ Bool.false_ne_true h.1
  simp only [comesBack, if_neg hgiven]
  cases caughtUp rule w today with
  | error =>
    constructor
    · intro h
      exact nomatch h
    · rintro ⟨w', h, -⟩
      exact nomatch h
  | ok w' =>
    have hbind : (Except.map some (.ok w' : Except Failure When) >>= fun w ↦
        if isEvent r ∧ w.any (fun w ↦ precedes w.day today) then .ok none
        else .ok (some ⟨some r.id, trim r.title, r.kind, w, some rule, r.headsUp⟩)) =
          if isEvent r ∧ precedes w'.day today then (.ok none : Except Failure (Option Found))
          else .ok (some ⟨some r.id, trim r.title, r.kind, some w', some rule, r.headsUp⟩) := rfl
    refine (Eq.congr_left hbind).trans ?_
    constructor
    · intro h
      split_ifs at h with hpast
      · exact nomatch h
      · exact ⟨w', rfl, hpast, (Option.some.inj (Except.ok.inj h)).symm⟩
    · rintro ⟨w'', h, hpast, rfl⟩
      rw [← Except.ok.inj h] at hpast ⊢
      rw [if_neg hpast]

theorem map_readBack_eq_iff {repeats : Option Repeat} (h : ∀ rule ∈ repeats, Plain rule) :
    repeats.map readBack = repeats ↔ ∀ rule ∈ repeats,
      1 ≤ rule.every ∧ rule.date ≠ some 0 ∧ (rule.unit = .year → rule.date = none) := by
  cases repeats with
  | none => exact iff_of_true rfl fun rule hrule ↦ absurd hrule (Option.not_mem_none rule)
  | some rule =>
    rw [Option.map_some, Option.some.injEq, readBack_eq_iff (h rule rfl)]
    constructor
    · rintro hrule _ ⟨⟩
      exact hrule
    · exact fun hrule ↦ hrule rule rfl

/-- What comes back of a reminder without a date. -/
theorem comesBack_undated (r : Reminder) (repeats : Option Repeat) : comesBack today r none repeats =
    .ok (some ⟨some r.id, trim r.title, r.kind, none, repeats, r.headsUp⟩) := by
  have hgiven : ¬ (repeats.isNone ∧ r.kind = .birthday ∧ (none : Option When).isSome) :=
    fun h ↦ Bool.false_ne_true h.2.2
  simp only [comesBack, if_neg hgiven]
  exact if_neg fun h ↦ Bool.false_ne_true h.2

/-- What comes back of a reminder with a date and no repeat. -/
theorem comesBack_once {r : Reminder} {w : When} (hkind : r.kind ≠ .birthday)
    (h : ¬ precedes w.day today) : comesBack today r (some w) none =
      .ok (some ⟨some r.id, trim r.title, r.kind, some w, none, r.headsUp⟩) := by
  have hgiven : ¬ ((none : Option Repeat).isNone ∧ r.kind = .birthday ∧ (some w).isSome) :=
    fun h ↦ hkind h.2.1
  simp only [comesBack, if_neg hgiven]
  exact if_neg fun hpast ↦ h hpast.2

/-- A birthday that is not said to repeat comes back as one that does. -/
theorem comesBack_birthday {r : Reminder} {w : When} (hkind : r.kind = .birthday) :
    comesBack today r (some w) none = comesBack today r (some w) (some ⟨.year, 1, none, none, none⟩) := by
  have hgiven : (none : Option Repeat).isNone ∧ r.kind = .birthday ∧ (some w).isSome :=
    ⟨rfl, hkind, rfl⟩
  simp only [comesBack, if_pos hgiven]
  rfl

/-- **A reminder comes back** as it was exactly when it is restorable. -/
theorem foundIn_iff {r : Reminder} (htoday : FourDigits today) (h : Ready today r) :
    foundIn p present today (componentName r) (propertiesOf now r) r.headsUp = .ok (some r.found) ↔
      Restorable r := by
  rw [foundIn_eq h.plain, Reminder.found]
  have hrules := map_readBack_eq_iff h.plain
  cases hwhen : r.when with
  | none =>
    rw [writtenIn_none hwhen]
    simp only [comesBack_undated, Except.ok.injEq, Option.some.injEq, Found.mk.injEq, true_and,
      and_true, hrules]
    constructor
    · intro hrule
      exact
        { years := fun w hw ↦ nomatch hwhen.symm.trans hw
          every := fun rule hmem ↦ (hrule rule hmem).1
          date := fun rule hmem ↦ (hrule rule hmem).2
          birthday := fun _ hdated ↦ by
            rw [hwhen] at hdated
            exact absurd hdated Bool.false_ne_true
          falls := fun w hw ↦ nomatch hwhen.symm.trans hw }
    · exact fun hkept rule hmem ↦ ⟨hkept.every rule hmem, hkept.date rule hmem⟩
  | some w =>
    have hupcoming := h.upcoming w hwhen
    rw [writtenIn_some hwhen]
    by_cases hday : FourDigits w.day
    · rw [whenOf_dateProperty hday]
      simp only [Option.map_some]
      have hyears : ∀ w' ∈ r.when, FourDigits w'.day := by
        intro w' hw'
        rwa [← Option.some.inj (hwhen.symm.trans hw')]
      cases hrepeats : r.repeats with
      | none =>
        by_cases hkind : r.kind = .birthday
        · rw [Option.map_none, comesBack_birthday hkind, comesBack_repeats]
          refine iff_of_false ?_ fun hkept ↦ ?_
          · rintro ⟨w', -, -, heq⟩
            exact nomatch congrArg Found.repeats heq
          · have := hkept.birthday hkind (by rw [hwhen]; rfl)
            rw [hrepeats] at this
            exact Bool.false_ne_true this
        · rw [Option.map_none, comesBack_once hkind hupcoming]
          refine iff_of_true rfl ?_
          exact
            { years := hyears
              every := fun rule hmem ↦ nomatch hrepeats.symm.trans hmem
              date := fun rule hmem ↦ nomatch hrepeats.symm.trans hmem
              birthday := fun hbirthday ↦ absurd hbirthday hkind
              falls := fun _ _ rule hmem ↦ nomatch hrepeats.symm.trans hmem }
      | some rule =>
        have hplain := h.plain rule hrepeats
        rw [Option.map_some, comesBack_repeats]
        constructor
        · rintro ⟨w', hcaught, -, heq⟩
          have hw : w = w' := Option.some.inj (congrArg Found.when heq)
          have hback : readBack rule = rule := (Option.some.inj (congrArg Found.repeats heq)).symm
          obtain ⟨hevery, hdate⟩ := (readBack_eq_iff hplain).1 hback
          rw [← hw, hback, caughtUp_eq_iff hplain hevery hdate.1 hday hupcoming] at hcaught
          have hrule : ∀ rule' ∈ r.repeats, rule' = rule :=
            fun rule' hmem ↦ Option.some.inj (hmem.symm.trans hrepeats)
          exact
            { years := hyears
              every := fun rule' hmem ↦ hrule rule' hmem ▸ hevery
              date := fun rule' hmem ↦ hrule rule' hmem ▸ hdate
              birthday := fun _ _ ↦ by rw [hrepeats]; rfl
              falls := fun w' hw' rule' hmem ↦ by
                rw [hrule rule' hmem, ← Option.some.inj (hwhen.symm.trans hw'), hcaught] }
        · intro hkept
          have hevery := hkept.every rule hrepeats
          have hdate := hkept.date rule hrepeats
          rw [(readBack_eq_iff hplain).2 ⟨hevery, hdate⟩]
          refine ⟨w, ?_, fun hpast ↦ hupcoming hpast.2, rfl⟩
          exact (caughtUp_eq_iff hplain hevery hdate.1 hday hupcoming).2
            (hkept.falls w hwhen rule hrepeats)
    · have hunread : whenOf p (dateProperty r w) = none := by
        by_contra hread
        exact hday (fourDigits_of_whenOf (year_nonneg htoday hupcoming)
          (Option.isSome_iff_ne_none.2 hread))
      rw [hunread]
      refine iff_of_false (fun hok ↦ ?_) fun hkept ↦ hday (hkept.years w hwhen)
      exact nomatch hok


/-! ## Whole files -/

/-- Components add at most one reminder each to those that were found. -/
theorem readLines_components {reminders : List Reminder} {s s' : Progress}
    (hopened : s.opened = none) (halarm : s.alarm = false)
    (h : (reminders.flatMap (component now)).foldlM (readLine p present today) s = .ok s') :
    s'.opened = none ∧ s'.alarm = false ∧
      ∃ more, s'.found = s.found ++ more ∧ more.length ≤ reminders.length := by
  induction reminders generalizing s with
  | nil =>
    cases Except.ok.inj h
    exact ⟨hopened, halarm, [], (List.append_nil _).symm, le_rfl⟩
  | cons r reminders ih =>
    rw [List.flatMap_cons, List.foldlM_append, readLines_component halarm] at h
    cases hback : foundIn p present today (componentName r) (propertiesOf now r) r.headsUp with
    | error => rw [hback] at h; exact nomatch h
    | ok found =>
      rw [hback] at h
      cases found with
      | none =>
        obtain ⟨hopened', halarm', more, hmore, hlen⟩ :=
          ih (s := s.closed now r none) rfl halarm h
        exact ⟨hopened', halarm', more, hmore, hlen.trans (Nat.le_succ _)⟩
      | some found =>
        obtain ⟨hopened', halarm', more, hmore, hlen⟩ :=
          ih (s := s.closed now r (some found)) rfl halarm h
        refine ⟨hopened', halarm', found :: more, ?_, Nat.succ_le_succ hlen⟩
        rw [hmore, Progress.closed, List.append_assoc, List.singleton_append]

/-- All of some reminders come back in order when each of them does. -/
theorem readLines_components_iff {reminders : List Reminder} {s : Progress}
    (hopened : s.opened = none) (halarm : s.alarm = false) :
    (∃ s', (reminders.flatMap (component now)).foldlM (readLine p present today) s = .ok s' ∧
      s'.found = s.found ++ reminders.map Reminder.found) ↔
    ∀ r ∈ reminders, foundIn p present today (componentName r) (propertiesOf now r) r.headsUp =
      .ok (some r.found) := by
  induction reminders generalizing s with
  | nil => exact iff_of_true ⟨s, rfl, (List.append_nil _).symm⟩ fun r hr ↦ absurd hr List.not_mem_nil
  | cons r reminders ih =>
    rw [List.flatMap_cons, List.foldlM_append, readLines_component halarm, List.forall_mem_cons]
    cases hback : foundIn p present today (componentName r) (propertiesOf now r) r.headsUp with
    | error =>
      refine iff_of_false ?_ fun h ↦ nomatch h.1
      rintro ⟨s', h, -⟩
      exact nomatch h
    | ok found =>
      cases found with
      | none =>
        -- one too few is left for the others to give
        refine iff_of_false ?_ fun h ↦ nomatch Except.ok.inj h.1
        rintro ⟨s', h, hfound⟩
        obtain ⟨-, -, more, hmore, hlen⟩ :=
          readLines_components (s := s.closed now r none) rfl halarm h
        have hsame : more = (r :: reminders).map Reminder.found :=
          List.append_cancel_left (hmore.symm.trans hfound)
        rw [hsame, List.length_map, List.length_cons] at hlen
        exact absurd hlen (Nat.not_succ_le_self _)
      | some found =>
        have hrest := ih (s := s.closed now r (some found)) rfl halarm
        rw [Except.ok.injEq, Option.some.injEq, ← hrest]
        constructor
        · rintro ⟨s', h, hfound⟩
          obtain ⟨-, -, more, hmore, -⟩ :=
            readLines_components (s := s.closed now r (some found)) rfl halarm h
          have hsame : found :: more = r.found :: reminders.map Reminder.found := by
            rw [Progress.closed, List.append_assoc] at hmore
            exact List.append_cancel_left (hmore.symm.trans hfound)
          obtain ⟨hhead, htail⟩ := List.cons.inj hsame
          exact ⟨hhead, s', h, hmore.trans (congrArg _ htail)⟩
        · rintro ⟨rfl, s', h, hfound⟩
          refine ⟨s', h, hfound.trans ?_⟩
          rw [Progress.closed, List.append_assoc, List.singleton_append, List.map_cons]

end Reminders
