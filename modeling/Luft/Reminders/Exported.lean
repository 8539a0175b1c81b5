import Luft.Reminders.CameBack

/-!
# Calendar files exported and read again

Every line of an exported file begins with a letter and has no line feed in it, so unfolding the file
gives the lines that were written (`unfolded_writeCalendar`), and reading them gives the reminders
back that are `Restorable` (`readCalendar_writeCalendar`).
-/

set_option autoImplicit false

namespace Reminders

variable {p : Places} {present today now : ℤ}

/-! ### The lines of a file -/

/-- A line that unfolding leaves as it is. -/
def Plainly (line : List Char) : Prop := Begins line ∧ '\n' ∉ line

theorem plainly_append {name value : List Char} (hname : ∃ c rest, name = c :: rest ∧ c ≠ ' ' ∧ c ≠ '\t')
    (hline : '\n' ∉ name) (hvalue : '\n' ∉ value) : Plainly (name ++ value) := by
  obtain ⟨c, rest, rfl, hc⟩ := hname
  exact ⟨⟨c, rest ++ value, rfl, hc⟩, fun h ↦ (List.mem_append.1 h).elim hline hvalue⟩

theorem newline_notMem_decimal (n : ℕ) : '\n' ∉ decimal n :=
  (digitsOf_decimal n).notMem (by decide)

theorem newline_notMem_number (n : ℤ) : '\n' ∉ number n := by
  rw [number]
  split_ifs
  · exact List.not_mem_cons_of_ne_of_not_mem (by decide) (newline_notMem_decimal _)
  · exact newline_notMem_decimal _

theorem newline_notMem_zeros (n : ℕ) : '\n' ∉ List.replicate n '0' :=
  fun h ↦ absurd (List.eq_of_mem_replicate h) (by decide)

theorem newline_notMem_pad (n : ℤ) : '\n' ∉ pad n := by
  rw [pad, List.mem_append, not_or]
  exact ⟨newline_notMem_zeros _, newline_notMem_number n⟩

theorem newline_notMem_isoYear (year : ℤ) : '\n' ∉ isoYear year := by
  have hsign : '\n' ≠ '-' ∧ '\n' ≠ '+' := by decide
  rw [isoYear]
  split_ifs
  · rw [List.mem_append, not_or]
    exact ⟨newline_notMem_zeros _, newline_notMem_number year⟩
  · rw [List.mem_cons, List.mem_append, not_or, not_or]
    exact ⟨hsign.1, newline_notMem_zeros _, newline_notMem_decimal _⟩
  · rw [List.mem_cons, List.mem_append, not_or, not_or]
    exact ⟨hsign.2, newline_notMem_zeros _, newline_notMem_decimal _⟩

theorem newline_notMem_stamp (instant : ℤ) : '\n' ∉ stamp instant := by
  rw [stamp]
  simp only [List.mem_append, List.mem_singleton, not_or]
  refine ⟨fun h ↦ ?_, by decide⟩
  have hmem := List.mem_of_mem_filter (List.mem_of_mem_take h)
  simp only [List.mem_append, List.mem_cons, newline_notMem_isoYear, newline_notMem_pad, false_or,
    or_false] at hmem
  exact absurd hmem (by decide)

theorem newline_notMem_compactDay (day : ℤ) : '\n' ∉ compactDay day := by
  intro h
  have hmem := List.mem_of_mem_filter h
  simp only [dayText, List.mem_append, List.mem_cons, newline_notMem_number, newline_notMem_pad,
    false_or, or_false] at hmem
  exact absurd hmem (by decide)

theorem newline_notMem_join {separator : Char} (hseparator : separator ≠ '\n')
    {texts : List (List Char)} (h : ∀ text ∈ texts, '\n' ∉ text) : '\n' ∉ join [separator] texts := by
  induction texts with
  | nil => exact List.not_mem_nil
  | cons text texts ih =>
    obtain ⟨htext, htexts⟩ := List.forall_mem_cons.1 h
    by_cases hnil : texts = []
    · rw [hnil, join, List.intercalate_singleton]
      exact htext
    · rw [join, List.intercalate_cons_of_ne_nil hnil, List.mem_append, List.mem_append, not_or,
        not_or, List.mem_singleton]
      exact ⟨⟨htext, hseparator.symm⟩, ih htexts⟩

theorem newline_notMem_codeOf {missing : List Char} (h : '\n' ∉ missing) (weekday : ℤ) :
    '\n' ∉ codeOf missing weekday := by
  have hcodes : ∀ code ∈ WEEKDAY_CODES, '\n' ∉ code := by decide
  rw [codeOf]
  split_ifs
  · rcases lt_or_ge weekday.toNat WEEKDAY_CODES.length with hlt | hge
    · rw [List.getD_eq_getElem _ _ hlt]
      exact hcodes _ (List.getElem_mem hlt)
    · rw [List.getD_eq_default _ _ hge]
      exact h
  · exact h

theorem newline_notMem_ruleParts (rule : Repeat) : ∀ part ∈ ruleParts rule, '\n' ∉ part := by
  have hnamed {name value : List Char} (hname : '\n' ∉ name) (hvalue : '\n' ∉ value) :
      '\n' ∉ name ++ value := fun h ↦ (List.mem_append.1 h).elim hname hvalue
  have hday : '\n' ∉ "BYDAY=".toList := by decide
  intro part hpart
  rw [ruleParts] at hpart
  simp only [List.mem_append] at hpart
  rcases hpart with (((hpart | hpart) | hpart) | hpart) | hpart
  · rw [List.mem_singleton.1 hpart]
    cases rule.unit <;> decide
  · split_ifs at hpart
    · rw [List.mem_singleton.1 hpart]
      exact hnamed (by decide) (newline_notMem_number _)
    · exact absurd hpart List.not_mem_nil
  · split at hpart
    · rw [List.mem_singleton.1 hpart]
      refine hnamed hday (newline_notMem_join (by decide) fun code hcode ↦ ?_)
      obtain ⟨weekday, -, rfl⟩ := List.mem_map.1 hcode
      exact newline_notMem_codeOf List.not_mem_nil weekday
    · exact absurd hpart List.not_mem_nil
  · split at hpart
    · rw [List.mem_singleton.1 hpart]
      exact hnamed (hnamed hday (newline_notMem_number _))
        (newline_notMem_codeOf (by decide) _)
    · exact absurd hpart List.not_mem_nil
  · split at hpart
    · split_ifs at hpart
      · exact absurd hpart List.not_mem_nil
      · rw [List.mem_singleton.1 hpart]
        exact hnamed (by decide) (newline_notMem_number _)
    · exact absurd hpart List.not_mem_nil

theorem plainly_dateLines (r : Reminder) : ∀ line ∈ dateLines r, Plainly line := by
  have hbegins : ∃ c rest, dateName r = c :: rest ∧ c ≠ ' ' ∧ c ≠ '\t' := by
    rcases dateName_cases r with h | h <;> rw [h] <;> exact ⟨'D', _, rfl, by decide⟩
  have hname : '\n' ∉ dateName r := by
    rcases dateName_cases r with h | h <;> rw [h] <;> decide
  have hcolon : '\n' ≠ ':' ∧ '\n' ≠ 'T' := by decide
  intro line hline
  rw [dateLines] at hline
  split at hline
  · rename_i w _
    rw [List.mem_singleton.1 hline]
    change Plainly (dated (dateName r) w)
    rw [dated]
    split
    · refine plainly_append hbegins hname ?_
      simp only [List.mem_cons, List.mem_append, hcolon, newline_notMem_compactDay,
        newline_notMem_pad, false_or, or_false, List.not_mem_nil]
      decide
    · rw [List.append_assoc]
      refine plainly_append hbegins hname ?_
      rw [List.mem_append, not_or]
      exact ⟨by decide, newline_notMem_compactDay _⟩
  · exact absurd hline List.not_mem_nil

theorem plainly_alarmLines (r : Reminder) : ∀ line ∈ alarmLines r, Plainly line := by
  intro line hline
  rw [alarmLines] at hline
  split_ifs at hline
  · exact absurd hline List.not_mem_nil
  · simp only [List.mem_cons, List.not_mem_nil, or_false] at hline
    rcases hline with rfl | rfl | rfl | rfl | rfl
    · exact ⟨⟨'B', _, rfl, by decide⟩, by decide⟩
    · exact ⟨⟨'A', _, rfl, by decide⟩, by decide⟩
    · rw [List.append_assoc]
      refine plainly_append ⟨'T', _, rfl, by decide⟩ (by decide) ?_
      rw [List.mem_append, not_or]
      exact ⟨newline_notMem_decimal _, by decide⟩
    · exact plainly_append ⟨'D', _, rfl, by decide⟩ (by decide) (newline_notMem_escaped r.title)
    · exact ⟨⟨'E', _, rfl, by decide⟩, by decide⟩

theorem plainly_component (now : ℤ) {r : Reminder} (hid : '\n' ∉ r.id) :
    ∀ line ∈ component now r, Plainly line := by
  have hname : '\n' ∉ componentName r := by
    rcases componentName_cases r with h | h <;> rw [h] <;> decide
  have htitle := newline_notMem_escaped r.title
  intro line hline
  rw [component] at hline
  simp only [List.mem_append, List.mem_cons, List.not_mem_nil, or_false, or_assoc] at hline
  rcases hline with rfl | rfl | rfl | rfl | rfl | rfl | hline | hline | hline | rfl
  · exact plainly_append ⟨'B', _, rfl, by decide⟩ (by decide) hname
  · exact plainly_append ⟨'U', _, rfl, by decide⟩ (by decide) hid
  · exact plainly_append ⟨'D', _, rfl, by decide⟩ (by decide) (newline_notMem_stamp now)
  · exact plainly_append ⟨'L', _, rfl, by decide⟩ (by decide) (newline_notMem_stamp _)
  · exact plainly_append ⟨'S', _, rfl, by decide⟩ (by decide) htitle
  · refine plainly_append ⟨'X', _, rfl, by decide⟩ (by decide) ?_
    cases r.kind <;> decide
  · exact plainly_dateLines r line hline
  · rw [ruleLines] at hline
    split at hline
    · rw [List.mem_singleton.1 hline]
      exact plainly_append ⟨'R', _, rfl, by decide⟩ (by decide)
        (newline_notMem_join (by decide) (newline_notMem_ruleParts _))
    · exact absurd hline List.not_mem_nil
  · exact plainly_alarmLines r line hline
  · exact plainly_append ⟨'E', _, rfl, by decide⟩ (by decide) hname

/-- The lines of a file are those that were written. -/
theorem unfolded_writeCalendar {reminders : List Reminder} (h : ∀ r ∈ reminders, '\n' ∉ r.id)
    (now : ℤ) : unfolded (writeCalendar reminders now) = calendarLines reminders now := by
  refine unfolded_join (List.append_ne_nil_of_right_ne_nil _ (List.cons_ne_nil _ _))
    fun line hline ↦ ?_
  rw [calendarLines, List.mem_append, List.mem_append] at hline
  rcases hline with (hline | hline) | hline
  · simp only [List.map_cons, List.map_nil, List.mem_cons, List.not_mem_nil, or_false] at hline
    rcases hline with rfl | rfl | rfl | rfl
    · exact ⟨⟨'B', _, rfl, by decide⟩, by decide⟩
    · exact ⟨⟨'V', _, rfl, by decide⟩, by decide⟩
    · exact ⟨⟨'P', _, rfl, by decide⟩, by decide⟩
    · exact ⟨⟨'C', _, rfl, by decide⟩, by decide⟩
  · obtain ⟨r, hr, hline⟩ := List.mem_flatMap.1 hline
    exact plainly_component now (h r (List.mem_of_mem_filter hr)) line hline
  · rw [List.mem_singleton.1 hline]
    exact ⟨⟨'E', _, rfl, by decide⟩, by decide⟩

/-- Lines around the components say nothing. -/
theorem readLine_around {s : Progress} (hopened : s.opened = none) {line : List Char}
    {prop : Property} (hprop : property line = prop)
    (hplain : prop.name ≠ "BEGIN".toList ∧ prop.name ≠ "END".toList ∨
      prop.value = "VCALENDAR".toList) : readLine p present today s line = .ok s := by
  have hvalue : "VCALENDAR".toList ≠ "VEVENT".toList ∧ "VCALENDAR".toList ≠ "VTODO".toList ∧
      "VCALENDAR".toList ≠ "VALARM".toList := by decide
  rw [readLine, hprop, if_neg, if_neg, if_neg, hopened]
  · rintro ⟨hname, hcalendar⟩
    exact hplain.elim (fun h ↦ h.2 hname) fun h ↦ hvalue.2.2 (h ▸ hcalendar)
  · rintro ⟨hname, hcalendar⟩
    exact hplain.elim (fun h ↦ h.1 hname) fun h ↦ hvalue.2.2 (h ▸ hcalendar)
  · rintro ⟨hname, hcalendar⟩
    refine hplain.elim (fun h ↦ h.1 hname) fun h ↦ ?_
    exact hcalendar.elim (fun h' ↦ hvalue.1 (h ▸ h')) fun h' ↦ hvalue.2.1 (h ▸ h')

theorem readLines_calendarLines {reminders : List Reminder} (hopen : ∀ r ∈ reminders, r.doneAt = none) :
    (calendarLines reminders now).foldlM (readLine p present today) {} =
      (reminders.flatMap (component now)).foldlM (readLine p present today) {} := by
  have hfilter : reminders.filter (·.doneAt.isNone) = reminders :=
    List.filter_eq_self.2 fun r hr ↦ by rw [hopen r hr]; rfl
  have hbegin : property "BEGIN:VCALENDAR".toList = ⟨"BEGIN".toList, [], "VCALENDAR".toList⟩ := by
    decide
  have hversion : property "VERSION:2.0".toList = ⟨"VERSION".toList, [], "2.0".toList⟩ := by decide
  have hmade : property "PRODID:-//Lantharos//Luft Reminders//EN".toList =
      ⟨"PRODID".toList, [], "-//Lantharos//Luft Reminders//EN".toList⟩ := by decide
  have hscale : property "CALSCALE:GREGORIAN".toList = ⟨"CALSCALE".toList, [], "GREGORIAN".toList⟩ := by
    decide
  have hend : property "END:VCALENDAR".toList = ⟨"END".toList, [], "VCALENDAR".toList⟩ := by decide
  rw [calendarLines, hfilter, List.append_assoc]
  simp only [List.map_cons, List.map_nil, List.cons_append, List.nil_append]
  rw [foldlM_cons_ok (readLine_around rfl hbegin (.inr rfl)),
    foldlM_cons_ok (readLine_around rfl hversion (.inl (by decide))),
    foldlM_cons_ok (readLine_around rfl hmade (.inl (by decide))),
    foldlM_cons_ok (readLine_around rfl hscale (.inl (by decide))), List.foldlM_append]
  cases hfold : (reminders.flatMap (component now)).foldlM (readLine p present today) {} with
  | error => rfl
  | ok s =>
    have hopened := (readLines_components rfl rfl hfold).1
    change List.foldlM _ s _ = _
    rw [foldlM_cons_ok (readLine_around hopened hend (.inr rfl))]
    rfl

/-- What comes back is what was written, reminder by reminder. -/
theorem found_eq_iff {reminders : List Reminder} (htoday : FourDigits today)
    (h : ∀ r ∈ reminders, Ready today r) :
    (readCalendar p present today (writeCalendar reminders now)).map (·.found) =
        .ok (reminders.map Reminder.found) ↔ ∀ r ∈ reminders, Restorable r := by
  have hback := @readLines_components_iff p present today now reminders {} rfl rfl
  rw [readCalendar, unfolded_writeCalendar (fun r hr ↦ (h r hr).line),
    readLines_calendarLines fun r hr ↦ (h r hr).opened]
  have hiff : (∀ r ∈ reminders, foundIn p present today (componentName r) (propertiesOf now r)
      r.headsUp = .ok (some r.found)) ↔ ∀ r ∈ reminders, Restorable r :=
    forall₂_congr fun r hr ↦ foundIn_iff htoday (h r hr)
  rw [← hiff, ← hback]
  cases hfold : (reminders.flatMap (component now)).foldlM (readLine p present today) {} with
  | error =>
    refine iff_of_false (fun h ↦ nomatch h) ?_
    rintro ⟨s', h, -⟩
    exact nomatch h
  | ok s =>
    constructor
    · intro h
      exact ⟨s, rfl, Except.ok.inj h⟩
    · rintro ⟨s', h, hfound⟩
      rw [Except.ok.inj h]
      exact congrArg Except.ok hfound

/-- **A calendar file gives its reminders back** as they were, in order, exactly when each of them is
restorable. -/
theorem readCalendar_writeCalendar {reminders : List Reminder} (htoday : FourDigits today)
    (h : ∀ r ∈ reminders, Ready today r) :
    (readCalendar p present today (writeCalendar reminders now)).map (·.found) =
        .ok (reminders.map Reminder.found) ↔ ∀ r ∈ reminders, Restorable r :=
  found_eq_iff htoday h

/-- A place where the clocks show UTC, and know no other place. -/
def universal : Places where
  instantOf day time := day * 86400000 + time.hours * 3600000 + time.minutes * 60000
  dayOf instant := instant / 86400000
  clockOf instant := ⟨Fin.ofNat 100 (instant / 3600000 % 24).toNat,
    Fin.ofNat 100 (instant / 60000 % 60).toNat⟩
  zoneOffset _ _ := none

/-- Rent on the 5th of every month, at nine, with two days' notice. -/
def rent : Reminder where
  id := "rent".toList
  title := "Pay rent; then, sleep".toList
  when := some ⟨20762, some ⟨9, 0⟩⟩
  repeats := some { unit := .month, every := 1, date := some 5 }
  headsUp := 2

theorem readCalendar_writeCalendar_rent :
    (readCalendar universal 20760 20760 (writeCalendar [rent] 0)).map (·.found) =
      .ok [rent.found] := by
  refine (readCalendar_writeCalendar (by decide) fun r hr ↦ ?_).2 fun r hr ↦ ?_
  · rw [List.mem_singleton.1 hr]
    refine ⟨rfl, by decide, ?_, ?_⟩
    · rintro _ ⟨⟩
      exact .month zero_le_one (by rintro _ ⟨⟩; decide)
    · rintro _ ⟨⟩
      decide
  · rw [List.mem_singleton.1 hr]
    refine ⟨?_, ?_, ?_, fun h ↦ (by decide : Kind.reminder ≠ .birthday).elim h, ?_⟩
    · rintro _ ⟨⟩
      decide
    · rintro _ ⟨⟩
      decide
    · rintro _ ⟨⟩
      decide
    · rintro _ ⟨⟩ _ ⟨⟩
      decide

/-- Taxes every year on the 5th of November, as quick add makes it. -/
def taxes : Reminder where
  id := "taxes".toList
  title := "Pay taxes".toList
  when := some ⟨20762, none⟩
  repeats := some { unit := .year, every := 1, date := some 5 }

/-- The date of a yearly repeat is lost. -/
theorem not_restored_taxes : Ready 20760 taxes ∧
    (readCalendar universal 20760 20760 (writeCalendar [taxes] 0)).map (·.found) ≠
      .ok [taxes.found] := by
  have hready : Ready 20760 taxes := by
    refine ⟨rfl, by decide, ?_, ?_⟩
    · rintro _ ⟨⟩
      exact .year zero_le_one
    · rintro _ ⟨⟩
      decide
  refine ⟨hready, fun h ↦ ?_⟩
  have hready' : ∀ r ∈ [taxes], Ready 20760 r := by
    intro r hr
    rw [List.mem_singleton.1 hr]
    exact hready
  have hrestorable := (found_eq_iff (by decide) hready').1 h taxes List.mem_cons_self
  exact absurd ((hrestorable.date _ rfl).2 rfl) nofun

end Reminders
