import Luft.Reminders.CatchingUp

/-!
# A calendar file read back

A component is read line by line: its properties are kept, its alarm gives the heads-up, and its last
line turns it into a reminder or skips it (`readLines_component`).
-/

set_option autoImplicit false

namespace Reminders

variable {p : Places} {present today now : ℤ}

/-! ## Lines -/

theorem property_named (name : List Char)
    (h : ':' ∉ name ∧ ';' ∉ name ∧ toUpperCase name = name) (value : List Char) :
    property (name ++ ':' :: value) = ⟨name, [], value⟩ := by
  rw [property_eq h.1, headed, List.splitOn_eq_singleton h.2.1, List.headD_cons, h.2.2]
  rfl

/-- The lines of a component between its first line and its alarm. -/
def plainLines (now : ℤ) (r : Reminder) : List (List Char) :=
  ["UID".toList ++ ':' :: r.id, "DTSTAMP".toList ++ ':' :: stamp now,
    "LAST-MODIFIED".toList ++ ':' :: stamp r.updatedAt,
    "SUMMARY".toList ++ ':' :: escaped r.title, "X-LUFT-KIND".toList ++ ':' :: kindName r.kind] ++
    dateLines r ++ ruleLines r

theorem component_eq (now : ℤ) (r : Reminder) : component now r =
    ("BEGIN".toList ++ ':' :: componentName r) :: (plainLines now r ++ alarmLines r ++
      ["END".toList ++ ':' :: componentName r]) := rfl

/-- The name of the property a reminder's date is in. -/
def dateName (r : Reminder) : List Char := if isEvent r then "DTSTART".toList else "DUE".toList

def dateProperty (r : Reminder) (w : When) : Property :=
  match w.time with
  | some time => ⟨dateName r, [],
      compactDay w.day ++ 'T' :: (pad time.hours ++ pad time.minutes ++ ['0', '0'])⟩
  | none => ⟨dateName r, [("VALUE".toList, some "DATE".toList)], compactDay w.day⟩

theorem property_dated (r : Reminder) (w : When) :
    property (dated (dateName r) w) = dateProperty r w := by
  have hname : (':' ∉ dateName r ∧ ';' ∉ dateName r ∧ toUpperCase (dateName r) = dateName r) ∧
      headed (dateName r ++ ";VALUE=DATE".toList) (compactDay w.day) =
        ⟨dateName r, [("VALUE".toList, some "DATE".toList)], compactDay w.day⟩ ∧
      ':' ∉ dateName r ++ ";VALUE=DATE".toList := by
    rw [dateName]
    split_ifs
    · exact ⟨by decide, rfl, by decide⟩
    · exact ⟨by decide, rfl, by decide⟩
  rw [dated, dateProperty]
  cases w.time with
  | some time => exact property_named _ hname.1 _
  | none =>
    have hline : dateName r ++ ";VALUE=DATE:".toList ++ compactDay w.day =
        (dateName r ++ ";VALUE=DATE".toList) ++ ':' :: compactDay w.day := by
      rw [List.append_assoc, List.append_assoc]
      rfl
    simp only [hline]
    rw [property_eq hname.2.2, hname.2.1]

def baseProperties (now : ℤ) (r : Reminder) : Properties :=
  [⟨"UID".toList, [], r.id⟩, ⟨"DTSTAMP".toList, [], stamp now⟩,
    ⟨"LAST-MODIFIED".toList, [], stamp r.updatedAt⟩, ⟨"SUMMARY".toList, [], escaped r.title⟩,
    ⟨"X-LUFT-KIND".toList, [], kindName r.kind⟩]

/-- The properties of a reminder. -/
def propertiesOf (now : ℤ) (r : Reminder) : Properties :=
  baseProperties now r ++ (r.when.map (dateProperty r)).toList ++
    (r.repeats.map fun rule ↦
      (⟨"RRULE".toList, [], join [';'] (ruleParts rule)⟩ : Property)).toList

theorem map_property_plainLines (now : ℤ) (r : Reminder) :
    (plainLines now r).map property = propertiesOf now r := by
  have hdate : (dateLines r).map property = (r.when.map (dateProperty r)).toList := by
    rw [dateLines]
    cases r.when with
    | none => rfl
    | some w => exact congrArg (fun p ↦ [p]) (property_dated r w)
  have hrule : (ruleLines r).map property = (r.repeats.map fun rule ↦
      (⟨"RRULE".toList, [], join [';'] (ruleParts rule)⟩ : Property)).toList := by
    rw [ruleLines]
    cases r.repeats with
    | none => rfl
    | some rule => exact congrArg (fun p ↦ [p]) (property_named "RRULE".toList (by decide) _)
  rw [plainLines, propertiesOf, List.map_append, List.map_append, hdate, hrule, baseProperties]
  simp only [List.map_cons, List.map_nil]
  rw [property_named _ (by decide), property_named _ (by decide), property_named _ (by decide),
    property_named _ (by decide), property_named _ (by decide)]

/-! ## Reading a component -/

theorem foldlM_cons_ok {α σ ε : Type} {f : σ → α → Except ε σ} {a : α} {s s' : σ}
    (h : f s a = .ok s') (as : List α) : (a :: as).foldlM f s = as.foldlM f s' := by
  rw [List.foldlM_cons, h]
  rfl

theorem foldlM_append_ok {α σ ε : Type} {f : σ → α → Except ε σ} {as : List α} {s s' : σ}
    (h : as.foldlM f s = .ok s') (as' : List α) : (as ++ as').foldlM f s = as'.foldlM f s' := by
  rw [List.foldlM_append, h]
  rfl

/-- A line between the first and the last of a component. -/
theorem readLine_inside {s : Progress} {name line : List Char} (hopened : s.opened = some name)
    (hbegin : (property line).name ≠ "BEGIN".toList) (hend : (property line).name ≠ "END".toList) :
    readLine p present today s line =
      if s.alarm then
        if (property line).name = "TRIGGER".toList then
          .ok { s with headsUp := max s.headsUp (daysAhead (property line).value) }
        else .ok s
      else if (s.props.find (property line).name).isNone then
        .ok { s with props := s.props ++ [property line] }
      else .ok s := by
  rw [readLine, if_neg fun h ↦ hbegin h.1, if_neg fun h ↦ hbegin h.1, if_neg fun h ↦ hend h.1,
    hopened]
  exact if_neg fun h ↦ hend h.1

/-- A property of the component that is open. -/
theorem readLine_property {s : Progress} {name line : List Char} (hopened : s.opened = some name)
    (halarm : s.alarm = false) (hbegin : (property line).name ≠ "BEGIN".toList)
    (hend : (property line).name ≠ "END".toList) (hnew : s.props.find (property line).name = none) :
    readLine p present today s line = .ok { s with props := s.props ++ [property line] } := by
  rw [readLine_inside hopened hbegin hend, halarm, hnew]
  rfl

theorem find_append_singleton (props : Properties) (prop : Property) (name : List Char) :
    Properties.find (props ++ [prop]) name =
      (props.find name).or (if prop.name = name then some prop else none) := by
  rw [Properties.find, Properties.find, List.find?_append, List.find?_singleton]
  simp only [decide_eq_true_eq]

/-- Properties with different names are all kept. -/
theorem readLines_properties {lines : List (List Char)} {s : Progress} {name : List Char}
    (hopened : s.opened = some name) (halarm : s.alarm = false)
    (hnames : ((lines.map property).map (·.name)).Nodup)
    (hplain : ∀ line ∈ lines, (property line).name ≠ "BEGIN".toList ∧
      (property line).name ≠ "END".toList ∧ s.props.find (property line).name = none) :
    lines.foldlM (readLine p present today) s =
      .ok { s with props := s.props ++ lines.map property } := by
  induction lines generalizing s with
  | nil => rw [List.map_nil, List.append_nil]; rfl
  | cons line lines ih =>
    obtain ⟨hbegin, hend, hnew⟩ := hplain line List.mem_cons_self
    rw [List.map_cons, List.map_cons, List.nodup_cons] at hnames
    rw [foldlM_cons_ok (readLine_property hopened halarm hbegin hend hnew)]
    refine (ih (s := { s with props := s.props ++ [property line] }) hopened halarm hnames.2
      fun other hother ↦ ?_).trans ?_
    · obtain ⟨hbegin', hend', hnew'⟩ := hplain other (List.mem_cons_of_mem line hother)
      refine ⟨hbegin', hend', ?_⟩
      have hne : (property line).name ≠ (property other).name := fun heq ↦
        hnames.1 (heq ▸ List.mem_map_of_mem (List.mem_map_of_mem hother))
      rw [find_append_singleton, hnew', if_neg hne]
      rfl
    · rw [List.map_cons, List.append_assoc, List.singleton_append]

theorem dateProperty_name (r : Reminder) (w : When) : (dateProperty r w).name = dateName r := by
  rw [dateProperty]
  split <;> rfl

theorem names_propertiesOf (now : ℤ) (r : Reminder) :
    ((propertiesOf now r).map (·.name)).Nodup ∧ "BEGIN".toList ∉ (propertiesOf now r).map (·.name) ∧
      "END".toList ∉ (propertiesOf now r).map (·.name) := by
  have hnames : (propertiesOf now r).map (·.name) =
      ["UID".toList, "DTSTAMP".toList, "LAST-MODIFIED".toList, "SUMMARY".toList,
        "X-LUFT-KIND".toList] ++ (r.when.map fun _ ↦ dateName r).toList ++
        (r.repeats.map fun _ ↦ "RRULE".toList).toList := by
    rw [propertiesOf, List.map_append, List.map_append]
    congr 1
    · cases r.when with
      | none => rfl
      | some w => exact congrArg _ (congrArg (fun name ↦ [name]) (dateProperty_name r w))
    · cases r.repeats <;> rfl
  have hsub : ((propertiesOf now r).map (·.name)).Sublist (["UID".toList, "DTSTAMP".toList,
      "LAST-MODIFIED".toList, "SUMMARY".toList, "X-LUFT-KIND".toList] ++ [dateName r] ++
        ["RRULE".toList]) := by
    rw [hnames]
    refine ((List.Sublist.refl _).append ?_).append ?_
    · cases r.when
      · exact List.nil_sublist _
      · exact List.Sublist.refl _
    · cases r.repeats
      · exact List.nil_sublist _
      · exact List.Sublist.refl _
  have hfull : (["UID".toList, "DTSTAMP".toList, "LAST-MODIFIED".toList, "SUMMARY".toList,
      "X-LUFT-KIND".toList] ++ [dateName r] ++ ["RRULE".toList]).Nodup ∧
      "BEGIN".toList ∉ ["UID".toList, "DTSTAMP".toList, "LAST-MODIFIED".toList, "SUMMARY".toList,
        "X-LUFT-KIND".toList] ++ [dateName r] ++ ["RRULE".toList] ∧
      "END".toList ∉ ["UID".toList, "DTSTAMP".toList, "LAST-MODIFIED".toList, "SUMMARY".toList,
        "X-LUFT-KIND".toList] ++ [dateName r] ++ ["RRULE".toList] := by
    rw [dateName]
    cases isEvent r <;> decide
  exact ⟨hfull.1.sublist hsub, fun h ↦ hfull.2.1 (hsub.subset h), fun h ↦ hfull.2.2 (hsub.subset h)⟩

/-- The days a trigger names are read back. -/
theorem daysAhead_trigger (headsUp : ℕ) :
    daysAhead ('-' :: 'P' :: (decimal headsUp ++ ['D'])) = headsUp := by
  have hall : ∀ c ∈ decimal headsUp, Char.isDigit c := fun _ ↦ isDigit_of_mem_decimal
  have htake : (decimal headsUp ++ ['D']).takeWhile Char.isDigit = decimal headsUp := by
    rw [List.takeWhile_append_of_pos hall, List.takeWhile_cons_of_neg (by decide), List.append_nil]
  have hdrop : (decimal headsUp ++ ['D']).dropWhile Char.isDigit = ['D'] := by
    rw [List.dropWhile_append_of_pos hall, List.dropWhile_cons_of_neg (by decide)]
  have hweek : 'W' ∉ '-' :: 'P' :: (decimal headsUp ++ ['D']) := by
    have hdigits : 'W' ∉ decimal headsUp := (digitsOf_decimal headsUp).notMem (by decide)
    simp only [List.mem_cons, List.mem_append, List.not_mem_nil, hdigits, or_false]
    decide
  obtain ⟨c, rest, hcons⟩ := List.exists_cons_of_ne_nil (decimal_ne_nil headsUp)
  rw [daysAhead.eq_def]
  simp only [htake, hdrop, if_neg hweek]
  simp only [hcons]
  rw [mul_one, ← hcons, value_decimal]

theorem readLine_alarm (s : Progress) :
    readLine p present today s "BEGIN:VALARM".toList = .ok { s with alarm := true } ∧
      readLine p present today s "END:VALARM".toList = .ok { s with alarm := false } := by
  have hbegin : property "BEGIN:VALARM".toList = ⟨"BEGIN".toList, [], "VALARM".toList⟩ := by decide
  have hend : property "END:VALARM".toList = ⟨"END".toList, [], "VALARM".toList⟩ := by decide
  rw [readLine, readLine, hbegin, hend]
  exact ⟨rfl, rfl⟩

theorem readLine_in_alarm {s : Progress} {name line : List Char} (hopened : s.opened = some name)
    (halarm : s.alarm = true) {prop : Property} (hprop : property line = prop)
    (hplain : prop.name ≠ "BEGIN".toList ∧ prop.name ≠ "END".toList ∧
      prop.name ≠ "TRIGGER".toList) : readLine p present today s line = .ok s := by
  subst hprop
  rw [readLine_inside hopened hplain.1 hplain.2.1, halarm, if_pos rfl, if_neg hplain.2.2]

theorem readLine_trigger {s : Progress} {name line : List Char} (hopened : s.opened = some name)
    (halarm : s.alarm = true) {value : List Char}
    (hprop : property line = ⟨"TRIGGER".toList, [], value⟩) : readLine p present today s line =
      .ok { s with headsUp := max s.headsUp (daysAhead value) } := by
  have hname : (property line).name = "TRIGGER".toList := congrArg Property.name hprop
  have hbegin : "TRIGGER".toList ≠ "BEGIN".toList := by decide
  have hend : "TRIGGER".toList ≠ "END".toList := by decide
  rw [readLine_inside hopened (hname ▸ hbegin) (hname ▸ hend), halarm, if_pos rfl, if_pos hname,
    hprop]

/-- The alarm of a component gives its heads-up. -/
theorem readLines_alarm {s : Progress} {name : List Char} (hopened : s.opened = some name)
    (halarm : s.alarm = false) (hheadsUp : s.headsUp = 0) (r : Reminder) :
    (alarmLines r).foldlM (readLine p present today) s = .ok { s with headsUp := r.headsUp } := by
  obtain ⟨found, skipped, opened, props, alarm, headsUp⟩ := s
  simp only at hopened halarm hheadsUp
  subst hopened halarm hheadsUp
  rw [alarmLines]
  split_ifs with hzero
  · rw [hzero]
    rfl
  · have haction : property "ACTION:DISPLAY".toList = ⟨"ACTION".toList, [], "DISPLAY".toList⟩ := by
      decide
    have htrigger : property ("TRIGGER:-P".toList ++ decimal r.headsUp ++ ['D']) =
        ⟨"TRIGGER".toList, [], '-' :: 'P' :: (decimal r.headsUp ++ ['D'])⟩ := by
      rw [List.append_assoc]
      exact property_named "TRIGGER".toList (by decide) _
    have hdescription : property ("DESCRIPTION:".toList ++ escaped r.title) =
        ⟨"DESCRIPTION".toList, [], escaped r.title⟩ :=
      property_named "DESCRIPTION".toList (by decide) _
    rw [foldlM_cons_ok (readLine_alarm _).1,
      foldlM_cons_ok (readLine_in_alarm rfl rfl haction (by decide)),
      foldlM_cons_ok (readLine_trigger rfl rfl htrigger),
      foldlM_cons_ok (readLine_in_alarm rfl rfl hdescription
        ⟨(by decide : "DESCRIPTION".toList ≠ _), (by decide : "DESCRIPTION".toList ≠ _),
          (by decide : "DESCRIPTION".toList ≠ _)⟩),
      foldlM_cons_ok (readLine_alarm _).2, daysAhead_trigger, Nat.zero_max]
    rfl

/-! ## Reading whole components -/

/-- The reading once the component of a reminder is closed. -/
def Progress.closed (s : Progress) (now : ℤ) (r : Reminder) : Option Found → Progress
  | some found =>
    { s with
      found := s.found ++ [found], opened := none, props := propertiesOf now r,
      headsUp := r.headsUp }
  | none =>
    { s with
      skipped := s.skipped + 1, opened := none, props := propertiesOf now r, headsUp := r.headsUp }

theorem componentName_cases (r : Reminder) :
    componentName r = "VEVENT".toList ∨ componentName r = "VTODO".toList := by
  rw [componentName]
  split_ifs
  · exact .inl rfl
  · exact .inr rfl

theorem readLine_begin (s : Progress) (r : Reminder) :
    readLine p present today s ("BEGIN".toList ++ ':' :: componentName r) =
      .ok { s with opened := some (componentName r), props := [], headsUp := 0 } := by
  rw [readLine, property_named "BEGIN".toList (by decide)]
  exact if_pos ⟨rfl, componentName_cases r⟩

theorem readLine_end {s : Progress} {r : Reminder} (hopened : s.opened = some (componentName r)) :
    readLine p present today s ("END".toList ++ ':' :: componentName r) =
      (foundIn p present today (componentName r) s.props s.headsUp).map fun found ↦
        match found with
        | some found => { s with found := s.found ++ [found], opened := none }
        | none => { s with skipped := s.skipped + 1, opened := none } := by
  have hne : componentName r ≠ "VALARM".toList := by
    rcases componentName_cases r with h | h <;> rw [h] <;> decide
  have hbegin : "END".toList ≠ "BEGIN".toList := by decide
  rw [readLine, property_named "END".toList (by decide), if_neg fun h ↦ hbegin h.1,
    if_neg fun h ↦ hbegin h.1, if_neg fun h ↦ hne h.2, hopened]
  refine (if_pos ⟨rfl, rfl⟩).trans ?_
  cases foundIn p present today (componentName r) s.props s.headsUp with
  | error => rfl
  | ok found => cases found <;> rfl

/-- **A component is read back**, or skipped, as its properties say. -/
theorem readLines_component {s : Progress} (halarm : s.alarm = false) (r : Reminder) :
    (component now r).foldlM (readLine p present today) s =
      (foundIn p present today (componentName r) (propertiesOf now r) r.headsUp).map
        (s.closed now r) := by
  have hprops := map_property_plainLines now r
  obtain ⟨hnodup, hbegin, hend⟩ := names_propertiesOf now r
  have hplain : (plainLines now r).foldlM (readLine p present today)
      { s with opened := some (componentName r), props := [], headsUp := 0 } =
        .ok { s with
          opened := some (componentName r), props := propertiesOf now r, headsUp := 0 } := by
    refine (readLines_properties
      (s := { s with opened := some (componentName r), props := [], headsUp := 0 }) rfl halarm
      (by rwa [hprops]) fun line hline ↦ ?_).trans ?_
    · have hmem : (property line).name ∈ (propertiesOf now r).map (·.name) := by
        rw [← hprops]
        exact List.mem_map_of_mem (List.mem_map_of_mem hline)
      exact ⟨fun h ↦ hbegin (h ▸ hmem), fun h ↦ hend (h ▸ hmem), rfl⟩
    · rw [hprops]
      rfl
  have halarmed : (alarmLines r).foldlM (readLine p present today)
      { s with opened := some (componentName r), props := propertiesOf now r, headsUp := 0 } =
        .ok { s with
          opened := some (componentName r), props := propertiesOf now r, headsUp := r.headsUp } :=
    readLines_alarm (s := { s with
      opened := some (componentName r), props := propertiesOf now r, headsUp := 0 })
      rfl halarm rfl r
  rw [component_eq, foldlM_cons_ok (readLine_begin s r), List.append_assoc, foldlM_append_ok hplain,
    foldlM_append_ok halarmed, List.foldlM_cons, readLine_end rfl]
  cases foundIn p present today (componentName r) (propertiesOf now r) r.headsUp with
  | error => rfl
  | ok found => cases found <;> rfl

end Reminders
