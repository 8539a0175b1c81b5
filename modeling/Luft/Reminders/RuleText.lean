import Luft.Reminders.Stamps

/-!
# Rules read back

What is read back of a repeat that was written as a rule: an interval of at least one, the days it
falls on, and the date of a monthly repeat unless it is 0 (`repeatOf_rule`).  The date of a yearly
repeat is not written.
-/

set_option autoImplicit false

namespace Reminders

/-- A repeat as quick add and the form make it. -/
inductive Plain : Repeat → Prop
  | day {every : ℤ} (h : 0 ≤ every) : Plain ⟨.day, every, none, none, none⟩
  | week {every : ℤ} (h : 0 ≤ every) : Plain ⟨.week, every, none, none, none⟩
  | weekdays {every : ℤ} (h : 0 ≤ every) {weekday : ℤ} {weekdays : List ℤ}
      (hdays : ∀ w ∈ weekday :: weekdays, 0 ≤ w ∧ w ≤ 6) :
      Plain ⟨.week, every, some (weekday :: weekdays), none, none⟩
  | nth {nth : Nth} (hweek : -1 ≤ nth.week ∧ nth.week ≤ 9)
      (hday : 0 ≤ nth.weekday ∧ nth.weekday ≤ 6) : Plain ⟨.month, 1, none, some nth, none⟩
  | month {every : ℤ} (h : 0 ≤ every) {date : Option ℤ} (hdate : ∀ d ∈ date, 0 ≤ d) :
      Plain ⟨.month, every, none, none, date⟩
  | year {every : ℤ} (h : 0 ≤ every) {date : Option ℤ} : Plain ⟨.year, every, none, none, date⟩

theorem Plain.every_nonneg {rule : Repeat} (h : Plain rule) : 0 ≤ rule.every := by
  cases h <;> first | assumption | exact zero_le_one

/-! ## Fields -/

/-- A key and its value. -/
def field (f : List Char × List Char) : List Char := f.1 ++ '=' :: f.2

theorem rulePart_field {f : List Char × List Char} (hkey : '=' ∉ f.1) (hvalue : '=' ∉ f.2) :
    rulePart (field f) = (f.1, some f.2) := by
  rw [rulePart, field, List.splitOn_append_cons_self_of_not_mem hkey,
    List.splitOn_eq_singleton hvalue]

/-- Neither a semicolon nor an equals sign is in the text. -/
def Clean (text : List Char) : Prop := ';' ∉ text ∧ '=' ∉ text

instance (text : List Char) : Decidable (Clean text) := inferInstanceAs (Decidable (_ ∧ _))

theorem splitOn_fields {fields : List (List Char × List Char)} (hne : fields ≠ [])
    (h : ∀ f ∈ fields, Clean f.1 ∧ Clean f.2) :
    ((join [';'] (fields.map field)).splitOn ';').map rulePart =
      fields.map fun f ↦ (f.1, some f.2) := by
  have hclean : ∀ part ∈ fields.map field, ';' ∉ part := by
    intro part hpart hmem
    obtain ⟨f, hf, rfl⟩ := List.mem_map.1 hpart
    rcases List.mem_append.1 hmem with hmem | hmem
    · exact (h f hf).1.1 hmem
    · rcases List.mem_cons.1 hmem with hmem | hmem
      · exact absurd hmem (by decide)
      · exact (h f hf).2.1 hmem
  rw [join, List.splitOn_intercalate ';' hclean (mt List.map_eq_nil_iff.1 hne), List.map_map]
  refine List.map_congr_left fun f hf ↦ ?_
  exact rulePart_field (h f hf).1.2 (h f hf).2.2

theorem DigitsOf.clean {text : List Char} {n : ℕ} (h : DigitsOf text n) : Clean text :=
  ⟨h.notMem (by decide), h.notMem (by decide)⟩

/-! ## Days of the week -/

theorem weekdayIndex_codeOf {weekday : ℤ} (h : 0 ≤ weekday ∧ weekday ≤ 6) :
    weekdayIndex (codeOf [] weekday) = weekday ∧ Clean (codeOf [] weekday) ∧
      ',' ∉ codeOf [] weekday ∧ nthOf (codeOf [] weekday) = none := by
  obtain ⟨hlow, hhigh⟩ := h
  interval_cases weekday <;> decide

theorem nthOf_code {nth : Nth} (hweek : -1 ≤ nth.week ∧ nth.week ≤ 9)
    (hday : 0 ≤ nth.weekday ∧ nth.weekday ≤ 6) :
    nthOf (number nth.week ++ codeOf "undefined".toList nth.weekday) = some nth ∧
      Clean (number nth.week ++ codeOf "undefined".toList nth.weekday) ∧
      ',' ∉ number nth.week ++ codeOf "undefined".toList nth.weekday := by
  obtain ⟨week, weekday⟩ := nth
  obtain ⟨hlow, hhigh⟩ := hweek
  obtain ⟨hfirst, hlast⟩ := hday
  simp only at hlow hhigh hfirst hlast ⊢
  interval_cases week <;> interval_cases weekday <;> decide

/-! ## The whole rule -/

/-- What is left of a repeat in its rule. -/
def readBack (rule : Repeat) : Repeat :=
  { rule with
    every := if rule.every > 1 then rule.every else 1
    date :=
      match rule.unit, rule.date with
      | .month, some date => if date = 0 then none else some date
      | _, _ => none }

/-- The fields of a rule for the days it falls on. -/
def dayFields (rule : Repeat) : List (List Char × List Char) :=
  (match rule.weekdays with
    | some (weekday :: weekdays) =>
      [("BYDAY".toList, join [','] ((weekday :: weekdays).map (codeOf [])))]
    | _ => []) ++
    (match rule.nth with
    | some nth => [("BYDAY".toList, number nth.week ++ codeOf "undefined".toList nth.weekday)]
    | none => []) ++
    (match rule.unit, rule.date with
    | .month, some date => if date = 0 then [] else [("BYMONTHDAY".toList, number date)]
    | _, _ => [])

/-- The fields of a rule, by key. -/
def ruleFields (rule : Repeat) : List (List Char × List Char) :=
  [("FREQ".toList, FREQUENCIES rule.unit)] ++
    (if rule.every > 1 then [("INTERVAL".toList, number rule.every)] else []) ++ dayFields rule

theorem Plain.ruleParts {rule : Repeat} (h : Plain rule) :
    ruleParts rule = (ruleFields rule).map field := by
  cases h with
  | day => rw [Reminders.ruleParts, ruleFields, dayFields]; split_ifs <;> rfl
  | week => rw [Reminders.ruleParts, ruleFields, dayFields]; split_ifs <;> rfl
  | weekdays => rw [Reminders.ruleParts, ruleFields, dayFields]; split_ifs <;> rfl
  | nth => rw [Reminders.ruleParts, ruleFields, dayFields]; split_ifs <;> rfl
  | @month every _ date =>
    cases date <;> rw [Reminders.ruleParts, ruleFields, dayFields] <;> simp only <;> split_ifs <;> rfl
  | year => rw [Reminders.ruleParts, ruleFields, dayFields]; split_ifs <;> rfl

theorem lookup_append {α : Type} (a b : List (List Char × α)) (key : List Char) :
    lookup (a ++ b) key = (lookup b key).or (lookup a key) := by
  rw [lookup, lookup, lookup, List.reverse_append, List.find?_append, Option.map_or]

/-- The value of a field. -/
def valueOf (fields : List (List Char × List Char)) (key : List Char) : Option (List Char) :=
  (lookup (fields.map fun f ↦ (f.1, some f.2)) key).join

theorem valueOf_append (a b : List (List Char × List Char)) (key : List Char) :
    valueOf (a ++ b) key = ((lookup (b.map fun f ↦ (f.1, some f.2)) key).or
      (lookup (a.map fun f ↦ (f.1, some f.2)) key)).join := by
  rw [valueOf, List.map_append, lookup_append]

theorem repeatFrom_eq {p : Places} {present : ℤ} {part : List Char → Option (List Char)}
    {unit : RepeatUnit} {every : ℤ} {date : Option ℤ}
    (hunit : unitOf ((part "FREQ".toList).getD []) = .ok (some unit))
    (hevery : wholeNumber ((part "INTERVAL".toList).getD ['1']) = .ok every)
    (hdate : (given (part "BYMONTHDAY".toList)).mapM wholeNumber = .ok date)
    (huntil : part "UNTIL".toList = none) {weekdays : Option (List ℤ)} {nth : Option Nth}
    (hdays : daysOf unit (((part "BYDAY".toList).map (·.splitOn ',')).getD []) = (weekdays, nth)) :
    repeatFrom p present part = .ok (some ⟨unit, every, weekdays, nth, date⟩, false) := by
  rw [repeatFrom, hunit]
  simp only [bind, Except.bind, hevery, hdate, huntil, hdays]
  rfl

/-- A rule is read part by part. -/
theorem repeatFrom_fields {p : Places} {present : ℤ} {unit : RepeatUnit} {every : ℤ}
    (hevery : 0 ≤ every) {fields : List (List Char × List Char)}
    (hfreq : lookup (fields.map fun f ↦ (f.1, some f.2)) "FREQ".toList = none)
    (hinterval : lookup (fields.map fun f ↦ (f.1, some f.2)) "INTERVAL".toList = none)
    (huntil : lookup (fields.map fun f ↦ (f.1, some f.2)) "UNTIL".toList = none)
    {weekdays : Option (List ℤ)} {nth : Option Nth}
    (hdays : daysOf unit (((valueOf fields "BYDAY".toList).map (·.splitOn ',')).getD []) =
      (weekdays, nth))
    {date : Option ℤ}
    (hdate : (given (valueOf fields "BYMONTHDAY".toList)).mapM wholeNumber = .ok date) :
    repeatFrom p present (valueOf ([("FREQ".toList, FREQUENCIES unit)] ++
        (if every > 1 then [("INTERVAL".toList, number every)] else []) ++ fields)) =
      .ok (some ⟨unit, if every > 1 then every else 1, weekdays, nth, date⟩, false) := by
  have hnumber : wholeNumber (number every) = .ok every := by
    rw [number_of_nonneg hevery, (digitsOf_decimal _).wholeNumber, Int.toNat_of_nonneg hevery]
  have hone : wholeNumber ['1'] = .ok 1 := by decide
  have hunit : unitOf (FREQUENCIES unit) = .ok (some unit) := by cases unit <;> decide
  have hread (front : List (List Char × List Char)) (n : ℤ)
      (hfront : valueOf front "FREQ".toList = some (FREQUENCIES unit) ∧
        lookup (front.map fun f ↦ (f.1, some f.2)) "BYDAY".toList = none ∧
        lookup (front.map fun f ↦ (f.1, some f.2)) "BYMONTHDAY".toList = none ∧
        valueOf front "UNTIL".toList = none)
      (hn : wholeNumber ((valueOf front "INTERVAL".toList).getD ['1']) = .ok n) :
      repeatFrom p present (valueOf (front ++ fields)) =
        .ok (some ⟨unit, n, weekdays, nth, date⟩, false) := by
    refine repeatFrom_eq ?_ ?_ ?_ ?_ ?_
    · rw [valueOf_append, hfreq, Option.none_or, ← valueOf, hfront.1]
      exact hunit
    · rwa [valueOf_append, hinterval, Option.none_or]
    · rwa [valueOf_append, hfront.2.2.1, Option.or_none]
    · rw [valueOf_append, huntil, Option.none_or]
      exact hfront.2.2.2
    · rwa [valueOf_append, hfront.2.1, Option.or_none]
  by_cases hmore : every > 1
  · rw [if_pos hmore, if_pos hmore]
    exact hread _ every ⟨rfl, rfl, rfl, rfl⟩ hnumber
  · rw [if_neg hmore, if_neg hmore]
    exact hread _ 1 ⟨rfl, rfl, rfl, rfl⟩ hone

theorem ruleFields_ne_nil (rule : Repeat) : ruleFields rule ≠ [] := by
  rw [ruleFields, List.append_assoc]
  exact List.cons_ne_nil _ _

/-- Texts that hold neither a semicolon nor an equals sign, put together with commas. -/
theorem Clean.join {texts : List (List Char)} (h : ∀ text ∈ texts, Clean text) :
    Clean (join [','] texts) := by
  induction texts with
  | nil => exact (by decide : Clean [])
  | cons text texts ih =>
    have htext := h text List.mem_cons_self
    cases texts with
    | nil => rwa [Reminders.join, List.intercalate_singleton]
    | cons other texts =>
      have hrest := ih fun t ht ↦ h t (List.mem_cons_of_mem _ ht)
      rw [Reminders.join, List.intercalate_cons_cons, ← Reminders.join]
      simp only [Clean, List.mem_append, List.mem_singleton, not_or]
      exact ⟨⟨⟨htext.1, by decide⟩, hrest.1⟩, ⟨htext.2, by decide⟩, hrest.2⟩

theorem Plain.fields {rule : Repeat} (h : Plain rule) :
    ∀ f ∈ ruleFields rule, Clean f.1 ∧ Clean f.2 := by
  have hkeys : Clean "FREQ".toList ∧ Clean "INTERVAL".toList ∧ Clean "BYDAY".toList ∧
      Clean "BYMONTHDAY".toList := by decide
  have hfreq : Clean (FREQUENCIES rule.unit) := by cases rule.unit <;> decide
  have hevery : Clean (number rule.every) := by
    rw [number_of_nonneg h.every_nonneg]
    exact (digitsOf_decimal _).clean
  have hinterval : ∀ f ∈ (if rule.every > 1 then [("INTERVAL".toList, number rule.every)] else []),
      Clean f.1 ∧ Clean f.2 := by
    intro f hf
    split_ifs at hf
    · rw [List.mem_singleton.1 hf]
      exact ⟨hkeys.2.1, hevery⟩
    · exact absurd hf List.not_mem_nil
  intro f hf
  rw [ruleFields, dayFields] at hf
  simp only [List.mem_append] at hf
  rcases hf with (hf | hf) | ((hf | hf) | hf)
  · rw [List.mem_singleton.1 hf]
    exact ⟨hkeys.1, hfreq⟩
  · exact hinterval f hf
  · cases h with
    | @weekdays _ _ weekday weekdays hdays =>
      rw [List.mem_singleton.1 hf]
      refine ⟨hkeys.2.2.1, Clean.join fun text htext ↦ ?_⟩
      obtain ⟨w, hw, rfl⟩ := List.mem_map.1 htext
      exact (weekdayIndex_codeOf (hdays w hw)).2.1
    | _ => exact absurd hf List.not_mem_nil
  · cases h with
    | nth hweek hday =>
      rw [List.mem_singleton.1 hf]
      exact ⟨hkeys.2.2.1, (nthOf_code hweek hday).2.1⟩
    | _ => exact absurd hf List.not_mem_nil
  · cases h with
    | @month _ _ date hdate =>
      cases date with
      | none => exact absurd hf List.not_mem_nil
      | some date =>
        simp only at hf
        split_ifs at hf
        · exact absurd hf List.not_mem_nil
        · rw [List.mem_singleton.1 hf]
          refine ⟨hkeys.2.2.2, ?_⟩
          rw [number_of_nonneg (hdate date rfl)]
          exact (digitsOf_decimal _).clean
    | _ => exact absurd hf List.not_mem_nil

theorem daysOf_codes {weekday : ℤ} {weekdays : List ℤ}
    (h : ∀ w ∈ weekday :: weekdays, 0 ≤ w ∧ w ≤ 6) :
    daysOf .week ((weekday :: weekdays).map (codeOf [])) = (some (weekday :: weekdays), none) := by
  have hmap : ((weekday :: weekdays).map (codeOf [])).map weekdayIndex = weekday :: weekdays := by
    rw [List.map_map]
    conv_rhs => rw [← List.map_id (weekday :: weekdays)]
    exact List.map_congr_left fun w hw ↦ (weekdayIndex_codeOf (h w hw)).1
  cases weekdays with
  | nil =>
    have hfirst := weekdayIndex_codeOf (h weekday List.mem_cons_self)
    simp only [List.map_cons, List.map_nil, daysOf, hfirst.2.2.2, hfirst.1, if_true]
  | cons other weekdays =>
    rw [List.map_cons, List.map_cons, daysOf, if_pos rfl]
    · exact congrArg (fun days ↦ (some days, none)) hmap
    · exact fun code heq ↦ absurd (List.cons.inj heq).2 (List.cons_ne_nil _ _)
    · exact fun heq ↦ absurd heq (List.cons_ne_nil _ _)

/-- **A rule is read back**, as far as it says what the repeat is. -/
theorem repeatOf_rule {rule : Repeat} (h : Plain rule) (p : Places) (present : ℤ) :
    repeatOf p present (join [';'] (ruleParts rule)) = .ok (some (readBack rule), false) := by
  have hpart : repeatOf p present (join [';'] (ruleParts rule)) =
      repeatFrom p present (valueOf (ruleFields rule)) := by
    rw [repeatOf, h.ruleParts, splitOn_fields (ruleFields_ne_nil rule) h.fields]
    rfl
  rw [hpart, ruleFields, readBack]
  cases h with
  | day h => refine repeatFrom_fields h ?_ ?_ ?_ ?_ ?_ <;> rfl
  | week h => refine repeatFrom_fields h ?_ ?_ ?_ ?_ ?_ <;> rfl
  | @weekdays _ h weekday weekdays hdays =>
    have hsplit : (join [','] ((weekday :: weekdays).map (codeOf []))).splitOn ',' =
        (weekday :: weekdays).map (codeOf []) := by
      refine List.splitOn_intercalate ',' (fun code hcode ↦ ?_) (by simp)
      obtain ⟨w, hw, rfl⟩ := List.mem_map.1 hcode
      exact (weekdayIndex_codeOf (hdays w hw)).2.2.1
    refine repeatFrom_fields h rfl rfl rfl ?_ rfl
    exact (congrArg (daysOf .week) hsplit).trans (daysOf_codes hdays)
  | @nth nth hweek hday =>
    obtain ⟨hnth, -, hcomma⟩ := nthOf_code hweek hday
    refine repeatFrom_fields zero_le_one rfl rfl rfl ?_ rfl
    refine (congrArg (daysOf .month) (List.splitOn_eq_singleton hcomma)).trans ?_
    rw [daysOf, hnth]
  | @month _ h date hdate =>
    cases date with
    | none => refine repeatFrom_fields h ?_ ?_ ?_ ?_ ?_ <;> rfl
    | some date =>
      by_cases hzero : date = 0
      · subst hzero
        refine repeatFrom_fields h ?_ ?_ ?_ ?_ ?_ <;> rfl
      · have hnumber := number_of_nonneg (hdate date rfl)
        have hread : wholeNumber (number date) = .ok date := by
          rw [hnumber, (digitsOf_decimal _).wholeNumber, Int.toNat_of_nonneg (hdate date rfl)]
        obtain ⟨c, rest, hcons⟩ := List.exists_cons_of_ne_nil
          (show number date ≠ [] by rw [hnumber]; exact decimal_ne_nil _)
        rw [dayFields]
        simp only [if_neg hzero]
        refine repeatFrom_fields h rfl rfl rfl rfl ?_
        rw [hcons] at hread ⊢
        exact congrArg (Except.map some) hread
  | year h => refine repeatFrom_fields h ?_ ?_ ?_ ?_ ?_ <;> rfl

/-- What makes a repeat come back as it was. -/
theorem readBack_eq_iff {rule : Repeat} (h : Plain rule) : readBack rule = rule ↔
    1 ≤ rule.every ∧ rule.date ≠ some 0 ∧ (rule.unit = .year → rule.date = none) := by
  have hevery : (readBack rule).every = rule.every ↔ 1 ≤ rule.every := by
    have hnonneg := h.every_nonneg
    rw [readBack]
    simp only
    split_ifs <;> omega
  have hdate : (readBack rule).date = rule.date ↔
      rule.date ≠ some 0 ∧ (rule.unit = .year → rule.date = none) := by
    cases h with
    | @month _ _ date _ =>
      cases date with
      | none => simp [readBack]
      | some date =>
        by_cases hzero : date = 0 <;> simp [readBack, hzero]
    | @year _ _ date => cases date <;> simp [readBack]
    | _ => simp [readBack]
  rw [← hevery, ← hdate]
  constructor
  · intro heq
    rw [heq]
    exact ⟨rfl, rfl⟩
  · rintro ⟨heq, heq'⟩
    exact Repeat.ext rfl heq rfl rfl heq'

end Reminders
