import Luft.Reminders.Reading

/-!
# Days and times read back

Numbers are written in digits and read back from them.  A day is written as the digits of its year,
two for its month and two for its date; it is read back exactly when its year has four digits
(`whenOf_dated`, `four_digits_of_stamp`).
-/

set_option autoImplicit false

namespace Reminders

/-! ## Digits -/

theorem isDigit_of_mem_decimal {n : ℕ} {c : Char} (h : c ∈ decimal n) : c.isDigit :=
  Nat.isDigit_of_mem_toDigits (by decide) (by decide) h

theorem value_decimal (n : ℕ) : Nat.ofDigitChars 10 (decimal n) 0 = n := Nat.ofDigitChars_ten_toDigits

theorem decimal_ne_nil (n : ℕ) : decimal n ≠ [] := Nat.toDigits_ne_nil

theorem length_decimal_le_iff {n k : ℕ} (h : 0 < k) : (decimal n).length ≤ k ↔ n < 10 ^ k :=
  Nat.length_toDigits_le_iff (by decide) h

theorem number_of_nonneg {n : ℤ} (h : 0 ≤ n) : number n = decimal n.toNat :=
  if_neg (not_lt.2 h)

/-- Some digits, with the number they stand for. -/
structure DigitsOf (text : List Char) (n : ℕ) : Prop where
  digits : ∀ c ∈ text, c.isDigit
  value : Nat.ofDigitChars 10 text 0 = n

theorem digitsOf_decimal (n : ℕ) : DigitsOf (decimal n) n :=
  ⟨fun _ ↦ isDigit_of_mem_decimal, value_decimal n⟩

theorem digitsOf_pad {n : ℕ} (h : n < 100) : DigitsOf (pad n) n ∧ (pad n).length = 2 := by
  have hlen : (decimal n).length ≤ 2 := (length_decimal_le_iff (by decide)).2 h
  rw [pad, number_of_nonneg (Int.natCast_nonneg n), Int.toNat_natCast]
  refine ⟨⟨fun c hc ↦ ?_, ?_⟩, ?_⟩
  · rcases List.mem_append.1 hc with hc | hc
    · rw [List.eq_of_mem_replicate hc]
      decide
    · exact isDigit_of_mem_decimal hc
  · rw [Nat.ofDigitChars_append, Nat.ofDigitChars_replicate_zero, mul_zero, value_decimal]
  · rw [List.length_append, List.length_replicate]
    omega

namespace DigitsOf

variable {text : List Char} {n : ℕ} (h : DigitsOf text n)

include h

theorem takeDigits (rest : List Char) :
    takeDigits text.length (text ++ rest) = some (n, rest) := by
  have hall : text.all Char.isDigit := List.all_eq_true.2 h.digits
  rw [Reminders.takeDigits, List.take_left, List.drop_left, if_pos ⟨rfl, hall⟩, h.value]

theorem notMem {c : Char} (hc : c.isDigit = false) : c ∉ text :=
  fun hmem ↦ Bool.false_ne_true (hc.symm.trans (h.digits c hmem))

theorem trim : trim text = text := by
  have hspace : ∀ c ∈ text, isSpace c = false := by
    intro c hc
    have hdigit := h.digits c hc
    rw [Char.isDigit, Bool.and_eq_true, decide_eq_true_eq, decide_eq_true_eq] at hdigit
    have hlow : 48 ≤ c.toNat := hdigit.1
    have hhigh : c.toNat ≤ 57 := hdigit.2
    rw [isSpace]
    simp only [List.contains_eq_mem, List.mem_cons, List.not_mem_nil, or_false,
      Bool.or_eq_false_iff, Bool.and_eq_false_iff, decide_eq_false_iff_not]
    omega
  rw [Reminders.trim]
  cases text with
  | nil => rfl
  | cons c text =>
    have hdrop : (c :: text).dropWhile isSpace = c :: text :=
      List.dropWhile_cons_of_neg (by rw [hspace c List.mem_cons_self]; decide)
    rw [hdrop, List.rdropWhile_eq_self_iff]
    intro hne
    rw [hspace _ (List.getLast_mem hne)]
    decide

/-- `Number` reads digits. -/
theorem wholeNumber : wholeNumber text = .ok (n : ℤ) := by
  rw [Reminders.wholeNumber, h.trim]
  have hall : text.all Char.isDigit := List.all_eq_true.2 h.digits
  split
  · rw [← h.value]
    rfl
  · exact absurd List.mem_cons_self (h.notMem (c := '-') (by decide))
  · exact absurd List.mem_cons_self (h.notMem (c := '+') (by decide))
  · rw [if_pos hall, h.value]

end DigitsOf

/-! ## Days -/

theorem filter_dash {text : List Char} (h : ∀ c ∈ text, c.isDigit) :
    text.filter (· ≠ '-') = text := by
  refine List.filter_eq_self.2 fun c hc ↦ decide_eq_true ?_
  rintro rfl
  exact absurd (h '-' hc) (by decide)

/-- The digits of a month or a date. -/
theorem DayParts.Valid.pad {parts : DayParts} (h : parts.Valid) :
    (DigitsOf (pad parts.month) parts.month.toNat ∧ (pad parts.month).length = 2) ∧
      DigitsOf (pad parts.day) parts.day.toNat ∧ (pad parts.day).length = 2 := by
  obtain ⟨hmonth, hday⟩ := h
  constructor
  · have := digitsOf_pad (n := parts.month.toNat) (by omega)
    rwa [Int.toNat_of_nonneg (by omega)] at this
  · have := digitsOf_pad (n := parts.day.toNat) (by omega)
    rwa [Int.toNat_of_nonneg (by omega)] at this

theorem compactDay_eq {day : ℤ} (h : 0 ≤ (partsOf day).year) :
    compactDay day = decimal (partsOf day).year.toNat ++
      (pad (partsOf day).month ++ pad (partsOf day).day) := by
  obtain ⟨⟨hmonth, -⟩, hday, -⟩ := (partsOf_spec day).1.pad
  rw [compactDay, dayText, number_of_nonneg h]
  simp only [List.filter_append, List.filter_cons, ne_eq, decide_not, decide_true, Bool.not_true,
    Bool.false_eq_true, if_false]
  have hfilter (text : List Char) (hdigits : ∀ c ∈ text, c.isDigit) :
      text.filter (fun c ↦ !decide (c = '-')) = text := by
    simpa only [decide_not, ne_eq] using filter_dash hdigits
  rw [hfilter _ fun _ ↦ isDigit_of_mem_decimal, hfilter _ hmonth.digits, hfilter _ hday.digits]

/-- The year of a day has four digits. -/
def FourDigits (day : ℤ) : Prop := 1000 ≤ (partsOf day).year ∧ (partsOf day).year ≤ 9999

instance (day : ℤ) : Decidable (FourDigits day) := inferInstanceAs (Decidable (_ ∧ _))

theorem length_decimal_eq_four {n : ℕ} : (decimal n).length = 4 ↔ 1000 ≤ n ∧ n ≤ 9999 := by
  have h3 := length_decimal_le_iff (n := n) (k := 3) (by decide)
  have h4 := length_decimal_le_iff (n := n) (k := 4) (by decide)
  omega

/-- The three numbers of a day, at the start of a text. -/
theorem takeDigits_compactDay {day : ℤ} (h : FourDigits day) (rest : List Char) :
    ∃ rest' rest'', takeDigits 4 (compactDay day ++ rest) =
        some ((partsOf day).year.toNat, rest') ∧
      takeDigits 2 rest' = some ((partsOf day).month.toNat, rest'') ∧
      takeDigits 2 rest'' = some ((partsOf day).day.toNat, rest) := by
  obtain ⟨⟨hmonth, hmonthlen⟩, hday, hdaylen⟩ := (partsOf_spec day).1.pad
  obtain ⟨hlow, hhigh⟩ := h
  have hyear := digitsOf_decimal (partsOf day).year.toNat
  have hyearlen : (decimal (partsOf day).year.toNat).length = 4 :=
    length_decimal_eq_four.2 (by omega)
  rw [compactDay_eq (by omega), List.append_assoc, List.append_assoc]
  have h1 := hyear.takeDigits (pad (partsOf day).month ++ (pad (partsOf day).day ++ rest))
  have h2 := hmonth.takeDigits (pad (partsOf day).day ++ rest)
  have h3 := hday.takeDigits rest
  rw [hyearlen] at h1
  rw [hmonthlen] at h2
  rw [hdaylen] at h3
  exact ⟨_, _, h1, h2, h3⟩

theorem makeDay_toNat {day : ℤ} (h : FourDigits day) :
    makeDay (partsOf day).year.toNat (partsOf day).month.toNat (partsOf day).day.toNat = day := by
  obtain ⟨⟨hmonth, hdate⟩, -⟩ := partsOf_spec day
  obtain ⟨hlow, hhigh⟩ := h
  have hfull : fullYear (partsOf day).year = (partsOf day).year := if_neg (by omega)
  rw [Int.toNat_of_nonneg (by omega), Int.toNat_of_nonneg (by omega),
    Int.toNat_of_nonneg (by omega), makeDay_partsOf hfull]

/-- A whole day is read back. -/
theorem stampOf_compactDay {day : ℤ} (h : FourDigits day) :
    stampOf (compactDay day) = some ⟨day, none, false⟩ := by
  obtain ⟨rest', rest'', h1, h2, h3⟩ := takeDigits_compactDay h []
  rw [List.append_nil] at h1
  simp only [stampOf, h1, h2, h3, Option.bind_eq_bind, Option.bind_some, makeDay_toNat h]

/-- A day with a time is read back. -/
theorem stampOf_time {day : ℤ} (h : FourDigits day) (time : Clock) :
    stampOf (compactDay day ++ 'T' :: (pad time.hours ++ pad time.minutes ++ ['0', '0'])) =
      some ⟨day, some (time.hours, time.minutes, 0), false⟩ := by
  rw [List.append_assoc]
  obtain ⟨rest', rest'', h1, h2, h3⟩ := takeDigits_compactDay h
    ('T' :: (pad time.hours ++ (pad time.minutes ++ ['0', '0'])))
  obtain ⟨hhours, hhourslen⟩ := digitsOf_pad time.hours.isLt
  obtain ⟨hminutes, hminuteslen⟩ := digitsOf_pad time.minutes.isLt
  have h4 := hhours.takeDigits (pad time.minutes ++ ['0', '0'])
  have h5 := hminutes.takeDigits ['0', '0']
  have h6 : takeDigits 2 ['0', '0'] = some (0, []) := by decide
  rw [hhourslen] at h4
  rw [hminuteslen] at h5
  simp only [stampOf, h1, h2, h3, Option.bind_eq_bind, Option.bind_some, makeDay_toNat h, h4, h5,
    h6]

/-- Digits that are taken from a text that goes on with something else. -/
theorem takeDigits_some {digits rest rest' : List Char}
    (hrest : ∀ c ∈ rest.head?, c.isDigit = false) {n value : ℕ}
    (h : takeDigits n (digits ++ rest) = some (value, rest')) :
    n ≤ digits.length ∧ rest' = digits.drop n ++ rest := by
  rw [takeDigits] at h
  split_ifs at h with hok
  obtain ⟨hlen, hall⟩ := hok
  rw [Option.some.injEq, Prod.mk.injEq] at h
  have hle : n ≤ digits.length := by
    by_contra hlt
    rw [List.all_eq_true] at hall
    cases rest with
    | nil => simp only [List.append_nil, List.length_take] at hlen; omega
    | cons c rest =>
      have hmem : c ∈ (digits ++ c :: rest).take n := by
        rw [List.take_append, List.mem_append]
        refine .inr ?_
        obtain ⟨k, hk⟩ : ∃ k, n - digits.length = k + 1 := ⟨n - digits.length - 1, by omega⟩
        rw [hk, List.take_succ_cons]
        exact List.mem_cons_self
      exact Bool.false_ne_true ((hrest c rfl).symm.trans (hall c hmem))
  exact ⟨hle, by rw [← h.2, List.drop_append_of_le_length hle]⟩

theorem length_of_stampOf {digits rest : List Char} (hdigits : ∀ c ∈ digits, c.isDigit)
    (hrest : ∀ c ∈ rest.head?, c.isDigit = false) {s : Stamp}
    (h : stampOf (digits ++ rest) = some s) : digits.length = 8 := by
  have hdrop (n : ℕ) : ∀ c ∈ digits.drop n, c.isDigit := fun c hc ↦ hdigits c (List.mem_of_mem_drop hc)
  rw [stampOf, Option.bind_eq_bind, Option.bind_eq_some_iff] at h
  obtain ⟨⟨year, rest1⟩, h1, h⟩ := h
  obtain ⟨hlen1, rfl⟩ := takeDigits_some hrest h1
  simp only [Option.bind_eq_some_iff] at h
  obtain ⟨⟨month, rest2⟩, h2, ⟨date, rest3⟩, h3, h⟩ := h
  obtain ⟨hlen2, rfl⟩ := takeDigits_some hrest h2
  rw [List.drop_drop] at h3
  obtain ⟨hlen3, rfl⟩ := takeDigits_some hrest h3
  rw [List.length_drop] at hlen2 hlen3
  by_contra hne
  rw [List.drop_drop] at h
  -- a digit is left over
  obtain ⟨c, left, hleft⟩ := List.exists_cons_of_ne_nil
    (show digits.drop (4 + 2 + 2) ≠ [] by rw [ne_eq, List.drop_eq_nil_iff]; omega)
  have hc : c.isDigit := hdrop (4 + 2 + 2) c (hleft ▸ List.mem_cons_self)
  simp only [hleft, List.cons_append] at h
  split at h
  · rename_i heq
    exact absurd heq (List.cons_ne_nil _ _)
  · rename_i heq
    rw [(List.cons.inj heq).1] at hc
    exact absurd hc (by decide)
  · exact absurd h (Option.some_ne_none s).symm

/-- **Only years of four digits** are read back. -/
theorem four_digits_of_stamp {day : ℤ} (hyear : 0 ≤ (partsOf day).year) {rest : List Char}
    (hrest : ∀ c ∈ rest.head?, c.isDigit = false) {s : Stamp}
    (h : stampOf (compactDay day ++ rest) = some s) : FourDigits day := by
  obtain ⟨⟨hmonth, hmonthlen⟩, hday, hdaylen⟩ := (partsOf_spec day).1.pad
  have hdigits : ∀ c ∈ compactDay day, c.isDigit := by
    rw [compactDay_eq hyear]
    intro c hc
    rcases List.mem_append.1 hc with hc | hc
    · exact isDigit_of_mem_decimal hc
    · rcases List.mem_append.1 hc with hc | hc
      · exact hmonth.digits c hc
      · exact hday.digits c hc
  have hlen := length_of_stampOf hdigits hrest h
  rw [compactDay_eq hyear, List.length_append, List.length_append, hmonthlen, hdaylen] at hlen
  have hfour := length_decimal_eq_four.1 (show (decimal (partsOf day).year.toNat).length = 4 by omega)
  exact ⟨by omega, by omega⟩

end Reminders
