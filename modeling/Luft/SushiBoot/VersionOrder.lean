import Luft.SushiBoot.Version

/-!
# Where the order of versions holds

Two things are asked of `newest_first`: that it is an order, and that of two versions that differ in
one number the one with the larger number goes first.

`totalOn_newest_first_iff` says when it orders a list of versions: unless one of them is stretched
between two others, which leading zeros can do to it, or a number too large for a `u64`.
`newest_first_run_iff` looks at the number: as long as the larger one fits into a `u64` it goes first,
however both are written.  Otherwise it counts as nothing, and only next to another number that counts
as nothing can the lengths of the texts still put it first.
-/

set_option autoImplicit false

open Std

namespace SushiBoot

/-! ## Versions in a list -/

/-- **`newest_first` orders a list of versions** unless one of them is stretched between two
others. -/
theorem totalOn_newest_first_iff (l : List String) : TotalOn newest_first l ↔
    ∀ x ∈ l, ∀ newer ∈ l, ∀ older ∈ l, ¬ Stretched x newer older := by
  constructor
  · rintro h x hx newer hnewer older holder hstretched
    obtain ⟨hox, hxn, hno⟩ := hstretched.circle
    exact h.no_cycle holder hx hnewer hox hxn hno
  · intro h
    refine .of_no_cycle (fun a _ ↦ newest_first_self a) (fun a _ b _ ↦ newest_first_swap a b) ?_
    rintro a ha b hb c hc hab hbc hca
    rcases exists_stretched hab hbc hca with hs | hs | hs
    · exact h b hb c hc a ha hs
    · exact h c hc a ha b hb hs
    · exact h a ha b hb c hc hs

/-! ## The parts around one run -/

/-- `natural_parts` of the characters of a text. -/
def parts : List Char → List (Bool × List Char)
  | [] => []
  | c :: rest => runs c.isDigit [c] rest

theorem natural_parts_ofList (text : List Char) : natural_parts (String.ofList text) = parts text := by
  rw [natural_parts, String.toList_ofList]
  cases text <;> rfl

/-- Where the kind of the characters changes, a run ends and the next one begins. -/
theorem runs_append_cons (digits : Bool) (run a b : List Char) {c : Char}
    (h : c.isDigit ≠ (a.getLast?.map Char.isDigit).getD digits) :
    runs digits run (a ++ c :: b) = runs digits run a ++ runs c.isDigit [c] b := by
  induction a generalizing digits run with
  | nil =>
    have hdigits : c.isDigit ≠ digits := h
    show (if c.isDigit = digits then _ else _) = (digits, run) :: runs c.isDigit [c] b
    rw [if_neg hdigits]
  | cons d a ih =>
    have hlast : ((d :: a).getLast?.map Char.isDigit).getD digits =
        (a.getLast?.map Char.isDigit).getD d.isDigit := by
      cases a with
      | nil => rfl
      | cons e a => rw [List.getLast?_cons_cons, List.getLast?_eq_some_getLast (by simp)]; rfl
    rw [hlast] at h
    rw [List.cons_append, runs, runs]
    split
    · rename_i hd
      exact ih digits _ (by rwa [← hd])
    · rw [ih _ _ h]
      rfl

theorem runs_same {digits : Bool} (run : List Char) {a : List Char}
    (h : ∀ c ∈ a, c.isDigit = digits) : runs digits run a = [(digits, run ++ a)] := by
  induction a generalizing run with
  | nil => rw [runs, List.append_nil]
  | cons c a ih =>
    rw [runs, if_pos (h c List.mem_cons_self), ih _ fun d hd ↦ h d (List.mem_cons_of_mem c hd),
      List.append_assoc, List.singleton_append]

/-- **Texts of different kinds at the seam** have the parts of both. -/
theorem parts_append {a b : List Char}
    (h : ∀ c ∈ a.getLast?, ∀ d ∈ b.head?, d.isDigit ≠ c.isDigit) :
    parts (a ++ b) = parts a ++ parts b := by
  cases b with
  | nil => rw [List.append_nil, parts, List.append_nil]
  | cons d b =>
    cases a with
    | nil => rfl
    | cons c a =>
      rw [List.cons_append, parts, parts, parts]
      refine runs_append_cons _ _ _ _ ?_
      cases a with
      | nil => exact h c rfl d rfl
      | cons e a =>
        rw [List.getLast?_eq_some_getLast (by simp)]
        exact h _ (List.getLast?_eq_some_getLast (by simp)) d rfl

/-- A run of digits with no digit next to it. -/
structure OneRun (before run after : List Char) : Prop where
  ne : run ≠ []
  digits : ∀ c ∈ run, c.isDigit = true
  before : ∀ c ∈ before.getLast?, c.isDigit = false
  after : ∀ c ∈ after.head?, c.isDigit = false

variable {before after run big small : List Char}

theorem OneRun.parts_eq (h : OneRun before run after) :
    parts (before ++ run ++ after) = parts before ++ (true, run) :: parts after := by
  obtain ⟨c, rest, rfl⟩ := List.exists_cons_of_ne_nil h.ne
  have hrun : parts (c :: rest) = [(true, c :: rest)] := by
    rw [parts, h.digits c List.mem_cons_self,
      runs_same [c] fun d hd ↦ h.digits d (List.mem_cons_of_mem c hd)]
    rfl
  rw [List.append_assoc, parts_append, parts_append, hrun]
  · rfl
  · rintro d hd e he
    rw [h.digits d (List.mem_of_getLast? hd), h.after e he]
    exact Bool.false_ne_true
  · rintro d hd e he
    cases Option.mem_some_iff.1 he
    rw [h.before d hd, h.digits c List.mem_cons_self]
    exact fun heq ↦ Bool.false_ne_true heq.symm

/-! ## Versions that differ in one number -/

theorem place_append_cons {α : Type*} [Ord α] [ReflOrd α] (common : List α) (x y : α)
    (rest : List α) : place compare (common ++ x :: rest) (common ++ y :: rest) = compare x y := by
  induction common with
  | nil =>
    have hrest : place compare rest rest = .eq := by
      induction rest with
      | nil => rfl
      | cons z rest ih => rw [place.cons_cons, compare_self, Ordering.eq_then, ih]
    rw [List.nil_append, List.nil_append, place.cons_cons, hrest, Ordering.then_eq]
  | cons z common ih =>
    rw [List.cons_append, List.cons_append, place.cons_cons, compare_self, Ordering.eq_then, ih]

/-- **The numbers decide** how versions compare that differ in one number. -/
theorem place_worths (hbig : OneRun before big after) (hsmall : OneRun before small after) :
    place compare (worths (String.ofList (before ++ big ++ after)))
        (worths (String.ofList (before ++ small ++ after))) =
      compare (number big) (number small) := by
  rw [worths, worths, natural_parts_ofList, natural_parts_ofList, hbig.parts_eq, hsmall.parts_eq,
    List.map_append, List.map_append, List.map_cons, List.map_cons, place_append_cons, worth, worth,
    List.compare_cons_cons, List.compare_cons_cons, List.compare_nil_nil, compare_self,
    Ordering.eq_then, Ordering.then_eq]

theorem utf8Size_digit {c : Char} (h : c.isDigit = true) : c.utf8Size = 1 := by
  have hnine : '9'.toNat = 57 := rfl
  have hle : c.val ≤ 0x7F := by
    rw [UInt32.le_iff_toNat_le]
    have hbound : c.toNat ≤ 57 := ((isDigit_iff c).1 h).2
    exact hbound.trans (by decide)
  exact if_pos hle

theorem utf8ByteSize_digits {run : List Char} (h : ∀ c ∈ run, c.isDigit = true) :
    (String.ofList run).utf8ByteSize = run.length := by
  induction run with
  | nil => rfl
  | cons c run ih =>
    rw [String.ofList_cons, String.utf8ByteSize_append, String.utf8ByteSize_singleton,
      utf8Size_digit (h c List.mem_cons_self), ih fun d hd ↦ h d (List.mem_cons_of_mem c hd),
      List.length_cons, Nat.add_comm]

/-- The lengths of versions that differ in one number. -/
theorem utf8ByteSize_lt_iff (hbig : OneRun before big after) (hsmall : OneRun before small after) :
    (String.ofList (before ++ small ++ after)).utf8ByteSize <
        (String.ofList (before ++ big ++ after)).utf8ByteSize ↔ small.length < big.length := by
  simp only [String.ofList_append, String.utf8ByteSize_append, utf8ByteSize_digits hbig.digits,
    utf8ByteSize_digits hsmall.digits]
  omega

/-- **Versions that differ in one number.**  The larger one goes first if it fits into a `u64`, or if
neither number counts for anything and the larger one is the longer text. -/
theorem newest_first_run_iff (hbig : OneRun before big after) (hsmall : OneRun before small after)
    (h : Nat.ofDigitChars 10 small 0 < Nat.ofDigitChars 10 big 0) :
    newest_first (String.ofList (before ++ big ++ after))
        (String.ofList (before ++ small ++ after)) = .lt ↔
      Nat.ofDigitChars 10 big 0 < 2 ^ 64 ∨
        (Nat.ofDigitChars 10 small 0 = 0 ∨ 2 ^ 64 ≤ Nat.ofDigitChars 10 small 0) ∧
          small.length < big.length := by
  rw [newest_first_lt, place_worths hbig hsmall, utf8ByteSize_lt_iff hbig hsmall,
    Nat.compare_eq_gt, Nat.compare_eq_eq, number, number]
  split <;> split <;> omega

/-- **When `newest_first` is an order, and when it puts the larger number first.** -/
theorem newest_first_right_iff (l : List String) :
    (TotalOn newest_first l ↔ ∀ x ∈ l, ∀ newer ∈ l, ∀ older ∈ l, ¬ Stretched x newer older) ∧
    ∀ before big small after : List Char, OneRun before big after → OneRun before small after →
      Nat.ofDigitChars 10 small 0 < Nat.ofDigitChars 10 big 0 →
      (newest_first (String.ofList (before ++ big ++ after))
          (String.ofList (before ++ small ++ after)) = .lt ↔
        Nat.ofDigitChars 10 big 0 < 2 ^ 64 ∨
          (Nat.ofDigitChars 10 small 0 = 0 ∨ 2 ^ 64 ≤ Nat.ofDigitChars 10 small 0) ∧
            small.length < big.length) :=
  ⟨totalOn_newest_first_iff l, fun _ _ _ _ hbig hsmall h ↦ newest_first_run_iff hbig hsmall h⟩

theorem newest_first_right_ten : newest_first "1.010-rc" "1.9-rc" = .lt := by
  have before : ∀ c ∈ "1.".toList.getLast?, c.isDigit = false := by rintro c ⟨⟩; rfl
  have after : ∀ c ∈ "-rc".toList.head?, c.isDigit = false := by rintro c ⟨⟩; rfl
  have hbig : OneRun "1.".toList "010".toList "-rc".toList :=
    ⟨by decide, List.all_eq_true.1 (by decide), before, after⟩
  have hsmall : OneRun "1.".toList "9".toList "-rc".toList :=
    ⟨by decide, List.all_eq_true.1 (by decide), before, after⟩
  exact ((newest_first_right_iff []).2 _ _ _ _ hbig hsmall (by decide)).2 (.inl (by decide))

/-- Leading zeros lead in a circle, and a number that does not fit goes behind a small one. -/
theorem newest_first_wrong :
    newest_first "1aaaa" "001" = .lt ∧ newest_first "001" "1b" = .lt ∧
      newest_first "1b" "1aaaa" = .lt ∧ newest_first "9" "18446744073709551616" = .lt := by
  decide +kernel

end SushiBoot
