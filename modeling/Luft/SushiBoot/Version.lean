import Luft.Lib.Order
import Mathlib.Algebra.Group.Nat.Defs

/-!
# Comparing versions

`newest_first` of the boot menu cuts two version texts into runs of digits and of other characters,
compares the runs pairwise, digits as numbers, and puts the larger one first.  If no pair differs,
the longer text goes first.

A run is worth a list of numbers (`worth`), so that comparing two runs is comparing what they are
worth (`part_order_eq`) and comparing two versions is `place` on that, with the lengths for a tie
(`newest_first_eq`).

Texts are compared by code point, which is how the source compares their UTF-8 bytes.
-/

set_option autoImplicit false

open Std

namespace SushiBoot

/-! ## As the source computes it -/

/-- The rest of the runs, in the middle of a run of digits or of other characters. -/
def runs (digits : Bool) (run : List Char) : List Char → List (Bool × List Char)
  | [] => [(digits, run)]
  | c :: rest =>
    if c.isDigit = digits then runs digits (run ++ [c]) rest
    else (digits, run) :: runs c.isDigit [c] rest

/-- The runs of digits and of other characters of a text, each with whether it is digits. -/
def natural_parts (text : String) : List (Bool × List Char) :=
  match text.toList with
  | [] => []
  | c :: rest => runs c.isDigit [c] rest

/-- A run of digits as a `u64`; what does not fit counts as nothing. -/
def number (digits : List Char) : ℕ :=
  let value := Nat.ofDigitChars 10 digits 0
  if value < 2 ^ 64 then value else 0

def part_order : Bool × List Char → Bool × List Char → Ordering
  | (true, l), (true, r) => compare (number l) (number r)
  | (_, l), (_, r) => compare l r

/-- Which of two versions goes first: the newer one. -/
def newest_first (a b : String) : Ordering :=
  match ((natural_parts a).zip (natural_parts b)).find? fun p ↦ part_order p.1 p.2 != .eq with
  | some p => (part_order p.1 p.2).swap
  | none => compare b.utf8ByteSize a.utf8ByteSize

/-! ## What a run is worth -/

/-- Digits stand where the digit zero does among the characters, and next to each other by their
number. -/
def worth : Bool × List Char → List ℕ
  | (true, digits) => ['0'.toNat, number digits]
  | (false, text) => text.map Char.toNat

/-- A run is not empty, and all of it is digits or none of it. -/
def IsRun (part : Bool × List Char) : Prop :=
  part.2 ≠ [] ∧ ∀ c ∈ part.2, c.isDigit = part.1

theorem runs_isRun {digits : Bool} {run : List Char} (hrun : IsRun (digits, run))
    (text : List Char) : ∀ part ∈ runs digits run text, IsRun part := by
  induction text generalizing digits run with
  | nil =>
    intro part hpart
    rw [runs, List.mem_singleton] at hpart
    rw [hpart]
    exact hrun
  | cons c rest ih =>
    rw [runs]
    split
    · rename_i hc
      refine ih ⟨by simp, fun d hd ↦ ?_⟩
      rcases List.mem_append.1 hd with hd | hd
      · exact hrun.2 d hd
      · rw [List.mem_singleton.1 hd, hc]
    · intro part hpart
      rcases List.mem_cons.1 hpart with rfl | hpart
      · exact hrun
      · exact ih ⟨by simp, by simp⟩ part hpart

theorem natural_parts_isRun (text : String) : ∀ part ∈ natural_parts text, IsRun part := by
  rw [natural_parts]
  split
  · intro part hpart
    cases hpart
  · exact runs_isRun ⟨by simp, by simp⟩ _

theorem compare_char (c d : Char) : compare c d = compare c.toNat d.toNat := by
  have hlt : c < d ↔ c.toNat < d.toNat := Iff.rfl
  have heq : c = d ↔ c.toNat = d.toNat := Char.toNat_inj.symm
  show compareOfLessAndEq c d = compareOfLessAndEq c.toNat d.toNat
  simp only [compareOfLessAndEq, hlt, heq]

theorem compare_text : ∀ l r : List Char,
    compare l r = compare (l.map Char.toNat) (r.map Char.toNat)
  | [], [] => rfl
  | [], _ :: _ => rfl
  | _ :: _, [] => rfl
  | c :: l, d :: r => by
    rw [List.map_cons, List.map_cons, List.compare_cons_cons, List.compare_cons_cons,
      compare_char, compare_text l r]

theorem isDigit_iff (c : Char) : c.isDigit = true ↔ '0'.toNat ≤ c.toNat ∧ c.toNat ≤ '9'.toNat := by
  rw [Char.isDigit, Bool.and_eq_true, decide_eq_true_eq, decide_eq_true_eq]
  exact Iff.rfl

/-- A digit and another character compare as the digit zero and that character. -/
theorem compare_digit {c d : Char} (hc : c.isDigit = true) (hd : c.isDigit ≠ d.isDigit) :
    compare c.toNat d.toNat ≠ .eq ∧ compare c.toNat d.toNat = compare '0'.toNat d.toNat := by
  have hd' : ¬ ('0'.toNat ≤ d.toNat ∧ d.toNat ≤ '9'.toNat) := by
    rw [← isDigit_iff, ← hc]
    exact fun h ↦ hd h.symm
  obtain ⟨hlow, hhigh⟩ := (isDigit_iff c).1 hc
  rcases Nat.lt_or_ge d.toNat '0'.toNat with hlt | hge
  · rw [Nat.compare_eq_gt.2 (by omega), Nat.compare_eq_gt.2 hlt]
    exact ⟨by decide, rfl⟩
  · have hgt : '9'.toNat < d.toNat := by
      by_contra hle
      exact hd' ⟨hge, by omega⟩
    have h09 : '0'.toNat ≤ '9'.toNat := by decide
    rw [Nat.compare_eq_lt.2 (by omega), Nat.compare_eq_lt.2 (by omega)]
    exact ⟨by decide, rfl⟩

/-- **Two runs compare as what they are worth.** -/
theorem part_order_eq : ∀ {p q : Bool × List Char}, IsRun p → IsRun q →
    part_order p q = compare (worth p) (worth q)
  | (true, l), (true, r), _, _ => by
    rw [part_order, worth, worth, List.compare_cons_cons, List.compare_cons_cons,
      List.compare_nil_nil, compare_self, Ordering.eq_then, Ordering.then_eq]
  | (false, l), (false, r), _, _ => compare_text l r
  | (true, []), (false, _), h, _ => absurd rfl h.1
  | (true, _ :: _), (false, []), _, h => absurd rfl h.1
  | (true, c :: l), (false, d :: r), hp, hq => by
    have hc : c.isDigit = true := hp.2 c List.mem_cons_self
    have hd : d.isDigit = false := hq.2 d List.mem_cons_self
    obtain ⟨hne, heq⟩ := compare_digit (d := d) hc (by rw [hc, hd]; exact Bool.noConfusion)
    show compare (c :: l) (d :: r) = compare ['0'.toNat, _] (d.toNat :: r.map Char.toNat)
    rw [List.compare_cons_cons, List.compare_cons_cons, compare_char, ← heq]
    revert hne
    cases compare c.toNat d.toNat <;> simp
  | (false, []), (true, _), h, _ => absurd rfl h.1
  | (false, _ :: _), (true, []), _, h => absurd rfl h.1
  | (false, c :: l), (true, d :: r), hp, hq => by
    have hc : c.isDigit = false := hp.2 c List.mem_cons_self
    have hd : d.isDigit = true := hq.2 d List.mem_cons_self
    obtain ⟨hne, heq⟩ := compare_digit (d := c) hd (by rw [hc, hd]; exact Bool.noConfusion)
    show compare (c :: l) (d :: r) = compare (c.toNat :: l.map Char.toNat) ['0'.toNat, _]
    rw [List.compare_cons_cons, List.compare_cons_cons, compare_char,
      OrientedOrd.eq_swap (a := c.toNat), OrientedOrd.eq_swap (a := c.toNat) (b := '0'.toNat), ← heq]
    revert hne
    cases compare d.toNat c.toNat <;> simp

/-! ## What a version is worth -/

/-- What the runs of a version are worth. -/
def worths (text : String) : List (List ℕ) := (natural_parts text).map worth

theorem find?_zip_eq (l r : List (Bool × List Char)) (other : Ordering) :
    (match (l.zip r).find? fun p ↦ part_order p.1 p.2 != .eq with
      | some p => (part_order p.1 p.2).swap
      | none => other) = (place part_order l r).swap.then other := by
  induction l generalizing r with
  | nil => simp
  | cons p l ih =>
    cases r with
    | nil => simp
    | cons q r =>
      rw [List.zip_cons_cons, List.find?_cons, place.cons_cons]
      cases hpq : part_order p q with
      | eq => simpa [hpq] using ih r
      | lt =>
        show (part_order p q).swap = _
        rw [hpq]
        rfl
      | gt =>
        show (part_order p q).swap = _
        rw [hpq]
        rfl

/-- **Versions compare by what they are worth**, larger first, then by length, longer first. -/
theorem newest_first_eq (a b : String) : newest_first a b =
    (place compare (worths a) (worths b)).swap.then (compare b.utf8ByteSize a.utf8ByteSize) := by
  have hplace : place compare (worths a) (worths b) =
      place part_order (natural_parts a) (natural_parts b) := by
    rw [worths, worths, place.map]
    refine place.congr fun p hp q hq ↦ ?_
    rw [part_order_eq (natural_parts_isRun a p hp) (natural_parts_isRun b q hq)]
  rw [hplace, newest_first, find?_zip_eq]

theorem newest_first_self (a : String) : newest_first a a = .eq := by
  rw [newest_first_eq, place.eq_iff.2 (.inl (List.prefix_refl _)), compare_self]
  rfl

theorem newest_first_swap (a b : String) : newest_first b a = (newest_first a b).swap := by
  rw [newest_first_eq, newest_first_eq, place.swap (worths a), Ordering.swap_then,
    OrientedOrd.eq_swap (a := a.utf8ByteSize)]

/-! ## Where three versions go round in a circle -/

/-- `x` is what both other versions begin with, its text is no shorter than the newer one's and no
longer than the older one's.  The lengths put the newer one after it and the older one before it. -/
structure Stretched (x newer older : String) : Prop where
  begins_newer : worths x <+: worths newer
  begins_older : worths x <+: worths older
  newer_shorter : newer.utf8ByteSize ≤ x.utf8ByteSize
  older_longer : x.utf8ByteSize ≤ older.utf8ByteSize
  differ : place compare (worths newer) (worths older) = .gt

theorem newest_first_isLE {a b : String} : (newest_first a b).isLE ↔
    place compare (worths a) (worths b) = .gt ∨
      place compare (worths a) (worths b) = .eq ∧ b.utf8ByteSize ≤ a.utf8ByteSize := by
  rw [newest_first_eq, Ordering.isLE_then_iff_or, Ordering.swap_eq_lt, Ordering.swap_eq_eq,
    Nat.isLE_compare]

theorem newest_first_lt {a b : String} : newest_first a b = .lt ↔
    place compare (worths a) (worths b) = .gt ∨
      place compare (worths a) (worths b) = .eq ∧ b.utf8ByteSize < a.utf8ByteSize := by
  rw [newest_first_eq, Ordering.then_eq_lt, Ordering.swap_eq_lt, Ordering.swap_eq_eq,
    Nat.compare_eq_lt]

/-- A stretched version closes a circle. -/
theorem Stretched.circle {x newer older : String} (h : Stretched x newer older) :
    (newest_first older x).isLE ∧ (newest_first x newer).isLE ∧
      newest_first newer older = .lt := by
  refine ⟨newest_first_isLE.2 (.inr ⟨?_, h.older_longer⟩),
    newest_first_isLE.2 (.inr ⟨?_, h.newer_shorter⟩), newest_first_lt.2 (.inl h.differ)⟩
  · exact place.eq_iff.2 (.inr h.begins_older)
  · exact place.eq_iff.2 (.inl h.begins_newer)

theorem stretched_of_circle {x newer older : String}
    (hxn : place compare (worths x) (worths newer) = .eq)
    (hox : place compare (worths older) (worths x) = .eq)
    (hno : place compare (worths newer) (worths older) = .gt)
    (hn : newer.utf8ByteSize ≤ x.utf8ByteSize) (ho : x.utf8ByteSize ≤ older.utf8ByteSize) :
    Stretched x newer older := by
  have hlt : place compare (worths older) (worths newer) = .lt := by
    rw [place.swap (worths newer), hno]
    rfl
  have hnx : place compare (worths newer) (worths x) = .eq := by
    rw [place.swap (worths x), hxn]
    rfl
  rcases place.lt_eq hlt hnx with hox' | ⟨hbo, hbn⟩
  · rw [hox] at hox'
    cases hox'
  · exact ⟨hbn, hbo, hn, ho, hno⟩

/-- **Three versions that go round in a circle hold a stretched one.** -/
theorem exists_stretched {a b c : String} (hab : (newest_first a b).isLE)
    (hbc : (newest_first b c).isLE) (hca : newest_first c a = .lt) :
    Stretched b c a ∨ Stretched c a b ∨ Stretched a b c := by
  have trans {x y z : String} (hxy : place compare (worths x) (worths y) = .gt)
      (hyz : place compare (worths y) (worths z) = .gt) :
      place compare (worths z) (worths x) = .lt := by
    have hzy : place compare (worths z) (worths y) = .lt := by
      rw [place.swap (worths y), hyz]
      rfl
    have hyx : place compare (worths y) (worths x) = .lt := by
      rw [place.swap (worths x), hxy]
      rfl
    exact place.lt_lt hzy hyx
  rw [newest_first_isLE] at hab hbc
  rw [newest_first_lt] at hca
  rcases hab with hab | ⟨hab, hlab⟩ <;> rcases hbc with hbc | ⟨hbc, hlbc⟩ <;>
    rcases hca with hca | ⟨hca, hlca⟩
  · exact absurd hca (by rw [trans hab hbc]; decide)
  · exact absurd hca (by rw [trans hab hbc]; decide)
  · exact absurd hbc (by rw [trans hca hab]; decide)
  · exact .inr (.inl (stretched_of_circle hca hbc hab hlca.le hlbc))
  · exact absurd hab (by rw [trans hbc hca]; decide)
  · exact .inr (.inr (stretched_of_circle hab hca hbc hlab hlca.le))
  · exact .inl (stretched_of_circle hbc hab hca hlbc hlab)
  · omega

end SushiBoot
