import Mathlib.Data.List.Forall2

/-!
# Patterns with stars

A pattern is a list of pieces with a star between any two.  A text is `Spelled` by it if the pieces, or what
counts as the same, stand in it in order: the first at the beginning, the last at the end, and anything where
the stars are.
-/

set_option autoImplicit false

namespace Glob

variable {α : Type*} {same : List α → List α → Prop} {piece : List α} {pieces : List (List α)} {text : List α}

/-- The literals with a gap between any two. -/
def woven (literals gaps : List (List α)) : List α :=
  literals.headD [] ++ (List.zipWith (· ++ ·) gaps literals.tail).flatten

/-- **The text is the pieces with something in place of each star.** -/
def Spelled (same : List α → List α → Prop) (pieces : List (List α)) (text : List α) : Prop :=
  ∃ literals gaps, List.Forall₂ same pieces literals ∧ gaps.length + 1 = literals.length ∧
    text = woven literals gaps

theorem spelled_singleton : Spelled same [piece] text ↔ same piece text := by
  constructor
  · rintro ⟨literals, gaps, hsame, hlength, rfl⟩
    obtain ⟨literal, rest, hpiece, hrest, rfl⟩ := List.forall₂_cons_left_iff.1 hsame
    obtain rfl := List.forall₂_nil_left_iff.1 hrest
    obtain rfl : gaps = [] := List.length_eq_zero_iff.1 (Nat.succ.inj hlength)
    rwa [woven, List.headD_cons, List.zipWith_nil_left, List.flatten_nil, List.append_nil]
  · intro h
    exact ⟨[text], [], .cons h .nil, rfl, (List.append_nil text).symm⟩

/-- The first piece, and the others after a gap. -/
theorem spelled_cons (hpieces : pieces ≠ []) : Spelled same (piece :: pieces) text ↔
    ∃ head gap rest, text = head ++ (gap ++ rest) ∧ same piece head ∧ Spelled same pieces rest := by
  constructor
  · rintro ⟨literals, gaps, hsame, hlength, rfl⟩
    obtain ⟨head, literals, hpiece, hrest, rfl⟩ := List.forall₂_cons_left_iff.1 hsame
    cases gaps with
    | nil =>
      obtain rfl : literals = [] := List.length_eq_zero_iff.1 (Nat.succ.inj hlength).symm
      exact absurd (List.forall₂_nil_right_iff.1 hrest) hpieces
    | cons gap gaps =>
      cases literals with
      | nil => exact absurd (List.forall₂_nil_right_iff.1 hrest) hpieces
      | cons literal literals =>
        refine ⟨head, gap, woven (literal :: literals) gaps, ?_, hpiece, _, _, hrest, Nat.succ.inj hlength, rfl⟩
        simp [woven]
  · rintro ⟨head, gap, rest, rfl, hpiece, literals, gaps, hsame, hlength, rfl⟩
    cases literals with
    | nil => cases hlength
    | cons literal literals =>
      refine ⟨head :: literal :: literals, gap :: gaps, .cons hpiece hsame, congrArg Nat.succ hlength, ?_⟩
      simp [woven]

end Glob
