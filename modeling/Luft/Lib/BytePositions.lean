import Mathlib.Algebra.BigOperators.Group.List.Basic
import Mathlib.Algebra.Order.Group.Nat
import Mathlib.Algebra.Ring.Nat

/-!
# Byte positions in a text

A text is cut at a position counted in the bytes of its UTF-8.  `split_at` answers both sides, or nothing where
the position is not between two characters, which is where a slice of the text panics.
-/

set_option autoImplicit false

namespace BytePositions

variable {text before after : List Char} {n : ℕ}

/-- The length in bytes. -/
def len (text : List Char) : ℕ := (text.map Char.utf8Size).sum

def split_at : List Char → ℕ → Option (List Char × List Char)
  | text, 0 => some ([], text)
  | [], _ + 1 => none
  | c :: text, n + 1 =>
    if c.utf8Size ≤ n + 1 then
      (split_at text (n + 1 - c.utf8Size)).map fun halves ↦ (c :: halves.1, halves.2)
    else none

def is_char_boundary (text : List Char) (n : ℕ) : Bool := (split_at text n).isSome

@[simp] theorem len_nil : len [] = 0 := rfl

@[simp] theorem len_cons (c : Char) (text : List Char) : len (c :: text) = c.utf8Size + len text := by
  rw [len, List.map_cons, List.sum_cons, len]

@[simp] theorem len_append (text other : List Char) : len (text ++ other) = len text + len other := by
  rw [len, List.map_append, List.sum_append, len, len]

theorem eq_nil_of_len (h : len text = 0) : text = [] := by
  cases text with
  | nil => rfl
  | cons c text =>
    have hpos := c.utf8Size_pos
    rw [len_cons] at h
    omega

/-- **A position between two characters** is the length of what is before it. -/
theorem split_at_eq_some_iff : split_at text n = some (before, after) ↔ text = before ++ after ∧ len before = n := by
  induction text, n using split_at.induct generalizing before with
  | case1 text =>
    rw [split_at, Option.some.injEq, Prod.mk.injEq]
    constructor
    · rintro ⟨rfl, rfl⟩
      exact ⟨rfl, rfl⟩
    · rintro ⟨rfl, hlen⟩
      rw [eq_nil_of_len hlen]
      exact ⟨rfl, rfl⟩
  | case2 n =>
    rw [split_at]
    constructor
    · rintro ⟨⟩
    · rintro ⟨h, hlen⟩
      rw [(List.append_eq_nil_iff.1 h.symm).1] at hlen
      cases hlen
  | case3 c text n hle ih =>
    rw [split_at, if_pos hle, Option.map_eq_some_iff]
    constructor
    · rintro ⟨⟨front, back⟩, hsplit, heq⟩
      cases heq
      obtain ⟨rfl, hlen⟩ := ih.1 hsplit
      dsimp only at hlen ⊢
      exact ⟨rfl, by rw [len_cons]; omega⟩
    · rintro ⟨heq, hlen⟩
      cases before with
      | nil => cases hlen
      | cons d before =>
        obtain ⟨rfl, rfl⟩ := List.cons.inj heq
        rw [len_cons] at hlen
        exact ⟨(before, after), ih.2 ⟨rfl, by omega⟩, rfl⟩
  | case4 c text n hlt =>
    rw [split_at, if_neg hlt]
    constructor
    · rintro ⟨⟩
    · rintro ⟨heq, hlen⟩
      cases before with
      | nil => cases hlen
      | cons d before =>
        obtain ⟨rfl, rfl⟩ := List.cons.inj heq
        rw [len_cons] at hlen
        omega

theorem is_char_boundary_iff : is_char_boundary text n = true ↔ ∃ before after, text = before ++ after ∧ len before = n := by
  rw [is_char_boundary, Option.isSome_iff_exists]
  exact ⟨fun ⟨⟨before, after⟩, h⟩ ↦ ⟨before, after, split_at_eq_some_iff.1 h⟩,
    fun ⟨before, after, h⟩ ↦ ⟨(before, after), split_at_eq_some_iff.2 h⟩⟩

/-- What comes before an earlier position is the beginning of what comes before a later one. -/
theorem exists_gap {head tail : List Char} (h : head ++ tail = before ++ after) (hle : len head ≤ len before) :
    ∃ gap, before = head ++ gap := by
  rcases List.append_eq_append_iff.1 h with ⟨gap, hgap, -⟩ | ⟨gap, hgap, -⟩
  · exact ⟨gap, hgap⟩
  · rw [hgap, len_append] at hle
    have hnil : gap = [] := eq_nil_of_len (by omega)
    rw [hgap, hnil, List.append_nil]
    exact ⟨[], (List.append_nil _).symm⟩

theorem append_inj {head tail : List Char} (h : head ++ tail = before ++ after) (hlen : len head = len before) :
    head = before ∧ tail = after := by
  have hhead : split_at (head ++ tail) (len head) = some (head, tail) := split_at_eq_some_iff.2 ⟨rfl, rfl⟩
  rw [split_at_eq_some_iff.2 ⟨h, hlen.symm⟩] at hhead
  cases hhead
  exact ⟨rfl, rfl⟩

end BytePositions
