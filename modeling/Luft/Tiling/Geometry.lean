import Mathlib.Algebra.Order.Floor.Ring
import Mathlib.Algebra.Order.Round
import Mathlib.Data.Rat.Floor
import Mathlib.Tactic.Linarith

/-!
# Boxes, and splitting them in two

The geometry that the layouts share.  Coordinates are whole pixels; ratios are exact where the
source has doubles.
-/

set_option autoImplicit false

namespace Tiling

structure Box where
  x : ℤ
  y : ℤ
  width : ℤ
  height : ℤ
deriving DecidableEq, Repr

inductive Direction where
  | left
  | right
  | up
  | down
deriving DecidableEq, Repr

inductive Axis where
  | horizontal
  | vertical
deriving DecidableEq, Repr

/-- `MIN_RATIO`. -/
def minRatio : ℚ := 1 / 10

def axisOf : Direction → Axis
  | .left | .right => .horizontal
  | .up | .down => .vertical

def forward : Direction → Bool
  | .right | .down => true
  | .left | .up => false

def clampRatio (ratio : ℚ) : ℚ := min (1 - minRatio) (max minRatio ratio)

def length (box : Box) : Axis → ℤ
  | .horizontal => box.width
  | .vertical => box.height

def start (box : Box) : Axis → ℤ
  | .horizontal => box.x
  | .vertical => box.y

/-- `Math.round`: halves go up. -/
def mathRound (number : ℚ) : ℤ := ⌊number + 1 / 2⌋

def split (box : Box) (axis : Axis) (ratio : ℚ) (gap : ℕ) : Box × Box :=
  let usable := max 0 (length box axis - gap)
  let first := mathRound (usable * ratio)
  match axis with
  | .horizontal => ({ box with width := first },
      { box with x := box.x + first + gap, width := usable - first })
  | .vertical => ({ box with height := first },
      { box with y := box.y + first + gap, height := usable - first })

/-- A part of a box that starts at an offset along an axis and has a size there. -/
def partOf (box : Box) (axis : Axis) (offset size : ℤ) : Box :=
  match axis with
  | .horizontal => { box with x := offset, width := size }
  | .vertical => { box with y := offset, height := size }

/-- The parts of a box by their weights, from an offset on; the last one gets what is not used. -/
def parts (box : Box) (axis : Axis) (gap : ℕ) (usable : ℤ) (total : ℚ) :
    List ℚ → ℤ → ℤ → List Box
  | [], _, _ => []
  | [_], offset, used => [partOf box axis offset (usable - used)]
  | weight :: weights, offset, used =>
    let size := mathRound (usable * weight / total)
    partOf box axis offset size ::
      parts box axis gap usable total weights (offset + size + gap) (used + size)

def divide (box : Box) (axis : Axis) (weights : List ℚ) (gap : ℕ) : List Box :=
  let usable := max 0 (length box axis - gap * (weights.length - 1))
  parts box axis gap usable weights.sum weights (start box axis) 0

/-! ## What a split makes -/

/-- Two boxes side by side along an axis, with a gap between, that fill a box exactly. -/
structure Fills (axis : Axis) (gap : ℕ) (box first second : Box) : Prop where
  across : match axis with
    | .horizontal => first = { box with width := first.width } ∧
        second = { box with x := second.x, width := second.width }
    | .vertical => first = { box with height := first.height } ∧
        second = { box with y := second.y, height := second.height }
  behind : start second axis = start box axis + length first axis + gap
  whole : length first axis + gap + length second axis = length box axis

theorem split_lengths (box : Box) (axis : Axis) (ratio : ℚ) (gap : ℕ) :
    length (split box axis ratio gap).1 axis + length (split box axis ratio gap).2 axis =
      max 0 (length box axis - gap) := by
  cases axis <;> simp [split, length]

/-- **A split fills its box** when the gap fits into it. -/
theorem split_fills {box : Box} {axis : Axis} {gap : ℕ} (ratio : ℚ)
    (h : gap ≤ length box axis) :
    Fills axis gap box (split box axis ratio gap).1 (split box axis ratio gap).2 := by
  have hlengths := split_lengths box axis ratio gap
  rw [max_eq_right (by omega)] at hlengths
  cases axis
  · exact ⟨⟨rfl, rfl⟩, rfl, by omega⟩
  · exact ⟨⟨rfl, rfl⟩, rfl, by omega⟩

/-! ## Boxes inside and apart -/

structure Box.Inside (inner outer : Box) : Prop where
  left : outer.x ≤ inner.x
  right : inner.x + inner.width ≤ outer.x + outer.width
  top : outer.y ≤ inner.y
  bottom : inner.y + inner.height ≤ outer.y + outer.height

/-- No pixel is in both. -/
def Box.Apart (a b : Box) : Prop :=
  a.x + a.width ≤ b.x ∨ b.x + b.width ≤ a.x ∨ a.y + a.height ≤ b.y ∨ b.y + b.height ≤ a.y

theorem Box.Inside.refl (box : Box) : box.Inside box := ⟨le_rfl, le_rfl, le_rfl, le_rfl⟩

theorem Box.Inside.trans {a b c : Box} (hab : a.Inside b) (hbc : b.Inside c) : a.Inside c :=
  ⟨hbc.left.trans hab.left, hab.right.trans hbc.right, hbc.top.trans hab.top,
    hab.bottom.trans hbc.bottom⟩

theorem Box.Apart.symm {a b : Box} (h : a.Apart b) : b.Apart a := by
  rcases h with h | h | h | h
  · exact .inr (.inl h)
  · exact .inl h
  · exact .inr (.inr (.inr h))
  · exact .inr (.inr (.inl h))

theorem Box.Apart.inside {a b c d : Box} (h : a.Apart b) (hc : c.Inside a) (hd : d.Inside b) :
    c.Apart d := by
  obtain ⟨h1, h2, h3, h4⟩ := hc
  obtain ⟨h5, h6, h7, h8⟩ := hd
  rcases h with h | h | h | h
  · exact .inl (by omega)
  · exact .inr (.inl (by omega))
  · exact .inr (.inr (.inl (by omega)))
  · exact .inr (.inr (.inr (by omega)))

namespace Fills

variable {axis : Axis} {gap : ℕ} {box first second : Box}

/-- The halves are in the box, apart from each other. -/
theorem halves (h : Fills axis gap box first second) (hfirst : 0 ≤ length first axis)
    (hsecond : 0 ≤ length second axis) :
    first.Inside box ∧ second.Inside box ∧ first.Apart second := by
  obtain ⟨hacross, hbehind, hwhole⟩ := h
  cases axis with
  | horizontal =>
    obtain ⟨hf, hs⟩ := hacross
    simp only [length, start] at hfirst hsecond hbehind hwhole
    rw [hf, hs]
    refine ⟨⟨le_rfl, ?_, le_rfl, le_rfl⟩, ⟨?_, ?_, le_rfl, le_rfl⟩, .inl ?_⟩ <;> simp only <;> omega
  | vertical =>
    obtain ⟨hf, hs⟩ := hacross
    simp only [length, start] at hfirst hsecond hbehind hwhole
    rw [hf, hs]
    refine ⟨⟨le_rfl, le_rfl, le_rfl, ?_⟩, ⟨le_rfl, le_rfl, ?_, ?_⟩, .inr (.inr (.inl ?_))⟩ <;>
      simp only <;> omega

end Fills

/-- **A split with something on both sides** fills its box. -/
theorem split_fills_of_pos {box : Box} {axis : Axis} {ratio : ℚ} {gap : ℕ}
    (hfirst : 0 < length (split box axis ratio gap).1 axis)
    (hsecond : 0 < length (split box axis ratio gap).2 axis) :
    Fills axis gap box (split box axis ratio gap).1 (split box axis ratio gap).2 := by
  have hlengths := split_lengths box axis ratio gap
  refine split_fills ratio ?_
  by_contra hle
  rw [max_eq_left (by omega)] at hlengths
  omega

end Tiling
