import Luft.Taskbar.Geometry
import Mathlib.Data.List.Pairwise
import Mathlib.Tactic.Ring

/-!
# Separate islands are apart

Where the islands of each edge fit, what is laid out is where it should be, apart from each other and on the screen,
but for two kinds of failures (`layIslands_iff`).

A centred island at a side is moved along when another island of its side makes way for the row in one corner.
Where that corner's opposite is taken too, and nothing of the side makes way there, the centred island may run into
the row there: `stuck`.  And on a screen too small for its edges to lie beside each other, islands of opposite edges
may meet, or stand out.
-/

set_option autoImplicit false

namespace Taskbar

/-! ## The statement -/

/-- What the islands of an edge need, with the space between them and beside them. -/
def needed (islands : Islands) (frame : IslandFrame) (edge : Edge) : ℚ :=
  (ALONGS.map (need (laneAt islands edge) frame.margin)).sum + frame.margin

/-- The islands of the rows fit along the screen, and those of the sides between the rows. -/
def Fits (islands : Islands) (frame : IslandFrame) : Prop :=
  ∀ island ∈ islands.all, needed islands frame island.spot.edge ≤
    if island.spot.edge.isVertical then frame.height - 2 * (frame.margin + frame.thickness) else frame.width

/-- The island that a box is of. -/
def IslandBox.island (box : IslandBox) : Sized := ⟨box.spot, if box.edge.isVertical then box.height else box.width⟩

/-- Boxes as they should be laid out. -/
structure Separate (islands : Islands) (frame : IslandFrame) (boxes : List IslandBox) : Prop where
  kept : (boxes.map IslandBox.island).Perm islands.all
  edges : ∀ box ∈ boxes, box.edge = box.spot.edge
  apart : boxes.Pairwise fun a b ↦ overlaps a.toBox b.toBox = false
  inside : ∀ box ∈ boxes, 0 ≤ box.x ∧ box.x + box.width ≤ frame.width ∧ 0 ≤ box.y ∧ box.y + box.height ≤ frame.height

/-- The place along a row that is at a side of the screen. -/
def near (frame : IslandFrame) (side : Edge) : Along :=
  if decide (side = .left) = frame.rightToLeft then .end_ else .start

def far (frame : IslandFrame) (side : Edge) : Along :=
  if decide (side = .left) = frame.rightToLeft then .start else .end_

/-- An island of an edge of this size reaches the corner at its `first` end. -/
def reaches (lane : Lane) (frame : IslandFrame) (size : ℚ) (first last : Along) : Bool :=
  (lane first).isSome ||
    (lane .center).any (fun length ↦ size < length + 2 * (frame.margin + frame.thickness) ||
      (lane last).any fun other ↦ size < length + other + 3 * frame.margin + frame.thickness) ||
    (lane last).any fun length ↦ size < length + 2 * frame.margin + frame.thickness

/-- A row's islands stand in the corner with a side. -/
def taken (islands : Islands) (frame : IslandFrame) (row side : Edge) : Bool :=
  reaches (laneAt islands row) frame frame.width (near frame side) (far frame side)

/-- The place along a side that is at a row. -/
def beside (row : Edge) : Along := if row = .top then .start else .end_

/-- An island of the side has to make way for the row. -/
def yields (islands : Islands) (frame : IslandFrame) (side row : Edge) : Bool :=
  taken islands frame row side && (laneAt islands side (beside row)).isSome

/-- The centred island of a side makes way at one row only, and is too long for what is left up to the other. -/
def stuck (islands : Islands) (frame : IslandFrame) (side : Edge) : Bool :=
  taken islands frame .top side && taken islands frame .bottom side &&
    (laneAt islands side .start).isSome != (laneAt islands side .end_).isSome &&
    (laneAt islands side .center).any fun length ↦ frame.height < length + 3 * (frame.margin + frame.thickness)

/-- What an edge's islands are laid out in. -/
def spanOf (islands : Islands) (frame : IslandFrame) (edge : Edge) : Span :=
  if edge.isVertical then
    ⟨if yields islands frame edge .top then 2 * frame.margin + frame.thickness else frame.margin,
      frame.height - if yields islands frame edge .bottom then 2 * frame.margin + frame.thickness else frame.margin⟩
  else full frame edge

/-- Where an island begins along its edge. -/
def stretch (islands : Islands) (frame : IslandFrame) (island : Sized) : ℚ :=
  startIn islands frame (spanOf islands frame island.spot.edge) island

/-- Two islands share some of the length of their edges. -/
def meets (islands : Islands) (frame : IslandFrame) (a b : Sized) : Bool :=
  stretch islands frame a < stretch islands frame b + b.length &&
    stretch islands frame b < stretch islands frame a + a.length

def Edge.opposite : Edge → Edge
  | .top => .bottom
  | .bottom => .top
  | .left => .right
  | .right => .left

/-- Nothing stands in the way. -/
structure Clear (islands : Islands) (frame : IslandFrame) : Prop where
  free : stuck islands frame .left = false ∧ stuck islands frame .right = false
  inside : ∀ island ∈ islands.all, frame.margin + frame.thickness ≤
    if island.spot.edge.isVertical then frame.width else frame.height
  opposite : ∀ a ∈ islands.all, ∀ b ∈ islands.all, b.spot.edge = a.spot.edge.opposite →
    overlaps (bandOf a.spot.edge frame) (bandOf b.spot.edge frame) → meets islands frame a b = false

/-! ## Reaching the corners -/

section

variable {lane : Lane} {frame : IslandFrame} {size length : ℚ}

theorem reaches_iff {first last : Along} : reaches lane frame size first last = true ↔
    (∃ length, lane first = some length) ∨
      (∃ length, lane .center = some length ∧ (size < length + 2 * (frame.margin + frame.thickness) ∨
        ∃ other, lane last = some other ∧ size < length + other + 3 * frame.margin + frame.thickness)) ∨
      ∃ length, lane last = some length ∧ size < length + 2 * frame.margin + frame.thickness := by
  simp only [reaches, Bool.or_eq_true, Option.isSome_iff_exists, Option.any_eq_true, decide_eq_true_eq, or_assoc]

/-- The span of a whole edge. -/
def whole (frame : IslandFrame) (size : ℚ) : Span := ⟨frame.margin, size - frame.margin⟩

theorem middle_whole (frame : IslandFrame) (size : ℚ) :
    ((whole frame size).start + (whole frame size).end_) / 2 = size / 2 := by
  rw [whole]
  ring

theorem reaches_start_iff :
    (∃ along length, lane along = some length ∧
        position lane (whole frame size) frame.margin (size / 2) along length < frame.margin + frame.thickness) ↔
      reaches lane frame size .start .end_ = true := by
  have ht := frame.thickness_pos
  have hm := frame.margin_nonneg
  rw [reaches_iff]
  constructor
  · rintro ⟨along, length, h, hlt⟩
    cases along with
    | start => exact .inl ⟨length, h⟩
    | center =>
      refine .inr (.inl ⟨length, h, ?_⟩)
      rw [position, max_lt_iff, min_lt_iff] at hlt
      rcases hlt.2 with hmiddle | hend
      · exact .inl (by linarith)
      · cases hlast : lane .end_ with
        | none =>
          rw [need_of_none hlast, whole] at hend
          exact .inl (by linarith)
        | some other =>
          rw [need_of_some hlast, whole] at hend
          exact .inr ⟨other, rfl, by linarith⟩
    | end_ =>
      rw [position, whole] at hlt
      exact .inr (.inr ⟨length, h, by linarith⟩)
  · intro hreaches
    by_cases hfirst : ∃ length, lane .start = some length
    · obtain ⟨length, h⟩ := hfirst
      exact ⟨.start, length, h, by rw [position, whole]; linarith⟩
    · have hnone : lane .start = none := by
        rw [Option.eq_none_iff_forall_ne_some]
        exact fun length h ↦ hfirst ⟨length, h⟩
      rcases hreaches with hfirst' | ⟨length, h, hcenter⟩ | ⟨length, h, hlt⟩
      · exact absurd hfirst' hfirst
      · refine ⟨.center, length, h, ?_⟩
        rw [position, max_lt_iff, min_lt_iff, need_of_none hnone, whole]
        refine ⟨by linarith, ?_⟩
        rcases hcenter with hmiddle | ⟨other, hlast, hlt⟩
        · exact .inl (by linarith)
        · rw [need_of_some hlast]
          exact .inr (by linarith)
      · exact ⟨.end_, length, h, by rw [position, whole]; linarith⟩

theorem reaches_end_iff :
    (∃ along length, lane along = some length ∧ size - frame.margin - frame.thickness <
        position lane (whole frame size) frame.margin (size / 2) along length + length) ↔
      reaches lane frame size .end_ .start = true := by
  have ht := frame.thickness_pos
  have hm := frame.margin_nonneg
  rw [reaches_iff]
  constructor
  · rintro ⟨along, length, h, hlt⟩
    cases along with
    | start =>
      rw [position, whole] at hlt
      exact .inr (.inr ⟨length, h, by linarith⟩)
    | center =>
      refine .inr (.inl ⟨length, h, ?_⟩)
      rw [← sub_lt_iff_lt_add, position, lt_max_iff, lt_min_iff] at hlt
      rcases hlt with hstart | ⟨hmiddle, -⟩
      · cases hfirst : lane .start with
        | none =>
          rw [need_of_none hfirst, whole] at hstart
          exact .inl (by linarith)
        | some other =>
          rw [need_of_some hfirst, whole] at hstart
          exact .inr ⟨other, rfl, by linarith⟩
      · exact .inl (by linarith)
    | end_ => exact .inl ⟨length, h⟩
  · intro hreaches
    by_cases hlast : ∃ length, lane .end_ = some length
    · obtain ⟨length, h⟩ := hlast
      exact ⟨.end_, length, h, by rw [position, whole]; linarith⟩
    · have hnone : lane .end_ = none := by
        rw [Option.eq_none_iff_forall_ne_some]
        exact fun length h ↦ hlast ⟨length, h⟩
      rcases hreaches with hlast' | ⟨length, h, hcenter⟩ | ⟨length, h, hlt⟩
      · exact absurd hlast' hlast
      · refine ⟨.center, length, h, ?_⟩
        rw [← sub_lt_iff_lt_add, position, lt_max_iff, lt_min_iff, need_of_none hnone, whole]
        rcases hcenter with hmiddle | ⟨other, hfirst, hlt⟩
        · exact .inr ⟨by linarith, by linarith⟩
        · rw [need_of_some hfirst]
          exact .inl (by linarith)
      · exact ⟨.start, length, h, by rw [position, whole]; linarith⟩

/-! ## Making way -/

/-- The islands of a side fit between the rows. -/
def Between (lane : Lane) (frame : IslandFrame) : Prop :=
  need lane frame.margin .start + need lane frame.margin .center + need lane frame.margin .end_ + frame.margin ≤
    frame.height - 2 * (frame.margin + frame.thickness)

/-- A side's span, with or without the stretches at the rows. -/
def sideSpan (frame : IslandFrame) (atTop atBottom : Bool) : Span :=
  ⟨if atTop then 2 * frame.margin + frame.thickness else frame.margin,
    frame.height - if atBottom then 2 * frame.margin + frame.thickness else frame.margin⟩

variable {atTop atBottom : Bool} {along : Along}

theorem sideSpan_bounds (frame : IslandFrame) (atTop atBottom : Bool) :
    frame.margin ≤ (sideSpan frame atTop atBottom).start ∧
      (sideSpan frame atTop atBottom).start ≤ 2 * frame.margin + frame.thickness ∧
      (sideSpan frame atTop atBottom).end_ ≤ frame.height - frame.margin ∧
      frame.height - (2 * frame.margin + frame.thickness) ≤ (sideSpan frame atTop atBottom).end_ := by
  have ht := frame.thickness_pos
  have hm := frame.margin_nonneg
  cases atTop <;> cases atBottom <;> simp only [sideSpan] <;> refine ⟨?_, ?_, ?_, ?_⟩ <;> simp <;> linarith

theorem Between.roomy (h : Between lane frame) (atTop atBottom : Bool) :
    Roomy lane (sideSpan frame atTop atBottom) frame.margin := by
  obtain ⟨-, hstart, -, hend⟩ := sideSpan_bounds frame atTop atBottom
  rw [Between] at h
  rw [Roomy]
  linarith

/-- Over the whole side, only an island at its start reaches the row at the top. -/
theorem Between.reaches_start (h : Between lane frame) (hlong : Long lane) :
    reaches lane frame frame.height .start .end_ = (lane .start).isSome := by
  have ht := frame.thickness_pos
  have hm := frame.margin_nonneg
  have hstart := need_nonneg hlong hm .start
  have hcenter := need_nonneg hlong hm .center
  have hend := need_nonneg hlong hm .end_
  rw [Between] at h
  rw [Bool.eq_iff_iff, reaches_iff, Option.isSome_iff_exists]
  refine ⟨?_, .inl⟩
  rintro (hfirst | ⟨length, hlength, hlt | ⟨other, hother, hlt⟩⟩ | ⟨length, hlength, hlt⟩)
  · exact hfirst
  · rw [need_of_some hlength] at h
    linarith
  · rw [need_of_some hlength, need_of_some hother] at h
    linarith
  · rw [need_of_some hlength] at h
    linarith

theorem Between.reaches_end (h : Between lane frame) (hlong : Long lane) :
    reaches lane frame frame.height .end_ .start = (lane .end_).isSome := by
  have ht := frame.thickness_pos
  have hm := frame.margin_nonneg
  have hstart := need_nonneg hlong hm .start
  have hcenter := need_nonneg hlong hm .center
  have hend := need_nonneg hlong hm .end_
  rw [Between] at h
  rw [Bool.eq_iff_iff, reaches_iff, Option.isSome_iff_exists]
  refine ⟨?_, .inl⟩
  rintro (hfirst | ⟨length, hlength, hlt | ⟨other, hother, hlt⟩⟩ | ⟨length, hlength, hlt⟩)
  · exact hfirst
  · rw [need_of_some hlength] at h
    linarith
  · rw [need_of_some hlength, need_of_some hother] at h
    linarith
  · rw [need_of_some hlength] at h
    linarith

/-- Where an island begins on a side. -/
def sidePosition (lane : Lane) (frame : IslandFrame) (atTop atBottom : Bool) (along : Along) (length : ℚ) : ℚ :=
  position lane (sideSpan frame atTop atBottom) frame.margin
    (((sideSpan frame atTop atBottom).start + (sideSpan frame atTop atBottom).end_) / 2) along length

/-- **What runs into the row at the top**, when an island at the start makes way there: a long centred one, when
there is none at the start and one at the end makes way at the bottom. -/
theorem Between.top_iff (h : Between lane frame) (hlong : Long lane) (hyields : atTop = (lane .start).isSome) :
    (∃ along length, lane along = some length ∧
        sidePosition lane frame atTop atBottom along length < frame.margin + frame.thickness) ↔
      (lane .start).isSome = false ∧ atBottom = true ∧
        ∃ length, lane .center = some length ∧ frame.height < length + 3 * (frame.margin + frame.thickness) := by
  have ht := frame.thickness_pos
  have hm := frame.margin_nonneg
  have hroom := h.roomy atTop atBottom
  obtain ⟨hlow, -, -, hhigh⟩ := sideSpan_bounds frame atTop atBottom
  have hstart := need_nonneg hlong hm .start
  have hcenter := need_nonneg hlong hm .center
  have hend := need_nonneg hlong hm .end_
  rw [Between] at h
  constructor
  · rintro ⟨along, length, hlength, hlt⟩
    obtain ⟨hinside, -⟩ := position_inside (((sideSpan frame atTop atBottom).start +
      (sideSpan frame atTop atBottom).end_) / 2) hlong hm hroom hlength
    rw [← sidePosition] at hinside
    -- with an island at the start the whole span is below the row
    have hnone : (lane .start).isSome = false := by
      rw [← hyields]
      cases atTop with
      | false => rfl
      | true =>
        have htop : (sideSpan frame true atBottom).start = 2 * frame.margin + frame.thickness := rfl
        linarith
    rw [hnone] at hyields
    subst hyields
    cases along with
    | start => simp [hlength] at hnone
    | center =>
      rw [need_of_some hlength] at h
      rw [sidePosition, position, max_lt_iff, min_lt_iff] at hlt
      have htop : (sideSpan frame false atBottom).start = frame.margin := rfl
      rcases hlt.2 with hmiddle | hlast
      · cases atBottom with
        | false =>
          have hbottom : (sideSpan frame false false).end_ = frame.height - frame.margin := rfl
          linarith
        | true =>
          have hbottom : (sideSpan frame false true).end_ = frame.height - (2 * frame.margin + frame.thickness) := rfl
          exact ⟨hnone, rfl, length, hlength, by linarith⟩
      · linarith
    | end_ =>
      rw [need_of_some hlength] at h
      rw [sidePosition, position] at hlt
      linarith
  · rintro ⟨hnone, rfl, length, hlength, hlt⟩
    rw [hnone] at hyields
    subst hyields
    have htop : (sideSpan frame false true).start = frame.margin := rfl
    have hbottom : (sideSpan frame false true).end_ = frame.height - (2 * frame.margin + frame.thickness) := rfl
    refine ⟨.center, length, hlength, ?_⟩
    rw [sidePosition, position, max_lt_iff, min_lt_iff, need_of_none (by simpa using hnone)]
    exact ⟨by linarith, .inl (by linarith)⟩

theorem Between.bottom_iff (h : Between lane frame) (hlong : Long lane) (hyields : atBottom = (lane .end_).isSome) :
    (∃ along length, lane along = some length ∧ frame.height - frame.margin - frame.thickness <
        sidePosition lane frame atTop atBottom along length + length) ↔
      (lane .end_).isSome = false ∧ atTop = true ∧
        ∃ length, lane .center = some length ∧ frame.height < length + 3 * (frame.margin + frame.thickness) := by
  have ht := frame.thickness_pos
  have hm := frame.margin_nonneg
  have hroom := h.roomy atTop atBottom
  obtain ⟨-, hlow, hhigh, -⟩ := sideSpan_bounds frame atTop atBottom
  have hstart := need_nonneg hlong hm .start
  have hcenter := need_nonneg hlong hm .center
  have hend := need_nonneg hlong hm .end_
  rw [Between] at h
  constructor
  · rintro ⟨along, length, hlength, hlt⟩
    obtain ⟨-, hinside⟩ := position_inside (((sideSpan frame atTop atBottom).start +
      (sideSpan frame atTop atBottom).end_) / 2) hlong hm hroom hlength
    rw [← sidePosition] at hinside
    -- with an island at the end the whole span is above the row
    have hnone : (lane .end_).isSome = false := by
      rw [← hyields]
      cases atBottom with
      | false => rfl
      | true =>
        have hbottom : (sideSpan frame atTop true).end_ =
          frame.height - (2 * frame.margin + frame.thickness) := rfl
        linarith
    rw [hnone] at hyields
    subst hyields
    cases along with
    | end_ => simp [hlength] at hnone
    | center =>
      rw [need_of_some hlength] at h
      rw [← sub_lt_iff_lt_add, sidePosition, position, lt_max_iff, lt_min_iff] at hlt
      have hbottom : (sideSpan frame atTop false).end_ = frame.height - frame.margin := rfl
      rcases hlt with hfirst | ⟨hmiddle, -⟩
      · linarith
      · cases atTop with
        | false =>
          have htop : (sideSpan frame false false).start = frame.margin := rfl
          linarith
        | true =>
          have htop : (sideSpan frame true false).start = 2 * frame.margin + frame.thickness := rfl
          exact ⟨hnone, rfl, length, hlength, by linarith⟩
    | start =>
      rw [need_of_some hlength] at h
      rw [sidePosition, position] at hlt
      linarith
  · rintro ⟨hnone, rfl, length, hlength, hlt⟩
    rw [hnone] at hyields
    subst hyields
    have htop : (sideSpan frame true false).start = 2 * frame.margin + frame.thickness := rfl
    have hbottom : (sideSpan frame true false).end_ = frame.height - frame.margin := rfl
    refine ⟨.center, length, hlength, ?_⟩
    have hlast : need lane frame.margin .end_ = 0 := need_of_none (by simpa using hnone)
    rw [← sub_lt_iff_lt_add, sidePosition, position, lt_max_iff, lt_min_iff, hlast]
    exact .inr ⟨by linarith, by linarith⟩

end

/-! ## Boxes and bands -/

section

variable {islands : Islands} {frame : IslandFrame} {island other : Sized} {edge row side : Edge} {start start' : ℚ}

theorem overlaps_iff (a b : Box) : overlaps a b = true ↔
    a.x < b.x + b.width ∧ b.x < a.x + a.width ∧ a.y < b.y + b.height ∧ b.y < a.y + a.height := by
  simp only [overlaps, Bool.and_eq_true, decide_eq_true_eq, and_assoc]

theorem overlaps_comm (a b : Box) : overlaps a b = overlaps b a := by
  rw [Bool.eq_iff_iff, overlaps_iff, overlaps_iff]
  constructor <;> rintro ⟨h₁, h₂, h₃, h₄⟩ <;> exact ⟨h₂, h₁, h₄, h₃⟩

/-- Where a box of a row reaches a column. -/
theorem boxAt_column_iff (hrow : row = .top ∨ row = .bottom) (hside : side = .left ∨ side = .right)
    (hlow : frame.margin ≤ start) (hhigh : start + island.length ≤ frame.width - frame.margin)
    (hlength : 0 < island.length) (hheight : frame.margin + frame.thickness < frame.height) :
    overlaps (boxAt row frame island start).toBox (bandOf side frame) = true ↔
      if near frame side = .start then start < frame.margin + frame.thickness
      else frame.width - frame.margin - frame.thickness < start + island.length := by
  have ht := frame.thickness_pos
  have hm := frame.margin_nonneg
  rw [overlaps_iff]
  rcases hrow with rfl | rfl <;> rcases hside with rfl | rfl <;> cases hdirection : frame.rightToLeft
  all_goals
    simp only [boxAt, bandOf, near, Edge.isVertical, hdirection, reduceCtorEq, decide_true, decide_false,
      Bool.or_self, Bool.false_eq_true, Bool.true_eq_false, if_true, if_false]
    constructor
    · rintro ⟨h₁, h₂, h₃, h₄⟩
      linarith
    · intro h
      exact ⟨by linarith, by linarith, by linarith, by linarith⟩

/-- Where a box of a side reaches a row. -/
theorem boxAt_row_iff (hrow : row = .top ∨ row = .bottom) (hside : side = .left ∨ side = .right)
    (hlow : frame.margin ≤ start) (hhigh : start + island.length ≤ frame.height - frame.margin)
    (hlength : 0 < island.length) (hwidth : frame.margin < frame.width) :
    overlaps (boxAt side frame island start).toBox (bandOf row frame) = true ↔
      if row = .top then start < frame.margin + frame.thickness
      else frame.height - frame.margin - frame.thickness < start + island.length := by
  have ht := frame.thickness_pos
  have hm := frame.margin_nonneg
  rw [overlaps_iff]
  rcases hrow with rfl | rfl <;> rcases hside with rfl | rfl
  all_goals
    simp only [boxAt, bandOf, Edge.isVertical, reduceCtorEq, decide_true, decide_false, Bool.or_false, Bool.or_true,
      if_true, if_false]
    constructor
    · rintro ⟨h₁, h₂, h₃, h₄⟩
      linarith
    · intro h
      exact ⟨by linarith, by linarith, by linarith, by linarith⟩

/-- A box of a row and one of a side meet where each reaches the other's band. -/
theorem boxAt_cross_iff (hrow : row = .top ∨ row = .bottom) (hside : side = .left ∨ side = .right)
    (hlow : frame.margin ≤ start) (hhigh : start + island.length ≤ frame.width - frame.margin)
    (hlength : 0 < island.length) (hheight : frame.margin + frame.thickness < frame.height) :
    overlaps (boxAt row frame island start).toBox (boxAt side frame other start').toBox = true ↔
      overlaps (boxAt row frame island start).toBox (bandOf side frame) = true ∧
        overlaps (boxAt side frame other start').toBox (bandOf row frame) = true := by
  have ht := frame.thickness_pos
  have hm := frame.margin_nonneg
  rw [overlaps_iff, overlaps_iff, overlaps_iff]
  rcases hrow with rfl | rfl <;> rcases hside with rfl | rfl <;> cases hdirection : frame.rightToLeft
  all_goals
    simp only [boxAt, bandOf, Edge.isVertical, hdirection, reduceCtorEq, decide_true, decide_false,
      Bool.or_self, Bool.or_false, Bool.or_true, Bool.false_eq_true, if_true, if_false]
    constructor
    · rintro ⟨h₁, h₂, h₃, h₄⟩
      exact ⟨⟨by linarith, by linarith, by linarith, by linarith⟩,
        by linarith, by linarith, by linarith, by linarith⟩
    · rintro ⟨⟨h₁, h₂, h₃, h₄⟩, h₅, h₆, h₇, h₈⟩
      exact ⟨by linarith, by linarith, by linarith, by linarith⟩

/-- Boxes of parallel edges meet where their bands and their stretches do. -/
theorem boxAt_parallel_iff {edge' : Edge} (hparallel : edge' = edge ∨ edge' = edge.opposite)
    (hsize : 0 < if edge.isVertical then frame.height else frame.width) :
    overlaps (boxAt edge frame island start).toBox (boxAt edge' frame other start').toBox = true ↔
      overlaps (bandOf edge frame) (bandOf edge' frame) = true ∧
        start < start' + other.length ∧ start' < start + island.length := by
  rw [overlaps_iff, overlaps_iff]
  cases edge <;> rcases hparallel with rfl | rfl <;> cases hdirection : frame.rightToLeft
  all_goals
    simp only [boxAt, bandOf, Edge.isVertical, Edge.opposite, hdirection, reduceCtorEq, decide_true, decide_false,
      Bool.or_self, Bool.or_false, Bool.or_true, Bool.false_eq_true, if_true, if_false] at hsize ⊢
    constructor
    · rintro ⟨h₁, h₂, h₃, h₄⟩
      exact ⟨⟨by linarith, by linarith, by linarith, by linarith⟩, by linarith, by linarith⟩
    · rintro ⟨⟨h₁, h₂, h₃, h₄⟩, h₅, h₆⟩
      exact ⟨by linarith, by linarith, by linarith, by linarith⟩

/-! ## The loop in closed form -/

theorem exists_on {P : Along → ℚ → Prop} :
    (∃ island ∈ on islands.all edge, P island.spot.along island.length) ↔
      ∃ along length, laneAt islands edge along = some length ∧ P along length := by
  constructor
  · rintro ⟨island, hisland, h⟩
    obtain ⟨hmem, rfl⟩ := mem_on.1 hisland
    exact ⟨_, _, laneAt_of_mem hmem, h⟩
  · rintro ⟨along, length, hlength, h⟩
    exact ⟨⟨⟨edge, along⟩, length⟩, mem_on.2 ⟨laneAt_eq_some_iff.1 hlength, rfl⟩, h⟩

theorem needed_eq (islands : Islands) (frame : IslandFrame) (edge : Edge) : needed islands frame edge =
    need (laneAt islands edge) frame.margin .start + need (laneAt islands edge) frame.margin .center +
      need (laneAt islands edge) frame.margin .end_ + frame.margin := by
  simp [needed, ALONGS, add_assoc]

theorem Fits.between (hfits : Fits islands frame) (h : island ∈ islands.all)
    (hside : island.spot.edge.isVertical = true) : Between (laneAt islands island.spot.edge) frame := by
  have := hfits island h
  rwa [if_pos hside, needed_eq] at this

theorem Fits.roomy (hfits : Fits islands frame) (h : island ∈ islands.all)
    (hrow : island.spot.edge.isVertical = false) :
    Roomy (laneAt islands island.spot.edge) (whole frame frame.width) frame.margin := by
  have := hfits island h
  rw [if_neg (by simp [hrow]), needed_eq] at this
  rw [Roomy, whole]
  linarith

/-- With islands at the sides there is room between the rows. -/
theorem Fits.height (hfits : Fits islands frame) (h : island ∈ islands.all)
    (hside : island.spot.edge.isVertical = true) : frame.margin + frame.thickness < frame.height := by
  have hbetween := hfits.between h hside
  have ht := frame.thickness_pos
  have hm := frame.margin_nonneg
  have hneed := need_nonneg (laneAt_long islands island.spot.edge) hm
  have hstart := hneed .start
  have hcenter := hneed .center
  have hend := hneed .end_
  rw [Between] at hbetween
  linarith

theorem row_not_vertical (hrow : row = .top ∨ row = .bottom) : row.isVertical = false := by
  rcases hrow with rfl | rfl <;> rfl

theorem side_vertical (hside : side = .left ∨ side = .right) : side.isVertical = true := by
  rcases hside with rfl | rfl <;> rfl

theorem startIn_full_row (hrow : row = .top ∨ row = .bottom) (h : island.spot.edge = row) :
    startIn islands frame (full frame row) island = position (laneAt islands row) (whole frame frame.width)
      frame.margin (frame.width / 2) island.spot.along island.length := by
  have hfull : full frame row = whole frame frame.width := by
    rw [full, row_not_vertical hrow]
    rfl
  rw [startIn, h, hfull, middle_whole]

theorem row_inside (hfits : Fits islands frame) (hrow : row = .top ∨ row = .bottom)
    (h : island ∈ on islands.all row) :
    frame.margin ≤ startIn islands frame (full frame row) island ∧
      startIn islands frame (full frame row) island + island.length ≤ frame.width - frame.margin := by
  obtain ⟨hmem, hedge⟩ := mem_on.1 h
  rw [startIn_full_row hrow hedge]
  have hroom := hfits.roomy hmem (by rw [hedge, row_not_vertical hrow])
  rw [hedge] at hroom
  exact position_inside _ (laneAt_long islands row) frame.margin_nonneg hroom (hedge ▸ laneAt_of_mem hmem)

theorem taken_eq (hfits : Fits islands frame) (hrow : row = .top ∨ row = .bottom)
    (hside : side = .left ∨ side = .right) (hheight : frame.margin + frame.thickness < frame.height) :
    ((layEdge row (on islands.all row) (full frame row) frame).any fun box ↦
      overlaps box.toBox (bandOf side frame)) = taken islands frame row side := by
  rw [layEdge_eq, List.any_map, Bool.eq_iff_iff, List.any_eq_true, taken]
  have hreach : ∀ island ∈ on islands.all row,
      (overlaps (boxAt row frame island (startIn islands frame (full frame row) island)).toBox (bandOf side frame) =
        true ↔ if near frame side = .start then
          position (laneAt islands row) (whole frame frame.width) frame.margin (frame.width / 2) island.spot.along
            island.length < frame.margin + frame.thickness
        else frame.width - frame.margin - frame.thickness < position (laneAt islands row)
          (whole frame frame.width) frame.margin (frame.width / 2) island.spot.along island.length +
            island.length) := by
    intro island hisland
    obtain ⟨hlow, hhigh⟩ := row_inside hfits hrow hisland
    obtain ⟨hmem, hedge⟩ := mem_on.1 hisland
    rw [← startIn_full_row hrow hedge]
    exact boxAt_column_iff hrow hside hlow hhigh (islands.pos island hmem) hheight
  have hcorner : (∃ island ∈ on islands.all row, overlaps (boxAt row frame island
      (startIn islands frame (full frame row) island)).toBox (bandOf side frame) = true) ↔
      reaches (laneAt islands row) frame frame.width (near frame side) (far frame side) = true := by
    rw [exists_congr fun island ↦ and_congr_right fun hisland ↦ hreach island hisland]
    rw [near, far]
    split
    · simp only [reduceCtorEq, if_false]
      exact exists_on.trans reaches_end_iff
    · simp only [if_true]
      exact exists_on.trans reaches_start_iff
  exact hcorner

theorem side_roomy (hfits : Fits islands frame) (h : island ∈ islands.all)
    (hside : island.spot.edge.isVertical = true) (atTop atBottom : Bool) :
    Roomy (laneAt islands island.spot.edge) (sideSpan frame atTop atBottom) frame.margin :=
  (hfits.between h hside).roomy atTop atBottom

theorem startIn_sideSpan (h : island.spot.edge = side) (atTop atBottom : Bool) :
    startIn islands frame (sideSpan frame atTop atBottom) island =
      sidePosition (laneAt islands side) frame atTop atBottom island.spot.along island.length := by
  rw [startIn, h, sidePosition]

theorem side_inside (hfits : Fits islands frame) (hside : side = .left ∨ side = .right)
    (h : island ∈ on islands.all side) (atTop atBottom : Bool) :
    frame.margin ≤ startIn islands frame (sideSpan frame atTop atBottom) island ∧
      startIn islands frame (sideSpan frame atTop atBottom) island + island.length ≤
        frame.height - frame.margin := by
  obtain ⟨hmem, hedge⟩ := mem_on.1 h
  have hroom := side_roomy hfits hmem (by rw [hedge, side_vertical hside]) atTop atBottom
  rw [hedge] at hroom
  obtain ⟨hlow, -, hhigh, -⟩ := sideSpan_bounds frame atTop atBottom
  obtain ⟨hstart, hend⟩ := position_inside
    (((sideSpan frame atTop atBottom).start + (sideSpan frame atTop atBottom).end_) / 2)
    (laneAt_long islands side) frame.margin_nonneg hroom (hedge ▸ laneAt_of_mem hmem)
  rw [startIn, hedge]
  exact ⟨hlow.trans hstart, hend.trans hhigh⟩

theorem full_side (hside : side = .left ∨ side = .right) : full frame side = sideSpan frame false false := by
  rw [full, side_vertical hside]
  rfl

theorem Fits.width (hfits : Fits islands frame) (h : island ∈ islands.all)
    (hrow : island.spot.edge.isVertical = false) : frame.margin < frame.width := by
  obtain ⟨hlow, hhigh⟩ := position_inside 0 (laneAt_long islands _) frame.margin_nonneg (hfits.roomy h hrow)
    (laneAt_of_mem h)
  have hpos := islands.pos island h
  have hm := frame.margin_nonneg
  rw [whole] at hlow hhigh
  linarith

theorem taken_width (hfits : Fits islands frame) (hrow : row = .top ∨ row = .bottom)
    (h : taken islands frame row side = true) : frame.margin < frame.width := by
  have hexists : ∃ along length, laneAt islands row along = some length := by
    rcases reaches_iff.1 h with ⟨length, h⟩ | ⟨length, h, -⟩ | ⟨length, h, -⟩ <;> exact ⟨_, length, h⟩
  obtain ⟨along, length, hlength⟩ := hexists
  exact hfits.width (laneAt_eq_some_iff.1 hlength) (row_not_vertical hrow)

/-- Which of a side's islands reach a row in the first layout. -/
theorem first_eq (hfits : Fits islands frame) (hrow : row = .top ∨ row = .bottom)
    (hside : side = .left ∨ side = .right) (hwidth : frame.margin < frame.width) :
    ((layEdge side (on islands.all side) (full frame side) frame).any fun box ↦
      overlaps box.toBox (bandOf row frame)) = (laneAt islands side (beside row)).isSome := by
  have hstart : ∀ island ∈ on islands.all side, startIn islands frame (full frame side) island =
      position (laneAt islands side) (whole frame frame.height) frame.margin (frame.height / 2) island.spot.along
        island.length := by
    intro island hisland
    rw [startIn, (mem_on.1 hisland).2, show full frame side = whole frame frame.height from full_side hside,
      middle_whole]
  have hreach : ∀ island ∈ on islands.all side,
      (overlaps (boxAt side frame island (startIn islands frame (full frame side) island)).toBox (bandOf row frame) =
        true ↔ if row = .top then
          position (laneAt islands side) (whole frame frame.height) frame.margin (frame.height / 2) island.spot.along
            island.length < frame.margin + frame.thickness
        else frame.height - frame.margin - frame.thickness < position (laneAt islands side)
          (whole frame frame.height) frame.margin (frame.height / 2) island.spot.along island.length +
            island.length) := by
    intro island hisland
    obtain ⟨hlow, hhigh⟩ := side_inside hfits hside hisland false false
    rw [← full_side hside] at hlow hhigh
    rw [← hstart island hisland]
    exact boxAt_row_iff hrow hside hlow hhigh (islands.pos island (mem_on.1 hisland).1) hwidth
  have hcorner : (∃ island ∈ on islands.all side, overlaps (boxAt side frame island
      (startIn islands frame (full frame side) island)).toBox (bandOf row frame) = true) ↔
      reaches (laneAt islands side) frame frame.height (beside row) (if row = .top then .end_ else .start) = true := by
    rw [exists_congr fun island ↦ and_congr_right fun hisland ↦ hreach island hisland]
    rcases hrow with rfl | rfl
    · simp only [if_true]
      exact exists_on.trans reaches_start_iff
    · simp only [reduceCtorEq, if_false]
      exact exists_on.trans reaches_end_iff
  rw [layEdge_eq, List.any_map, Bool.eq_iff_iff, List.any_eq_true]
  refine hcorner.trans ?_
  by_cases hsome : ∃ island, island ∈ on islands.all side
  · obtain ⟨island, hisland⟩ := hsome
    obtain ⟨hmem, hedge⟩ := mem_on.1 hisland
    have hbetween := hfits.between hmem (by rw [hedge, side_vertical hside])
    rw [hedge] at hbetween
    rcases hrow with rfl | rfl
    · exact (Bool.eq_iff_iff.1 (hbetween.reaches_start (laneAt_long islands side)))
    · exact (Bool.eq_iff_iff.1 (hbetween.reaches_end (laneAt_long islands side)))
  · have hnone : ∀ along, laneAt islands side along = none := by
      intro along
      rw [Option.eq_none_iff_forall_ne_some]
      exact fun length hlength ↦ hsome ⟨_, mem_on.2 ⟨laneAt_eq_some_iff.1 hlength, rfl⟩⟩
    simp [reaches, hnone]

/-- The box of an island. -/
def boxOf (islands : Islands) (frame : IslandFrame) (island : Sized) : IslandBox :=
  boxAt island.spot.edge frame island (stretch islands frame island)

/-- The boxes of an edge. -/
def edgeBoxes (islands : Islands) (frame : IslandFrame) (edge : Edge) : List IslandBox :=
  (on islands.all edge).map (boxOf islands frame)

theorem layEdge_spanOf (islands : Islands) (frame : IslandFrame) (edge : Edge) :
    layEdge edge (on islands.all edge) (spanOf islands frame edge) frame = edgeBoxes islands frame edge := by
  rw [layEdge_eq, edgeBoxes]
  refine List.map_congr_left fun island hisland ↦ ?_
  rw [boxOf, stretch, (mem_on.1 hisland).2]

theorem spanOf_row (hrow : row = .top ∨ row = .bottom) : spanOf islands frame row = full frame row := by
  rw [spanOf, row_not_vertical hrow]
  rfl

/-- The boxes of the rows. -/
def rows (islands : Islands) (frame : IslandFrame) : List IslandBox :=
  edgeBoxes islands frame .top ++ edgeBoxes islands frame .bottom

theorem edge_boxAt (edge : Edge) (frame : IslandFrame) (island : Sized) (start : ℚ) :
    (boxAt edge frame island start).edge = edge := by
  rw [boxAt]
  split <;> rfl

theorem edge_of_mem_edgeBoxes {box : IslandBox} (h : box ∈ edgeBoxes islands frame edge) : box.edge = edge := by
  obtain ⟨island, hisland, rfl⟩ := List.mem_map.1 h
  exact (edge_boxAt ..).trans (mem_on.1 hisland).2

/-- The boxes of a row among all that were laid out. -/
theorem any_row (hrow : row = .top ∨ row = .bottom) {others : List IslandBox}
    (hothers : ∀ box ∈ others, box.edge.isVertical = true) (P : IslandBox → Bool) :
    ((rows islands frame ++ others).any fun box ↦ box.edge = row && P box) = (edgeBoxes islands frame row).any P := by
  rw [Bool.eq_iff_iff, List.any_eq_true, List.any_eq_true]
  constructor
  · rintro ⟨box, hbox, h⟩
    rw [Bool.and_eq_true, decide_eq_true_iff] at h
    obtain ⟨rfl, hP⟩ := h
    refine ⟨box, ?_, hP⟩
    rcases List.mem_append.1 hbox with hbox | hbox
    · rcases List.mem_append.1 hbox with hbox | hbox <;> rwa [edge_of_mem_edgeBoxes hbox]
    · have hvertical := hothers box hbox
      rw [row_not_vertical hrow] at hvertical
      cases hvertical
  · rintro ⟨box, hbox, hP⟩
    refine ⟨box, List.mem_append_left _ ?_, ?_⟩
    · rcases hrow with rfl | rfl
      · exact List.mem_append_left _ hbox
      · exact List.mem_append_right _ hbox
    · rw [Bool.and_eq_true, decide_eq_true_iff]
      exact ⟨edge_of_mem_edgeBoxes hbox, hP⟩

theorem crowded_eq (hfits : Fits islands frame) (hrow : row = .top ∨ row = .bottom)
    (hside : side = .left ∨ side = .right) {others : List IslandBox}
    (hothers : ∀ box ∈ others, box.edge.isVertical = true) :
    crowded frame (rows islands frame ++ others) (layEdge side (on islands.all side) (full frame side) frame)
      ⟨row, side⟩ = yields islands frame side row := by
  rw [crowded, any_row hrow hothers, ← layEdge_spanOf, spanOf_row hrow, yields]
  by_cases hsome : ∃ island, island ∈ on islands.all side
  · obtain ⟨island, hisland⟩ := hsome
    obtain ⟨hmem, hedge⟩ := mem_on.1 hisland
    rw [taken_eq hfits hrow hside (hfits.height hmem (by rw [hedge, side_vertical hside]))]
    cases htaken : taken islands frame row side with
    | false => rfl
    | true => rw [first_eq hfits hrow hside (taken_width hfits hrow htaken)]
  · have hon : on islands.all side = [] := List.eq_nil_iff_forall_not_mem.2 fun island h ↦ hsome ⟨island, h⟩
    have hnone : laneAt islands side (beside row) = none := by
      rw [Option.eq_none_iff_forall_ne_some]
      exact fun length hlength ↦ hsome ⟨_, mem_on.2 ⟨laneAt_eq_some_iff.1 hlength, rfl⟩⟩
    rw [hon, hnone, show layEdge side [] (full frame side) frame = [] from rfl, List.any_nil, Bool.and_false,
      Option.isSome_none, Bool.and_false]

/-- What is left of a side is its span in closed form. -/
theorem spanLeft_eq (hfits : Fits islands frame) (hside : side = .left ∨ side = .right) {others : List IslandBox}
    (hothers : ∀ box ∈ others, box.edge.isVertical = true) :
    spanLeft islands.all frame (rows islands frame ++ others) side = spanOf islands frame side := by
  have htop := crowded_eq hfits (.inl rfl) hside hothers
  have hbottom := crowded_eq hfits (.inr rfl) hside hothers
  have hcorners : CORNERS = [⟨.top, .left⟩, ⟨.top, .right⟩, ⟨.bottom, .left⟩, ⟨.bottom, .right⟩] := rfl
  rw [spanLeft, spanOf, side_vertical hside, if_pos rfl, hcorners]
  generalize yields islands frame side .top = atTop at htop ⊢
  generalize yields islands frame side .bottom = atBottom at hbottom ⊢
  have hbelow : (bandOf .top frame).y + (bandOf .top frame).height + frame.margin =
      2 * frame.margin + frame.thickness := by
    rw [bandOf]
    ring
  have habove : (bandOf .bottom frame).y - frame.margin = frame.height - (2 * frame.margin + frame.thickness) := by
    rw [bandOf]
    ring
  rcases hside with rfl | rfl
  all_goals
    simp only [List.foldl_cons, List.foldl_nil, ne_eq, reduceCtorEq, not_true_eq_false, not_false_eq_true, if_true,
      if_false, htop, hbottom, hbelow, habove]
    cases atTop <;> cases atBottom <;> rfl

/-- The islands in the order in which they are laid out. -/
def inOrder (islands : Islands) : List Sized := [Edge.top, .bottom, .left, .right].flatMap (on islands.all)

/-- **The layout in closed form**. -/
theorem layIslands_eq (hfits : Fits islands frame) :
    layIslands islands.all frame = (inOrder islands).map (boxOf islands frame) := by
  have hrows : ([Edge.top, Edge.bottom].flatMap fun edge ↦
      layEdge edge (on islands.all edge) (full frame edge) frame) = rows islands frame := by
    rw [List.flatMap_cons, List.flatMap_cons, List.flatMap_nil, List.append_nil, ← spanOf_row (.inl rfl),
      ← spanOf_row (.inr rfl), layEdge_spanOf, layEdge_spanOf, rows]
  have hleft := spanLeft_eq hfits (.inl rfl) (List.forall_mem_nil _)
  rw [List.append_nil] at hleft
  have hright := spanLeft_eq hfits (.inr rfl) fun box (hbox : box ∈ edgeBoxes islands frame .left) ↦ by
    rw [edge_of_mem_edgeBoxes hbox]
    rfl
  rw [layIslands, hrows, List.foldl_cons, List.foldl_cons, List.foldl_nil, hleft, layEdge_spanOf, hright,
    layEdge_spanOf, rows, inOrder, List.map_flatMap, List.append_assoc, List.append_assoc]
  simp [edgeBoxes]

theorem mem_inOrder : island ∈ inOrder islands ↔ island ∈ islands.all := by
  simp only [inOrder, List.mem_flatMap, mem_on]
  constructor
  · rintro ⟨edge, -, h, -⟩
    exact h
  · intro h
    refine ⟨island.spot.edge, ?_, h, rfl⟩
    cases island.spot.edge <;> simp

theorem nodup_all (islands : Islands) : islands.all.Nodup := List.Nodup.of_map _ islands.nodup

theorem nodup_inOrder (islands : Islands) : (inOrder islands).Nodup := by
  rw [inOrder, List.nodup_flatMap]
  refine ⟨fun edge _ ↦ (nodup_all islands).filter _, ?_⟩
  have hedges : [Edge.top, .bottom, .left, .right].Pairwise (· ≠ ·) := by simp
  refine hedges.imp fun {edge edge'} hne ↦ ?_
  intro island h h'
  exact hne ((mem_on.1 h).2.symm.trans (mem_on.1 h').2)

theorem perm_inOrder (islands : Islands) : (inOrder islands).Perm islands.all :=
  (List.perm_ext_iff_of_nodup (nodup_inOrder islands) (nodup_all islands)).2 fun _ ↦ mem_inOrder

/-! ## Which boxes meet -/

theorem spanOf_side (hside : side = .left ∨ side = .right) : spanOf islands frame side =
    sideSpan frame (yields islands frame side .top) (yields islands frame side .bottom) := by
  rw [spanOf, side_vertical hside]
  rfl

theorem horizontal_or_vertical (edge : Edge) : (edge = .top ∨ edge = .bottom) ∨ (edge = .left ∨ edge = .right) := by
  cases edge <;> simp

/-- Every box lies along its edge. -/
theorem stretch_inside (hfits : Fits islands frame) (h : island ∈ islands.all) :
    frame.margin ≤ stretch islands frame island ∧ stretch islands frame island + island.length ≤
      (if island.spot.edge.isVertical then frame.height else frame.width) - frame.margin := by
  rcases horizontal_or_vertical island.spot.edge with hrow | hside
  · rw [stretch, spanOf_row hrow, row_not_vertical hrow]
    exact row_inside hfits hrow (mem_on.2 ⟨h, rfl⟩)
  · rw [stretch, spanOf_side hside, side_vertical hside]
    exact side_inside hfits hside (mem_on.2 ⟨h, rfl⟩) _ _

theorem size_pos (hfits : Fits islands frame) (h : island ∈ islands.all) :
    0 < if island.spot.edge.isVertical then frame.height else frame.width := by
  obtain ⟨hlow, hhigh⟩ := stretch_inside hfits h
  have hpos := islands.pos island h
  have hm := frame.margin_nonneg
  linarith

/-- Two islands of one edge are apart. -/
theorem apart_of_same_edge (hfits : Fits islands frame) (h : island ∈ islands.all) (hother : other ∈ islands.all)
    (hne : island ≠ other) (hedge : other.spot.edge = island.spot.edge) :
    overlaps (boxOf islands frame island).toBox (boxOf islands frame other).toBox = false := by
  rw [Bool.eq_false_iff]
  intro hoverlaps
  obtain ⟨-, hlt, hlt'⟩ := (boxAt_parallel_iff (.inl hedge) (size_pos hfits h)).1 hoverlaps
  have halong : island.spot.along ≠ other.spot.along := by
    intro hsame
    refine hne (List.inj_on_of_nodup_map islands.nodup h hother ?_)
    obtain ⟨⟨_, _⟩, _⟩ := island
    obtain ⟨⟨_, _⟩, _⟩ := other
    cases hedge
    cases hsame
    rfl
  have hroom : Roomy (laneAt islands island.spot.edge) (spanOf islands frame island.spot.edge) frame.margin := by
    rcases horizontal_or_vertical island.spot.edge with hrow | hside
    · rw [spanOf_row hrow, full, row_not_vertical hrow]
      exact hfits.roomy h (row_not_vertical hrow)
    · rw [spanOf_side hside]
      exact side_roomy hfits h (side_vertical hside) _ _
  have hm := frame.margin_nonneg
  rw [stretch, stretch, startIn, startIn, hedge] at hlt hlt'
  rcases position_apart (laneAt_long islands _) hm hroom (laneAt_of_mem h) (hedge ▸ laneAt_of_mem hother) halong with
    hbefore | hbehind
  · linarith
  · linarith

/-- Islands of opposite edges are apart unless their edges lie over each other. -/
theorem opposite_overlaps_iff (hfits : Fits islands frame) (h : island ∈ islands.all)
    (hedge : other.spot.edge = island.spot.edge.opposite) :
    overlaps (boxOf islands frame island).toBox (boxOf islands frame other).toBox = true ↔
      overlaps (bandOf island.spot.edge frame) (bandOf other.spot.edge frame) = true ∧
        meets islands frame island other = true := by
  rw [boxOf, boxOf, boxAt_parallel_iff (.inr hedge) (size_pos hfits h), meets, Bool.and_eq_true, decide_eq_true_iff,
    decide_eq_true_iff]

theorem row_reaches_iff (hfits : Fits islands frame) (hrow : row = .top ∨ row = .bottom)
    (hside : side = .left ∨ side = .right) (hheight : frame.margin + frame.thickness < frame.height) :
    (∃ a ∈ on islands.all row, overlaps (boxOf islands frame a).toBox (bandOf side frame) = true) ↔
      taken islands frame row side = true := by
  have hspan : spanOf islands frame row = full frame row := spanOf_row hrow
  have htaken := taken_eq hfits hrow hside hheight
  rw [← hspan, layEdge_spanOf, edgeBoxes, List.any_map, Bool.eq_iff_iff, List.any_eq_true] at htaken
  exact htaken

/-- A side's box meets one of a row where it reaches the row and the corner is taken. -/
theorem cross_iff (hfits : Fits islands frame) (hrow : row = .top ∨ row = .bottom)
    (hside : side = .left ∨ side = .right) :
    (∃ a ∈ on islands.all row, ∃ b ∈ on islands.all side,
        overlaps (boxOf islands frame a).toBox (boxOf islands frame b).toBox = true) ↔
      taken islands frame row side = true ∧
        ∃ b ∈ on islands.all side, overlaps (boxOf islands frame b).toBox (bandOf row frame) = true := by
  have hcross : ∀ a ∈ on islands.all row, ∀ b ∈ on islands.all side,
      (overlaps (boxOf islands frame a).toBox (boxOf islands frame b).toBox = true ↔
        overlaps (boxOf islands frame a).toBox (bandOf side frame) = true ∧
          overlaps (boxOf islands frame b).toBox (bandOf row frame) = true) ∧
      frame.margin + frame.thickness < frame.height := by
    intro a ha b hb
    obtain ⟨hmema, hedgea⟩ := mem_on.1 ha
    obtain ⟨hmemb, hedgeb⟩ := mem_on.1 hb
    have hheight := hfits.height hmemb (by rw [hedgeb, side_vertical hside])
    obtain ⟨hlow, hhigh⟩ := stretch_inside hfits hmema
    rw [hedgea, row_not_vertical hrow] at hhigh
    rw [boxOf, boxOf, hedgea, hedgeb]
    exact ⟨boxAt_cross_iff hrow hside hlow hhigh (islands.pos a hmema) hheight, hheight⟩
  constructor
  · rintro ⟨a, ha, b, hb, hoverlaps⟩
    obtain ⟨hiff, hheight⟩ := hcross a ha b hb
    obtain ⟨hcorner, hreaches⟩ := hiff.1 hoverlaps
    exact ⟨(row_reaches_iff hfits hrow hside hheight).1 ⟨a, ha, hcorner⟩, b, hb, hreaches⟩
  · rintro ⟨htaken, b, hb, hreaches⟩
    obtain ⟨hmemb, hedgeb⟩ := mem_on.1 hb
    have hheight := hfits.height hmemb (by rw [hedgeb, side_vertical hside])
    obtain ⟨a, ha, hcorner⟩ := (row_reaches_iff hfits hrow hside hheight).2 htaken
    exact ⟨a, ha, b, hb, (hcross a ha b hb).1.2 ⟨hcorner, hreaches⟩⟩

/-- The centred island of a side is too long for what is left between one row and the other's place. -/
def TooLong (islands : Islands) (frame : IslandFrame) (side : Edge) : Prop :=
  ∃ length, laneAt islands side .center = some length ∧ frame.height < length + 3 * (frame.margin + frame.thickness)

theorem side_reaches_iff (hfits : Fits islands frame) (hrow : row = .top ∨ row = .bottom)
    (hside : side = .left ∨ side = .right) (htaken : taken islands frame row side = true) :
    (∃ b ∈ on islands.all side, overlaps (boxOf islands frame b).toBox (bandOf row frame) = true) ↔
      (laneAt islands side (beside row)).isSome = false ∧
        yields islands frame side (if row = .top then .bottom else .top) = true ∧ TooLong islands frame side := by
  have hwidth := taken_width hfits hrow htaken
  have hreach : ∀ b ∈ on islands.all side, (overlaps (boxOf islands frame b).toBox (bandOf row frame) = true ↔
      if row = .top then sidePosition (laneAt islands side) frame (yields islands frame side .top)
        (yields islands frame side .bottom) b.spot.along b.length < frame.margin + frame.thickness
      else frame.height - frame.margin - frame.thickness < sidePosition (laneAt islands side) frame
        (yields islands frame side .top) (yields islands frame side .bottom) b.spot.along b.length + b.length) := by
    intro b hb
    obtain ⟨hmem, hedge⟩ := mem_on.1 hb
    obtain ⟨hlow, hhigh⟩ := stretch_inside hfits hmem
    rw [hedge, side_vertical hside] at hhigh
    rw [← startIn_sideSpan hedge, ← spanOf_side hside, ← hedge, ← stretch, boxOf, hedge]
    exact boxAt_row_iff hrow hside hlow hhigh (islands.pos b hmem) hwidth
  rw [exists_congr fun b ↦ and_congr_right fun hb ↦ hreach b hb]
  by_cases hsome : ∃ b, b ∈ on islands.all side
  · obtain ⟨b, hb⟩ := hsome
    obtain ⟨hmem, hedge⟩ := mem_on.1 hb
    have hbetween := hfits.between hmem (by rw [hedge, side_vertical hside])
    rw [hedge] at hbetween
    have hlong := laneAt_long islands side
    rcases hrow with rfl | rfl
    · simp only [if_true]
      refine exists_on.trans (hbetween.top_iff hlong ?_)
      rw [yields, htaken, Bool.true_and]
      rfl
    · simp only [reduceCtorEq, if_false]
      refine exists_on.trans (hbetween.bottom_iff hlong ?_)
      rw [yields, htaken, Bool.true_and]
      rfl
  · refine iff_of_false (fun ⟨b, hb, _⟩ ↦ hsome ⟨b, hb⟩) ?_
    rintro ⟨-, -, length, hlength, -⟩
    exact hsome ⟨_, mem_on.2 ⟨laneAt_eq_some_iff.1 hlength, rfl⟩⟩

theorem stuck_iff (side : Edge) : stuck islands frame side = true ↔
    taken islands frame .top side = true ∧ taken islands frame .bottom side = true ∧
      (laneAt islands side .start).isSome ≠ (laneAt islands side .end_).isSome ∧ TooLong islands frame side := by
  simp only [stuck, TooLong, Bool.and_eq_true, bne_iff_ne, Option.any_eq_true, decide_eq_true_eq, and_assoc]

/-- **What a side's islands run into**: nothing, unless the centred one is stuck. -/
theorem crosses_iff (hfits : Fits islands frame) (hside : side = .left ∨ side = .right) :
    (∃ row, (row = Edge.top ∨ row = .bottom) ∧ ∃ a ∈ on islands.all row, ∃ b ∈ on islands.all side,
        overlaps (boxOf islands frame a).toBox (boxOf islands frame b).toBox = true) ↔
      stuck islands frame side = true := by
  rw [stuck_iff]
  constructor
  · rintro ⟨row, hrow, hcross⟩
    obtain ⟨htaken, hreaches⟩ := (cross_iff hfits hrow hside).1 hcross
    obtain ⟨hnone, hyields, hlong⟩ := (side_reaches_iff hfits hrow hside htaken).1 hreaches
    rcases hrow with rfl | rfl
    · obtain ⟨htaken', hsome⟩ := (Bool.and_eq_true _ _).mp hyields
      exact ⟨htaken, htaken', by rw [show (laneAt islands side .start).isSome = false from hnone,
        show (laneAt islands side .end_).isSome = true from hsome]; exact Bool.false_ne_true, hlong⟩
    · obtain ⟨htaken', hsome⟩ := (Bool.and_eq_true _ _).mp hyields
      exact ⟨htaken', htaken, by rw [show (laneAt islands side .start).isSome = true from hsome,
        show (laneAt islands side .end_).isSome = false from hnone]; exact Bool.false_ne_true.symm, hlong⟩
  · rintro ⟨htop, hbottom, hne, hlong⟩
    cases hstart : (laneAt islands side .start).isSome with
    | false =>
      rw [hstart] at hne
      refine ⟨.top, .inl rfl, (cross_iff hfits (.inl rfl) hside).2 ⟨htop, ?_⟩⟩
      refine (side_reaches_iff hfits (.inl rfl) hside htop).2 ⟨hstart, ?_, hlong⟩
      exact (Bool.and_eq_true _ _).mpr ⟨hbottom, Bool.eq_true_of_not_eq_false hne.symm⟩
    | true =>
      rw [hstart] at hne
      refine ⟨.bottom, .inr rfl, (cross_iff hfits (.inr rfl) hside).2 ⟨hbottom, ?_⟩⟩
      refine (side_reaches_iff hfits (.inr rfl) hside hbottom).2 ⟨?_, ?_, hlong⟩
      · exact (Bool.eq_false_iff.2 fun h ↦ hne h.symm)
      · exact (Bool.and_eq_true _ _).mpr ⟨htop, hstart⟩

theorem inside_iff (hfits : Fits islands frame) (h : island ∈ islands.all) :
    (0 ≤ (boxOf islands frame island).x ∧
        (boxOf islands frame island).x + (boxOf islands frame island).width ≤ frame.width ∧
        0 ≤ (boxOf islands frame island).y ∧
        (boxOf islands frame island).y + (boxOf islands frame island).height ≤ frame.height) ↔
      frame.margin + frame.thickness ≤ if island.spot.edge.isVertical then frame.width else frame.height := by
  obtain ⟨hlow, hhigh⟩ := stretch_inside hfits h
  have ht := frame.thickness_pos
  have hm := frame.margin_nonneg
  rw [boxOf]
  generalize stretch islands frame island = start at hlow hhigh ⊢
  generalize island.spot.edge = edge at hlow hhigh ⊢
  cases edge <;> cases hdirection : frame.rightToLeft
  all_goals
    simp only [boxAt, bandOf, Edge.isVertical, hdirection, reduceCtorEq, decide_true, decide_false,
      Bool.or_self, Bool.or_false, Bool.or_true, Bool.false_eq_true, if_true, if_false] at hhigh ⊢
    constructor
    · rintro ⟨h₁, h₂, h₃, h₄⟩
      linarith
    · intro h
      exact ⟨by linarith, by linarith, by linarith, by linarith⟩

/-- The layout is as it should be when all boxes are on the screen and no two islands' boxes meet. -/
theorem separate_iff (hfits : Fits islands frame) : Separate islands frame (layIslands islands.all frame) ↔
    (∀ a ∈ islands.all, ∀ b ∈ islands.all, a ≠ b →
      overlaps (boxOf islands frame a).toBox (boxOf islands frame b).toBox = false) ∧
    ∀ island ∈ islands.all,
      frame.margin + frame.thickness ≤ if island.spot.edge.isVertical then frame.width else frame.height := by
  have hsymm : Std.Symm fun a b : Sized ↦
      overlaps (boxOf islands frame a).toBox (boxOf islands frame b).toBox = false :=
    ⟨fun a b h ↦ by rwa [overlaps_comm]⟩
  have hmem : ∀ {island}, island ∈ islands.all → boxOf islands frame island ∈ layIslands islands.all frame := by
    intro island h
    rw [layIslands_eq hfits]
    exact List.mem_map_of_mem (mem_inOrder.2 h)
  constructor
  · rintro ⟨-, -, hapart, hinside⟩
    rw [layIslands_eq hfits, List.pairwise_map] at hapart
    exact ⟨fun a ha b hb hne ↦ hapart.forall (mem_inOrder.2 ha) (mem_inOrder.2 hb) hne,
      fun island h ↦ (inside_iff hfits h).1 (hinside _ (hmem h))⟩
  · rintro ⟨hapart, hinside⟩
    rw [layIslands_eq hfits]
    refine ⟨?_, ?_, ?_, ?_⟩
    · rw [List.map_map]
      have hself : (IslandBox.island ∘ boxOf islands frame) = id := by
        funext island
        obtain ⟨⟨edge, along⟩, length⟩ := island
        cases edge <;> rfl
      rw [hself, List.map_id]
      exact perm_inOrder islands
    · intro box hbox
      obtain ⟨island, -, rfl⟩ := List.mem_map.1 hbox
      obtain ⟨⟨edge, along⟩, length⟩ := island
      cases edge <;> rfl
    · rw [List.pairwise_map]
      exact (nodup_inOrder islands).pairwise_of_forall_ne fun a ha b hb hne ↦
        hapart a (mem_inOrder.1 ha) b (mem_inOrder.1 hb) hne
    · intro box hbox
      obtain ⟨island, hisland, rfl⟩ := List.mem_map.1 hbox
      exact (inside_iff hfits (mem_inOrder.1 hisland)).2 (hinside island (mem_inOrder.1 hisland))

theorem edge_cases (edge edge' : Edge) : edge' = edge ∨ edge' = edge.opposite ∨
    ((edge = .top ∨ edge = .bottom) ∧ (edge' = .left ∨ edge' = .right)) ∨
      ((edge' = .top ∨ edge' = .bottom) ∧ (edge = .left ∨ edge = .right)) := by
  cases edge <;> cases edge' <;> simp [Edge.opposite]

theorem Edge.ne_opposite (edge : Edge) : edge.opposite ≠ edge := by
  cases edge <;> simp [Edge.opposite]

/-- **Separate islands are apart** and on the screen exactly where none is stuck and the screen is large enough. -/
theorem layIslands_iff (islands : Islands) (frame : IslandFrame) (hfits : Fits islands frame) :
    Separate islands frame (layIslands islands.all frame) ↔ Clear islands frame := by
  have hfree : ∀ side, side = .left ∨ side = .right → (stuck islands frame side = false ↔
      ∀ row, (row = Edge.top ∨ row = .bottom) → ∀ a ∈ on islands.all row, ∀ b ∈ on islands.all side,
        overlaps (boxOf islands frame a).toBox (boxOf islands frame b).toBox = false) := by
    intro side hside
    rw [Bool.eq_false_iff, ne_eq, ← crosses_iff hfits hside]
    simp only [not_exists, not_and, Bool.not_eq_true]
  rw [separate_iff hfits]
  constructor
  · rintro ⟨hapart, hinside⟩
    have hside : ∀ side, side = .left ∨ side = .right → stuck islands frame side = false := by
      intro side hside
      refine (hfree side hside).2 fun row hrow a ha b hb ↦ ?_
      obtain ⟨hmema, hedgea⟩ := mem_on.1 ha
      obtain ⟨hmemb, hedgeb⟩ := mem_on.1 hb
      refine hapart a hmema b hmemb ?_
      rintro rfl
      have hsame := (row_not_vertical hrow).symm.trans (hedgea ▸ hedgeb ▸ side_vertical hside)
      cases hsame
    refine ⟨⟨hside _ (.inl rfl), hside _ (.inr rfl)⟩, hinside, fun a ha b hb hedge hbands ↦ ?_⟩
    have hne : a ≠ b := by
      rintro rfl
      exact a.spot.edge.ne_opposite hedge.symm
    rw [Bool.eq_false_iff]
    intro hmeets
    have hoverlaps := (opposite_overlaps_iff hfits ha hedge).2 ⟨hbands, hmeets⟩
    rw [hapart a ha b hb hne] at hoverlaps
    cases hoverlaps
  · rintro ⟨⟨hleft, hright⟩, hinside, hopposite⟩
    refine ⟨fun a ha b hb hne ↦ ?_, hinside⟩
    have hside : ∀ side, side = .left ∨ side = .right → stuck islands frame side = false := by
      rintro side (rfl | rfl)
      · exact hleft
      · exact hright
    rcases edge_cases a.spot.edge b.spot.edge with hedge | hedge | ⟨hrow, hside'⟩ | ⟨hrow, hside'⟩
    · exact apart_of_same_edge hfits ha hb hne hedge
    · rw [Bool.eq_false_iff]
      intro hoverlaps
      obtain ⟨hbands, hmeets⟩ := (opposite_overlaps_iff hfits ha hedge).1 hoverlaps
      rw [hopposite a ha b hb hedge hbands] at hmeets
      cases hmeets
    · exact (hfree _ hside').1 (hside _ hside') _ hrow a (mem_on.2 ⟨ha, rfl⟩) b (mem_on.2 ⟨hb, rfl⟩)
    · rw [overlaps_comm]
      exact (hfree _ hside').1 (hside _ hside') _ hrow b (mem_on.2 ⟨hb, rfl⟩) a (mem_on.2 ⟨ha, rfl⟩)

/-- Both corners at the left are taken, and a short island at the left's start makes way. -/
def cornered : Islands where
  all := [⟨⟨.top, .start⟩, 100⟩, ⟨⟨.bottom, .start⟩, 100⟩, ⟨⟨.left, .start⟩, 20⟩, ⟨⟨.left, .center⟩, 740⟩]
  nodup := by simp
  pos := by simp

def screen : IslandFrame := ⟨1440, 900, 48, 8, false, by norm_num, by norm_num⟩

theorem fits_cornered : Fits cornered screen := by
  rw [Fits]
  decide +kernel

theorem cornered_meet :
    ¬ (layIslands cornered.all screen).Pairwise fun a b ↦ overlaps a.toBox b.toBox = false := by
  decide +kernel

theorem layIslands_iff_cornered : Fits cornered screen ∧ ¬ Clear cornered screen :=
  ⟨fits_cornered, fun h ↦ cornered_meet ((layIslands_iff _ _ fits_cornered).2 h).apart⟩

theorem islands_overlap : ¬ ∀ (islands : Islands) (frame : IslandFrame), Fits islands frame →
    Separate islands frame (layIslands islands.all frame) := fun h ↦
  cornered_meet (h cornered screen fits_cornered).apart

/-- On a screen with room for two bands beside each other both ways, all that can go wrong is that an island is
stuck. -/
theorem clear_iff_of_wide (hwide : 2 * (frame.margin + frame.thickness) ≤ frame.width)
    (hhigh : 2 * (frame.margin + frame.thickness) ≤ frame.height) :
    Clear islands frame ↔ stuck islands frame .left = false ∧ stuck islands frame .right = false := by
  have ht := frame.thickness_pos
  have hm := frame.margin_nonneg
  refine ⟨fun h ↦ h.free, fun h ↦ ⟨h, fun island _ ↦ ?_, fun a _ b _ hedge hbands ↦ ?_⟩⟩
  · split <;> linarith
  · exfalso
    rw [hedge, overlaps_iff] at hbands
    generalize a.spot.edge = edge at hbands
    obtain ⟨h₁, h₂, h₃, h₄⟩ := hbands
    cases edge <;> simp only [bandOf, Edge.opposite] at h₁ h₂ h₃ h₄ <;> linarith

end

end Taskbar
