import Luft.Taskbar.Arrangement
import Mathlib.Data.Rat.Defs
import Mathlib.Algebra.Order.Field.Rat
import Mathlib.Tactic.Linarith

/-!
# Where islands go on a screen

Separate islands are laid out along the four edges of a screen.  Those of the top and the bottom keep the corners;
the edges at the sides are laid out over their full length first, and again in what is left of it where one of
their islands would run into one at the top or the bottom.
-/

set_option autoImplicit false

namespace Taskbar

structure Box where
  x : ℚ
  y : ℚ
  width : ℚ
  height : ℚ
  deriving DecidableEq

structure Span where
  start : ℚ
  end_ : ℚ
  deriving DecidableEq

structure Placed where
  along : Along
  length : ℚ
  deriving DecidableEq

/-- What one item makes of the ends of the room for a centred one. -/
def narrowed (span : Span) (gap : ℚ) (ends : Span) (item : Placed) : Span :=
  match item.along with
  | .start => { ends with start := max ends.start (span.start + item.length + gap) }
  | .end_ => { ends with end_ := min ends.end_ (span.end_ - item.length - gap) }
  | .center => ends

/-- Where islands go along a span: at its start, at its end, and centred on `middle` between them. -/
def placeAlong (span : Span) (items : List Placed) (gap middle : ℚ) : List ℚ :=
  let ends := items.foldl (narrowed span gap) span
  items.map fun item ↦
    match item.along with
    | .start => span.start
    | .end_ => span.end_ - item.length
    | .center => max ends.start (min (middle - item.length / 2) (ends.end_ - item.length))

structure IslandFrame where
  width : ℚ
  height : ℚ
  thickness : ℚ
  /-- Space between the screen edge and the islands, and between neighbouring islands. -/
  margin : ℚ
  rightToLeft : Bool
  thickness_pos : 0 < thickness
  margin_nonneg : 0 ≤ margin

/-- An island to lay out: where it sits, and how long it is. -/
structure Sized where
  spot : Spot
  length : ℚ
  deriving DecidableEq

structure IslandBox extends Box where
  spot : Spot
  edge : Edge
  deriving DecidableEq

structure Corner where
  horizontal : Edge
  vertical : Edge
  deriving DecidableEq

def CORNERS : List Corner :=
  [Edge.top, Edge.bottom].flatMap fun horizontal ↦ [Edge.left, Edge.right].map fun vertical ↦ ⟨horizontal, vertical⟩

def bandOf (edge : Edge) (frame : IslandFrame) : Box :=
  match edge with
  | .bottom => ⟨0, frame.height - frame.margin - frame.thickness, frame.width, frame.thickness⟩
  | .top => ⟨0, frame.margin, frame.width, frame.thickness⟩
  | .left => ⟨frame.margin, 0, frame.thickness, frame.height⟩
  | .right => ⟨frame.width - frame.margin - frame.thickness, 0, frame.thickness, frame.height⟩

def overlaps (a b : Box) : Bool :=
  a.x < b.x + b.width && b.x < a.x + a.width && a.y < b.y + b.height && b.y < a.y + a.height

/-- The box of an island that begins at `start` along its edge. -/
def boxAt (edge : Edge) (frame : IslandFrame) (island : Sized) (start : ℚ) : IslandBox :=
  let band := bandOf edge frame
  if edge.isVertical then ⟨⟨band.x, start, band.width, island.length⟩, island.spot, edge⟩
  else
    ⟨⟨if frame.rightToLeft then frame.width - start - island.length else start, band.y, island.length, band.height⟩,
      island.spot, edge⟩

def layEdge (edge : Edge) (islands : List Sized) (span : Span) (frame : IslandFrame) : List IslandBox :=
  let starts := placeAlong span (islands.map fun island ↦ ⟨island.spot.along, island.length⟩) frame.margin
    ((span.start + span.end_) / 2)
  (islands.zip starts).map fun laid ↦ boxAt edge frame laid.1 laid.2

/-- The islands of an edge. -/
def on (islands : List Sized) (edge : Edge) : List Sized := islands.filter (·.spot.edge = edge)

def full (frame : IslandFrame) (edge : Edge) : Span :=
  ⟨frame.margin, (if edge.isVertical then frame.height else frame.width) - frame.margin⟩

/-- An island of the row stands in the corner, and one of the column that would run into the row. -/
def crowded (frame : IslandFrame) (boxes first : List IslandBox) (corner : Corner) : Bool :=
  let row := bandOf corner.horizontal frame
  let column := bandOf corner.vertical frame
  boxes.any (fun box ↦ box.edge = corner.horizontal && overlaps box.toBox column) &&
    first.any fun box ↦ overlaps box.toBox row

/-- What is left of a side's length. -/
def spanLeft (islands : List Sized) (frame : IslandFrame) (boxes : List IslandBox) (edge : Edge) : Span :=
  let first := layEdge edge (on islands edge) (full frame edge) frame
  CORNERS.foldl (fun span corner ↦
    if corner.vertical ≠ edge then span
    else if !crowded frame boxes first corner then span
    else
      let row := bandOf corner.horizontal frame
      if corner.horizontal = .top then { span with start := row.y + row.height + frame.margin }
      else { span with end_ := row.y - frame.margin }) (full frame edge)

def layIslands (islands : List Sized) (frame : IslandFrame) : List IslandBox :=
  let rows := [Edge.top, Edge.bottom].flatMap fun edge ↦ layEdge edge (on islands edge) (full frame edge) frame
  [Edge.left, Edge.right].foldl (fun boxes edge ↦
    boxes ++ layEdge edge (on islands edge) (spanLeft islands frame boxes edge) frame) rows

/-! ## Stretches of an edge -/

/-- How long the island is at each place along an edge, where there is one. -/
abbrev Lane := Along → Option ℚ

/-- What an island takes of its edge, with the space behind it. -/
def need (lane : Lane) (gap : ℚ) (along : Along) : ℚ := (lane along).elim 0 (· + gap)

/-- Where an island begins along a span. -/
def position (lane : Lane) (span : Span) (gap middle : ℚ) (along : Along) (length : ℚ) : ℚ :=
  match along with
  | .start => span.start
  | .end_ => span.end_ - length
  | .center => max (span.start + need lane gap .start)
      (min (middle - length / 2) (span.end_ - need lane gap .end_ - length))

/-- The islands and the space between them are no longer than the span. -/
def Roomy (lane : Lane) (span : Span) (gap : ℚ) : Prop :=
  need lane gap .start + need lane gap .center + need lane gap .end_ ≤ span.end_ - span.start + gap

/-- Islands have a length. -/
def Long (lane : Lane) : Prop := ∀ along length, lane along = some length → 0 < length

variable {lane : Lane} {span : Span} {gap middle length length' : ℚ} {along along' : Along}

@[simp] theorem need_of_some (h : lane along = some length) : need lane gap along = length + gap := by
  rw [need, h, Option.elim_some]

@[simp] theorem need_of_none (h : lane along = none) : need lane gap along = 0 := by
  rw [need, h, Option.elim_none]

theorem need_nonneg (hlong : Long lane) (hgap : 0 ≤ gap) (along : Along) : 0 ≤ need lane gap along := by
  cases h : lane along with
  | none => rw [need_of_none h]
  | some length =>
    have := hlong along length h
    rw [need_of_some h]
    linarith

theorem center_bounds (middle : ℚ) (hroom : Roomy lane span gap) (h : lane .center = some length) :
    span.start + need lane gap .start ≤ position lane span gap middle .center length ∧
      position lane span gap middle .center length + length ≤ span.end_ - need lane gap .end_ := by
  rw [Roomy, need_of_some h] at hroom
  constructor
  · exact le_max_left _ _
  · have hle : position lane span gap middle .center length ≤ span.end_ - need lane gap .end_ - length :=
      max_le (by linarith) (min_le_right _ _)
    linarith

/-- An island stays in the span. -/
theorem position_inside (middle : ℚ) (hlong : Long lane) (hgap : 0 ≤ gap) (hroom : Roomy lane span gap)
    (h : lane along = some length) :
    span.start ≤ position lane span gap middle along length ∧
      position lane span gap middle along length + length ≤ span.end_ := by
  have hstart := need_nonneg hlong hgap .start
  have hcenter := need_nonneg hlong hgap .center
  have hend := need_nonneg hlong hgap .end_
  cases along with
  | start =>
    rw [Roomy, need_of_some h] at hroom
    refine ⟨le_rfl, ?_⟩
    rw [position]
    linarith
  | center =>
    obtain ⟨hlow, hhigh⟩ := center_bounds middle hroom h
    constructor <;> linarith
  | end_ =>
    rw [Roomy, need_of_some h] at hroom
    rw [position]
    constructor <;> linarith

/-- How far along an edge an island sits. -/
def Along.rank : Along → ℕ
  | .start => 0
  | .center => 1
  | .end_ => 2

theorem position_before (hlong : Long lane) (hgap : 0 ≤ gap) (hroom : Roomy lane span gap)
    (h : lane along = some length) (h' : lane along' = some length') (hlt : along.rank < along'.rank) :
    position lane span gap middle along length + length + gap ≤ position lane span gap middle along' length' := by
  have hstart := need_nonneg hlong hgap .start
  have hcenter := need_nonneg hlong hgap .center
  have hend := need_nonneg hlong hgap .end_
  cases along with
  | start =>
    cases along' with
    | start => cases hlt
    | center =>
      have hlow := (center_bounds middle hroom h').1
      rw [need_of_some h] at hlow
      rw [position]
      linarith
    | end_ =>
      rw [Roomy, need_of_some h, need_of_some h'] at hroom
      rw [position, position]
      linarith
  | center =>
    cases along' with
    | end_ =>
      have hhigh := (center_bounds middle hroom h).2
      rw [need_of_some h'] at hhigh
      rw [show position lane span gap middle .end_ length' = span.end_ - length' from rfl]
      linarith
    | start => simp [Along.rank] at hlt
    | center => simp [Along.rank] at hlt
  | end_ => cases along' <;> simp [Along.rank] at hlt

/-- Two islands of an edge do not meet, and there is a gap between them. -/
theorem position_apart (hlong : Long lane) (hgap : 0 ≤ gap) (hroom : Roomy lane span gap)
    (h : lane along = some length) (h' : lane along' = some length') (hne : along ≠ along') :
    position lane span gap middle along length + length + gap ≤ position lane span gap middle along' length' ∨
      position lane span gap middle along' length' + length' + gap ≤ position lane span gap middle along length := by
  rcases Nat.lt_trichotomy along.rank along'.rank with hlt | heq | hlt
  · exact .inl (position_before hlong hgap hroom h h' hlt)
  · cases along <;> cases along' <;> first | exact absurd rfl hne | cases heq
  · exact .inr (position_before hlong hgap hroom h' h hlt)

/-! ## What is placed along a span -/

def laneOf (items : List Placed) : Lane := fun along ↦ (items.find? (·.along = along)).map (·.length)

theorem laneOf_cons_self (item : Placed) (items : List Placed) :
    laneOf (item :: items) item.along = some item.length := by
  simp [laneOf]

theorem laneOf_cons_of_ne {item : Placed} {items : List Placed} (h : item.along ≠ along) :
    laneOf (item :: items) along = laneOf items along := by
  rw [laneOf, List.find?_cons_of_neg (by simpa using h)]
  rfl

theorem laneOf_of_not_mem {items : List Placed} (h : along ∉ items.map (·.along)) : laneOf items along = none := by
  rw [laneOf, Option.map_eq_none_iff, List.find?_eq_none]
  intro item hitem hsame
  exact h (List.mem_map.2 ⟨item, hitem, by simpa using hsame⟩)

theorem foldl_narrowed {items : List Placed} (hnodup : (items.map (·.along)).Nodup) (ends : Span) :
    items.foldl (narrowed span gap) ends =
      ⟨(laneOf items .start).elim ends.start fun length ↦ max ends.start (span.start + length + gap),
        (laneOf items .end_).elim ends.end_ fun length ↦ min ends.end_ (span.end_ - length - gap)⟩ := by
  induction items generalizing ends with
  | nil => rfl
  | cons item items ih =>
    rw [List.map_cons, List.nodup_cons] at hnodup
    obtain ⟨hnot, hnodup⟩ := hnodup
    have hself := laneOf_cons_self item items
    have hnone := laneOf_of_not_mem hnot
    rw [List.foldl_cons, ih hnodup, narrowed]
    obtain ⟨along, length⟩ := item
    cases along with
    | start =>
      rw [hself, laneOf_cons_of_ne (by simp : Along.start ≠ .end_), hnone]
      rfl
    | center =>
      rw [laneOf_cons_of_ne (by simp : Along.center ≠ .start), laneOf_cons_of_ne (by simp : Along.center ≠ .end_)]
    | end_ =>
      rw [hself, laneOf_cons_of_ne (by simp : Along.end_ ≠ .start), hnone]
      rfl

/-- **Placing along a span**: with one item at each place, the ends and the middle are what is needed there. -/
theorem placeAlong_eq {items : List Placed} (span : Span) (middle : ℚ) (hnodup : (items.map (·.along)).Nodup) (hlong : Long (laneOf items))
    (hgap : 0 ≤ gap) : placeAlong span items gap middle =
      items.map fun item ↦ position (laneOf items) span gap middle item.along item.length := by
  have hends : items.foldl (narrowed span gap) span =
      ⟨span.start + need (laneOf items) gap .start, span.end_ - need (laneOf items) gap .end_⟩ := by
    rw [foldl_narrowed hnodup]
    congr 1
    · cases h : laneOf items .start with
      | none => rw [need_of_none h, Option.elim_none, add_zero]
      | some length =>
        have := hlong .start length h
        rw [need_of_some h, Option.elim_some, max_eq_right (by linarith), add_assoc]
    · cases h : laneOf items .end_ with
      | none => rw [need_of_none h, Option.elim_none, sub_zero]
      | some length =>
        have := hlong .end_ length h
        rw [need_of_some h, Option.elim_some, min_eq_right (by linarith), sub_sub]
  rw [placeAlong]
  refine List.map_congr_left fun item _ ↦ ?_
  rw [hends]
  obtain ⟨along, length⟩ := item
  cases along <;> rfl

/-! ## The islands of an edge -/

/-- At most one island sits at a spot, and each has a length. -/
structure Islands where
  all : List Sized
  nodup : (all.map (·.spot)).Nodup
  pos : ∀ island ∈ all, 0 < island.length

/-- How long the islands of an edge are. -/
def laneAt (islands : Islands) (edge : Edge) : Lane := fun along ↦
  (islands.all.find? (·.spot = ⟨edge, along⟩)).map (·.length)

variable {islands : Islands} {island : Sized} {edge : Edge} {frame : IslandFrame}

theorem laneAt_eq_some_iff : laneAt islands edge along = some length ↔ ⟨⟨edge, along⟩, length⟩ ∈ islands.all := by
  rw [laneAt, Option.map_eq_some_iff]
  constructor
  · rintro ⟨⟨spot, found⟩, hfound, rfl⟩
    have hspot : spot = ⟨edge, along⟩ := by simpa using List.find?_some hfound
    rw [← hspot]
    exact List.mem_of_find?_eq_some hfound
  · intro hmem
    cases hfound : islands.all.find? (·.spot = ⟨edge, along⟩) with
    | none => exact absurd (List.find?_eq_none.1 hfound _ hmem) (by simp)
    | some found =>
      have hspot : found.spot = ⟨edge, along⟩ := by simpa using List.find?_some hfound
      have hsame := List.inj_on_of_nodup_map islands.nodup (List.mem_of_find?_eq_some hfound) hmem hspot
      exact ⟨found, rfl, by rw [hsame]⟩

theorem laneAt_of_mem (h : island ∈ islands.all) :
    laneAt islands island.spot.edge island.spot.along = some island.length :=
  laneAt_eq_some_iff.2 h

theorem laneAt_long (islands : Islands) (edge : Edge) : Long (laneAt islands edge) := fun _ _ h ↦
  islands.pos _ (laneAt_eq_some_iff.1 h)

/-- What is placed along an edge. -/
def placedOf (island : Sized) : Placed := ⟨island.spot.along, island.length⟩

theorem mem_on : island ∈ on islands.all edge ↔ island ∈ islands.all ∧ island.spot.edge = edge := by
  rw [on, List.mem_filter, decide_eq_true_iff]

theorem nodup_placed (islands : Islands) (edge : Edge) :
    (((on islands.all edge).map placedOf).map (·.along)).Nodup := by
  rw [List.map_map]
  refine List.Nodup.map_on (fun a ha b hb hsame ↦ ?_) (List.Nodup.filter _ (List.Nodup.of_map _ islands.nodup))
  rw [mem_on] at ha hb
  refine List.inj_on_of_nodup_map islands.nodup ha.1 hb.1 ?_
  have hedge : a.spot.edge = b.spot.edge := ha.2.trans hb.2.symm
  obtain ⟨⟨_, _⟩, _⟩ := a
  obtain ⟨⟨_, _⟩, _⟩ := b
  cases hedge
  cases hsame
  rfl

theorem laneOf_placed (islands : Islands) (edge : Edge) :
    laneOf ((on islands.all edge).map placedOf) = laneAt islands edge := by
  funext along
  have hfind : (on islands.all edge).find? ((fun item ↦ decide (item.along = along)) ∘ placedOf) =
      islands.all.find? (·.spot = ⟨edge, along⟩) := by
    rw [on, List.find?_filter]
    refine congrArg (List.find? · _) (funext fun island ↦ ?_)
    obtain ⟨⟨edge', along'⟩, length⟩ := island
    refine decide_eq_decide.2 ?_
    rw [decide_eq_true_iff, Spot.mk.injEq]
    exact and_congr_right fun _ ↦ decide_eq_true_iff
  rw [laneOf, laneAt, List.find?_map, hfind, Option.map_map]
  rfl

/-- Where an island begins on its edge, in a span. -/
def startIn (islands : Islands) (frame : IslandFrame) (span : Span) (island : Sized) : ℚ :=
  position (laneAt islands island.spot.edge) span frame.margin ((span.start + span.end_) / 2) island.spot.along
    island.length

theorem map_zip_map {α β γ : Type} (f : α → β) (g : α × β → γ) (l : List α) :
    (l.zip (l.map f)).map g = l.map fun x ↦ g (x, f x) := by
  induction l with
  | nil => rfl
  | cons x l ih => rw [List.map_cons, List.zip_cons_cons, List.map_cons, ih, List.map_cons]

theorem layEdge_eq (islands : Islands) (frame : IslandFrame) (span : Span) (edge : Edge) :
    layEdge edge (on islands.all edge) span frame =
      (on islands.all edge).map fun island ↦ boxAt edge frame island (startIn islands frame span island) := by
  have hplaced := placeAlong_eq span ((span.start + span.end_) / 2) (nodup_placed islands edge)
    (laneOf_placed islands edge ▸ laneAt_long islands edge) frame.margin_nonneg
  rw [layEdge]
  rw [show ((on islands.all edge).map fun island ↦ (⟨island.spot.along, island.length⟩ : Placed)) =
    (on islands.all edge).map placedOf from rfl, hplaced, laneOf_placed, List.map_map, map_zip_map]
  refine List.map_congr_left fun island hisland ↦ ?_
  rw [startIn, (mem_on.1 hisland).2]
  rfl

end Taskbar
