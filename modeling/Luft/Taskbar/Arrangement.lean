import Mathlib.Data.List.InsertIdx
import Mathlib.Data.List.Sort

/-!
# Where the taskbar's elements sit

An arrangement is a list of islands, each at one of the twelve spots along the screen's edges.  It is read from
the settings by `parse`, elements that are missing are given a place by `complete`, and people move islands and
elements around with the functions at the end.

Elements are names.  The homes of the built-in ones are kept in an object, which answers to the names every
object inherits too: `INHERITED`.  Such an answer has no neighbours to go through, which throws, so `place` is
`none` there, as it is where no spot is free and the island would be put at no spot.
-/

set_option autoImplicit false

namespace Taskbar

inductive Edge
  | bottom
  | left
  | top
  | right
  deriving DecidableEq

inductive Along
  | start
  | center
  | end_
  deriving DecidableEq

structure Spot where
  edge : Edge
  along : Along
  deriving DecidableEq

/-- A group of taskbar elements that sits together at one of the twelve spots. -/
structure Island where
  spot : Spot
  elements : List String
  deriving DecidableEq

abbrev Arrangement := List Island

def EDGES : List Edge := [.bottom, .left, .top, .right]

def ALONGS : List Along := [.start, .center, .end_]

def SPOTS : List Spot := EDGES.flatMap fun edge ↦ ALONGS.map fun along ↦ ⟨edge, along⟩

def SYSTEM_ELEMENTS : List String := ["tray", "status", "clock"]

def BUILT_IN_ELEMENTS : List String := ["start", "dock"] ++ SYSTEM_ELEMENTS

def DEFAULT_ARRANGEMENT : Arrangement :=
  [⟨⟨.bottom, .center⟩, ["start", "dock"]⟩, ⟨⟨.bottom, .end_⟩, SYSTEM_ELEMENTS⟩]

def Edge.name : Edge → String
  | .bottom => "bottom"
  | .left => "left"
  | .top => "top"
  | .right => "right"

def Along.name : Along → String
  | .start => "start"
  | .center => "center"
  | .end_ => "end"

def Spot.name (spot : Spot) : String := spot.edge.name ++ "-" ++ spot.along.name

def Edge.isVertical (edge : Edge) : Bool := edge = .left || edge = .right

/-- The spot a stored name stands for, if it is one. -/
def spotOf (name : String) : Option Spot := SPOTS.find? (·.name = name)

/-- Every element with the island it is in, island by island. -/
def elementsOf (a : Arrangement) : List String := a.flatMap Island.elements

def islandAt (a : Arrangement) (spot : Spot) : Option Island := a.find? (·.spot = spot)

def islandOf (a : Arrangement) (element : String) : Option Island := a.find? (·.elements.contains element)

/-- The edge the dock sits on, which a taskbar joined into one bar runs along. -/
def mainEdge (a : Arrangement) : Edge :=
  match (islandOf a "dock").or a.head? with
  | some island => island.spot.edge
  | none => .bottom

/-- The list with the first entry that `find?` would find changed. -/
def changeFirst {α : Type} (p : α → Bool) (f : α → α) : List α → List α
  | [] => []
  | x :: xs => if p x then f x :: xs else x :: changeFirst p f xs

/-! ## Reading a stored arrangement -/

/-- An island's stored elements, but for those already placed. -/
def takeNew (placed : List String) (island elements : List String) : List String × List String :=
  elements.foldl
    (fun (placed, island) element ↦
      if placed.contains element then (placed, island) else (element :: placed, island ++ [element]))
    (placed, island)

/-- A map's entry set, where it was if there was one. -/
def setAt (islands : List Island) (spot : Spot) (elements : List String) : List Island :=
  match islandAt islands spot with
  | some _ => changeFirst (·.spot = spot) (fun island ↦ { island with elements }) islands
  | none => islands ++ [⟨spot, elements⟩]

def parseIsland : List String × List Island → String × List String → List String × List Island
  | (placed, islands), (name, elements) =>
    match spotOf name with
    | none => (placed, islands)
    | some spot =>
      let island := ((islandAt islands spot).map Island.elements).getD []
      let (placed, island) := takeNew placed island elements
      (placed, setAt islands spot island)

/-- Reads a stored arrangement: one island per spot, each element once, without empty islands. -/
def parseArrangement (stored : List (String × List String)) : Arrangement :=
  (stored.foldl parseIsland ([], [])).2.filter fun island ↦ !island.elements.isEmpty

/-! ## Elements that are missing -/

/-- The neighbours an element goes beside, and on which side of them. -/
structure Home where
  beside : List String
  after : Bool

def EXTENSION_HOME : Home := ⟨SYSTEM_ELEMENTS, false⟩

/-- What every object has under these names. -/
def INHERITED : List String :=
  ["constructor", "__defineGetter__", "__defineSetter__", "hasOwnProperty", "__lookupGetter__",
    "__lookupSetter__", "isPrototypeOf", "propertyIsEnumerable", "toString", "valueOf", "__proto__",
    "toLocaleString"]

def homeOf (element : String) : Home :=
  match element with
  | "start" => ⟨["dock"], false⟩
  | "dock" => ⟨["start"], true⟩
  | "tray" => ⟨["status", "clock"], false⟩
  | "status" => ⟨["tray", "clock"], true⟩
  | "clock" => ⟨["status", "tray"], true⟩
  | _ => EXTENSION_HOME

def firstFreeSpot (a : Arrangement) (preferred : Spot) : Option Spot :=
  ([preferred] ++ ALONGS.map (fun along ↦ (⟨mainEdge a, along⟩ : Spot)) ++ SPOTS).find?
    fun spot ↦ (islandAt a spot).isNone

/-- Where an island of its own for an element would go. -/
def preferredSpot (element : String) : Spot :=
  match DEFAULT_ARRANGEMENT.find? (·.elements.contains element) with
  | some island => island.spot
  | none => ⟨.bottom, .end_⟩

def place (a : Arrangement) (element : String) : Option Arrangement :=
  if INHERITED.contains element then none
  else
    match (homeOf element).beside.find? fun neighbour ↦ (islandOf a neighbour).isSome with
    | some neighbour =>
      some (changeFirst (·.elements.contains neighbour)
        (fun island ↦
          { island with
            elements := island.elements.insertIdx
              (island.elements.idxOf neighbour + if (homeOf element).after then 1 else 0) element }) a)
    | none => (firstFreeSpot a (preferredSpot element)).map fun spot ↦ a ++ [⟨spot, [element]⟩]

/-- Gives every element that's missing from the arrangement a place next to its neighbours, such as an
extension's next to the tray. -/
def completeArrangement (a : Arrangement) (elements : List String) : Option Arrangement :=
  elements.foldlM
    (fun complete element ↦
      if (islandOf complete element).isSome then some complete else place complete element) a

/-- Only the elements that are there, such as those of extensions that run. -/
def presentIn (a : Arrangement) (present : String → Bool) : Arrangement :=
  (a.map fun island ↦ { island with elements := island.elements.filter present }).filter
    fun island ↦ !island.elements.isEmpty

/-- A taskbar joined into one bar along `edge` keeps each island's place along its own edge, those already on
`edge` first. -/
def joinedGroups (a : Arrangement) (edge : Edge) (along : Along) : List String :=
  let order := edge :: EDGES.filter (· ≠ edge)
  let islands := a.mergeSort fun x y ↦ order.idxOf x.spot.edge ≤ order.idxOf y.spot.edge
  (islands.filter (·.spot.along = along)).flatMap Island.elements

/-! ## Editing -/

/-- Moves an island to another spot, trading places with the island already there. -/
def moveIsland (a : Arrangement) (origin target : Spot) : Arrangement :=
  if origin = target ∨ (islandAt a origin).isNone then a
  else
    a.map fun island ↦
      if island.spot = origin then { island with spot := target }
      else if island.spot = target then { island with spot := origin }
      else island

/-- An index among the elements of an island, which may be the infinite one. -/
def indexWithin (index : Option ℤ) (length : ℕ) : ℕ :=
  match index with
  | some index => (max 0 (min index length)).toNat
  | none => length

/-- Moves an element into the island at `spot`, at `index` among that island's other elements, or into an island
of its own when the spot is free. -/
def moveElement (a : Arrangement) (element : String) (spot : Spot) (index : Option ℤ) : Arrangement :=
  if (islandOf a element).isNone then a
  else
    let without := presentIn a (· != element)
    match islandAt without spot with
    | none => without ++ [⟨spot, [element]⟩]
    | some target =>
      changeFirst (·.spot = spot)
        (fun island ↦
          { island with
            elements := island.elements.insertIdx (indexWithin index target.elements.length) element })
        without

/-- Moves a taskbar joined into one bar to another edge, keeping where each island sits along it. -/
def moveBar (a : Arrangement) (edge : Edge) : Arrangement :=
  let groups := joinedGroups a (mainEdge a)
  (ALONGS.filter fun along ↦ !(groups along).isEmpty).map fun along ↦ ⟨⟨edge, along⟩, groups along⟩

/-- Where an island dropped at `spot` goes; on a joined bar, a spot on another edge moves the whole bar
there. -/
def islandTo (a : Arrangement) (origin spot : Spot) (joined : Bool) : Arrangement :=
  if !joined || spot.edge = origin.edge then moveIsland a origin spot
  else moveIsland (moveBar a spot.edge) ⟨spot.edge, origin.along⟩ spot

/-- Where an element dropped at `spot` goes; on a joined bar, it stays on the bar's edge at the same place along
it. -/
def elementTo (a : Arrangement) (element : String) (spot : Spot) (index : Option ℤ) (joined : Bool) :
    Arrangement :=
  moveElement a element (if joined then ⟨mainEdge a, spot.along⟩ else spot) index

/-- Moves an element with an arrow key: along its island, or out of its end to the next spot that way.  Which
spot that is among the targets on the screen is `spotToward`. -/
def stepElement (a : Arrangement) (element : String) (dx dy : ℤ) (spotToward : Spot → Option Spot)
    (joined rightToLeft : Bool) : Arrangement :=
  match islandOf a element with
  | none => a
  | some island =>
    let vertical := island.spot.edge.isVertical
    let along := if vertical then dy else dx * (if rightToLeft then -1 else 1)
    let index : ℤ := island.elements.idxOf element
    let across := if vertical then dx else dy
    if across = 0 ∧ 0 ≤ index + along ∧ index + along < island.elements.length then
      elementTo a element island.spot (some (index + along)) joined
    else
      match spotToward island.spot with
      | some spot => elementTo a element spot (if along < 0 then none else some 0) joined
      | none => a

inductive PresetName
  | classic
  | centered
  | mac
  | side

def PRESETS : PresetName → Arrangement
  | .classic => [⟨⟨.bottom, .start⟩, ["start", "dock"]⟩, ⟨⟨.bottom, .end_⟩, SYSTEM_ELEMENTS⟩]
  | .centered => DEFAULT_ARRANGEMENT
  | .mac => [⟨⟨.bottom, .center⟩, ["start", "dock"]⟩, ⟨⟨.top, .end_⟩, SYSTEM_ELEMENTS⟩]
  | .side => [⟨⟨.left, .center⟩, ["start", "dock"]⟩, ⟨⟨.bottom, .end_⟩, SYSTEM_ELEMENTS⟩]

/-- A preset's arrangement, with the elements it doesn't name, such as extensions', next to their neighbours
again. -/
def presetArrangement (name : PresetName) (current : Arrangement) : Option Arrangement :=
  completeArrangement (PRESETS name) (elementsOf current)

inductive ElementPlace
  | beforeApps
  | afterApps
  | besideTray
  | start
  | end_

/-- The spot of the island with the first of some neighbours, and the index before or after them there. -/
def besideIn (others : Arrangement) (neighbours : List String) (after : Bool) : Option (Spot × Option ℤ) :=
  (others.find? fun island ↦ neighbours.any island.elements.contains).map fun island ↦
    let indices := (neighbours.filter island.elements.contains).map island.elements.idxOf
    let index : ℕ := if after then indices.max?.getD 0 + 1 else indices.min?.getD 0
    (island.spot, some index)

/-- The spot and the index there that a place along the bar is, among the other elements. -/
def placeTarget (others : Arrangement) : ElementPlace → Option (Spot × Option ℤ)
  | .beforeApps => besideIn others ["start", "dock"] false
  | .afterApps => besideIn others ["dock"] true
  | .besideTray => besideIn others ["tray"] false
  | .start => some (⟨mainEdge others, .start⟩, some 0)
  | .end_ => some (⟨mainEdge others, .end_⟩, none)

/-- Moves an element to a place along the bar: next to the apps or the tray, or at the start or end of the
dock's edge. -/
def placeElement (a : Arrangement) (element : String) (place : ElementPlace) : Arrangement :=
  match placeTarget (presentIn a (· != element)) place with
  | some (spot, index) => moveElement a element spot index
  | none => a

end Taskbar
