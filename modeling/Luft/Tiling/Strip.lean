import Luft.Tiling.Geometry
import Mathlib.Data.List.Basic

/-!
# The scrolling strip

Windows in columns on a strip wider than the view.  Each column has its windows from top to bottom,
a weight for each of them, and the row that is focused when the column is; `focused` is the index of
the focused column.  Methods that answer whether they did anything are `none` where they did not.

Numbers are exact where the source has doubles; a weight shared out over no height is 0.
-/

set_option autoImplicit false

namespace Tiling

structure Column (T : Type*) where
  windows : List T
  weights : List ℚ
  width : ℚ
  row : ℕ
  restore : Option ℚ := none

structure Strip (T : Type*) where
  columns : List (Column T) := []
  focused : ℕ := 0
  offset : ℚ := 0
  view : Box := ⟨0, 0, 1, 1⟩
  gap : ℕ := 0

/-- To the left or up, and to the right or down. -/
inductive Step where
  | back
  | forth
deriving DecidableEq, Repr

/-- The index a step away, if it is not before the first. -/
def Step.next : Step → ℕ → Option ℕ
  | .back, 0 => none
  | .back, index + 1 => some index
  | .forth, index => some (index + 1)

def Step.sign : Step → ℚ
  | .back => -1
  | .forth => 1

def presetWidths : List ℚ := [1 / 3, 1 / 2, 2 / 3, 1]
def defaultWidth : ℚ := 1 / 2
def widthStep : ℚ := 1 / 10
def minWidth : ℚ := 1 / 10
def minRowShare : ℚ := 15 / 100
def presetTolerance : ℚ := 1 / 100

namespace Strip

variable {T : Type*} (s : Strip T)

/-! ## Reading the strip -/

def windows : List T := s.columns.flatMap Column.windows

def focusedWindow : Option T := s.columns[s.focused]?.bind fun column ↦ column.windows[column.row]?

def viewWidth : ℤ := max 1 (s.view.width - 2 * s.gap)

def columnWidth (column : Column T) : ℤ :=
  max 1 (mathRound (column.width * (s.view.width - s.gap)) - s.gap)

def totalWidth : ℤ := (s.columns.map s.columnWidth).sum + s.gap * (s.columns.length - 1 : ℕ)

def columnStart (index : ℕ) : ℤ :=
  ((s.columns.take index).map fun column ↦ s.columnWidth column + s.gap).sum

def fullyShown (index : ℕ) (column : Column T) : Bool :=
  s.columnStart index ≥ s.offset - 1 ∧
    s.columnStart index + s.columnWidth column ≤ s.offset + s.viewWidth + 1

def widthFor (pixels : ℚ) : ℚ :=
  min 1 (max minWidth ((pixels + s.gap) / max 1 (s.view.width - s.gap)))

def rowBoxes (column : Column T) : List Box :=
  let height := max 1 (s.view.height - 2 * s.gap)
  divide ⟨0, s.view.y + s.gap, 1, height⟩ .vertical column.weights s.gap

/-! ## Changing it -/

def clampOffset : Strip T :=
  { s with offset := min s.offset (max 0 (s.totalWidth - s.viewWidth)) }

/-- Change the column at an index. -/
def modify (index : ℕ) (change : Column T → Column T) : Strip T :=
  { s with columns := s.columns.modify index change }

def setView (view : Box) (gap : ℕ) : Strip T := { s with view := view, gap := gap }

/-- A column of one window. -/
def single (window : T) (width : ℚ) : Column T := ⟨[window], [1], width, 0, none⟩

def add (window : T) (besideFocused : Bool) : Strip T :=
  let index := if besideFocused && !s.columns.isEmpty then s.focused + 1 else s.columns.length
  { s with
    columns := s.columns.insertIdx index (single window defaultWidth)
    focused := index }

end Strip

/-- A column without the window of one row. -/
def Column.without {T : Type*} (column : Column T) (row : ℕ) : Column T :=
  { column with
    windows := column.windows.eraseIdx row
    weights := column.weights.eraseIdx row
    row := min column.row (column.windows.length - 2) }

namespace Strip

section

variable {T : Type*} [DecidableEq T] (s : Strip T)

/-- The column of a window, and its row there. -/
def locate (window : T) : Option (ℕ × ℕ) :=
  match s.columns.findIdx? fun column ↦ column.windows.contains window with
  | none => none
  | some index => s.columns[index]?.map fun column ↦ (index, column.windows.idxOf window)

def has (window : T) : Bool := (s.locate window).isSome

def remove (window : T) : Strip T :=
  match s.locate window with
  | none => s
  | some (index, row) =>
    match s.columns[index]? with
    | none => s
    | some column =>
      if column.windows.length > 1 then s.modify index fun column ↦ column.without row
      else
        let columns := s.columns.eraseIdx index
        let focused := if s.focused > index ∨ s.focused ≥ columns.length then s.focused - 1
          else s.focused
        clampOffset { s with columns := columns, focused := focused }

def focus (window : T) : Option (Strip T) :=
  match s.locate window with
  | none => none
  | some (index, row) =>
    some { s.modify index fun column ↦ { column with row := row } with focused := index }

end

variable {T : Type*} (s : Strip T)

/-- Two members of a list change places. -/
def swapAt {α : Type*} (l : List α) (i j : ℕ) : List α :=
  match l[i]?, l[j]? with
  | some a, some b => (l.set i b).set j a
  | _, _ => l

def moveColumn (direction : Step) : Option (Strip T) :=
  match direction.next s.focused with
  | none => none
  | some target =>
    if target < s.columns.length then
      some { s with columns := swapAt s.columns s.focused target, focused := target }
    else none

def moveRow (direction : Step) : Option (Strip T) :=
  match s.columns[s.focused]? with
  | none => none
  | some column =>
    match direction.next column.row with
    | none => none
    | some target =>
      if target < column.windows.length then
        some (s.modify s.focused fun column ↦
          { column with
            windows := swapAt column.windows column.row target
            weights := swapAt column.weights column.row target
            row := target })
      else none

/-- A column with a window below the others, focused. -/
def onto (window : T) (column : Column T) : Column T :=
  { column with
    windows := column.windows ++ [window]
    weights := column.weights ++ [1]
    row := column.windows.length }

def stack (direction : Step) : Option (Strip T) :=
  match s.columns[s.focused]?, s.focusedWindow with
  | some column, some window =>
    if column.windows.length > 1 then
      let index := match direction with
        | .forth => s.focused + 1
        | .back => s.focused
      some { s with
        columns := (s.columns.modify s.focused fun column ↦
          column.without column.row).insertIdx index (single window column.width)
        focused := index }
    else
      match direction.next s.focused with
      | none => none
      | some neighbor =>
        if neighbor < s.columns.length then
          -- The neighbor is where it was, or one further to the front.
          some (clampOffset { s with
            columns := (s.columns.modify neighbor (onto window)).eraseIdx s.focused
            focused := min s.focused neighbor })
        else none
  | _, _ => none

def moveColumnToEdge (last : Bool) : Option (Strip T) :=
  let target := if last then s.columns.length - 1 else 0
  match s.columns[s.focused]? with
  | none => none
  | some column =>
    if target = s.focused then none
    else some { s with
      columns := (s.columns.eraseIdx s.focused).insertIdx target column
      focused := target }

/-! ## Widths and rows -/

/-- The focused column with another width, and none to give back. -/
def withWidth (width : Column T → ℚ) : Strip T :=
  s.modify s.focused fun column ↦ { column with width := width column, restore := none }

def cycleWidth : Strip T :=
  s.withWidth fun column ↦
    (presetWidths.find? fun width ↦ width > column.width + presetTolerance).getD (1 / 3)

def maximize : Strip T :=
  s.modify s.focused fun column ↦
    if column.width ≥ 1 - presetTolerance then
      { column with width := column.restore.getD defaultWidth, restore := none }
    else { column with width := 1, restore := some column.width }

def expand : Strip T :=
  if s.focused < s.columns.length then
    let shown := s.columns.zipIdx.filter fun p ↦ p.2 ≠ s.focused && s.fullyShown p.2 p.1
    let taken := (shown.map fun p ↦ s.columnWidth p.1 + s.gap).sum
    let s' := s.withWidth fun _ ↦ s.widthFor (s.viewWidth - taken)
    { s' with offset := s'.columnStart ((shown.map Prod.snd).foldl min s.focused) }
  else s

def resizeWidth (direction : Step) : Strip T :=
  s.withWidth fun column ↦ min 1 (max minWidth (column.width + direction.sign * widthStep))

/-- Move the edge below a row, sharing the weight of the rows above and below anew. -/
def shiftRows (column : Column T) (above : ℕ) (pixels : ℚ) : Column T :=
  let heightOf (row : ℕ) : ℚ := ((s.rowBoxes column)[row]?.map Box.height).getD 0
  let pair := heightOf above + heightOf (above + 1)
  let minimum := pair * minRowShare
  let height := min (pair - minimum) (max minimum (heightOf above + pixels))
  let weight := column.weights.getD above 0 + column.weights.getD (above + 1) 0
  { column with
    weights := (column.weights.set above (weight * height / pair)).set (above + 1)
      (weight * (pair - height) / pair) }

def resizeRow (direction : Step) : Strip T :=
  s.modify s.focused fun column ↦
    if column.windows.length < 2 then column
    else
      let above := if column.row = column.windows.length - 1 then column.row - 1 else column.row
      let heightOf (row : ℕ) : ℚ := ((s.rowBoxes column)[row]?.map Box.height).getD 0
      s.shiftRows column above
        (direction.sign * widthStep * (heightOf above + heightOf (above + 1)))

variable [DecidableEq T]

def setWidth (window : T) (pixels : ℚ) : Strip T :=
  match s.locate window with
  | none => s
  | some (index, _) => s.modify index fun column ↦ { column with width := s.widthFor pixels }

def moveRowEdge (window : T) (bottom : Bool) (coordinate : ℚ) : Strip T :=
  match s.locate window with
  | none => s
  | some (index, row) =>
    if !bottom && row = 0 then s
    else s.modify index fun column ↦
      let above := if bottom then row else row - 1
      if above + 1 ≥ column.windows.length then column
      else
        let boxes := s.rowBoxes column
        let edge : ℚ := if bottom then ((boxes[above]?.map fun box ↦ box.y + box.height).getD 0 : ℤ)
          else ((boxes[above + 1]?.map Box.y).getD 0 : ℤ)
        s.shiftRows column above (coordinate - edge)

end Strip

end Tiling
