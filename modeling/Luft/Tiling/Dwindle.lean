import Luft.Tiling.Geometry
import Mathlib.Logic.Function.Basic

/-!
# The dwindle layout

A binary tree of splits whose leaves are windows.  The source's tree is made of objects that point
at their children and at their parent, beside a map from windows to leaves; here the objects are
records under numbers (`Dwindle.nodes`), and a new object gets the next number.

The loops that follow pointers take fuel.  They get one step for each object there has been, which
is enough on every tree the layout makes.
-/

set_option autoImplicit false

namespace Tiling

/-- The name of a tree object. -/
abbrev Id := ℕ

inductive Node (T : Type*) where
  | leaf (window : T) (parent : Option Id)
  | split (axis : Axis) (ratio : ℚ) (first second : Id) (parent : Option Id)

namespace Node

variable {T : Type*}

def parent : Node T → Option Id
  | leaf _ parent => parent
  | split _ _ _ _ parent => parent

def withParent (parent : Option Id) : Node T → Node T
  | leaf window _ => leaf window parent
  | split axis ratio first second _ => split axis ratio first second parent

def withWindow (window : T) : Node T → Node T
  | leaf _ parent => leaf window parent
  | node => node

def withRatio (ratio : ℚ) : Node T → Node T
  | split axis _ first second parent => split axis ratio first second parent
  | node => node

/-- A split with another child in place of one. -/
def withChild (child next : Id) : Node T → Node T
  | split axis ratio first second parent =>
    if first = child then split axis ratio next second parent
    else split axis ratio first next parent
  | node => node

end Node

structure Dwindle (T : Type*) where
  nodes : Id → Option (Node T) := fun _ ↦ none
  /-- The number the next new object gets. -/
  next : Id := 0
  root : Option Id := none
  leaves : T → Option Id := fun _ ↦ none
  boxes : Id → Option Box := fun _ ↦ none
  gap : ℕ := 0

namespace Dwindle

variable {T : Type*}

/-! ## Objects -/

/-- Make a new object. -/
def create (d : Dwindle T) (node : Node T) : Dwindle T :=
  { d with nodes := Function.update d.nodes d.next (some node), next := d.next + 1 }

/-- Change an object in place. -/
def modify (d : Dwindle T) (id : Id) (change : Node T → Node T) : Dwindle T :=
  { d with nodes := Function.update d.nodes id ((d.nodes id).map change) }

def parentOf (d : Dwindle T) (id : Id) : Option Id := (d.nodes id).bind Node.parent

/-- Put another object where one hangs. -/
def replace (d : Dwindle T) (node next : Id) : Dwindle T :=
  match d.parentOf node with
  | none => { d with root := some next }
  | some parent => d.modify parent (Node.withChild node next)

section

variable (d : Dwindle T) {i id : Id} (node : Node T) (change : Node T → Node T)

theorem create_self : (d.create node).nodes d.next = some node := Function.update_self _ _ _

theorem create_ne (h : i ≠ d.next) : (d.create node).nodes i = d.nodes i :=
  Function.update_of_ne h _ _

theorem modify_self : (d.modify id change).nodes id = (d.nodes id).map change :=
  Function.update_self _ _ _

theorem modify_ne (h : i ≠ id) : (d.modify id change).nodes i = d.nodes i :=
  Function.update_of_ne h _ _

end

theorem replace_next (d : Dwindle T) (node next : Id) : (d.replace node next).next = d.next := by
  rw [replace]
  split <;> rfl

theorem replace_leaves (d : Dwindle T) (node next : Id) :
    (d.replace node next).leaves = d.leaves := by
  rw [replace]
  split <;> rfl

/-! ## The windows -/

/-- The windows below an object, from first to last. -/
def collect (d : Dwindle T) : ℕ → Id → Option (List T)
  | 0, _ => none
  | fuel + 1, id =>
    match d.nodes id with
    | some (.leaf window _) => some [window]
    | some (.split _ _ first second _) => do
      let before ← d.collect fuel first
      let after ← d.collect fuel second
      return before ++ after
    | none => none

def windows (d : Dwindle T) : Option (List T) :=
  match d.root with
  | none => some []
  | some root => d.collect d.next root

/-- Follow the second children down. -/
def lastFrom (d : Dwindle T) : ℕ → Id → Option Id
  | 0, _ => none
  | fuel + 1, id =>
    match d.nodes id with
    | some (.split _ _ _ second _) => d.lastFrom fuel second
    | _ => some id

def lastLeaf (d : Dwindle T) : Option Id := d.root.bind (d.lastFrom d.next)

def has (d : Dwindle T) (window : T) : Bool := (d.leaves window).isSome

/-- The axis to split a leaf along: its longer side, if it has a box. -/
def longAxis : Option Box → Axis
  | none => .horizontal
  | some box => if box.width ≥ box.height then .horizontal else .vertical

/-- Hang a new leaf beside the leaf `target`, below a new split. -/
def insertBeside (d : Dwindle T) (leaf target : Id) : Dwindle T :=
  let box := d.boxes target
  let node := d.next
  let d := d.create (.split (longAxis box) (1 / 2) target leaf (d.parentOf target))
  let d := d.replace target node
  let d := d.modify target (Node.withParent (some node))
  let d := d.modify leaf (Node.withParent (some node))
  match box with
  | none => d
  | some box => { d with boxes := Function.update d.boxes node (some box) }

variable [DecidableEq T]

/-- A new leaf of a window, not in the tree yet. -/
def addLeaf (d : Dwindle T) (window : T) : Dwindle T :=
  { d.create (.leaf window none) with leaves := Function.update d.leaves window (some d.next) }

def insert (d : Dwindle T) (window : T) (beside : Option T) : Dwindle T :=
  let leaf := d.next
  let d := d.addLeaf window
  match (beside.bind d.leaves).or d.lastLeaf with
  | none => { d with root := some leaf }
  | some target => d.insertBeside leaf target

/-- Take a window's leaf out of the maps. -/
def forget (d : Dwindle T) (window : T) (leaf : Id) : Dwindle T :=
  { d with
    leaves := Function.update d.leaves window none
    boxes := Function.update d.boxes leaf none }

/-- Hang an object where its parent hangs, in place of it. -/
def lift (d : Dwindle T) (parent sibling : Id) : Dwindle T :=
  let d := d.replace parent sibling
  let d := d.modify sibling (Node.withParent (d.parentOf parent))
  { d with boxes := Function.update d.boxes parent none }

omit [DecidableEq T] in
theorem lift_leaves (d : Dwindle T) (parent sibling : Id) :
    (d.lift parent sibling).leaves = d.leaves := replace_leaves d parent sibling

omit [DecidableEq T] in
theorem lift_next (d : Dwindle T) (parent sibling : Id) :
    (d.lift parent sibling).next = d.next := replace_next d parent sibling

def remove (d : Dwindle T) (window : T) : Dwindle T :=
  match d.leaves window with
  | none => d
  | some leaf =>
    let d := d.forget window leaf
    match d.parentOf leaf with
    | none => { d with root := none }
    | some parent =>
      match d.nodes parent with
      | some (.split _ _ first second _) => d.lift parent (if first = leaf then second else first)
      | _ => d

def swap (d : Dwindle T) (a b : T) : Dwindle T :=
  match d.leaves a, d.leaves b with
  | some first, some second =>
    let d := d.modify first (Node.withWindow b)
    let d := d.modify second (Node.withWindow a)
    { d with leaves := Function.update (Function.update d.leaves a (some second)) b (some first) }
  | _, _ => d

/-! ## Boxes -/

/-- Give an object its box, and what is below it theirs. -/
def visit (d : Dwindle T) : ℕ → Id → Box → (Id → Option Box) × (T → Option Box) →
    Option ((Id → Option Box) × (T → Option Box))
  | 0, _, _, _ => none
  | fuel + 1, id, box, (boxes, placed) =>
    let boxes := Function.update boxes id (some box)
    match d.nodes id with
    | some (.leaf window _) => some (boxes, Function.update placed window (some box))
    | some (.split axis ratio first second _) => do
      let (firstBox, secondBox) := split box axis ratio d.gap
      let so_far ← d.visit fuel first firstBox (boxes, placed)
      d.visit fuel second secondBox so_far
    | none => none

/-- The layout with the boxes it has given out, and the box of each window. -/
def arrange (d : Dwindle T) (area : Box) (gap : ℕ) : Option (Dwindle T × (T → Option Box)) :=
  let d := { d with gap := gap, boxes := fun _ ↦ none }
  match d.root with
  | none => some (d, fun _ ↦ none)
  | some root => do
    let (boxes, placed) ← d.visit d.next root area (d.boxes, fun _ ↦ none)
    return ({ d with boxes := boxes }, placed)

/-- Follow the parents up to one that matches, which may depend on the child come from. -/
def climb (d : Dwindle T) (found : Node T → Id → Bool) : ℕ → Id → Option Id
  | 0, _ => none
  | fuel + 1, child =>
    match d.parentOf child with
    | none => none
    | some parent =>
      if (d.nodes parent).any fun node ↦ found node child then some parent
      else d.climb found fuel parent

def ancestor (d : Dwindle T) (window : T) (found : Node T → Id → Bool) : Option Id :=
  (d.leaves window).bind (d.climb found d.next)

def hasAxis (axis : Axis) : Node T → Id → Bool
  | .split axis' _ _ _ _, _ => axis' == axis
  | .leaf _ _, _ => false

/-- The split of an axis with the child before or after it. -/
def hasSide (axis : Axis) (trailing : Bool) : Node T → Id → Bool
  | .split axis' _ first _ _, child => axis' == axis && (first == child) == trailing
  | .leaf _ _, _ => false

/-- Change the ratio of the split that was found, from the one it has and its box. -/
def adjust (d : Dwindle T) (node : Option Id) (ratio : ℚ → Box → ℚ) : Dwindle T :=
  match node with
  | none => d
  | some id =>
    match d.boxes id, d.nodes id with
    | some box, some (.split _ old _ _ _) => d.modify id (Node.withRatio (clampRatio (ratio old box)))
    | _, _ => d

def usable (d : Dwindle T) (box : Box) (axis : Axis) : ℚ := max 1 (length box axis - d.gap)

def resize (d : Dwindle T) (window : T) (direction : Direction) (step : ℚ) : Dwindle T :=
  let axis := axisOf direction
  d.adjust (d.ancestor window (hasAxis axis)) fun ratio box ↦
    ratio + (if forward direction then step else -step) / d.usable box axis

def moveEdge (d : Dwindle T) (window : T) (side : Direction) (coordinate : ℚ) : Dwindle T :=
  let axis := axisOf side
  let trailing := forward side
  d.adjust (d.ancestor window (hasSide axis trailing)) fun _ box ↦
    (coordinate - start box axis - (if trailing then 0 else d.gap)) / d.usable box axis

end Dwindle

end Tiling
