import Luft.Kestrel.Tree
import Luft.Lib.Best
import Luft.Lib.Searching
import Luft.Lib.Text
import Mathlib.Order.Basic

/-!
# Finding files by name

The lower-case names of all files are laid out in one text, with a zero byte after each, and the last word of a
query is searched in it.  What is found there is scored, and the best few are kept: the lower the score, the
better.

Scores are numbers of any type that has an order (`Arithmetic`).  How texts are searched and made lower-case is
left to the libraries for it.
-/

set_option autoImplicit false

namespace Kestrel

open Searching

/-! ## Scores -/

/-- What is done with scores. -/
structure Arithmetic (P : Type) where
  /-- The nearest number to a fraction. -/
  literal : ℕ → ℕ → P
  ofNat : ℕ → P
  add : P → P → P
  sub : P → P → P
  mul : P → P → P

structure Candidate where
  name : List UInt8
  query : List UInt8
  last : List UInt8
  others : List (List UInt8)
  depth : ℕ
  age : ℤ

/-- A file by its place, with its score. -/
structure Scored (P : Type) where
  points : P
  index : ℕ

def DAY : ℤ := 86400

def DEEPEST_COUNTED : ℕ := 12

/-- The bytes of ` -_.([,`. -/
def is_boundary (byte : UInt8) : Bool := byte ∈ [0x20, 0x2d, 0x5f, 0x2e, 0x28, 0x5b, 0x2c]

/-- A name without its extension. -/
def stem (name : List UInt8) : List UInt8 :=
  match name.reverse.dropWhile (· ≠ 0x2e) with
  | _ :: before => if before = [] then name else before.reverse
  | [] => name

section

variable {P : Type}

/-- By score, then by place. -/
def Scored.le [LinearOrder P] (left right : Scored P) : Prop :=
  left.points < right.points ∨ left.points = right.points ∧ left.index ≤ right.index

instance Scored.decidableLe [LinearOrder P] : DecidableRel (Scored.le (P := P)) := fun left right ↦
  inferInstanceAs (Decidable (left.points < right.points ∨ left.points = right.points ∧ left.index ≤ right.index))

variable (searcher : Searcher UInt8) (arithmetic : Arithmetic P)

def tier (name token : List UInt8) : Option P :=
  (searcher.find name token).map fun place ↦
    if place = 0 then
      if name = token ∨ stem name = token then arithmetic.literal 0 1 else arithmetic.literal 1 1
    else if ((name[place - 1]?).map is_boundary).getD false then arithmetic.literal 2 1
    else arithmetic.literal 3 1

def recency (age : ℤ) : P :=
  if age < 7 * DAY then arithmetic.literal 1 2 else if age < 30 * DAY then arithmetic.literal 1 4
  else arithmetic.literal 0 1

/-- The other words have to be in the name, or in that of a folder that it is in. -/
def withOthers (name : List UInt8) (in_folders : List UInt8 → Bool) (points : P) (token : List UInt8) : Option P :=
  if (searcher.find name token).isSome then some points
  else if in_folders token then some (arithmetic.add points (arithmetic.literal 4 10))
  else none

/-- The whole query stands in the name, or its last word does. -/
def base (candidate : Candidate) (in_folders : List UInt8 → Bool) : Option P :=
  match tier searcher arithmetic candidate.name candidate.query with
  | some tier => some tier
  | none => do
    let points ← tier searcher arithmetic candidate.name candidate.last
    candidate.others.foldlM (withOthers searcher arithmetic candidate.name in_folders) points

def score (candidate : Candidate) (in_folders : List UInt8 → Bool) : Option P :=
  (base searcher arithmetic candidate in_folders).map fun base ↦
    let deep := arithmetic.mul (arithmetic.literal 8 100) (arithmetic.ofNat (min candidate.depth DEEPEST_COUNTED))
    let long := arithmetic.mul (arithmetic.literal 3 1000) (arithmetic.ofNat candidate.name.length)
    arithmetic.sub (arithmetic.add (arithmetic.add base deep) long) (recency arithmetic candidate.age)

end

/-! ## Names -/

/-- A file, with where its names begin. -/
structure Entry where
  lower : ℕ
  name : ℕ
  parent : Option ℕ
  depth : ℕ
  folder : Bool
  modified : ℤ
  deriving DecidableEq

structure Names where
  root : Path
  lower : List UInt8
  names : List UInt8
  entries : List Entry

/-- A file that was found. -/
structure Hit (P : Type) where
  path : List Char
  folder : Bool
  score : P
  deriving DecidableEq

namespace Names

def empty (root : Path) : Names := ⟨root, [], [], []⟩

/-- Folders whose children come next: with their places, and the depth of the children. -/
abbrev Stack := List (Id × Option ℕ × ℕ)

section

variable (lowercase : List Char → List Char) (tree : Tree)

def addChild (parent : Option ℕ) (depth : ℕ) (state : Names × Stack) (child : Id) : Names × Stack :=
  let names := state.1
  let is_folder := (tree.folder child).isSome
  let entry : Entry :=
    ⟨names.lower.length, names.names.length, parent, depth, is_folder, tree.modified child⟩
  ({ names with
      entries := names.entries ++ [entry]
      lower := names.lower ++ (bytes (lowercase (tree.name child).1) ++ [0])
      names := names.names ++ bytes (tree.name child).1 },
    if is_folder then (child, some names.entries.length, depth + 1) :: state.2 else state.2)

def buildFrom : ℕ → Stack → Names → Option Names
  | _, [], names => some names
  | 0, _ :: _, _ => none
  | fuel + 1, (id, parent, depth) :: stack, names =>
    match tree.folder id with
    | none => buildFrom fuel stack names
    | some folder =>
      if folder.excluded then buildFrom fuel stack names
      else
        let (names, stack) := folder.children.foldl (addChild lowercase tree parent depth) (names, stack)
        buildFrom fuel stack names

/-- `fuel` is for how many folders there are. -/
def build (fuel : ℕ) : Option Names := buildFrom lowercase tree fuel [(ROOT, none, 0)] (empty tree.root)

end

variable (names : Names)

/-- A part of a text. -/
def slice (text : List UInt8) (start stop : ℕ) : List UInt8 := (text.take stop).drop start

def lowerAt (index : ℕ) : ℕ := ((names.entries[index]?).map Entry.lower).getD names.lower.length

def nameAt (index : ℕ) : ℕ := ((names.entries[index]?).map Entry.name).getD names.names.length

def nameOf (index : ℕ) : List UInt8 := slice names.names (names.nameAt index) (names.nameAt (index + 1))

def lowerOf (index : ℕ) : List UInt8 := slice names.lower (names.lowerAt index) (names.lowerAt (index + 1) - 1)

/-- The folders that something is in, the nearest first. -/
def ancestorsFrom : ℕ → Option ℕ → List ℕ
  | fuel + 1, some current => current :: ancestorsFrom fuel ((names.entries[current]?).bind Entry.parent)
  | _, _ => []

/-- Folders come before what is in them. -/
def ancestors (index : ℕ) : List ℕ := names.ancestorsFrom index ((names.entries[index]?).bind Entry.parent)

def path (index : ℕ) : Path :=
  (((names.ancestors index).map names.nameOf).reverse.foldl Path.push names.root).push (names.nameOf index)

/-- A path that is a text. -/
def into_string (path : Path) : Option (List Char) := (path.toByteArray.utf8Decode?).map Array.toList

/-- The entry that a place belongs to: the last one that begins there or before. -/
def entryAt (position : ℕ) : ℕ := names.entries.findIdx (fun entry ↦ position < entry.lower) - 1

variable {P : Type} (searcher : Searcher UInt8) (arithmetic : Arithmetic P)

/-- The score of an entry. -/
def scored (folded last : List Char) (others : List (List Char)) (now : ℤ) (index : ℕ) : Option (Scored P) := do
  let entry ← names.entries[index]?
  let candidate : Candidate :=
    ⟨names.lowerOf index, bytes folded, bytes last, others.map bytes, entry.depth,
      now - entry.modified.tdiv 1000000000⟩
  let points ← score searcher arithmetic candidate fun token ↦
    (names.ancestors index).any fun ancestor ↦ (searcher.find (names.lowerOf ancestor) token).isSome
  some ⟨points, index⟩

/-- One place is looked at: the entry before it is not looked at again. -/
def visit [LinearOrder P] (scored : ℕ → Option (Scored P)) (limit : ℕ) (state : Option ℕ × List (Scored P)) (position : ℕ) :
    Option ℕ × List (Scored P) :=
  let index := names.entryAt position
  if state.1 = some index then state
  else
    (some index,
      match scored index with
      | none => state.2
      | some found => Best.keep Scored.le limit state.2 found)

def hit (found : Scored P) : Option (Hit P) := do
  let path ← into_string (names.path found.index)
  let entry ← names.entries[found.index]?
  some ⟨path, entry.folder, found.points⟩

def find [LinearOrder P] (lowercase : List Char → List Char) (query : List Char) (limit : ℕ) (now : ℤ) : List (Hit P) :=
  let folded := lowercase (Text.trim query)
  match (Text.split_whitespace folded).getLast? with
  | none => []
  | some last =>
    let others := (Text.split_whitespace folded).reverse.tail
    let positions := searcher.find_iter names.lower (bytes last)
    let best := (positions.foldl
      (names.visit (names.scored searcher arithmetic folded last others now) limit) (none, [])).2
    best.filterMap names.hit

end Names

end Kestrel
