import Luft.Lib.Moves
import Luft.Lib.Op
import Luft.Lib.Text

/-!
# Renaming many items of a folder

`batch_rename` renames items of one folder, over names of its own where a new name is in use, and
takes its renames back when one fails.

The file system is outside: a rename may fail for a reason of its own (`FileSystem.forth`, and `back`
for those that take one back), and not every file system can rename without replacing what is there.
Where it cannot, `rename_no_replace` looks first, and follows links when it does.  What a rename
replaces is logged.
-/

set_option autoImplicit false

namespace Rover

abbrev Name := List Char

local instance lawfulBEq_name : LawfulBEq Name := inferInstance

inductive Kind
  | file
  | folder
  | link
  deriving DecidableEq, Repr

/-- An item, with what is in it or where it leads. -/
structure Item where
  kind : Kind
  content : List UInt8
  deriving DecidableEq, Repr

/-- What is in the folder. -/
abbrev Folder := Name → Option Item

inductive IoError
  /-- `EINVAL`. -/
  | invalid
  | alreadyExists
  | notFound
  | other
  deriving DecidableEq, Repr

/-- Why a rename fails that would not have to: the first call, and the one after it. -/
structure Fault where
  first : Option IoError
  second : Option IoError
  deriving DecidableEq, Repr

structure FileSystem where
  /-- It can rename without replacing. -/
  noReplace : Bool
  /-- Whether what a link leads to is there. -/
  follow : Folder → Item → Except IoError Bool
  forth : ℕ → Fault
  back : ℕ → Fault

section

variable (fs : FileSystem) (fault : Fault) (folder : Folder) (source target : Name)

/-- With `RENAME_NOREPLACE`. -/
def renameat2_no_replace : Except IoError Folder :=
  if '\x00' ∈ source ∨ '\x00' ∈ target then .error .other
  else
    match fault.first with
    | some error => .error error
    | none =>
      if fs.noReplace = false then .error .invalid
      else if folder source = none then .error .notFound
      else if folder target ≠ none then .error .alreadyExists
      else .ok (Moves.move folder source target)

/-- Links are followed. -/
def try_exists : Except IoError Bool :=
  match folder target with
  | none => .ok false
  | some item => if item.kind = .link then fs.follow folder item else .ok true

/-- `std::fs::rename`, which replaces a file by a file. -/
def rename : Except IoError Folder :=
  match fault.second with
  | some error => .error error
  | none =>
    match folder source, folder target with
    | none, _ => .error .notFound
    | some item, some other =>
      if source ≠ target ∧ (item.kind = .folder ∨ other.kind = .folder) then .error .other
      else .ok (Moves.move folder source target)
    | some _, none => .ok (Moves.move folder source target)

def rename_no_replace : Except IoError Folder :=
  match renameat2_no_replace fs fault folder source target with
  | .error .invalid =>
    match try_exists fs folder target with
    | .error error => .error error
    | .ok true => .error .alreadyExists
    | .ok false => rename fault folder source target
  | result => result

/-- What a rename there replaces. -/
def replaced : List Item := if source = target then [] else (folder target).toList

end

/-! ## The batch -/

/-- An item of the folder, or the root folder, and the name it is to have. -/
structure Renaming where
  path : Option Name
  name : Name
  deriving DecidableEq, Repr

inductive Error
  | invalidName (name : Name)
  | root
  | twice (name : Name)
  | exists (name : Name)
  | failed (source : Name) (error : IoError)
  deriving DecidableEq, Repr

/-- The folder, and the renames that were done. -/
structure Work where
  folder : Folder
  steps : List (Name × Name)

abbrev Renames (α : Type) := Op Work Error Item α

variable (fs : FileSystem) (process : ℕ) (lower : Name → Name)

/-- One of the renamings is planned, after others. -/
def planOne (planned : List Name × List (Name × Name)) (item : Renaming) :
    Except Error (List Name × List (Name × Name)) :=
  let name := Text.trim item.name
  if name = [] ∨ name = ['.'] ∨ name = ['.', '.'] ∨ '/' ∈ name then .error (.invalidName name)
  else
    match item.path with
    | none => .error .root
    | some source =>
      if name ∈ planned.1 then .error (.twice name)
      else .ok (name :: planned.1, if source ≠ name then planned.2 ++ [(source, name)] else planned.2)

def plan (renamings : List Renaming) : Except Error (List (Name × Name)) :=
  (renamings.foldlM planOne ([], [])).map (·.2)

def same_file_case (target : Name) (sources : List Name) : Bool :=
  sources.any fun source ↦ lower source = lower target

/-- A new name that is in use by an item that is not renamed itself. -/
def taken (folder : Folder) (pairs : List (Name × Name)) : Option Name :=
  (pairs.map Prod.snd).find? fun target ↦
    folder target ≠ none ∧ target ∉ pairs.map Prod.fst ∧ same_file_case lower target (pairs.map Prod.fst) = false

/-- A rename that was done is remembered. -/
def done (folder : Folder) (source target : Name) : Renames Unit := fun work ↦
  ⟨.ok (), ⟨folder, work.steps ++ [(source, target)]⟩, replaced work.folder source target⟩

def apply (source target : Name) : Renames Unit := do
  let work ← Op.state
  match rename_no_replace fs (fs.forth work.steps.length) work.folder source target with
  | .error error => Op.fail (if error = .alreadyExists then .exists target else .failed source error)
  | .ok folder => done folder source target

def applyAll : List (Name × Name) → Renames Unit
  | [] => pure ()
  | (source, target) :: rest => do
    apply fs source target
    applyAll rest

/-- A name to rename over. -/
def temporary (index : ℕ) : Name :=
  ".rover-rename-".toList ++ Nat.toDigits 10 process ++ '-' :: Nat.toDigits 10 index

/-- The renames over names of their own. -/
def detours (pairs : List (Name × Name)) : List (Moves.Detour Name) :=
  pairs.zipIdx.map fun entry ↦ ⟨entry.1.1, temporary process entry.2, entry.1.2⟩

def stage (pairs : List (Name × Name)) : Renames Unit := do
  applyAll fs (Moves.firstPass (detours process pairs))
  applyAll fs (Moves.secondPass (detours process pairs))

/-- A rename is taken back, if that is possible. -/
def takeBack (k : ℕ) (source target : Name) : Renames Unit := fun work ↦
  match rename_no_replace fs (fs.back k) work.folder target source with
  | .error _ => ⟨.ok (), work, []⟩
  | .ok folder => ⟨.ok (), { work with folder }, replaced work.folder target source⟩

/-- The last rename is taken back first. -/
def undo : ℕ → List (Name × Name) → Renames Unit
  | _, [] => pure ()
  | k, (source, target) :: rest => do
    undo (k + 1) rest
    takeBack fs k source target

/-- Some new name is in use. -/
def staged (folder : Folder) (pairs : List (Name × Name)) : Bool := pairs.any fun pair ↦ folder pair.2 ≠ none

def batch_rename (renamings : List Renaming) : Renames Unit := do
  let pairs ← Op.lift (plan renamings)
  if pairs = [] then pure ()
  else do
    let work ← Op.state
    match taken lower work.folder pairs with
    | some target => Op.fail (.exists target)
    | none =>
      Op.rescue (if staged work.folder pairs then stage fs process pairs else applyAll fs pairs) fun error ↦ do
        let work ← Op.state
        undo fs 0 work.steps
        Op.fail error

end Rover
