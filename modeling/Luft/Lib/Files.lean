import Luft.Lib.FileTree
import Mathlib.Data.List.Infix
import Mathlib.Logic.Function.Basic

/-!
# Files by their paths

What a file system has is what is at each path.  The operations fail where something is in the way, or where the
system refuses for a reason of its own; the lemmas say that none of them touches a file but the one it is about
(`Kept`), and what `create_dir_all` leaves alone altogether.
-/

set_option autoImplicit false

/-- The parts of a path, from the root on. -/
abbrev PathBuf := List FileName

/-- What is at each path. -/
abbrev Files (C : Type) := PathBuf → Option (FileEntry C)

namespace Files

variable {C : Type}

inductive Errno
  | exist
  | other
  deriving DecidableEq

section

variable (refused : PathBuf → Bool) (files : Files C)

/-- The folders `rest` leads through, below a folder that is there.  It tells whether all of them are there then. -/
def create_below (refused : PathBuf → Bool) : Files C → PathBuf → PathBuf → Bool × Files C
  | files, _, [] => (true, files)
  | files, path, name :: rest =>
    match files (path ++ [name]) with
    | some .folder => create_below refused files (path ++ [name]) rest
    | some (.file _) => (false, files)
    | none =>
      if refused (path ++ [name]) then (false, files)
      else create_below refused (Function.update files (path ++ [name]) (some .folder)) (path ++ [name]) rest

/-- A folder and the ones it is in are created where they are not there. -/
def create_dir_all (path : PathBuf) : Bool × Files C := create_below refused files [] path

/-- Without replacing what is there. -/
def rename_noreplace (source target : PathBuf) : Except Errno (Files C) :=
  match files source with
  | some (.file content) =>
    if (files target).isSome then .error .exist
    else if refused target then .error .other
    else .ok (Function.update (Function.update files source none) target (some (.file content)))
  | _ => .error .other

end

/-- Every file is there as it was. -/
def Kept (files files' : Files C) : Prop :=
  ∀ path content, files path = some (.file content) → files' path = some (.file content)

variable {refused : PathBuf → Bool} {files files' files'' : Files C} {path source target : PathBuf} {content : C}

theorem Kept.refl (files : Files C) : Kept files files := fun _ _ h ↦ h

theorem Kept.trans (h : Kept files files') (h' : Kept files' files'') : Kept files files'' :=
  fun path content hpath ↦ h' path content (h path content hpath)

/-- Where nothing was, anything may come. -/
theorem Kept.of_apart (h : files path = none) (hapart : ∀ other, other ≠ path → files' other = files other) :
    Kept files files' := by
  intro other content hother
  rw [hapart other, hother]
  rintro rfl
  rw [h] at hother
  cases hother

theorem Kept.update (h : files path = none) (entry : Option (FileEntry C)) :
    Kept files (Function.update files path entry) :=
  Kept.of_apart h fun _ hne ↦ Function.update_of_ne hne _ _

theorem create_below_kept (rest : PathBuf) : Kept files (create_below refused files path rest).2 := by
  induction rest generalizing files path with
  | nil => exact Kept.refl files
  | cons name rest ih =>
    rw [create_below]
    split
    · exact ih
    · exact Kept.refl files
    · rename_i hnone
      split
      · exact Kept.refl files
      · exact (Kept.update hnone _).trans ih

/-- Only folders on the way are created. -/
theorem create_below_of_not_prefix {rest other : PathBuf} (h : ¬ other <+: path ++ rest) :
    (create_below refused files path rest).2 other = files other := by
  induction rest generalizing files path with
  | nil => rfl
  | cons name rest ih =>
    have hrest : ¬ other <+: path ++ [name] ++ rest := by rwa [List.append_assoc, List.singleton_append]
    rw [create_below]
    split
    · exact ih hrest
    · rfl
    · split
      · rfl
      · rw [ih hrest, Function.update_of_ne]
        rintro rfl
        exact hrest (List.prefix_append _ _)

theorem create_dir_all_kept (refused : PathBuf → Bool) (files : Files C) (path : PathBuf) : Kept files (create_dir_all refused files path).2 :=
  create_below_kept path

/-- What is in the folder is as it was. -/
theorem create_dir_all_inside (refused : PathBuf → Bool) (files : Files C) (path : PathBuf) (name : FileName) :
    (create_dir_all refused files path).2 (path ++ [name]) = files (path ++ [name]) := by
  refine create_below_of_not_prefix fun h ↦ ?_
  have hle := h.length_le
  rw [List.nil_append, List.length_append, List.length_singleton] at hle
  omega

theorem rename_noreplace_exist (refused : PathBuf → Bool) (target : PathBuf) (h : files source = some (.file content)) :
    rename_noreplace refused files source target = .error .exist ↔ files target ≠ none := by
  rw [rename_noreplace, h]
  dsimp only
  cases htarget : files target with
  | none => cases hrefused : refused target <;> simp
  | some entry => simp

/-- **A rename** that succeeds finds nothing at its target, and the file is there then. -/
theorem rename_noreplace_ok (h : files source = some (.file content))
    (hok : rename_noreplace refused files source target = .ok files') :
    files target = none ∧
      files' = Function.update (Function.update files source none) target (some (.file content)) := by
  rw [rename_noreplace, h] at hok
  dsimp only at hok
  split at hok
  · cases hok
  · rename_i hnone
    split at hok
    · cases hok
    · exact ⟨by simpa using hnone, (Except.ok.inj hok).symm⟩

end Files
