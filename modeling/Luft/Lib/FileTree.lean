import Mathlib.Data.List.Basic

/-!
# Trees of files and folders

What is in a folder is a list of entries, each a file with what is in it or a folder with entries of its own.
`get` looks up a path, and `get_rename` says what is at every path once a file has another name in its folder.
-/

set_option autoImplicit false

abbrev FileName := List Char

/-- What is at a path. -/
inductive FileEntry (C : Type)
  | file (content : C)
  | folder
  deriving DecidableEq

/-- The entries of a folder. -/
inductive FileTree (C : Type)
  | nil
  | file (name : FileName) (content : C) (rest : FileTree C)
  | folder (name : FileName) (entries rest : FileTree C)

namespace FileTree

variable {C : Type}

def names : FileTree C → List FileName
  | nil => []
  | file name _ rest => name :: rest.names
  | folder name _ rest => name :: rest.names

/-- No folder has two entries of the same name. -/
def Distinct : FileTree C → Prop
  | nil => True
  | file name _ rest => name ∉ rest.names ∧ rest.Distinct
  | folder name entries rest => name ∉ rest.names ∧ entries.Distinct ∧ rest.Distinct

def get : FileTree C → List FileName → Option (FileEntry C)
  | nil, _ => none
  | file name content rest, path => if path = [name] then some (.file content) else rest.get path
  | folder _ _ _, [] => none
  | folder name entries rest, first :: path =>
    if first = name then if path = [] then some .folder else entries.get path else rest.get (first :: path)

/-- A file in a folder gets another name. -/
def rename (source target : FileName) : List FileName → FileTree C → FileTree C
  | _, nil => nil
  | path, file name content rest =>
    if path = [] ∧ name = source then file target content rest
    else file name content (rest.rename source target path)
  | [], folder name entries rest => folder name entries (rest.rename source target [])
  | first :: path, folder name entries rest =>
    if first = name then folder name (entries.rename source target path) rest
    else folder name entries (rest.rename source target (first :: path))

/-- Every name in the tree, in whatever folder. -/
def allNames : FileTree C → List FileName
  | nil => []
  | file name _ rest => name :: rest.allNames
  | folder name entries rest => name :: (entries.allNames ++ rest.allNames)

variable {t : FileTree C} {path folder : List FileName} {name source target : FileName} {content : C}

theorem get_file (name : FileName) (content : C) (rest : FileTree C) (path : List FileName) :
    (file name content rest).get path = if path = [name] then some (.file content) else rest.get path := rfl

theorem get_folder (name : FileName) (entries rest : FileTree C) (first : FileName) (path : List FileName) :
    (FileTree.folder name entries rest).get (first :: path) =
      if first = name then if path = [] then some .folder else entries.get path else rest.get (first :: path) := rfl

theorem rename_file (path : List FileName) (name : FileName) (content : C) (rest : FileTree C) :
    (file name content rest).rename source target path =
      if path = [] ∧ name = source then file target content rest
      else file name content (rest.rename source target path) := by
  cases path <;> rfl

theorem rename_here (name : FileName) (entries rest : FileTree C) :
    (FileTree.folder name entries rest).rename source target [] = FileTree.folder name entries (rest.rename source target []) := rfl

theorem rename_folder (first : FileName) (path : List FileName) (name : FileName) (entries rest : FileTree C) :
    (FileTree.folder name entries rest).rename source target (first :: path) =
      if first = name then FileTree.folder name (entries.rename source target path) rest
      else FileTree.folder name entries (rest.rename source target (first :: path)) := rfl

theorem get_of_not_mem (h : name ∉ t.names) (path : List FileName) : t.get (name :: path) = none := by
  induction t with
  | nil => rfl
  | file other content rest ih =>
    simp only [names, List.mem_cons, not_or] at h
    rw [get_file, if_neg (by simp [h.1]), ih h.2]
  | folder other entries rest _ ih =>
    simp only [names, List.mem_cons, not_or] at h
    rw [get_folder, if_neg h.1, ih h.2]

@[simp] theorem get_nil (t : FileTree C) : t.get [] = none := by
  induction t with
  | nil => rfl
  | file name content rest ih => rw [get_file, if_neg (by simp), ih]
  | folder name entries rest => rfl

/-- A path that is there begins with the name of an entry. -/
theorem exists_of_get (h : t.get path ≠ none) : ∃ first rest, path = first :: rest ∧ first ∈ t.names := by
  cases path with
  | nil => exact absurd (get_nil t) h
  | cons first rest =>
    refine ⟨first, rest, rfl, ?_⟩
    by_contra hnot
    exact h (get_of_not_mem hnot rest)

theorem mem_allNames (h : t.get (folder ++ [name]) ≠ none) : name ∈ t.allNames := by
  induction t generalizing folder with
  | nil => exact absurd rfl h
  | file other content rest ih =>
    rw [get_file] at h
    split at h
    · rename_i heq
      have hlast := congrArg List.getLast? heq
      simp only [List.getLast?_append, List.getLast?_singleton, Option.some_or, Option.some_inj] at hlast
      rw [hlast]
      exact List.mem_cons_self
    · exact List.mem_cons_of_mem _ (ih h)
  | folder other entries rest ihe ih =>
    cases folder with
    | nil =>
      rw [List.nil_append, get_folder] at h
      split at h
      · rename_i heq
        rw [heq]
        exact List.mem_cons_self
      · exact List.mem_cons_of_mem _ (List.mem_append_right _ (@ih [] h))
    | cons first folder =>
      rw [List.cons_append, get_folder] at h
      split at h
      · rw [if_neg (by simp)] at h
        exact List.mem_cons_of_mem _ (List.mem_append_left _ (ihe h))
      · exact List.mem_cons_of_mem _ (List.mem_append_right _ (@ih (first :: folder) h))

theorem get_singleton_eq_none_iff : t.get [name] = none ↔ name ∉ t.names := by
  refine ⟨fun h ↦ ?_, fun h ↦ get_of_not_mem h []⟩
  induction t with
  | nil => exact List.not_mem_nil
  | file other content rest ih =>
    rw [get_file] at h
    split at h
    · cases h
    · rename_i hne
      simp only [List.cons.injEq, and_true] at hne
      simp only [names, List.mem_cons, not_or]
      exact ⟨hne, ih h⟩
  | folder other entries rest _ ih =>
    rw [get_folder] at h
    split at h
    · cases h
    · rename_i hne
      simp only [names, List.mem_cons, not_or]
      exact ⟨hne, ih h⟩

/-! ## Renaming -/

theorem names_rename_subset : (t.rename source target []).names ⊆ target :: t.names := by
  induction t with
  | nil => simp [rename, names]
  | file other content rest ih =>
    rw [rename_file]
    split
    · simp [names]
    · rw [names, names]
      refine List.cons_subset.2 ⟨by simp, List.Subset.trans ih ?_⟩
      simp
  | folder other entries rest _ ih =>
    rw [rename_here, names, names]
    refine List.cons_subset.2 ⟨by simp, List.Subset.trans ih ?_⟩
    simp

theorem names_rename_cons (first : FileName) (folder : List FileName) :
    (t.rename source target (first :: folder)).names = t.names := by
  induction t with
  | nil => rfl
  | file other content rest ih => rw [rename_file, if_neg (by simp), names, names, ih]
  | folder other entries rest _ ih =>
    rw [rename_folder]
    split
    · rfl
    · rw [names, names, ih]

theorem get_file_of_ne {rest : FileTree C} (h : path ≠ [name]) :
    (file name content rest).get path = rest.get path := by
  rw [get_file, if_neg h]

theorem get_folder_of_ne {entries rest : FileTree C} {first : FileName} (h : first ≠ name) :
    (FileTree.folder name entries rest).get (first :: path) = rest.get (first :: path) := by
  rw [get_folder, if_neg h]

theorem get_folder_of_ne_nil {entries rest : FileTree C} (h : path ≠ []) :
    (FileTree.folder name entries rest).get (name :: path) = entries.get path := by
  rw [get_folder, if_pos rfl, if_neg h]

/-- What `rename` is to do: only the file's own path and its new one change. -/
def Moved (t t' : FileTree C) (source target : List FileName) (content : C) : Prop :=
  ∀ path, t'.get path =
    if path = target then some (.file content) else if path = source then none else t.get path

/-- **A rename** keeps names distinct and moves the file, and nothing else changes. -/
theorem rename_moved (h : t.Distinct) (hsource : t.get (folder ++ [source]) = some (.file content))
    (htarget : t.get (folder ++ [target]) = none) :
    (t.rename source target folder).Distinct ∧
      Moved t (t.rename source target folder) (folder ++ [source]) (folder ++ [target]) content := by
  induction t generalizing folder with
  | nil => cases hsource
  | file other content' rest ih =>
    obtain ⟨hnot, hrest⟩ := h
    have hne : folder ++ [target] ≠ [other] := by
      intro heq
      rw [get_file, if_pos heq] at htarget
      cases htarget
    rw [get_file_of_ne hne] at htarget
    by_cases hhere : folder = [] ∧ other = source
    · obtain ⟨rfl, rfl⟩ := hhere
      rw [List.nil_append] at hsource htarget ⊢
      obtain rfl : content' = content := by simpa [get_file] using hsource
      rw [rename_file, if_pos ⟨rfl, rfl⟩]
      refine ⟨⟨get_singleton_eq_none_iff.1 htarget, hrest⟩, fun path ↦ ?_⟩
      by_cases hpath : path = [other]
      · simp [hpath, get_file, get_of_not_mem hnot []]
      · simp [hpath, get_file]
    · have hsource' : folder ++ [source] ≠ [other] := by
        intro heq
        cases folder with
        | nil => exact hhere ⟨rfl, (List.head_eq_of_cons_eq heq).symm⟩
        | cons first folder => simp at heq
      rw [get_file_of_ne hsource'] at hsource
      obtain ⟨hdistinct, hmoved⟩ := ih hrest hsource htarget
      rw [rename_file, if_neg hhere]
      refine ⟨⟨?_, hdistinct⟩, fun path ↦ ?_⟩
      · cases folder with
        | nil =>
          intro hmem
          rcases List.mem_cons.1 (names_rename_subset hmem) with rfl | hmem
          · exact hne rfl
          · exact hnot hmem
        | cons first folder => rwa [names_rename_cons]
      · rw [get_file, get_file, hmoved path]
        by_cases hpath : path = [other]
        · subst hpath
          rw [if_pos rfl, if_neg hne.symm, if_neg hsource'.symm, if_pos rfl]
        · rw [if_neg hpath, if_neg hpath]
  | folder other entries rest ihe ih =>
    obtain ⟨hnot, hentries, hrest⟩ := h
    cases folder with
    | nil =>
      rw [List.nil_append] at hsource htarget ⊢
      have hsource' : source ≠ other := by
        rintro rfl
        rw [get_folder, if_pos rfl, if_pos rfl] at hsource
        cases hsource
      have htarget' : target ≠ other := by
        rintro rfl
        rw [get_folder, if_pos rfl, if_pos rfl] at htarget
        cases htarget
      rw [get_folder_of_ne hsource'] at hsource
      rw [get_folder_of_ne htarget'] at htarget
      obtain ⟨hdistinct, hmoved⟩ := @ih [] hrest hsource htarget
      rw [rename_here]
      refine ⟨⟨fun hmem ↦ ?_, hentries, hdistinct⟩, fun path ↦ ?_⟩
      · rcases List.mem_cons.1 (names_rename_subset hmem) with rfl | hmem
        · exact htarget' rfl
        · exact hnot hmem
      · cases path with
        | nil => simp
        | cons first path =>
          by_cases hfirst : first = other
          · subst hfirst
            simp [get_folder, hsource'.symm, htarget'.symm]
          · rw [get_folder_of_ne hfirst, get_folder_of_ne hfirst]
            exact hmoved (first :: path)
    | cons first folder =>
      rw [rename_folder]
      by_cases hfirst : first = other
      · subst hfirst
        rw [List.cons_append, get_folder_of_ne_nil (by simp)] at hsource htarget
        obtain ⟨hdistinct, hmoved⟩ := ihe hentries hsource htarget
        rw [if_pos rfl]
        refine ⟨⟨hnot, hdistinct, hrest⟩, fun path ↦ ?_⟩
        cases path with
        | nil => simp
        | cons other path =>
          by_cases hother : other = first
          · subst hother
            by_cases hpath : path = []
            · simp [get_folder, hpath]
            · rw [get_folder_of_ne_nil hpath, get_folder_of_ne_nil hpath, hmoved path]
              simp
          · rw [get_folder_of_ne hother, get_folder_of_ne hother]
            simp [hother]
      · rw [List.cons_append, get_folder_of_ne hfirst] at hsource htarget
        obtain ⟨hdistinct, hmoved⟩ := @ih (first :: folder) hrest hsource htarget
        rw [if_neg hfirst]
        refine ⟨⟨by rwa [names_rename_cons], hentries, hdistinct⟩, fun path ↦ ?_⟩
        cases path with
        | nil => simp
        | cons other' path =>
          by_cases hother : other' = other
          · subst hother
            simp [get_folder, Ne.symm hfirst]
          · rw [get_folder_of_ne hother, get_folder_of_ne hother]
            exact hmoved (other' :: path)

end FileTree
