import Luft.Drives.Conflicts

/-!
# Settling conflicts keeps both versions

The copies that `walk` finds are files, each of them once.  A rename of one of them changes nothing but its own
path and the new one (`FileTree.rename_moved`), so what `settle_found` does is followed copy by copy.
-/

set_option autoImplicit false

namespace Drives

variable {C : Type} {tree : FileTree C} {folder path : List FileName} {name : FileName} {content : C}
  {copies : List (List FileName × FileName)} {copy : List FileName × FileName} {found : Found}
  {fails : ℕ → Bool} {cloud : List Char} {now : ℕ} {work : Work C}

/-! ## What is found -/

/-- The path of a copy. -/
def pathOf (copy : List FileName × FileName) : List FileName := copy.1 ++ [copy.2]

theorem exists_of_mem_walk (htree : tree.Distinct) (h : copy ∈ walk folder tree) :
    ∃ path content, pathOf copy = folder ++ path ∧ tree.get path = some (.file content) := by
  induction tree generalizing folder with
  | nil => cases h
  | file other content rest ih =>
    have hrest (h : copy ∈ walk folder rest) : ∃ path content', pathOf copy = folder ++ path ∧
        (FileTree.file other content rest).get path = some (.file content') := by
      obtain ⟨path, content', hpath, hget⟩ := ih htree.2 h
      refine ⟨path, content', hpath, ?_⟩
      obtain ⟨first, path, rfl, hfirst⟩ := FileTree.exists_of_get (by rw [hget]; exact Option.some_ne_none _)
      rwa [FileTree.get_file_of_ne]
      rintro ⟨⟩
      exact htree.1 hfirst
    rw [walk] at h
    split at h
    · rcases List.mem_cons.1 h with rfl | h
      · exact ⟨[other], content, rfl, by rw [FileTree.get, if_pos rfl]⟩
      · exact hrest h
    · exact hrest h
  | folder other entries rest ihe ih =>
    rw [walk] at h
    rcases List.mem_append.1 h with h | h
    · obtain ⟨path, content, hpath, hget⟩ := ihe htree.2.1 h
      obtain ⟨first, path, rfl, -⟩ := FileTree.exists_of_get (by rw [hget]; exact Option.some_ne_none _)
      exact ⟨other :: first :: path, content, by rw [hpath, List.append_assoc, List.singleton_append],
        by rw [FileTree.get_folder_of_ne_nil (List.cons_ne_nil _ _), hget]⟩
    · obtain ⟨path, content, hpath, hget⟩ := ih htree.2.2 h
      obtain ⟨first, path, rfl, hfirst⟩ := FileTree.exists_of_get (by rw [hget]; exact Option.some_ne_none _)
      refine ⟨first :: path, content, hpath, ?_⟩
      rwa [FileTree.get_folder_of_ne]
      rintro rfl
      exact htree.1 hfirst

/-- The file that a copy is. -/
theorem get_of_mem_walk (htree : tree.Distinct) (h : copy ∈ walk [] tree) :
    ∃ content, tree.get (pathOf copy) = some (.file content) := by
  obtain ⟨path, content, hpath, hget⟩ := exists_of_mem_walk htree h
  exact ⟨content, by rw [hpath, List.nil_append, hget]⟩

/-- A file with a mark in its name is found. -/
theorem mem_walk {rest : List FileName} (hmark : (Text.rfind LUFT name).isSome)
    (hget : tree.get (rest ++ [name]) = some (.file content)) (folder : List FileName) :
    (folder ++ rest, name) ∈ walk folder tree := by
  induction tree generalizing folder rest with
  | nil => cases hget
  | file other content' others ih =>
    rw [walk]
    by_cases hhere : rest ++ [name] = [other]
    · obtain ⟨rfl, rfl⟩ : rest = [] ∧ name = other := by
        cases rest with
        | nil => exact ⟨rfl, List.head_eq_of_cons_eq hhere⟩
        | cons first rest => simp at hhere
      rw [if_pos hmark, List.append_nil]
      exact List.mem_cons_self
    · rw [FileTree.get_file_of_ne hhere] at hget
      split
      · exact List.mem_cons_of_mem _ (ih hget folder)
      · exact ih hget folder
  | folder other entries others ihe ih =>
    rw [walk]
    cases rest with
    | nil =>
      have hne : name ≠ other := by
        rintro rfl
        simp [FileTree.get] at hget
      rw [List.nil_append, FileTree.get_folder_of_ne hne] at hget
      exact List.mem_append_right _ (@ih [] hget folder)
    | cons first rest =>
      rw [List.cons_append] at hget
      by_cases hfirst : first = other
      · subst hfirst
        rw [FileTree.get_folder_of_ne_nil (by simp)] at hget
        have hin := ihe hget (folder ++ [first])
        rw [List.append_assoc, List.singleton_append] at hin
        exact List.mem_append_left _ hin
      · rw [FileTree.get_folder_of_ne hfirst] at hget
        exact List.mem_append_right _ (@ih (first :: rest) hget folder)

/-- What is found among the entries is at paths that begin with their names. -/
theorem exists_of_mem_map_walk (htree : tree.Distinct) (h : path ∈ (walk folder tree).map pathOf) :
    ∃ first rest, path = folder ++ first :: rest ∧ first ∈ tree.names := by
  obtain ⟨copy, hcopy, rfl⟩ := List.mem_map.1 h
  obtain ⟨path, content, hpath, hget⟩ := exists_of_mem_walk htree hcopy
  obtain ⟨first, rest, rfl, hfirst⟩ := FileTree.exists_of_get (by rw [hget]; exact Option.some_ne_none _)
  exact ⟨first, rest, hpath, hfirst⟩

/-- Each file is found once. -/
theorem nodup_walk (htree : tree.Distinct) (folder : List FileName) : ((walk folder tree).map pathOf).Nodup := by
  induction tree generalizing folder with
  | nil => exact List.nodup_nil
  | file other content rest ih =>
    rw [walk]
    split
    · refine List.nodup_cons.2 ⟨fun h ↦ ?_, ih htree.2 folder⟩
      obtain ⟨first, path, hpath, hfirst⟩ := exists_of_mem_map_walk htree.2 h
      rw [pathOf, List.append_cancel_left_eq, List.cons.injEq] at hpath
      obtain rfl : other = first := hpath.1
      exact htree.1 hfirst
    · exact ih htree.2 folder
  | folder other entries rest ihe ih =>
    rw [walk, List.map_append, List.nodup_append]
    refine ⟨ihe htree.2.1 _, ih htree.2.2 folder, ?_⟩
    rintro _ hin _ hrest rfl
    obtain ⟨first, path, rfl, -⟩ := exists_of_mem_map_walk htree.2.1 hin
    obtain ⟨first', path', hpath, hfirst⟩ := exists_of_mem_map_walk htree.2.2 hrest
    rw [List.append_assoc, List.append_cancel_left_eq, List.singleton_append, List.cons.injEq] at hpath
    exact htree.1 (hpath.1 ▸ hfirst)

/-! ## One copy renamed -/

theorem free_name_free (tree : FileTree C) (folder : List FileName) (found : Found) (cloud : List Char) :
    ∃ number, free_name tree folder found cloud = copy_name found cloud number ∧
      tree.get (folder ++ [free_name tree folder found cloud]) = none := by
  have hoccupied : ∀ number, (tree.get (folder ++ [copy_name found cloud number])).isNone = false →
      copy_name found cloud number ∈ tree.allNames := by
    intro number hnumber
    rw [Option.isNone_eq_false_iff] at hnumber
    exact FileTree.mem_allNames (Option.isSome_iff_ne_none.1 hnumber)
  have hsome := Numbered.firstFree_isSome _ 1 (fun m n hm hn h ↦ copy_name_injective found cloud hm hn h) hoccupied
  obtain ⟨number, hnumber⟩ := Option.isSome_iff_exists.1 hsome
  obtain ⟨-, -, hfree, -⟩ := Numbered.firstFree_eq_some_iff.1 hnumber
  have hname : free_name tree folder found cloud = copy_name found cloud number := by
    rw [free_name, hnumber]
    rfl
  exact ⟨number, hname, by rw [hname]; exact Option.isNone_iff_eq_none.1 hfree⟩

/-- The copies still to settle are files of the tree, each of them once. -/
structure Listed (tree : FileTree C) (copies : List (List FileName × FileName)) : Prop where
  distinct : tree.Distinct
  files : ∀ copy ∈ copies, ∃ content, tree.get (pathOf copy) = some (.file content)
  once : (copies.map pathOf).Nodup

theorem Listed.tail (h : Listed tree (copy :: copies)) : Listed tree copies :=
  ⟨h.distinct, fun other hother ↦ h.files other (List.mem_cons_of_mem copy hother), (List.nodup_cons.1 h.once).2⟩

theorem Listed.ne (h : Listed tree (copy :: copies)) : ∀ other ∈ copies, pathOf other ≠ pathOf copy :=
  fun _ hother heq ↦ (List.nodup_cons.1 h.once).1 (heq ▸ List.mem_map_of_mem hother)

/-- The tree once a copy has the free name. -/
def renamedTree (tree : FileTree C) (copy : List FileName × FileName) (found : Found) (cloud : List Char) :
    FileTree C :=
  tree.rename copy.2 (free_name tree copy.1 found cloud) copy.1

/-- Where that is. -/
def targetOf (tree : FileTree C) (copy : List FileName × FileName) (found : Found) (cloud : List Char) :
    List FileName := copy.1 ++ [free_name tree copy.1 found cloud]

theorem get_targetOf (tree : FileTree C) (copy : List FileName × FileName) (found : Found) (cloud : List Char) :
    tree.get (targetOf tree copy found cloud) = none := by
  obtain ⟨number, -, hfree⟩ := free_name_free tree copy.1 found cloud
  exact hfree

theorem Listed.moved (h : Listed tree (copy :: copies)) (found : Found) (cloud : List Char) :
    ∃ content, tree.get (pathOf copy) = some (.file content) ∧
      FileTree.Moved tree (renamedTree tree copy found cloud) (pathOf copy)
        (targetOf tree copy found cloud) content := by
  obtain ⟨content, hget⟩ := h.files copy List.mem_cons_self
  exact ⟨content, hget, (FileTree.rename_moved h.distinct hget (get_targetOf tree copy found cloud)).2⟩

/-- **What is there stays**, but for the copy itself. -/
theorem Listed.get_of_ne (h : Listed tree (copy :: copies)) (found : Found) (cloud : List Char)
    (hget : tree.get path ≠ none) (hne : path ≠ pathOf copy) :
    (renamedTree tree copy found cloud).get path = tree.get path := by
  obtain ⟨content, -, hmoved⟩ := h.moved found cloud
  have htarget : path ≠ targetOf tree copy found cloud := by
    rintro rfl
    exact hget (get_targetOf tree copy found cloud)
  rw [hmoved path, if_neg htarget, if_neg hne]

theorem Listed.step (h : Listed tree (copy :: copies)) (found : Found) (cloud : List Char) :
    Listed (renamedTree tree copy found cloud) copies := by
  obtain ⟨content, hget⟩ := h.files copy List.mem_cons_self
  refine ⟨(FileTree.rename_moved h.distinct hget (get_targetOf tree copy found cloud)).1, fun other hother ↦ ?_,
    h.tail.once⟩
  obtain ⟨content', hget'⟩ := h.tail.files other hother
  have hthere : tree.get (pathOf other) ≠ none := by
    rw [hget']
    exact Option.some_ne_none _
  exact ⟨content', (h.get_of_ne found cloud hthere (h.ne other hother)).trans hget'⟩

/-- What is settled with a copy. -/
def settledWith (work : Work C) (copy : List FileName × FileName) (found : Found) (cloud : List Char) (now : ℕ) :
    Work C :=
  ⟨renamedTree work.tree copy found cloud, work.settled ++
    [⟨join copy.1 found.original, join copy.1 (free_name work.tree copy.1 found cloud), found.side, now⟩]⟩

theorem settle_found_none (h : parse copy.2 = none) :
    settle_found fails cloud now (copy :: copies) work = settle_found fails cloud now copies work := by
  rw [settle_found, h]

theorem settle_found_some (h : parse copy.2 = some found) :
    settle_found fails cloud now (copy :: copies) work =
      if fails work.settled.length then (work, false)
      else settle_found fails cloud now copies (settledWith work copy found cloud now) := by
  rw [settle_found, h]
  rfl

/-! ## All copies -/

/-- Where the next rename fails, nothing more is done. -/
theorem settle_found_fails (h : fails work.settled.length = true) (copies : List (List FileName × FileName)) :
    (settle_found fails cloud now copies work).1 = work := by
  induction copies with
  | nil => rfl
  | cons copy copies ih =>
    cases hparse : parse copy.2 with
    | none => rw [settle_found_none hparse, ih]
    | some found => rw [settle_found_some hparse, if_pos h]

/-- **A path that is there stays**, unless it is that of a copy that is recognized. -/
theorem settle_found_get (h : Listed work.tree copies) (hget : work.tree.get path ≠ none)
    (hne : ∀ copy ∈ copies, (parse copy.2).isSome → path ≠ pathOf copy) :
    (settle_found fails cloud now copies work).1.tree.get path = work.tree.get path := by
  induction copies generalizing work with
  | nil => rfl
  | cons copy copies ih =>
    have hrest : ∀ copy ∈ copies, (parse copy.2).isSome → path ≠ pathOf copy :=
      fun other hother ↦ hne other (List.mem_cons_of_mem copy hother)
    cases hparse : parse copy.2 with
    | none =>
      rw [settle_found_none hparse]
      exact ih h.tail hget hrest
    | some found =>
      rw [settle_found_some hparse]
      split
      · rfl
      · have hsame := h.get_of_ne found cloud hget (hne copy List.mem_cons_self (by rw [hparse]; rfl))
        rw [← hsame] at hget
        exact (@ih (settledWith work copy found cloud now) (h.step found cloud) hget hrest).trans hsame

/-- It is done with all copies just if none of the renames fails. -/
theorem settle_found_done : (settle_found fails cloud now copies work).2 = true ↔
    ∀ n < (copies.filter fun copy ↦ (parse copy.2).isSome).length, fails (work.settled.length + n) = false := by
  induction copies generalizing work with
  | nil => simp [settle_found]
  | cons copy copies ih =>
    cases hparse : parse copy.2 with
    | none => rw [settle_found_none hparse, ih, List.filter_cons_of_neg (by simp [hparse])]
    | some found =>
      rw [settle_found_some hparse, List.filter_cons_of_pos (by simp [hparse]), List.length_cons]
      cases hfails : fails work.settled.length with
      | true =>
        rw [if_pos rfl]
        exact iff_of_false Bool.false_ne_true fun h ↦ by
          have := h 0 (Nat.succ_pos _)
          rw [Nat.add_zero, hfails] at this
          cases this
      | false =>
        rw [if_neg Bool.false_ne_true, ih]
        have hlength : (settledWith work copy found cloud now).settled.length = work.settled.length + 1 := by
          simp [settledWith]
        rw [hlength]
        constructor
        · rintro h (_ | n) hn
          · exact hfails
          · rw [← Nat.add_assoc, Nat.add_right_comm]
            exact h n (Nat.lt_of_succ_lt_succ hn)
        · intro h n hn
          rw [Nat.add_right_comm]
          exact h (n + 1) (Nat.succ_lt_succ hn)

/-- Once a rename was done and one failed, a copy is gone. -/
theorem settle_found_gone (h : Listed work.tree copies)
    (hdone : (settle_found fails cloud now copies work).2 = false) (hfirst : fails work.settled.length = false) :
    ∃ copy ∈ copies, (settle_found fails cloud now copies work).1.tree.get (pathOf copy) = none := by
  induction copies generalizing work with
  | nil => cases hdone
  | cons copy copies ih =>
    cases hparse : parse copy.2 with
    | none =>
      rw [settle_found_none hparse] at hdone ⊢
      obtain ⟨other, hother, hgone⟩ := ih h.tail hdone hfirst
      exact ⟨other, List.mem_cons_of_mem copy hother, hgone⟩
    | some found =>
      rw [settle_found_some hparse, hfirst, if_neg Bool.false_ne_true] at hdone ⊢
      cases hnext : fails (settledWith work copy found cloud now).settled.length with
      | false =>
        obtain ⟨other, hother, hgone⟩ := ih (h.step found cloud) hdone hnext
        exact ⟨other, List.mem_cons_of_mem copy hother, hgone⟩
      | true =>
        refine ⟨copy, List.mem_cons_self, ?_⟩
        rw [settle_found_fails hnext]
        obtain ⟨content, hget, hmoved⟩ := h.moved found cloud
        have hne : pathOf copy ≠ targetOf work.tree copy found cloud := by
          intro heq
          rw [heq, get_targetOf] at hget
          cases hget
        exact (hmoved (pathOf copy)).trans (by rw [if_neg hne, if_pos rfl])

/-- What is at the free name once the copy has it. -/
theorem Listed.get_target (h : Listed tree (copy :: copies)) (found : Found) (cloud : List Char) :
    (renamedTree tree copy found cloud).get (targetOf tree copy found cloud) = tree.get (pathOf copy) := by
  obtain ⟨content, hget, hmoved⟩ := h.moved found cloud
  rw [hmoved, if_pos rfl, hget]

/-- No copy still to settle is at the free name. -/
theorem Listed.target_ne (h : Listed tree (copy :: copies)) (found : Found) (cloud : List Char) :
    ∀ other ∈ copies, targetOf tree copy found cloud ≠ pathOf other := by
  intro other hother heq
  obtain ⟨content, hget⟩ := h.tail.files other hother
  rw [← heq, get_targetOf] at hget
  cases hget

/-- A copy has its free name in the end. -/
theorem settle_found_target (h : Listed work.tree (copy :: copies)) (found : Found) :
    (settle_found fails cloud now copies (settledWith work copy found cloud now)).1.tree.get
      (targetOf work.tree copy found cloud) = work.tree.get (pathOf copy) := by
  rw [← h.get_target found cloud]
  refine settle_found_get (h.step found cloud) ?_ fun other hother _ ↦ h.target_ne found cloud other hother
  obtain ⟨content, hget⟩ := h.files copy List.mem_cons_self
  rw [settledWith, h.get_target found cloud, hget]
  exact Option.some_ne_none _

/-- A name that was given is there in the end. -/
theorem settle_found_given (h : Listed work.tree copies)
    (hdone : (settle_found fails cloud now copies work).2 = true) (hcopy : copy ∈ copies) (hparse : parse copy.2 = some found) :
    ∃ number content, (settle_found fails cloud now copies work).1.tree.get
      (copy.1 ++ [copy_name found cloud number]) = some (.file content) := by
  induction copies generalizing work with
  | nil => cases hcopy
  | cons first copies ih =>
    rcases List.mem_cons.1 hcopy with rfl | hcopy
    · rw [settle_found_some hparse] at hdone ⊢
      split at hdone
      · cases hdone
      · rename_i hfails
        obtain ⟨number, hname, -⟩ := free_name_free work.tree copy.1 found cloud
        obtain ⟨content, hget⟩ := h.files copy List.mem_cons_self
        refine ⟨number, content, ?_⟩
        rw [if_neg hfails, ← hname, ← hget]
        exact settle_found_target h found
    · cases hfirst : parse first.2 with
      | none =>
        rw [settle_found_none hfirst] at hdone ⊢
        exact ih h.tail hdone hcopy
      | some other =>
        rw [settle_found_some hfirst] at hdone ⊢
        split at hdone
        · cases hdone
        · rename_i hfails
          rw [if_neg hfails]
          exact ih (h.step other cloud) hdone hcopy

/-! ## Nothing lost, nothing replaced -/

/-- Renames after a first one, of which none gives back the name that one took away. -/
theorem Renamed.cons {tree' : FileTree C} {renames : List Renaming} (h : Listed tree (copy :: copies))
    (found : Found) (hrenamed : Renamed (renamedTree tree copy found cloud) tree' renames)
    (hsources : ∀ r ∈ renames, r.source ∈ copies.map pathOf)
    (hgiven : ∀ r ∈ renames, r.target ≠ pathOf copy) :
    Renamed tree tree' (⟨copy.1, copy.2, free_name tree copy.1 found cloud⟩ :: renames) := by
  obtain ⟨content, hget, hmoved⟩ := h.moved found cloud
  have htarget := (h.get_target found cloud).trans hget
  have hnotsource : ∀ r ∈ renames, r.source ≠ pathOf copy ∧ targetOf tree copy found cloud ≠ r.source := by
    intro r hr
    obtain ⟨other, hother, heq⟩ := List.mem_map.1 (hsources r hr)
    exact ⟨heq ▸ h.ne other hother, heq ▸ h.target_ne found cloud other hother⟩
  have hnottarget : ∀ r ∈ renames, targetOf tree copy found cloud ≠ r.target := by
    intro r hr heq
    rw [heq, hrenamed.free r hr] at htarget
    cases htarget
  have hne : pathOf copy ≠ targetOf tree copy found cloud := by
    intro heq
    rw [heq, get_targetOf] at hget
    cases hget
  refine ⟨?_, ?_, ?_, ?_, ?_⟩
  · refine List.forall_mem_cons.2 ⟨⟨content, hget, ?_⟩, fun r hr ↦ ?_⟩
    · exact (hrenamed.others _ fun r hr ↦ ⟨(hnotsource r hr).2, hnottarget r hr⟩).trans htarget
    · obtain ⟨content', hsource, hto⟩ := hrenamed.moved r hr
      rw [hmoved, if_neg (hnotsource r hr).2.symm, if_neg (hnotsource r hr).1] at hsource
      exact ⟨content', hsource, hto⟩
  · refine List.forall_mem_cons.2 ⟨get_targetOf tree copy found cloud, fun r hr ↦ ?_⟩
    have hfree := hrenamed.free r hr
    rwa [hmoved, if_neg (hnottarget r hr).symm, if_neg (hgiven r hr)] at hfree
  · refine List.forall_mem_cons.2 ⟨?_, hrenamed.gone⟩
    have hstays := hrenamed.others (pathOf copy) fun r hr ↦ ⟨(hnotsource r hr).1.symm, (hgiven r hr).symm⟩
    rw [hmoved, if_neg hne, if_pos rfl] at hstays
    exact hstays
  · intro path hpath
    obtain ⟨hhead, hrest⟩ := List.forall_mem_cons.1 hpath
    have hothers : path ≠ targetOf tree copy found cloud ∧ path ≠ pathOf copy := ⟨hhead.2, hhead.1⟩
    rw [hrenamed.others path hrest, hmoved, if_neg hothers.1, if_neg hothers.2]
  · refine List.nodup_cons.2 ⟨fun hin ↦ ?_, hrenamed.once⟩
    obtain ⟨r, hr, heq⟩ := List.mem_map.1 hin
    exact (hnotsource r hr).1 heq

/-- The renames that are done where none fails and no name is retaken. -/
theorem settle_found_renamed (h : Listed work.tree copies) (hcloud : '.' ∉ cloud)
    (hdone : (settle_found fails cloud now copies work).2 = true)
    (hnames : ∀ copy ∈ copies, ∀ found, parse copy.2 = some found →
      ∀ side : Side, ¬Retaken side.mark found.stem found.extension) :
    ∃ renames entries, Renamed work.tree (settle_found fails cloud now copies work).1.tree renames ∧
      (settle_found fails cloud now copies work).1.settled = work.settled ++ entries ∧
      List.Forall₂ (EntryFor now) renames entries ∧
      (∀ r ∈ renames, (r.folder, r.name) ∈ copies ∧ (parse r.name).isSome ∧ parse r.free = none) ∧
      ∀ copy ∈ copies, (parse copy.2).isSome → ∃ r ∈ renames, r.source = pathOf copy := by
  induction copies generalizing work with
  | nil =>
    exact ⟨[], [], ⟨by simp, by simp, by simp, fun _ _ ↦ rfl, List.nodup_nil⟩, by simp [settle_found], .nil,
      by simp, by simp⟩
  | cons copy copies ih =>
    have hrest : ∀ other ∈ copies, ∀ found, parse other.2 = some found →
        ∀ side : Side, ¬Retaken side.mark found.stem found.extension :=
      fun other hother ↦ hnames other (List.mem_cons_of_mem copy hother)
    cases hparse : parse copy.2 with
    | none =>
      rw [settle_found_none hparse] at hdone ⊢
      obtain ⟨renames, entries, hrenamed, hsettled, hentries, hin, hall⟩ := ih h.tail hdone hrest
      refine ⟨renames, entries, hrenamed, hsettled, hentries,
        fun r hr ↦ ⟨List.mem_cons_of_mem copy (hin r hr).1, (hin r hr).2⟩, ?_⟩
      exact List.forall_mem_cons.2 ⟨fun hsome ↦ by simp [hparse] at hsome, hall⟩
    | some found =>
      rw [settle_found_some hparse] at hdone ⊢
      split at hdone
      · cases hdone
      · rename_i hfails
        rw [if_neg hfails]
        obtain ⟨renames, entries, hrenamed, hsettled, hentries, hin, hall⟩ :=
          @ih (settledWith work copy found cloud now) (h.step found cloud) hdone hrest
        obtain ⟨number, hname, -⟩ := free_name_free work.tree copy.1 found cloud
        have hfree : parse (free_name work.tree copy.1 found cloud) = none := by
          rw [hname, ← Option.not_isSome_iff_eq_none, parse_copy_name_iff hparse hcloud]
          rintro ⟨side, hside⟩
          exact hnames copy List.mem_cons_self found hparse side hside
        refine ⟨_,
          ⟨join copy.1 found.original, join copy.1 (free_name work.tree copy.1 found cloud), found.side, now⟩ ::
            entries, hrenamed.cons h found ?_ ?_, ?_, .cons ⟨found, hparse, rfl⟩ hentries, ?_, ?_⟩
        · exact fun r hr ↦ List.mem_map.2 ⟨_, (hin r hr).1, rfl⟩
        · intro r hr heq
          have hlast := (List.append_inj' heq rfl).2
          rw [List.cons.injEq] at hlast
          have hnone := (hin r hr).2.2
          rw [hlast.1, hparse] at hnone
          cases hnone
        · rw [hsettled, settledWith, List.append_assoc]
          rfl
        · exact List.forall_mem_cons.2 ⟨⟨List.mem_cons_self, by rw [hparse]; rfl, hfree⟩,
            fun r hr ↦ ⟨List.mem_cons_of_mem copy (hin r hr).1, (hin r hr).2⟩⟩
        · refine List.forall_mem_cons.2 ⟨fun _ ↦ ⟨_, List.mem_cons_self, rfl⟩, fun other hother hsome ↦ ?_⟩
          obtain ⟨r, hr, heq⟩ := hall other hother hsome
          exact ⟨r, List.mem_cons_of_mem _ hr, heq⟩

/-! ## Settling -/

theorem listed_walk (htree : tree.Distinct) : Listed tree (walk [] tree) :=
  ⟨htree, fun _ hcopy ↦ get_of_mem_walk htree hcopy, nodup_walk htree []⟩

theorem Provider.not_mem_name (provider : Provider) : '.' ∉ provider.name := by cases provider <;> decide +kernel

theorem Side.mark_eq (side : Side) : ∃ rest, side.mark = LUFT ++ rest := by
  cases side
  · exact ⟨"device".toList, by decide +kernel⟩
  · exact ⟨"cloud".toList, by decide +kernel⟩

/-- A conflict copy is among what is found. -/
theorem mem_walk_of_isCopy (hcopy : IsCopy name) (hget : tree.get (folder ++ [name]) = some (.file content)) :
    (folder, name) ∈ walk [] tree := by
  obtain ⟨stem, side, digits, extension, -, -, rfl⟩ := hcopy
  obtain ⟨rest, hmark⟩ := side.mark_eq
  have hsome : (Text.rfind LUFT (stem ++ (side.mark ++ (digits ++ extension)))).isSome := by
    rw [Option.isSome_iff_ne_none, Ne, Text.rfind_eq_none_iff]
    intro h
    exact h stem (rest ++ (digits ++ extension)) (by rw [hmark, List.append_assoc])
  exact mem_walk hsome hget []

section

variable {faults : Faults} {provider : Provider} {conflicts : List Conflict}

/-- What is settled if the folders can be read. -/
def settling (faults : Faults) (provider : Provider) (now : ℕ) (tree : FileTree C) : Work C × Bool :=
  settle_found faults.rename provider.name now (walk [] tree) ⟨tree, []⟩

theorem settle_of_done (hwalk : faults.walk = false) (hdone : (settling faults provider now tree).2 = true) :
    settle faults provider now conflicts tree = ⟨(settling faults provider now tree).1.tree,
      conflicts ++ (settling faults provider now tree).1.settled,
      some (!(settling faults provider now tree).1.settled.isEmpty)⟩ := by
  rw [settle, hwalk, if_neg Bool.false_ne_true, ← settling]
  rcases hsettling : settling faults provider now tree with ⟨work, done⟩
  rw [hsettling] at hdone
  cases hdone
  rfl

theorem settle_of_failed (hwalk : faults.walk = false) (hdone : (settling faults provider now tree).2 = false) :
    settle faults provider now conflicts tree = ⟨(settling faults provider now tree).1.tree, conflicts, none⟩ := by
  rw [settle, hwalk, if_neg Bool.false_ne_true, ← settling]
  rcases hsettling : settling faults provider now tree with ⟨work, done⟩
  rw [hsettling] at hdone
  cases hdone
  rfl

theorem settling_done : (settling faults provider now tree).2 = true ↔
    ∀ n < (recognized tree).length, faults.rename n = false := by
  rw [settling, settle_found_done]
  simp [recognized]

variable (now faults provider) in
theorem settling_get (htree : tree.Distinct) (hget : tree.get path ≠ none)
    (hne : ∀ copy ∈ walk [] tree, (parse copy.2).isSome → path ≠ pathOf copy) :
    (settling faults provider now tree).1.tree.get path = tree.get path :=
  settle_found_get (listed_walk htree) hget hne

theorem settling_gone (htree : tree.Distinct) (hdone : (settling faults provider now tree).2 = false)
    (hfirst : faults.rename 0 = false) :
    ∃ copy ∈ walk [] tree, (settling faults provider now tree).1.tree.get (pathOf copy) = none :=
  settle_found_gone (listed_walk htree) hdone hfirst

theorem settling_given (htree : tree.Distinct) (hdone : (settling faults provider now tree).2 = true)
    (hcopy : copy ∈ walk [] tree) (hparse : parse copy.2 = some found) :
    ∃ number content, (settling faults provider now tree).1.tree.get
      (copy.1 ++ [copy_name found provider.name number]) = some (.file content) :=
  settle_found_given (listed_walk htree) hdone hcopy hparse

theorem settling_renamed (htree : tree.Distinct) (hdone : (settling faults provider now tree).2 = true)
    (hnames : ∀ copy ∈ walk [] tree, ∀ found, parse copy.2 = some found →
      ∀ side : Side, ¬Retaken side.mark found.stem found.extension) :
    ∃ renames entries, Renamed tree (settling faults provider now tree).1.tree renames ∧
      (settling faults provider now tree).1.settled = [] ++ entries ∧ List.Forall₂ (EntryFor now) renames entries ∧
      (∀ r ∈ renames, (r.folder, r.name) ∈ walk [] tree ∧ (parse r.name).isSome ∧ parse r.free = none) ∧
      ∀ copy ∈ walk [] tree, (parse copy.2).isSome → ∃ r ∈ renames, r.source = pathOf copy :=
  have hlisted : Listed (Work.mk tree []).tree (walk [] tree) := listed_walk htree
  settle_found_renamed hlisted provider.not_mem_name hdone hnames

/-- Nothing was renamed, and nothing else done. -/
theorem asClaimed_of_unchanged (now : ℕ) (conflicts : List Conflict) (tree : FileTree C) :
    AsClaimed now conflicts tree ⟨tree, conflicts, none⟩ :=
  ⟨[], [], ⟨by simp, by simp, by simp, fun _ _ ↦ rfl, List.nodup_nil⟩, by simp, by simp, by simp, .nil, by simp⟩

theorem asClaimed_of_blocked (h : Blocked faults tree) :
    AsClaimed now conflicts tree (settle faults provider now conflicts tree) := by
  cases hwalk : faults.walk with
  | true =>
    rw [settle, if_pos hwalk]
    exact asClaimed_of_unchanged now conflicts tree
  | false =>
    obtain ⟨hne, hfirst⟩ := h.resolve_left (by simp [hwalk])
    have hdone : (settling faults provider now tree).2 = false := by
      rw [Bool.eq_false_iff, Ne, settling_done]
      intro hall
      rw [hall 0 (List.length_pos_iff.2 hne)] at hfirst
      cases hfirst
    have hsame : (settling faults provider now tree).1 = ⟨tree, []⟩ := settle_found_fails hfirst _
    rw [settle_of_failed hwalk hdone, hsame]
    exact asClaimed_of_unchanged now conflicts tree

theorem asClaimed_of_clear (htree : tree.Distinct) (hwalk : faults.walk = false) (h : Clear faults tree) :
    AsClaimed now conflicts tree (settle faults provider now conflicts tree) := by
  have hdone : (settling faults provider now tree).2 = true := settling_done.2 h.renames
  have hnames : ∀ copy ∈ walk [] tree, ∀ found, parse copy.2 = some found →
      ∀ side : Side, ¬Retaken side.mark found.stem found.extension :=
    fun copy hcopy found hparse ↦ h.names copy (List.mem_filter.2 ⟨hcopy, by simp [hparse]⟩) found hparse
  obtain ⟨renames, entries, hrenamed, hsettled, hentries, hin, hall⟩ :=
    settling_renamed htree hdone hnames
  rw [settle_of_done hwalk hdone]
  refine ⟨renames, entries, hrenamed, fun r hr ↦ ?_, fun _ folder name content hget hcopy ↦ ?_, ?_, hentries,
    fun r hr ↦ (hin r hr).2.2⟩
  · obtain ⟨found, hparse⟩ := Option.isSome_iff_exists.1 (hin r hr).2.1
    exact isCopy_of_parse hparse
  · exact hall (folder, name) (mem_walk_of_isCopy hcopy hget) (h.copies folder name content hget hcopy)
  · exact congrArg (conflicts ++ ·) (hsettled.trans (List.nil_append entries))

/-- **What is claimed needs**: where it does not end with the first rename, no rename fails. -/
theorem clear_of_asClaimed (htree : tree.Distinct) (hblocked : ¬Blocked faults tree)
    (h : AsClaimed now conflicts tree (settle faults provider now conflicts tree)) : Clear faults tree := by
  rw [Blocked, not_or, not_and, Bool.not_eq_true, Bool.not_eq_true] at hblocked
  obtain ⟨hwalk, hfirst⟩ := hblocked
  obtain ⟨renames, entries, hrenamed, -, hall, hconflicts, hentries, hgiven⟩ := h
  have hdone : (settling faults provider now tree).2 = true := by
    refine Bool.eq_true_of_not_eq_false fun hfailed ↦ ?_
    rw [settle_of_failed hwalk hfailed] at hrenamed hconflicts
    -- with no entry added there is no rename to account for the copy that is gone
    obtain rfl : entries = [] := by simpa using hconflicts
    obtain rfl : renames = [] := by simpa using hentries
    have hne : recognized tree ≠ [] := by
      rintro hnil
      rw [Bool.eq_false_iff, Ne, settling_done, hnil] at hfailed
      simp at hfailed
    obtain ⟨copy, hcopy, hgone⟩ := settling_gone htree hfailed (hfirst hne)
    obtain ⟨content, hget⟩ := get_of_mem_walk htree hcopy
    have hsame := hrenamed.others (pathOf copy) (by simp)
    rw [hget, hgone] at hsame
    cases hsame
  rw [settle_of_done hwalk hdone] at hrenamed hall
  have hgone : ∀ folder name content, tree.get (folder ++ [name]) = some (.file content) → IsCopy name →
      (settling faults provider now tree).1.tree.get (folder ++ [name]) = none := by
    intro folder name content hget hcopy
    obtain ⟨r, hr, heq⟩ := hall rfl folder name content hget hcopy
    rw [← heq]
    exact hrenamed.gone r hr
  refine ⟨settling_done.1 hdone, fun folder name content hget hcopy ↦ ?_,
    fun copy hcopy found hparse side hretaken ↦ ?_⟩
  · -- a copy that is not recognized stays
    by_contra hnone
    have hne : ∀ copy ∈ walk [] tree, (parse copy.2).isSome → folder ++ [name] ≠ pathOf copy := by
      intro copy _ hsome heq
      have hlast := (List.append_inj' heq rfl).2
      rw [List.cons.injEq] at hlast
      rw [← hlast.1] at hsome
      exact hnone hsome
    have hstays := settling_get now faults provider htree (by rw [hget]; exact Option.some_ne_none _) hne
    rw [hgone folder name content hget hcopy, hget] at hstays
    cases hstays
  · -- a name that is retaken is there in the end, but is neither one that was given nor was there before
    obtain ⟨number, content, hget⟩ := settling_given htree hdone (List.mem_filter.1 hcopy).1 hparse
    have hsome := (parse_copy_name_iff hparse provider.not_mem_name number).2 ⟨side, hretaken⟩
    obtain ⟨again, hagain⟩ := Option.isSome_iff_exists.1 hsome
    by_cases hnew : ∃ r ∈ renames, copy.1 ++ [copy_name found provider.name number] = r.target
    · obtain ⟨r, hr, heq⟩ := hnew
      have hlast := (List.append_inj' heq rfl).2
      rw [List.cons.injEq] at hlast
      rw [hlast.1, hgiven r hr] at hagain
      cases hagain
    · have hothers : ∀ r ∈ renames, copy.1 ++ [copy_name found provider.name number] ≠ r.source ∧
          copy.1 ++ [copy_name found provider.name number] ≠ r.target := by
        refine fun r hr ↦ ⟨fun heq ↦ ?_, fun heq ↦ hnew ⟨r, hr, heq⟩⟩
        have hnone := hrenamed.gone r hr
        rw [← heq, hget] at hnone
        cases hnone
      have hbefore := (hrenamed.others _ hothers).symm.trans hget
      rw [hgone _ _ _ hbefore (isCopy_of_parse hagain)] at hget
      cases hget

end

/-- Kept files, with the names in each folder distinct. -/
structure Kept (C : Type) where
  tree : FileTree C
  distinct : tree.Distinct

/-- Two notes, each with a conflict copy. -/
def twoCopies : FileTree ℕ :=
  .file "a.luft-device1".toList 1 (.file "b.luft-cloud1".toList 2 .nil)

end Drives
