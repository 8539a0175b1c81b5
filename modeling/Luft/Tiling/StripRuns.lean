import Luft.Lib.First
import Luft.Tiling.Strip
import Mathlib.Data.List.Induction
import Mathlib.Data.List.Nodup
import Mathlib.Data.List.Perm.Basic
import Mathlib.Data.Set.Basic

/-!
# What every run of the scrolling strip keeps

Up to their order, an operation replaces one column of the strip, or puts one in or takes one out;
that is all it takes to see that the columns stay whole and which windows there are (`Kept`).  Only
`remove` has to say where the focus goes: it keeps the row's number, so the focus slips to the
window below when one above it leaves, unless there is none below (`Shifts`).
-/

set_option autoImplicit false

namespace Tiling

variable {T : Type*}

/-- As many weights as windows, and the row is one of them. -/
structure Column.Whole (column : Column T) : Prop where
  weights : column.weights.length = column.windows.length
  row : column.row < column.windows.length

namespace Strip

variable {s : Strip T} {columns : List (Column T)} {column : Column T} {index : ℕ}

/-! ## Columns up to their order -/

theorem perm_eraseIdx (h : columns[index]? = some column) :
    (column :: columns.eraseIdx index).Perm columns := by
  obtain ⟨hlt, rfl⟩ := List.getElem?_eq_some_iff.1 h
  exact List.getElem_cons_eraseIdx_perm hlt

theorem perm_modify (h : columns[index]? = some column) (change : Column T → Column T) :
    (columns.modify index change).Perm (change column :: columns.eraseIdx index) := by
  have hmodify : (columns.modify index change)[index]? = some (change column) := by
    rw [List.getElem?_modify_eq, h]
    rfl
  have hperm := perm_eraseIdx hmodify
  rw [List.eraseIdx_modify_of_eq] at hperm
  exact hperm.symm

/-- What was put in is in the list. -/
theorem lt_insertIdx {α : Type*} {l : List α} {a : α} {i : ℕ} (h : i ≤ l.length) :
    i < (l.insertIdx i a).length := by
  rw [(List.perm_insertIdx a l h).length_eq]
  exact Nat.lt_succ_of_le h

theorem perm_swapAt {α : Type*} (l : List α) (i j : ℕ) : (swapAt l i j).Perm l := by
  rw [swapAt]
  split
  · rename_i a b ha hb
    obtain ⟨hi, rfl⟩ := List.getElem?_eq_some_iff.1 ha
    obtain ⟨hj, rfl⟩ := List.getElem?_eq_some_iff.1 hb
    exact List.set_set_perm hi hj
  · exact List.Perm.refl l

/-- The windows of some columns. -/
def windowsOf (columns : List (Column T)) : List T := columns.flatMap Column.windows

theorem windowsOf_perm {columns' : List (Column T)} (h : columns.Perm columns') :
    (windowsOf columns).Perm (windowsOf columns') := h.flatMap_right _

theorem windowsOf_cons (column : Column T) (columns : List (Column T)) :
    windowsOf (column :: columns) = column.windows ++ windowsOf columns := List.flatMap_cons ..

theorem windowsOf_append (columns columns' : List (Column T)) :
    windowsOf (columns ++ columns') = windowsOf columns ++ windowsOf columns' :=
  List.flatMap_append ..

/-- A strip whose columns are whole, with a focused one if there is any, and which has each of
these windows once. -/
structure Kept (s : Strip T) (present : Set T) : Prop where
  columns : ∀ column ∈ s.columns, column.Whole
  focused : s.columns ≠ [] → s.focused < s.columns.length
  nodup : s.windows.Nodup
  windows : ∀ window, window ∈ s.windows ↔ window ∈ present

namespace Kept

variable {present : Set T}

/-- Only the columns, up to their order, and the focus matter. -/
theorem of_perm {s' : Strip T} (h : s.Kept present) (hcolumns : s'.columns.Perm s.columns)
    (hfocused : s'.columns ≠ [] → s'.focused < s'.columns.length) : s'.Kept present where
  columns column hcolumn := h.columns column (hcolumns.subset hcolumn)
  focused := hfocused
  nodup := (windowsOf_perm hcolumns).nodup_iff.2 h.nodup
  windows window := (windowsOf_perm hcolumns).mem_iff.trans (h.windows window)

/-- **Some columns replaced by others** with the same windows. -/
theorem replace {s' : Strip T} (olds news : List (Column T)) {rest : List (Column T)}
    (h : s.Kept present)
    (hold : s.columns.Perm (olds ++ rest)) (hnew : s'.columns.Perm (news ++ rest))
    (hwhole : ∀ column ∈ news, column.Whole)
    (hwindows : (windowsOf news).Perm (windowsOf olds))
    (hfocused : s'.columns ≠ [] → s'.focused < s'.columns.length) : s'.Kept present := by
  have hperm : s'.windows.Perm s.windows := by
    refine (windowsOf_perm hnew).trans (.trans ?_ (windowsOf_perm hold).symm)
    rw [windowsOf_append, windowsOf_append]
    exact hwindows.append_right _
  refine ⟨fun c hc ↦ ?_, hfocused, hperm.nodup_iff.2 h.nodup,
    fun window ↦ hperm.mem_iff.trans (h.windows window)⟩
  rcases List.mem_append.1 (hnew.subset hc) with hc | hc
  · exact hwhole c hc
  · exact h.columns c (hold.symm.subset (List.mem_append_right _ hc))

/-- One column replaced by another. -/
theorem replace_one {s' : Strip T} {column' : Column T} {rest : List (Column T)}
    (h : s.Kept present)
    (hold : s.columns.Perm (column :: rest)) (hnew : s'.columns.Perm (column' :: rest))
    (hwhole : column'.Whole) (hwindows : column'.windows.Perm column.windows)
    (hfocused : s'.columns ≠ [] → s'.focused < s'.columns.length) : s'.Kept present := by
  refine h.replace [column] [column'] hold hnew ?_ ?_ hfocused
  · rintro c (_ | ⟨_, hc⟩)
    · exact hwhole
    · cases hc
  · rw [windowsOf_cons, windowsOf_cons]
    exact hwindows.append_right _

/-- **One column changed in place.** -/
theorem modify (h : s.Kept present) (index : ℕ) {change : Column T → Column T}
    (hchange : ∀ column ∈ s.columns, column.Whole →
      (change column).Whole ∧ (change column).windows.Perm column.windows) :
    (s.modify index change).Kept present := by
  cases hcolumn : s.columns[index]? with
  | none =>
    have hsame : s.columns.modify index change = s.columns :=
      List.modify_eq_self (List.getElem?_eq_none_iff.1 hcolumn)
    rw [Strip.modify, hsame]
    exact h
  | some column =>
    have hmem := List.mem_of_getElem? hcolumn
    obtain ⟨hwhole, hwindows⟩ := hchange column hmem (h.columns column hmem)
    refine h.replace_one (perm_eraseIdx hcolumn).symm (perm_modify hcolumn change) hwhole
      hwindows ?_
    intro hne
    show s.focused < (s.columns.modify index change).length
    rw [List.length_modify]
    refine h.focused ?_
    rintro hnil
    rw [hnil] at hmem
    cases hmem

/-- Another focus. -/
theorem refocus (h : s.Kept present) {index : ℕ} (hindex : index < s.columns.length) :
    { s with focused := index }.Kept present :=
  h.of_perm (List.Perm.refl _) fun _ ↦ hindex

end Kept

end Strip

/-! ## Columns that stay whole -/

namespace Column.Whole

variable {column : Column T}

theorem single (window : T) (width : ℚ) : (Strip.single window width).Whole :=
  ⟨rfl, Nat.one_pos⟩

theorem without (h : column.Whole) {row : ℕ} (hrow : row < column.windows.length)
    (hmany : 1 < column.windows.length) : (column.without row).Whole := by
  refine ⟨?_, ?_⟩
  · show (column.weights.eraseIdx row).length = (column.windows.eraseIdx row).length
    rw [List.length_eraseIdx_of_lt (by rw [h.weights]; exact hrow),
      List.length_eraseIdx_of_lt hrow, h.weights]
  · show min column.row (column.windows.length - 2) < (column.windows.eraseIdx row).length
    rw [List.length_eraseIdx_of_lt hrow]
    omega

theorem onto (h : column.Whole) (window : T) : (Strip.onto window column).Whole := by
  refine ⟨?_, ?_⟩
  · show (column.weights ++ [1]).length = (column.windows ++ [window]).length
    rw [List.length_append, List.length_append, h.weights]
    rfl
  · show column.windows.length < (column.windows ++ [window]).length
    rw [List.length_append]
    exact Nat.lt_succ_self _

theorem length_swapAt {α : Type*} (l : List α) (i j : ℕ) :
    (Strip.swapAt l i j).length = l.length :=
  (Strip.perm_swapAt l i j).length_eq

end Column.Whole

namespace Strip

variable {s : Strip T} {present : Set T}

/-! ## The operations -/

theorem kept_add (h : s.Kept present) {window : T} (hnew : window ∉ present) (beside : Bool) :
    (s.add window beside).Kept (present ∪ {window}) := by
  have hindex : (if beside && !s.columns.isEmpty then s.focused + 1 else s.columns.length) ≤
      s.columns.length := by
    split
    · rename_i hcond
      rw [Bool.and_eq_true, Bool.not_eq_true', List.isEmpty_eq_false_iff] at hcond
      exact h.focused hcond.2
    · exact le_rfl
  have hperm : (s.add window beside).columns.Perm (single window defaultWidth :: s.columns) :=
    List.perm_insertIdx _ _ hindex
  have hwindows : (s.add window beside).windows.Perm (window :: s.windows) := windowsOf_perm hperm
  refine ⟨fun c hc ↦ ?_, fun _ ↦ ?_, ?_, fun w ↦ ?_⟩
  · rcases List.mem_cons.1 (hperm.subset hc) with rfl | hc
    · exact Column.Whole.single window _
    · exact h.columns c hc
  · rw [hperm.length_eq]
    exact Nat.lt_succ_of_le hindex
  · rw [hwindows.nodup_iff, List.nodup_cons]
    exact ⟨fun hin ↦ hnew ((h.windows window).1 hin), h.nodup⟩
  · rw [hwindows.mem_iff, List.mem_cons, h.windows, Set.mem_union, Set.mem_singleton_iff, or_comm]

theorem kept_moveColumn (h : s.Kept present) {direction : Step} {s' : Strip T}
    (hs : s.moveColumn direction = some s') : s'.Kept present := by
  rw [moveColumn] at hs
  split at hs
  · cases hs
  · rename_i target htarget
    split at hs
    · rename_i hlt
      cases hs
      refine h.of_perm (perm_swapAt _ _ _) fun _ ↦ ?_
      show target < (swapAt s.columns s.focused target).length
      rw [Column.Whole.length_swapAt]
      exact hlt
    · cases hs

theorem kept_moveRow (h : s.Kept present) {direction : Step} {s' : Strip T}
    (hs : s.moveRow direction = some s') : s'.Kept present := by
  rw [moveRow] at hs
  split at hs
  · cases hs
  · rename_i column hcolumn
    split at hs
    · cases hs
    · rename_i target htarget
      split at hs
      · rename_i hlt
        cases hs
        refine h.replace_one (perm_eraseIdx hcolumn).symm (perm_modify hcolumn _) ?_
          (perm_swapAt _ _ _) ?_
        · have hwhole := h.columns column (List.mem_of_getElem? hcolumn)
          refine ⟨?_, ?_⟩
          · show (swapAt _ _ _).length = (swapAt _ _ _).length
            rw [Column.Whole.length_swapAt, Column.Whole.length_swapAt, hwhole.weights]
          · show target < (swapAt _ _ _).length
            rw [Column.Whole.length_swapAt]
            exact hlt
        · intro _
          show s.focused < (s.columns.modify s.focused _).length
          rw [List.length_modify]
          exact (List.getElem?_eq_some_iff.1 hcolumn).1
      · cases hs

/-- The focused window is in its column. -/
theorem focusedWindow_eq {column : Column T} (hcolumn : s.columns[s.focused]? = some column)
    {window : T} (hwindow : s.focusedWindow = some window) :
    column.windows[column.row]? = some window := by
  rw [focusedWindow, hcolumn] at hwindow
  exact hwindow

/-- Taking a window out of a column. -/
theorem without_windows {column : Column T} {row : ℕ} {window : T}
    (h : column.windows[row]? = some window) :
    (window :: (column.without row).windows).Perm column.windows := by
  obtain ⟨hlt, rfl⟩ := List.getElem?_eq_some_iff.1 h
  exact List.getElem_cons_eraseIdx_perm hlt

/-- A column's only window joining its neighbor: the two columns become one. -/
theorem perm_join {columns : List (Column T)} {column neighbor : Column T} (window : T)
    {index target : ℕ}
    (hcolumn : columns[index]? = some column) (hneighbor : columns[target]? = some neighbor)
    (hne : target ≠ index) : ∃ rest, columns.Perm ([column, neighbor] ++ rest) ∧
      ((columns.modify target (onto window)).eraseIdx index).Perm
        ([onto window neighbor] ++ rest) := by
  rcases Nat.lt_or_gt_of_ne hne with hlt | hgt
  · have hleft : (columns.eraseIdx index)[target]? = some neighbor := by
      rw [List.getElem?_eraseIdx_of_lt hlt, hneighbor]
    refine ⟨(columns.eraseIdx index).eraseIdx target, ?_, ?_⟩
    · exact (perm_eraseIdx hcolumn).symm.trans ((perm_eraseIdx hleft).symm.cons _)
    · rw [List.eraseIdx_modify_of_gt _ _ _ _ hlt]
      exact perm_modify hleft _
  · obtain ⟨target, rfl⟩ : ∃ k, target = k + 1 := ⟨target - 1, by omega⟩
    have hleft : (columns.eraseIdx index)[target]? = some neighbor := by
      rw [List.getElem?_eraseIdx_of_ge (Nat.le_of_lt_succ hgt), hneighbor]
    refine ⟨(columns.eraseIdx index).eraseIdx target, ?_, ?_⟩
    · exact (perm_eraseIdx hcolumn).symm.trans ((perm_eraseIdx hleft).symm.cons _)
    · rw [List.eraseIdx_modify_of_lt _ _ _ _ hgt]
      exact perm_modify hleft _

theorem next_ne {direction : Step} {i j : ℕ} (h : direction.next i = some j) : j ≠ i := by
  rintro rfl
  cases direction with
  | back =>
    cases j with
    | zero => cases h
    | succ j => exact (Nat.lt_succ_self j).ne (Option.some_inj.1 h)
  | forth => exact (Nat.lt_succ_self j).ne' (Option.some_inj.1 h)

/-- Two members out of one list and one of them back in: how long it is then. -/
theorem length_join {columns : List (Column T)} (window : T) {index target : ℕ}
    (h : index < columns.length) : ((columns.modify target (onto window)).eraseIdx index).length =
      columns.length - 1 := by
  rw [List.length_eraseIdx_of_lt (by rw [List.length_modify]; exact h), List.length_modify]

theorem kept_stack (h : s.Kept present) {direction : Step} {s' : Strip T}
    (hs : s.stack direction = some s') : s'.Kept present := by
  unfold stack at hs
  split at hs
  · rename_i column window hcolumn hwindow
    have hwhole := h.columns column (List.mem_of_getElem? hcolumn)
    have hat := focusedWindow_eq hcolumn hwindow
    have hfocused := (List.getElem?_eq_some_iff.1 hcolumn).1
    split at hs
    · -- The window leaves the others, for a column of its own.
      rename_i hmany
      cases hs
      refine h.replace [column] [single window column.width, column.without column.row]
        (perm_eraseIdx hcolumn).symm ((List.perm_insertIdx _ _ ?_).trans
          ((perm_modify hcolumn _).cons _)) ?_ ?_ fun _ ↦ ?_
      · rw [List.length_modify]
        cases direction
        · exact hfocused.le
        · exact hfocused
      · intro c hc
        rw [List.mem_cons, List.mem_singleton] at hc
        rcases hc with rfl | rfl
        · exact Column.Whole.single window _
        · exact hwhole.without hwhole.row hmany
      · rw [windowsOf_cons, windowsOf_cons, windowsOf_cons, ← List.append_assoc]
        exact (without_windows hat).append_right _
      · cases direction
        · exact lt_insertIdx (by rw [List.length_modify]; exact hfocused.le)
        · exact lt_insertIdx (by rw [List.length_modify]; exact hfocused)
    · -- The window joins its neighbor.
      rename_i hone
      split at hs
      · cases hs
      · rename_i target htarget
        split at hs
        · rename_i hlt
          cases hs
          have hne := next_ne htarget
          have hneighbor := List.getElem?_eq_getElem hlt
          have hnwhole := h.columns _ (List.getElem_mem hlt)
          obtain ⟨rest, hold, hnew⟩ := perm_join window hcolumn hneighbor hne
          have halone : column.windows = [window] := by
            have hrow := hwhole.row
            obtain ⟨w, hw⟩ := List.length_eq_one_iff.1 (by omega : column.windows.length = 1)
            have hzero : column.row = 0 := by omega
            rw [hzero, hw] at hat
            rw [hw, ← Option.some_inj.1 hat]
          refine h.replace _ _ hold hnew ?_ ?_ fun _ ↦ ?_
          · intro c hc
            rw [List.mem_singleton.1 hc]
            exact hnwhole.onto window
          · rw [windowsOf_cons, windowsOf_cons, windowsOf_cons, halone]
            show (s.columns[target].windows ++ [window] ++ _).Perm ([window] ++ _)
            rw [← List.append_assoc]
            exact List.perm_append_comm.append_right _
          · show min s.focused target < (List.eraseIdx _ _).length
            rw [length_join window hfocused]
            omega
        · cases hs
  · cases hs

theorem kept_moveColumnToEdge (h : s.Kept present) {last : Bool} {s' : Strip T}
    (hs : s.moveColumnToEdge last = some s') : s'.Kept present := by
  cases hcolumn : s.columns[s.focused]? with
  | none =>
    simp only [moveColumnToEdge, hcolumn] at hs
    cases hs
  | some column =>
    simp only [moveColumnToEdge, hcolumn] at hs
    have hfocused := (List.getElem?_eq_some_iff.1 hcolumn).1
    by_cases hsame : (if last then s.columns.length - 1 else 0) = s.focused
    · rw [if_pos hsame] at hs
      cases hs
    · rw [if_neg hsame, Option.some_inj] at hs
      rw [← hs]
      have hindex : (if last then s.columns.length - 1 else 0) ≤
          (s.columns.eraseIdx s.focused).length := by
        rw [List.length_eraseIdx_of_lt hfocused]
        split
        · exact le_rfl
        · exact Nat.zero_le _
      have hperm := List.perm_insertIdx column (s.columns.eraseIdx s.focused) hindex
      refine h.of_perm (hperm.trans (perm_eraseIdx hcolumn)) fun _ ↦ ?_
      show _ < (List.insertIdx _ _ _).length
      rw [hperm.length_eq]
      exact Nat.lt_succ_of_le hindex

/-! ## Finding a window -/

/-- A window of the strip is in one column, at one row. -/
theorem unique_place (hnd : s.windows.Nodup) {i j row row' : ℕ} {column column' : Column T}
    {window : T} (hi : s.columns[i]? = some column) (hrow : column.windows[row]? = some window)
    (hj : s.columns[j]? = some column') (hrow' : column'.windows[row']? = some window) :
    i = j ∧ row = row' := by
  obtain ⟨hnodup, hdisjoint⟩ := List.nodup_flatMap.1 hnd
  have hcolumns : i = j := by
    by_contra hne
    obtain ⟨hi', rfl⟩ := List.getElem?_eq_some_iff.1 hi
    obtain ⟨hj', rfl⟩ := List.getElem?_eq_some_iff.1 hj
    have hin := List.mem_of_getElem? hrow
    have hin' := List.mem_of_getElem? hrow'
    rcases Nat.lt_or_gt_of_ne hne with hlt | hgt
    · exact List.pairwise_iff_getElem.1 hdisjoint i j hi' hj' hlt hin hin'
    · exact List.pairwise_iff_getElem.1 hdisjoint j i hj' hi' hgt hin' hin
  subst hcolumns
  rw [hi, Option.some_inj] at hj
  subst hj
  refine ⟨rfl, ?_⟩
  exact (List.getElem?_inj (List.getElem?_eq_some_iff.1 hrow).1
    (hnodup column (List.mem_of_getElem? hi))).1 (hrow.trans hrow'.symm)

/-- A column without another row than its own has the same window at its row, unless that shifts. -/
theorem without_row {column : Column T} (hnd : column.windows.Nodup)
    (hcolumn : column.row < column.windows.length) {row : ℕ} (hrow : row < column.windows.length)
    (hne : row ≠ column.row) :
    (column.without row).windows[(column.without row).row]? = column.windows[column.row]? ↔
      ¬ (row < column.row ∧ column.row + 1 < column.windows.length) := by
  show (column.windows.eraseIdx row)[min column.row (column.windows.length - 2)]? = _ ↔ _
  rcases Nat.lt_or_gt_of_ne hne with hbefore | hafter
  · by_cases hlast : column.row + 1 < column.windows.length
    · -- The window below takes the row's number.
      have hmin : min column.row (column.windows.length - 2) = column.row := by omega
      rw [hmin, List.getElem?_eraseIdx_of_ge hbefore.le]
      refine ⟨fun heq ↦ ?_, fun hnot ↦ absurd ⟨hbefore, hlast⟩ hnot⟩
      exact absurd ((List.getElem?_inj hlast hnd).1 heq) (Nat.lt_succ_self _).ne'
    · have hmin : min column.row (column.windows.length - 2) = column.row - 1 := by omega
      have hsucc : column.row - 1 + 1 = column.row := by omega
      rw [hmin, List.getElem?_eraseIdx_of_ge (by omega), hsucc]
      exact ⟨fun _ h ↦ hlast h.2, fun _ ↦ rfl⟩
  · have hmin : min column.row (column.windows.length - 2) = column.row := by omega
    rw [hmin, List.getElem?_eraseIdx_of_lt hafter]
    exact ⟨fun _ h ↦ absurd h.1 hafter.not_gt, fun _ ↦ rfl⟩

/-- The focused window is that of the focused column, wherever that is. -/
theorem focusedWindow_congr {s' : Strip T} (h : s'.columns[s'.focused]? = s.columns[s.focused]?) :
    s'.focusedWindow = s.focusedWindow := by
  rw [focusedWindow, focusedWindow, h]

/-- A column of one window is that window. -/
theorem windows_eq_singleton {column : Column T} {row : ℕ} {window : T}
    (hrow : column.windows[row]? = some window) (hone : ¬ column.windows.length > 1) :
    column.windows = [window] := by
  obtain ⟨hlt, hget⟩ := List.getElem?_eq_some_iff.1 hrow
  obtain ⟨w, hw⟩ := List.length_eq_one_iff.1 (by omega : column.windows.length = 1)
  have hin := List.mem_of_getElem? hrow
  rw [hw, List.mem_singleton] at hin
  rw [hw, hin]

section Locate

variable [DecidableEq T]

theorem locate_eq_none {window : T} (h : s.locate window = none) : window ∉ s.windows := by
  intro hin
  obtain ⟨column, hcolumn, hwindow⟩ := List.mem_flatMap.1 hin
  unfold locate at h
  split at h
  · rename_i hnone
    have := List.findIdx?_eq_none_iff.1 hnone column hcolumn
    rw [List.contains_iff_mem.2 hwindow] at this
    cases this
  · rename_i index hindex
    obtain ⟨⟨column, hcolumn, -⟩, -⟩ := First.findIdx?_eq_some_iff_at.1 hindex
    rw [hcolumn] at h
    cases h

theorem locate_eq_some {window : T} {index row : ℕ} (h : s.locate window = some (index, row)) :
    ∃ column, s.columns[index]? = some column ∧ column.windows[row]? = some window := by
  unfold locate at h
  split at h
  · cases h
  · rename_i i hindex
    obtain ⟨⟨column, hcolumn, hin⟩, -⟩ := First.findIdx?_eq_some_iff_at.1 hindex
    rw [hcolumn] at h
    cases h
    exact ⟨column, hcolumn, List.getElem?_idxOf (List.contains_iff_mem.1 hin)⟩

theorem kept_focus (h : s.Kept present) {window : T} {s' : Strip T}
    (hs : s.focus window = some s') : s'.Kept present := by
  unfold focus at hs
  split at hs
  · cases hs
  · rename_i index row hlocate
    cases hs
    obtain ⟨column, hcolumn, hrow⟩ := locate_eq_some hlocate
    refine h.replace_one (perm_eraseIdx hcolumn).symm (perm_modify hcolumn _) ?_ (.refl _) ?_
    · exact ⟨(h.columns column (List.mem_of_getElem? hcolumn)).weights,
        (List.getElem?_eq_some_iff.1 hrow).1⟩
    · intro _
      show index < (s.columns.modify index _).length
      rw [List.length_modify]
      exact (List.getElem?_eq_some_iff.1 hcolumn).1

/-! ## Removing a window -/

/-- What `remove` does to the column it finds the window in. -/
theorem remove_eq {window : T} {index row : ℕ} {column : Column T}
    (hlocate : s.locate window = some (index, row)) (hcolumn : s.columns[index]? = some column) :
    s.remove window =
      if column.windows.length > 1 then s.modify index fun column ↦ column.without row
      else clampOffset { s with
        columns := s.columns.eraseIdx index
        focused := if s.focused > index ∨ s.focused ≥ (s.columns.eraseIdx index).length then
          s.focused - 1 else s.focused } := by
  unfold remove
  simp only [hlocate, hcolumn]

theorem kept_remove (h : s.Kept present) (window : T) :
    (s.remove window).Kept (present \ {window}) := by
  cases hlocate : s.locate window with
  | none =>
    have hsame : s.remove window = s := by rw [remove, hlocate]
    have hnot : window ∉ present := fun hin ↦
      locate_eq_none hlocate ((h.windows window).2 hin)
    rw [hsame, Set.sdiff_singleton_eq_self hnot]
    exact h
  | some place =>
    obtain ⟨index, row⟩ := place
    obtain ⟨column, hcolumn, hrow⟩ := locate_eq_some hlocate
    have hwhole := h.columns column (List.mem_of_getElem? hcolumn)
    obtain ⟨hlt, -⟩ := List.getElem?_eq_some_iff.1 hcolumn
    -- With the window, the windows left are the windows there were.
    have key {s' : Strip T} (hwindows : (window :: s'.windows).Perm s.windows)
        (hcolumns : ∀ column ∈ s'.columns, column.Whole)
        (hfocused : s'.columns ≠ [] → s'.focused < s'.columns.length) :
        s'.Kept (present \ {window}) := by
      have hnd := hwindows.nodup_iff.2 h.nodup
      rw [List.nodup_cons] at hnd
      refine ⟨hcolumns, hfocused, hnd.2, fun w ↦ ?_⟩
      rw [Set.mem_sdiff, Set.mem_singleton_iff, ← h.windows, ← hwindows.mem_iff, List.mem_cons]
      constructor
      · intro hw
        refine ⟨.inr hw, ?_⟩
        rintro rfl
        exact hnd.1 hw
      · rintro ⟨hw, hne⟩
        exact hw.resolve_left hne
    have hold := perm_eraseIdx hcolumn
    rw [remove_eq hlocate hcolumn]
    split
    · rename_i hmany
      have hnew := perm_modify hcolumn fun column ↦ column.without row
      refine key ?_ (fun c hc ↦ ?_) fun _ ↦ ?_
      · refine ((windowsOf_perm hnew).cons window).trans (.trans ?_ (windowsOf_perm hold))
        rw [windowsOf_cons, windowsOf_cons, ← List.cons_append]
        exact (without_windows hrow).append_right _
      · rcases List.mem_cons.1 (hnew.subset hc) with rfl | hc
        · exact hwhole.without (List.getElem?_eq_some_iff.1 hrow).1 hmany
        · exact h.columns c (hold.subset (List.mem_cons_of_mem _ hc))
      · show s.focused < (s.columns.modify index _).length
        rw [List.length_modify]
        exact h.focused (List.ne_nil_of_mem (List.mem_of_getElem? hcolumn))
    · rename_i hone
      have hlength := List.length_eraseIdx_of_lt hlt
      refine key ?_ (fun c hc ↦ ?_) fun hne ↦ ?_
      · refine .trans ?_ (windowsOf_perm hold)
        rw [windowsOf_cons, windows_eq_singleton hrow hone]
        exact .refl _
      · exact h.columns c (hold.subset (List.mem_cons_of_mem _ hc))
      · have hpos : 0 < (s.columns.eraseIdx index).length := List.length_pos_iff.2 hne
        have hfocused := h.focused (List.ne_nil_of_mem (List.mem_of_getElem? hcolumn))
        show (if s.focused > index ∨ s.focused ≥ (s.columns.eraseIdx index).length then
          s.focused - 1 else s.focused) < (s.columns.eraseIdx index).length
        split <;> omega

/-- Removing the window would leave its column's row number with the window below. -/
def Shifts (s : Strip T) (window : T) : Prop :=
  ∃ column row, s.columns[s.focused]? = some column ∧ column.windows[row]? = some window ∧
    row < column.row ∧ column.row + 1 < column.windows.length

/-- Another column changing, or going, leaves the focused one focused. -/
theorem remove_elsewhere (h : s.Kept present) {window : T} {index row : ℕ} {column : Column T}
    (hlocate : s.locate window = some (index, row)) (hcolumn : s.columns[index]? = some column)
    (hne : index ≠ s.focused) : (s.remove window).focusedWindow = s.focusedWindow := by
  obtain ⟨hlt, -⟩ := List.getElem?_eq_some_iff.1 hcolumn
  have hfocused := h.focused (List.ne_nil_of_mem (List.mem_of_getElem? hcolumn))
  have hlength := List.length_eraseIdx_of_lt hlt
  rw [remove_eq hlocate hcolumn]
  split
  · refine focusedWindow_congr ?_
    exact List.getElem?_modify_ne _ _ hne
  · refine focusedWindow_congr ?_
    show (s.columns.eraseIdx index)[if s.focused > index ∨
      s.focused ≥ (s.columns.eraseIdx index).length then s.focused - 1 else s.focused]? = _
    rcases Nat.lt_or_gt_of_ne hne with hbefore | hafter
    · rw [if_pos (.inl hbefore), List.getElem?_eraseIdx_of_ge (by omega)]
      have hsucc : s.focused - 1 + 1 = s.focused := by omega
      rw [hsucc]
    · rw [if_neg (by omega), List.getElem?_eraseIdx_of_lt hafter]

/-- **Removing an unfocused window** leaves the focused one focused, unless that shifts. -/
theorem remove_focusedWindow (h : s.Kept present) (window : T) :
    (s.focusedWindow ≠ some window → (s.remove window).focusedWindow = s.focusedWindow) ↔
      ¬ s.Shifts window := by
  cases hlocate : s.locate window with
  | none =>
    have hsame : s.remove window = s := by rw [remove, hlocate]
    rw [hsame]
    refine ⟨fun _ ↦ ?_, fun _ _ ↦ rfl⟩
    rintro ⟨column, row, hcolumn, hrow, -⟩
    exact locate_eq_none hlocate (List.mem_flatMap.2
      ⟨column, List.mem_of_getElem? hcolumn, List.mem_of_getElem? hrow⟩)
  | some place =>
    obtain ⟨index, row⟩ := place
    obtain ⟨column, hcolumn, hrow⟩ := locate_eq_some hlocate
    by_cases hindex : index = s.focused
    · subst hindex
      have hwhole := h.columns column (List.mem_of_getElem? hcolumn)
      have hnd := (List.nodup_flatMap.1 h.nodup).1 column (List.mem_of_getElem? hcolumn)
      have hlt := (List.getElem?_eq_some_iff.1 hrow).1
      have hfocused : s.focusedWindow = column.windows[column.row]? := by
        rw [focusedWindow, hcolumn]
        rfl
      have hshifts : s.Shifts window ↔
          row < column.row ∧ column.row + 1 < column.windows.length := by
        constructor
        · rintro ⟨column', row', hcolumn', hrow', hshift⟩
          rw [hcolumn, Option.some_inj] at hcolumn'
          subst hcolumn'
          obtain ⟨-, rfl⟩ := unique_place h.nodup hcolumn hrow hcolumn hrow'
          exact hshift
        · rintro hshift
          exact ⟨column, row, hcolumn, hrow, hshift⟩
      rw [hshifts]
      by_cases hsame : row = column.row
      · -- The focused window itself goes.
        rw [hfocused, ← hsame, hrow]
        exact ⟨fun _ hshift ↦ absurd hshift.1 (lt_irrefl _), fun _ hne ↦ absurd rfl hne⟩
      · have hunfocused : s.focusedWindow ≠ some window := by
          rw [hfocused, ← hrow]
          intro heq
          exact hsame ((List.getElem?_inj hwhole.row hnd).1 heq).symm
        have hmany : column.windows.length > 1 := by
          have := hwhole.row
          omega
        have hafter : (s.remove window).focusedWindow =
            (column.without row).windows[(column.without row).row]? := by
          rw [remove_eq hlocate hcolumn, if_pos hmany, focusedWindow]
          show ((s.columns.modify s.focused _)[s.focused]?).bind _ = _
          rw [List.getElem?_modify_eq, hcolumn]
          rfl
        rw [hafter, hfocused, ← without_row hnd hwhole.row hlt hsame]
        exact ⟨fun himp ↦ himp (hfocused ▸ hunfocused), fun heq _ ↦ heq⟩
    · refine ⟨fun _ ↦ ?_, fun _ _ ↦ remove_elsewhere h hlocate hcolumn hindex⟩
      rintro ⟨column', row', hcolumn', hrow', -⟩
      exact hindex (unique_place h.nodup hcolumn hrow hcolumn' hrow').1

end Locate

/-! ## Widths and rows -/

theorem kept_withWidth (h : s.Kept present) (width : Column T → ℚ) :
    (s.withWidth width).Kept present :=
  h.modify _ fun _ _ hwhole ↦ ⟨⟨hwhole.weights, hwhole.row⟩, .refl _⟩

theorem kept_maximize (h : s.Kept present) : s.maximize.Kept present := by
  refine h.modify _ fun column _ hwhole ↦ ?_
  split
  · exact ⟨⟨hwhole.weights, hwhole.row⟩, .refl _⟩
  · exact ⟨⟨hwhole.weights, hwhole.row⟩, .refl _⟩

theorem kept_expand (h : s.Kept present) : s.expand.Kept present := by
  rw [expand]
  split
  · exact (kept_withWidth h _).of_perm (.refl _) (kept_withWidth h _).focused
  · exact h

/-- Sharing the weight of two rows anew, if there are two, changes no window. -/
theorem shiftRows_whole {column : Column T} (h : column.Whole) (few : Prop) [Decidable few]
    (above : ℕ) (pixels : ℚ) :
    (if few then column else s.shiftRows column above pixels).Whole ∧
      (if few then column else s.shiftRows column above pixels).windows.Perm column.windows := by
  split
  · exact ⟨h, .refl _⟩
  · refine ⟨⟨?_, h.row⟩, .refl _⟩
    show ((column.weights.set above _).set (above + 1) _).length = column.windows.length
    rw [List.length_set, List.length_set, h.weights]

theorem kept_resizeRow (h : s.Kept present) (direction : Step) :
    (s.resizeRow direction).Kept present :=
  h.modify _ fun _ _ hwhole ↦ shiftRows_whole hwhole _ _ _

theorem kept_setWidth [DecidableEq T] (h : s.Kept present) (window : T) (pixels : ℚ) :
    (s.setWidth window pixels).Kept present := by
  rw [setWidth]
  split
  · exact h
  · exact h.modify _ fun _ _ hwhole ↦ ⟨⟨hwhole.weights, hwhole.row⟩, .refl _⟩

theorem kept_moveRowEdge [DecidableEq T] (h : s.Kept present) (window : T) (bottom : Bool)
    (coordinate : ℚ) : (s.moveRowEdge window bottom coordinate).Kept present := by
  rw [moveRowEdge]
  split
  · exact h
  · split
    · exact h
    · exact h.modify _ fun _ _ hwhole ↦ shiftRows_whole hwhole _ _ _

/-! ## Runs -/

/-- A call of one of the strip's methods. -/
inductive Call (T : Type*) where
  | setView (view : Box) (gap : ℕ)
  | add (window : T) (besideFocused : Bool)
  | remove (window : T)
  | focus (window : T)
  | moveColumn (direction : Step)
  | moveRow (direction : Step)
  | stack (direction : Step)
  | moveColumnToEdge (last : Bool)
  | cycleWidth
  | maximize
  | expand
  | resizeWidth (direction : Step)
  | resizeRow (direction : Step)
  | setWidth (window : T) (pixels : ℚ)
  | moveRowEdge (window : T) (bottom : Bool) (coordinate : ℚ)

section Calls

variable [DecidableEq T]

/-- What a call leaves: the strip as it was, where the method does nothing. -/
def call (s : Strip T) : Call T → Strip T
  | .setView view gap => s.setView view gap
  | .add window besideFocused => s.add window besideFocused
  | .remove window => s.remove window
  | .focus window => (s.focus window).getD s
  | .moveColumn direction => (s.moveColumn direction).getD s
  | .moveRow direction => (s.moveRow direction).getD s
  | .stack direction => (s.stack direction).getD s
  | .moveColumnToEdge last => (s.moveColumnToEdge last).getD s
  | .cycleWidth => s.cycleWidth
  | .maximize => s.maximize
  | .expand => s.expand
  | .resizeWidth direction => s.resizeWidth direction
  | .resizeRow direction => s.resizeRow direction
  | .setWidth window pixels => s.setWidth window pixels
  | .moveRowEdge window bottom coordinate => s.moveRowEdge window bottom coordinate

/-- The strip after these calls, from the empty one. -/
def run (calls : List (Call T)) : Strip T := calls.foldl call {}

end Calls

/-- The windows added and not removed, after a call. -/
def Call.held : Call T → Set T → Set T
  | .add window _, present => present ∪ {window}
  | .remove window, present => present \ {window}
  | _, present => present

/-- The windows these calls added and did not remove. -/
def held (calls : List (Call T)) : Set T :=
  calls.foldl (fun present call ↦ call.held present) ∅

/-- Only windows that are not present are added. -/
def Fresh (calls : List (Call T)) : Prop :=
  ∀ done window beside, done ++ [.add window beside] <+: calls → window ∉ held done

theorem fresh_concat {calls : List (Call T)} {c : Call T} : Fresh (calls ++ [c]) ↔
    Fresh calls ∧ ∀ window beside, c = .add window beside → window ∉ held calls := by
  constructor
  · intro h
    refine ⟨fun done window beside hdone ↦ ?_, ?_⟩
    · exact h done window beside (hdone.trans (List.prefix_append calls [c]))
    · rintro window beside rfl
      exact h calls window beside (List.prefix_refl _)
  · rintro ⟨h, hnew⟩ done window beside hdone
    rcases List.prefix_concat_iff.1 hdone with heq | hdone
    · obtain ⟨rfl, hc⟩ := List.append_inj' heq rfl
      exact hnew window beside (List.singleton_inj.1 hc).symm
    · exact h done window beside hdone

theorem fresh_singleton (c : Call T) : Fresh [c] := by
  rw [← List.nil_append [c], fresh_concat]
  refine ⟨fun done window beside hdone ↦ ?_, fun _ _ _ hin ↦ hin.elim⟩
  rw [List.prefix_nil] at hdone
  cases (List.append_eq_nil_iff.1 hdone).2

section Runs

variable [DecidableEq T]

/-- **One call keeps the strip**, with the windows then present. -/
theorem kept_call (h : s.Kept present) (c : Call T)
    (hfresh : ∀ window beside, c = .add window beside → window ∉ present) :
    (s.call c).Kept (c.held present) := by
  -- A method that did nothing keeps what holds.
  have keep {s' : Option (Strip T)} (hs' : ∀ t, s' = some t → t.Kept present) :
      (s'.getD s).Kept present := by
    cases s' with
    | none => exact h
    | some t => exact hs' t rfl
  cases c with
  | setView view gap => exact h.of_perm (.refl _) h.focused
  | add window beside => exact kept_add h (hfresh window beside rfl) beside
  | remove window => exact kept_remove h window
  | focus window => exact keep fun _ ↦ kept_focus h
  | moveColumn direction => exact keep fun _ ↦ kept_moveColumn h
  | moveRow direction => exact keep fun _ ↦ kept_moveRow h
  | stack direction => exact keep fun _ ↦ kept_stack h
  | moveColumnToEdge last => exact keep fun _ ↦ kept_moveColumnToEdge h
  | cycleWidth => exact kept_withWidth h _
  | maximize => exact kept_maximize h
  | expand => exact kept_expand h
  | resizeWidth direction => exact kept_withWidth h _
  | resizeRow direction => exact kept_resizeRow h direction
  | setWidth window pixels => exact kept_setWidth h window pixels
  | moveRowEdge window bottom coordinate => exact kept_moveRowEdge h window bottom coordinate

theorem run_concat (calls : List (Call T)) (c : Call T) :
    run (calls ++ [c]) = (run calls).call c := List.foldl_concat ..

/-- **Every run keeps the strip**: columns, focus and windows. -/
theorem kept_run (calls : List (Call T)) (h : Fresh calls) :
    (run calls).Kept (held calls) := by
  induction calls using List.reverseRecOn with
  | nil =>
    exact ⟨fun _ hc ↦ (by cases hc), fun hne ↦ absurd rfl hne, List.nodup_nil,
      fun _ ↦ ⟨fun hw ↦ (by cases hw), fun hw ↦ hw.elim⟩⟩
  | append_singleton calls c ih =>
    have hpresent : held (calls ++ [c]) = c.held (held calls) :=
      List.foldl_concat ..
    rw [run_concat, hpresent]
    obtain ⟨h, hnew⟩ := fresh_concat.1 h
    exact kept_call (ih h) c hnew

/-- **What the strip promises**: it is kept after every call, and removing a window that is not the
focused one leaves the focused one focused. -/
structure Sound (calls : List (Call T)) : Prop where
  kept : ∀ done, done <+: calls → (run done).Kept (held done)
  focus : ∀ done window, done ++ [.remove window] <+: calls →
    (run done).focusedWindow ≠ some window →
      (run (done ++ [.remove window])).focusedWindow = (run done).focusedWindow

/-- **Exactly when a run is sound**: no removal shifts the focused row. -/
theorem sound_iff (calls : List (Call T)) (h : Fresh calls) : Sound calls ↔
    ∀ done window, done ++ [.remove window] <+: calls → ¬ (run done).Shifts window := by
  have hkept (done : List (Call T)) (hdone : done <+: calls) :
      (run done).Kept (held done) :=
    kept_run done fun earlier window beside hearlier ↦
      h earlier window beside (hearlier.trans hdone)
  have hiff (done : List (Call T)) (window : T) (hdone : done ++ [.remove window] <+: calls) :
      ((run done).focusedWindow ≠ some window →
        (run (done ++ [.remove window])).focusedWindow = (run done).focusedWindow) ↔
          ¬ (run done).Shifts window := by
    rw [run_concat]
    exact remove_focusedWindow (hkept done ((List.prefix_append done _).trans hdone)) window
  constructor
  · intro hsound done window hdone
    exact (hiff done window hdone).1 (hsound.focus done window hdone)
  · intro hshifts
    exact ⟨hkept, fun done window hdone ↦
      (hiff done window hdone).2 (hshifts done window hdone)⟩

end Runs

/-- Three windows stacked in one column, and the one in the middle focused. -/
def stacked : List (Call ℕ) :=
  [.add 1 false] ++ [.add 2 false] ++ [.stack .back] ++ [.add 3 false] ++ [.stack .back] ++
    [.focus 2]

theorem fresh_stacked : Fresh stacked := by
  simp only [stacked, fresh_concat, fresh_singleton]
  simp [held, Call.held]

theorem sound_stacked_iff : Sound stacked ↔
    ∀ done window, done ++ [.remove window] <+: stacked → ¬ (run done).Shifts window :=
  sound_iff stacked fresh_stacked

/-- Removing the window above the focused one moves the focus to the one below. -/
theorem not_sound_above : ¬ ∀ calls : List (Call ℕ), Fresh calls → Sound calls := by
  intro h
  have hfresh : Fresh (stacked ++ [.remove 1]) :=
    fresh_concat.2 ⟨fresh_stacked, fun _ _ heq ↦ (by cases heq)⟩
  have := (h _ hfresh).focus stacked 1 (List.prefix_refl _)
  revert this
  decide +kernel

end Strip

end Tiling
