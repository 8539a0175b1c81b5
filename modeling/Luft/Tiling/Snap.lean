import Luft.Lib.Closest
import Luft.Tiling.Strip
import Mathlib.Algebra.Order.Group.Abs

/-!
# Snapping a scrolled strip

Where scrolling comes to rest: at the closest offset that puts an edge of a column at an edge of the
view.  Offsets that would scroll past an end of the strip count as that end.  `snap_spec` says what
`snap` answers; a strip without columns has no column to answer with, and on a strip that fits into
the view the far end is the near one too and the answer is its first column.
-/

set_option autoImplicit false

namespace Tiling

structure Snap where
  offset : ℤ
  column : ℕ
deriving DecidableEq, Repr

namespace Strip

variable {T : Type*} (s : Strip T)

/-- The last offset that does not scroll past the end of the strip. -/
def furthest : ℤ := max 0 (s.totalWidth - s.viewWidth)

def within (candidate : ℤ) : ℤ := min s.furthest (max 0 candidate)

/-- The offset that aligns the column at an index with the left of the view. -/
def left (index : ℕ) : ℤ := s.columnStart index

/-- The offset that aligns it with the right of the view. -/
def right (index : ℕ) (column : Column T) : ℤ := s.left index + s.columnWidth column - s.viewWidth

/-- The candidates, column by column. -/
def candidates : List Snap :=
  s.columns.zipIdx.flatMap fun p ↦
    [⟨s.within (s.left p.2), p.2⟩, ⟨s.within (s.right p.2 p.1), p.2⟩]

def snap (offset : ℚ) : Snap :=
  s.candidates.foldl (fun best candidate ↦
    let distance := |candidate.offset - offset| - |best.offset - offset|
    if distance < 0 ∨ distance = 0 ∧ candidate.offset = s.furthest ∧ 0 < s.furthest then candidate
    else best) ⟨0, 0⟩

/-! ## The candidates -/

variable {s}

theorem furthest_nonneg : 0 ≤ s.furthest := le_max_left _ _

theorem within_mem (candidate : ℤ) : 0 ≤ s.within candidate ∧ s.within candidate ≤ s.furthest :=
  ⟨le_min furthest_nonneg (le_max_left _ _), min_le_left _ _⟩

theorem within_zero : s.within 0 = 0 := by
  rw [within, max_self, min_eq_right furthest_nonneg]

theorem mem_candidates {c : Snap} : c ∈ s.candidates ↔
    ∃ column, s.columns[c.column]? = some column ∧
      (c.offset = s.within (s.left c.column) ∨ c.offset = s.within (s.right c.column column)) := by
  rw [candidates, List.mem_flatMap]
  constructor
  · rintro ⟨p, hp, hc⟩
    rw [List.mem_zipIdx_iff_getElem?] at hp
    rcases List.mem_cons.1 hc with rfl | hc
    · exact ⟨p.1, hp, .inl rfl⟩
    · rw [List.mem_singleton.1 hc]
      exact ⟨p.1, hp, .inr rfl⟩
  · rintro ⟨column, hcolumn, hc⟩
    refine ⟨(column, c.column), List.mem_zipIdx_iff_getElem?.2 hcolumn, ?_⟩
    rcases hc with hc | hc
    · exact List.mem_cons.2 (.inl (by rw [← hc]))
    · exact List.mem_cons_of_mem _ (List.mem_singleton.2 (by rw [← hc]))

/-- The candidates come in the order of the columns. -/
theorem pairwise_candidates : s.candidates.Pairwise fun a b ↦ a.column ≤ b.column := by
  rw [candidates, List.pairwise_flatMap]
  constructor
  · rintro p -
    exact List.pairwise_pair.2 (le_refl p.2)
  · have hindex : s.columns.zipIdx.Pairwise fun p q ↦ p.2 < q.2 := by
      rw [← List.pairwise_map (f := Prod.snd), List.zipIdx_map_snd]
      exact List.pairwise_lt_range'
    refine hindex.imp fun {p q} hpq a ha b hb ↦ ?_
    have hcolumn {r : Column T × ℕ} {c : Snap}
        (hc : c ∈ [⟨s.within (s.left r.2), r.2⟩, ⟨s.within (s.right r.2 r.1), r.2⟩]) :
        c.column = r.2 := by
      rcases List.mem_cons.1 hc with rfl | hc
      · rfl
      · rw [List.mem_singleton.1 hc]
    rw [hcolumn ha, hcolumn hb]
    exact hpq.le

/-- How far it is to a candidate. -/
def away (offset : ℚ) (c : Snap) : ℚ := |c.offset - offset|

variable (s) in
/-- At the far end of a strip that does not fit into the view. -/
def AtEnd (c : Snap) : Prop := c.offset = s.furthest ∧ 0 < s.furthest

instance decidableAtEnd : DecidablePred s.AtEnd :=
  fun c ↦ inferInstanceAs (Decidable (c.offset = s.furthest ∧ 0 < s.furthest))

/-- What `snap` keeps is the closest, and the last one at the far end. -/
theorem snap_eq (offset : ℚ) :
    s.snap offset = Closest.scan (away offset) s.AtEnd ⟨0, 0⟩ s.candidates := by
  rw [snap, Closest.scan]
  congr
  funext best candidate
  rw [Closest.pick]
  refine if_congr ?_ rfl rfl
  rw [sub_neg, sub_eq_zero]
  rfl

/-- The left edge of the first column is where the strip begins. -/
theorem start_mem_candidates (h : s.columns ≠ []) : (⟨0, 0⟩ : Snap) ∈ s.candidates := by
  obtain ⟨column, rest, hcolumns⟩ := List.exists_cons_of_ne_nil h
  refine mem_candidates.2 ⟨column, by rw [hcolumns]; rfl, .inl ?_⟩
  have hleft : s.left 0 = 0 := by
    rw [left, columnStart, List.take_zero]
    rfl
  rw [hleft, within_zero]

theorem candidate_bounds {c : Snap} (hc : c ∈ (⟨0, 0⟩ : Snap) :: s.candidates) :
    0 ≤ c.offset ∧ c.offset ≤ s.furthest := by
  rcases List.mem_cons.1 hc with rfl | hc
  · exact ⟨le_refl 0, furthest_nonneg⟩
  · obtain ⟨column, -, hedge⟩ := mem_candidates.1 hc
    rcases hedge with hedge | hedge <;> rw [hedge] <;> exact within_mem _

/-! ## What `snap` answers -/

theorem snap_mem (offset : ℚ) : s.snap offset ∈ (⟨0, 0⟩ : Snap) :: s.candidates := by
  rw [snap_eq]
  exact Closest.scan_mem (away offset) s.AtEnd ⟨0, 0⟩ s.candidates

theorem snap_mem_candidates (offset : ℚ) (h : s.columns ≠ []) : s.snap offset ∈ s.candidates := by
  rcases List.mem_cons.1 (snap_mem (s := s) offset) with hbest | hbest
  · rw [hbest]
    exact start_mem_candidates h
  · exact hbest

theorem snap_closest (offset : ℚ) {c : Snap} (hc : c ∈ (⟨0, 0⟩ : Snap) :: s.candidates) :
    |(s.snap offset).offset - offset| ≤ |c.offset - offset| := by
  rw [snap_eq]
  exact Closest.scan_le (away offset) s.AtEnd hc

/-- **At the far end** of a strip that does not fit, the last of the columns with that edge. -/
theorem snap_last (offset : ℚ) (hend : (s.snap offset).offset = s.furthest) (hpos : 0 < s.furthest)
    {c : Snap} (hc : c ∈ s.candidates) (hedge : c.offset = s.furthest) :
    c.column ≤ (s.snap offset).column := by
  rw [snap_eq] at hend ⊢
  refine Closest.key_le_scan (fun a b ha hb ↦ ?_) pairwise_candidates ⟨hend, hpos⟩ c hc ⟨hedge, hpos⟩
  rw [away, away, ha.1, hb.1]

/-- A strip that fits rests where it begins, on its first column. -/
theorem snap_of_fits (offset : ℚ) (h : s.furthest = 0) : s.snap offset = ⟨0, 0⟩ := by
  have hzero (c : Snap) (hc : c ∈ s.candidates) : c.offset = 0 := by
    obtain ⟨hlow, hhigh⟩ := candidate_bounds (List.mem_cons_of_mem _ hc)
    omega
  rw [snap_eq]
  generalize s.candidates = l at hzero
  induction l with
  | nil => rfl
  | cons c l ih =>
    have hpick : Closest.pick (away offset) s.AtEnd ⟨0, 0⟩ c = ⟨0, 0⟩ := by
      refine if_neg ?_
      rw [away, away, AtEnd, hzero c List.mem_cons_self, h]
      rintro (hlt | ⟨-, -, hlt⟩) <;> exact lt_irrefl _ hlt
    show Closest.scan (away offset) s.AtEnd (Closest.pick (away offset) s.AtEnd ⟨0, 0⟩ c) l = _
    rw [hpick]
    exact ih fun d hd ↦ hzero d (List.mem_cons_of_mem c hd)

theorem snap_le_start (offset : ℚ) : |(s.snap offset).offset - offset| ≤ |offset| := by
  have hstart := snap_closest (s := s) offset List.mem_cons_self
  rwa [Int.cast_zero, zero_sub, abs_neg] at hstart

theorem mem_candidates_of_edge {index : ℕ} {column : Column T}
    (hcolumn : s.columns[index]? = some column) :
    (⟨s.within (s.left index), index⟩ : Snap) ∈ s.candidates ∧
      (⟨s.within (s.right index column), index⟩ : Snap) ∈ s.candidates :=
  ⟨mem_candidates.2 ⟨column, hcolumn, .inl rfl⟩, mem_candidates.2 ⟨column, hcolumn, .inr rfl⟩⟩

/-- **Snapping a scrolled strip.**  The answer is within the strip, and no edge of a column that
counts, nor the start of the strip, is closer.  Unless there are no columns, its column has that edge;
at the far end it is the last column that does, and on a strip that fits the first. -/
theorem snap_spec (s : Strip T) (offset : ℚ) :
    let best := s.snap offset
    (0 ≤ best.offset ∧ best.offset ≤ max 0 (s.totalWidth - s.viewWidth)) ∧
    |best.offset - offset| ≤ |offset| ∧
    (∀ index column, s.columns[index]? = some column →
      |best.offset - offset| ≤ |s.within (s.left index) - offset| ∧
        |best.offset - offset| ≤ |s.within (s.right index column) - offset|) ∧
    (s.columns ≠ [] → ∃ column, s.columns[best.column]? = some column ∧
      (best.offset = s.within (s.left best.column) ∨
        best.offset = s.within (s.right best.column column))) ∧
    (best.offset = s.furthest → 0 < s.furthest → ∀ index column, s.columns[index]? = some column →
      s.within (s.left index) = s.furthest ∨ s.within (s.right index column) = s.furthest →
      index ≤ best.column) ∧
    (s.furthest = 0 → best = ⟨0, 0⟩) := by
  refine ⟨candidate_bounds (snap_mem offset), snap_le_start offset, ?_, ?_, ?_,
    snap_of_fits offset⟩
  · rintro index column hcolumn
    obtain ⟨hleft, hright⟩ := mem_candidates_of_edge hcolumn
    have hcloser := snap_closest offset (List.mem_cons_of_mem _ hleft)
    have hcloser' := snap_closest offset (List.mem_cons_of_mem _ hright)
    exact ⟨hcloser, hcloser'⟩
  · intro hne
    exact mem_candidates.1 (snap_mem_candidates offset hne)
  · rintro hend hpos index column hcolumn hedge
    obtain ⟨hleft, hright⟩ := mem_candidates_of_edge hcolumn
    rcases hedge with hedge | hedge
    · exact snap_last offset hend hpos hleft hedge
    · exact snap_last offset hend hpos hright hedge

/-- Two columns that fit into the view together. -/
def pair : Strip ℕ where
  columns := [single 1 (1 / 4), single 2 (1 / 4)]
  view := ⟨0, 0, 100, 100⟩

/-- A strip without columns has none to answer with.  And both columns of `pair` have the edge at its
far end, but it is the first one that is answered. -/
theorem snap_not_last :
    (({} : Strip ℕ).snap 0 = ⟨0, 0⟩ ∧ ({} : Strip ℕ).columns[0]? = none) ∧
      (pair.snap 0 = ⟨0, 0⟩ ∧ pair.columns[1]? = some (single 2 (1 / 4)) ∧
        pair.within (pair.left 1) = max 0 (pair.totalWidth - pair.viewWidth)) :=
  ⟨⟨by decide +kernel, rfl⟩, by decide +kernel, rfl, by decide +kernel⟩

end Strip

end Tiling
