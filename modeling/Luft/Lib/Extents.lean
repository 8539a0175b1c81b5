import Mathlib.Algebra.Order.Group.Nat
import Mathlib.Data.List.GetD

/-!
# Stretches of a memory, and copying one over another

A memory holds something at every address.  `slice` reads a stretch of it, `patch` writes one.

`Copied` says that part of a stretch has been copied to where it goes and nothing else is changed.
It grows upward while the stretch moves down (`Copied.up`) and downward while it moves up
(`Copied.down`), whatever the two stretches share: in that order, what is still to be read has not
been written to.
-/

set_option autoImplicit false

namespace Extents

variable {α : Type*} {mem mem' : ℕ → α}

def slice (mem : ℕ → α) (offset length : ℕ) : List α :=
  (List.range length).map fun i ↦ mem (offset + i)

def patch (mem : ℕ → α) (offset : ℕ) (bytes : List α) (a : ℕ) : α :=
  if offset ≤ a then bytes.getD (a - offset) (mem a) else mem a

@[simp] theorem length_slice (mem : ℕ → α) (offset length : ℕ) :
    (slice mem offset length).length = length := by
  rw [slice, List.length_map, List.length_range]

theorem slice_congr {offset length : ℕ} (h : ∀ i < length, mem (offset + i) = mem' (offset + i)) :
    slice mem offset length = slice mem' offset length :=
  List.map_congr_left fun i hi ↦ h i (List.mem_range.1 hi)

theorem patch_of_lt {offset a : ℕ} (h : a < offset) (mem : ℕ → α) (bytes : List α) :
    patch mem offset bytes a = mem a := if_neg (not_le.2 h)

theorem patch_of_ge {offset a : ℕ} {bytes : List α} (h : offset + bytes.length ≤ a) (mem : ℕ → α) :
    patch mem offset bytes a = mem a := by
  rw [patch, List.getD_eq_default _ _ (by omega), ite_self]

theorem patch_slice {length i : ℕ} (hi : i < length) (mem mem' : ℕ → α) (offset offset' : ℕ) :
    patch mem' offset' (slice mem offset length) (offset' + i) = mem (offset + i) := by
  rw [patch, if_pos (Nat.le_add_right _ _), Nat.add_sub_cancel_left,
    List.getD_eq_getElem _ _ (by rwa [length_slice])]
  simp only [slice, List.getElem_map, List.getElem_range]

/-- What was written is read back. -/
theorem slice_patch (mem : ℕ → α) (offset : ℕ) (bytes : List α) :
    slice (patch mem offset bytes) offset bytes.length = bytes := by
  refine List.ext_getElem (length_slice _ _ _) fun i hi hi' ↦ ?_
  simp only [slice, List.getElem_map, List.getElem_range]
  rw [patch, if_pos (Nat.le_add_right _ _), Nat.add_sub_cancel_left, List.getD_eq_getElem _ _ hi']

/-- Pieces, each a position and a length, that lie one after the other from `lo` to `hi`. -/
inductive Tiles : List (ℕ × ℕ) → ℕ → ℕ → Prop
  | nil {lo : ℕ} : Tiles [] lo lo
  | cons {lo n hi : ℕ} {pieces : List (ℕ × ℕ)} (h : Tiles pieces (lo + n) hi) :
      Tiles ((lo, n) :: pieces) lo hi

theorem Tiles.le {pieces : List (ℕ × ℕ)} {lo hi : ℕ} (h : Tiles pieces lo hi) : lo ≤ hi := by
  induction h with
  | nil => exact le_rfl
  | cons _ ih => exact (Nat.le_add_right _ _).trans ih

theorem Tiles.within {pieces : List (ℕ × ℕ)} {lo hi : ℕ} (h : Tiles pieces lo hi) {piece : ℕ × ℕ}
    (hpiece : piece ∈ pieces) : lo ≤ piece.1 ∧ piece.1 + piece.2 ≤ hi := by
  induction h with
  | nil => exact absurd hpiece List.not_mem_nil
  | cons h ih =>
    rcases List.mem_cons.1 hpiece with rfl | hpiece
    · exact ⟨le_rfl, h.le⟩
    · exact ⟨(Nat.le_add_right _ _).trans (ih hpiece).1, (ih hpiece).2⟩

theorem Tiles.pairwise {pieces : List (ℕ × ℕ)} {lo hi : ℕ} (h : Tiles pieces lo hi) :
    pieces.Pairwise fun a b ↦ a.1 + a.2 ≤ b.1 := by
  induction h with
  | nil => exact .nil
  | cons h ih => exact List.pairwise_cons.2 ⟨fun b hb ↦ (h.within hb).1, ih⟩

theorem Tiles.dvd_lo {pieces : List (ℕ × ℕ)} {lo hi m : ℕ} (h : Tiles pieces lo hi)
    (hpieces : ∀ piece ∈ pieces, m ∣ piece.1) (hhi : m ∣ hi) : m ∣ lo := by
  cases h with
  | nil => exact hhi
  | cons => exact hpieces _ List.mem_cons_self

/-- Where the pieces start, unless there are none. -/
theorem Tiles.starts {pieces : List (ℕ × ℕ)} {lo hi : ℕ} (h : Tiles pieces lo hi) :
    lo = hi ∧ pieces = [] ∨ ∃ piece ∈ pieces, piece.1 = lo := by
  cases h with
  | nil => exact .inl ⟨rfl, rfl⟩
  | cons => exact .inr ⟨_, List.mem_cons_self, rfl⟩

/-- The positions from `lo` to `hi` of a stretch at `source` have been copied to one at `target`. -/
structure Copied (mem mem' : ℕ → α) (source target lo hi : ℕ) : Prop where
  copied : ∀ i, lo ≤ i → i < hi → mem' (target + i) = mem (source + i)
  rest : ∀ a, (a < target + lo ∨ target + hi ≤ a) → mem' a = mem a

namespace Copied

variable {source target lo hi n : ℕ}

theorem refl (mem : ℕ → α) (source target lo : ℕ) : Copied mem mem source target lo lo :=
  ⟨fun _ hlo hhi ↦ absurd hhi (not_lt.2 hlo), fun _ _ ↦ rfl⟩

/-- A stretch that moves down is copied upward. -/
theorem up (h : Copied mem mem' source target lo hi) (hdown : target ≤ source) (hlo : lo ≤ hi) :
    Copied mem (patch mem' (target + hi) (slice mem' (source + hi) n)) source target lo (hi + n) where
  copied i hi' hi'' := by
    rcases lt_or_ge i hi with hold | hnew
    · rw [patch_of_lt (by omega), h.copied i hi' hold]
    · have hread : mem' (source + i) = mem (source + i) := h.rest _ (.inr (by omega))
      obtain ⟨k, rfl⟩ := Nat.exists_eq_add_of_le hnew
      rw [← hread, ← add_assoc, ← add_assoc, patch_slice (by omega)]
  rest a ha := by
    rcases ha with ha | ha
    · rw [patch_of_lt (by omega), h.rest a (.inl ha)]
    · rw [patch_of_ge (by rw [length_slice]; omega), h.rest a (.inr (by omega))]

/-- A stretch that moves up is copied downward. -/
theorem down (h : Copied mem mem' source target (lo + n) hi) (hup : source ≤ target)
    (hlo : lo + n ≤ hi) :
    Copied mem (patch mem' (target + lo) (slice mem' (source + lo) n)) source target lo hi where
  copied i hi' hi'' := by
    rcases lt_or_ge i (lo + n) with hnew | hold
    · have hread : mem' (source + i) = mem (source + i) := h.rest _ (.inl (by omega))
      obtain ⟨k, rfl⟩ := Nat.exists_eq_add_of_le hi'
      rw [← hread, ← add_assoc, ← add_assoc, patch_slice (by omega)]
    · rw [patch_of_ge (by rw [length_slice]; omega), h.copied i hold hi'']
  rest a ha := by
    rcases ha with ha | ha
    · rw [patch_of_lt ha, h.rest a (.inl (by omega))]
    · rw [patch_of_ge (by rw [length_slice]; omega), h.rest a (.inr ha)]

end Copied

end Extents
