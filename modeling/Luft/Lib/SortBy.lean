import Mathlib.Data.List.Sort

/-!
# Sorting by a key

`sortBy` is the stable sort of a list by what `key` makes of its members.  Where different members have
different keys, the order they came in makes no difference (`sortBy_eq_of_perm`).
-/

set_option autoImplicit false

namespace SortBy

variable {α κ : Type*} [LinearOrder κ] {key : α → κ} {l l' : List α}

def sortBy (key : α → κ) (l : List α) : List α := l.insertionSort fun a b ↦ key a ≤ key b

theorem sortBy_perm (key : α → κ) (l : List α) : (sortBy key l).Perm l := List.perm_insertionSort _ l

theorem sortBy_sorted (key : α → κ) (l : List α) : (sortBy key l).Pairwise fun a b ↦ key a ≤ key b := by
  have htotal : Std.Total fun a b : α ↦ key a ≤ key b := ⟨fun a b ↦ le_total (key a) (key b)⟩
  have htrans : IsTrans α fun a b ↦ key a ≤ key b := ⟨fun _ _ _ ↦ le_trans⟩
  exact List.pairwise_insertionSort _ l

theorem sortBy_of_sorted (h : l.Pairwise fun a b ↦ key a ≤ key b) : sortBy key l = l :=
  List.Pairwise.insertionSort_eq h

theorem sortBy_idempotent (key : α → κ) (l : List α) : sortBy key (sortBy key l) = sortBy key l :=
  sortBy_of_sorted (sortBy_sorted key l)

/-- What `f` does to the members does not change their order, as long as it keeps their keys. -/
theorem map_sortBy {β : Type*} {key' : β → κ} {f : α → β} (h : ∀ a ∈ l, key' (f a) = key a) :
    (sortBy key l).map f = sortBy key' (l.map f) := by
  refine List.map_insertionSort _ _ _ _ fun a ha b hb ↦ ?_
  rw [h a ha, h b hb]

/-- **Members with different keys** are sorted into one order, whatever order they came in. -/
theorem sortBy_eq_of_perm (hkeys : (l.map key).Nodup) (h : l.Perm l') : sortBy key l = sortBy key l' := by
  refine List.Perm.eq_of_pairwise (fun a b ha hb hle hge ↦ ?_) (sortBy_sorted key l) (sortBy_sorted key l')
    ((sortBy_perm key l).trans (h.trans (sortBy_perm key l').symm))
  have ha' : a ∈ l := (sortBy_perm key l).mem_iff.1 ha
  have hb' : b ∈ l := h.mem_iff.2 ((sortBy_perm key l').mem_iff.1 hb)
  exact List.inj_on_of_nodup_map hkeys ha' hb' (le_antisymm hle hge)

theorem sortBy_strict (hkeys : (l.map key).Nodup) : (sortBy key l).Pairwise fun a b ↦ key a < key b := by
  have hnodup : ((sortBy key l).map key).Nodup := ((sortBy_perm key l).map key).nodup_iff.2 hkeys
  have hne : (sortBy key l).Pairwise fun a b ↦ key a ≠ key b := List.pairwise_map.1 hnodup
  exact ((sortBy_sorted key l).and hne).imp fun h ↦ lt_of_le_of_ne h.1 h.2

end SortBy
