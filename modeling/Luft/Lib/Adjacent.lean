import Mathlib.Data.List.Sort
import Mathlib.Order.Basic

/-!
# Neighbours that are the same

`dedup_by` drops each member of a list that is the same as the last one that stayed.  In a list that is
sorted by a key, members with the same key are neighbours, so what is left has every key once
(`pairwise_dedup_by`, `mem_map_dedup_by`).
-/

set_option autoImplicit false

namespace Adjacent

variable {α : Type*}

/-- What stays behind `last`. -/
def dedup_after (same : α → α → Bool) (last : α) : List α → List α
  | [] => []
  | b :: rest =>
    if same b last then dedup_after same last rest else b :: dedup_after same b rest

/-- `Vec::dedup_by`. -/
def dedup_by (same : α → α → Bool) : List α → List α
  | [] => []
  | a :: rest => a :: dedup_after same a rest

theorem dedup_after_sublist (same : α → α → Bool) (last : α) (l : List α) :
    (dedup_after same last l).Sublist l := by
  induction l generalizing last with
  | nil => exact .slnil
  | cons b rest ih =>
    rw [dedup_after]
    split
    · exact (ih last).cons b
    · exact (ih b).cons_cons b

theorem dedup_by_sublist (same : α → α → Bool) (l : List α) : (dedup_by same l).Sublist l := by
  cases l with
  | nil => exact .slnil
  | cons a rest => exact (dedup_after_sublist same a rest).cons_cons a

section Key

variable {κ : Type*} [LinearOrder κ] (key : α → κ)

/-- Every key of the list is that of one that stays. -/
theorem mem_map_dedup_after (last : α) (l : List α) (k : κ) :
    k ∈ (last :: dedup_after (fun a b ↦ key a = key b) last l).map key ↔ k ∈ (last :: l).map key := by
  induction l generalizing last with
  | nil => exact Iff.rfl
  | cons b rest ih =>
    rw [dedup_after]
    split
    · rename_i hsame
      rw [ih last, List.map_cons, List.map_cons, List.map_cons, of_decide_eq_true hsame,
        List.mem_cons, List.mem_cons, List.mem_cons, or_self_left]
    · rw [List.map_cons, List.mem_cons, ih b]
      exact List.mem_cons.symm

theorem mem_map_dedup_by (l : List α) (k : κ) :
    k ∈ (dedup_by (fun a b ↦ key a = key b) l).map key ↔ k ∈ l.map key := by
  cases l with
  | nil => exact Iff.rfl
  | cons a rest => exact mem_map_dedup_after key a rest k

theorem pairwise_dedup_after (last : α) {l : List α}
    (h : (last :: l).Pairwise fun a b ↦ key a ≤ key b) :
    (last :: dedup_after (fun a b ↦ key a = key b) last l).Pairwise fun a b ↦ key a < key b := by
  induction l generalizing last with
  | nil => exact List.pairwise_singleton _ last
  | cons b rest ih =>
    obtain ⟨hlast, hrest⟩ := List.pairwise_cons.1 h
    rw [dedup_after]
    split
    · exact ih last (h.sublist ((List.sublist_cons_self b rest).cons_cons last))
    · rename_i hother
      have hlt : key last < key b :=
        lt_of_le_of_ne (hlast b List.mem_cons_self) fun heq ↦ hother (decide_eq_true heq.symm)
      refine List.pairwise_cons.2 ⟨fun c hc ↦ ?_, ih b hrest⟩
      rcases List.mem_cons.1 hc with rfl | hc
      · exact hlt
      · exact hlt.trans ((List.pairwise_cons.1 (ih b hrest)).1 c hc)

/-- **Sorted by the key**, what stays has each key once. -/
theorem pairwise_dedup_by {l : List α} (h : l.Pairwise fun a b ↦ key a ≤ key b) :
    (dedup_by (fun a b ↦ key a = key b) l).Pairwise fun a b ↦ key a < key b := by
  cases l with
  | nil => exact .nil
  | cons a rest => exact pairwise_dedup_after key a h

end Key

end Adjacent
