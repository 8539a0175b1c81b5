import Mathlib.Data.List.Sort
import Mathlib.Tactic.TypeStar

/-!
# Comparators, and sorting by one

A comparator answers `Ordering`, and a list can be sorted by it when it is a total preorder *on the
members of that list*; nothing is asked of it elsewhere.

* `TotalOn` is that condition, `StableSort` what may be relied on of a sort that gets any
  comparator: it always permutes, and where the comparator is total it is the stable sort.
* `place` compares two lists place by place and stops where the shorter one ends.  That alone is not
  transitive: `place_lt_eq` says what is lost.
-/

set_option autoImplicit false

open Std

variable {α β : Type*}

/-! ## Total preorders on a list -/

/-- `cmp` is a total preorder on the members of `l`. -/
structure TotalOn (cmp : α → α → Ordering) (l : List α) : Prop where
  refl : ∀ a ∈ l, cmp a a = .eq
  swap : ∀ a ∈ l, ∀ b ∈ l, cmp b a = (cmp a b).swap
  trans : ∀ a ∈ l, ∀ b ∈ l, ∀ c ∈ l, (cmp a b).isLE → (cmp b c).isLE → (cmp a c).isLE

namespace TotalOn

variable {cmp : α → α → Ordering} {l m : List α}

theorem of_subset (h : TotalOn cmp l) (hm : m ⊆ l) : TotalOn cmp m where
  refl a ha := h.refl a (hm ha)
  swap a ha b hb := h.swap a (hm ha) b (hm hb)
  trans a ha b hb c hc := h.trans a (hm ha) b (hm hb) c (hm hc)

theorem total (h : TotalOn cmp l) {a b : α} (ha : a ∈ l) (hb : b ∈ l) :
    (cmp a b).isLE ∨ (cmp b a).isLE := by
  rw [h.swap a ha b hb]
  cases cmp a b <;> decide

theorem attach_trans (h : TotalOn cmp l) (a b c : {a // a ∈ l}) :
    (cmp a.1 b.1).isLE → (cmp b.1 c.1).isLE → (cmp a.1 c.1).isLE :=
  h.trans a.1 a.2 b.1 b.2 c.1 c.2

theorem attach_total (h : TotalOn cmp l) (a b : {a // a ∈ l}) :
    (cmp a.1 b.1).isLE || (cmp b.1 a.1).isLE := by
  rw [Bool.or_eq_true]
  exact h.total a.2 b.2

theorem map_mergeSort_val (cmp : α → α → Ordering) {l : List α} (m : List {a // a ∈ l}) :
    (m.mergeSort fun a b ↦ (cmp a.1 b.1).isLE).map Subtype.val =
      (m.map Subtype.val).mergeSort fun a b ↦ (cmp a b).isLE :=
  List.map_mergeSort (f := Subtype.val) fun _ _ _ _ ↦ rfl

/-- A comparator that answers both ways round alike is total where it never goes round in a
circle. -/
theorem of_no_cycle (refl : ∀ a ∈ l, cmp a a = .eq)
    (swap : ∀ a ∈ l, ∀ b ∈ l, cmp b a = (cmp a b).swap)
    (h : ∀ a ∈ l, ∀ b ∈ l, ∀ c ∈ l, (cmp a b).isLE → (cmp b c).isLE → cmp c a ≠ .lt) :
    TotalOn cmp l where
  refl := refl
  swap := swap
  trans a ha b hb c hc hab hbc := by
    have hne := h a ha b hb c hc hab hbc
    rw [swap a ha c hc, ne_eq, Ordering.swap_eq_lt] at hne
    exact Ordering.isLE_iff_ne_gt.2 hne

theorem no_cycle (h : TotalOn cmp l) {a b c : α} (ha : a ∈ l) (hb : b ∈ l) (hc : c ∈ l)
    (hab : (cmp a b).isLE) (hbc : (cmp b c).isLE) : cmp c a ≠ .lt := by
  rw [h.swap a ha c hc, ne_eq, Ordering.swap_eq_lt]
  exact Ordering.isLE_iff_ne_gt.1 (h.trans a ha b hb c hc hab hbc)

/-- Sorting by a comparator that is total on the list leaves the list in order. -/
theorem pairwise_mergeSort (h : TotalOn cmp l) :
    (l.mergeSort fun a b ↦ (cmp a b).isLE).Pairwise fun a b ↦ (cmp a b).isLE := by
  rw [← l.attach_map_subtype_val, ← map_mergeSort_val, List.pairwise_map]
  exact List.pairwise_mergeSort h.attach_trans h.attach_total _

/-- A first member that goes before all the others, ties counting, stays first. -/
theorem mergeSort_head {a : α} {rest : List α} (h : TotalOn cmp (a :: rest))
    (hfirst : ∀ b ∈ a :: rest, (cmp a b).isLE) :
    ∃ rest', ((a :: rest).mergeSort fun a b ↦ (cmp a b).isLE) = a :: rest' := by
  obtain ⟨others, hothers⟩ : ∃ m : List {b // b ∈ a :: rest}, m.map Subtype.val = rest :=
    ⟨rest.pmap Subtype.mk fun _ ↦ List.mem_cons_of_mem a, by
      rw [List.map_pmap, List.pmap_eq_map, List.map_id']⟩
  obtain ⟨l₁, l₂, hsort, -, hafter⟩ := List.mergeSort_cons h.attach_trans h.attach_total
    ⟨a, List.mem_cons_self⟩ others
  have hnil : l₁ = [] := by
    refine List.eq_nil_iff_forall_not_mem.2 fun b hb ↦ ?_
    have hnot := hafter b hb
    rw [hfirst b.1 b.2] at hnot
    cases hnot
  have hmap := congrArg (List.map Subtype.val) hsort
  rw [map_mergeSort_val, hnil, List.map_cons, hothers] at hmap
  exact ⟨_, hmap⟩

end TotalOn

/-- A sort that takes any comparator.  Where the comparator is a total preorder on the list, it is
the stable sort; where it is not, only the members are sure. -/
structure StableSort (α : Type*) where
  sort_by : (α → α → Ordering) → List α → List α
  perm : ∀ cmp l, (sort_by cmp l).Perm l
  stable : ∀ cmp l, TotalOn cmp l → sort_by cmp l = l.mergeSort fun a b ↦ (cmp a b).isLE

namespace StableSort

/-- Merge sort is one. -/
def merge (α : Type*) : StableSort α where
  sort_by cmp l := l.mergeSort fun a b ↦ (cmp a b).isLE
  perm _ l := List.mergeSort_perm l _
  stable _ _ _ := rfl

variable (sorter : StableSort α) {cmp : α → α → Ordering} {l : List α}

theorem mem_sort_by {a : α} : a ∈ sorter.sort_by cmp l ↔ a ∈ l := (sorter.perm cmp l).mem_iff

/-- What a sorted list starts with goes before everything in it. -/
theorem head_isLE (h : TotalOn cmp l) {a : α} {rest : List α}
    (hsort : sorter.sort_by cmp l = a :: rest) {b : α} (hb : b ∈ l) : (cmp a b).isLE := by
  have hpair := h.pairwise_mergeSort
  rw [← sorter.stable cmp l h, hsort, List.pairwise_cons] at hpair
  have hmem : b ∈ a :: rest := by rw [← hsort, mem_sort_by]; exact hb
  rcases List.mem_cons.1 hmem with rfl | hb'
  · rw [h.refl b hb]
    rfl
  · exact hpair.1 b hb'

/-- What goes before everything else, ties counting, and is listed first comes first. -/
theorem head_of_cons {a : α} {rest : List α} (h : TotalOn cmp (a :: rest))
    (hfirst : ∀ b ∈ a :: rest, (cmp a b).isLE) :
    ∃ rest', sorter.sort_by cmp (a :: rest) = a :: rest' := by
  rw [sorter.stable cmp _ h]
  exact h.mergeSort_head hfirst

end StableSort

/-! ## Comparing place by place -/

/-- The first place where two lists differ decides; what goes past the shorter one's end is not
looked at. -/
def place (cmp : α → α → Ordering) : List α → List α → Ordering
  | x :: xs, y :: ys => (cmp x y).then (place cmp xs ys)
  | _, _ => .eq

namespace place

@[simp] theorem nil_left (cmp : α → α → Ordering) (ys : List α) : place cmp [] ys = .eq := by
  rw [place]
  intro x xs y ys hx
  cases hx

@[simp] theorem nil_right (cmp : α → α → Ordering) (xs : List α) : place cmp xs [] = .eq := by
  rw [place]
  intro x xs y ys _ hy
  cases hy

@[simp] theorem cons_cons (cmp : α → α → Ordering) (x y : α) (xs ys : List α) :
    place cmp (x :: xs) (y :: ys) = (cmp x y).then (place cmp xs ys) := rfl

theorem map {γ : Type*} (cmp : α → α → Ordering) (f : γ → α) : ∀ xs ys : List γ,
    place cmp (xs.map f) (ys.map f) = place (fun x y ↦ cmp (f x) (f y)) xs ys
  | [], _ => by simp
  | _ :: _, [] => by simp
  | _ :: xs, _ :: ys => by
    rw [List.map_cons, List.map_cons, cons_cons, cons_cons, map cmp f xs ys]

theorem congr {cmp cmp' : α → α → Ordering} : ∀ {xs ys : List α},
    (∀ x ∈ xs, ∀ y ∈ ys, cmp x y = cmp' x y) → place cmp xs ys = place cmp' xs ys
  | [], _, _ => by simp
  | _ :: _, [], _ => by simp
  | x :: xs, y :: ys, h => by
    rw [cons_cons, cons_cons, h x List.mem_cons_self y List.mem_cons_self,
      congr fun x' hx' y' hy' ↦ h x' (List.mem_cons_of_mem x hx') y' (List.mem_cons_of_mem y hy')]

section Compare

variable [Ord α]

theorem swap [TransOrd α] : ∀ xs ys : List α, place compare ys xs = (place compare xs ys).swap
  | [], _ => by simp
  | _ :: _, [] => by simp
  | x :: xs, y :: ys => by
    rw [cons_cons, cons_cons, Ordering.swap_then, swap xs ys,
      OrientedOrd.eq_swap (a := y) (b := x)]

/-- **Two lists do not differ anywhere** when one of them begins the other. -/
theorem eq_iff [LawfulEqOrd α] : ∀ {xs ys : List α},
    place compare xs ys = .eq ↔ xs <+: ys ∨ ys <+: xs
  | [], _ => by simp
  | _ :: _, [] => by simp
  | x :: xs, y :: ys => by
    rw [cons_cons, Ordering.then_eq_eq, LawfulEqOrd.compare_eq_iff_eq, eq_iff,
      List.cons_prefix_cons, List.cons_prefix_cons, eq_comm (a := y), ← and_or_left]

/-- Differing one way twice is differing that way. -/
theorem lt_lt [TransOrd α] : ∀ {xs ys zs : List α}, place compare xs ys = .lt → place compare ys zs = .lt →
    place compare xs zs = .lt
  | [], _, _, h, _ => by simp at h
  | _ :: _, [], _, h, _ => by simp at h
  | _ :: _, _ :: _, [], _, h => by simp at h
  | x :: xs, y :: ys, z :: zs, hxy, hyz => by
    rw [cons_cons, Ordering.then_eq_lt] at hxy hyz ⊢
    rcases hxy with hxy | ⟨hxy, hxys⟩ <;> rcases hyz with hyz | ⟨hyz, hyzs⟩
    · exact .inl (TransCmp.lt_trans hxy hyz)
    · exact .inl (TransCmp.lt_of_lt_of_eq hxy hyz)
    · exact .inl (TransCmp.lt_of_eq_of_lt hxy hyz)
    · exact .inr ⟨TransCmp.eq_trans hxy hyz, lt_lt hxys hyzs⟩

/-- **What a difference is worth next to a list that differs nowhere**: it stays, unless that list
ends before the difference and so begins both. -/
theorem lt_eq [LawfulEqOrd α] : ∀ {xs ys zs : List α}, place compare xs ys = .lt → place compare ys zs = .eq →
    place compare xs zs = .lt ∨ zs <+: xs ∧ zs <+: ys
  | [], _, _, h, _ => by simp at h
  | _ :: _, [], _, h, _ => by simp at h
  | _ :: _, _ :: _, [], _, _ => by simp
  | x :: xs, y :: ys, z :: zs, hxy, hyz => by
    rw [cons_cons, Ordering.then_eq_eq, LawfulEqOrd.compare_eq_iff_eq] at hyz
    obtain ⟨rfl, hyzs⟩ := hyz
    rw [cons_cons, Ordering.then_eq_lt] at hxy ⊢
    rcases hxy with hxy | ⟨hxy, hxys⟩
    · exact .inl (.inl hxy)
    · cases LawfulEqOrd.compare_eq_iff_eq.1 hxy
      rcases lt_eq hxys hyzs with h | ⟨hx, hy⟩
      · exact .inl (.inr ⟨hxy, h⟩)
      · exact .inr ⟨(List.cons_prefix_cons).2 ⟨rfl, hx⟩, (List.cons_prefix_cons).2 ⟨rfl, hy⟩⟩

end Compare

end place
