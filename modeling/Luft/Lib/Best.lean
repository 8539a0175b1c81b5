import Mathlib.Data.List.Sort

/-!
# The best few

A bounded heap keeps the best of what it has seen: each new member is pushed, and when there are too many the
worst is dropped.  What is left is the beginning of the whole, sorted (`foldl_keep`).
-/

set_option autoImplicit false

namespace Best

variable {α : Type*} (r : α → α → Prop) [DecidableRel r]

/-- One more, and the worst is dropped when there are more than `limit`. -/
def keep (limit : ℕ) (best : List α) (a : α) : List α :=
  let pushed := best.orderedInsert r a
  if limit < pushed.length then pushed.dropLast else pushed

variable {r}

theorem keep_eq_take {limit : ℕ} {best : List α} (h : best.length ≤ limit) (a : α) :
    keep r limit best a = (best.orderedInsert r a).take limit := by
  rw [keep]
  have hlength := List.orderedInsert_length r best a
  split_ifs with hlong
  · rw [List.dropLast_eq_take, show (best.orderedInsert r a).length - 1 = limit by omega]
  · rw [List.take_of_length_le (by omega)]

theorem take_orderedInsert_take (limit : ℕ) (a : α) (l : List α) :
    ((l.take limit).orderedInsert r a).take limit = (l.orderedInsert r a).take limit := by
  induction l generalizing limit with
  | nil => rw [List.take_nil]
  | cons b l ih =>
    cases limit with
    | zero => rw [List.take_zero, List.take_zero]
    | succ limit =>
      rw [List.take_succ_cons, List.orderedInsert_cons, List.orderedInsert_cons]
      split_ifs
      · rw [List.take_succ_cons, List.take_succ_cons]
        cases limit with
        | zero => rw [List.take_zero, List.take_zero]
        | succ limit => rw [List.take_succ_cons, List.take_succ_cons, List.take_take, Nat.min_eq_left (Nat.le_succ _)]
      · rw [List.take_succ_cons, List.take_succ_cons, ih]

variable [Std.Total r] [IsTrans α r] [Std.Antisymm r]

/-- **What is kept** is the best of what was seen, in order. -/
theorem foldl_keep (limit : ℕ) (l : List α) : l.foldl (keep r limit) [] = (l.insertionSort r).take limit := by
  suffices hall : ∀ seen : List α, l.foldl (keep r limit) ((seen.insertionSort r).take limit) =
      ((seen ++ l).insertionSort r).take limit by
    have h := hall []
    rwa [List.nil_append, List.insertionSort_nil, List.take_nil] at h
  induction l with
  | nil =>
    intro seen
    rw [List.append_nil]
    rfl
  | cons a l ih =>
    intro seen
    have hperm : (seen ++ [a]).insertionSort r = (seen.insertionSort r).orderedInsert r a := by
      refine List.Perm.eq_of_pairwise' (List.pairwise_insertionSort r _)
        ((List.pairwise_insertionSort r seen).orderedInsert a _) ?_
      refine (List.perm_insertionSort r _).trans (List.Perm.trans ?_ (List.perm_orderedInsert r a _).symm)
      exact (List.perm_append_singleton a seen).trans ((List.perm_insertionSort r seen).symm.cons a)
    rw [List.foldl_cons, keep_eq_take (List.length_take_le _ _), take_orderedInsert_take, ← hperm, ih,
      List.append_assoc, List.singleton_append]

end Best
