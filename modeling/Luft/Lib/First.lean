import Mathlib.Data.List.Basic

/-!
# The first match: finding and changing it

`updateFirst p f l` changes the first element of `l` that satisfies `p`, which is what
`iter_mut().find(p)` followed by a change in place does.  The lemmas say what a later search finds:
the changed element, if the search is the same one (`find?_updateFirst`), and what it would have
found anyway, if it never looks at such elements (`find?_updateFirst_of_disjoint`).

A search by place answers the first index at which a match stands (`find?_eq_some_iff_at`), also
when it only starts at some index (`find?_zipIdx_drop`).
-/

set_option autoImplicit false

namespace First

variable {α : Type*}

/-- Change the first element that satisfies `p`. -/
def updateFirst (p : α → Bool) (f : α → α) : List α → List α
  | [] => []
  | a :: l => if p a then f a :: l else a :: updateFirst p f l

variable {p q : α → Bool} {f : α → α}

theorem find?_updateFirst (hf : ∀ a, p a → p (f a)) (l : List α) :
    (updateFirst p f l).find? p = (l.find? p).map f := by
  induction l with
  | nil => rfl
  | cons a l ih =>
    rw [updateFirst]
    by_cases ha : p a
    · rw [if_pos ha, List.find?_cons_of_pos (hf a ha), List.find?_cons_of_pos ha, Option.map_some]
    · rw [if_neg ha, List.find?_cons_of_neg ha, List.find?_cons_of_neg ha, ih]

theorem find?_updateFirst_of_disjoint (hq : ∀ a, p a → ¬ q a ∧ ¬ q (f a)) (l : List α) :
    (updateFirst p f l).find? q = l.find? q := by
  induction l with
  | nil => rfl
  | cons a l ih =>
    rw [updateFirst]
    by_cases ha : p a
    · rw [if_pos ha, List.find?_cons_of_neg (hq a ha).1, List.find?_cons_of_neg (hq a ha).2]
    · rw [if_neg ha, List.find?_cons, List.find?_cons, ih]

/-- What the change does not touch stays. -/
theorem map_updateFirst {β : Type*} {g : α → β} (hg : ∀ a, g (f a) = g a) (l : List α) :
    (updateFirst p f l).map g = l.map g := by
  induction l with
  | nil => rfl
  | cons a l ih =>
    rw [updateFirst]
    split
    · rw [List.map_cons, List.map_cons, hg]
    · rw [List.map_cons, List.map_cons, ih]

/-- Where no two have the same key, there is one to drop at most. -/
theorem eraseP_eq_filter {κ : Type*} [DecidableEq κ] {key : α → κ} {l : List α}
    (h : (l.map key).Nodup) (k : κ) :
    (l.eraseP fun a ↦ key a = k) = l.filter fun a ↦ key a ≠ k := by
  induction l with
  | nil => rfl
  | cons a l ih =>
    rw [List.map_cons, List.nodup_cons] at h
    by_cases ha : key a = k
    · have hl : ∀ b ∈ l, key b ≠ k := by
        rintro b hb rfl
        exact h.1 (List.mem_map.2 ⟨b, hb, ha.symm⟩)
      have hfilter : l.filter (fun a ↦ key a ≠ k) = l :=
        List.filter_eq_self.2 fun b hb ↦ decide_eq_true (hl b hb)
      simpa [ha] using hfilter.symm
    · simpa [ha] using ih h.2

/-- What is not dropped stays. -/
theorem filter_eraseP {l : List α} (h : ∀ a ∈ l, p a → ¬ q a) : (l.eraseP p).filter q = l.filter q := by
  induction l with
  | nil => rfl
  | cons a l ih =>
    rw [List.eraseP_cons]
    cases hp : p a with
    | true => rw [List.filter_cons_of_neg (h a List.mem_cons_self hp), cond_true]
    | false =>
      rw [cond_false, List.filter_cons, List.filter_cons,
        ih fun b hb ↦ h b (List.mem_cons_of_mem a hb)]

/-- What is not changed stays. -/
theorem filter_updateFirst {l : List α} (h : ∀ a ∈ l, p a → ¬ q a ∧ ¬ q (f a)) :
    (updateFirst p f l).filter q = l.filter q := by
  induction l with
  | nil => rfl
  | cons a l ih =>
    rw [updateFirst]
    split
    · rename_i hp
      obtain ⟨hbefore, hafter⟩ := h a List.mem_cons_self hp
      rw [List.filter_cons_of_neg hbefore, List.filter_cons_of_neg hafter]
    · rw [List.filter_cons, List.filter_cons, ih fun b hb ↦ h b (List.mem_cons_of_mem a hb)]

theorem find?_filter_of_imp (h : ∀ a, q a → p a) (l : List α) :
    (l.filter p).find? q = l.find? q := by
  rw [List.find?_filter]
  congr 1
  funext a
  cases hq : q a with
  | false => simp
  | true => simp [h a hq]

theorem find?_filter_of_disjoint (h : ∀ a, q a → ¬ p a) (l : List α) :
    (l.filter p).find? q = none := by
  rw [List.find?_eq_none]
  intro a ha hq
  exact h a hq (List.mem_filter.1 ha).2

/-! ## By place -/

theorem find?_eq_some_iff_at {l : List α} {a : α} : l.find? p = some a ↔
    ∃ i : ℕ, l[i]? = some a ∧ p a = true ∧ ∀ k < i, ∀ b, l[k]? = some b → p b = false := by
  induction l with
  | nil => simp
  | cons c l ih =>
    cases hc : p c with
    | true =>
      rw [List.find?_cons_of_pos hc]
      constructor
      · rintro h
        exact ⟨0, h, (Option.some_inj.1 h) ▸ hc, fun k hk ↦ absurd hk (Nat.not_lt_zero k)⟩
      · rintro ⟨_ | i, hi, -, hbefore⟩
        · exact hi
        · have := hbefore 0 (Nat.succ_pos i) c rfl
          rw [hc] at this
          cases this
    | false =>
      rw [List.find?_cons_of_neg (by rw [hc]; exact Bool.false_ne_true), ih]
      constructor
      · rintro ⟨i, hi, ha, hbefore⟩
        refine ⟨i + 1, hi, ha, fun k hk b hb ↦ ?_⟩
        rcases k with _ | k
        · rw [← Option.some_inj.1 hb]
          exact hc
        · exact hbefore k (by omega) b hb
      · rintro ⟨_ | i, hi, ha, hbefore⟩
        · rw [← Option.some_inj.1 hi, hc] at ha
          cases ha
        · exact ⟨i, hi, ha, fun k hk b hb ↦ hbefore (k + 1) (by omega) b hb⟩

theorem findIdx?_eq_some_iff_at {l : List α} {i : ℕ} : l.findIdx? p = some i ↔
    (∃ a, l[i]? = some a ∧ p a = true) ∧ ∀ k < i, ∀ b, l[k]? = some b → p b = false := by
  rw [List.findIdx?_eq_some_iff_getElem]
  constructor
  · rintro ⟨hi, ha, hbefore⟩
    refine ⟨⟨_, List.getElem?_eq_getElem hi, ha⟩, fun k hk b hb ↦ ?_⟩
    have := hbefore k hk
    rw [(List.getElem?_eq_some_iff.1 hb).2, Bool.not_eq_true] at this
    exact this
  · rintro ⟨⟨a, ha, hpa⟩, hbefore⟩
    obtain ⟨hi, rfl⟩ := List.getElem?_eq_some_iff.1 ha
    refine ⟨hi, hpa, fun k hk ↦ ?_⟩
    rw [hbefore k hk _ (List.getElem?_eq_getElem _)]
    exact Bool.false_ne_true

/-- A search with indices that starts at index `n`. -/
theorem find?_zipIdx_drop {l : List α} {n i : ℕ} {a : α} :
    (l.zipIdx.drop n).find? (fun x ↦ p x.1) = some (a, i) ↔
      n ≤ i ∧ l[i]? = some a ∧ p a = true ∧
        ∀ k, n ≤ k → k < i → ∀ b, l[k]? = some b → p b = false := by
  have at' (k : ℕ) : (l.zipIdx.drop n)[k]? = l[n + k]?.map fun b ↦ (b, n + k) := by
    rw [List.getElem?_drop, List.getElem?_zipIdx, Nat.zero_add]
  rw [find?_eq_some_iff_at]
  constructor
  · rintro ⟨k, hk, ha, hbefore⟩
    rw [at', Option.map_eq_some_iff] at hk
    obtain ⟨b, hb, heq⟩ := hk
    cases heq
    refine ⟨Nat.le_add_right n k, hb, ha, fun j hnj hjk b hb ↦ ?_⟩
    obtain ⟨j, rfl⟩ := Nat.exists_eq_add_of_le hnj
    exact hbefore j (by omega) (b, n + j) (by rw [at', hb]; rfl)
  · rintro ⟨hni, hi, ha, hbefore⟩
    obtain ⟨k, rfl⟩ := Nat.exists_eq_add_of_le hni
    refine ⟨k, by rw [at', hi]; rfl, ha, fun j hj b hb ↦ ?_⟩
    rw [at', Option.map_eq_some_iff] at hb
    obtain ⟨c, hc, rfl⟩ := hb
    exact hbefore (n + j) (Nat.le_add_right n j) (by omega) c hc

end First
