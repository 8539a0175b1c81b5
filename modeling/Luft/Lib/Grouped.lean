import Mathlib.Data.List.Dedup
import Mathlib.Data.List.Sort

/-!
# Grouping a list by a key

`grouped` puts the members of a list that have the same key together, in the order of the keys: what
filling an ordered map of lists and then going through it does.  `foldl_grouped` is the induction
over the groups, for steps that keep what is known of the members of other groups.
-/

set_option autoImplicit false

namespace Grouped

variable {α κ : Type*} [DecidableEq κ]

/-- The groups, each with its key. -/
def grouped (le : κ → κ → Bool) (key : α → κ) (found : List α) : List (κ × List α) :=
  ((found.map key).dedup.insertionSort (le · ·)).map fun k ↦ (k, found.filter (key · = k))

variable {le : κ → κ → Bool} {key : α → κ} {found : List α}

theorem eq_of_mem_grouped {g : κ × List α} (h : g ∈ grouped le key found) :
    g.2 = found.filter (key · = g.1) := by
  rw [grouped, List.mem_map] at h
  obtain ⟨k, -, rfl⟩ := h
  rfl

theorem mem_of_mem_grouped {g : κ × List α} (h : g ∈ grouped le key found) {a : α}
    (ha : a ∈ g.2) : a ∈ found ∧ key a = g.1 := by
  rw [eq_of_mem_grouped h] at ha
  obtain ⟨ha, hk⟩ := List.mem_filter.1 ha
  exact ⟨ha, of_decide_eq_true hk⟩

theorem ne_nil_of_mem_grouped {g : κ × List α} (h : g ∈ grouped le key found) : g.2 ≠ [] := by
  rw [grouped, List.mem_map] at h
  obtain ⟨k, hk, rfl⟩ := h
  obtain ⟨a, ha, hka⟩ := List.mem_map.1 (List.mem_dedup.1 ((List.mem_insertionSort _).1 hk))
  exact List.ne_nil_of_mem (List.mem_filter.2 ⟨ha, decide_eq_true hka⟩)

theorem exists_mem_grouped {a : α} (h : a ∈ found) :
    ∃ g ∈ grouped le key found, a ∈ g.2 := by
  refine ⟨(key a, found.filter (key · = key a)), List.mem_map.2 ⟨key a, ?_, rfl⟩, ?_⟩
  · exact (List.mem_insertionSort _).2 (List.mem_dedup.2 (List.mem_map_of_mem h))
  · exact List.mem_filter.2 ⟨h, decide_eq_true rfl⟩

theorem grouped_keys (le : κ → κ → Bool) (key : α → κ) (found : List α) :
    ((grouped le key found).map (·.1)).Nodup := by
  rw [grouped, List.map_map]
  have hperm := List.perm_insertionSort (le · ·) (found.map key).dedup
  exact (List.map_id _).symm ▸ hperm.nodup_iff.2 (List.nodup_dedup _)

/-- Two groups have no member in common. -/
theorem grouped_disjoint {ι : Type*} {i : α → ι} (hi : (found.map i).Nodup) :
    (grouped le key found).Pairwise fun g g' ↦ ∀ a ∈ g.2, ∀ b ∈ g'.2, i a ≠ i b := by
  have hkeys := List.pairwise_map.1 (grouped_keys le key found)
  refine hkeys.imp_of_mem fun {g g'} hg hg' hne a ha b hb heq ↦ hne ?_
  obtain ⟨ha, hka⟩ := mem_of_mem_grouped hg ha
  obtain ⟨hb, hkb⟩ := mem_of_mem_grouped hg' hb
  obtain rfl := List.inj_on_of_nodup_map hi ha hb heq
  exact hka.symm.trans hkb

section Induction

variable {σ ι : Type*} {step : σ → κ × List α → σ} {i : α → ι} {I : σ → Prop} {C : σ → α → Prop}

omit [DecidableEq κ] in
theorem foldl_groups
    (hstep : ∀ s g, I s → g.2 ≠ [] → (∀ a ∈ g.2, key a = g.1 ∧ C s a) → I (step s g))
    (hkeep : ∀ s g a, C s a → (∀ b ∈ g.2, C s b ∧ i b ≠ i a) → C (step s g) a)
    {groups : List (κ × List α)} {s : σ} (hs : I s)
    (hdisjoint : groups.Pairwise fun g g' ↦ ∀ a ∈ g.2, ∀ b ∈ g'.2, i a ≠ i b)
    (hall : ∀ g ∈ groups, g.2 ≠ [] ∧ ∀ a ∈ g.2, key a = g.1 ∧ C s a) :
    I (groups.foldl step s) := by
  induction groups generalizing s with
  | nil => exact hs
  | cons g groups ih =>
    obtain ⟨hg, hrest⟩ := List.pairwise_cons.1 hdisjoint
    have hfirst := hall g List.mem_cons_self
    refine ih (hstep s g hs hfirst.1 hfirst.2) hrest fun g' hg' ↦ ?_
    obtain ⟨hne, hmember⟩ := hall g' (List.mem_cons_of_mem g hg')
    refine ⟨hne, fun a ha ↦ ⟨(hmember a ha).1, ?_⟩⟩
    exact hkeep s g a (hmember a ha).2 fun b hb ↦ ⟨(hfirst.2 b hb).2, hg g' hg' b hb a ha⟩

/-- **Induction over the groups**: what a step for one group preserves, as long as it keeps what is
known of the members of the others. -/
theorem foldl_grouped
    (hstep : ∀ s g, I s → g.2 ≠ [] → (∀ a ∈ g.2, key a = g.1 ∧ C s a) → I (step s g))
    (hkeep : ∀ s g a, C s a → (∀ b ∈ g.2, C s b ∧ i b ≠ i a) → C (step s g) a) {s : σ}
    (hs : I s) (hi : (found.map i).Nodup) (hfound : ∀ a ∈ found, C s a) :
    I ((grouped le key found).foldl step s) :=
  foldl_groups hstep hkeep hs (grouped_disjoint hi) fun _ hg ↦
    ⟨ne_nil_of_mem_grouped hg, fun a ha ↦
      ⟨(mem_of_mem_grouped hg ha).2, hfound a (mem_of_mem_grouped hg ha).1⟩⟩

end Induction

end Grouped
