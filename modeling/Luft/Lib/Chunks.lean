import Mathlib.Data.List.Basic

/-!
# Cutting a list into chunks

`chunks n l` cuts `l` into pieces of `n` elements, the last one possibly shorter, as Rust's
`slice::chunks` does.  The recursion is on a fuel argument so that it evaluates; `chunks_of_ne_nil`
is the equation everything else is proved from.
-/

set_option autoImplicit false

namespace Chunks

variable {α : Type*}

private def chunksAux (n : ℕ) : ℕ → List α → List (List α)
  | 0, _ => []
  | _, [] => []
  | fuel + 1, a :: l => (a :: l).take n :: chunksAux n fuel ((a :: l).drop n)

/-- The pieces of `l`, `n` elements each. -/
def chunks (n : ℕ) (l : List α) : List (List α) := chunksAux n l.length l

private theorem chunksAux_eq {n : ℕ} (hn : 0 < n) (l : List α) :
    ∀ f g, l.length ≤ f → l.length ≤ g → chunksAux n f l = chunksAux n g l := by
  induction hk : l.length using Nat.strongRecOn generalizing l with
  | ind k ih =>
    intro f g hf hg
    match l, f, g with
    | [], f, g => cases f <;> cases g <;> rfl
    | a :: l, f + 1, g + 1 =>
      rw [chunksAux, chunksAux]
      have hlt : ((a :: l).drop n).length < k := by
        rw [List.length_drop, hk]
        have : 0 < (a :: l).length := List.length_pos_of_mem List.mem_cons_self
        omega
      rw [ih _ hlt _ rfl f g (by omega) (by omega)]
    | a :: l, 0, _ => rw [List.length_cons] at hk; omega
    | a :: l, f + 1, 0 => rw [List.length_cons] at hk; omega

@[simp] theorem chunks_nil (n : ℕ) : chunks n ([] : List α) = [] := rfl

theorem chunks_of_ne_nil {n : ℕ} (hn : 0 < n) {l : List α} (hl : l ≠ []) :
    chunks n l = l.take n :: chunks n (l.drop n) := by
  match l, hl with
  | a :: l, _ =>
    rw [chunks, List.length_cons, chunksAux, chunks]
    congr 1
    refine chunksAux_eq hn _ _ _ ?_ (Nat.le_refl _)
    rw [List.length_drop, List.length_cons]
    omega

/-- The induction that follows the cutting. -/
theorem chunks_induction {n : ℕ} (hn : 0 < n) {p : List α → Prop} (nil : p [])
    (step : ∀ l, l ≠ [] → p (l.drop n) → p l) (l : List α) : p l := by
  induction hk : l.length using Nat.strongRecOn generalizing l with
  | ind k ih =>
    by_cases hl : l = []
    · rw [hl]; exact nil
    · refine step l hl (ih _ ?_ _ rfl)
      have := List.length_pos_iff.2 hl
      rw [List.length_drop]
      omega

theorem mem_chunks_length {n : ℕ} (hn : 0 < n) (l : List α) :
    ∀ c ∈ chunks n l, c.length ≤ n := by
  induction l using chunks_induction hn with
  | nil => simp
  | step l hl ih =>
    rw [chunks_of_ne_nil hn hl]
    intro c hc
    rcases List.mem_cons.1 hc with rfl | hc
    · exact List.length_take_le n l
    · exact ih c hc

end Chunks
