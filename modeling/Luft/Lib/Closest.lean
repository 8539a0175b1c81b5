import Mathlib.Data.List.Induction
import Mathlib.Order.Lattice

/-!
# The closest of several candidates

`scan` goes through a list of candidates and keeps the best one so far.  A candidate replaces it when
it is closer, and also when it is as close and favoured.  The result is one of the candidates, or the
one to begin with, and none is closer (`scan_le`); where all favoured candidates are equally close, a
favoured result is the last of them (`key_le_scan`).
-/

set_option autoImplicit false

namespace Closest

variable {α κ ι : Type*} [LinearOrder κ] (distance : α → κ) (favours : α → Prop)
  [DecidablePred favours]

def pick (best candidate : α) : α :=
  if distance candidate < distance best ∨ distance candidate = distance best ∧ favours candidate then
    candidate
  else best

def scan (best : α) (l : List α) : α := l.foldl (pick distance favours) best

variable {distance favours} {best candidate : α} {l : List α}

@[simp] theorem scan_nil (best : α) : scan distance favours best [] = best := rfl

theorem scan_concat (best : α) (l : List α) (candidate : α) :
    scan distance favours best (l ++ [candidate]) =
      pick distance favours (scan distance favours best l) candidate := by
  rw [scan, List.foldl_append, List.foldl_cons, List.foldl_nil, scan]

variable (distance favours) in
theorem pick_cases (best candidate : α) :
    pick distance favours best candidate = candidate ∧ distance candidate ≤ distance best ∨
      pick distance favours best candidate = best ∧ distance best ≤ distance candidate := by
  rw [pick]
  split
  · rename_i h
    exact .inl ⟨rfl, h.elim le_of_lt fun h ↦ le_of_eq h.1⟩
  · rename_i h
    exact .inr ⟨rfl, not_lt.1 fun hlt ↦ h (.inl hlt)⟩

variable (distance favours) in
theorem scan_mem (best : α) (l : List α) : scan distance favours best l ∈ best :: l := by
  induction l using List.reverseRecOn with
  | nil => exact List.mem_cons_self
  | append_singleton l candidate ih =>
    rw [scan_concat, ← List.cons_append]
    rcases pick_cases distance favours (scan distance favours best l) candidate with ⟨h, -⟩ | ⟨h, -⟩ <;> rw [h]
    · exact List.mem_append_right _ List.mem_cons_self
    · exact List.mem_append_left _ ih

variable (distance favours) in
/-- **Nothing is closer.** -/
theorem scan_le {c : α} (hc : c ∈ best :: l) : distance (scan distance favours best l) ≤ distance c := by
  induction l using List.reverseRecOn with
  | nil => exact le_of_eq (by rw [List.mem_singleton.1 hc]; rfl)
  | append_singleton l candidate ih =>
    rw [scan_concat]
    rw [← List.cons_append, List.mem_append, List.mem_singleton] at hc
    rcases pick_cases distance favours (scan distance favours best l) candidate with ⟨h, hle⟩ | ⟨h, hle⟩ <;> rw [h]
    · exact hc.elim (fun hc ↦ le_trans hle (ih hc)) fun hc ↦ by rw [hc]
    · exact hc.elim ih fun hc ↦ by rw [hc]; exact hle

/-- **The last of the favoured candidates**, where these are equally close. -/
theorem key_le_scan [Preorder ι] {key : α → ι}
    (hequal : ∀ a b, favours a → favours b → distance a = distance b)
    (hkey : l.Pairwise fun a b ↦ key a ≤ key b)
    (hscan : favours (scan distance favours best l)) :
    ∀ c ∈ l, favours c → key c ≤ key (scan distance favours best l) := by
  induction l using List.reverseRecOn with
  | nil => rintro c ⟨⟩
  | append_singleton l candidate ih =>
    obtain ⟨hkeys, -, hlast⟩ := List.pairwise_append.1 hkey
    rintro c hc hfavours
    rw [scan_concat] at hscan ⊢
    by_cases hcandidate : favours candidate
    · -- a favoured candidate is as close as a favoured best one, and so replaces it
      have hpick : pick distance favours (scan distance favours best l) candidate = candidate := by
        rcases pick_cases distance favours (scan distance favours best l)
          candidate with ⟨h, -⟩ | ⟨h, -⟩
        · exact h
        · rw [h] at hscan
          rw [pick, if_pos (.inr ⟨hequal _ _ hcandidate hscan, hcandidate⟩)]
      rw [hpick]
      rcases List.mem_append.1 hc with hc | hc
      · exact hlast c hc candidate List.mem_cons_self
      · rw [List.mem_singleton.1 hc]
    · have hpick : pick distance favours (scan distance favours best l) candidate =
          scan distance favours best l := by
        rcases pick_cases distance favours (scan distance favours best l)
          candidate with ⟨h, -⟩ | ⟨h, -⟩
        · rw [h] at hscan
          exact absurd hscan hcandidate
        · exact h
      rw [hpick] at hscan ⊢
      rcases List.mem_append.1 hc with hc | hc
      · exact ih hkeys hscan c hc hfavours
      · rw [List.mem_singleton.1 hc] at hfavours
        exact absurd hfavours hcandidate

end Closest
