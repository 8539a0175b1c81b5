import Mathlib.Data.List.Induction
import Mathlib.Data.List.Nodup
import Mathlib.Logic.Function.Basic

/-!
# Moving things between names

A store has something under some names.  `Goes` says that moves happened one after the other, each of
something that was there to a name that was free.  Moves from different names that all had something
come to what they would have come to at once (`Goes.at_once`), and every move can be taken back
(`move_back`).

Moving to names that are in use takes two passes, over names of its own (`Goes.two_passes`).  Where
moves are from a name that had nothing, or from one twice, and all of them happen nevertheless, then
something that was moved was moved on (`Goes.moved_on`, `Goes.two_passes_moved_on`).
-/

set_option autoImplicit false

namespace Moves

variable {ν β : Type*} [DecidableEq ν]

/-- What is under one name is moved to another. -/
def move (s : ν → Option β) (a b : ν) : ν → Option β :=
  Function.update (Function.update s a none) b (s a)

/-- Each move is of something that is there, to a name that is free or its own. -/
inductive Goes : (ν → Option β) → List (ν × ν) → (ν → Option β) → Prop
  | nil (s : ν → Option β) : Goes s [] s
  | cons {s s' : ν → Option β} {a b : ν} {rest : List (ν × ν)} (ha : s a ≠ none)
      (hb : b = a ∨ s b = none) (h : Goes (move s a b) rest s') : Goes s ((a, b) :: rest) s'

/-- All of the moves at once. -/
structure AtOnce (s : ν → Option β) (moves : List (ν × ν)) (s' : ν → Option β) : Prop where
  target : ∀ p ∈ moves, s' p.2 = s p.1
  other : ∀ n ∉ moves.map Prod.snd, s' n = if n ∈ moves.map Prod.fst then none else s n

variable {s s' : ν → Option β} {a b n : ν} {moves rest : List (ν × ν)}

theorem move_target (s : ν → Option β) (a b : ν) : move s a b b = s a := Function.update_self ..

theorem move_source (s : ν → Option β) (h : a ≠ b) : move s a b a = none := by
  rw [move, Function.update_of_ne h, Function.update_self]

theorem move_other (s : ν → Option β) (ha : n ≠ a) (hb : n ≠ b) : move s a b n = s n := by
  rw [move, Function.update_of_ne hb, Function.update_of_ne ha]

theorem move_self (s : ν → Option β) (a : ν) : move s a a = s := by
  rw [move, Function.update_idem, Function.update_eq_self]

/-- **A move can be taken back.** -/
theorem move_back (hb : b = a ∨ s b = none) : move (move s a b) b a = s := by
  rcases hb with rfl | hb
  · rw [move_self, move_self]
  · funext n
    by_cases hna : n = a
    · rw [hna, move_target, move_target]
    · by_cases hnb : n = b
      · rw [hnb, move_source _ (hnb ▸ hna), hb]
      · rw [move_other _ hnb hna, move_other _ hna hnb]

namespace Goes

theorem split {first : List (ν × ν)} (h : Goes s (first ++ rest) s') :
    ∃ middle, Goes s first middle ∧ Goes middle rest s' := by
  induction first generalizing s with
  | nil => exact ⟨s, .nil s, h⟩
  | cons p first ih =>
    obtain ⟨a, b⟩ := p
    cases h with
    | cons ha hb h =>
      obtain ⟨middle, hfirst, hrest⟩ := ih h
      exact ⟨middle, .cons ha hb hfirst, hrest⟩

/-- A name that nothing is moved to has what it had, as long as nothing is moved from it. -/
theorem of_notMem (h : Goes s moves s') (hn : n ∉ moves.map Prod.snd) :
    s' n = if n ∈ moves.map Prod.fst then none else s n := by
  induction h with
  | nil => rw [List.map_nil, if_neg List.not_mem_nil]
  | @cons s s' a b rest _ _ _ ih =>
    rw [List.map_cons, List.mem_cons, not_or] at hn
    rw [ih hn.2]
    simp only [List.map_cons, List.mem_cons]
    by_cases hna : n = a
    · rw [hna, move_source _ (hna ▸ hn.1), ite_self, if_pos (.inl rfl)]
    · rw [move_other _ hna hn.1]
      exact if_congr (or_iff_right hna).symm rfl rfl

/-- What is under a name that had nothing, or was moved from, was moved there. -/
theorem mem_of_ne_none (h : Goes s moves s') (hn : s' n ≠ none)
    (hfree : s n = none ∨ n ∈ moves.map Prod.fst) : n ∈ moves.map Prod.snd := by
  by_contra hmem
  rw [h.of_notMem hmem] at hn
  split_ifs at hn with hfrom
  · exact hn rfl
  · exact hn (hfree.resolve_right hfrom)

/-- A name that something is moved to had nothing, or what it had is moved too. -/
theorem target_free (h : Goes s moves s') (hn : n ∈ moves.map Prod.snd) :
    s n = none ∨ n ∈ moves.map Prod.fst := by
  induction h with
  | nil => exact absurd hn List.not_mem_nil
  | @cons s s' a b rest ha hb _ ih =>
    rw [List.map_cons, List.mem_cons] at hn ⊢
    by_cases hna : n = a
    · exact .inr (.inl hna)
    · by_cases hnb : n = b
      · rw [hnb] at hna ⊢
        exact .inl (hb.resolve_left hna)
      · refine (ih (hn.resolve_left hnb)).imp (fun hnone ↦ ?_) .inr
        rwa [move_other _ hna hnb] at hnone

/-- **Moves from different names that had something** come to the same as all of them at once. -/
theorem at_once (h : Goes s moves s') (hsources : (moves.map Prod.fst).Nodup)
    (htargets : (moves.map Prod.snd).Nodup) (hthere : ∀ p ∈ moves, s p.1 ≠ none) :
    AtOnce s moves s' := by
  refine ⟨fun p hp ↦ ?_, fun n hn ↦ h.of_notMem hn⟩
  induction h with
  | nil => exact absurd hp List.not_mem_nil
  | @cons s s' a b rest ha hb hrest ih =>
    rw [List.map_cons, List.nodup_cons] at hsources htargets
    have hkept : ∀ q ∈ rest, q.1 ≠ a ∧ q.1 ≠ b := by
      intro q hq
      have hqa : q.1 ≠ a := fun heq ↦ hsources.1 (List.mem_map.2 ⟨q, hq, heq⟩)
      refine ⟨hqa, fun hqb ↦ ?_⟩
      rcases hb with rfl | hb
      · exact hqa hqb
      · exact hthere q (List.mem_cons_of_mem _ hq) (hqb ▸ hb)
    have hsame : ∀ q ∈ rest, move s a b q.1 = s q.1 := fun q hq ↦
      move_other _ (hkept q hq).1 (hkept q hq).2
    rcases List.mem_cons.1 hp with rfl | hp
    · rw [hrest.of_notMem htargets.1, if_neg, move_target]
      intro hmem
      obtain ⟨q, hq, heq⟩ := List.mem_map.1 hmem
      exact (hkept q hq).2 heq
    · rw [← hsame p hp]
      refine ih hsources.2 htargets.2 (fun q hq ↦ ?_) hp
      rw [hsame q hq]
      exact hthere q (List.mem_cons_of_mem _ hq)

end Goes

/-! ## Moves that are not all there -/

section

variable {γ : Type*}

/-- Different names, with something under each. -/
def Ready (s : ν → Option β) (sources : List ν) : Prop := sources.Nodup ∧ ∀ a ∈ sources, s a ≠ none

/-- The first name that is not ready. -/
theorem exists_first_unready {source : γ → ν} {l : List γ} (h : ¬ Ready s (l.map source)) :
    ∃ before x after, l = before ++ x :: after ∧ Ready s (before.map source) ∧
      (s (source x) = none ∨ source x ∈ before.map source) := by
  induction l using List.reverseRecOn with
  | nil => exact absurd ⟨List.nodup_nil, fun _ ha ↦ absurd ha List.not_mem_nil⟩ h
  | append_singleton l x ih =>
    by_cases hready : Ready s (l.map source)
    · refine ⟨l, x, [], rfl, hready, ?_⟩
      by_contra hcon
      rw [not_or] at hcon
      refine h ⟨?_, fun a ha ↦ ?_⟩
      · rw [List.map_append, List.map_singleton, List.nodup_append]
        refine ⟨hready.1, List.nodup_singleton _, fun a ha b hb heq ↦ hcon.2 ?_⟩
        rwa [← List.mem_singleton.1 hb, ← heq]
      · rw [List.map_append, List.map_singleton, List.mem_append, List.mem_singleton] at ha
        rcases ha with ha | rfl
        · exact hready.2 a ha
        · exact hcon.1
    · obtain ⟨before, y, after, rfl, hbefore, hy⟩ := ih hready
      exact ⟨before, y, after ++ [x], by rw [List.append_assoc, List.cons_append], hbefore, hy⟩

/-- Something that was there was to be moved to a name with nothing under it in the end. -/
def MovedOn (s s' : ν → Option β) (moves : List (ν × ν)) : Prop := ∃ p ∈ moves, s p.1 ≠ none ∧ s' p.2 = none

/-- **One pass** that is not ready moves something on. -/
theorem Goes.moved_on (h : Goes s moves s') (htargets : (moves.map Prod.snd).Nodup)
    (hready : ¬ Ready s (moves.map Prod.fst)) : MovedOn s s' moves := by
  obtain ⟨before, ⟨a, b⟩, after, rfl, hbefore, hbad⟩ := exists_first_unready hready
  obtain ⟨middle, hfirst, hrest⟩ := h.split
  have hnot := hrest
  cases hrest with
  | cons ha hb hafter =>
    obtain ⟨p, hp, hpa⟩ := List.mem_map.1 (hfirst.mem_of_ne_none ha hbad)
    refine ⟨p, List.mem_append_left _ hp, hbefore.2 _ (List.mem_map_of_mem hp), ?_⟩
    rw [List.map_append, List.nodup_append] at htargets
    rw [hpa, hnot.of_notMem, if_pos]
    · rw [List.map_cons]
      exact List.mem_cons_self
    · exact fun hmem ↦ htargets.2.2 _ (List.mem_map_of_mem hp) _ (hpa ▸ hmem) rfl

end

/-! ## Two passes -/

/-- A move over a name of its own. -/
structure Detour (ν : Type*) where
  source : ν
  stop : ν
  target : ν

def firstPass (detours : List (Detour ν)) : List (ν × ν) := detours.map fun d ↦ (d.source, d.stop)

def secondPass (detours : List (Detour ν)) : List (ν × ν) := detours.map fun d ↦ (d.stop, d.target)

/-- What the detours come to. -/
def direct (detours : List (Detour ν)) : List (ν × ν) := detours.map fun d ↦ (d.source, d.target)

section

variable {detours : List (Detour ν)}

omit [DecidableEq ν] in
theorem map_firstPass : (firstPass detours).map Prod.fst = detours.map Detour.source ∧
    (firstPass detours).map Prod.snd = detours.map Detour.stop := by
  rw [firstPass, List.map_map, List.map_map]
  exact ⟨rfl, rfl⟩

omit [DecidableEq ν] in
theorem map_secondPass : (secondPass detours).map Prod.fst = detours.map Detour.stop ∧
    (secondPass detours).map Prod.snd = detours.map Detour.target := by
  rw [secondPass, List.map_map, List.map_map]
  exact ⟨rfl, rfl⟩

omit [DecidableEq ν] in
theorem map_direct : (direct detours).map Prod.fst = detours.map Detour.source ∧
    (direct detours).map Prod.snd = detours.map Detour.target := by
  rw [direct, List.map_map, List.map_map]
  exact ⟨rfl, rfl⟩

/-- **Two passes** from different names that had something come to all of the moves at once. -/
theorem Goes.two_passes (h : Goes s (firstPass detours ++ secondPass detours) s')
    (hsources : Ready s (detours.map Detour.source)) (hstops : (detours.map Detour.stop).Nodup)
    (htargets : (detours.map Detour.target).Nodup) : AtOnce s (direct detours) s' := by
  obtain ⟨middle, hfirst, hsecond⟩ := h.split
  have honce := hfirst.at_once (map_firstPass.1 ▸ hsources.1) (map_firstPass.2 ▸ hstops) fun p hp ↦
    hsources.2 _ (map_firstPass.1 ▸ List.mem_map_of_mem hp)
  have hstop {d : Detour ν} (hd : d ∈ detours) : middle d.stop = s d.source :=
    honce.target (d.source, d.stop) (List.mem_map_of_mem hd)
  have honce' := hsecond.at_once (map_secondPass.1 ▸ hstops) (map_secondPass.2 ▸ htargets) fun p hp ↦ by
    obtain ⟨d, hd, rfl⟩ := List.mem_map.1 hp
    rw [hstop hd]
    exact hsources.2 _ (List.mem_map_of_mem hd)
  refine ⟨fun p hp ↦ ?_, fun n hn ↦ ?_⟩
  · obtain ⟨d, hd, rfl⟩ := List.mem_map.1 hp
    rw [← hstop hd]
    exact honce'.target (d.stop, d.target) (List.mem_map_of_mem hd)
  · rw [map_direct.2] at hn
    have hlast := honce'.other n (map_secondPass.2 ▸ hn)
    simp only [map_secondPass.1] at hlast
    simp only [map_direct.1]
    by_cases hstopped : n ∈ detours.map Detour.stop
    · rw [if_pos hstopped] at hlast
      -- the stop was free, or it is moved from
      have hfree := hfirst.target_free (map_firstPass.2 ▸ hstopped)
      rw [map_firstPass.1] at hfree
      rw [hlast]
      split_ifs with hsource
      · rfl
      · exact (hfree.resolve_right hsource).symm
    · have hmiddle := honce.other n (map_firstPass.2 ▸ hstopped)
      simp only [map_firstPass.1] at hmiddle
      rw [hlast, if_neg hstopped, hmiddle]

/-- **Two passes** that are not ready move something on. -/
theorem Goes.two_passes_moved_on (h : Goes s (firstPass detours ++ secondPass detours) s')
    (hstops : (detours.map Detour.stop).Nodup) (htargets : (detours.map Detour.target).Nodup)
    (hready : ¬ Ready s (detours.map Detour.source)) : MovedOn s s' (direct detours) := by
  obtain ⟨before, x, after, rfl, hbefore, hbad⟩ := exists_first_unready hready
  obtain ⟨middle, hfirst, hsecond⟩ := h.split
  -- what is moved from there was moved there, and it is free again after the first pass
  rw [firstPass, List.map_append] at hfirst
  obtain ⟨start, hstart, hfrom⟩ := hfirst.split
  have hthere : start x.source ≠ none := by
    cases hfrom with
    | cons ha _ _ => exact ha
  obtain ⟨i, hi, hix⟩ : ∃ i ∈ before, i.stop = x.source := by
    rw [← map_firstPass.1] at hbad
    exact List.mem_map.1 (map_firstPass.2 ▸ hstart.mem_of_ne_none hthere hbad)
  have hgone : middle i.stop = none := by
    rw [List.map_append, List.nodup_append] at hstops
    rw [hfrom.of_notMem, if_pos]
    · rw [hix, List.map_cons, List.map_cons]
      exact List.mem_cons_self
    · intro hmem
      refine hstops.2.2 _ (List.mem_map_of_mem hi) _ ?_ rfl
      rwa [List.map_map] at hmem
  -- so something was moved there in the second pass, and moved on
  obtain ⟨b1, b2, rfl⟩ := List.append_of_mem hi
  rw [secondPass, List.append_assoc, List.map_append] at hsecond
  obtain ⟨start', hstart', hfrom'⟩ := hsecond.split
  have hthere' : start' i.stop ≠ none := by
    cases hfrom' with
    | cons ha _ _ => exact ha
  obtain ⟨m, hm, hmi⟩ : ∃ m ∈ b1, m.target = i.stop :=
    List.mem_map.1 (map_secondPass.2 ▸ hstart'.mem_of_ne_none hthere' (.inl hgone))
  refine ⟨(m.source, m.target), ?_, hbefore.2 _ ?_, ?_⟩
  · exact List.mem_map_of_mem (List.mem_append_left _ (List.mem_append_left _ hm))
  · exact List.mem_map_of_mem (List.mem_append_left _ hm)
  · rw [List.append_assoc, List.map_append, List.nodup_append] at htargets
    show s' m.target = none
    rw [hfrom'.of_notMem, if_pos]
    · rw [hmi, List.cons_append, List.map_cons, List.map_cons]
      exact List.mem_cons_self
    · intro hmem
      refine htargets.2.2 _ (List.mem_map_of_mem hm) _ ?_ rfl
      rwa [List.map_map] at hmem

end

end Moves
