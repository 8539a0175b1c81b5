import Mathlib.Data.List.Basic
import Mathlib.Tactic.TypeStar

/-!
# Machines that answer every input

A *Mealy machine* takes an input in a state, answers with an output and moves to a new state.  It
is the shape of every reactive piece of code that is driven from outside: a transport that is fed
packets, a loop that waits for the next of several events.  This file is about whole runs of such a
machine.

* `Mealy.run` feeds a list of inputs one after the other and collects the outputs;
* `Mealy.final_append` and `Mealy.outputs_append` cut a run at any point;
* `Mealy.run_invariant` is the induction every safety argument uses: what one step preserves, a
  whole run preserves, as long as the inputs are of the kind the step lemma is about;
* `Mealy.Along` is for conditions on an input that also look at the state it arrives in, and
  `Along.invariant` and `Along.outputs` are the inductions that go with it.
-/

set_option autoImplicit false

namespace Mealy

variable {σ ι ο : Type*} (step : σ → ι → ο × σ)

/-- Feed the inputs one by one; collect the outputs and the state reached. -/
def run (s : σ) : List ι → List ο × σ
  | [] => ([], s)
  | i :: is => ((step s i).1 :: (run (step s i).2 is).1, (run (step s i).2 is).2)

/-- The state a run ends in. -/
abbrev final (s : σ) (is : List ι) : σ := (run step s is).2

/-- The outputs of a run, one for each input. -/
abbrev outputs (s : σ) (is : List ι) : List ο := (run step s is).1

@[simp] theorem run_nil (s : σ) : run step s [] = ([], s) := rfl

@[simp] theorem outputs_nil (s : σ) : outputs step s [] = [] := rfl

@[simp] theorem final_nil (s : σ) : final step s [] = s := rfl

theorem run_cons (s : σ) (i : ι) (is : List ι) :
    run step s (i :: is) =
      ((step s i).1 :: outputs step (step s i).2 is, final step (step s i).2 is) := rfl

@[simp] theorem outputs_cons (s : σ) (i : ι) (is : List ι) :
    outputs step s (i :: is) = (step s i).1 :: outputs step (step s i).2 is := rfl

@[simp] theorem final_cons (s : σ) (i : ι) (is : List ι) :
    final step s (i :: is) = final step (step s i).2 is := rfl

theorem outputs_length (s : σ) (is : List ι) : (outputs step s is).length = is.length := by
  induction is generalizing s with
  | nil => rfl
  | cons i is ih => rw [outputs_cons, List.length_cons, List.length_cons, ih]

theorem final_append (s : σ) (is js : List ι) :
    final step s (is ++ js) = final step (final step s is) js := by
  induction is generalizing s with
  | nil => rfl
  | cons i is ih => rw [List.cons_append, final_cons, final_cons, ih]

theorem outputs_append (s : σ) (is js : List ι) :
    outputs step s (is ++ js) = outputs step s is ++ outputs step (final step s is) js := by
  induction is generalizing s with
  | nil => rfl
  | cons i is ih =>
    rw [List.cons_append, outputs_cons, outputs_cons, final_cons, ih, List.cons_append]

/-- **What every step preserves, a run preserves.**  `ok` singles out the inputs the step lemma is
about. -/
theorem run_invariant {inv : σ → Prop} {ok : ι → Prop}
    (hstep : ∀ s i, inv s → ok i → inv (step s i).2) {s : σ} (hs : inv s) {is : List ι}
    (his : ∀ i ∈ is, ok i) : inv (final step s is) := by
  induction is generalizing s with
  | nil => exact hs
  | cons i is ih =>
    rw [final_cons]
    exact ih (hstep s i hs (his i List.mem_cons_self))
      fun j hj ↦ his j (List.mem_cons_of_mem i hj)

/-! ## Conditions on the steps of a run -/

/-- Every step of the run meets a condition on the input and the state it arrives in. -/
def Along (ok : σ → ι → Prop) (s : σ) (is : List ι) : Prop :=
  ∀ pre i post, is = pre ++ i :: post → ok (final step s pre) i

variable {step} {ok : σ → ι → Prop} {s : σ} {i : ι} {is : List ι}

theorem Along.head (h : Along step ok s (i :: is)) : ok s i := h [] i is rfl

theorem Along.tail (h : Along step ok s (i :: is)) : Along step ok (step s i).2 is := by
  rintro pre j post rfl
  exact h (i :: pre) j post rfl

theorem along_cons : Along step ok s (i :: is) ↔ ok s i ∧ Along step ok (step s i).2 is := by
  refine ⟨fun h ↦ ⟨h.head, h.tail⟩, ?_⟩
  rintro ⟨hi, his⟩ (- | ⟨j, pre⟩) k post h
  · obtain ⟨rfl, -⟩ := List.cons.inj h
    exact hi
  · rw [List.cons_append, List.cons_eq_cons] at h
    obtain ⟨rfl, h⟩ := h
    exact his pre k post h

theorem along_nil : Along step ok s [] := by
  intro pre i post h
  exact absurd h.symm (by simp)

theorem Along.mono {ok' : σ → ι → Prop} (h : Along step ok s is)
    (himp : ∀ s i, ok s i → ok' s i) : Along step ok' s is :=
  fun pre i post his ↦ himp _ _ (h pre i post his)

/-- The part of a run up to some moment. -/
theorem Along.left {js : List ι} (h : Along step ok s (is ++ js)) : Along step ok s is := by
  rintro pre i post rfl
  exact h pre i (post ++ js) (by simp)

/-- **What every step that meets the condition preserves** holds at the end of the run. -/
theorem Along.invariant {inv : σ → Prop} (hstep : ∀ s i, inv s → ok s i → inv (step s i).2)
    (hs : inv s) (h : Along step ok s is) : inv (final step s is) := by
  induction is generalizing s with
  | nil => exact hs
  | cons i is ih => exact ih (hstep s i hs h.head) h.tail

/-- **What every step that meets the condition puts out** in a state with the invariant. -/
theorem Along.outputs {inv : σ → Prop} (good : ο → Prop)
    (hstep : ∀ s i, inv s → ok s i → inv (step s i).2)
    (hout : ∀ s i, inv s → ok s i → good (step s i).1) (hs : inv s) (h : Along step ok s is) :
    ∀ o ∈ outputs step s is, good o := by
  induction is generalizing s with
  | nil => simp
  | cons i is ih =>
    rw [outputs_cons, List.forall_mem_cons]
    exact ⟨hout s i hs h.head, ih (hstep s i hs h.head) h.tail⟩

end Mealy
