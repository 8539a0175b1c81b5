import Mathlib.Data.List.Infix
import Mathlib.Tactic.TypeStar

/-!
# What holds throughout a run

A run of a list of steps passes through one state after each prefix of the list.  `Throughout` says
that a property holds in all of them (`throughout_iff`); unlike the quantifier over prefixes it
follows the list, so a run that is known state by state is checked by rewriting with
`throughout_cons`, and a run put together from phases phase by phase (`throughout_append`).
`Along` is a condition on the steps, and `Along.throughout` the induction over a run that meets it.
`trace` is the run itself, each step with the state it is taken in; `trace_eq_append` cuts it at any of
its entries.
-/

set_option autoImplicit false

namespace Runs

variable {α σ : Type*} (step : α → σ → σ)

/-- The state after all the steps. -/
def after : List α → σ → σ
  | [], s => s
  | a :: as, s => after as (step a s)

/-- `P` holds before the first step and after each one. -/
def Throughout (P : σ → Prop) : List α → σ → Prop
  | [], s => P s
  | a :: as, s => P s ∧ Throughout P as (step a s)

/-- Every step meets a condition on the step and the state it is taken in. -/
def Along (ok : α → σ → Prop) : List α → σ → Prop
  | [], _ => True
  | a :: as, s => ok a s ∧ Along ok as (step a s)

instance Along.decidable (ok : α → σ → Prop) [∀ a s, Decidable (ok a s)] :
    (as : List α) → (s : σ) → Decidable (Along step ok as s)
  | [], _ => .isTrue trivial
  | a :: as, s =>
    have := Along.decidable ok as (step a s)
    inferInstanceAs (Decidable (ok a s ∧ Along step ok as (step a s)))

variable {step} {P : σ → Prop}

@[simp] theorem after_nil (s : σ) : after step [] s = s := rfl

@[simp] theorem after_cons (a : α) (as : List α) (s : σ) :
    after step (a :: as) s = after step as (step a s) := rfl

theorem after_append (as bs : List α) (s : σ) :
    after step (as ++ bs) s = after step bs (after step as s) := by
  induction as generalizing s with
  | nil => rfl
  | cons a as ih => exact ih (step a s)

@[simp] theorem throughout_nil (s : σ) : Throughout step P [] s ↔ P s := Iff.rfl

@[simp] theorem throughout_cons (a : α) (as : List α) (s : σ) :
    Throughout step P (a :: as) s ↔ P s ∧ Throughout step P as (step a s) := Iff.rfl

namespace Throughout

theorem start {as : List α} {s : σ} (h : Throughout step P as s) : P s := by
  cases as with
  | nil => exact h
  | cons a as => exact h.1

theorem finish {as : List α} {s : σ} (h : Throughout step P as s) : P (after step as s) := by
  induction as generalizing s with
  | nil => exact h
  | cons a as ih => exact ih h.2

theorem mono {Q : σ → Prop} (hPQ : ∀ s, P s → Q s) {as : List α} {s : σ}
    (h : Throughout step P as s) : Throughout step Q as s := by
  induction as generalizing s with
  | nil => exact hPQ s h
  | cons a as ih => exact ⟨hPQ s h.1, ih h.2⟩

end Throughout

theorem throughout_append (as bs : List α) (s : σ) :
    Throughout step P (as ++ bs) s ↔
      Throughout step P as s ∧ Throughout step P bs (after step as s) := by
  induction as generalizing s with
  | nil => exact ⟨fun h ↦ ⟨h.start, h⟩, fun h ↦ h.2⟩
  | cons a as ih =>
    rw [List.cons_append, throughout_cons, throughout_cons, after_cons, ih, and_assoc]

/-- **Every prefix**: what holds throughout a run holds after each of its prefixes. -/
theorem throughout_iff (as : List α) (s : σ) :
    Throughout step P as s ↔ ∀ bs, bs <+: as → P (after step bs s) := by
  constructor
  · rintro h bs ⟨cs, rfl⟩
    exact ((throughout_append bs cs s).1 h).1.finish
  · intro h
    induction as generalizing s with
    | nil => exact h [] (List.prefix_refl [])
    | cons a as ih =>
      refine ⟨h [] List.nil_prefix, ih (step a s) fun bs hbs ↦ ?_⟩
      exact h (a :: bs) (List.cons_prefix_cons.2 ⟨rfl, hbs⟩)

theorem along_append (ok : α → σ → Prop) (as bs : List α) (s : σ) :
    Along step ok (as ++ bs) s ↔ Along step ok as s ∧ Along step ok bs (after step as s) := by
  induction as generalizing s with
  | nil => exact ⟨fun h ↦ ⟨trivial, h⟩, fun h ↦ h.2⟩
  | cons a as ih => rw [List.cons_append, Along, ih, Along, and_assoc, after_cons]

/-- The same steps meet a condition that follows. -/
theorem Along.imp {ok ok' : α → σ → Prop} {as : List α} {s : σ}
    (h : ∀ a ∈ as, ∀ s, ok a s → ok' a s) (hs : Along step ok as s) : Along step ok' as s := by
  induction as generalizing s with
  | nil => exact trivial
  | cons a as ih =>
    exact ⟨h a List.mem_cons_self s hs.1, ih (fun b hb ↦ h b (List.mem_cons_of_mem a hb)) hs.2⟩

/-- **What every step that meets the condition preserves** holds throughout the run. -/
theorem Along.throughout {ok : α → σ → Prop} (hstep : ∀ a s, P s → ok a s → P (step a s))
    {as : List α} {s : σ} (h : Along step ok as s) (hs : P s) : Throughout step P as s := by
  induction as generalizing s with
  | nil => exact hs
  | cons a as ih => exact ⟨hs, ih h.2 (hstep a s hs h.1)⟩

/-- Where the condition keeps an invariant, and the invariant makes every step that meets the
condition a good one, every step of the run is good. -/
theorem Along.along {ok good : α → σ → Prop} (hstep : ∀ a s, P s → ok a s → P (step a s))
    (hgood : ∀ a s, P s → ok a s → good a s) {as : List α} {s : σ} (h : Along step ok as s)
    (hs : P s) : Along step good as s := by
  induction as generalizing s with
  | nil => exact trivial
  | cons a as ih => exact ⟨hgood a s hs h.1, ih h.2 (hstep a s hs h.1)⟩

/-- **What a step leads to, run by run**: where a step leads to a state with `P` just if it meets the condition, a
run has `P` throughout just if all its steps meet it. -/
theorem throughout_iff_along {ok : α → σ → Prop} {I : σ → Prop} (hinv : ∀ a s, I s → I (step a s))
    (hstep : ∀ a s, I s → P s → (P (step a s) ↔ ok a s)) (as : List α) {s : σ} (hI : I s) (hs : P s) :
    Throughout step P as s ↔ Along step ok as s := by
  induction as generalizing s with
  | nil => exact iff_of_true hs trivial
  | cons a as ih =>
    rw [throughout_cons, and_iff_right hs, Along]
    constructor
    · intro h
      exact ⟨(hstep a s hI hs).1 h.start, (ih (hinv a s hI) h.start).1 h⟩
    · rintro ⟨hok, h⟩
      exact (ih (hinv a s hI) ((hstep a s hI hs).2 hok)).2 h

/-- What every step preserves holds throughout every run. -/
theorem throughout_of_step (hstep : ∀ a s, P s → P (step a s)) (as : List α) {s : σ} (hs : P s) :
    Throughout step P as s := by
  induction as generalizing s with
  | nil => exact hs
  | cons a as ih => exact ⟨hs, ih (hstep a s hs)⟩

/-! ## The run itself -/

variable (step) in
/-- Each step with the state it is taken in. -/
def trace : List α → σ → List (α × σ)
  | [], _ => []
  | a :: as, s => (a, s) :: trace as (step a s)

@[simp] theorem trace_nil (s : σ) : trace step [] s = [] := rfl

@[simp] theorem trace_cons (a : α) (as : List α) (s : σ) :
    trace step (a :: as) s = (a, s) :: trace step as (step a s) := rfl

theorem trace_append (as bs : List α) (s : σ) :
    trace step (as ++ bs) s = trace step as s ++ trace step bs (after step as s) := by
  induction as generalizing s with
  | nil => rfl
  | cons a as ih => rw [List.cons_append, trace_cons, trace_cons, ih, List.cons_append, after_cons]

/-- **Cutting at an entry**: what comes before it is the run to the state it is taken in. -/
theorem trace_eq_append {as : List α} {s t : σ} {a : α} {before after' : List (α × σ)}
    (h : trace step as s = before ++ (a, t) :: after') :
    ∃ bs, before = trace step bs s ∧ t = after step bs s := by
  induction before generalizing as s with
  | nil =>
    cases as with
    | nil => cases h
    | cons b as =>
      rw [trace_cons, List.nil_append, List.cons.injEq, Prod.mk.injEq] at h
      exact ⟨[], rfl, h.1.2.symm⟩
  | cons e before ih =>
    cases as with
    | nil => cases h
    | cons b as =>
      rw [trace_cons, List.cons_append, List.cons.injEq] at h
      obtain ⟨bs, hbs, ht⟩ := ih h.2
      exact ⟨b :: bs, by rw [trace_cons, hbs, h.1], ht⟩

/-- Each entry of a run that meets the condition is taken in a state with the invariant. -/
theorem Along.of_mem_trace {ok : α → σ → Prop} (hstep : ∀ a s, P s → ok a s → P (step a s))
    {as : List α} {s : σ} (h : Along step ok as s) (hs : P s) {a : α} {t : σ}
    (hmem : (a, t) ∈ trace step as s) : P t ∧ ok a t := by
  induction as generalizing s with
  | nil => cases hmem
  | cons b as ih =>
    rcases List.mem_cons.1 hmem with heq | hmem
    · cases heq
      exact ⟨hs, h.1⟩
    · exact ih h.2 (hstep b s hs h.1) hmem

end Runs
