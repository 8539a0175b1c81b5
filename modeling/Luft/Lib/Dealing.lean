import Luft.Lib.Runs
import Mathlib.Data.List.Induction

/-!
# Dealing a series out

Something begins a series: it has some items left to deal, and later steps deal them one at a time.  A
step begins a series, deals the next item of it, leaves it alone, or drops it; which of these it does
may depend on the state, so the steps here are entries of a trace.

`series_before` says what that makes of a run: whenever there is a series left, it was begun at some
entry, every entry since dealt an item of it or left it alone, and what was dealt and what is left are
together what it began with, in order.
-/

set_option autoImplicit false

namespace Dealing

/-- What an entry of the trace can be: the beginning of a series with these items left, the dealing of
an item, or nothing to the series. -/
structure Dealer (ε β α : Type*) where
  begins : ε → β → List α → Prop
  deals : ε → β → α → Prop
  idle : ε → Prop

variable {ε β α : Type*} (d : Dealer ε β α)

/-- What one entry does to the series that is left, if there is one. -/
inductive Step (e : ε) : Option (β × List α) → Option (β × List α) → Prop
  | begun (s : Option (β × List α)) {label : β} {items : List α} (h : d.begins e label items) :
      Step e s (some (label, items))
  | dealt {label : β} {a : α} {rest : List α} (h : d.deals e label a) :
      Step e (some (label, a :: rest)) (some (label, rest))
  | kept (s : Option (β × List α)) (h : d.idle e) : Step e s s
  | dropped (s : Option (β × List α)) : Step e s none

/-- Entries that deal some items of a series one after the other, and nothing else. -/
inductive Dealt (label : β) : List ε → List α → Prop
  | nil : Dealt label [] []
  | deal {es : List ε} {as : List α} {e : ε} {a : α} (h : Dealt label es as)
      (he : d.deals e label a) : Dealt label (es ++ [e]) (as ++ [a])
  | idle {es : List ε} {as : List α} {e : ε} (h : Dealt label es as) (he : d.idle e) :
      Dealt label (es ++ [e]) as

/-- Where the series that is left comes from. -/
def Series (es : List ε) (s : Option (β × List α)) : Prop :=
  ∀ label rest, s = some (label, rest) → ∃ before e mid items given,
    es = before ++ e :: mid ∧ d.begins e label items ∧ Dealt d label mid given ∧
      items = given ++ rest

variable {d} {es : List ε} {e : ε} {s s' : Option (β × List α)}

theorem Series.step (h : Series d es s) (hstep : Step d e s s') : Series d (es ++ [e]) s' := by
  rintro label rest rfl
  cases hstep with
  | begun _ hbegins => exact ⟨es, e, [], rest, [], rfl, hbegins, .nil, rfl⟩
  | @dealt _ a _ hdeals =>
    obtain ⟨before, x, mid, items, given, rfl, hbegins, hmid, rfl⟩ := h label _ rfl
    refine ⟨before, x, mid ++ [e], _, given ++ [a], ?_, hbegins, hmid.deal hdeals, ?_⟩
    · rw [List.append_assoc, List.cons_append]
    · rw [List.append_assoc, List.singleton_append]
  | kept _ hidle =>
    obtain ⟨before, x, mid, items, given, rfl, hbegins, hmid, rfl⟩ := h label rest rfl
    refine ⟨before, x, mid ++ [e], _, given, ?_, hbegins, hmid.idle hidle, rfl⟩
    rw [List.append_assoc, List.cons_append]

section Run

variable {ι σ : Type*} {step : ι → σ → σ} {left : σ → Option (β × List α)}
  {d : Dealer (ι × σ) β α}

theorem series_trace (hstep : ∀ i t, Step d (i, t) (left t) (left (step i t))) (is : List ι)
    {t : σ} (ht : left t = none) : Series d (Runs.trace step is t) (left (Runs.after step is t)) := by
  induction is using List.reverseRecOn with
  | nil =>
    rintro label rest hleft
    rw [Runs.after_nil, ht] at hleft
    cases hleft
  | append_singleton is i ih =>
    rw [Runs.trace_append, Runs.after_append]
    exact ih.step (hstep i _)

/-- **Every series was begun**, and dealt in order since. -/
theorem series_before (hstep : ∀ i t, Step d (i, t) (left t) (left (step i t))) {is : List ι}
    {t u : σ} (ht : left t = none) {i : ι} {before rest : List (ι × σ)}
    (h : Runs.trace step is t = before ++ (i, u) :: rest) : Series d before (left u) := by
  obtain ⟨is', rfl, rfl⟩ := Runs.trace_eq_append h
  exact series_trace hstep is' ht

end Run

end Dealing
