import Luft.Reminders.Timer
import Luft.Lib.Paired

/-!
# Every occurrence rings

Each reminder is followed on its own.  `Course` is the occurrences of a repeat, and the moments of
one occurrence all lie before those of the next.  `Follows` says which occurrence a reminder stands
at and what has been logged for all of them; rolling on (`Follows.roll`) and ringing
(`Follows.bell`) keep it, and with the timer set to the next moment no due moment is passed over.
`eachRings_run` puts the reminders of a list together again.
-/

set_option autoImplicit false

namespace Reminders

variable {z : Zone} {rules : Rules}

/-! ## The occurrences of one repeat -/

/-- The occurrences of a repeat, one after the other, each due before the next starts to matter. -/
structure Course (z : Zone) (rules : Rules) (rule : Repeat) (headsUp : ℕ) (occ : ℕ → When) :
    Prop where
  next : ∀ k, ((following rule (occ k).day).map fun day ↦ (⟨day, (occ k).time⟩ : When)) =
    some (occ (k + 1))
  apart : ∀ k, dueAt z rules (occ k) < startOf z rules (occ (k + 1)) headsUp

theorem startOf_le_dueAt (hz : z.Forward) (rules : Rules) (w : When) (headsUp : ℕ) :
    startOf z rules w headsUp ≤ dueAt z rules w := by
  rw [startOf]
  split_ifs
  · exact hz _ (by rw [addDays]; omega)
  · exact le_rfl

theorem Apart.course {r : Reminder} {rule : Repeat} {w : When} (h : Apart z rules r)
    (hr : r.Repeats rule w) : ∃ occ : ℕ → When, (∀ k, occurrence rule w k = some (occ k)) ∧
      Course z rules rule r.headsUp occ := by
  have hsome (k : ℕ) : ∃ o, occurrence rule w k = some o := by
    induction k with
    | zero => exact ⟨w, rfl⟩
    | succ k ih =>
      obtain ⟨o, ho⟩ := ih
      obtain ⟨next, hnext, -⟩ := h rule w hr k o ho
      exact ⟨⟨next, o.time⟩, by rw [occurrence, ho, Option.bind_some, hnext, Option.map_some]⟩
  choose occ hocc using hsome
  have hnext (k : ℕ) : ((following rule (occ k).day).map fun day ↦ (⟨day, (occ k).time⟩ : When)) =
      some (occ (k + 1)) := by
    rw [← hocc (k + 1), occurrence, hocc k, Option.bind_some]
  refine ⟨occ, hocc, hnext, fun k ↦ ?_⟩
  obtain ⟨next, hfollowing, hlt⟩ := h rule w hr k (occ k) (hocc k)
  have heq := hnext k
  rw [hfollowing, Option.map_some, Option.some.injEq] at heq
  rwa [← heq]

namespace Course

variable {rule : Repeat} {headsUp : ℕ} {occ : ℕ → When} (h : Course z rules rule headsUp occ)
  (hz : z.Forward)

include h hz

theorem startOf_lt (k : ℕ) : startOf z rules (occ k) headsUp < startOf z rules (occ (k + 1)) headsUp :=
  (startOf_le_dueAt hz rules (occ k) headsUp).trans_lt (h.apart k)

/-- Occurrences start a millisecond apart at least. -/
theorem startOf_add_le (j k : ℕ) :
    startOf z rules (occ j) headsUp + k ≤ startOf z rules (occ (j + k)) headsUp := by
  induction k with
  | zero => simp
  | succ k ih =>
    have hlt := h.startOf_lt hz (j + k)
    rw [Nat.cast_succ]
    exact (by omega : _ ≤ startOf z rules (occ (j + k)) headsUp + 1).trans hlt

theorem dueAt_lt_startOf {j k : ℕ} (hjk : j < k) :
    dueAt z rules (occ j) < startOf z rules (occ k) headsUp := by
  obtain ⟨n, rfl⟩ := Nat.exists_eq_add_of_lt hjk
  have hle := h.startOf_add_le hz (j + 1) n
  have hlt := h.apart j
  rw [show j + n + 1 = j + 1 + n by omega]
  omega

theorem dueAt_lt {j k : ℕ} (hjk : j < k) : dueAt z rules (occ j) < dueAt z rules (occ k) :=
  (h.dueAt_lt_startOf hz hjk).trans_le (startOf_le_dueAt hz rules (occ k) headsUp)

theorem ne {j k : ℕ} (hjk : j ≠ k) : occ j ≠ occ k := by
  intro heq
  rcases Nat.lt_or_gt_of_ne hjk with hlt | hlt
  · exact (h.dueAt_lt hz hlt).ne (by rw [heq])
  · exact (h.dueAt_lt hz hlt).ne (by rw [heq])

end Course

/-! ## Rolling on -/

theorem nextOccurrence_eq {r : Reminder} {rule : Repeat} {w : When} (hr : r.Repeats rule w) :
    nextOccurrence r = (following rule w.day).map fun day ↦ some ⟨day, w.time⟩ := by
  obtain ⟨-, hrule, hw⟩ := hr
  rw [nextOccurrence, hrule, hw]

theorem Course.nextOccurrence {rule : Repeat} {headsUp k : ℕ} {occ : ℕ → When}
    (h : Course z rules rule headsUp occ) {r : Reminder} (hr : r.Repeats rule (occ k)) :
    nextOccurrence r = some (some (occ (k + 1))) := by
  have hnext := h.next k
  rw [Option.map_eq_some_iff] at hnext
  obtain ⟨day, hday, heq⟩ := hnext
  rw [nextOccurrence_eq hr, hday, Option.map_some, ← heq]

/-- Rolling on stops at the last occurrence that has started. -/
theorem Course.rolledWithin {rule : Repeat} {occ : ℕ → When} {r : Reminder}
    (h : Course z rules rule r.headsUp occ) (hz : z.Forward) (now : ℤ) {steps k : ℕ}
    (hr : r.Repeats rule (occ k))
    (hsteps : (now - startOf z rules (occ k) r.headsUp).toNat < steps) :
    ∃ j, k ≤ j ∧ now < startOf z rules (occ (j + 1)) r.headsUp ∧
      (k < j → startOf z rules (occ j) r.headsUp ≤ now) ∧
      Reminders.rolledWithin z rules steps r now =
        some (if k = j then r else r.movedTo (occ j)) := by
  induction steps generalizing r k with
  | zero => exact absurd hsteps (Nat.not_lt_zero _)
  | succ steps ih =>
    rw [Reminders.rolledWithin, h.nextOccurrence hr]
    by_cases hstarted : startOf z rules (occ (k + 1)) r.headsUp ≤ now
    · have hlt := h.startOf_lt hz k
      have hless : (now - startOf z rules (occ (k + 1)) r.headsUp).toNat < steps := by omega
      obtain ⟨j, hkj, hahead, hj, hrolled⟩ := ih (r := r.movedTo (occ (k + 1))) (k := k + 1) h
        ⟨hr.1, hr.2.1, rfl⟩ hless
      refine ⟨j, Nat.le_of_succ_le hkj, hahead, fun _ ↦ ?_, ?_⟩
      · rcases hkj.eq_or_lt with heq | hlt
        · rwa [← heq]
        · exact hj hlt
      · have hne : k ≠ j := Nat.ne_of_lt hkj
        simp only [if_pos hstarted]
        rw [hrolled, if_neg hne]
        split_ifs with heq
        · rw [heq]
        · rfl
    · refine ⟨k, le_rfl, not_le.1 hstarted, fun hlt ↦ absurd hlt (lt_irrefl k), ?_⟩
      simp only [if_neg hstarted, if_true]

theorem Course.rolled {rule : Repeat} {occ : ℕ → When} {r : Reminder}
    (h : Course z rules rule r.headsUp occ) (hz : z.Forward) (now : ℤ) {k : ℕ}
    (hr : r.Repeats rule (occ k)) :
    ∃ j, k ≤ j ∧ now < startOf z rules (occ (j + 1)) r.headsUp ∧
      (k < j → startOf z rules (occ j) r.headsUp ≤ now) ∧
      Reminders.rolled z rules r now = some (if k = j then r else r.movedTo (occ j)) := by
  obtain ⟨hdone, -, hw⟩ := id hr
  rw [Reminders.rolled, hdone, hw]
  exact h.rolledWithin hz now hr (Nat.lt_succ_self _)

/-- A reminder that is done or does not repeat stays as it is. -/
theorem rolled_of_not_repeats {r : Reminder} (h : ∀ rule w, ¬ r.Repeats rule w) (now : ℤ) :
    rolled z rules r now = some r := by
  cases hdone : r.doneAt with
  | some _ => rw [rolled, hdone]
  | none =>
    cases hw : r.when with
    | none => rw [rolled, hdone, hw]
    | some w =>
      cases hrule : r.repeats with
      | some rule => exact absurd ⟨hdone, hrule, hw⟩ (h rule w)
      | none =>
        rw [rolled, hdone, hw]
        simp only
        rw [rolledWithin, Reminders.nextOccurrence, hrule]

/-! ## What is due -/

theorem Course.momentsOf {rule : Repeat} {headsUp k : ℕ} {occ : ℕ → When}
    (h : Course z rules rule headsUp occ) {r : Reminder} (hr : r.Repeats rule (occ k)) (now : ℤ) :
    momentsOf z rules r now = some
      (((nextForOccurrence z rules r (occ k) now).toList ++
        [(⟨startOf z rules (occ (k + 1)) r.headsUp, .roll⟩ : Moment)]).insertionSort
          fun a b ↦ a.instant ≤ b.instant) := by
  obtain ⟨hdone, -, hw⟩ := id hr
  rw [Reminders.momentsOf, hdone, hw]
  simp only [h.nextOccurrence hr, Option.map_some, Option.toList_some]

theorem afterRinging_kind {r : Reminder} {last : ℤ} {moment : Moment}
    (h : afterRinging z rules r last = some moment) : moment.kind = .nag ∨ moment.kind = .nudge := by
  rw [afterRinging] at h
  split at h <;> split at h <;> cases h
  · exact .inr rfl
  · exact .inl rfl

theorem nextForOccurrence_kind {r : Reminder} {w : When} {now : ℤ} {moment : Moment}
    (h : nextForOccurrence z rules r w now = some moment) : moment.kind ≠ .roll := by
  rw [nextForOccurrence] at h
  split at h
  · cases h
    exact MomentKind.noConfusion
  · rcases afterRinging_kind h with hkind | hkind <;> rw [hkind] <;> decide
  · split at h <;> cases h <;> exact MomentKind.noConfusion

/-- What is due is the moment of the occurrence a reminder stands at. -/
theorem Course.dueOf {rule : Repeat} {headsUp k : ℕ} {occ : ℕ → When}
    (h : Course z rules rule headsUp occ) {r : Reminder} (hr : r.Repeats rule (occ k)) {e : Event}
    (hahead : e.now < startOf z rules (occ (k + 1)) r.headsUp) :
    dueOf z rules e r = some
      (match nextForOccurrence z rules r (occ k) e.now with
      | some moment =>
        if moment.instant ≤ e.now ∧ e.held moment.kind = false then [⟨r, moment.kind⟩] else []
      | none => []) := by
  rw [Reminders.dueOf, h.momentsOf hr, Option.map_some]
  cases hown : nextForOccurrence z rules r (occ k) e.now with
  | none =>
    simp only [Option.toList_none, List.nil_append, List.insertionSort_cons, List.insertionSort_nil,
      List.orderedInsert_nil, List.head?_cons]
    rw [if_neg fun hle ↦ hle.2.1 rfl]
  | some moment =>
    have hkind := nextForOccurrence_kind hown
    simp only [Option.toList_some, List.cons_append, List.nil_append, List.insertionSort_cons,
      List.insertionSort_nil, List.orderedInsert_nil, List.orderedInsert_cons]
    by_cases hle : moment.instant ≤ startOf z rules (occ (k + 1)) r.headsUp
    · simp only [if_pos hle, List.head?_cons, hkind, ne_eq, not_false_eq_true, true_and]
    · have hlate : ¬ moment.instant ≤ e.now := by omega
      simp only [if_neg hle, List.head?_cons, hlate, false_and, if_false, not_true_eq_false,
        and_false, ne_eq]

/-- What can be due for a reminder that nobody put off. -/
inductive Falling (z : Zone) (rules : Rules) (w : When) (now : ℤ) (r : Reminder) : List Due → Prop
  | quiet (h : r.rung = none → ∃ moment, nextForOccurrence z rules r w now = some moment ∧
      now < moment.instant ∧ moment.instant ≤ dueAt z rules w) : Falling z rules w now r []
  | warn (hrung : r.rung = none) (hwarned : r.warned = false) (h : now < dueAt z rules w) :
      Falling z rules w now r [⟨r, .warn⟩]
  | ring (hrung : r.rung = none) (h : dueAt z rules w ≤ now) : Falling z rules w now r [⟨r, .ring⟩]
  | again (hrung : r.rung ≠ none) {kind : MomentKind} (h : kind = .nag ∨ kind = .nudge) :
      Falling z rules w now r [⟨r, kind⟩]

theorem Course.falling (hz : z.Forward) {rule : Repeat} {headsUp k : ℕ} {occ : ℕ → When}
    (h : Course z rules rule headsUp occ) {r : Reminder} (hr : r.Repeats rule (occ k)) {e : Event}
    (hheld : e.heldBack = false) (hahead : e.now < startOf z rules (occ (k + 1)) r.headsUp)
    (hsnoozed : r.snoozedUntil = none) :
    ∃ d, Reminders.dueOf z rules e r = some d ∧ Falling z rules (occ k) e.now r d := by
  rw [h.dueOf hr hahead]
  refine ⟨_, rfl, ?_⟩
  cases hrung : r.rung with
  | some rung =>
    cases hown : nextForOccurrence z rules r (occ k) e.now with
    | none => exact .quiet fun hnone ↦ absurd (hrung.symm.trans hnone) (Option.some_ne_none _)
    | some moment =>
      simp only
      split_ifs
      · refine .again (by rw [hrung]; exact Option.some_ne_none _) ?_
        rw [nextForOccurrence, hsnoozed, hrung] at hown
        exact afterRinging_kind hown
      · exact .quiet fun hnone ↦ absurd (hrung.symm.trans hnone) (Option.some_ne_none _)
  | none =>
    have hring : e.held .ring = false := by rw [Event.held, hheld]; cases e.active <;> rfl
    have hwarn : e.held .warn = false := by rw [Event.held, hheld]; cases e.active <;> rfl
    by_cases hearly : r.headsUp ≠ 0 ∧ r.warned = false ∧ e.now < dueAt z rules (occ k)
    · have hown : nextForOccurrence z rules r (occ k) e.now =
          some ⟨warnAt z rules (occ k) r.headsUp, .warn⟩ := by
        rw [nextForOccurrence, hsnoozed, hrung]
        exact if_pos hearly
      have hle : warnAt z rules (occ k) r.headsUp ≤ dueAt z rules (occ k) := by
        have hstart := startOf_le_dueAt hz rules (occ k) r.headsUp
        rwa [startOf, if_pos hearly.1] at hstart
      rw [hown]
      simp only
      split_ifs with hnow
      · exact .warn hrung hearly.2.1 hearly.2.2
      · refine .quiet fun _ ↦ ⟨_, hown, ?_, hle⟩
        exact not_le.1 fun hnow' ↦ hnow ⟨hnow', hwarn⟩
    · have hown : nextForOccurrence z rules r (occ k) e.now =
          some ⟨dueAt z rules (occ k), .ring⟩ := by
        rw [nextForOccurrence, hsnoozed, hrung]
        exact if_neg hearly
      rw [hown]
      simp only
      split_ifs with hnow
      · exact .ring hrung hnow.1
      · refine .quiet fun _ ↦ ⟨_, hown, ?_, le_rfl⟩
        exact not_le.1 fun hnow' ↦ hnow ⟨hnow', hring⟩

/-- What reached people of what was due for one reminder. -/
theorem reached_append {due d : List Due} {id : List Char}
    (hd : due.filter (fun d ↦ d.reminder.id = id) = d) (log : List (Due × ℤ)) (now : ℤ)
    (kind : MomentKind) (o : When) :
    reached (log ++ due.map fun d ↦ (d, now)) kind id o = reached log kind id o ++
      (d.filter fun d ↦ d.kind = kind ∧ d.reminder.when = some o).map fun _ ↦ now := by
  rw [reached, reached, List.filter_append, List.map_append, List.filter_map, List.map_map, ← hd,
    List.filter_filter]
  congr 2
  refine List.filter_congr fun d _ ↦ ?_
  simp only [Function.comp_apply, Bool.decide_and, Bool.and_comm]

/-! ## Following one reminder -/

/-- Where a reminder stands at a moment: at its `k`th occurrence, which is the last that has
started, with the ones before it rung and nothing logged for the ones after it. -/
structure Follows (z : Zone) (rules : Rules) (since : ℤ) (occ : ℕ → When) (log : List (Due × ℤ))
    (now : ℤ) (r : Reminder) (k : ℕ) : Prop where
  stands : r.when = some (occ k)
  snoozed : r.snoozedUntil = none
  started : k ≠ 0 → startOf z rules (occ k) r.headsUp ≤ now
  ahead : now < startOf z rules (occ (k + 1)) r.headsUp
  before : ∀ j < k, since ≤ dueAt z rules (occ j) →
    reached log .ring r.id (occ j) = [dueAt z rules (occ j)]
  unrung : r.rung = none → reached log .ring r.id (occ k) = []
  rung : r.rung ≠ none → dueAt z rules (occ k) ≤ now ∧
    (since ≤ dueAt z rules (occ k) → reached log .ring r.id (occ k) = [dueAt z rules (occ k)])
  after : ∀ j, k < j → reached log .ring r.id (occ j) = [] ∧ reached log .warn r.id (occ j) = []
  warn : ∀ j, (reached log .warn r.id (occ j)).length ≤ 1 ∧
    ∀ t ∈ reached log .warn r.id (occ j), t < dueAt z rules (occ j)
  unwarned : r.warned = false → reached log .warn r.id (occ k) = []

namespace Follows

variable {since : ℤ} {occ : ℕ → When} {log : List (Due × ℤ)} {now : ℤ} {r : Reminder} {k : ℕ}

/-- Time passes, but the next occurrence has not started. -/
theorem wait (h : Follows z rules since occ log now r k) {now' : ℤ} (hle : now ≤ now')
    (hahead : now' < startOf z rules (occ (k + 1)) r.headsUp) :
    Follows z rules since occ log now' r k :=
  { h with
    started := fun hk ↦ (h.started hk).trans hle
    ahead := hahead
    rung := fun hrung ↦ ⟨(h.rung hrung).1.trans hle, (h.rung hrung).2⟩ }

/-- **Rolling on** to the next occurrence, after this one rang. -/
theorem roll (h : Follows z rules since occ log now r k) (hrung : r.rung ≠ none) {now' : ℤ}
    (hstarted : startOf z rules (occ (k + 1)) r.headsUp ≤ now')
    (hahead : now' < startOf z rules (occ (k + 1 + 1)) r.headsUp) :
    Follows z rules since occ log now' (r.movedTo (occ (k + 1))) (k + 1) where
  stands := rfl
  snoozed := rfl
  started _ := hstarted
  ahead := hahead
  before j hj hsince := by
    rcases (Nat.le_of_lt_succ hj).eq_or_lt with rfl | hlt
    · exact (h.rung hrung).2 hsince
    · exact h.before j hlt hsince
  unrung _ := (h.after (k + 1) (Nat.lt_succ_self k)).1
  rung hne := absurd rfl hne
  after j hj := h.after j (Nat.lt_of_succ_lt hj)
  warn := h.warn
  unwarned _ := (h.after (k + 1) (Nat.lt_succ_self k)).2

/-- What the bell adds to what reached people for the occurrences. -/
theorem reached_bell (h : Follows z rules since occ log now r k) {rule : Repeat} (hz : z.Forward)
    (hc : Course z rules rule r.headsUp occ) {due d : List Due}
    (hd : due.filter (fun d ↦ d.reminder.id = r.id) = d) (hown : ∀ x ∈ d, x.reminder = r)
    (kind : MomentKind) (j : ℕ) :
    reached (log ++ due.map fun d ↦ (d, now)) kind r.id (occ j) =
      reached log kind r.id (occ j) ++
        if j = k then (d.filter (·.kind = kind)).map fun _ ↦ now else [] := by
  rw [reached_append hd]
  congr 1
  split_ifs with hj
  · congr 1
    refine List.filter_congr fun x hx ↦ ?_
    rw [hown x hx, h.stands, hj]
    simp only [and_true]
  · rw [List.filter_eq_nil_iff.2, List.map_nil]
    intro x hx heq
    have heq := (of_decide_eq_true heq).2
    rw [hown x hx, h.stands, Option.some.injEq] at heq
    exact hc.ne hz hj heq.symm

/-- Something reaches people for the occurrence it stands at, and nothing for the others. -/
theorem change (h : Follows z rules since occ log now r k) {r' : Reminder} {log' : List (Due × ℤ)}
    (hid : r'.id = r.id) (hwhen : r'.when = r.when) (hheadsUp : r'.headsUp = r.headsUp)
    (hsnoozed : r'.snoozedUntil = none)
    (hother : ∀ kind j, j ≠ k → reached log' kind r.id (occ j) = reached log kind r.id (occ j))
    (hunrung : r'.rung = none → reached log' .ring r.id (occ k) = [])
    (hrung : r'.rung ≠ none → dueAt z rules (occ k) ≤ now ∧ (since ≤ dueAt z rules (occ k) →
      reached log' .ring r.id (occ k) = [dueAt z rules (occ k)]))
    (hwarn : (reached log' .warn r.id (occ k)).length ≤ 1 ∧
      ∀ t ∈ reached log' .warn r.id (occ k), t < dueAt z rules (occ k))
    (hunwarned : r'.warned = false → reached log' .warn r.id (occ k) = []) :
    Follows z rules since occ log' now r' k where
  stands := hwhen.trans h.stands
  snoozed := hsnoozed
  started hk := hheadsUp.symm ▸ h.started hk
  ahead := hheadsUp.symm ▸ h.ahead
  before j hj hsince := by
    rw [hid, hother _ j hj.ne]
    exact h.before j hj hsince
  unrung hne := by rw [hid, hunrung hne]
  rung hne := by rw [hid]; exact hrung hne
  after j hj := by
    rw [hid, hother _ j hj.ne', hother _ j hj.ne']
    exact h.after j hj
  warn j := by
    rw [hid]
    by_cases hj : j = k
    · rw [hj]
      exact hwarn
    · rw [hother _ j hj]
      exact h.warn j
  unwarned hne := by rw [hid, hunwarned hne]

/-- **Ringing**: what is due reaches people, and the reminder takes note of it. -/
theorem bell (h : Follows z rules since occ log now r k) {rule : Repeat} (hz : z.Forward)
    (hc : Course z rules rule r.headsUp occ)
    (hintime : r.rung = none → since ≤ dueAt z rules (occ k) → now ≤ dueAt z rules (occ k))
    {due d : List Due} (hd : due.filter (fun d ↦ d.reminder.id = r.id) = d)
    (hf : Falling z rules (occ k) now r d) :
    Follows z rules since occ (log ++ due.map fun d ↦ (d, now)) now (afterBell due now r) k ∧
      ((afterBell due now r).rung = none → ∃ moment,
        nextForOccurrence z rules (afterBell due now r) (occ k) now = some moment ∧
          now < moment.instant ∧ moment.instant ≤ dueAt z rules (occ k)) := by
  have hkind : kindOf due r.id = d.getLast?.map (·.kind) := by rw [kindOf, hd]
  have hown : ∀ x ∈ d, x.reminder = r := by
    intro x hx
    cases hf <;> simp only [List.mem_singleton, List.not_mem_nil] at hx <;> rw [hx]
  have hreached := h.reached_bell hz hc hd hown
  have hother : ∀ kind j, j ≠ k → reached (log ++ due.map fun d ↦ (d, now)) kind r.id (occ j) =
      reached log kind r.id (occ j) := by
    intro kind j hj
    rw [hreached, if_neg hj, List.append_nil]
  replace hreached (kind : MomentKind) := (hreached kind k).trans (by rw [if_pos rfl])
  have hwarn := h.warn k
  generalize log ++ (due.map fun d ↦ (d, now)) = log' at hreached hother ⊢
  cases hf with
  | quiet hnext =>
    rw [afterBell, hkind]
    have hsame (kind : MomentKind) := (hreached kind).trans (List.append_nil _)
    refine ⟨h.change rfl rfl rfl h.snoozed hother ?_ ?_ ?_ ?_, hnext⟩
    · exact fun hne ↦ (hsame _).trans (h.unrung hne)
    · exact fun hne ↦ ⟨(h.rung hne).1, fun hsince ↦ (hsame _).trans ((h.rung hne).2 hsince)⟩
    · rw [hsame]
      exact hwarn
    · exact fun hne ↦ (hsame _).trans (h.unwarned hne)
  | warn hrung hwarned hearly =>
    have hafter : afterBell due now r = { r with warned := true } := by rw [afterBell, hkind]; rfl
    have hring := (hreached .ring).trans (List.append_nil _)
    have hwarn' : reached log' .warn r.id (occ k) = [now] := by
      rw [hreached, h.unwarned hwarned]
      rfl
    rw [hafter]
    refine ⟨h.change rfl rfl rfl h.snoozed hother ?_ ?_ ?_ ?_, fun _ ↦ ?_⟩
    · exact fun _ ↦ hring.trans (h.unrung hrung)
    · exact fun hne ↦ absurd hrung hne
    · rw [hwarn']
      exact ⟨le_rfl, fun t ht ↦ (List.mem_singleton.1 ht) ▸ hearly⟩
    · exact fun hne ↦ absurd hne Bool.noConfusion
    · refine ⟨⟨dueAt z rules (occ k), .ring⟩, ?_, hearly, le_rfl⟩
      rw [nextForOccurrence, h.snoozed, hrung]
      exact if_neg fun hne ↦ Bool.noConfusion hne.2.1
  | ring hrung hdue =>
    have hafter : afterBell due now r = rang r now := by rw [afterBell, hkind]; rfl
    have hring : reached log' .ring r.id (occ k) = [now] := by
      rw [hreached, h.unrung hrung]
      rfl
    have hwarn' := (hreached .warn).trans (List.append_nil _)
    rw [hafter]
    refine ⟨h.change rfl rfl rfl rfl hother ?_ ?_ ?_ ?_, ?_⟩
    · exact fun hne ↦ absurd hne (Option.some_ne_none _)
    · refine fun _ ↦ ⟨hdue, fun hsince ↦ ?_⟩
      rw [hring, le_antisymm hdue (hintime hrung hsince)]
    · rw [hwarn']
      exact hwarn
    · exact fun hne ↦ absurd hne Bool.noConfusion
    · exact fun hne ↦ absurd hne (Option.some_ne_none _)
  | again hrung hagain =>
    have hafter : afterBell due now r = rang r now := by
      rw [afterBell, hkind]
      rcases hagain with rfl | rfl <;> rfl
    have hsame {kind : MomentKind} (hmeant : kind = .ring ∨ kind = .warn) :
        reached log' kind r.id (occ k) = reached log kind r.id (occ k) := by
      rw [hreached]
      rcases hmeant with rfl | rfl <;> rcases hagain with rfl | rfl <;> exact List.append_nil _
    rw [hafter]
    refine ⟨h.change rfl rfl rfl rfl hother ?_ ?_ ?_ ?_, ?_⟩
    · exact fun hne ↦ absurd hne (Option.some_ne_none _)
    · exact fun _ ↦ ⟨(h.rung hrung).1, fun hs ↦ (hsame (.inl rfl)).trans ((h.rung hrung).2 hs)⟩
    · rw [hsame (.inr rfl)]
      exact hwarn
    · exact fun hne ↦ absurd hne Bool.noConfusion
    · exact fun hne ↦ absurd hne (Option.some_ne_none _)

end Follows

/-! ## The timer -/

theorem soonest_le (now : ℤ) (moments : List Moment) (next : Option ℤ) :
    (∀ n ∈ next, ∃ t ∈ soonest now next moments, t ≤ n) ∧
      ∀ moment ∈ moments, now < moment.instant →
        ∃ t ∈ soonest now next moments, t ≤ moment.instant := by
  induction moments generalizing next with
  | nil => exact ⟨fun n hn ↦ ⟨n, hn, le_rfl⟩, fun _ h ↦ absurd h List.not_mem_nil⟩
  | cons moment moments ih =>
    rw [soonest, List.foldl_cons, ← soonest]
    by_cases h : now < moment.instant ∧ ∀ n ∈ next, moment.instant < n
    · rw [if_pos h]
      obtain ⟨hnext, hrest⟩ := ih (some moment.instant)
      obtain ⟨t, ht, hle⟩ := hnext _ rfl
      refine ⟨fun n hn ↦ ⟨t, ht, hle.trans (h.2 n hn).le⟩, fun other hother hahead ↦ ?_⟩
      rcases List.mem_cons.1 hother with rfl | hother
      · exact ⟨t, ht, hle⟩
      · exact hrest other hother hahead
    · rw [if_neg h]
      obtain ⟨hnext, hrest⟩ := ih next
      refine ⟨hnext, fun other hother hahead ↦ ?_⟩
      rcases List.mem_cons.1 hother with rfl | hother
      · have hlate : ∃ n ∈ next, n ≤ other.instant := by
          by_contra hnone
          exact h ⟨hahead, fun n hn ↦ not_le.1 fun hle ↦ hnone ⟨n, hn, hle⟩⟩
        obtain ⟨n, hn, hle⟩ := hlate
        obtain ⟨t, ht, htn⟩ := hnext n hn
        exact ⟨t, ht, htn.trans hle⟩
      · exact hrest other hother hahead

/-- **The timer is set for the next thing that can happen**, or for something sooner. -/
theorem setTimer_le {now : ℤ} {list : List Reminder} {moments : Reminder → List Moment}
    (h : ∀ r ∈ list, momentsOf z rules r now = some (moments r)) :
    ∃ timer, setTimer z rules now list = some timer ∧ ∀ r ∈ list, ∀ moment ∈ moments r,
      now < moment.instant → ∃ t ∈ timer, t ≤ moment.instant := by
  rw [setTimer, Paired.mapM_eq_map h, Option.map_some]
  refine ⟨_, rfl, fun r hr moment hmoment hahead ↦ ?_⟩
  obtain ⟨t, ht, hle⟩ := (soonest_le now ((list.map moments).flatten)
    (if list.any fun r ↦ r.when.isSome && r.doneAt.isNone then some (z.nextMidnight now) else none)).2
      moment (List.mem_flatten.2 ⟨moments r, List.mem_map_of_mem hr, hmoment⟩) hahead
  refine ⟨_, Option.mem_map_of_mem _ ht, ?_⟩
  omega

/-! ## The whole list -/

/-- A reminder that is still the one it was. -/
structure Kept (r₀ r : Reminder) : Prop where
  id : r.id = r₀.id
  doneAt : r.doneAt = r₀.doneAt
  repeats : r.repeats = r₀.repeats
  dated : r.when.isSome = r₀.when.isSome

theorem Kept.not_repeats {r₀ r : Reminder} (h : Kept r₀ r) (h₀ : ∀ rule w, ¬ r₀.Repeats rule w)
    (rule : Repeat) (w : When) : ¬ r.Repeats rule w := by
  rintro ⟨hdone, hrule, hw⟩
  have hdated := h.dated
  rw [hw, Option.isSome_some, eq_comm, Option.isSome_iff_exists] at hdated
  obtain ⟨w₀, hw₀⟩ := hdated
  exact h₀ rule w₀ ⟨h.doneAt.symm.trans hdone, h.repeats.symm.trans hrule, hw₀⟩

/-- What is known of each reminder of a list between two steps; `intime` is what is known of the
reminder and the due moment of the occurrence it stands at. -/
def Tracks (z : Zone) (rules : Rules) (since : ℤ) (log : List (Due × ℤ)) (now : ℤ)
    (intime : Reminder → (ℕ → When) → ℕ → Prop) (r₀ r : Reminder) : Prop :=
  Kept r₀ r ∧ ∀ rule w, r₀.Repeats rule w → ∃ occ k, (∀ k, occurrence rule w k = some (occ k)) ∧
    Course z rules rule r.headsUp occ ∧ Follows z rules since occ log now r k ∧ intime r occ k

theorem Tracks.of_repeats {since now : ℤ} {log : List (Due × ℤ)}
    {intime : Reminder → (ℕ → When) → ℕ → Prop} {r₀ r : Reminder} (hkept : Kept r₀ r)
    {rule : Repeat} {w : When} (hr : r₀.Repeats rule w) {occ : ℕ → When} (k : ℕ)
    (hocc : ∀ k, occurrence rule w k = some (occ k)) (hc : Course z rules rule r.headsUp occ)
    (hf : Follows z rules since occ log now r k) (hintime : intime r occ k) :
    Tracks z rules since log now intime r₀ r := by
  refine ⟨hkept, fun rule' w' hr' ↦ ?_⟩
  obtain rfl : rule = rule' := Option.some.inj (hr.2.1.symm.trans hr'.2.1)
  obtain rfl : w = w' := Option.some.inj (hr.2.2.symm.trans hr'.2.2)
  exact ⟨occ, k, hocc, hc, hf, hintime⟩

/-- A reminder that does not repeat needs no following. -/
theorem Tracks.of_not_repeats {since now : ℤ} {log : List (Due × ℤ)}
    {intime : Reminder → (ℕ → When) → ℕ → Prop} {r₀ r : Reminder} (hkept : Kept r₀ r)
    (h : ∀ rule w, ¬ r₀.Repeats rule w) : Tracks z rules since log now intime r₀ r :=
  ⟨hkept, fun rule w hr ↦ absurd hr (h rule w)⟩

/-- After rolling on: the due moment is not past. -/
def Poised (z : Zone) (rules : Rules) (since now : ℤ) (r : Reminder) (occ : ℕ → When) (k : ℕ) :
    Prop :=
  r.rung = none → since ≤ dueAt z rules (occ k) → now ≤ dueAt z rules (occ k)

/-- After a refresh: the due moment is to come, and the timer does not miss it, nor the start of the
next occurrence. -/
def Waits (z : Zone) (rules : Rules) (now : ℤ) (timer : Option ℤ) (r : Reminder) (occ : ℕ → When)
    (k : ℕ) : Prop :=
  (r.rung = none → now < dueAt z rules (occ k)) ∧
    ∃ t ∈ timer, t ≤ startOf z rules (occ (k + 1)) r.headsUp ∧
      (r.rung = none → t ≤ dueAt z rules (occ k))

theorem Follows.repeats {since now : ℤ} {occ : ℕ → When} {log : List (Due × ℤ)} {r₀ r : Reminder}
    {k : ℕ} (h : Follows z rules since occ log now r k) (hkept : Kept r₀ r) {rule : Repeat}
    {w : When} (hr : r₀.Repeats rule w) : r.Repeats rule (occ k) :=
  ⟨hkept.doneAt.trans hr.1, hkept.repeats.trans hr.2.1, h.stands⟩

/-- Rolling on when the timer fires, or before that. -/
theorem Tracks.rolled (hz : z.Forward) {since now now' : ℤ} {timer : Option ℤ}
    {log : List (Due × ℤ)} {r₀ r : Reminder}
    (h : Tracks z rules since log now (Waits z rules now timer) r₀ r) (hle : now ≤ now')
    (htimer : ∀ t ∈ timer, now' ≤ t) :
    ∃ r', Reminders.rolled z rules r now' = some r' ∧
      Tracks z rules since log now' (Poised z rules since now') r₀ r' := by
  obtain ⟨hkept, hfollows⟩ := h
  by_cases hrepeats : ∃ rule w, r₀.Repeats rule w
  · obtain ⟨rule, w, hr₀⟩ := hrepeats
    obtain ⟨occ, k, hocc, hc, hf, hearly, t, ht, hstart, hdue⟩ := hfollows rule w hr₀
    have hr := hf.repeats hkept hr₀
    have hnow := htimer t ht
    obtain ⟨j, hkj, hahead, hj, hrolled⟩ := hc.rolled hz now' hr
    refine ⟨_, hrolled, ?_⟩
    rcases hkj.eq_or_lt with rfl | hlt
    · rw [if_pos rfl]
      exact .of_repeats hkept hr₀ k hocc hc (hf.wait hle hahead)
        fun hrung _ ↦ hnow.trans (hdue hrung)
    · -- the timer fired at the start of the next occurrence, which is due no earlier
      have hlast : j = k + 1 := by
        by_contra hne
        have hover := hc.dueAt_lt_startOf hz (show k + 1 < j by omega)
        have hbegun := startOf_le_dueAt hz rules (occ (k + 1)) r.headsUp
        have hstarted := hj hlt
        omega
      subst hlast
      have hrung : r.rung ≠ none := fun hnone ↦ by
        have hapart := hc.apart k
        have hstarted := hj hlt
        have hlate := hdue hnone
        omega
      rw [if_neg (Nat.succ_ne_self k).symm]
      refine .of_repeats ⟨hkept.id, hkept.doneAt, hkept.repeats, ?_⟩ hr₀ (k + 1) hocc hc
        (hf.roll hrung (hj hlt) hahead) fun _ _ ↦ (hnow.trans hstart).trans (startOf_le_dueAt hz rules _ _)
      rw [← hkept.dated, hf.stands]
      rfl
  · have hnot : ∀ rule w, ¬ r₀.Repeats rule w := fun rule w hr ↦ hrepeats ⟨rule, w, hr⟩
    exact ⟨r, rolled_of_not_repeats (hkept.not_repeats hnot) now', .of_not_repeats hkept hnot⟩

/-- Rolling on when the program starts: what it was not there for is left behind. -/
theorem tracks_start (hz : z.Forward) {since : ℤ} {r : Reminder} (hapart : Apart z rules r)
    (hsettled : Settled z rules since r) :
    ∃ r', Reminders.rolled z rules r since = some r' ∧
      Tracks z rules since [] since (Poised z rules since since) r r' := by
  by_cases hrepeats : ∃ rule w, r.Repeats rule w
  · obtain ⟨rule, w, hr⟩ := hrepeats
    obtain ⟨occ, hocc, hc⟩ := hapart.course hr
    obtain ⟨hsnoozed, hrung⟩ := hsettled rule w hr
    have hfirst : w = occ 0 := Option.some.inj (hocc 0)
    have hr' : r.Repeats rule (occ 0) := hfirst ▸ hr
    obtain ⟨j, hj0, hahead, hj, hrolled⟩ := hc.rolled hz since hr'
    refine ⟨_, hrolled, ?_⟩
    have hpast (i : ℕ) (hi : i < j) (hsince : since ≤ dueAt z rules (occ i)) : False := by
      have hlt := hc.dueAt_lt_startOf hz hi
      have hstarted := hj (Nat.zero_lt_of_lt hi)
      omega
    have hunwarned (i : ℕ) : (reached [] .warn r.id (occ i)).length ≤ 1 ∧
        ∀ t ∈ reached [] .warn r.id (occ i), t < dueAt z rules (occ i) :=
      ⟨Nat.zero_le 1, fun _ ht ↦ absurd ht List.not_mem_nil⟩
    by_cases hzero : 0 = j
    · subst hzero
      rw [if_pos rfl]
      refine .of_repeats ⟨rfl, rfl, rfl, rfl⟩ hr 0 hocc hc ?_ fun _ hsince ↦ hsince
      refine ⟨hr'.2.2, hsnoozed, fun hne ↦ absurd rfl hne, hahead, ?_, fun _ ↦ rfl, ?_,
        fun _ _ ↦ ⟨rfl, rfl⟩, hunwarned, fun _ ↦ rfl⟩
      · exact fun i hi ↦ absurd hi (Nat.not_lt_zero i)
      · intro hne
        have hpast := hfirst ▸ hrung hne
        exact ⟨hpast.le, fun hsince ↦ absurd hsince (not_le.2 hpast)⟩
    · rw [if_neg hzero]
      refine .of_repeats ⟨rfl, rfl, rfl, ?_⟩ hr j hocc hc ?_ fun _ hsince ↦ hsince
      · rw [hr.2.2]
        rfl
      · exact ⟨rfl, rfl, fun _ ↦ hj (by omega), hahead, fun i hi hsince ↦ (hpast i hi hsince).elim,
          fun _ ↦ rfl, fun hne ↦ absurd rfl hne, fun _ _ ↦ ⟨rfl, rfl⟩, hunwarned, fun _ ↦ rfl⟩
  · have hnot : ∀ rule w, ¬ r.Repeats rule w := fun rule w hr ↦ hrepeats ⟨rule, w, hr⟩
    exact ⟨r, rolled_of_not_repeats hnot since, .of_not_repeats ⟨rfl, rfl, rfl, rfl⟩ hnot⟩

theorem Kept.afterBell {r₀ r : Reminder} (h : Kept r₀ r) (due : List Due) (now : ℤ) :
    Kept r₀ (afterBell due now r) := by
  rw [Reminders.afterBell]
  split
  · exact h
  · exact ⟨h.id, h.doneAt, h.repeats, h.dated⟩
  · exact ⟨h.id, h.doneAt, h.repeats, h.dated⟩

theorem headsUp_afterBell (due : List Due) (now : ℤ) (r : Reminder) :
    (afterBell due now r).headsUp = r.headsUp := by
  rw [afterBell]
  split <;> rfl

/-- A reminder that does not repeat has its moments. -/
theorem momentsOf_of_not_repeats {r : Reminder} (h : ∀ rule w, ¬ r.Repeats rule w) (now : ℤ) :
    ∃ moments, momentsOf z rules r now = some moments := by
  rw [momentsOf]
  split
  · rename_i w hdone hw
    cases hrule : r.repeats with
    | some rule => exact absurd ⟨hdone, hrule, hw⟩ (h rule w)
    | none =>
      rw [nextOccurrence, hrule]
      exact ⟨_, rfl⟩
  · exact ⟨_, rfl⟩

/-- What is due is due for the reminder itself. -/
theorem mem_dueOf {e : Event} {r : Reminder} {d : List Due} (h : dueOf z rules e r = some d) :
    ∀ x ∈ d, x.reminder = r := by
  rw [dueOf, Option.map_eq_some_iff] at h
  obtain ⟨moments, -, rfl⟩ := h
  intro x hx
  split at hx
  · split_ifs at hx
    · rw [List.mem_singleton.1 hx]
    · exact absurd hx List.not_mem_nil
  · exact absurd hx List.not_mem_nil

/-- After ringing: what is next for the occurrence it stands at is to come, and not late. -/
def Rang (z : Zone) (rules : Rules) (now : ℤ) (r : Reminder) (occ : ℕ → When) (k : ℕ) : Prop :=
  r.rung = none → ∃ moment, nextForOccurrence z rules r (occ k) now = some moment ∧
    now < moment.instant ∧ moment.instant ≤ dueAt z rules (occ k)

namespace Tracks

variable {since : ℤ} {log : List (Due × ℤ)} {now : ℤ} {r₀ r : Reminder}
  {intime : Reminder → (ℕ → When) → ℕ → Prop}

theorem momentsOf (h : Tracks z rules since log now intime r₀ r) :
    ∃ moments, momentsOf z rules r now = some moments := by
  by_cases hrepeats : ∃ rule w, r₀.Repeats rule w
  · obtain ⟨rule, w, hr₀⟩ := hrepeats
    obtain ⟨occ, k, -, hc, hf, -⟩ := h.2 rule w hr₀
    exact ⟨_, hc.momentsOf (hf.repeats h.1 hr₀) now⟩
  · exact momentsOf_of_not_repeats
      (h.1.not_repeats fun rule w hr ↦ hrepeats ⟨rule, w, hr⟩) now

theorem dueOf {e : Event} (h : Tracks z rules since log e.now intime r₀ r) :
    ∃ d, dueOf z rules e r = some d := by
  obtain ⟨moments, hmoments⟩ := h.momentsOf
  exact ⟨_, by rw [Reminders.dueOf, hmoments, Option.map_some]⟩

theorem bell (hz : z.Forward) {e : Event} (hheld : e.heldBack = false)
    (h : Tracks z rules since log e.now (Poised z rules since e.now) r₀ r) {due d : List Due}
    (hd : Reminders.dueOf z rules e r = some d)
    (hdue : due.filter (fun x ↦ x.reminder.id = r.id) = d) :
    Tracks z rules since (log ++ due.map fun x ↦ (x, e.now)) e.now (Rang z rules e.now) r₀
      (afterBell due e.now r) := by
  refine ⟨h.1.afterBell due e.now, fun rule w hr₀ ↦ ?_⟩
  obtain ⟨occ, k, hocc, hc, hf, hpoised⟩ := h.2 rule w hr₀
  obtain ⟨d', hd', hfalling⟩ :=
    hc.falling hz (hf.repeats h.1 hr₀) hheld hf.ahead hf.snoozed
  obtain rfl : d = d' := Option.some.inj (hd.symm.trans hd')
  obtain ⟨hf', hnext⟩ := hf.bell hz hc hpoised hdue hfalling
  exact ⟨occ, k, hocc, (headsUp_afterBell due e.now r).symm ▸ hc, hf', hnext⟩

/-- A timer that is set in time for the moments of a reminder. -/
theorem waits (h : Tracks z rules since log now (Rang z rules now) r₀ r) {timer : Option ℤ}
    {moments : List Moment} (hmoments : Reminders.momentsOf z rules r now = some moments)
    (htimer : ∀ moment ∈ moments, now < moment.instant → ∃ t ∈ timer, t ≤ moment.instant) :
    Tracks z rules since log now (Waits z rules now timer) r₀ r := by
  refine ⟨h.1, fun rule w hr₀ ↦ ?_⟩
  obtain ⟨occ, k, hocc, hc, hf, hrang⟩ := h.2 rule w hr₀
  refine ⟨occ, k, hocc, hc, hf, ?_, ?_⟩
  · intro hrung
    obtain ⟨moment, -, hahead, hle⟩ := hrang hrung
    exact hahead.trans_le hle
  · rw [hc.momentsOf (hf.repeats h.1 hr₀), Option.some.injEq] at hmoments
    obtain ⟨t, ht, hle⟩ := htimer ⟨startOf z rules (occ (k + 1)) r.headsUp, .roll⟩
      (by rw [← hmoments, List.mem_insertionSort]; exact List.mem_append_right _ List.mem_cons_self)
      hf.ahead
    refine ⟨t, ht, hle, fun hrung ↦ ?_⟩
    obtain ⟨moment, hown, hahead, hdue⟩ := hrang hrung
    obtain ⟨t', ht', hle'⟩ := htimer moment
      (by rw [← hmoments, List.mem_insertionSort, hown]; exact List.mem_append_left _ List.mem_cons_self)
      hahead
    rw [Option.mem_unique ht ht']
    exact hle'.trans hdue

end Tracks

/-- **A refresh** that rolls every reminder on in time rings what is due, and sets the timer in time
for each of them. -/
theorem refresh_tracks (hz : z.Forward) {since : ℤ} {initial : List Reminder}
    (hids : (initial.map (·.id)).Nodup) {s : Store} {e : Event} (hheld : e.heldBack = false)
    {moved : List Reminder} (hmoved : s.list.mapM (rolled z rules · e.now) = some moved)
    (h : List.Forall₂ (Tracks z rules since s.log e.now (Poised z rules since e.now)) initial moved) :
    ∃ s', s.refresh z rules e = some s' ∧ s'.now = e.now ∧ s'.hung = s.hung ∧
      List.Forall₂ (Tracks z rules since s'.log e.now (Waits z rules e.now s'.timer)) initial
        s'.list := by
  have hids' : (moved.map (·.id)).Nodup := by
    have heq : initial.map (·.id) = moved.map (·.id) := by
      rw [← List.forall₂_eq_eq_eq, List.forall₂_map_left_iff, List.forall₂_map_right_iff]
      exact h.imp fun r₀ r htracks ↦ htracks.1.id.symm
    rwa [← heq]
  -- what is due, reminder by reminder
  obtain ⟨d, hd⟩ : ∃ d : Reminder → List Due, ∀ r ∈ moved, dueOf z rules e r = some (d r) := by
    refine ⟨fun r ↦ (dueOf z rules e r).getD [], fun r hr ↦ ?_⟩
    obtain ⟨r₀, -, htracks⟩ := Paired.exists_of_forall₂ h.flip hr
    obtain ⟨d, hd⟩ := Tracks.dueOf htracks
    simp only [hd, Option.getD_some]
  have hdue : dueNow z rules e moved = some (moved.map d).flatten := by
    rw [dueNow, Paired.mapM_eq_map hd, Option.map_some]
  have hown (r : Reminder) (hr : r ∈ moved) :
      (moved.map d).flatten.filter (fun x ↦ x.reminder.id = r.id) = d r :=
    Paired.filter_flatten_of_nodup hids'
      (fun r hr x hx ↦ congrArg (·.id) (mem_dueOf (hd r hr) x hx)) hr
  generalize (moved.map d).flatten = due at hdue hown
  have hrang : List.Forall₂ (Tracks z rules since (s.log ++ due.map fun x ↦ (x, e.now)) e.now
      (Rang z rules e.now)) initial (moved.map (afterBell due e.now)) := by
    rw [List.forall₂_map_right_iff]
    exact (Paired.forall₂_mem h).imp fun r₀ r ⟨htracks, hr⟩ ↦
      htracks.bell hz hheld (hd r hr) (hown r hr)
  -- the timer
  obtain ⟨moments, hmoments⟩ : ∃ moments : Reminder → List Moment,
      ∀ r ∈ moved.map (afterBell due e.now), momentsOf z rules r e.now = some (moments r) := by
    refine ⟨fun r ↦ (momentsOf z rules r e.now).getD [], fun r hr ↦ ?_⟩
    obtain ⟨r₀, -, htracks⟩ := Paired.exists_of_forall₂ hrang.flip hr
    obtain ⟨moments, hmoments⟩ := Tracks.momentsOf htracks
    simp only [hmoments, Option.getD_some]
  obtain ⟨timer, htimer, hle⟩ := setTimer_le hmoments
  refine ⟨{ s with
    list := moved.map (afterBell due e.now), now := e.now, timer
    log := s.log ++ due.map fun x ↦ (x, e.now) }, ?_, rfl, rfl, ?_⟩
  · rw [Store.refresh, hmoved]
    simp only [Option.bind_eq_bind, Option.bind_some, hdue, htimer]
  · exact (Paired.forall₂_mem hrang).imp fun r₀ r ⟨htracks, hr⟩ ↦
      htracks.waits (hmoments r hr) (hle r hr)

/-- Every reminder of the list is where it should be. -/
def Sound (z : Zone) (rules : Rules) (since : ℤ) (initial : List Reminder) (s : Store) : Prop :=
  s.hung = false ∧ List.Forall₂ (Tracks z rules since s.log s.now (Waits z rules s.now s.timer))
    initial s.list

theorem Tracks.ringsOnce (hz : z.Forward) {since : ℤ} {s : Store} {r₀ r : Reminder}
    (hr : r ∈ s.list) (h : Tracks z rules since s.log s.now (Waits z rules s.now s.timer) r₀ r)
    {rule : Repeat} {w : When} (hr₀ : r₀.Repeats rule w) : RingsOnce z rules since s r₀ rule w := by
  obtain ⟨occ, k, hocc, hc, hf, hearly, -⟩ := h.2 rule w hr₀
  have hpast (i : ℕ) (hi : i < k) : dueAt z rules (occ i) ≤ s.now :=
    (hc.dueAt_lt_startOf hz hi).le.trans (hf.started (Nat.ne_zero_of_lt hi))
  have hahead (i : ℕ) (hi : k < i) : s.now < dueAt z rules (occ i) := by
    have hbegin := startOf_le_dueAt hz rules (occ (k + 1)) r.headsUp
    rcases (Nat.succ_le_of_lt hi).eq_or_lt with rfl | hlt
    · exact hf.ahead.trans_le hbegin
    · exact hf.ahead.trans_le (hbegin.trans (hc.dueAt_lt hz hlt).le)
  constructor
  · intro i o ho hsince
    obtain rfl : occ i = o := Option.some.inj ((hocc i).symm.trans ho)
    rw [← h.1.id]
    rcases lt_trichotomy i k with hlt | rfl | hgt
    · rw [if_pos (hpast i hlt), hf.before i hlt hsince]
    · cases hrung : r.rung with
      | none => rw [if_neg (not_le.2 (hearly hrung)), hf.unrung hrung]
      | some rung =>
        obtain ⟨hle, hrang⟩ := hf.rung (hrung ▸ Option.some_ne_none _)
        rw [if_pos hle, hrang hsince]
    · rw [if_neg (not_le.2 (hahead i hgt)), (hf.after i hgt).1]
  · intro i o ho
    obtain rfl : occ i = o := Option.some.inj ((hocc i).symm.trans ho)
    rw [← h.1.id]
    exact hf.warn i
  · refine ⟨k, r, hr, h.1.id, hf.stands.trans (hocc k).symm, fun i hi o ho ↦ ?_⟩
    obtain rfl : occ i = o := Option.some.inj ((hocc i).symm.trans ho)
    exact hpast i hi

theorem Sound.eachRings (hz : z.Forward) {since : ℤ} {initial : List Reminder} {s : Store}
    (h : Sound z rules since initial s) : EachRings z rules since initial s := by
  refine ⟨h.1, fun r₀ hr₀ rule w hrepeats ↦ ?_⟩
  obtain ⟨r, hr, htracks⟩ := Paired.exists_of_forall₂ h.2 hr₀
  exact htracks.ringsOnce hz hr hrepeats

theorem Sound.step (hz : z.Forward) {since : ℤ} {initial : List Reminder}
    (hids : (initial.map (·.id)).Nodup) {s : Store} {e : Event}
    (h : Sound z rules since initial s) (htimely : Timely e s) :
    Sound z rules since initial (step z rules e s) := by
  obtain ⟨hheld, hle, htimer⟩ := htimely
  obtain ⟨moved, hmoved, htracks⟩ := Paired.mapM_forall₂
    (fun r₀ r hr ↦ Tracks.rolled hz hr hle htimer) h.2
  obtain ⟨s', hs', hnow, hhung, htracks'⟩ := refresh_tracks hz hids hheld hmoved htracks
  rw [Reminders.step, h.1, hs']
  exact ⟨hhung.trans h.1, hnow.symm ▸ htracks'⟩

theorem sound_started (hz : z.Forward) {initial : List Reminder}
    (hids : (initial.map (·.id)).Nodup) {e : Event} (hheld : e.heldBack = false)
    (hapart : ∀ r ∈ initial, Apart z rules r) (hsettled : ∀ r ∈ initial, Settled z rules e.now r) :
    Sound z rules e.now initial (started z rules initial e) := by
  have hsame : List.Forall₂ (fun r₀ r ↦ r₀ = r ∧ r ∈ initial) initial initial :=
    Paired.forall₂_mem (List.forall₂_same.2 fun _ _ ↦ rfl)
  obtain ⟨moved, hmoved, htracks⟩ := Paired.mapM_forall₂
    (f := (Reminders.rolled z rules · e.now))
    (S := Tracks z rules e.now [] e.now (Poised z rules e.now e.now))
    (fun r₀ r hr ↦ by
      obtain ⟨rfl, hr⟩ := hr
      exact tracks_start hz (hapart r₀ hr) (hsettled r₀ hr)) hsame
  obtain ⟨s', hs', hnow, hhung, htracks'⟩ := refresh_tracks hz hids hheld
    (s := { list := initial, now := e.now }) hmoved htracks
  rw [started, Reminders.step, if_neg Bool.false_ne_true, hs']
  exact ⟨hhung, hnow.symm ▸ htracks'⟩

/-- **Every occurrence rings** once, when it is due, in every run of a program that is on, not held
back and in which nobody does anything, if of every reminder the next occurrence only starts to
matter once this one is due. -/
theorem eachRings_run (hz : z.Forward) {initial : List Reminder}
    (hids : (initial.map (·.id)).Nodup) {e : Event} (hheld : e.heldBack = false)
    (hsettled : ∀ r ∈ initial, Settled z rules e.now r)
    (hapart : ∀ r ∈ initial, Apart z rules r) {es : List Event}
    (hes : Runs.Along (step z rules) Timely es (started z rules initial e)) :
    Runs.Throughout (step z rules) (EachRings z rules e.now initial) es
      (started z rules initial e) :=
  (hes.throughout (fun _ _ hs htimely ↦ hs.step hz hids htimely)
    (sound_started hz hids hheld hapart hsettled)).mono fun _ hs ↦ hs.eachRings hz

/-! ## Two runs -/

/-- A place where the clocks never change. -/
def utc : Zone where
  instantOf day time := day * 86400000 + time.hours * 3600000 + time.minutes * 60000
  dayOf now := now / 86400000

theorem forward_utc : utc.Forward := by
  intro time day day' hle
  change day * 86400000 + _ + _ ≤ day' * 86400000 + _ + _
  omega

def settings : Rules := ⟨⟨9, 0⟩, some 10, some 3⟩

/-- Every day at eight, with that many days of heads-up. -/
def daily (headsUp : ℕ) : Reminder where
  id := ['a']
  title := ['A']
  when := some ⟨20762, some ⟨8, 0⟩⟩
  repeats := some { unit := .day, every := 1 }
  headsUp := headsUp

theorem apart_daily : Apart utc settings (daily 0) := by
  rintro rule w ⟨-, hrule, -⟩ k o -
  obtain rfl := Option.some.inj hrule
  refine ⟨o.day + 1, rfl, ?_⟩
  obtain ⟨day, time⟩ := o
  change day * 86400000 + ((time.getD settings.morning).hours : ℤ) * 3600000 +
      ((time.getD settings.morning).minutes : ℤ) * 60000 <
    (day + 1) * 86400000 + ((time.getD settings.morning).hours : ℤ) * 3600000 +
      ((time.getD settings.morning).minutes : ℤ) * 60000
  omega

/-- The program starts at seven, and the timer fires at eight and at ten past. -/
def morning : Event := ⟨20762 * 86400000 + 25200000, false, true⟩
def eight : List Event :=
  [⟨20762 * 86400000 + 28800000, false, true⟩, ⟨20762 * 86400000 + 29400000, false, true⟩]

theorem settled_daily (headsUp : ℕ) (since : ℤ) :
    ∀ r ∈ [daily headsUp], Settled utc settings since r := by
  intro r hr rule w _
  rw [List.mem_singleton.1 hr]
  exact ⟨rfl, fun hne ↦ absurd rfl hne⟩

/-- A reminder for every day, without a heads-up, rings at eight and is back at ten past. -/
theorem eachRings_run_daily : Runs.Throughout (step utc settings)
    (EachRings utc settings morning.now [daily 0]) eight (started utc settings [daily 0] morning) :=
  eachRings_run forward_utc (by decide) rfl (settled_daily 0 morning.now)
    (fun r hr ↦ (List.mem_singleton.1 hr) ▸ apart_daily) (by decide)

/-- With a day of heads-up the next occurrence starts to matter at the moment this one is due, which
then never rings. -/
theorem not_eachRings_headsUp : ¬ ∀ (z : Zone) (rules : Rules) (initial : List Reminder) (e : Event)
    (es : List Event), z.Forward → (initial.map (·.id)).Nodup → e.heldBack = false →
    (∀ r ∈ initial, Settled z rules e.now r) →
    Runs.Along (step z rules) Timely es (started z rules initial e) →
    Runs.Throughout (step z rules) (EachRings z rules e.now initial) es
      (started z rules initial e) := by
  intro h
  have hrun := (h utc settings [daily 1] morning (eight.take 1) forward_utc (by decide) rfl
    (settled_daily 1 morning.now) (by decide)).finish
  have hring := (hrun.2 (daily 1) List.mem_cons_self _ _ ⟨rfl, rfl, rfl⟩).ring 0 _ rfl (by decide)
  revert hring
  decide

end Reminders
