import Luft.Reminders.Repeats

/-!
# What happens to a reminder next

A reminder has an occurrence it stands at (`when`), and moments to come: a heads-up, the ring when
it is due, being back after that, and rolling on once the next occurrence starts to matter.

Where the search for the next occurrence does not end, `nextOccurrence` and what uses it are `none`.
`rolled` counts its steps: a repeating reminder whose occurrences start a millisecond apart at least
is done after as many steps as there are milliseconds to go, and one that still goes on is taken
not to end.

Local time is a `Zone`, of which it is only used that the same time of day comes no earlier on a
later day (`Zone.Forward`).
-/

set_option autoImplicit false

namespace Reminders

inductive Kind
  | reminder
  | birthday
  | goal
  deriving DecidableEq, Repr

instance hundred_neZero : NeZero (100 : ℕ) := ⟨by decide⟩

/-- `HH:MM`. -/
structure Clock where
  hours : Fin 100
  minutes : Fin 100
  deriving DecidableEq, Repr

/-- Local time, kept as it reads on the wall. -/
structure When where
  day : ℤ
  /-- `none` for the whole day, which rings at the time set in Settings. -/
  time : Option Clock
  deriving DecidableEq, Repr

structure Rung where
  /-- How many times it has rung for this occurrence. -/
  count : ℕ
  last : ℤ
  deriving DecidableEq, Repr

structure Reminder where
  id : List Char
  title : List Char
  kind : Kind := .reminder
  when : Option When
  repeats : Option Repeat := none
  /-- Days ahead of it to give a heads-up, 0 for none. -/
  headsUp : ℕ := 0
  /-- Whether it keeps coming back until it's answered. -/
  persistent : Bool := true
  /-- A goal's nudges: days between them, `none` for what Settings says, 0 for none. -/
  nudgeDays : Option ℕ := none
  /-- Set when it rang and nobody pressed Done yet. -/
  rung : Option Rung := none
  snoozedUntil : Option ℤ := none
  /-- Whether the heads-up went out for this occurrence. -/
  warned : Bool := false
  doneAt : Option ℤ := none
  updatedAt : ℤ := 0
  deriving DecidableEq, Repr

/-- How local time runs. -/
structure Zone where
  /-- When a local time on a day happens. -/
  instantOf : ℤ → Clock → ℤ
  dayOf : ℤ → ℤ

/-- A time of day comes no earlier on a later day. -/
def Zone.Forward (z : Zone) : Prop := ∀ time, Monotone fun day ↦ z.instantOf day time

def Zone.nextMidnight (z : Zone) (now : ℤ) : ℤ := z.instantOf (addDays (z.dayOf now) 1) ⟨0, 0⟩

def MINUTE_MS : ℤ := 60000

structure Rules where
  /-- When something with no time of day rings. -/
  morning : Clock
  /-- Minutes between coming back, or `none` to ring once. -/
  nagMinutes : Option ℕ
  /-- Days between a goal's nudges, or `none` for no nudges. -/
  nudgeDays : Option ℕ

inductive MomentKind
  | ring
  | nag
  | warn
  | nudge
  | roll
  deriving DecidableEq, Repr

structure Moment where
  instant : ℤ
  kind : MomentKind
  deriving DecidableEq, Repr

section

variable (z : Zone) (rules : Rules)

def dueAt (w : When) : ℤ := z.instantOf w.day (w.time.getD rules.morning)

def warnAt (w : When) (headsUp : ℕ) : ℤ :=
  z.instantOf (addDays w.day (-headsUp)) (w.time.getD rules.morning)

/-- When an occurrence starts to matter: its heads-up, or else the moment it's due. -/
def startOf (w : When) (headsUp : ℕ) : ℤ :=
  if headsUp ≠ 0 then warnAt z rules w headsUp else dueAt z rules w

/-- The occurrence after this one, if it repeats. -/
def nextOccurrence (r : Reminder) : Option (Option When) :=
  match r.repeats, r.when with
  | some rule, some w => (following rule w.day).map fun day ↦ some ⟨day, w.time⟩
  | _, _ => some none

def afterRinging (r : Reminder) (last : ℤ) : Option Moment :=
  match r.kind with
  | .goal =>
    match r.nudgeDays.or rules.nudgeDays with
    | some (days + 1) =>
      some ⟨z.instantOf (addDays (z.dayOf last) (days + 1)) rules.morning, .nudge⟩
    | _ => none
  | _ =>
    match r.persistent, rules.nagMinutes with
    | true, some (minutes + 1) => some ⟨last + (minutes + 1) * MINUTE_MS, .nag⟩
    | _, _ => none

def nextForOccurrence (r : Reminder) (w : When) (now : ℤ) : Option Moment :=
  match r.snoozedUntil, r.rung with
  | some until', _ => some ⟨until', .ring⟩
  | none, some rung => afterRinging z rules r rung.last
  | none, none =>
    if r.headsUp ≠ 0 ∧ r.warned = false ∧ now < dueAt z rules w then
      some ⟨warnAt z rules w r.headsUp, .warn⟩
    else some ⟨dueAt z rules w, .ring⟩

/-- Everything still to come for a reminder, soonest first. -/
def momentsOf (r : Reminder) (now : ℤ) : Option (List Moment) :=
  match r.doneAt, r.when with
  | none, some w =>
    (nextOccurrence r).map fun upcoming ↦
      ((nextForOccurrence z rules r w now).toList ++
        (upcoming.map fun next ↦ ⟨startOf z rules next r.headsUp, .roll⟩).toList).insertionSort
          fun a b ↦ a.instant ≤ b.instant
  | _, _ => some []

/-- The reminder at an occurrence that nothing happened to yet. -/
def Reminder.movedTo (r : Reminder) (w : When) : Reminder :=
  { r with when := some w, rung := none, snoozedUntil := none, warned := false }

/-- `rolled`, for that many steps. -/
def rolledWithin : ℕ → Reminder → ℤ → Option Reminder
  | 0, _, _ => none
  | steps + 1, r, now =>
    match nextOccurrence r with
    | none => none
    | some none => some r
    | some (some upcoming) =>
      if startOf z rules upcoming r.headsUp ≤ now then
        rolledWithin steps (r.movedTo upcoming) now
      else some r

/-- Moves a repeating reminder to the latest occurrence that has started, dropping the ones between:
however long the computer was off, a daily reminder comes back once. -/
def rolled (r : Reminder) (now : ℤ) : Option Reminder :=
  match r.doneAt, r.when with
  | none, some w =>
    rolledWithin z rules ((now - startOf z rules w r.headsUp).toNat + 1) r now
  | _, _ => some r

/-- The reminder right after it rang. -/
def rang (r : Reminder) (now : ℤ) : Reminder :=
  { r with
    rung := some ⟨(r.rung.map (·.count)).getD 0 + 1, now⟩
    snoozedUntil := none
    warned := true }

end

end Reminders
