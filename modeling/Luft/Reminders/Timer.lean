import Luft.Reminders.Moments
import Luft.Lib.Runs
import Mathlib.Data.List.Forall2

/-!
# The timer and what it rings

`Store` is every reminder and the one timer that serves them all, and `Store.refresh` brings
everything up to now.  `step` is a refresh at any moment, which is where the clock, the session and
the timer come in.  What reached people is kept in `log`, for the statements only.

`EachRings` is what is expected of a run: every occurrence that is not past when the run starts
rings once, at the moment it is due, and is warned about at most once before that, and a reminder
never leaves an occurrence that is still to come.
-/

set_option autoImplicit false

namespace Reminders

/-- Something that came due and should reach people now. -/
structure Due where
  reminder : Reminder
  kind : MomentKind
  deriving DecidableEq

/-- Every reminder and the one timer.  `now` is when it was last brought up to date; `hung` is set
when that never ended. -/
structure Store where
  list : List Reminder
  now : ℤ
  timer : Option ℤ := none
  log : List (Due × ℤ) := []
  hung : Bool := false
  deriving DecidableEq

/-- A call of `refresh`: when, and what held it back. -/
structure Event where
  now : ℤ
  heldBack : Bool := false
  active : Bool := true

def LONGEST_TIMER_MS : ℤ := 2147483647

def Event.held (e : Event) (kind : MomentKind) : Bool :=
  e.heldBack || (!e.active && (kind = .nag || kind = .nudge))

/-- The kind of what was rung for a reminder. -/
def kindOf (due : List Due) (id : List Char) : Option MomentKind :=
  ((due.filter (·.reminder.id = id)).getLast?).map (·.kind)

/-- A reminder after what was due reached people. -/
def afterBell (due : List Due) (now : ℤ) (r : Reminder) : Reminder :=
  match kindOf due r.id with
  | none => r
  | some .warn => { r with warned := true }
  | some _ => rang r now

/-- The soonest of `next` and the moments that are still ahead. -/
def soonest (now : ℤ) (next : Option ℤ) (moments : List Moment) : Option ℤ :=
  moments.foldl
    (fun next moment ↦
      if now < moment.instant ∧ ∀ n ∈ next, moment.instant < n then some moment.instant else next)
    next

/-- When something of that kind reached people for an occurrence of a reminder. -/
def reached (log : List (Due × ℤ)) (kind : MomentKind) (id : List Char) (o : When) : List ℤ :=
  (log.filter fun d ↦ d.1.reminder.id = id ∧ d.1.kind = kind ∧ d.1.reminder.when = some o).map
    Prod.snd

section

variable (z : Zone) (rules : Rules)

def dueOf (e : Event) (r : Reminder) : Option (List Due) :=
  (momentsOf z rules r e.now).map fun moments ↦
    match moments.head? with
    | some moment =>
      if moment.instant ≤ e.now ∧ moment.kind ≠ .roll ∧ e.held moment.kind = false then
        [⟨r, moment.kind⟩]
      else []
    | none => []

def dueNow (e : Event) (list : List Reminder) : Option (List Due) :=
  (list.mapM (dueOf z rules e)).map List.flatten

def setTimer (now : ℤ) (list : List Reminder) : Option (Option ℤ) :=
  (list.mapM (momentsOf z rules · now)).map fun moments ↦
    let midnight :=
      if list.any fun r ↦ r.when.isSome && r.doneAt.isNone then some (z.nextMidnight now) else none
    (soonest now midnight moments.flatten).map fun next ↦ now + min (next - now) LONGEST_TIMER_MS

/-- Brings everything up to now: moves repeats on, rings what's due and sets the timer for what's
next. -/
def Store.refresh (s : Store) (e : Event) : Option Store := do
  let moved ← s.list.mapM (rolled z rules · e.now)
  let due ← dueNow z rules e moved
  let list := moved.map (afterBell due e.now)
  let timer ← setTimer z rules e.now list
  some { s with list, now := e.now, timer, log := s.log ++ due.map fun d ↦ (d, e.now) }

def step (e : Event) (s : Store) : Store :=
  if s.hung then s else (s.refresh z rules e).getD { s with hung := true }

/-! ## What is expected -/

/-- The occurrences of a repeat, from the one a reminder stands at on. -/
def occurrence (rule : Repeat) (w : When) : ℕ → Option When
  | 0 => some w
  | k + 1 => (occurrence rule w k).bind fun o ↦ (following rule o.day).map fun day ↦ ⟨day, o.time⟩

/-- An open reminder that repeats, with its repeat and where it stands. -/
def Reminder.Repeats (r : Reminder) (rule : Repeat) (w : When) : Prop :=
  r.doneAt = none ∧ r.repeats = some rule ∧ r.when = some w

/-- What is expected of a repeating reminder in a run that began at `since`. -/
structure RingsOnce (since : ℤ) (s : Store) (r : Reminder) (rule : Repeat) (w : When) :
    Prop where
  ring : ∀ k o, occurrence rule w k = some o → since ≤ dueAt z rules o →
    reached s.log .ring r.id o = if dueAt z rules o ≤ s.now then [dueAt z rules o] else []
  warn : ∀ k o, occurrence rule w k = some o →
    (reached s.log .warn r.id o).length ≤ 1 ∧
      ∀ t ∈ reached s.log .warn r.id o, t < dueAt z rules o
  kept : ∃ k, ∃ r' ∈ s.list, r'.id = r.id ∧ r'.when = occurrence rule w k ∧
    ∀ i < k, ∀ o, occurrence rule w i = some o → dueAt z rules o ≤ s.now

/-- Every repeating reminder of a list rings for each of its occurrences. -/
def EachRings (since : ℤ) (initial : List Reminder) (s : Store) : Prop :=
  s.hung = false ∧ ∀ r ∈ initial, ∀ rule w, r.Repeats rule w → RingsOnce z rules since s r rule w

/-- The next occurrence only starts to matter after this one is due. -/
def Apart (r : Reminder) : Prop := ∀ rule w, r.Repeats rule w → ∀ k o,
  occurrence rule w k = some o → ∃ next, following rule o.day = some next ∧
    dueAt z rules o < startOf z rules ⟨next, o.time⟩ r.headsUp

/-- Nobody put the reminder off, and if it already rang, it was due. -/
def Settled (since : ℤ) (r : Reminder) : Prop := ∀ rule w, r.Repeats rule w →
  r.snoozedUntil = none ∧ (r.rung ≠ none → dueAt z rules w < since)

/-- The reminders once they are brought up to date for the first time. -/
def started (initial : List Reminder) (e : Event) : Store :=
  step z rules e { list := initial, now := e.now }

end

/-- The refresh is not held back, and comes when the timer fires at the latest. -/
def Timely (e : Event) (s : Store) : Prop :=
  e.heldBack = false ∧ s.now ≤ e.now ∧ ∀ t ∈ s.timer, e.now ≤ t

instance (e : Event) (s : Store) : Decidable (Timely e s) :=
  inferInstanceAs (Decidable (_ ∧ _ ∧ ∀ t ∈ s.timer, e.now ≤ t))

end Reminders
