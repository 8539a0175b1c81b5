import Luft.Reminders.Lines
import Luft.Reminders.Moments

/-!
# Writing a calendar file

Open reminders as an iCalendar file: dated ones as events, goals and to-dos as tasks, in local time.
-/

set_option autoImplicit false

namespace Reminders

def WEEKDAY_CODES : List (List Char) := ["SU", "MO", "TU", "WE", "TH", "FR", "SA"].map String.toList

/-- The code of a weekday, or what is written where there is none. -/
def codeOf (missing : List Char) (weekday : ℤ) : List Char :=
  if 0 ≤ weekday then WEEKDAY_CODES.getD weekday.toNat missing else missing

def FREQUENCIES : RepeatUnit → List Char
  | .day => "DAILY".toList
  | .week => "WEEKLY".toList
  | .month => "MONTHLY".toList
  | .year => "YEARLY".toList

def isoYear (year : ℤ) : List Char :=
  if 0 ≤ year ∧ year ≤ 9999 then
    List.replicate (4 - (number year).length) '0' ++ number year
  else
    (if year < 0 then '-' else '+') ::
      (List.replicate (6 - (decimal year.natAbs).length) '0' ++ decimal year.natAbs)

/-- A moment in UTC, without dashes and colons. -/
def stamp (instant : ℤ) : List Char :=
  let parts := partsOf (instant / 86400000)
  let seconds := instant % 86400000 / 1000
  let iso := isoYear parts.year ++ pad parts.month ++ pad parts.day ++ 'T' ::
    (pad (seconds / 3600) ++ pad (seconds / 60 % 60) ++ pad (seconds % 60))
  (iso.filter (· ≠ '-')).take 15 ++ ['Z']

def compactDay (day : ℤ) : List Char := (dayText day).filter (· ≠ '-')

def dated (name : List Char) (w : When) : List Char :=
  match w.time with
  | some time =>
    name ++ ':' :: (compactDay w.day ++ 'T' :: (pad time.hours ++ pad time.minutes ++ ['0', '0']))
  | none => name ++ ";VALUE=DATE:".toList ++ compactDay w.day

/-- The parts of a rule. -/
def ruleParts (rule : Repeat) : List (List Char) :=
  ["FREQ=".toList ++ FREQUENCIES rule.unit] ++
    (if rule.every > 1 then ["INTERVAL=".toList ++ number rule.every] else []) ++
    (match rule.weekdays with
    | some (weekday :: weekdays) =>
      ["BYDAY=".toList ++ join [','] ((weekday :: weekdays).map (codeOf []))]
    | _ => []) ++
    (match rule.nth with
    | some nth =>
      ["BYDAY=".toList ++ number nth.week ++ codeOf "undefined".toList nth.weekday]
    | none => []) ++
    (match rule.unit, rule.date with
    | .month, some date => if date = 0 then [] else ["BYMONTHDAY=".toList ++ number date]
    | _, _ => [])

def rule (repeats : Repeat) : List Char := "RRULE:".toList ++ join [';'] (ruleParts repeats)

def kindName : Kind → List Char
  | .reminder => "reminder".toList
  | .birthday => "birthday".toList
  | .goal => "goal".toList

/-- Dated reminders are events, but goals are tasks. -/
def isEvent (r : Reminder) : Bool := r.when.isSome && r.kind ≠ .goal

def componentName (r : Reminder) : List Char :=
  if isEvent r then "VEVENT".toList else "VTODO".toList

def dateLines (r : Reminder) : List (List Char) :=
  match r.when with
  | some w => [dated (if isEvent r then "DTSTART".toList else "DUE".toList) w]
  | none => []

def ruleLines (r : Reminder) : List (List Char) :=
  match r.repeats with
  | some repeats => [rule repeats]
  | none => []

def alarmLines (r : Reminder) : List (List Char) :=
  if r.headsUp = 0 then []
  else
    ["BEGIN:VALARM".toList, "ACTION:DISPLAY".toList,
      "TRIGGER:-P".toList ++ decimal r.headsUp ++ ['D'],
      "DESCRIPTION:".toList ++ escaped r.title, "END:VALARM".toList]

def component (now : ℤ) (r : Reminder) : List (List Char) :=
  ["BEGIN:".toList ++ componentName r, "UID:".toList ++ r.id, "DTSTAMP:".toList ++ stamp now,
    "LAST-MODIFIED:".toList ++ stamp r.updatedAt, "SUMMARY:".toList ++ escaped r.title,
    "X-LUFT-KIND:".toList ++ kindName r.kind] ++
    dateLines r ++ ruleLines r ++ alarmLines r ++ ["END:".toList ++ componentName r]

def calendarLines (reminders : List Reminder) (now : ℤ) : List (List Char) :=
  ["BEGIN:VCALENDAR", "VERSION:2.0", "PRODID:-//Lantharos//Luft Reminders//EN",
    "CALSCALE:GREGORIAN"].map String.toList ++
    (reminders.filter (·.doneAt.isNone)).flatMap (component now) ++ ["END:VCALENDAR".toList]

/-- An iCalendar file of open reminders. -/
def writeCalendar (reminders : List Reminder) (now : ℤ) : List Char :=
  join crlf ((calendarLines reminders now).map folded) ++ crlf

end Reminders
