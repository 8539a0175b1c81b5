import Luft.Reminders.Writing

/-!
# Reading a calendar file

A file is read line by line.  Each event and task is turned into a reminder when it ends, or skipped,
and one that repeats is moved up to its next occurrence from today on.

Reading fails where the source throws, and where a search or the moving up does not end; that it
does not is found after as many steps as there are days the program can tell.  It is also taken to
fail, as `strange`, where a repeat gets an interval or a date that is not a whole number, or a unit
that is a method of every object: what the program does with those is not modelled.
-/

set_option autoImplicit false

namespace Reminders

inductive Failure
  | endless
  | thrown
  | strange
  deriving DecidableEq, Repr

/-- One reminder found in a calendar file. -/
structure Found where
  uid : Option (List Char)
  title : List Char
  kind : Kind
  when : Option When
  repeats : Option Repeat
  headsUp : ℕ
  deriving DecidableEq, Repr

structure Reading where
  found : List Found
  /-- Past events, finished tasks and what a file doesn't describe well enough. -/
  skipped : ℕ
  deriving DecidableEq, Repr

/-- Local time, and that of other places: how far a named zone is ahead of UTC at a moment, if the
name is that of a zone. -/
structure Places extends Zone where
  clockOf : ℤ → Clock
  zoneOffset : ℤ → List Char → Option ℤ

def Places.inZone (p : Places) (wall : ℤ) (zone : List Char) : Option ℤ := do
  let guess ← p.zoneOffset wall zone
  let offset ← p.zoneOffset (wall - guess) zone
  some (wall - offset)

def Places.localWhen (p : Places) (instant : ℤ) : When :=
  ⟨p.dayOf instant, some (p.clockOf instant)⟩

/-! ## Dates -/

/-- The number that the first `n` characters are the digits of, and the rest. -/
def takeDigits (n : ℕ) (text : List Char) : Option (ℕ × List Char) :=
  if (text.take n).length = n ∧ (text.take n).all Char.isDigit then
    some (Nat.ofDigitChars 10 (text.take n) 0, text.drop n)
  else none

/-- The date and the time of day of a stamp. -/
structure Stamp where
  day : ℤ
  time : Option (ℕ × ℕ × ℕ)
  utc : Bool

def stampOf (text : List Char) : Option Stamp := do
  let (year, rest) ← takeDigits 4 text
  let (month, rest) ← takeDigits 2 rest
  let (date, rest) ← takeDigits 2 rest
  let day := makeDay year month date
  match rest with
  | [] => some ⟨day, none, false⟩
  | 'T' :: rest =>
    let (hours, rest) ← takeDigits 2 rest
    let (minutes, rest) ← takeDigits 2 rest
    let (seconds, rest) ← takeDigits 2 rest
    match rest with
    | [] => some ⟨day, some (hours, minutes, seconds), false⟩
    | ['Z'] => some ⟨day, some (hours, minutes, seconds), true⟩
    | _ => none
  | _ => none

/-- What a map that is filled in this order holds for a key. -/
def lookup {α : Type} (pairs : List (List Char × α)) (key : List Char) : Option α :=
  (pairs.reverse.find? (·.1 = key)).map Prod.snd

/-- Local time for a date in a file: as written when it's floating, converted when it names UTC or
another zone. -/
def whenOf (p : Places) (prop : Property) : Option When :=
  (stampOf prop.value).map fun stamp ↦
    match stamp.time with
    | none => ⟨stamp.day, none⟩
    | some (hours, minutes, seconds) =>
      let wall : ℤ := stamp.day * 86400000 + hours * 3600000 + minutes * 60000 + seconds * 1000
      let instant :=
        if stamp.utc then some wall
        else
          match (lookup prop.params "TZID".toList).join with
          | some (c :: zone) => p.inZone wall (c :: zone)
          | _ => none
      match instant with
      | some instant => p.localWhen instant
      | none => ⟨stamp.day, some ⟨Fin.ofNat 100 hours, Fin.ofNat 100 minutes⟩⟩

/-! ## Rules -/

/-- What `Number` reads in a text that is empty or the digits of a whole number. -/
def wholeNumber (text : List Char) : Except Failure ℤ :=
  match trim text with
  | [] => .ok 0
  | '-' :: c :: digits =>
    if (c :: digits).all Char.isDigit then .ok (-(Nat.ofDigitChars 10 (c :: digits) 0))
    else .error .strange
  | '+' :: c :: digits =>
    if (c :: digits).all Char.isDigit then .ok (Nat.ofDigitChars 10 (c :: digits) 0)
    else .error .strange
  | digits =>
    if digits.all Char.isDigit then .ok (Nat.ofDigitChars 10 digits 0) else .error .strange

/-- The names that every object has something under. -/
def METHODS : List (List Char) :=
  ["constructor", "__defineGetter__", "__defineSetter__", "hasOwnProperty", "__lookupGetter__",
    "__lookupSetter__", "isPrototypeOf", "propertyIsEnumerable", "toString", "valueOf", "__proto__",
    "toLocaleString"].map String.toList

local instance lawfulBEq_method : LawfulBEq (List Char) := inferInstance

def unitOf (text : List Char) : Except Failure (Option RepeatUnit) :=
  if text = "DAILY".toList then .ok (some .day)
  else if text = "WEEKLY".toList then .ok (some .week)
  else if text = "MONTHLY".toList then .ok (some .month)
  else if text = "YEARLY".toList then .ok (some .year)
  else if text ∈ METHODS then .error .strange
  else .ok none

/-- The weekday with a code, or -1. -/
def weekdayIndex (code : List Char) : ℤ :=
  match WEEKDAY_CODES.idxOf? code with
  | some weekday => weekday
  | none => -1

def nthOf (code : List Char) : Option Nth :=
  match code with
  | ['-', d, a, b] =>
    if d.isDigit ∧ a.isUpper ∧ b.isUpper then
      some ⟨-(Nat.ofDigitChars 10 [d] 0), weekdayIndex [a, b]⟩
    else none
  | [d, a, b] =>
    if d.isDigit ∧ a.isUpper ∧ b.isUpper then
      some ⟨Nat.ofDigitChars 10 [d] 0, weekdayIndex [a, b]⟩
    else none
  | _ => none

def rulePart (text : List Char) : List Char × Option (List Char) :=
  match text.splitOn '=' with
  | key :: value :: _ => (key, some value)
  | key :: [] => (key, none)
  | [] => ([], none)

/-- A value that is there and not empty. -/
def given (value : Option (List Char)) : Option (List Char) :=
  match value with
  | some (c :: rest) => some (c :: rest)
  | _ => none

/-- The repeat a rule describes, without the days it falls on. -/
def daysOf (unit : RepeatUnit) (byDay : List (List Char)) : Option (List ℤ) × Option Nth :=
  match byDay with
  | [code] =>
    match nthOf code with
    | some nth => (none, some nth)
    | none => (if unit = .week then some [weekdayIndex code] else none, none)
  | [] => (none, none)
  | codes => (if unit = .week then some (codes.map weekdayIndex) else none, none)

/-- The repeat of a rule with those parts, and whether it is over; `present` is the day it is read
on. -/
def repeatFrom (p : Places) (present : ℤ) (part : List Char → Option (List Char)) :
    Except Failure (Option Repeat × Bool) := do
  match ← unitOf ((part "FREQ".toList).getD []) with
  | none => .ok (none, false)
  | some unit =>
    let every ← wholeNumber ((part "INTERVAL".toList).getD ['1'])
    let days := daysOf unit (((part "BYDAY".toList).map (·.splitOn ',')).getD [])
    let date ← (given (part "BYMONTHDAY".toList)).mapM wholeNumber
    let repeats : Repeat := { unit, every, weekdays := days.1, nth := days.2, date }
    match given (part "UNTIL".toList) with
    | none => .ok (some repeats, false)
    | some until' =>
      match whenOf p ⟨"UNTIL".toList, [], until'⟩ with
      | none => .error .thrown
      | some w => .ok (some repeats, precedes w.day present)

def repeatOf (p : Places) (present : ℤ) (value : List Char) :
    Except Failure (Option Repeat × Bool) :=
  repeatFrom p present fun key ↦ (lookup ((value.splitOn ';').map rulePart) key).join

/-- More steps than there are days the program can tell. -/
def STEPS : ℕ := 200000001

def caughtUpWithin (rule : Repeat) (today : ℤ) : ℕ → ℤ → Except Failure ℤ
  | 0, _ => .error .endless
  | steps + 1, day =>
    if precedes day today then
      match following rule day with
      | some next => caughtUpWithin rule today steps next
      | none => .error .endless
    else .ok day

/-- Moves a repeat that started long ago up to its next occurrence from today on, without ringing
for the ones before. -/
def caughtUp (rule : Repeat) (w : When) (today : ℤ) : Except Failure When :=
  match firstFrom rule w.day with
  | none => .error .endless
  | some first => (caughtUpWithin rule today STEPS first).map fun day ↦ ⟨day, w.time⟩

/-! ## Components -/

def daysAhead (trigger : List Char) : ℕ :=
  match trigger with
  | '-' :: 'P' :: rest =>
    let digits := rest.takeWhile Char.isDigit
    match digits, rest.dropWhile Char.isDigit with
    | _ :: _, 'D' :: _ => Nat.ofDigitChars 10 digits 0 * if 'W' ∈ trigger then 7 else 1
    | _ :: _, 'W' :: _ => Nat.ofDigitChars 10 digits 0 * 7
    | _, _ => 0
  | _ => 0

def sameLetters (word text : List Char) : Bool :=
  word.map Char.toLower = (text.take word.length).map Char.toLower

def isWordChar (c : Char) : Bool := c.isAlphanum || c = '_'

/-- A text has one of the words in it; `inside` is whether a word character stands before it. -/
def hasWord (words : List (List Char)) (inside : Bool) : List Char → Bool
  | [] => false
  | c :: rest =>
    (!inside && words.any fun word ↦
      sameLetters word (c :: rest) && !((c :: rest).drop word.length).head?.any isWordChar) ||
      hasWord words (isWordChar c) rest

def YEARLY_DAY : List (List Char) := ["birthday", "anniversary"].map String.toList

abbrev Properties := List Property

def Properties.find (props : Properties) (name : List Char) : Option Property :=
  List.find? (·.name = name) props

def Properties.value (props : Properties) (name : List Char) : Option (List Char) :=
  (props.find name).map (·.value)

def kindFor (title : List Char) (props : Properties) (name : List Char) : Kind :=
  let own := props.value "X-LUFT-KIND".toList
  if own = some "reminder".toList then .reminder
  else if own = some "birthday".toList then .birthday
  else if own = some "goal".toList then .goal
  else if hasWord YEARLY_DAY false title ∨
      ((props.value "CATEGORIES".toList).getD []).tails.any (sameLetters "BIRTHDAY".toList) then
    .birthday
  else if name = "VTODO".toList ∧ (props.find "DUE".toList).isSome then .goal
  else .reminder

/-- When a component is, and whether it says so in a way that is understood. -/
def writtenIn (p : Places) (props : Properties) : Option (Option When) :=
  match (props.find "DTSTART".toList).or (props.find "DUE".toList) with
  | none => some none
  | some start => (whenOf p start).map some

def foundIn (p : Places) (present today : ℤ) (name : List Char) (props : Properties)
    (headsUp : ℕ) : Except Failure (Option Found) :=
  match props.find "SUMMARY".toList with
  | none => .ok none
  | some summary =>
    let status := props.value "STATUS".toList
    if status = some "COMPLETED".toList ∨ (props.find "COMPLETED".toList).isSome ∨
        status = some "CANCELLED".toList then .ok none
    else
      let title := trim (unescaped summary.value)
      match writtenIn p props with
      | none => .ok none
      | some written => do
        let (repeats, ended) ←
          match props.find "RRULE".toList with
          | some rrule => repeatOf p present rrule.value
          | none => .ok (none, false)
        if ended then .ok none
        else
          let kind := kindFor title props name
          let repeats :=
            if repeats.isNone ∧ kind = .birthday ∧ written.isSome then
              some { unit := .year, every := 1 }
            else repeats
          let w ←
            match written, repeats with
            | some w, some rule => (caughtUp rule w today).map some
            | _, _ => .ok written
          if name = "VEVENT".toList ∧ w.any (fun w ↦ precedes w.day today) then .ok none
          else
            .ok (some
              { uid := props.value "UID".toList, title, kind, when := w, repeats, headsUp })

/-! ## Files -/

/-- How far the reading is: the component that is open, with its properties. -/
structure Progress where
  found : List Found := []
  skipped : ℕ := 0
  opened : Option (List Char) := none
  props : Properties := []
  alarm : Bool := false
  headsUp : ℕ := 0

def readLine (p : Places) (present today : ℤ) (s : Progress) (line : List Char) :
    Except Failure Progress :=
  let prop := property line
  if prop.name = "BEGIN".toList ∧ (prop.value = "VEVENT".toList ∨ prop.value = "VTODO".toList) then
    .ok { s with opened := some prop.value, props := [], headsUp := 0 }
  else if prop.name = "BEGIN".toList ∧ prop.value = "VALARM".toList then
    .ok { s with alarm := true }
  else if prop.name = "END".toList ∧ prop.value = "VALARM".toList then
    .ok { s with alarm := false }
  else
    match s.opened with
    | none => .ok s
    | some name =>
      if prop.name = "END".toList ∧ prop.value = name then do
        match ← foundIn p present today name s.props s.headsUp with
        | some found => .ok { s with found := s.found ++ [found], opened := none }
        | none => .ok { s with skipped := s.skipped + 1, opened := none }
      else if s.alarm then
        if prop.name = "TRIGGER".toList then
          .ok { s with headsUp := max s.headsUp (daysAhead prop.value) }
        else .ok s
      else if (s.props.find prop.name).isNone then .ok { s with props := s.props ++ [prop] }
      else .ok s

/-- Reads a calendar file on the day `today`; `present` is the day while it is being read. -/
def readCalendar (p : Places) (present today : ℤ) (text : List Char) : Except Failure Reading :=
  ((unfolded text).foldlM (readLine p present today) {}).map fun s ↦ ⟨s.found, s.skipped⟩

end Reminders
