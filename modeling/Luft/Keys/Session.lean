import Luft.Keys.Words

/-!
# Typing with an input method

A session keeps the keys that no rule has replaced yet, what was converted for a word to be chosen, and a
compose sequence that was begun.  `feed` takes one input: what is committed goes to the application, and so
does the input itself when it is not handled.
-/

set_option autoImplicit false

namespace Keys

/-- An input method as it is written. -/
structure Method where
  candidates : ℕ
  learn : Bool
  compose : Text
  rules : List Rule
  words : List Entry
  sequences : List Entry

structure Engine where
  rules : Rules
  words : Words
  sequences : Rules
  /-- There is a compose key. -/
  compose : Bool
  vocabulary : List Char
  page : ℕ
  learns : Bool

namespace Engine

/-- `known` tells the names of keys. -/
def new (known : Text → Bool) (method : Method) : Engine where
  rules := .new method.rules
  words := .new method.words
  sequences := .new (method.sequences.map fun entry ↦ ⟨entry.keys, entry.text, []⟩)
  compose := method.compose ≠ [] ∧ known method.compose
  vocabulary := (Rules.new method.rules).characters ++ (Words.new method.words).characters
  page := max 1 (min method.candidates 10)
  learns := method.learn

def has_words (engine : Engine) : Bool := !engine.words.is_empty

def is_contextual (engine : Engine) : Bool := engine.rules.contextual

end Engine

inductive Input
  | text (c : Char)
  | space
  | backSpace
  | return
  | escape
  | up
  | down
  | pageUp
  | pageDown
  | compose
  | other
  deriving DecidableEq

def REMEMBERED : ℕ := 32

/-- The end of what was written. -/
def remember (before text : Text) : Text := (before ++ text).drop ((before ++ text).length - REMEMBERED)

/-- The keys are replaced, until they wait or (`finished`) to their end: what comes of them and what is left.
Each match takes a key at least. -/
def resolveFrom (rules : Rules) (before : Text) (finished : Bool) : ℕ → Text → Text → Text × Text
  | 0, pending, produced => (produced, pending)
  | n + 1, pending, produced =>
    if pending = [] then (produced, pending)
    else if !finished ∧ rules.waits pending then (produced, pending)
    else
      let (consumed, text) := (rules.longestMatch pending (before ++ produced)).getD (1, pending.take 1)
      resolveFrom rules before finished n (pending.drop consumed) (produced ++ text)

def resolve (rules : Rules) (pending before : Text) (finished : Bool) : Text × Text :=
  resolveFrom rules before finished pending.length pending []

structure Session where
  pending : Text
  converted : Text
  composing : Option Text
  before : Text
  candidates : List Candidate
  cursor : ℕ
  committed : Text

namespace Session

def empty : Session := ⟨[], [], none, [], [], 0, []⟩

variable (engine : Engine) (learned : Learned) (session : Session)

def is_active : Bool := session.pending ≠ [] ∨ session.converted ≠ [] ∨ session.composing ≠ none

def reset : Session :=
  { session with pending := [], converted := [], composing := none, candidates := [], cursor := 0 }

def reading : Text :=
  session.converted ++ (resolve engine.rules session.pending (session.before ++ session.converted) true).1

def preedit : Text :=
  match session.composing with
  | some sequence => session.converted ++ sequence
  | none => session.reading engine

def commit (text : Text) : Session :=
  { session with committed := session.committed ++ text, before := remember session.before text }

def produce (text : Text) : Session :=
  if engine.has_words then { session with converted := session.converted ++ text } else session.commit text

def advance (finished : Bool) : Session :=
  let (produced, pending) := resolve engine.rules session.pending (session.before ++ session.converted) finished
  let session := { session with pending }
  if produced = [] then session else session.produce engine produced

def refresh : Session :=
  { session with
    cursor := 0
    candidates :=
      if engine.has_words ∧ session.is_active then engine.words.lookup learned (session.reading engine) else [] }

def flush : Session :=
  let session := { session with composing := none }.advance engine true
  { { session with converted := [] }.commit session.converted with candidates := [], cursor := 0 }

def select (index : ℕ) : Session × Learned :=
  match session.candidates[index]? with
  | none => (session, learned)
  | some candidate =>
    let session := (session.advance engine true).commit candidate.text
    let learned := if engine.learns then learned.bump candidate.keys candidate.text else learned
    ({ session with converted := session.converted.drop candidate.consumes }.refresh engine learned, learned)

def accepts (c : Char) : Bool :=
  if engine.has_words then c ∈ engine.vocabulary
  else engine.rules.continues (session.pending ++ [c]) || engine.rules.starts c

/-- A digit that picks a candidate. -/
def picked (c : Char) : Option ℕ :=
  if session.candidates ≠ [] ∧ c ∉ engine.vocabulary ∧ '1' ≤ c ∧ c ≤ '9' then some (c.toNat - '0'.toNat) else none

/-- A character, where no sequence was begun. -/
def text (c : Char) : Session × Learned × Bool :=
  match session.picked engine c with
  | some digit =>
    let page_start := session.cursor - session.cursor % engine.page
    let (session, learned) := session.select engine learned (page_start + digit - 1)
    (session, learned, true)
  | none =>
    if session.accepts engine c then
      ((({ session with pending := session.pending ++ [c] } : Session).advance engine false).refresh engine learned,
        learned, true)
    else (session.flush engine, learned, false)

/-- What a sequence gives as a whole. -/
def composed (sequence : Text) : Option Text :=
  ((engine.sequences.longestMatch sequence []).filter fun found ↦ found.1 = sequence.length).map (·.2)

/-- A character of a sequence. -/
def compose (sequence : Text) (c : Char) : Session × Learned :=
  if engine.sequences.waits (sequence ++ [c]) then ({ session with composing := some (sequence ++ [c]) }, learned)
  else
    let session := { session with composing := none }
    match composed engine (sequence ++ [c]), composed engine sequence with
    | some text, _ => ((session.produce engine text).refresh engine learned, learned)
    | none, some text =>
      let (session, learned, handled) := (session.produce engine text).text engine learned c
      let session := if handled then session else (session.flush engine).commit [c]
      (session.refresh engine learned, learned)
    | none, none => (session.refresh engine learned, learned)

def paged (cursor : ℕ) (forward : Bool) (total page : ℕ) : ℕ :=
  let start := cursor - cursor % page
  if forward then min (start + page) (total - 1) else start - page

/-- A key that is no character, where something is being typed. -/
def command (input : Input) : Session × Learned × Bool :=
  match input with
  | .space =>
    if !engine.has_words then (session.flush engine, learned, false)
    else if session.candidates = [] then (session.flush engine, learned, true)
    else
      let (session, learned) := session.select engine learned session.cursor
      (session, learned, true)
  | .return => (session.flush engine, learned, engine.has_words)
  | .escape => (session.reset, learned, true)
  | .backSpace =>
    let session : Session :=
      if session.pending = [] then { session with converted := session.converted.dropLast }
      else { session with pending := session.pending.dropLast }
    (session.refresh engine learned, learned, true)
  | .up =>
    if session.candidates = [] then (session.flush engine, learned, false)
    else ({ session with cursor := session.cursor - 1 }, learned, true)
  | .down =>
    if session.candidates = [] then (session.flush engine, learned, false)
    else ({ session with cursor := min (session.cursor + 1) (session.candidates.length - 1) }, learned, true)
  | .pageUp =>
    if session.candidates = [] then (session.flush engine, learned, false)
    else
      ({ session with cursor := paged session.cursor false session.candidates.length engine.page }, learned, true)
  | .pageDown =>
    if session.candidates = [] then (session.flush engine, learned, false)
    else
      ({ session with cursor := paged session.cursor true session.candidates.length engine.page }, learned, true)
  | _ => (session.flush engine, learned, false)

def handle (input : Input) : Session × Learned × Bool :=
  if input = .compose ∧ engine.compose ∧ session.composing = none then
    ({ session.advance engine true with composing := some [] }, learned, true)
  else
    match session.composing, input with
    | some sequence, .text c =>
      let (session, learned) := session.compose engine learned sequence c
      (session, learned, true)
    | some sequence, .backSpace =>
      ({ session with composing := if sequence = [] then none else some sequence.dropLast }, learned, true)
    | some _, .escape => ({ session with composing := none }, learned, true)
    | some _, _ => (session, learned, false)
    | none, .text c => session.text engine learned c
    | none, input =>
      if session.is_active then session.command engine learned input else (session, learned, false)

/-- An input that the application gets. -/
def passed (input : Input) : Session :=
  match input with
  | .text c => { session with before := remember session.before [c] }
  | .space => { session with before := remember session.before [' '] }
  | .backSpace => { session with before := session.before.dropLast }
  | _ => { session with before := [] }

structure Response where
  handled : Bool
  commit : Text

def feed (input : Input) : Response × Session × Learned :=
  let (session, learned, handled) := session.handle engine learned input
  let session := if handled then session else session.passed input
  (⟨handled, session.committed⟩, { session with committed := [] }, learned)

/-- What the application gets of characters that are typed, and what is shown after them. -/
def typedFrom : Learned → Session → Text → Text
  | _, session, [] => session.preedit engine
  | learned, session, c :: keys =>
    let (response, session, learned) := session.feed engine learned (.text c)
    response.commit ++ (if response.handled then [] else [c]) ++ typedFrom learned session keys

def typed (keys : Text) : Text := typedFrom engine learned empty keys

end Session

end Keys
