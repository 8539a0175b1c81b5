import Luft.Lib.Op
import Luft.Lib.Text

/-!
# What an IMAP server sends

A response is read as a line, with the literals that its lines announce (`read_raw`), and taken apart
by a parser that goes through it from one position to the next (`parse`).  Sums of positions are
those of machine words where a server has a say in them; the others are never more than the length
of what was read, which is far from the largest word.

The parser logs where it moves and which literals it comes to.  A run of steps in one loop is one
move.  Where the source's functions call one another, `fuel` bounds how deep they do and how often a
loop goes round: a run that needs more ends with `Stop.fuel`.
-/

set_option autoImplicit false

namespace Mailman

namespace Imap

abbrev Bytes := List UInt8

def byte (c : Char) : UInt8 := UInt8.ofNat c.toNat

/-! ## Text and numbers -/

/-- The number that a text of digits is, if it is less than the bound. -/
def parseUnsigned (bound : ℕ) (text : List Char) : Option ℕ :=
  let digits := if text.head? = some '+' then text.tail else text
  let number := digits.foldl (fun n c ↦ n * 10 + (c.toNat - 48)) 0
  if digits ≠ [] ∧ digits.all Char.isDigit ∧ number < bound then some number else none

/-- One more than the largest machine word. -/
def USIZE : ℕ := 18446744073709551616

/-- The length that some bytes announce; bytes that are no text are no digits either. -/
def announced (bytes : Bytes) : Option ℕ :=
  parseUnsigned USIZE ((bytes.map fun b ↦ Char.ofNat b.toNat).rdropWhile (· = '+'))

/-- Whether a byte goes on with a character. -/
def continues (low high : UInt8) (b : Option UInt8) : Bool := b.any fun b ↦ low ≤ b && b ≤ high

/-- The first character that some bytes spell, or the replacement for as many of them as could have
begun one, and how many bytes it takes. -/
def scalar (first : UInt8) (rest : Bytes) : Char × ℕ :=
  let digit (i : ℕ) : ℕ := (rest.getD i 0).toNat % 64
  let goes := continues 0x80 0xbf
  if first < 0x80 then (Char.ofNat first.toNat, 1)
  else if 0xc2 ≤ first && first ≤ 0xdf then
    if goes rest[0]? then (Char.ofNat (first.toNat % 32 * 64 + digit 0), 2) else ('\uFFFD', 1)
  else if 0xe0 ≤ first && first ≤ 0xef then
    if continues (if first = 0xe0 then 0xa0 else 0x80) (if first = 0xed then 0x9f else 0xbf) rest[0]? then
      if goes rest[1]? then (Char.ofNat (first.toNat % 16 * 4096 + digit 0 * 64 + digit 1), 3)
      else ('\uFFFD', 2)
    else ('\uFFFD', 1)
  else if 0xf0 ≤ first && first ≤ 0xf4 then
    if continues (if first = 0xf0 then 0x90 else 0x80) (if first = 0xf4 then 0x8f else 0xbf) rest[0]? then
      if goes rest[1]? then
        if goes rest[2]? then
          (Char.ofNat (first.toNat % 8 * 262144 + digit 0 * 4096 + digit 1 * 64 + digit 2), 4)
        else ('\uFFFD', 3)
      else ('\uFFFD', 2)
    else ('\uFFFD', 1)
  else ('\uFFFD', 1)

/-- The text that bytes spell, some of which were taken already. -/
def lossyFrom : ℕ → Bytes → List Char
  | _, [] => []
  | 0, first :: rest => (scalar first rest).1 :: lossyFrom ((scalar first rest).2 - 1) rest
  | taken + 1, _ :: rest => lossyFrom taken rest

/-- `String::from_utf8_lossy`. -/
def lossy (bytes : Bytes) : List Char := lossyFrom 0 bytes

def to_ascii_uppercase (text : List Char) : List Char := text.map Char.toUpper

def eq_ignore_ascii_case (text other : List Char) : Bool :=
  to_ascii_uppercase text = to_ascii_uppercase other

example : lossy [0x61, 0xe2, 0x82, 0xac, 0xe2, 0x82, 0x62] = ['a', '€', '\uFFFD', 'b'] ∧
    parseUnsigned USIZE ['+', '4', '2'] = some 42 := by
  decide

/-! ## Values -/

inductive Value
  | atom (text : List Char)
  | bytes (bytes : Bytes)
  | nil
  | list (items : List Value)

namespace Value

def text : Value → Option (List Char)
  | atom text => some text
  | bytes found => some (lossy found)
  | _ => none

def number : Value → Option ℕ
  | atom text => parseUnsigned USIZE text
  | _ => none

def items : Value → List Value
  | list items => items
  | _ => []

end Value

/-! ## The parser -/

structure Parser where
  input : Bytes
  position : ℕ
  deriving DecidableEq, Repr

def Parser.new (input : Bytes) : Parser := ⟨input, 0⟩

/-- Why a run does not end well. -/
inductive Stop
  | fuel
  /-- It indexes outside the input. -/
  | outside
  deriving DecidableEq, Repr

/-- A literal that the parser comes to: where it begins, where its length ends, and its length. -/
structure Literal where
  start : ℕ
  close : ℕ
  length : ℕ
  deriving DecidableEq, Repr

inductive Event
  | moved (before after : ℕ)
  | literal (literal : Literal)
  deriving DecidableEq, Repr

abbrev Reading (α : Type) := Op Parser Stop Event α

def moveTo (position : ℕ) : Reading Unit := do
  let p ← Op.state
  Op.emit (.moved p.position position)
  Op.change fun p ↦ { p with position }

/-- `&self.input[start..stop]`. -/
def slice (start stop : ℕ) : Reading Bytes := do
  let p ← Op.state
  Op.require (start ≤ stop ∧ stop ≤ p.input.length) .outside
  pure ((p.input.take stop).drop start)

def skip_spaces : Reading Unit := do
  let p ← Op.state
  moveTo (p.position + ((p.input.drop p.position).takeWhile (· = byte ' ')).length)

def rest : Reading (List Char) := do
  skip_spaces
  let p ← Op.state
  let rest ← slice p.position p.input.length
  moveTo p.input.length
  pure ((lossy rest).rdropWhile Text.is_whitespace)

def code : Reading (Option (List Char)) := do
  skip_spaces
  let p ← Op.state
  if p.input[p.position]? = some (byte '[') then do
    let rest ← slice (p.position + 1) p.input.length
    match rest.idxOf? (byte ']') with
    | none => pure none
    | some length => do
      moveTo (p.position + 1 + length + 1)
      let text ← slice (p.position + 1) (p.position + 1 + length)
      pure (some (lossy text))
  else pure none

/-- What stands in quotes, and how many bytes it takes with what ends it. -/
def quotedFrom : Bytes → Bytes × ℕ
  | [] => ([], 0)
  | first :: rest =>
    if first = byte '\\' then
      match rest with
      | [] => ([], 1)
      | escaped :: rest => (escaped :: (quotedFrom rest).1, (quotedFrom rest).2 + 2)
    else if first = byte '"' then ([], 1)
    else (first :: (quotedFrom rest).1, (quotedFrom rest).2 + 1)

def quoted : Reading Bytes := do
  let p ← Op.state
  let found := quotedFrom (p.input.drop (p.position + 1))
  moveTo (p.position + 1 + found.2)
  pure found.1

/-- Where the data of a literal ends, in machine words. -/
def Literal.stop (l : Literal) (input : Bytes) : ℕ := min ((l.close + 3 + l.length) % USIZE) input.length

def literal : Reading (Option Bytes) := do
  let p ← Op.state
  let rest ← slice p.position p.input.length
  match rest.idxOf? (byte '}') with
  | none => pure none
  | some i => do
    let digits ← slice (p.position + 1) (p.position + i)
    match announced digits with
    | none => pure none
    | some length => do
      let l : Literal := ⟨p.position, p.position + i, length⟩
      Op.emit (.literal l)
      moveTo (l.stop p.input)
      pure (if l.close + 3 ≤ l.stop p.input then
        some ((p.input.take (l.stop p.input)).drop (l.close + 3)) else none)

/-- The bytes that end an atom, outside brackets. -/
def stops (b : UInt8) : Bool := [byte ' ', byte '(', byte ')', byte '\r', byte '\n'].contains b

/-- How many bytes an atom takes, inside that many brackets. -/
def atomFrom : ℕ → Bytes → ℕ
  | _, [] => 0
  | depth, first :: rest =>
    if first = byte '[' then atomFrom (depth + 1) rest + 1
    else if first = byte ']' then atomFrom (depth - 1) rest + 1
    else if stops first ∧ depth = 0 then 0
    else atomFrom depth rest + 1

def atom : Reading (List Char) := do
  let p ← Op.state
  let stop := p.position + atomFrom 0 (p.input.drop p.position)
  moveTo stop
  let text ← slice p.position stop
  pure (lossy text)

/-- One value after the other, going round that often at most. -/
def valuesOf (value : Reading (Option Value)) : ℕ → Reading (List Value)
  | 0 => Op.fail .fuel
  | fuel + 1 => do
    match ← value with
    | none => pure []
    | some first => do
      let others ← valuesOf value fuel
      pure (first :: others)

/-- A closing bracket, if there is one. -/
def skip_close : Reading Unit := do
  let p ← Op.state
  Op.onlyIf (p.input[p.position]? = some (byte ')')) (moveTo (p.position + 1))

def value : ℕ → Reading (Option Value)
  | 0 => Op.fail .fuel
  | fuel + 1 => do
    skip_spaces
    let p ← Op.state
    match p.input[p.position]? with
    | none => pure none
    | some first =>
      if first = byte '\r' ∨ first = byte '\n' ∨ first = byte ')' then pure none
      else if first = byte '(' then do
        moveTo (p.position + 1)
        let items ← valuesOf (value fuel) fuel
        skip_close
        pure (some (.list items))
      else if first = byte '"' then do
        let bytes ← quoted
        pure (some (.bytes bytes))
      else if first = byte '{' then do
        let bytes ← literal
        pure (bytes.map .bytes)
      else do
        let text ← atom
        pure (some (if eq_ignore_ascii_case text "NIL".toList then .nil else .atom text))

def values (fuel : ℕ) : Reading (List Value) := valuesOf (value fuel) fuel

/-- The text of the next value. -/
def word (fuel : ℕ) : Reading (Option (List Char)) := do
  let found ← value fuel
  pure (found.bind Value.text)

/-! ## Responses -/

inductive Status
  | ok
  | no
  | bad
  | bye
  | preAuth
  deriving DecidableEq, Repr

def Status.parse (word : List Char) : Option Status :=
  let upper := to_ascii_uppercase word
  if upper = "OK".toList then some ok
  else if upper = "NO".toList then some no
  else if upper = "BAD".toList then some bad
  else if upper = "BYE".toList then some bye
  else if upper = "PREAUTH".toList then some preAuth
  else none

structure Fetch where
  items : List (List Char × Value)

inductive Untagged
  | status (status : Status) (code : Option (List Char))
  | capability (names : List (List Char))
  | exists (number : ℕ)
  | expunge
  | fetch (fetch : Fetch)
  | list (attributes : List (List Char)) (delimiter : Option (List Char)) (name : List Char)
  | search (uids : List ℕ)
  | vanished (set : List Char)
  | other

inductive Response
  | tagged (tag : List Char) (status : Status) (code : Option (List Char)) (text : List Char)
  | untagged (untagged : Untagged)
  | continue

/-- Each key that is a text, with the value after it. -/
def pairs : List Value → List (List Char × Value)
  | key :: value :: rest =>
    match key.text with
    | some key => (key, value) :: pairs rest
    | none => pairs rest
  | _ => []

def fetch (value : Option Value) : Fetch := ⟨pairs ((value.map Value.items).getD [])⟩

def strip_prefix (text : List Char) (start : List Char) : Option (List Char) :=
  if start.isPrefixOf text then some (text.drop start.length) else none

/-- What a code says of the capabilities. -/
def capabilities (code : Option (List Char)) : Option (List (List Char)) :=
  (code.bind fun code ↦ strip_prefix code "CAPABILITY ".toList).map Text.split_whitespace

/-- The last value that is no list, as text. -/
def lastText (values : List Value) : Option (List Char) :=
  (values.reverse.find? fun value ↦ match value with
    | .list _ => false
    | _ => true).bind Value.text

def untagged (fuel : ℕ) : Reading Untagged := do
  match ← word fuel with
  | none => pure .other
  | some first =>
    match Status.parse first with
    | some status => do
      let found ← code
      pure (match capabilities found with
        | some names => .capability names
        | none => .status status found)
    | none =>
      match parseUnsigned 4294967296 first with
      | some number => do
        let kind := to_ascii_uppercase ((← word fuel).getD [])
        if kind = "EXISTS".toList then pure (.exists number)
        else if kind = "EXPUNGE".toList then pure .expunge
        else if kind = "FETCH".toList then do
          let found ← value fuel
          pure (.fetch (fetch found))
        else pure .other
      | none =>
        let kind := to_ascii_uppercase first
        if kind = "CAPABILITY".toList then do
          let found ← values fuel
          pure (.capability (found.filterMap Value.text))
        else if kind = "LIST".toList ∨ kind = "XLIST".toList then do
          let attributes ← value fuel
          let delimiter ← word fuel
          let name ← word fuel
          pure (.list ((attributes.map fun found ↦ found.items.filterMap Value.text).getD []) delimiter
            (name.getD []))
        else if kind = "SEARCH".toList then do
          let found ← values fuel
          pure (.search ((found.filterMap Value.number).map (· % 4294967296)))
        else if kind = "VANISHED".toList then do
          let found ← values fuel
          pure (((lastText found).map .vanished).getD .other)
        else pure .other

/-- What a response says. -/
def parse (fuel : ℕ) : Reading Response := do
  let tag := (← word fuel).getD []
  if tag = ['+'] then pure .continue
  else if tag = ['*'] then do
    let found ← untagged fuel
    pure (.untagged found)
  else do
    let status := ((← word fuel).bind Status.parse).getD .bad
    let found ← code
    let text ← rest
    pure (.tagged tag status found text)

/-! ## Reading a response -/

inductive ReadError
  | closed
  | failed
  /-- The length is more than there can be room for. -/
  | panics
  deriving DecidableEq, Repr

def strip_suffix (suffix bytes : Bytes) : Option Bytes :=
  if suffix.isSuffixOf bytes then some (bytes.take (bytes.length - suffix.length)) else none

/-- The length of the literal that a line ends by announcing. -/
def literal_length (raw : Bytes) : Option ℕ := do
  let line ← (strip_suffix [byte '\r', byte '\n'] raw).or (strip_suffix [byte '\n'] raw)
  let line ← strip_suffix [byte '}'] line
  let after := (line.reverse.takeWhile (· ≠ byte '{')).reverse
  if after.length < line.length then announced after else none

/-- The bytes up to the end of a line, and those after it. -/
def read_until (stream : Bytes) : Bytes × Bytes :=
  let line := stream.takeWhile (· ≠ byte '\n')
  (stream.take (line.length + 1), stream.drop (line.length + 1))

/-- A response, of which some has been read, and what comes after it. -/
def readFrom : ℕ → Bytes → Bytes → Except ReadError (Bytes × Bytes)
  | 0, _, _ => .error .closed
  | fuel + 1, pending, stream =>
    let (line, stream) := read_until stream
    let pending := pending ++ line
    if line = [] then .error .closed
    else if pending.getLast? ≠ some (byte '\n') then readFrom fuel pending stream
    else
      match literal_length pending with
      | none => .ok (pending, stream)
      | some length =>
        if 9223372036854775808 ≤ pending.length + length then .error .panics
        else if stream.length < length then .error .failed
        else readFrom fuel (pending ++ stream.take length) (stream.drop length)

/-- Every turn takes a byte at least. -/
def read_raw (stream : Bytes) : Except ReadError (Bytes × Bytes) :=
  readFrom (stream.length + 1) [] stream

/-- A server can send that as one response. -/
def Sendable (line : Bytes) : Prop := ∃ stream rest, read_raw stream = .ok (line, rest)

end Imap

end Mailman
