import Luft.Keys.Rules
import Mathlib.Algebra.Ring.Nat

/-!
# The words of an input method

Words are looked up by what has been read so far: those whose keys are read, then those that go on from
there, then those of the longest part of it that has any.  Words chosen often come first.
-/

set_option autoImplicit false

namespace Keys

structure Entry where
  keys : Text
  text : Text

structure Word where
  keys : Text
  text : Text
  order : ℕ
  deriving DecidableEq

structure Candidate where
  text : Text
  keys : Text
  consumes : ℕ
  deriving DecidableEq

/-- How often each text was chosen for its keys. -/
structure Learned where
  count : Text → Text → ℕ

def Learned.bump (learned : Learned) (keys text : Text) : Learned where
  count := fun keys' text' ↦ learned.count keys' text' + if keys' = keys ∧ text' = text then 1 else 0

def COMPLETIONS : ℕ := 40

/-- The words, in the order of their keys. -/
structure Words where
  sorted : List Word

namespace Words

def precedes (left right : Word) : Bool :=
  left.keys < right.keys ∨ left.keys = right.keys ∧ left.order ≤ right.order

def new (entries : List Entry) : Words where
  sorted := ((entries.zipIdx.filter fun entry ↦ entry.1.keys ≠ [] ∧ entry.1.text ≠ []).map fun entry ↦
    ⟨entry.1.keys, entry.1.text, entry.2⟩).mergeSort precedes

variable (words : Words) (learned : Learned)

def is_empty : Bool := words.sorted.isEmpty

def characters : List Char := words.sorted.flatMap Word.keys

def starting_with (keys : Text) : List Word :=
  (words.sorted.dropWhile fun word ↦ word.keys < keys).takeWhile fun word ↦ keys.isPrefixOf word.keys

def exact (keys : Text) : List Word := (words.starting_with keys).takeWhile fun word ↦ word.keys = keys

/-- Words chosen more often come first. -/
def ranked (left right : Word) : Bool :=
  learned.count right.keys right.text < learned.count left.keys left.text ∨
    learned.count left.keys left.text = learned.count right.keys right.text ∧ left.order ≤ right.order

/-- The length of a text in bytes. -/
def bytes (text : Text) : ℕ := (text.map Char.utf8Size).sum

/-- Of words chosen as often, shorter ones come first. -/
def shorter (left right : Word) : Bool :=
  learned.count right.keys right.text < learned.count left.keys left.text ∨
    learned.count left.keys left.text = learned.count right.keys right.text ∧
      (bytes left.keys < bytes right.keys ∨ bytes left.keys = bytes right.keys ∧ left.order ≤ right.order)

/-- The words of the longest part that has any. -/
def ofPart (reading : Text) : List (Word × ℕ) :=
  ((List.range' 1 (reading.length - 1)).reverse.findSome? fun stop ↦
    match (words.exact (reading.take stop)).mergeSort (ranked learned) with
    | [] => none
    | found => some (found.map fun word ↦ (word, stop))).getD []

def chosen (reading : Text) : List (Word × ℕ) :=
  let completions := (words.starting_with reading).filter fun word ↦ bytes reading < bytes word.keys
  let found := (words.exact reading).mergeSort (ranked learned) ++
    (completions.mergeSort (shorter learned)).take COMPLETIONS
  if found = [] then words.ofPart learned reading else found.map fun word ↦ (word, reading.length)

/-- Each text once, where it comes first. -/
def distinct (seen : List Text) : List (Word × ℕ) → List Candidate
  | [] => []
  | (word, consumes) :: rest =>
    if word.text ∈ seen then distinct seen rest
    else ⟨word.text, word.keys, consumes⟩ :: distinct (word.text :: seen) rest

def lookup (reading : Text) : List Candidate := distinct [] (words.chosen learned reading)

end Words

end Keys
