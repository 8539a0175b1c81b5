import Luft.Lib.Runs
import Mathlib.Data.List.Basic
import Mathlib.Logic.Function.Basic

/-!
# The clipboard's history

Each copy is numbered when it happens.  Its text or image is read afterwards, and for an image a thumbnail is
made and a file saved, so that copies land in the history in any order, between everything else that happens
to it.

The entries of the history are objects that several parts hold on to: their number is changed in place.
`objects` says what is in each of them.  What is read from the clipboard is outside, and so is the checksum,
which is the name of an image's file.
-/

set_option autoImplicit false

namespace Clipboard

/-- A text of the language: its code units. -/
abbrev Text := List UInt16

abbrev Bytes := List UInt8

/-- An object of an entry. -/
abbrev Ref := ℕ

def HISTORY_LIMIT : ℕ := 25

def IMAGE_LIMIT : ℕ := 8

def TEXT_LIMIT : ℕ := 20000

def IMAGE_BYTE_LIMIT : ℕ := 16 * 1024 * 1024

def PREFERRED_IMAGE_TYPE : String := "image/png"

def SENSITIVE_MIME_TYPE : String := "x-kde-passwordManagerHint"

def TEXT_MIME_TYPES : List String := ["text/plain;charset=utf-8", "UTF8_STRING", "text/plain", "STRING"]

/-- White space and line ends, which `trim` takes away. -/
def is_blank (unit : UInt16) : Bool :=
  (0x9 ≤ unit && unit ≤ 0xd) || (0x2000 ≤ unit && unit ≤ 0x200a) ||
    [0x20, 0xa0, 0x1680, 0x2028, 0x2029, 0x202f, 0x205f, 0x3000, 0xfeff].contains unit

/-- What an entry is of: a text, or an image by its checksum. -/
inductive Key (Id : Type)
  | text (text : Text)
  | image (id : Id)
  deriving DecidableEq

structure Entry (Id : Type) where
  key : Key Id
  /-- Of an image. -/
  mimeType : String
  copied : ℕ
  deriving DecidableEq

/-- What is going on, with the time of the copy or the put that began it. -/
inductive Pending (Id : Type)
  | text (copied began : ℕ)
  | image (mimeType : String) (copied began : ℕ)
  | thumbnail (id : Id) (mimeType : String) (copied began : ℕ)
  | saving (id : Id) (mimeType : String) (copied began : ℕ)
  | loading (entry : Ref) (began : ℕ)
  deriving DecidableEq

/-- A copy or a put that came to the history: of what, with which number, and when it began. -/
structure Landing (Id : Type) where
  key : Key Id
  copied : ℕ
  began : ℕ
  deriving DecidableEq

/-- An entry that was taken out by hand. -/
structure Removal (Id : Type) where
  key : Key Id
  time : ℕ
  deriving DecidableEq

/-- What happened so far, which no part of the program looks at. -/
structure Log (Id : Type) where
  time : ℕ
  landings : List (Landing Id)
  removals : List (Removal Id)

structure History (Id : Type) where
  items : List Ref
  copies : ℕ
  objects : Ref → Entry Id
  /-- How many objects there are. -/
  made : ℕ
  pending : List (Pending Id)
  /-- The images whose files were discarded, and not saved again since. -/
  discarded : List Id
  log : Log Id

section

variable {Id : Type} [DecidableEq Id]

def sameEntry (s : History Id) (entry other : Ref) : Bool := (s.objects entry).key = (s.objects other).key

def imageOf (s : History Id) (entry : Ref) : Option Id :=
  match (s.objects entry).key with
  | .text _ => none
  | .image id => some id

/-- All but the images behind the eighth. -/
def fewImages (s : History Id) : ℕ → List Ref → List Ref
  | _, [] => []
  | images, entry :: entries =>
    if imageOf s entry = none then entry :: fewImages s images entries
    else if images + 1 ≤ IMAGE_LIMIT then entry :: fewImages s (images + 1) entries
    else fewImages s (images + 1) entries

def update (entries : List Ref) (s : History Id) : History Id :=
  let kept := (fewImages s 0 entries).take HISTORY_LIMIT
  let gone := (s.items.filter fun item ↦ !kept.any fun entry ↦ sameEntry s entry item).filterMap (imageOf s)
  { s with items := kept, discarded := gone ++ s.discarded }

def remember (entry : Ref) (s : History Id) : History Id :=
  let others := s.items.filter fun item ↦ !sameEntry s item entry
  let newer := others.filter fun item ↦ (s.objects item).copied > (s.objects entry).copied
  update (newer ++ entry :: others.drop newer.length) s

/-- An entry gets a number and is remembered. -/
def land (entry : Ref) (key : Key Id) (mimeType : String) (copied began : ℕ) (s : History Id) : History Id :=
  remember entry { s with
    objects := Function.update s.objects entry ⟨key, mimeType, copied⟩
    log := { s.log with landings := ⟨key, copied, began⟩ :: s.log.landings } }

/-- A new entry. -/
def landNew (key : Key Id) (mimeType : String) (copied began : ℕ) (s : History Id) : History Id :=
  land s.made key mimeType copied began { s with made := s.made + 1 }

/-- An entry that is there gets another number. -/
def landAgain (entry : Ref) (copied began : ℕ) (s : History Id) : History Id :=
  land entry (s.objects entry).key (s.objects entry).mimeType copied began s

def imageType (mimeTypes : List String) : Option String :=
  if mimeTypes.contains PREFERRED_IMAGE_TYPE then some PREFERRED_IMAGE_TYPE
  else mimeTypes.find? fun type ↦ "image/".toList.isPrefixOf type.toList

/-- Something is copied elsewhere. -/
def ownerChanged (mimeTypes : List String) (s : History Id) : History Id :=
  if mimeTypes.contains SENSITIVE_MIME_TYPE then s
  else
    let copied := s.copies + 1
    let s := { s with copies := copied }
    if mimeTypes.any TEXT_MIME_TYPES.contains then { s with pending := .text copied s.log.time :: s.pending }
    else
      match imageType mimeTypes with
      | some mimeType => { s with pending := .image mimeType copied s.log.time :: s.pending }
      | none => s

/-- The text of a copy was read. -/
def textRead (text : Option Text) (copied began : ℕ) (s : History Id) : History Id :=
  match text with
  | some text => if text.all is_blank then s else landNew (.text (text.take TEXT_LIMIT)) "" copied began s
  | none => s

def keepImage (checksum : Bytes → Id) (mimeType : String) (bytes : Bytes) (copied began : ℕ) (s : History Id) :
    History Id :=
  let id := checksum bytes
  match s.items.find? fun item ↦ imageOf s item = some id with
  | some known => landAgain known copied began s
  | none => { s with pending := .thumbnail id mimeType copied began :: s.pending }

/-- The image of a copy was read. -/
def imageRead (checksum : Bytes → Id) (mimeType : String) (bytes : Option Bytes) (copied began : ℕ)
    (s : History Id) : History Id :=
  match bytes with
  | some bytes => if bytes.length ≤ IMAGE_BYTE_LIMIT then keepImage checksum mimeType bytes copied began s else s
  | none => s

/-- The file of an image is there. -/
def saved (id : Id) (mimeType : String) (copied began : ℕ) (s : History Id) : History Id :=
  landNew (.image id) mimeType copied began { s with discarded := s.discarded.filter (· ≠ id) }

def put (entry : Ref) (s : History Id) : History Id :=
  match imageOf s entry with
  | none => landAgain entry (s.copies + 1) s.log.time { s with copies := s.copies + 1 }
  | some _ => { s with pending := .loading entry s.log.time :: s.pending }

/-- The file of an image that is put was loaded. -/
def loaded (entry : Ref) (began : ℕ) (s : History Id) : History Id :=
  landAgain entry (s.copies + 1) began { s with copies := s.copies + 1 }

/-- The log of what is taken out. -/
def removing (taken : List Ref) (s : History Id) : History Id :=
  { s with log := { s.log with
    removals := taken.map (fun item ↦ ⟨(s.objects item).key, s.log.time⟩) ++ s.log.removals } }

def remove (entry : Ref) (s : History Id) : History Id :=
  update (s.items.filter (· ≠ entry)) (removing (s.items.filter (· = entry)) s)

def clear (s : History Id) : History Id := update [] (removing s.items s)

/-- What happens. -/
inductive Act
  | copy (mimeTypes : List String)
  | textRead (index : ℕ) (text : Option Text)
  | imageRead (index : ℕ) (bytes : Option Bytes)
  | thumbnail (index : ℕ) (made : Bool)
  | saved (index : ℕ) (done : Bool)
  | put (entry : Ref)
  | loaded (index : ℕ) (done : Bool)
  | remove (entry : Ref)
  | clear
  deriving DecidableEq

/-- What is going on ends. -/
def ended (index : ℕ) (s : History Id) : History Id := { s with pending := s.pending.eraseIdx index }

/-- What an act does, if there is something for it to be about. -/
def act (checksum : Bytes → Id) (s : History Id) : Act → History Id
  | .copy mimeTypes => ownerChanged mimeTypes s
  | .textRead index text =>
    match s.pending[index]? with
    | some (.text copied began) => textRead text copied began (ended index s)
    | _ => s
  | .imageRead index bytes =>
    match s.pending[index]? with
    | some (.image mimeType copied began) => imageRead checksum mimeType bytes copied began (ended index s)
    | _ => s
  | .thumbnail index made =>
    match s.pending[index]? with
    | some (.thumbnail id mimeType copied began) =>
      if made then { ended index s with pending := .saving id mimeType copied began :: (ended index s).pending }
      else ended index s
    | _ => s
  | .saved index done =>
    match s.pending[index]? with
    | some (.saving id mimeType copied began) =>
      if done then saved id mimeType copied began (ended index s) else ended index s
    | _ => s
  | .put entry => if entry < s.made then put entry s else s
  | .loaded index done =>
    match s.pending[index]? with
    | some (.loading entry began) => if done then loaded entry began (ended index s) else ended index s
    | _ => s
  | .remove entry => remove entry s
  | .clear => clear s

def step (checksum : Bytes → Id) (a : Act) (s : History Id) : History Id :=
  let s := act checksum s a
  { s with log := { s.log with time := s.log.time + 1 } }

/-- Before anything was copied. -/
def start : History Id :=
  ⟨[], 0, fun _ ↦ ⟨.text [], "", 0⟩, 0, [], [], ⟨0, [], []⟩⟩

end

end Clipboard
