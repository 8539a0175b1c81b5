import Luft.Lib.Text

/-!
# Repository files

What `repositories` makes of a dnf repository file that someone adds: the file is read into
sections (`parse`), those that are turned on are checked (`enabled`), the keys they name are looked
up and read (`check`), and the sections are written back with the keys kept on the computer
(`render`, `store`).

Texts are lists of characters.  Reading a key is left to `rpmkeys` (`read`).
-/

set_option autoImplicit false

namespace Packages

open Text

abbrev Str := List Char

def KEPT : List Str :=
  ["name", "baseurl", "metalink", "mirrorlist", "type", "skip_if_unavailable", "metadata_expire",
    "priority", "cost", "repo_gpgcheck", "includepkgs", "excludepkgs", "exclude",
    "module_hotfixes"].map String.toList

def ADDRESSES : List Str := ["baseurl", "metalink", "mirrorlist"].map String.toList

structure Section where
  id : Str
  values : List (Str × Str)
  deriving DecidableEq

/-- What separates words, of a value that is a list. -/
def separates (character : Char) : Bool := is_whitespace character || character = ','

def words (value : Str) : List Str := fields separates value

def truthy (value : Str) : Bool :=
  ["1".toList, "true".toList, "yes".toList, "on".toList].contains ((trim value).map Char.toLower)

namespace Section

variable (s : Section)

def get (key : Str) : Option Str := (s.values.find? fun pair ↦ pair.1 = key).map Prod.snd

def name : Str := (s.get "name".toList).getD s.id

def keys : List Str := ((s.get "gpgkey".toList).map words).getD []

def enabled : Bool := ((s.get "enabled".toList).map truthy).getD true

end Section

def valid_id (id : Str) : Bool :=
  !id.isEmpty && id.all fun character ↦ character.isAlphanum || "._:-".toList.contains character

/-! ## Reading -/

/-- What stands between the brackets of a line that begins a section. -/
def bracketed : Str → Option Str
  | '[' :: rest => strip_suffix ']' rest
  | _ => none

/-- One line, after the sections read so far. -/
def parseLine (sections : List Section) (line : Str) : Except String (List Section) :=
  let trimmed := trim line
  if trimmed = [] ∨ trimmed.head? = some '#' ∨ trimmed.head? = some ';' then .ok sections
  else
    match bracketed trimmed with
    | some id =>
      if valid_id id then .ok (sections ++ [⟨id, []⟩])
      else .error ("“" ++ String.ofList id ++ "” isn't a name a software source can have.")
    | none =>
      match sections.getLast? with
      | none => .error "This isn't a software source file."
      | some last =>
        match if line.head?.any is_whitespace then last.values.getLast? else none with
        | some (key, value) =>
          -- An indented line continues the value before it.
          .ok (sections.dropLast ++
            [{ last with values := last.values.dropLast ++ [(key, value ++ ' ' :: trimmed)] }])
        | none =>
          match split_once ['='] trimmed with
          | none => .error "This isn't a software source file."
          | some (key, value) =>
            .ok (sections.dropLast ++ [{ last with
              values := last.values ++ [((trim key).map Char.toLower, trim value)] }])

def parse (text : Str) : Except String (List Section) :=
  match (lines text).foldlM parseLine [] with
  | .error message => .error message
  | .ok sections =>
    if sections = [] then .error "This file has no software sources in it." else .ok sections

/-! ## Checking -/

def secure (address : Str) : Bool := "https://".toList.isPrefixOf address

/-- The addresses a section is reached at, as dnf's settings are looked up. -/
def addresses (s : Section) : List Str := (ADDRESSES.filterMap s.get).flatMap words

/-- Why a section that is turned on is refused, if it is. -/
def refusal (s : Section) : Option String :=
  let name := String.ofList s.name
  if ¬ ((s.get "gpgcheck".toList).any truthy) then
    some (name ++ " doesn't sign its packages, so Luft can't check them.")
  else if s.keys = [] then
    some (name ++ " doesn't name the key its packages are signed with.")
  else if addresses s = [] then some (name ++ " doesn't say where its packages are.")
  else
    ((addresses s).find? fun address ↦ !secure address).map fun address ↦
      name ++ " isn't reached over a secure connection (" ++ String.ofList address ++ ")."

def enabled (sections : List Section) : Except String (List Section) :=
  let enabled := sections.filter Section.enabled
  if enabled = [] then .error "This file has no software sources that are turned on."
  else
    match enabled.findSome? refusal with
    | some message => .error message
    | none => .ok enabled

/-! ## Writing -/

def newline : Str := ['\n']

/-- The settings of a section that are written back. -/
def kept (s : Section) : List (Str × Str) := s.values.filter fun pair ↦ KEPT.contains pair.1

def renderSection (local' : Str → Str) (s : Section) : Str :=
  '[' :: s.id ++ ']' :: newline ++
    (kept s).flatMap (fun pair ↦ pair.1 ++ '=' :: pair.2 ++ newline) ++
    "enabled=1\ngpgcheck=1\ngpgkey=".toList ++ [' '].intercalate (s.keys.map local') ++ newline

def render (sections : List Section) (local' : Str → Str) : Str :=
  newline.intercalate (sections.map (renderSection local'))

/-! ## Adding a file -/

def KEYS : Str := "/var/lib/luft/system-packages/keys".toList
def FOLDER : Str := "/var/lib/luft/system-packages/repositories".toList

def valid_file (file : Str) : Bool :=
  file.length ≤ 64 &&
    (file.head?.any fun first ↦ first.isLower || first.isDigit) &&
    file.all fun character ↦
      character.isLower || character.isDigit || "._-".toList.contains character

def path (file : Str) : Str := FOLDER ++ '/' :: file ++ ".repo".toList

def key_name (file : Str) (number : ℕ) : Str :=
  file ++ '-' :: (toString number).toList ++ ".asc".toList

structure Key where
  fingerprint : String
  user : String
  deriving DecidableEq

structure Checked where
  sections : List Section
  keys : List (Str × Str)
  fingerprints : List Key
  deriving DecidableEq

/-- One more key that is named, unless it is wanted already. -/
def want (keys : List (Str × Str)) (wanted : List (Str × Str)) (address : Str) :
    Except String (List (Str × Str)) :=
  if wanted.any fun known ↦ known.1 = address then .ok wanted
  else
    match keys.lookup address with
    | none => .error ("The key at " ++ String.ofList address ++ " is missing.")
    | some armored => .ok (wanted ++ [(address, armored)])

/-- The keys in one more block, without those that were there before. -/
def gather (read : Str → Except String (List Key)) (fingerprints : List Key)
    (wanted : Str × Str) : Except String (List Key) :=
  (read wanted.2).map fun found ↦ found.foldl
    (fun fingerprints key ↦
      if fingerprints.contains key then fingerprints else fingerprints ++ [key]) fingerprints

def check (read : Str → Except String (List Key)) (file text : Str) (keys : List (Str × Str)) :
    Except String Checked := do
  if ¬ valid_file file then
    throw ("“" ++ String.ofList file ++ "” isn't a name a software source can have.")
  let sections ← enabled (← parse text)
  let wanted ← (sections.flatMap Section.keys).foldlM (want keys) []
  let fingerprints ← wanted.foldlM (gather read) []
  return { sections, keys := wanted, fingerprints }

/-- Where the key that an address names is kept on the computer. -/
def localKey (file : Str) (checked : Checked) (address : Str) : Str :=
  let number := ((checked.keys.findIdx? fun known ↦ known.1 = address)).getD 0
  "file://".toList ++ KEYS ++ '/' :: key_name file (number + 1)

/-- The files that are written, with what is in them. -/
def store (file : Str) (checked : Checked) : List (Str × Str) :=
  (checked.keys.zipIdx.map fun p ↦ (KEYS ++ '/' :: key_name file (p.2 + 1), p.1.2)) ++
    [(path file, render checked.sections (localKey file checked))]

end Packages
