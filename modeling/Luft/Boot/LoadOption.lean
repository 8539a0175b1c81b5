import Luft.Lib.Searching
import Luft.Lib.Slices
import Luft.Lib.Utf16

/-!
# Boot entries as Meet writes and reads them

A boot entry holds a description and a device path, a series of nodes each of which begins with its kind and its
length.  `encode` makes one for a partition and a loader, `decode` reads any, and `starts` looks for a partition and a
loader anywhere in the bytes.

What the source takes from bytes by an index, and not by `get`, is taken in the outer `Option`; it is `none` where
that panics, or where the loop has not ended.
-/

set_option autoImplicit false

namespace Boot

open LittleEndian Slices

abbrev Bytes := List UInt8

/-- A text that has no NUL. -/
structure Text where
  chars : List Char
  no_nul : '\x00' ∉ chars
deriving DecidableEq

def ACTIVE : ℕ := 1

def MEDIA : UInt8 := 0x04

def HARD_DRIVE : UInt8 := 0x01

def FILE_PATH : UInt8 := 0x04

def GPT : UInt8 := 0x02

def GUID_SIGNATURE : UInt8 := 0x02

def END : Bytes := [0x7f, 0xff, 0x04, 0x00]

structure Partition where
  number : UInt32
  first_lba : UInt64
  sectors : UInt64
  guid : Bytes
  length_guid : guid.length = 16
deriving DecidableEq

/-! ## Writing -/

def utf16_with_nul (text : List Char) : Bytes := Utf16.withNul text

def hard_drive (partition : Partition) : Bytes :=
  [MEDIA, HARD_DRIVE, 42, 0] ++ le 4 partition.number.toNat ++ le 8 partition.first_lba.toNat ++
    le 8 partition.sectors.toNat ++ partition.guid ++ [GPT, GUID_SIGNATURE]

def file_path (path : List Char) : Bytes :=
  let name := utf16_with_nul path
  [MEDIA, FILE_PATH] ++ le 2 ((4 + name.length) % 65536) ++ name

def device_path (partition : Partition) (loader : List Char) : Bytes :=
  hard_drive partition ++ file_path loader ++ END

def encode (partition : Partition) (loader description : List Char) : Bytes :=
  let device_path := device_path partition loader
  le 4 ACTIVE ++ le 2 (device_path.length % 65536) ++ utf16_with_nul description ++ device_path

/-! ## Searching -/

/-- `bytes.windows(count)`. -/
def windows (count : ℕ) (bytes : Bytes) : List Bytes :=
  (List.range (bytes.length + 1 - count)).map fun start ↦ (bytes.drop start).take count

def starts (option : Bytes) (partition : Partition) (loader : List Char) : Bool :=
  let path := utf16_with_nul loader
  (windows 16 option).any (· == partition.guid) && (windows path.length option).any (· == path)

/-! ## Reading -/

structure Decoded where
  description : List Char
  partition : Option Bytes
  file : Option (List Char)
  windows_object : Option (List Char)
deriving DecidableEq, Repr

def utf16 (bytes : Bytes) : List Char := Utf16.read bytes

def marker : Bytes := Utf16.toBytes (Utf16.encode "BCDOBJECT=".toList)

def windows_object (optional : Bytes) : Option (List Char) := do
  let start := (← Searching.findFrom marker 0 optional) + marker.length
  let text := utf16 (← sliceFrom optional start)
  let stop ← text.findIdx? (· = '}')
  if text.head? = some '{' then some (text.take (stop + 1)) else none

/-- What a node is for the entry. -/
def takeNode (kind subtype : UInt8) (node : Bytes) (decoded : Decoded) : Option Decoded :=
  if kind = MEDIA ∧ subtype = FILE_PATH then do
    pure { decoded with file := some (utf16 (← sliceFrom node 4)) }
  else if kind = MEDIA ∧ subtype = HARD_DRIVE ∧ node.length = 42 then do
    let signature ← node[41]?
    if signature = GUID_SIGNATURE then pure { decoded with partition := some (← slice node 24 40) } else pure decoded
  else pure decoded

def nodes : ℕ → Bytes → Decoded → Option (Option Decoded)
  | 0, _, _ => none
  | fuel + 1, path, decoded =>
    match path with
    | kind :: subtype :: low :: high :: _ =>
      let length := ofLe [low, high]
      match if length ≥ 4 then slice path 0 length else none with
      | none => some none
      | some bytes =>
        if kind = 0x7f ∧ subtype = 0xff then some (some decoded)
        else do nodes fuel (← sliceFrom path length) (← takeNode kind subtype bytes decoded)
    | _ => some (some decoded)

/-- The first pair of zeros, counted in pairs. -/
def nul (bytes : Bytes) : Option ℕ := (Utf16.pairs bytes).findIdx? (· = 0)

def decode (option : Bytes) : Option (Option Decoded) :=
  match numberAt 2 option 4, (sliceFrom option 6).bind nul with
  | some path_length, some pairs =>
    let description_end := 6 + pairs * 2
    let path_start := description_end + 2
    match slice option path_start (path_start + path_length) with
    | some path => do
      let decoded : Decoded :=
        { description := utf16 (← slice option 6 description_end)
          partition := none
          file := none
          windows_object := windows_object (← sliceFrom option (path_start + path_length)) }
      nodes (path.length + 1) path decoded
    | none => some none
  | _, _ => some none

/-- `{:02x}` and longer. -/
def hexDigits : ℕ → ℕ → List Char
  | 0, _ => []
  | k + 1, n => hexDigits k (n / 16) ++ [Nat.digitChar (n % 16)]

def guid_text (bytes : Bytes) : List Char :=
  let byte (i : ℕ) := hexDigits 2 (bytes.getD i 0).toNat
  byte 3 ++ byte 2 ++ byte 1 ++ byte 0 ++ ['-'] ++ byte 5 ++ byte 4 ++ ['-'] ++ byte 7 ++ byte 6 ++ ['-'] ++
    byte 8 ++ byte 9 ++ ['-'] ++ byte 10 ++ byte 11 ++ byte 12 ++ byte 13 ++ byte 14 ++ byte 15

end Boot
