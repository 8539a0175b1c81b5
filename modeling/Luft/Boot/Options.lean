import Luft.Boot.LoadOption

/-!
# Boot entries as Luft reads them

The trust daemon reads a boot entry on its own: `parse` walks the device path by position, where Meet's `decode` cuts
node after node off its front, and stops at any end, where Meet goes on to another instance of the path.
-/

set_option autoImplicit false

namespace Boot.Options

open LittleEndian Slices

def END : UInt8 := 0x7f

structure LoadOption where
  number : ℕ
  label : List Char
  partition : Option (List Char)
  path : List Char
deriving DecidableEq, Repr

/-- `efi::text`. -/
def text (data : Bytes) : List Char := Utf16.read data

def guid_text (bytes : Bytes) : List Char :=
  let byte (i : ℕ) := hexDigits 2 (bytes.getD i 0).toNat
  hexDigits 8 (ofLe (bytes.take 4)) ++ ['-'] ++ hexDigits 4 (ofLe ((bytes.drop 4).take 2)) ++ ['-'] ++
    hexDigits 4 (ofLe ((bytes.drop 6).take 2)) ++ ['-'] ++ byte 8 ++ byte 9 ++ ['-'] ++ byte 10 ++ byte 11 ++
    byte 12 ++ byte 13 ++ byte 14 ++ byte 15

def u16_at (data : Bytes) (position : ℕ) : Option ℕ := numberAt 2 data position

/-- What a node, without its header, is for the entry. -/
def takeNode (kind subtype : UInt8) (node : Bytes) (option : LoadOption) : Option LoadOption :=
  if kind = MEDIA ∧ subtype = HARD_DRIVE ∧ node[36]? = some GPT then do
    pure { option with partition := some (guid_text (← slice node 20 36)) }
  else if kind = MEDIA ∧ subtype = FILE_PATH then some { option with path := option.path ++ text node }
  else some option

def nodes (paths : Bytes) : ℕ → ℕ → LoadOption → Option (Option LoadOption)
  | 0, _, _ => none
  | fuel + 1, position, option =>
    match paths[position]?, paths[position + 1]?, u16_at paths (position + 2) with
    | some kind, some subtype, some length =>
      if kind = END ∨ length < 4 then some (some option)
      else
        match (slice paths (position + 4) (position + length)).bind (takeNode kind subtype · option) with
        | none => some none
        | some option => nodes paths fuel (position + length) option
    | _, _, _ => some (some option)

def parse (number : ℕ) (data : Bytes) : Option (Option LoadOption) :=
  match u16_at data 4, (List.range' 6 ((data.length - 6 + 1) / 2) 2).find? fun i ↦ u16_at data i = some 0 with
  | some paths_length, some label_end => do
    let label := text (← slice data 6 label_end)
    match slice data (label_end + 2) (label_end + 2 + paths_length) with
    | some paths => nodes paths (paths.length + 1) 0 { number, label, partition := none, path := [] }
    | none => some none
  | _, _ => some none

end Boot.Options
