import Luft.Lib.BigEndian

/-!
# The keyring's file

The file begins with a preamble: what it is, its version, and the header with its length before it.
The body is the contents, sealed with the preamble as associated data.  `Stored.parse` and
`Stored.openWith` read it back; `save` writes it anew next to the old one and renames it over that
(`replace`), so that the file on disk is one or the other at all times (`save_cases`), and reads back
as what was saved (`reading_write`).

Encoding and sealing are left to the crates that do it (`Encoding`, `Cipher`).
-/

set_option autoImplicit false

namespace Keyring

namespace File

open LittleEndian

abbrev Bytes := List UInt8

inductive Error where
  | io
  | corrupt (what : String)
  | wrongPassword
  | wrongKey
deriving DecidableEq, Repr

/-- What `ciborium` does: what was encoded decodes again. -/
structure Encoding (α : Type) where
  encode : α → Option Bytes
  decode : Bytes → Option α
  decode_encode : ∀ x bytes, encode x = some bytes → decode bytes = some x

/-- What `cipher` and `MasterKey::derive` do: what was sealed opens with the same key and the same
associated data.  A sealed text has a nonce in it that is new each time. -/
structure Cipher (Key : Type) where
  derive : Key → String → Key
  sealing : Key → Bytes → Bytes → Bytes → Bytes
  opening : Key → Bytes → Bytes → Option Bytes
  opening_sealing : ∀ key nonce plaintext aad,
    opening key (sealing key nonce plaintext aad) aad = some plaintext

structure Crates (Key Header Contents : Type) where
  cipher : Cipher Key
  header : Encoding Header
  contents : Encoding Contents

def MAGIC : Bytes := [0x4C, 0x55, 0x46, 0x54, 0x4B, 0x45, 0x59, 0x53]
def VERSION : UInt8 := 1
def BODY_KEY : String := "luft-keyring vault body"

structure Stored (Header : Type) where
  header : Header
  preamble : Bytes
  body : Bytes
deriving DecidableEq

variable {Key Header Contents : Type} (crates : Crates Key Header Contents)

/-! ## Reading -/

namespace Stored

def parse (bytes : Bytes) : Except Error (Stored Header) :=
  if bytes.length < MAGIC.length + 5 ∨ bytes.take MAGIC.length ≠ MAGIC then
    .error (.corrupt "not a Luft Keyring file")
  else if bytes.getD MAGIC.length 0 ≠ VERSION then
    .error (.corrupt "written by a newer version")
  else
    let length_at := MAGIC.length + 1
    let length := ofLe ((bytes.drop length_at).take 4)
    let header_at := length_at + 4
    let body_at := header_at + length
    if bytes.length < body_at then .error (.corrupt "truncated header")
    else
      match crates.header.decode ((bytes.drop header_at).take length) with
      | none => .error (.corrupt "unreadable header")
      | some header => .ok ⟨header, bytes.take body_at, bytes.drop body_at⟩

def openWith (stored : Stored Header) (key : Key) : Except Error Contents :=
  match crates.cipher.opening (crates.cipher.derive key BODY_KEY) stored.body stored.preamble with
  | none => .error .wrongKey
  | some plaintext =>
    match crates.contents.decode plaintext with
    | none => .error (.corrupt "unreadable contents")
    | some contents => .ok contents

end Stored

/-- What is on disk, read with a key: the header and the contents. -/
def reading (disk : Option Bytes) (key : Key) : Except Error (Header × Contents) :=
  match disk with
  | none => .error (.corrupt "the keyring file is missing")
  | some bytes => do
    let stored ← Stored.parse crates bytes
    let contents ← stored.openWith crates key
    return (stored.header, contents)

/-! ## Writing -/

/-- Where replacing the file can fail; after the rename only the folder is left to be synced. -/
inductive Fault where
  | noFolder
  | folder
  | staging
  | writing
  | syncing
  | renaming
  | settling
deriving DecidableEq, Repr

def replace (fault : Option Fault) (bytes : Bytes) (disk : Option Bytes) :
    Except Error Unit × Option Bytes :=
  match fault with
  | some .noFolder => (.error (.corrupt "the keyring has no folder"), disk)
  | some .settling => (.error .io, some bytes)
  | some _ => (.error .io, disk)
  | none => (.ok (), some bytes)

def preamble (encoded : Bytes) : Bytes := MAGIC ++ [VERSION] ++ le 4 encoded.length ++ encoded

/-- The contents, sealed next to their preamble. -/
def body (key : Key) (nonce plaintext encoded : Bytes) : Bytes :=
  crates.cipher.sealing (crates.cipher.derive key BODY_KEY) nonce plaintext (preamble encoded)

def save (header : Header) (key : Key) (contents : Contents) (nonce : Bytes)
    (fault : Option Fault) (disk : Option Bytes) : Except Error Unit × Option Bytes :=
  match crates.header.encode header with
  | none => (.error (.corrupt "unencodable header"), disk)
  | some encoded =>
    if 4294967296 ≤ encoded.length then (.error (.corrupt "oversized header"), disk)
    else
      match crates.contents.encode contents with
      | none => (.error (.corrupt "unencodable contents"), disk)
      | some plaintext =>
        replace fault (preamble encoded ++ body crates key nonce plaintext encoded) disk

/-- The header and the contents can be written at all. -/
def Encodes (header : Header) (contents : Contents) : Prop :=
  (∃ encoded, crates.header.encode header = some encoded ∧ encoded.length < 4294967296) ∧
    (crates.contents.encode contents).isSome

variable {crates} {header : Header} {key : Key} {contents : Contents} {nonce : Bytes}
  {fault : Option Fault} {disk : Option Bytes}

theorem parse_preamble {encoded : Bytes} (hencoded : crates.header.encode header = some encoded)
    (hlength : encoded.length < 4294967296) (body : Bytes) :
    Stored.parse crates (preamble encoded ++ body) = .ok ⟨header, preamble encoded, body⟩ := by
  have hlead : (MAGIC ++ [VERSION]).length = 9 := rfl
  have hsize : (preamble encoded).length = 13 + encoded.length := by
    rw [preamble, List.length_append, List.length_append, hlead, length_le]
  have hbytes : preamble encoded ++ body =
      (MAGIC ++ [VERSION]) ++ (le 4 encoded.length ++ (encoded ++ body)) := by
    rw [preamble, List.append_assoc, List.append_assoc]
  have hmagic : (preamble encoded ++ body).take MAGIC.length = MAGIC := by
    rw [hbytes, List.append_assoc, List.take_left]
  have hversion : (preamble encoded ++ body).getD MAGIC.length 0 = VERSION := by
    rw [hbytes]
    rfl
  have hdrop : (preamble encoded ++ body).drop (MAGIC.length + 1) =
      le 4 encoded.length ++ (encoded ++ body) := by
    rw [hbytes]
    exact List.drop_left' rfl
  have hread : ofLe (((preamble encoded ++ body).drop (MAGIC.length + 1)).take 4) =
      encoded.length := by
    rw [hdrop, List.take_left' (length_le _ _), ofLe_le hlength]
  have hrest : (preamble encoded ++ body).drop (MAGIC.length + 1 + 4) = encoded ++ body := by
    rw [← List.drop_drop, hdrop, List.drop_left' (length_le _ _)]
  have hend : MAGIC.length + 1 + 4 + encoded.length = (preamble encoded).length := by
    rw [hsize]
    rfl
  rw [Stored.parse, hmagic, hversion]
  simp only [hread, hrest, hend, List.take_left, List.drop_left,
    crates.header.decode_encode _ _ hencoded]
  rw [if_neg, if_neg (not_not.2 rfl), if_neg]
  · rw [List.length_append]
    omega
  · rw [List.length_append, hsize]
    rintro (hshort | hne)
    · have hthirteen : MAGIC.length + 5 = 13 := rfl
      omega
    · exact hne rfl

/-- **What was written reads back.** -/
theorem reading_write {encoded plaintext : Bytes}
    (hencoded : crates.header.encode header = some encoded) (hlength : encoded.length < 4294967296)
    (hplaintext : crates.contents.encode contents = some plaintext) :
    reading crates (some (preamble encoded ++
      body crates key nonce plaintext encoded)) key = .ok (header, contents) := by
  have hopen : Stored.openWith crates ⟨header, preamble encoded,
      body crates key nonce plaintext encoded⟩ key = .ok contents := by
    rw [Stored.openWith]
    simp only [body, crates.cipher.opening_sealing, crates.contents.decode_encode _ _ hplaintext]
  rw [reading]
  simp only [parse_preamble hencoded hlength]
  show (Stored.openWith crates _ key >>= _) = _
  rw [hopen]
  rfl

/-- Whether saving gets as far as the rename. -/
def Reaches (crates : Crates Key Header Contents) (header : Header) (contents : Contents)
    (fault : Option Fault) : Prop :=
  Encodes crates header contents ∧ (fault = none ∨ fault = some .settling)

/-- **What saving does**: either it fails and leaves the file, or the file is now what was saved, and
then it has failed only if the folder could not be synced. -/
theorem save_cases (header : Header) (key : Key) (contents : Contents) (nonce : Bytes)
    (fault : Option Fault) (disk : Option Bytes) :
    (¬ Reaches crates header contents fault ∧
      ∃ e, save crates header key contents nonce fault disk = (.error e, disk)) ∨
    (Reaches crates header contents fault ∧ ∃ result disk',
      save crates header key contents nonce fault disk = (result, disk') ∧
        reading crates disk' key = .ok (header, contents) ∧
        (fault = none → result = .ok ()) ∧ (fault = some .settling → result = .error .io)) := by
  rw [save]
  cases hencoded : crates.header.encode header with
  | none =>
    refine .inl ⟨?_, _, rfl⟩
    rintro ⟨⟨⟨encoded, hsome, -⟩, -⟩, -⟩
    rw [hencoded] at hsome
    cases hsome
  | some encoded =>
    dsimp only
    split
    · rename_i hlarge
      refine .inl ⟨?_, _, rfl⟩
      rintro ⟨⟨⟨encoded', hsome, hsmall⟩, -⟩, -⟩
      rw [hencoded] at hsome
      cases hsome
      omega
    rename_i hsmall
    rw [not_le] at hsmall
    cases hplaintext : crates.contents.encode contents with
    | none =>
      refine .inl ⟨?_, _, rfl⟩
      rintro ⟨⟨-, hsome⟩, -⟩
      rw [hplaintext] at hsome
      cases hsome
    | some plaintext =>
      have hencodes : Encodes crates header contents :=
        ⟨⟨encoded, hencoded, hsmall⟩, by rw [hplaintext]; rfl⟩
      have hback : reading crates (some (preamble encoded ++
          body crates key nonce plaintext encoded)) key = .ok (header, contents) :=
        reading_write hencoded hsmall hplaintext
      dsimp only
      rw [replace.eq_def]
      split
      · refine .inl ⟨?_, _, rfl⟩
        rintro ⟨-, h | h⟩ <;> cases h
      · exact .inr ⟨⟨hencodes, .inr rfl⟩, _, _, rfl, hback, (by rintro ⟨⟩), fun _ ↦ rfl⟩
      · rename_i hnot
        refine .inl ⟨?_, _, rfl⟩
        rintro ⟨-, h | h⟩
        · cases h
        · exact hnot (Option.some_inj.1 h)
      · exact .inr ⟨⟨hencodes, .inl rfl⟩, _, _, rfl, hback, fun _ ↦ rfl, (by rintro ⟨⟩)⟩

end File

end Keyring
