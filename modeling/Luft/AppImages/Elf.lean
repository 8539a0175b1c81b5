import Luft.AppImages.Digest
import Luft.Lib.Checked
import Luft.Lib.Chunks
import Luft.Lib.Slices
import Luft.Lib.Utf8
import Mathlib.Data.List.DropRight

/-!
# The sections of an app image

An app image is an ELF file, whose header says where the table of its sections is; an entry of that says where the
section is and, in another section, its name.  All of these numbers are the file's own, so each of them may be past
its end.
-/

set_option autoImplicit false

namespace AppImages

open LittleEndian Slices

def MAGIC : Bytes := [0x7f, 0x45, 0x4c, 0x46]

def APPIMAGE_TYPE_2 : Bytes := [0x41, 0x49, 2]

def WIDE_ENTRY : ℕ := 64

def NARROW_ENTRY : ℕ := 40

def MAX_SECTIONS : ℕ := 1024

def MAX_SECTION_BYTES : ℕ := 1048576

structure Header where
  wide : Bool
  section_offset : ℕ
  section_size : ℕ
  sections : ℕ
  names : ℕ
deriving DecidableEq, Repr

/-- One more than the largest `u64`. -/
def top : ℕ := 18446744073709551616

def Header.table_bytes (header : Header) : Option ℕ := Checked.mul top header.section_size header.sections

structure Section where
  name : List Char
  offset : ℕ
  size : ℕ
deriving DecidableEq, Repr

def Section.range (found : Section) : Option Range :=
  (Checked.add top found.offset found.size).map fun stop ↦ ⟨found.offset, stop⟩

/-- `number(&bytes[range])`. -/
def number (bytes : Bytes) (range : ℕ × ℕ) : ℕ := ofLe ((bytes.drop range.1).take (range.2 - range.1))

/-- The header in the first 64 bytes. -/
def parse_header (bytes : Bytes) : Option Header :=
  if bytes.take 4 ≠ MAGIC ∨ (bytes.drop 8).take 3 ≠ APPIMAGE_TYPE_2 ∨ bytes[5]? ≠ some 1 then none
  else do
    let wide ←
      match (bytes[4]? : Option UInt8) with
      | some 1 => some false
      | some 2 => some true
      | _ => none
    let (offset, size, count, names) :=
      if wide then ((40, 48), (58, 60), (60, 62), (62, 64)) else ((32, 36), (46, 48), (48, 50), (50, 52))
    let header : Header :=
      { wide
        section_offset := number bytes offset
        section_size := number bytes size
        sections := number bytes count
        names := number bytes names }
    let entry := if wide then WIDE_ENTRY else NARROW_ENTRY
    if header.section_size = entry ∧ header.sections ≤ MAX_SECTIONS ∧ header.names < max header.sections 1
    then some header else none

/-- A seek to `offset`, which is a signed number to the system, and a read of `count` bytes, all or none. -/
def read_exact (contents : Bytes) (offset count : ℕ) : Option Bytes :=
  if offset < 9223372036854775808 ∧ ((contents.drop offset).take count).length = count
  then some ((contents.drop offset).take count) else none

def header (contents : Bytes) : Option Header := (read_exact contents 0 64).bind parse_header

structure Entry where
  name : ℕ
  offset : ℕ
  size : ℕ
deriving DecidableEq, Repr

def entries (contents : Bytes) (header : Header) : Option (List Entry) := do
  let table ← read_exact contents header.section_offset (← header.table_bytes)
  let (name, offset, size) :=
    if header.wide then ((0, 4), (24, 32), (32, 40)) else ((0, 4), (16, 20), (20, 24))
  pure ((Chunks.chunks header.section_size table).map fun entry ↦
    { name := number entry name, offset := number entry offset, size := number entry size })

def read (contents : Bytes) (offset size : ℕ) : Option Bytes :=
  read_exact contents offset (min size MAX_SECTION_BYTES)

def sections (contents : Bytes) : Option (List Section) := do
  let header ← header contents
  let entries ← entries contents header
  let names ← entries[header.names]?
  let names ← read contents names.offset names.size
  pure (entries.filterMap fun entry ↦ do
    let name ← sliceFrom names entry.name
    pure { name := Utf8.lossy (name.takeWhile (· ≠ 0)), offset := entry.offset, size := entry.size })

/-- Up to the last byte that is not zero. -/
def section_bytes (contents : Bytes) (sections : List Section) (wanted : List Char) : Option Bytes := do
  let found ← sections.find? fun candidate ↦ candidate.name = wanted
  let bytes ← read contents found.offset found.size
  let kept := bytes.rdropWhile (· = 0)
  if kept = [] then none else some kept

/-! ## What is read of a section -/

/-- The first section of a name. -/
def Names (contents : Bytes) (wanted : List Char) (found : Section) : Prop :=
  ∃ all, sections contents = some all ∧ all.find? (fun candidate ↦ candidate.name = wanted) = some found

/-- Bytes that are a section's, but for those past a limit and for zeros at their end. -/
structure Section.Holds (found : Section) (contents bytes : Bytes) : Prop where
  place : ∀ i < bytes.length, bytes[i]? = contents[found.offset + i]?
  rest : ∀ i, bytes.length ≤ i → i < min found.size MAX_SECTION_BYTES → contents[found.offset + i]? = some 0
  length_le : bytes.length ≤ min found.size MAX_SECTION_BYTES
  ends : ∀ last, bytes.getLast? = some last → last ≠ 0
  ne_nil : bytes ≠ []

/-- A section of a megabyte at most that doesn't end with a zero is held as it is. -/
theorem Section.Holds.length_eq_iff {found : Section} {contents bytes : Bytes} (h : found.Holds contents bytes) :
    bytes.length = found.size ↔
      found.size ≤ MAX_SECTION_BYTES ∧ contents[found.offset + (found.size - 1)]? ≠ some 0 := by
  have hle := h.length_le
  have hpos := List.length_pos_of_ne_nil h.ne_nil
  constructor
  · intro hlength
    refine ⟨by omega, ?_⟩
    rw [← hlength, ← h.place _ (by omega), ← List.getLast?_eq_getElem?]
    exact fun hlast ↦ h.ends _ hlast rfl
  · rintro ⟨hsize, hlast⟩
    by_contra hne
    exact hlast (h.rest _ (by omega) (by omega))

theorem read_exact_eq_some {contents bytes : Bytes} {offset count : ℕ}
    (h : read_exact contents offset count = some bytes) :
    bytes = (contents.drop offset).take count ∧ bytes.length = count := by
  rw [read_exact] at h
  split at h
  · next hlength =>
    cases h
    exact ⟨rfl, hlength.2⟩
  · cases h

/-- The bytes of a section are found where it is. -/
theorem section_bytes_eq_some {contents bytes : Bytes} {all : List Section} {wanted : List Char}
    (h : section_bytes contents all wanted = some bytes) :
    ∃ found, all.find? (fun candidate ↦ candidate.name = wanted) = some found ∧ found.Holds contents bytes := by
  obtain ⟨found, hfound, h⟩ := Option.bind_eq_some_iff.1 h
  obtain ⟨whole, hwhole, h⟩ := Option.bind_eq_some_iff.1 h
  obtain ⟨hwhole, hlength⟩ := read_exact_eq_some hwhole
  dsimp only at h
  split at h
  · cases h
  next hne =>
  cases h
  refine ⟨found, hfound, ?_⟩
  have hparts : whole.rdropWhile (· = 0) ++ whole.rtakeWhile (· = 0) = whole :=
    List.rdropWhile_append_rtakeWhile
  have hget : ∀ i < min found.size MAX_SECTION_BYTES, whole[i]? = contents[found.offset + i]? := by
    intro i hi
    rw [hwhole, List.getElem?_take_of_lt hi, List.getElem?_drop]
  have hle : (whole.rdropWhile (· = 0)).length ≤ min found.size MAX_SECTION_BYTES := by
    rw [← hlength]
    exact (List.rdropWhile_prefix _ _).length_le
  exact
    { place := fun i hi ↦ by rw [← hget i (by omega), ← List.getElem?_append_left hi, hparts]
      rest := fun i hi hi' ↦ by
        have hlt : i < whole.length := by rwa [hlength]
        obtain ⟨byte, hbyte⟩ : ∃ byte, whole[i]? = some byte := ⟨_, List.getElem?_eq_getElem hlt⟩
        have hzeros := hbyte
        rw [← hparts, List.getElem?_append_right hi] at hzeros
        have hzero := List.mem_rtakeWhile_imp (List.mem_of_getElem? hzeros)
        rw [← hget i hi', hbyte, of_decide_eq_true hzero]
      length_le := hle
      ends := fun last hlast hzero ↦ by
        rw [List.getLast?_eq_some_getLast hne] at hlast
        refine List.rdropWhile_last_not _ _ hne ?_
        rw [Option.some.inj hlast, hzero]
        rfl
      ne_nil := hne }

end AppImages
