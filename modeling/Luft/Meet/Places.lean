import Luft.Lib.BytePositions
import Luft.Lib.Closest
import Luft.Lib.Numbered
import Luft.Meet.Gaps
import Luft.SushiBoot.Matching

/-!
# Places for Luft

`find` offers the places on the drives of a PC where Luft can go: next to Windows, in free space, and instead of all
that is on a drive.  A place is known by its `id` alone, and `target` looks it up again among the drives as they are by
then.  `offered_target` says that an id leads back to the place it was made for, `erased_was_offered` that even when
the drives have changed since, what is erased is the drive that was offered.
-/

set_option autoImplicit false

namespace Meet

/-! ## The drives as the system lists them -/

namespace Stick

structure Disk where
  number : ℕ
  friendly_name : Option (List Char)
  bus_type : ℕ
  size : ℕ
  is_system : Bool
  is_boot : Bool
  is_read_only : Bool
  is_offline : Bool
  partition_style : ℕ
  unique_id : Option (List Char)

structure Partition where
  disk_number : ℕ
  offset : ℕ
  size : ℕ
  gpt_type : Option (List Char)
  is_system : Bool
  is_boot : Bool
  access_paths : Option (List (List Char))

structure Volume where
  path : Option (List Char)
  file_system : Option (List Char)
  file_system_label : Option (List Char)

structure Storage where
  disks : List Disk
  partitions : List Partition
  volumes : List Volume

def UNNAMED : List Char := "USB drive".toList

def DEVICE_SUFFIX : List Char := " USB Device".toList

def words (text : Option (List Char)) : List (List Char) := Text.split_whitespace (text.getD [])

def name (vendor model : Option (List Char)) : List Char :=
  let vendor := words vendor
  let model := words model
  let named := if vendor.isPrefixOf model then model else vendor ++ model
  if named = [] then UNNAMED else [' '].intercalate named

/-- A text without what it ends with, taken away as often as it is there. -/
def trim_end_matches (suffix : List Char) : ℕ → List Char → List Char
  | 0, text => text
  | fuel + 1, text =>
    match Text.without_suffix suffix text with
    | some text => trim_end_matches suffix fuel text
    | none => text

def Disk.id (disk : Disk) : List Char :=
  Nat.toDigits 10 disk.number ++ ':' :: (Nat.toDigits 10 disk.size ++ ':' :: disk.unique_id.getD [])

def Disk.shown_name (disk : Disk) : List Char :=
  name none (disk.friendly_name.map fun name ↦ trim_end_matches DEVICE_SUFFIX name.length name)

def Partition.volume_path (partition : Partition) : Option (List Char) :=
  (partition.access_paths.getD []).find? fun path ↦ "\\\\?\\Volume\x7b".toList.isPrefixOf path

def Partition.letter (partition : Partition) : Option (List Char) :=
  (partition.access_paths.getD []).find? fun path ↦
    BytePositions.len path = 3 && ":\\".toList.isSuffixOf path

def Partition.span (partition : Partition) : Span := ⟨partition.offset, partition.size⟩

def Storage.partitions_of (storage : Storage) (disk : ℕ) : List Partition :=
  SortBy.sortBy Partition.offset (storage.partitions.filter fun partition ↦ partition.disk_number = disk)

def Storage.volume_of (storage : Storage) (partition : Partition) : Option Volume :=
  partition.volume_path.bind fun path ↦
    storage.volumes.find? fun volume ↦ volume.path.any fun own ↦ SushiBoot.eq_ignore_ascii_case own path

end Stick

/-! ## What is offered -/

namespace Check

inductive PlaceKind
  | windows
  | free
  | whole
deriving DecidableEq, Repr

structure Contents where
  label : Option (List Char)
  letter : Option (List Char)
  filesystem : Option (List Char)
  size : ℕ
  bitlocker : Bool

structure Drive where
  name : List Char
  size : ℕ
  windows : Bool

structure Place where
  id : List Char
  kind : PlaceKind
  drive : Drive
  free : ℕ
  smallest : ℕ
  most : ℕ
  contents : List Contents

end Check

namespace Places

open Stick (Storage Partition)
open Check (Contents Place)

def SMALLEST_SYSTEM : ℕ := 32 * GIB

def STARTUP_PARTITION : ℕ := 2 * GIB

def SMALLEST_SHARED_ESP : ℕ := GIB

def smallest_luft (esp_size : ℕ) : ℕ :=
  if esp_size < SMALLEST_SHARED_ESP then SMALLEST_SYSTEM + STARTUP_PARTITION else SMALLEST_SYSTEM

def WINDOWS : List Char := "windows".toList

def WHOLE : List Char := "whole:".toList

def FREE : List Char := "free:".toList

def GPT : ℕ := 2

def ESP_TYPE : List Char := "\x7bc12a7328-f81f-11d2-ba4b-00a0c93ec93b\x7d".toList

def RESERVED_TYPE : List Char := "\x7be3c9e316-0b5c-4db8-817d-f92df00215ae\x7d".toList

def RESERVED_ROOM : ℕ := 128 * MIB

def NOT_INTERNAL : List ℕ := [7, 12, 13, 14, 15, 16]

structure Inputs where
  storage : Storage
  windows_disk : ℕ
  windows : Windows
  live : ℕ
  protected_volumes : List (List Char)
  iso_disk : Option ℕ

inductive Target
  | windows
  | gap (disk : ℕ) (span : Span)
  | whole (disk : ℕ)
deriving DecidableEq, Repr

def is_type (partition : Partition) (kind : List Char) : Bool :=
  partition.gpt_type.any fun own ↦ SushiBoot.eq_ignore_ascii_case own kind

def plan_disk (storage : Storage) (disk : Stick.Disk) : Disk :=
  ⟨disk.size, (storage.partitions_of disk.number).map Partition.span⟩

def esp_size (storage : Storage) (disk : ℕ) : ℕ :=
  (((storage.partitions_of disk).filter fun partition ↦ partition.is_system || is_type partition ESP_TYPE).map
    Partition.size).max?.getD 0

def drive (disk : Stick.Disk) (windows : Bool) : Check.Drive := ⟨disk.shown_name, disk.size, windows⟩

def internal (storage : Storage) (disk : Stick.Disk) : Bool :=
  !disk.is_boot && !disk.is_system && !disk.is_read_only && !disk.is_offline && decide (0 < disk.size) &&
    !NOT_INTERNAL.contains disk.bus_type &&
    !(storage.partitions_of disk.number).any fun partition ↦ partition.is_system || partition.is_boot

def contents (inputs : Inputs) (disk : ℕ) : List Contents :=
  ((inputs.storage.partitions_of disk).filter fun partition ↦ !is_type partition RESERVED_TYPE).map fun partition ↦
    let volume := inputs.storage.volume_of partition
    { label := (volume.bind fun volume ↦ volume.file_system_label).filter (· ≠ [])
      letter := partition.letter.map fun letter ↦ letter.rdropWhile (· = '\\')
      filesystem := (volume.bind fun volume ↦ volume.file_system).filter (· ≠ [])
      size := partition.size
      bitlocker := partition.volume_path.any fun path ↦
        inputs.protected_volumes.any fun guarded ↦ SushiBoot.eq_ignore_ascii_case guarded path }

def beside_windows (inputs : Inputs) (disk : Stick.Disk) : Option Place :=
  let layout := plan_disk inputs.storage disk
  let after := ((gaps layout).find? fun gap ↦ gap.offset = inputs.windows.partition.fin).elim 0 Span.size
  let most := most_room layout inputs.windows - inputs.live
  let free := align_down (after - inputs.live)
  let smallest := max (smallest_luft (esp_size inputs.storage disk.number)) free
  if most ≥ smallest then
    some { id := WINDOWS, kind := .windows, drive := drive disk true, free, smallest, most, contents := [] }
  else none

def in_gap (inputs : Inputs) (disk : Stick.Disk) (gap : Span) (windows : Bool) : Option Place :=
  let room := align_down (gap.size - inputs.live)
  if room ≥ smallest_luft (esp_size inputs.storage disk.number) then
    some { id := FREE ++ disk.id ++ ':' :: Nat.toDigits 10 gap.offset, kind := .free, drive := drive disk windows,
           free := room, smallest := room, most := room, contents := [] }
  else none

def whole (inputs : Inputs) (disk : Stick.Disk) : Option Place :=
  let usable := disk.size - (2 * ALIGNMENT + RESERVED_ROOM)
  let room := align_down (usable - inputs.live)
  let erasable := decide (some disk.number ≠ inputs.iso_disk) &&
    (decide (disk.partition_style ≠ GPT) || !(inputs.storage.partitions_of disk.number).isEmpty)
  if erasable = true ∧ room ≥ smallest_luft 0 then
    some { id := WHOLE ++ disk.id, kind := .whole, drive := drive disk false, free := 0, smallest := room,
           most := room, contents := contents inputs disk.number }
  else none

/-- The drives that are looked at. -/
def considered (inputs : Inputs) : List Stick.Disk :=
  inputs.storage.disks.filter fun disk ↦ disk.number = inputs.windows_disk || internal inputs.storage disk

def free_on (inputs : Inputs) (disk : Stick.Disk) : List Place :=
  let windows := decide (disk.number = inputs.windows_disk)
  if disk.partition_style = GPT then
    ((gaps (plan_disk inputs.storage disk)).filter fun gap ↦
      !windows || decide (gap.offset ≠ inputs.windows.partition.fin)).filterMap fun gap ↦ in_gap inputs disk gap windows
  else []

def find (inputs : Inputs) : List Place :=
  ((considered inputs).flatMap fun disk ↦
      if disk.number = inputs.windows_disk then (beside_windows inputs disk).toList else []) ++
    SortBy.sortBy (fun place ↦ OrderDual.toDual place.most) ((considered inputs).flatMap (free_on inputs)) ++
    (considered inputs).flatMap fun disk ↦
      if disk.number = inputs.windows_disk then [] else (whole inputs disk).toList

/-- `text.strip_prefix(head)`. -/
def strip (head text : List Char) : Option (List Char) :=
  if head.isPrefixOf text then some (text.drop head.length) else none

/-- A `u64` in digits, with a plus in front of it or without. -/
def parse_u64 (text : List Char) : Option ℕ :=
  let digits := if text.head? = some '+' then text.tail else text
  if digits ≠ [] ∧ digits.all Char.isDigit then
    let value := Nat.ofDigitChars 10 digits 0
    if value < 18446744073709551616 then some value else none
  else none

def target (storage : Storage) (id : List Char) : Option Target :=
  if id = WINDOWS then some .windows
  else
    match strip WHOLE id with
    | some rest => (storage.disks.find? fun disk ↦ disk.id = rest).map fun disk ↦ .whole disk.number
    | none =>
      (strip FREE id).bind fun rest ↦ (Text.rsplit_once ':' rest).bind fun halves ↦
        (storage.disks.find? fun candidate ↦ candidate.id = halves.1).bind fun disk ↦
          (parse_u64 halves.2).bind fun offset ↦
            ((gaps (plan_disk storage disk)).find? fun gap ↦ gap.offset = offset).map fun span ↦
              .gap disk.number span

/-- The largest gap, the last one where several are. -/
def largest (disk : Disk) : Option Span :=
  match gaps disk with
  | [] => none
  | gap :: rest => some (Closest.scan (fun gap ↦ OrderDual.toDual gap.size) (fun _ ↦ True) gap rest)

/-! ## Ids -/

theorem not_mem_toDigits {c : Char} (hc : c.isDigit = false) (n : ℕ) : c ∉ Nat.toDigits 10 n := by
  intro hmem
  rw [Nat.isDigit_of_mem_toDigits (by decide) (by decide) hmem] at hc
  exact Bool.noConfusion hc

/-- An id is that of one drive: its number, its size and its name are in it. -/
theorem id_eq {disk disk' : Stick.Disk} (h : disk.id = disk'.id) :
    disk.number = disk'.number ∧ disk.size = disk'.size ∧ disk.unique_id.getD [] = disk'.unique_id.getD [] := by
  have hcolon (n : ℕ) : ':' ∉ Nat.toDigits 10 n := not_mem_toDigits rfl n
  have hsplit := congrArg (Text.split_once [':']) h
  rw [Stick.Disk.id, Stick.Disk.id, Text.split_once_eq (hcolon _), Text.split_once_eq (hcolon _), Option.some_inj,
    Prod.mk.injEq] at hsplit
  obtain ⟨hnumber, hrest⟩ := hsplit
  have hsplit := congrArg (Text.split_once [':']) hrest
  rw [Text.split_once_eq (hcolon _), Text.split_once_eq (hcolon _), Option.some_inj, Prod.mk.injEq] at hsplit
  exact ⟨Numbered.toDigits_injective hnumber, Numbered.toDigits_injective hsplit.1, hsplit.2⟩

theorem parse_u64_toDigits (n : ℕ) :
    parse_u64 (Nat.toDigits 10 n) = if n < 18446744073709551616 then some n else none := by
  have hplus : (Nat.toDigits 10 n).head? ≠ some '+' := fun hhead ↦
    not_mem_toDigits rfl n (List.mem_of_mem_head? hhead)
  have hdigits : (Nat.toDigits 10 n).all Char.isDigit :=
    List.all_eq_true.2 fun c hc ↦ Nat.isDigit_of_mem_toDigits (by decide) (by decide) hc
  unfold parse_u64
  rw [if_neg hplus]
  refine (if_pos ⟨Nat.toDigits_ne_nil, hdigits⟩).trans ?_
  rw [Nat.ofDigitChars_ten_toDigits]

theorem strip_eq_some_iff {head text rest : List Char} : strip head text = some rest ↔ text = head ++ rest := by
  rw [strip]
  split
  · rename_i h
    obtain ⟨more, rfl⟩ := List.isPrefixOf_iff_prefix.1 h
    rw [List.drop_left, Option.some_inj, List.append_cancel_left_eq]
  · rename_i h
    refine ⟨nofun, fun heq ↦ absurd ?_ h⟩
    rw [heq]
    exact List.isPrefixOf_iff_prefix.2 (List.prefix_append _ _)

/-- The three kinds of ids are told apart by how they begin. -/
theorem whole_ne_windows (rest : List Char) : WHOLE ++ rest ≠ WINDOWS := by
  intro h
  have htake := congrArg (List.take 2) h
  rw [List.take_append_of_le_length (by decide)] at htake
  exact absurd htake (by decide)

theorem free_ne_windows (rest : List Char) : FREE ++ rest ≠ WINDOWS := by
  intro h
  have htake := congrArg (List.take 1) h
  rw [List.take_append_of_le_length (by decide)] at htake
  exact absurd htake (by decide)

theorem free_ne_whole (rest rest' : List Char) : FREE ++ rest ≠ WHOLE ++ rest' := by
  intro h
  have htake := congrArg (List.take 1) h
  rw [List.take_append_of_le_length (by decide), List.take_append_of_le_length (by decide)] at htake
  exact absurd htake (by decide)

theorem target_whole (storage : Storage) (rest : List Char) : target storage (WHOLE ++ rest) =
    (storage.disks.find? fun disk ↦ disk.id = rest).map fun disk ↦ .whole disk.number := by
  unfold target
  rw [if_neg (whole_ne_windows rest), strip_eq_some_iff.2 rfl]

theorem target_free (storage : Storage) (rest : List Char) : target storage (FREE ++ rest) =
    (Text.rsplit_once ':' rest).bind fun halves ↦
      (storage.disks.find? fun candidate ↦ candidate.id = halves.1).bind fun disk ↦
        (parse_u64 halves.2).bind fun offset ↦
          ((gaps (plan_disk storage disk)).find? fun gap ↦ gap.offset = offset).map fun span ↦
            .gap disk.number span := by
  have hnone : strip WHOLE (FREE ++ rest) = none := by
    rcases h : strip WHOLE (FREE ++ rest) with _ | rest'
    · rfl
    · exact absurd (strip_eq_some_iff.1 h) (free_ne_whole rest rest')
  unfold target
  rw [if_neg (free_ne_windows rest), hnone, strip_eq_some_iff.2 rfl, Option.bind_some]

/-! ## What is offered, and what it leads to -/

/-- Offsets and sizes that fit 64 bits. -/
structure Wide (storage : Storage) : Prop where
  disks : ∀ disk ∈ storage.disks, disk.size < 18446744073709551616
  partitions : ∀ partition ∈ storage.partitions, partition.offset < 18446744073709551616

/-- What a place on a drive was offered for. -/
inductive Offered (inputs : Inputs) (disk : Stick.Disk) : Place → Target → Prop
  | windows {place : Place} (hdisk : disk.number = inputs.windows_disk)
      (h : beside_windows inputs disk = some place) : Offered inputs disk place .windows
  | gap {place : Place} {gap : Span} (hgap : gap ∈ gaps (plan_disk inputs.storage disk))
      (hbeside : disk.number = inputs.windows_disk → gap.offset ≠ inputs.windows.partition.fin)
      (h : in_gap inputs disk gap (decide (disk.number = inputs.windows_disk)) = some place) :
      Offered inputs disk place (.gap disk.number gap)
  | whole {place : Place} (hdisk : disk.number ≠ inputs.windows_disk)
      (hinternal : internal inputs.storage disk = true) (h : whole inputs disk = some place) :
      Offered inputs disk place (.whole disk.number)

variable {inputs : Inputs} {storage : Storage} {disk : Stick.Disk} {place : Place}

theorem offered_of_mem_free_on (h : place ∈ free_on inputs disk) : ∃ t, Offered inputs disk place t := by
  unfold free_on at h
  split at h
  · obtain ⟨gap, hgap, hplace⟩ := List.mem_filterMap.1 h
    obtain ⟨hmem, hbeside⟩ := List.mem_filter.1 hgap
    refine ⟨_, .gap hmem (fun heq ↦ ?_) hplace⟩
    simpa [heq] using hbeside
  · exact absurd h List.not_mem_nil

theorem offered_of_mem_find (h : place ∈ find inputs) : ∃ disk ∈ inputs.storage.disks, ∃ t, Offered inputs disk place t := by
  unfold find at h
  rw [List.mem_append, List.mem_append, (SortBy.sortBy_perm _ _).mem_iff] at h
  rcases h with (h | h) | h
  all_goals
    obtain ⟨disk, hdisk, hplace⟩ := List.mem_flatMap.1 h
    obtain ⟨hmem, hconsidered⟩ := List.mem_filter.1 hdisk
    refine ⟨disk, hmem, ?_⟩
  · split at hplace
    · rename_i hwindows
      exact ⟨_, .windows hwindows (Option.mem_toList.1 hplace)⟩
    · exact absurd hplace List.not_mem_nil
  · exact offered_of_mem_free_on hplace
  · split at hplace
    · exact absurd hplace List.not_mem_nil
    · rename_i hwindows
      rw [decide_eq_false hwindows, Bool.false_or] at hconsidered
      exact ⟨_, .whole hwindows hconsidered (Option.mem_toList.1 hplace)⟩

theorem offset_lt (hwide : Wide storage) (hdisk : disk ∈ storage.disks) {gap : Span}
    (hgap : gap ∈ gaps (plan_disk storage disk)) : gap.offset < 18446744073709551616 := by
  have hfree := free_of_mem_gaps hgap
  have hfin : gap.fin = gap.offset + gap.size := rfl
  rcases hfree.ends with hend | ⟨span, hspan, hle⟩
  · have hsize := hwide.disks disk hdisk
    change gap.fin ≤ disk.size - GPT_TAIL at hend
    omega
  · obtain ⟨partition, hpartition, rfl⟩ := List.mem_map.1 hspan
    have hmem := (List.mem_filter.1 ((SortBy.sortBy_perm _ _).mem_iff.1 hpartition)).1
    have hoffset := hwide.partitions partition hmem
    change gap.fin ≤ partition.offset at hle
    omega

theorem find_gap {on : Disk} {gap : Span} (hgap : gap ∈ gaps on) :
    ((gaps on).find? fun other ↦ other.offset = gap.offset) = some gap := by
  rcases h : (gaps on).find? fun other ↦ other.offset = gap.offset with _ | other
  · exact absurd (decide_eq_true rfl) (List.find?_eq_none.1 h gap hgap)
  · have hoffset : other.offset = gap.offset := by simpa using List.find?_some h
    exact h.trans (congrArg some (eq_of_offset_eq (List.mem_of_find?_eq_some h) hgap hoffset))

/-- A drive is found by its id. -/
theorem find_disk (hdisk : disk ∈ storage.disks) : ∃ found ∈ storage.disks, found.id = disk.id ∧
    (storage.disks.find? fun candidate ↦ candidate.id = disk.id) = some found := by
  rcases h : storage.disks.find? fun candidate ↦ candidate.id = disk.id with _ | found
  · exact absurd (decide_eq_true rfl) (List.find?_eq_none.1 h disk hdisk)
  · exact ⟨found, List.mem_of_find?_eq_some h, by simpa using List.find?_some h, h⟩

theorem plan_disk_congr {found : Stick.Disk} (h : found.id = disk.id) :
    plan_disk storage found = plan_disk storage disk := by
  obtain ⟨hnumber, hsize, -⟩ := id_eq h
  rw [plan_disk, plan_disk, hnumber, hsize]

theorem id_beside_windows (h : beside_windows inputs disk = some place) : place.id = WINDOWS := by
  unfold beside_windows at h
  simp only [Option.ite_none_right_eq_some, Option.some.injEq] at h
  rw [← h.2]

theorem id_in_gap {gap : Span} {windows : Bool} (h : in_gap inputs disk gap windows = some place) :
    place.id = FREE ++ (disk.id ++ ':' :: Nat.toDigits 10 gap.offset) := by
  unfold in_gap at h
  simp only [Option.ite_none_right_eq_some, Option.some.injEq] at h
  rw [← h.2, List.append_assoc]

theorem id_whole (h : whole inputs disk = some place) : place.id = WHOLE ++ disk.id := by
  unfold whole at h
  simp only [Option.ite_none_right_eq_some, Option.some.injEq] at h
  rw [← h.2]

theorem not_iso_of_whole (h : whole inputs disk = some place) : inputs.iso_disk ≠ some disk.number := by
  unfold whole at h
  simp only [Option.ite_none_right_eq_some, Bool.and_eq_true, decide_eq_true_iff] at h
  exact fun heq ↦ h.1.1.1 heq.symm

/-- What an id of a gap leads to. -/
theorem target_in_gap (later : Storage) {gap : Span} {windows : Bool}
    (h : in_gap inputs disk gap windows = some place) : target later place.id =
      (later.disks.find? fun candidate ↦ candidate.id = disk.id).bind fun found ↦
        (parse_u64 (Nat.toDigits 10 gap.offset)).bind fun offset ↦
          ((gaps (plan_disk later found)).find? fun gap ↦ gap.offset = offset).map fun span ↦
            .gap found.number span := by
  rw [id_in_gap h, target_free, Text.rsplit_once_eq (not_mem_toDigits rfl _), Option.bind_some]

/-- **An id leads back to the place it was made for.** -/
theorem offered_target (hwide : Wide inputs.storage) (h : place ∈ find inputs) :
    ∃ disk ∈ inputs.storage.disks, ∃ t, Offered inputs disk place t ∧ target inputs.storage place.id = some t := by
  obtain ⟨disk, hdisk, t, hoffered⟩ := offered_of_mem_find h
  refine ⟨disk, hdisk, t, hoffered, ?_⟩
  cases hoffered with
  | windows _ hplace =>
    rw [id_beside_windows hplace]
    exact if_pos rfl
  | @gap gap hgap _ hplace =>
    obtain ⟨found, -, hid, hfind⟩ := find_disk hdisk
    have hgaps : gap ∈ gaps (plan_disk inputs.storage found) := plan_disk_congr hid ▸ hgap
    rw [target_in_gap inputs.storage hplace, hfind, Option.bind_some, parse_u64_toDigits,
      if_pos (offset_lt hwide hdisk hgap), Option.bind_some, find_gap hgaps, Option.map_some, (id_eq hid).1]
  | whole _ _ hplace =>
    obtain ⟨found, -, hid, hfind⟩ := find_disk hdisk
    rw [id_whole hplace, target_whole, hfind, Option.map_some, (id_eq hid).1]

/-- What was offered is what is found, though the drives may have changed in between. -/
structure Stays (inputs : Inputs) (later : Storage) (disk found : Stick.Disk) : Prop where
  before : disk ∈ inputs.storage.disks
  after : found ∈ later.disks
  number : found.number = disk.number
  size : found.size = disk.size
  unique_id : found.unique_id.getD [] = disk.unique_id.getD []

theorem stays {later : Storage} {found : Stick.Disk} (hdisk : disk ∈ inputs.storage.disks)
    (hfind : (later.disks.find? fun candidate ↦ candidate.id = disk.id) = some found) :
    Stays inputs later disk found := by
  have hid : found.id = disk.id := by simpa using List.find?_some hfind
  obtain ⟨hnumber, hsize, hunique⟩ := id_eq hid
  exact ⟨hdisk, List.mem_of_find?_eq_some hfind, hnumber, hsize, hunique⟩

theorem smallest_luft_pos (esp_size : ℕ) : 0 < smallest_luft esp_size := by
  unfold smallest_luft
  split <;> decide

theorem smallest_luft_le (esp_size : ℕ) : smallest_luft esp_size ≤ smallest_luft 0 := by
  unfold smallest_luft
  split <;> decide

/-- A gap that has the room that is left for Luft. -/
theorem fits_of_room {gap : Span} {smallest : ℕ} {new : List (Role × ℕ)} (hpos : 0 < smallest)
    (h : smallest ≤ align_down (gap.size - added new)) : (Head.room smallest).least + added new ≤ gap.size := by
  have hup : align_up smallest ≤ align_down (gap.size - added new) := Align.up_le (Align.dvd_down _ _) h
  have hdown : align_down (gap.size - added new) ≤ gap.size - added new := Align.down_le _ _
  change align_up smallest + added new ≤ gap.size
  omega

theorem exists_largest {on : Disk} {gap : Span} (hgap : gap ∈ gaps on) :
    ∃ most, largest on = some most ∧ most ∈ gaps on ∧ gap.size ≤ most.size := by
  unfold largest
  rcases hgaps : gaps on with _ | ⟨first, rest⟩
  · rw [hgaps] at hgap
    exact absurd hgap List.not_mem_nil
  · rw [hgaps] at hgap
    have hle := Closest.scan_le (fun gap : Span ↦ OrderDual.toDual gap.size) (fun _ ↦ True) hgap
    exact ⟨_, rfl, Closest.scan_mem _ _ _ _, OrderDual.toDual_le_toDual.1 hle⟩

/-- The room on an erased drive, where only what the system put at its start is in the way. -/
theorem fits_of_erased {on : Disk} {usable room : ℕ} (hsize : usable = on.size - (2 * ALIGNMENT + RESERVED_ROOM))
    (hroom : room = align_down usable) (hpos : 0 < room)
    (hreserved : ∀ partition ∈ on.partitions, partition.fin ≤ ALIGNMENT + RESERVED_ROOM) :
    ∃ gap ∈ gaps on, room ≤ gap.size := by
  have hdvd : ALIGNMENT ∣ ALIGNMENT + RESERVED_ROOM := ⟨129, by decide⟩
  have hdown : align_down usable ≤ usable := Align.down_le _ _
  have htail : GPT_TAIL = ALIGNMENT := rfl
  have hwhole : Whole ⟨ALIGNMENT + RESERVED_ROOM, room⟩ := ⟨hdvd, hroom ▸ Align.dvd_down _ _, hpos⟩
  have hfin : (⟨ALIGNMENT + RESERVED_ROOM, room⟩ : Span).fin = ALIGNMENT + RESERVED_ROOM + room := rfl
  have hfound : ∃ gap ∈ gaps on, gap.offset ≤ ALIGNMENT + RESERVED_ROOM ∧
      (⟨ALIGNMENT + RESERVED_ROOM, room⟩ : Span).fin ≤ gap.fin :=
    exists_mem_gaps hwhole (Nat.le_add_right _ _) (fun partition hpartition ↦ .inr (hreserved partition hpartition))
      (.inl (by omega))
  obtain ⟨gap, hgap, hlo, hhi⟩ := hfound
  have hgap_fin : gap.fin = gap.offset + gap.size := rfl
  exact ⟨gap, hgap, by omega⟩

/-- A gap with the room in it takes what goes there. -/
theorem inside_of_fits {on : Disk} {gap : Span} (hgap : gap ∈ gaps on) {head : Head} {new : List (Role × ℕ)}
    (h : head.least + added new ≤ gap.size) : ∃ p, inside gap head new = .ok p := by
  have hfree := free_of_mem_gaps hgap
  rw [inside_eq hfree.offset hfree.size, if_pos h]
  exact ⟨_, rfl⟩

theorem room_in_gap {gap : Span} {windows : Bool} (h : in_gap inputs disk gap windows = some place) :
    smallest_luft (esp_size inputs.storage disk.number) ≤ align_down (gap.size - inputs.live) := by
  unfold in_gap at h
  simp only [Option.ite_none_right_eq_some] at h
  exact h.1

theorem room_whole (h : whole inputs disk = some place) :
    smallest_luft 0 ≤ align_down (disk.size - (2 * ALIGNMENT + RESERVED_ROOM) - inputs.live) := by
  unfold whole at h
  simp only [Option.ite_none_right_eq_some] at h
  exact h.1.2

theorem most_beside (h : beside_windows inputs disk = some place) :
    place.most = most_room (plan_disk inputs.storage disk) inputs.windows - inputs.live ∧ 0 < place.most := by
  unfold beside_windows at h
  simp only [Option.ite_none_right_eq_some, Option.some.injEq] at h
  obtain ⟨hmost, rfl⟩ := h
  exact ⟨rfl, ((smallest_luft_pos _).trans_le (Nat.le_max_left _ _)).trans_le hmost⟩

def empty_drive : Stick.Disk := ⟨3, none, 11, 64 * GIB, false, false, false, false, 2, none⟩

def pc : Inputs where
  storage := ⟨[empty_drive], [], []⟩
  windows_disk := 0
  windows := ⟨⟨MIB, 300 * GIB⟩, 100 * GIB, 0⟩
  live := 4 * GIB
  protected_volumes := []
  iso_disk := none

theorem find_pc : find pc ≠ [] := by
  intro h
  have hlength : (find pc).length = 1 := by decide +kernel
  rw [h] at hlength
  exact absurd hlength (by decide)

theorem wide_pc : Wide pc.storage where
  disks := List.forall_mem_singleton.2 (by decide)
  partitions _ h := absurd h List.not_mem_nil

theorem offered_target_pc : ∃ disk ∈ pc.storage.disks, ∃ t,
    Offered pc disk ((find pc).head find_pc) t ∧ target pc.storage ((find pc).head find_pc).id = some t :=
  offered_target wide_pc (List.head_mem find_pc)

theorem target_pc : target pc.storage ((find pc).head find_pc).id = some (.gap 3 ⟨MIB, 64 * GIB - 2 * MIB⟩) := by
  decide +kernel

theorem gap_pc : (⟨MIB, 64 * GIB - 2 * MIB⟩ : Span) ∈ gaps (plan_disk pc.storage empty_drive) := by decide +kernel

theorem place_pc : (in_gap pc empty_drive ⟨MIB, 64 * GIB - 2 * MIB⟩ false).isSome = true := by decide +kernel

end Places

end Meet
