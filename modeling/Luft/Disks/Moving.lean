import Luft.Lib.Extents

/-!
# Moving a partition

A partition's body is copied to its new place a chunk at a time, in the order that never writes over
what is still to be read (`chunksFrom`).  Its first and its last mebibyte are held back: deleting the
partition and creating it anew may write there, so they are written last, through the new partition.

Offsets are 64 bits and wrap around where they are added, as they do in a release build; on a device
whose end is a 64-bit offset none does.
-/

set_option autoImplicit false

namespace Disks

open Extents

/-- What all of a drive holds, byte by byte. -/
abbrev Bytes := ℕ → UInt8

/-- A block device that is open: where on the drive it begins, and how long it is. -/
structure Disk where
  base : ℕ
  size : ℕ
  fits : base + size < 18446744073709551616

def wrappingAdd (a b : ℕ) : ℕ := (a + b) % 18446744073709551616

namespace Disk

variable (disk : Disk)

def read (bytes : Bytes) (offset length : ℕ) : Except String (List UInt8) :=
  if length = 0 ∨ offset + length ≤ disk.size then .ok (slice bytes (disk.base + offset) length)
  else .error "failed to fill whole buffer"

def write (bytes : Bytes) (offset : ℕ) (written : List UInt8) : Except String Bytes :=
  if written = [] ∨ offset + written.length ≤ disk.size then
    .ok (patch bytes (disk.base + offset) written)
  else .error "No space left on device (os error 28)"

end Disk

def EDGE : ℕ := 1048576

def CHUNK : ℕ := 8388608

/-- The two ends of a partition. -/
structure Edges where
  head : List UInt8
  tail : List UInt8
  tailStart : ℕ

/-- The positions and the lengths of the chunks of a body, in order. -/
def chunksFrom (chunk start fin : ℕ) : List (ℕ × ℕ) :=
  (List.range ((fin - start + (chunk - 1)) / chunk)).map fun k ↦
    (start + k * chunk, min chunk (fin - (start + k * chunk)))

def copyChunk (disk : Disk) (source target : ℕ) (bytes : Bytes) (piece : ℕ × ℕ) :
    Except String Bytes := do
  let read ← disk.read bytes (wrappingAdd source piece.1) piece.2
  disk.write bytes (wrappingAdd target piece.1) read

/-- Copies what is between `start` and `fin` of a stretch, `chunk` bytes at a time. -/
def copyBody (chunk : ℕ) (disk : Disk) (bytes : Bytes) (source target start fin : ℕ) :
    Except String Bytes :=
  let chunks := chunksFrom chunk start fin
  (if source < target then chunks.reverse else chunks).foldlM (copyChunk disk source target) bytes

/-- Copies all of a partition but its edges, which it returns. -/
def moveBody (chunk : ℕ) (disk : Disk) (bytes : Bytes) (source target length : ℕ) :
    Except String (Edges × Bytes) := do
  let head := min length EDGE
  let tailStart := max head (length - EDGE)
  let first ← disk.read bytes source head
  let last ← disk.read bytes (wrappingAdd source tailStart) (length - tailStart)
  let bytes ← copyBody chunk disk bytes source target head tailStart
  .ok (⟨first, last, tailStart⟩, bytes)

def Edges.restore (edges : Edges) (partition : Disk) (bytes : Bytes) : Except String Bytes := do
  let bytes ← partition.write bytes 0 edges.head
  let bytes ← partition.write bytes edges.tailStart edges.tail
  let head ← partition.read bytes 0 edges.head.length
  let tail ← partition.read bytes edges.tailStart edges.tail.length
  if head = edges.head ∧ tail = edges.tail then .ok bytes
  else .error "The start of the moved partition didn't read back the same"

/-- The bytes of a partition moved to `target`: `recreate` is what deleting it and creating it there
does to the drive. -/
def shift (chunk : ℕ) (recreate : Bytes → Bytes) (disk partition : Disk) (bytes : Bytes)
    (source length : ℕ) : Except String Bytes := do
  let (edges, bytes) ← moveBody chunk disk bytes source partition.base length
  edges.restore partition (recreate bytes)

/-! ## One chunk -/

section

variable {disk : Disk} {bytes bytes' : Bytes} {source target length lo hi n chunk : ℕ}

theorem read_of_le (disk : Disk) (bytes : Bytes) {offset length : ℕ} (h : offset + length ≤ disk.size) :
    disk.read bytes offset length = .ok (slice bytes (disk.base + offset) length) :=
  if_pos (.inr h)

theorem write_of_le (disk : Disk) (bytes : Bytes) {offset : ℕ} {written : List UInt8}
    (h : offset + written.length ≤ disk.size) :
    disk.write bytes offset written = .ok (patch bytes (disk.base + offset) written) :=
  if_pos (.inr h)

theorem wrappingAdd_eq (disk : Disk) {a b : ℕ} (h : a + b ≤ disk.size) : wrappingAdd a b = a + b := by
  have := disk.fits
  exact Nat.mod_eq_of_lt (by omega)

/-- A chunk that is on the disk is copied. -/
theorem copyChunk_eq (hsource : source + lo + n ≤ disk.size) (htarget : target + lo + n ≤ disk.size) :
    copyChunk disk source target bytes (lo, n) = .ok
      (patch bytes (disk.base + target + lo) (slice bytes (disk.base + source + lo) n)) := by
  have hread := read_of_le disk bytes hsource
  rw [copyChunk, wrappingAdd_eq disk (by omega), wrappingAdd_eq disk (by omega),
    hread]
  refine (write_of_le disk bytes ?_).trans ?_
  · rwa [length_slice]
  · rw [add_assoc, add_assoc]

end

/-! ## All chunks -/

theorem chunksFrom_of_le {chunk start fin : ℕ} (hchunk : 0 < chunk) (h : fin ≤ start) :
    chunksFrom chunk start fin = [] := by
  rw [chunksFrom, Nat.sub_eq_zero_of_le h, zero_add, Nat.div_eq_of_lt (by omega), List.range_zero,
    List.map_nil]

theorem chunksFrom_of_lt {chunk start fin : ℕ} (hchunk : 0 < chunk) (h : start < fin) :
    chunksFrom chunk start fin =
      (start, min chunk (fin - start)) :: chunksFrom chunk (start + chunk) fin := by
  have hcount : (fin - start + (chunk - 1)) / chunk =
      (fin - (start + chunk) + (chunk - 1)) / chunk + 1 := by
    rcases le_or_gt fin (start + chunk) with hlast | hmore
    · rw [Nat.sub_eq_zero_of_le hlast, zero_add, Nat.div_eq_of_lt (by omega : chunk - 1 < chunk)]
      refine Nat.div_eq_of_lt_le ?_ ?_ <;> omega
    · rw [← Nat.add_div_right _ hchunk]
      congr 1
      omega
  rw [chunksFrom, hcount, List.range_succ_eq_map, List.map_cons, List.map_map, Nat.zero_mul, add_zero,
    chunksFrom]
  refine congrArg _ (List.map_congr_left fun k _ ↦ ?_)
  rw [Function.comp_apply, Nat.succ_mul, Nat.add_comm (k * chunk), ← add_assoc]

/-- The chunks of a body lie one after the other. -/
theorem tiles_chunksFrom {chunk start fin : ℕ} (hchunk : 0 < chunk) (h : start ≤ fin) :
    Tiles (chunksFrom chunk start fin) start fin := by
  induction hleft : fin - start using Nat.strongRecOn generalizing start with
  | ind left ih =>
    rcases h.eq_or_lt with rfl | hlt
    · rw [chunksFrom_of_le hchunk le_rfl]
      exact .nil
    · rw [chunksFrom_of_lt hchunk hlt]
      refine .cons ?_
      rcases le_or_gt fin (start + chunk) with hlast | hmore
      · rw [chunksFrom_of_le hchunk hlast, min_eq_right (by omega), Nat.add_sub_cancel' hlt.le]
        exact .nil
      · rw [min_eq_left (by omega)]
        exact ih _ (by omega) hmore.le rfl

section

variable {disk : Disk} {bytes : Bytes} {source target top : ℕ}

/-- Chunks of a body that moves down, in order. -/
theorem copied_up {pieces : List (ℕ × ℕ)} {start lo hi : ℕ} (h : Tiles pieces lo hi)
    (hsource : source + hi ≤ disk.size) (hdown : target ≤ source) (hlo : start ≤ lo) {bytes' : Bytes}
    (hcopied : Copied bytes bytes' (disk.base + source) (disk.base + target) start lo) :
    ∃ copied, pieces.foldlM (copyChunk disk source target) bytes' = .ok copied ∧
      Copied bytes copied (disk.base + source) (disk.base + target) start hi := by
  induction h generalizing bytes' with
  | nil => exact ⟨bytes', rfl, hcopied⟩
  | @cons lo n hi pieces h ih =>
    have hle := h.le
    obtain ⟨copied, hfold, hall⟩ := ih hsource (by omega) (hcopied.up (n := n) (by omega) hlo)
    refine ⟨copied, ?_, hall⟩
    rw [List.foldlM_cons, copyChunk_eq (by omega) (by omega)]
    exact hfold

/-- Chunks of a body that moves up, from the last to the first. -/
theorem copied_down {pieces : List (ℕ × ℕ)} {lo hi : ℕ} (h : Tiles pieces lo hi)
    (htarget : target + hi ≤ disk.size) (hup : source ≤ target) (htop : hi ≤ top) {bytes' : Bytes}
    (hcopied : Copied bytes bytes' (disk.base + source) (disk.base + target) hi top) :
    ∃ copied, pieces.reverse.foldlM (copyChunk disk source target) bytes' = .ok copied ∧
      Copied bytes copied (disk.base + source) (disk.base + target) lo top := by
  induction h generalizing bytes' with
  | nil => exact ⟨bytes', rfl, hcopied⟩
  | @cons lo n hi pieces h ih =>
    have hle := h.le
    obtain ⟨copied, hfold, hall⟩ := ih htarget htop hcopied
    refine ⟨_, ?_, hall.down (by omega) (by omega)⟩
    rw [List.reverse_cons, List.foldlM_append, hfold]
    change [(lo, n)].foldlM (copyChunk disk source target) copied = _
    rw [List.foldlM_cons, copyChunk_eq (by omega) (by omega)]
    rfl

/-- **A body is copied whole**, whatever its old and its new place share. -/
theorem copyBody_spec {chunk start fin : ℕ} (hchunk : 0 < chunk) (hle : start ≤ fin)
    (hsource : source + fin ≤ disk.size) (htarget : target + fin ≤ disk.size) (bytes : Bytes) :
    ∃ copied, copyBody chunk disk bytes source target start fin = .ok copied ∧
      Copied bytes copied (disk.base + source) (disk.base + target) start fin := by
  have htiles := tiles_chunksFrom hchunk hle
  rw [copyBody]
  split_ifs with hup
  · exact copied_down htiles htarget hup.le le_rfl (.refl _ _ _ _)
  · exact copied_up htiles hsource (not_lt.1 hup) le_rfl (.refl _ _ _ _)

end

/-! ## A partition -/

section

variable {chunk : ℕ} {recreate : Bytes → Bytes} {disk partition : Disk} {source length : ℕ}

/-- Where a partition's body is between its edges. -/
def tailStart (length : ℕ) : ℕ := max (min length EDGE) (length - EDGE)

theorem tailStart_bounds (length : ℕ) : min length EDGE ≤ tailStart length ∧
    tailStart length ≤ length := by
  rw [tailStart]
  omega

/-- The edges are read before anything is written. -/
theorem moveBody_spec (hchunk : 0 < chunk) (hsource : source + length ≤ disk.size) {target : ℕ}
    (htarget : target + length ≤ disk.size) (bytes : Bytes) :
    ∃ copied, moveBody chunk disk bytes source target length = .ok
        (⟨slice bytes (disk.base + source) (min length EDGE),
          slice bytes (disk.base + source + tailStart length) (length - tailStart length),
          tailStart length⟩, copied) ∧
      Copied bytes copied (disk.base + source) (disk.base + target) (min length EDGE)
        (tailStart length) := by
  obtain ⟨hhead, htail⟩ := tailStart_bounds length
  obtain ⟨copied, hcopy, hcopied⟩ := @copyBody_spec disk source target chunk
    (min length EDGE) (tailStart length) hchunk hhead (by omega) (by omega) bytes
  refine ⟨copied, ?_, hcopied⟩
  have hadd : wrappingAdd source (tailStart length) = source + tailStart length :=
    wrappingAdd_eq disk (by omega)
  rw [moveBody]
  change (do
    let first ← disk.read bytes source (min length EDGE)
    let last ← disk.read bytes (wrappingAdd source (tailStart length)) (length - tailStart length)
    let bytes ← copyBody chunk disk bytes source target (min length EDGE) (tailStart length)
    .ok (⟨first, last, tailStart length⟩, bytes) : Except String (Edges × Bytes)) = _
  rw [hadd, read_of_le disk bytes (by omega), read_of_le disk bytes (by omega), hcopy, add_assoc]
  rfl

/-- Edges that fit are put back, and read back the same. -/
theorem restore_spec {head tail : List UInt8} {start : ℕ} (hhead : head.length ≤ start)
    (hfits : start + tail.length ≤ partition.size) (bytes : Bytes) :
    Edges.restore ⟨head, tail, start⟩ partition bytes =
      .ok (patch (patch bytes partition.base head) (partition.base + start) tail) := by
  have hheadBack : slice (patch (patch bytes partition.base head) (partition.base + start) tail)
      partition.base head.length = head := by
    rw [slice_congr fun i hi ↦ patch_of_lt (by omega) _ _, slice_patch]
  have htailBack := slice_patch (patch bytes partition.base head) (partition.base + start) tail
  have hfirst : 0 + head.length ≤ partition.size := by omega
  simp only [Edges.restore, write_of_le _ _ hfirst, write_of_le _ _ hfits,
    read_of_le _ _ hfirst, read_of_le _ _ hfits, add_zero]
  exact if_pos ⟨hheadBack, htailBack⟩

/-- **A partition that is moved keeps its bytes**, and moving it changes nothing outside its new
place: what is there is what deleting and creating the partition left of what was there before. -/
theorem shift_spec (hchunk : 0 < chunk) (hwhole : disk.base = 0)
    (hsource : source + length ≤ disk.size) (htarget : partition.base + length ≤ disk.size)
    (hpartition : partition.size = length)
    (hrecreate : ∀ bytes a, partition.base + min length EDGE ≤ a →
      a < partition.base + tailStart length → recreate bytes a = bytes a) (bytes : Bytes) :
    ∃ edges copied shifted,
      moveBody chunk disk bytes source partition.base length = .ok (edges, copied) ∧
      shift chunk recreate disk partition bytes source length = .ok shifted ∧
      (∀ i < length, shifted (partition.base + i) = bytes (source + i)) ∧
      ∀ a, a < partition.base ∨ partition.base + length ≤ a →
        copied a = bytes a ∧ shifted a = recreate copied a := by
  obtain ⟨hhead, htail⟩ := tailStart_bounds length
  obtain ⟨copied, hmove, hcopied⟩ := moveBody_spec hchunk hsource htarget bytes
  simp only [hwhole, zero_add] at hmove hcopied
  have hshift : shift chunk recreate disk partition bytes source length =
      .ok (patch (patch (recreate copied) partition.base (slice bytes source (min length EDGE)))
        (partition.base + tailStart length)
        (slice bytes (source + tailStart length) (length - tailStart length))) := by
    rw [shift, hmove]
    exact restore_spec (by rwa [length_slice]) (by rw [length_slice]; omega) _
  refine ⟨_, copied, _, hmove, hshift, fun i hi ↦ ?_, fun a ha ↦ ⟨hcopied.rest a (by omega), ?_⟩⟩
  · rcases lt_or_ge i (tailStart length) with hbefore | htailed
    · rw [patch_of_lt (by omega)]
      rcases lt_or_ge i (min length EDGE) with hfirst | hbody
      · exact patch_slice hfirst _ _ _ _
      · rw [patch_of_ge (by rw [length_slice]; omega), hrecreate _ _ (by omega) (by omega),
          hcopied.copied i hbody hbefore]
    · obtain ⟨k, rfl⟩ := Nat.exists_eq_add_of_le htailed
      rw [← add_assoc, ← add_assoc, patch_slice (by omega)]
  · rcases ha with ha | ha
    · rw [patch_of_lt (by omega), patch_of_lt ha]
    · rw [patch_of_ge (by rw [length_slice]; omega), patch_of_ge (by rw [length_slice]; omega)]

end

/-- A drive of 16 MiB. -/
def drive : Disk := ⟨0, 16777216, by decide⟩

/-- A partition of 4 MiB on it. -/
def moved : Disk := ⟨2097152, 4194304, by decide⟩

/-- Moved up by one mebibyte, it lies for the most part where it was. -/
theorem shift_spec_overlapping : ∃ edges copied shifted,
    moveBody CHUNK drive (fun a ↦ a.toUInt8) 1048576 moved.base moved.size = .ok (edges, copied) ∧
    shift CHUNK id drive moved (fun a ↦ a.toUInt8) 1048576 moved.size = .ok shifted ∧
    (∀ i < moved.size, shifted (moved.base + i) = (1048576 + i).toUInt8) ∧
    ∀ a, a < moved.base ∨ moved.base + moved.size ≤ a →
      copied a = a.toUInt8 ∧ shifted a = id copied a :=
  shift_spec (by decide) rfl (by decide) (by decide) rfl (fun _ _ _ _ ↦ rfl) _

end Disks
