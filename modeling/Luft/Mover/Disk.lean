import Mathlib.Data.List.Pairwise
import Luft.Mover.Table

/-!
# What Luft sees of its drive

`Disk` is a drive as `parts/drive.rs` reads it: its partitions and the free segments between them.
`current` is how `requests/windows.rs` finds Luft's layout on it.

`Disk.Sound` says what holds of every drive that is read: partitions lie apart, and the free
segments are whole mebibytes between them.  What `current` can return on such a drive is collected
in `Layout.Found`.
-/

set_option autoImplicit false

namespace Mover

structure Part where
  span : Span
  device : String
  kind : String
  fsUuid : String
  uuid : String
  filesystem : String
  luksUuid : Option String
deriving DecidableEq, Repr

structure Disk where
  parts : List Part
  free : List Span

namespace Disk

variable (disk : Disk)

def at' (offset : ℕ) : Option Part := disk.parts.find? fun part ↦ part.span.offset = offset

def holding (device : String) : Option Part := disk.parts.find? fun part ↦ part.device = device

def before (offset : ℕ) : Option Part := disk.parts.find? fun part ↦ part.span.fin = offset

def freeBefore (offset : ℕ) : Option Span :=
  disk.free.find? fun span ↦ span.fin ≤ offset ∧ offset - span.fin < mib

def freeAfter (offset : ℕ) : Option Span :=
  disk.free.find? fun span ↦ offset ≤ span.offset ∧ span.offset - offset < mib

end Disk

/-- What the running system says apart from the drive: the device Luft runs from, whether its key
is at hand without a passphrase, how many devices its file system has and how much they hold. -/
structure Host where
  device : String
  key : Bool
  devices : ℕ
  allocated : ℕ

def startupOf (disk : Disk) (root : Part) : Option (Span × String) :=
  ((disk.before root.span.offset).filter fun part ↦ part.kind = startupType).map fun part ↦
    (part.span, part.uuid)

/-- Where Luft's own partitions begin. -/
def Layout.block (layout : Layout) : ℕ :=
  layout.startup.elim layout.root.offset fun startup ↦ startup.1.offset

def layoutOf (host : Host) (disk : Disk) (root : Part) : Layout :=
  let startup := startupOf disk root
  let block := startup.elim root.span.offset fun startup ↦ startup.1.offset
  { root := root.span
    rootUuid := root.uuid
    luksUuid := root.luksUuid
    startup := startup
    freeBefore := disk.freeBefore block
    freeAfter := disk.freeAfter root.span.fin
    allocated := host.allocated }

def current (host : Host) (disk : Disk) : Except String Layout :=
  match disk.holding host.device with
  | none => .error "Luft's partition isn't on its drive"
  | some root =>
    if root.filesystem ≠ "btrfs" then .error "Luft's partition doesn't hold btrfs"
    else if root.luksUuid.isSome ∧ ¬host.key then
      .error "Luft's drive only opens with a passphrase, which Luft can't type for itself"
    else if host.devices ≠ 1 then
      .error "Luft's file system already spans more than one partition"
    else .ok (layoutOf host disk root)

/-! ## Drives as they are -/

def Span.Apart (a b : Span) : Prop := a.fin ≤ b.offset ∨ b.fin ≤ a.offset

instance (a b : Span) : Decidable (a.Apart b) := inferInstanceAs (Decidable (_ ∨ _))

/-- Partitions lie apart, free segments are made of whole mebibytes and lie between them. -/
structure Disk.Sound (disk : Disk) : Prop where
  pos : ∀ part ∈ disk.parts, 0 < part.span.size
  apart : disk.parts.Pairwise fun p q ↦ p.span.Apart q.span
  free_pos : ∀ free ∈ disk.free, 0 < free.size
  free_dvd : ∀ free ∈ disk.free, mib ∣ free.offset ∧ mib ∣ free.size
  free_apart : ∀ free ∈ disk.free, ∀ part ∈ disk.parts, free.Apart part.span

def Part.entry (part : Part) : Entry := ⟨part.span.size, part.kind, some part.uuid, part.luksUuid⟩

def Disk.table (disk : Disk) : Table := fun offset ↦ (disk.at' offset).map Part.entry

namespace Disk

variable {disk : Disk} {offset : ℕ} {part : Part} {x : Entry}

theorem at'_some (h : disk.at' offset = some part) : part ∈ disk.parts ∧ part.span.offset = offset :=
  ⟨List.mem_of_find?_eq_some h, by simpa using List.find?_some h⟩

theorem holding_some {device : String} (h : disk.holding device = some part) :
    part ∈ disk.parts ∧ part.device = device :=
  ⟨List.mem_of_find?_eq_some h, by simpa using List.find?_some h⟩

theorem before_some (h : disk.before offset = some part) :
    part ∈ disk.parts ∧ part.span.fin = offset :=
  ⟨List.mem_of_find?_eq_some h, by simpa using List.find?_some h⟩

theorem freeBefore_some {span : Span} (h : disk.freeBefore offset = some span) :
    span ∈ disk.free ∧ span.fin ≤ offset ∧ offset < span.fin + mib := by
  have hp : span.fin ≤ offset ∧ offset - span.fin < mib := by simpa using List.find?_some h
  exact ⟨List.mem_of_find?_eq_some h, hp.1, by omega⟩

theorem freeAfter_some {span : Span} (h : disk.freeAfter offset = some span) :
    span ∈ disk.free ∧ offset ≤ span.offset ∧ span.offset < offset + mib := by
  have hp : offset ≤ span.offset ∧ span.offset - offset < mib := by simpa using List.find?_some h
  exact ⟨List.mem_of_find?_eq_some h, hp.1, by omega⟩

theorem table_some (h : disk.table offset = some x) :
    ∃ part ∈ disk.parts, part.span.offset = offset ∧ x = part.entry := by
  obtain ⟨part, hpart, rfl⟩ := Option.map_eq_some_iff.1 h
  exact ⟨part, (at'_some hpart).1, (at'_some hpart).2, rfl⟩

theorem Sound.forall_apart (h : disk.Sound) {p q : Part} (hp : p ∈ disk.parts)
    (hq : q ∈ disk.parts) (hne : p ≠ q) : p.span.Apart q.span := by
  have : Std.Symm fun p q : Part ↦ p.span.Apart q.span := ⟨fun _ _ ↦ Or.symm⟩
  exact h.apart.forall hp hq hne

/-- The partition that starts somewhere is the one found there. -/
theorem Sound.at'_offset (h : disk.Sound) (hpart : part ∈ disk.parts) :
    disk.at' part.span.offset = some part := by
  rcases hq : disk.at' part.span.offset with - | q
  · have := List.find?_eq_none.1 hq part hpart
    simp at this
  obtain ⟨hmem, ho⟩ := at'_some hq
  by_contra hne
  have hpos := h.pos part hpart
  have hpos' := h.pos q hmem
  rcases h.forall_apart hmem hpart (by rintro rfl; exact hne rfl) with h | h <;>
    rw [Span.fin] at h <;> omega

theorem Sound.table_offset (h : disk.Sound) (hpart : part ∈ disk.parts) :
    disk.table part.span.offset = some part.entry := by rw [table, h.at'_offset hpart]; rfl

end Disk

/-! ## What `current` finds -/

/-- Luft's layout in a partition table: what `current` returns for a sound drive. -/
structure Layout.Found (layout : Layout) (t : Table) : Prop where
  pos : ∀ o x, t o = some x → 0 < x.size
  noOverlap : NoOverlap t
  root : ∃ kind, t layout.root.offset =
    some ⟨layout.root.size, kind, some layout.rootUuid, layout.luksUuid⟩
  startup : ∀ span uuid, layout.startup = some (span, uuid) → span.fin = layout.root.offset ∧
    ∃ luks, t span.offset = some ⟨span.size, startupType, some uuid, luks⟩
  before : ∀ free, layout.freeBefore = some free →
    mib ∣ free.offset ∧ mib ∣ free.size ∧ free.fin ≤ layout.block ∧ Fits t free.offset free.fin
  after : ∀ free, layout.freeAfter = some free →
    0 < free.size ∧ layout.root.fin ≤ free.offset ∧ Fits t free.offset free.fin

theorem Disk.Sound.fits {disk : Disk} (h : disk.Sound) {free : Span} (hfree : free ∈ disk.free) :
    Fits disk.table free.offset free.fin := by
  intro o x hx
  obtain ⟨part, hpart, rfl, rfl⟩ := table_some hx
  exact (h.free_apart free hfree part hpart).symm

theorem Disk.Sound.noOverlap {disk : Disk} (h : disk.Sound) : NoOverlap disk.table := by
  intro a b x y hx hy hab
  obtain ⟨p, hp, rfl, rfl⟩ := table_some hx
  obtain ⟨q, hq, rfl, rfl⟩ := table_some hy
  exact h.forall_apart hp hq (by rintro rfl; exact hab rfl)

theorem current_ok {host : Host} {disk : Disk} {layout : Layout}
    (h : current host disk = .ok layout) :
    ∃ root, disk.holding host.device = some root ∧ layout = layoutOf host disk root := by
  unfold current at h
  split at h
  · cases h
  next root hroot =>
    split at h
    · cases h
    split at h
    · cases h
    split at h
    · cases h
    · exact ⟨root, hroot, by cases h; rfl⟩

theorem found_of_current {host : Host} {disk : Disk} {layout : Layout} (hsound : disk.Sound)
    (h : current host disk = .ok layout) : layout.Found disk.table := by
  obtain ⟨root, hroot, rfl⟩ := current_ok h
  have hmem := (Disk.holding_some hroot).1
  refine ⟨fun o x hx ↦ ?_, hsound.noOverlap, ⟨root.kind, hsound.table_offset hmem⟩, ?_, ?_, ?_⟩
  · obtain ⟨part, hpart, rfl, rfl⟩ := Disk.table_some hx
    exact hsound.pos part hpart
  · intro span uuid hstartup
    simp only [layoutOf, startupOf, Option.map_eq_some_iff, Option.filter_eq_some_iff] at hstartup
    obtain ⟨part, ⟨hbefore, hkind⟩, heq⟩ := hstartup
    obtain ⟨rfl, rfl⟩ := Prod.mk.inj heq
    obtain ⟨hpart, hfin⟩ := Disk.before_some hbefore
    refine ⟨hfin, part.luksUuid, ?_⟩
    rw [hsound.table_offset hpart, Part.entry, of_decide_eq_true hkind]
  · intro free hfree
    obtain ⟨hmem, hle, -⟩ := Disk.freeBefore_some hfree
    exact ⟨(hsound.free_dvd free hmem).1, (hsound.free_dvd free hmem).2, hle, hsound.fits hmem⟩
  · intro free hfree
    obtain ⟨hmem, hle, -⟩ := Disk.freeAfter_some hfree
    exact ⟨hsound.free_pos free hmem, hle, hsound.fits hmem⟩

end Mover
