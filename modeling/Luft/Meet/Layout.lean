import Luft.Lib.Align
import Luft.Lib.Extents
import Mathlib.Data.List.MinMax
import Mathlib.Data.List.Pairwise
import Mathlib.Logic.Relation
import Mathlib.Algebra.BigOperators.Ring.List
import Mathlib.Algebra.Ring.Nat

/-!
# Making room next to Windows

Meet takes the room for Luft from the end of Windows' partition and puts the partitions it needs behind that room, up
to the next partition.  `plan` says how; `plan_ok` and `plan_error` say when it can, and what is where then.  A drive on
which a plan has been carried out is a drive again (`Drive.after`), so the same holds for the plans that come later.
-/

set_option autoImplicit false

namespace Meet

def MIB : ℕ := 1048576

def GIB : ℕ := 1073741824

def ALIGNMENT : ℕ := MIB

def GPT_TAIL : ℕ := ALIGNMENT

def WINDOWS_HEADROOM : ℕ := 20 * GIB

def align_up (bytes : ℕ) : ℕ := Align.up ALIGNMENT bytes

def align_down (bytes : ℕ) : ℕ := Align.down ALIGNMENT bytes

inductive Role
  | start
  | live
  | movingBox
deriving DecidableEq, Repr

structure Span where
  offset : ℕ
  size : ℕ
deriving DecidableEq, Repr

def Span.fin (span : Span) : ℕ := span.offset + span.size

structure Disk where
  size : ℕ
  partitions : List Span

structure Windows where
  partition : Span
  used : ℕ
  supported_min : ℕ

structure NewPartition where
  role : Role
  span : Span
deriving DecidableEq, Repr

structure Plan where
  windows_size : Option ℕ
  partitions : List NewPartition
  room : Span
deriving DecidableEq, Repr

structure Shortfall where
  needed : ℕ
  available : ℕ
deriving DecidableEq, Repr

/-! ## As the source computes it -/

def smallest_windows (used supported : ℕ) : ℕ := align_up (max (used + max WINDOWS_HEADROOM (used / 10)) supported)

def Windows.smallest (windows : Windows) : ℕ :=
  min (smallest_windows windows.used windows.supported_min) windows.partition.size

def free_end (disk : Disk) (after : ℕ) : ℕ :=
  ((disk.partitions.map Span.offset).filter (after ≤ ·)).min?.getD (disk.size - GPT_TAIL)

def most_room (disk : Disk) (windows : Windows) : ℕ :=
  align_down (free_end disk windows.partition.fin) - (windows.partition.offset + windows.smallest)

def added (new : List (Role × ℕ)) : ℕ := (new.map fun part ↦ align_up part.2).sum

/-- One behind the other, from the cursor on. -/
def placed : ℕ → List (Role × ℕ) → List NewPartition
  | _, [] => []
  | cursor, (role, size) :: new => ⟨role, ⟨cursor, align_up size⟩⟩ :: placed (cursor + align_up size) new

def plan (disk : Disk) (windows : Windows) (luft : ℕ) (new : List (Role × ℕ)) : Except Shortfall Plan :=
  let fin := align_down (free_end disk windows.partition.fin)
  let needed := added new + align_up luft
  let available := most_room disk windows
  if fin < added new then .error ⟨needed, available⟩
  else
    let room_end := fin - added new
    let latest := room_end - align_up luft
    let windows_end := if latest ≥ windows.partition.fin then windows.partition.fin else align_down latest
    let windows_size := windows_end - windows.partition.offset
    if windows_size < windows.smallest ∨ room_end < align_up luft then .error ⟨needed, available⟩
    else .ok
      { windows_size := if windows_size < windows.partition.size then some windows_size else none
        partitions := placed room_end new
        room := ⟨windows_end, room_end - windows_end⟩ }

/-! ## Drives -/

def Span.Apart (a b : Span) : Prop := a.fin ≤ b.offset ∨ b.fin ≤ a.offset

instance (a b : Span) : Decidable (a.Apart b) := inferInstanceAs (Decidable (_ ∨ _))

/-- A drive with Windows on it, with the partitions Meet has made there and those of others.  They do not overlap, and
they leave the table at the end of the drive alone. -/
structure Drive where
  disk : Disk
  windows : Windows
  made : List Span
  foreign : List Span
  listed : disk.partitions.Perm (windows.partition :: (made ++ foreign))
  apart : (windows.partition :: (made ++ foreign)).Pairwise Span.Apart
  windows_pos : 0 < windows.partition.size
  inside : ∀ span ∈ windows.partition :: (made ++ foreign), span.fin + GPT_TAIL ≤ disk.size

theorem alignment_pos : 0 < ALIGNMENT := by decide

theorem dvd_align_up (bytes : ℕ) : ALIGNMENT ∣ align_up bytes := Align.dvd_up _ _

theorem dvd_added (new : List (Role × ℕ)) : ALIGNMENT ∣ added new := by
  refine List.dvd_sum fun size hsize ↦ ?_
  obtain ⟨part, -, rfl⟩ := List.mem_map.1 hsize
  exact dvd_align_up part.2

/-! ## The end of the free space -/

theorem free_end_cases (disk : Disk) (after : ℕ) :
    (∃ span ∈ disk.partitions, after ≤ span.offset ∧ free_end disk after = span.offset) ∨
      (∀ span ∈ disk.partitions, span.offset < after) ∧ free_end disk after = disk.size - GPT_TAIL := by
  rw [free_end]
  rcases h : ((disk.partitions.map Span.offset).filter (after ≤ ·)).min? with _ | offset
  · rw [List.min?_eq_none_iff, List.filter_eq_nil_iff] at h
    refine .inr ⟨fun span hspan ↦ ?_, Option.getD_none⟩
    have hnot := h _ (List.mem_map_of_mem hspan)
    rwa [decide_eq_true_iff, not_le] at hnot
  · have hmem := List.min?_mem h
    rw [List.mem_filter, List.mem_map, decide_eq_true_iff] at hmem
    obtain ⟨⟨span, hspan, rfl⟩, hle⟩ := hmem
    exact .inl ⟨span, hspan, hle, Option.getD_some⟩

theorem free_end_le {disk : Disk} {after : ℕ} {span : Span} (hspan : span ∈ disk.partitions)
    (hafter : after ≤ span.offset) : free_end disk after ≤ span.offset := by
  rw [free_end]
  have hmem : span.offset ∈ (disk.partitions.map Span.offset).filter (after ≤ ·) :=
    List.mem_filter.2 ⟨List.mem_map_of_mem hspan, decide_eq_true hafter⟩
  rcases h : ((disk.partitions.map Span.offset).filter (after ≤ ·)).min? with _ | offset
  · rw [List.min?_eq_none_iff.1 h] at hmem
    exact absurd hmem List.not_mem_nil
  · exact (List.min?_eq_some_iff.1 h).2 _ hmem

theorem free_end_congr {disk disk' : Disk} {after after' : ℕ} (hsize : disk.size = disk'.size)
    (h : ∀ span, span ∈ disk.partitions ∧ after ≤ span.offset ↔ span ∈ disk'.partitions ∧ after' ≤ span.offset) :
    free_end disk after = free_end disk' after' := by
  rcases free_end_cases disk after with ⟨span, hspan, hle, heq⟩ | ⟨hnone, heq⟩
  · obtain ⟨hspan', hle'⟩ := (h span).1 ⟨hspan, hle⟩
    refine Nat.le_antisymm ?_ (heq ▸ free_end_le hspan' hle')
    rcases free_end_cases disk' after' with ⟨other, hother, hother_le, hother_eq⟩ | ⟨hnone, -⟩
    · obtain ⟨hmem, hle⟩ := (h other).2 ⟨hother, hother_le⟩
      exact hother_eq ▸ free_end_le hmem hle
    · exact absurd hle' (Nat.not_le.2 (hnone span hspan'))
  · rcases free_end_cases disk' after' with ⟨other, hother, hother_le, -⟩ | ⟨-, heq'⟩
    · obtain ⟨hmem, hle⟩ := (h other).2 ⟨hother, hother_le⟩
      exact absurd hle (Nat.not_le.2 (hnone other hmem))
    · rw [heq, heq', hsize]

namespace Drive

variable (drive : Drive)

/-- Where what is planned ends. -/
def fin : ℕ := align_down (free_end drive.disk drive.windows.partition.fin)

theorem mem_partitions {span : Span} :
    span ∈ drive.disk.partitions ↔ span = drive.windows.partition ∨ span ∈ drive.made ++ drive.foreign := by
  rw [drive.listed.mem_iff, List.mem_cons]

theorem windows_apart {span : Span} (h : span ∈ drive.made ++ drive.foreign) :
    drive.windows.partition.Apart span := (List.pairwise_cons.1 drive.apart).1 span h

theorem dvd_fin : ALIGNMENT ∣ drive.fin := Align.dvd_down _ _

theorem fin_inside : drive.fin + GPT_TAIL ≤ drive.disk.size := by
  have hdown : drive.fin ≤ free_end drive.disk drive.windows.partition.fin := Align.down_le _ _
  have hwindows := drive.inside _ List.mem_cons_self
  rcases free_end_cases drive.disk drive.windows.partition.fin with ⟨span, hspan, -, heq⟩ | ⟨-, heq⟩
  · have hinside := drive.inside span (drive.listed.mem_iff.1 hspan)
    rw [Span.fin] at hinside
    omega
  · omega

/-- Another partition is in front of Windows or behind what is planned. -/
theorem outside {span : Span} (h : span ∈ drive.made ++ drive.foreign) :
    span.fin ≤ drive.windows.partition.offset ∨ drive.fin ≤ span.offset := by
  rcases drive.windows_apart h with hbehind | hfront
  · refine .inr (Nat.le_trans (Align.down_le _ _) (free_end_le ?_ hbehind))
    exact drive.mem_partitions.2 (.inr h)
  · exact .inl hfront

/-- The room Luft's partition and the new ones take from the drive. -/
def needed (luft : ℕ) (new : List (Role × ℕ)) : ℕ := added new + align_up luft

/-- What Windows' partition cannot be moved below. -/
def floor : ℕ := drive.windows.partition.offset + drive.windows.smallest

theorem smallest_le : drive.windows.smallest ≤ drive.windows.partition.size := Nat.min_le_right _ _

theorem smallest_pos : 0 < drive.windows.smallest := by
  refine Nat.lt_min.2 ⟨?_, drive.windows_pos⟩
  refine Nat.lt_of_lt_of_le ?_ (Align.le_up alignment_pos _)
  have hgib : 0 < WINDOWS_HEADROOM := by decide
  have hmax := Nat.le_max_left WINDOWS_HEADROOM (drive.windows.used / 10)
  exact Nat.lt_of_lt_of_le (by omega) (Nat.le_max_left _ _)

end Drive

/-! ## What is placed -/

/-- Where a partition starts, and how much room it takes. -/
def NewPartition.stretch (new : NewPartition) : ℕ × ℕ := (new.span.offset, new.span.size)

theorem placed_tiles (new : List (Role × ℕ)) (cursor : ℕ) :
    Extents.Tiles ((placed cursor new).map NewPartition.stretch) cursor (cursor + added new) := by
  induction new generalizing cursor with
  | nil => exact .nil
  | cons part new ih =>
    refine .cons ?_
    rw [added, List.map_cons, List.sum_cons, ← Nat.add_assoc]
    exact ih _

theorem placed_asked (new : List (Role × ℕ)) (cursor : ℕ) :
    (placed cursor new).map (fun part ↦ (part.role, part.span.size)) =
      new.map fun part ↦ (part.1, align_up part.2) := by
  induction new generalizing cursor with
  | nil => rfl
  | cons part new ih => exact congrArg (_ :: ·) (ih _)

theorem added_append (new new' : List (Role × ℕ)) : added (new ++ new') = added new + added new' := by
  rw [added, List.map_append, List.sum_append, ← added, ← added]

theorem placed_append (new new' : List (Role × ℕ)) (cursor : ℕ) :
    placed cursor (new ++ new') = placed cursor new ++ placed (cursor + added new) new' := by
  induction new generalizing cursor with
  | nil => rfl
  | cons part new ih =>
    rw [added, List.map_cons, List.sum_cons, ← added, ← Nat.add_assoc]
    exact congrArg (_ :: ·) (ih _)

theorem mem_placed {new : List (Role × ℕ)} {cursor : ℕ} (hcursor : ALIGNMENT ∣ cursor) {part : NewPartition}
    (hpart : part ∈ placed cursor new) :
    cursor ≤ part.span.offset ∧ part.span.fin ≤ cursor + added new ∧
      ALIGNMENT ∣ part.span.offset ∧ ALIGNMENT ∣ part.span.size := by
  induction new generalizing cursor with
  | nil => exact absurd hpart List.not_mem_nil
  | cons first new ih =>
    rw [added, List.map_cons, List.sum_cons, ← added]
    rcases List.mem_cons.1 hpart with rfl | hpart
    · exact ⟨Nat.le_refl _, Nat.add_le_add_left (Nat.le_add_right _ _) _, hcursor, dvd_align_up _⟩
    · obtain ⟨hlo, hhi, hoffset, hsize⟩ := ih ((Nat.dvd_add_right hcursor).2 (dvd_align_up _)) hpart
      exact ⟨by omega, by omega, hoffset, hsize⟩

namespace Drive

variable (drive : Drive) (luft : ℕ) (new : List (Role × ℕ))

/-- What Windows keeps: everything, or what is in front of the room. -/
def left : ℕ :=
  min drive.windows.partition.size (drive.fin - added new - align_up luft - drive.windows.partition.offset)

/-- The plan, when there is one. -/
def planned : Plan :=
  { windows_size :=
      if drive.left luft new < drive.windows.partition.size then some (drive.left luft new) else none
    partitions := placed (drive.fin - added new) new
    room := ⟨drive.windows.partition.offset + drive.left luft new,
      drive.fin - added new - (drive.windows.partition.offset + drive.left luft new)⟩ }

variable {luft new}

theorem plan_of_fits (h : drive.floor + needed luft new ≤ drive.fin) :
    plan drive.disk drive.windows luft new = .ok (drive.planned luft new) := by
  have hsmall := drive.smallest_le
  have hpos := drive.smallest_pos
  rw [floor, needed] at h
  rw [plan, ← fin, if_neg (by omega)]
  have hend : (if drive.fin - added new - align_up luft ≥ drive.windows.partition.fin then
      drive.windows.partition.fin else align_down (drive.fin - added new - align_up luft)) =
      drive.windows.partition.offset + drive.left luft new := by
    have hdown : align_down (drive.fin - added new - align_up luft) = drive.fin - added new - align_up luft :=
      Align.down_of_dvd (Nat.dvd_sub (Nat.dvd_sub drive.dvd_fin (dvd_added new)) (dvd_align_up luft))
    rw [hdown, left, Span.fin]
    split <;> omega
  simp only [hend]
  rw [if_neg (by rw [Nat.add_sub_cancel_left, left]; omega), planned, Nat.add_sub_cancel_left]

theorem plan_of_short (h : drive.fin < drive.floor + needed luft new) :
    plan drive.disk drive.windows luft new =
      .error ⟨needed luft new, most_room drive.disk drive.windows⟩ := by
  have hpos := drive.smallest_pos
  rw [floor, needed] at h
  rw [plan, ← fin]
  by_cases hadded : drive.fin < added new
  · rw [if_pos hadded, needed]
  rw [if_neg hadded]
  refine if_pos ?_
  by_cases hroom : drive.fin - added new < align_up luft
  · exact .inr hroom
  have hdown : align_down (drive.fin - added new - align_up luft) ≤ drive.fin - added new - align_up luft :=
    Align.down_le _ _
  refine .inl ?_
  split <;> omega

/-- What Windows' partition is left with. -/
def kept (p : Plan) : ℕ := p.windows_size.getD drive.windows.partition.size

/-- What a plan has to keep to. -/
structure Keeps (luft : ℕ) (new : List (Role × ℕ)) (p : Plan) : Prop where
  smallest_le : drive.windows.smallest ≤ drive.kept p
  kept_le : drive.kept p ≤ drive.windows.partition.size
  room_offset : p.room.offset = drive.windows.partition.offset + drive.kept p
  room_size : align_up luft ≤ p.room.size
  no_more : drive.kept p < drive.windows.partition.size → p.room.size = align_up luft
  asked : p.partitions.map (fun part ↦ (part.role, part.span.size)) = new.map fun part ↦ (part.1, align_up part.2)
  tiles : Extents.Tiles (p.partitions.map NewPartition.stretch) p.room.fin drive.fin
  aligned : ∀ part ∈ p.partitions, ALIGNMENT ∣ part.span.offset ∧ ALIGNMENT ∣ part.span.size
  clear : ∀ span ∈ drive.made ++ drive.foreign,
    span.fin ≤ drive.windows.partition.offset ∨ drive.fin ≤ span.offset
  inside : drive.fin + GPT_TAIL ≤ drive.disk.size

theorem kept_planned : drive.kept (drive.planned luft new) = drive.left luft new := by
  have hle : drive.left luft new ≤ drive.windows.partition.size := Nat.min_le_left _ _
  rw [kept, planned]
  split
  · exact Option.getD_some
  · rw [Option.getD_none]
    omega

theorem room_planned (h : drive.floor + needed luft new ≤ drive.fin) :
    (drive.planned luft new).room.fin = drive.fin - added new := by
  have hpos := drive.smallest_pos
  rw [floor, needed] at h
  have hleft : drive.left luft new = min drive.windows.partition.size
      (drive.fin - added new - align_up luft - drive.windows.partition.offset) := rfl
  have hsize : (drive.planned luft new).room.size =
      drive.fin - added new - (drive.windows.partition.offset + drive.left luft new) := rfl
  change drive.windows.partition.offset + drive.left luft new + (drive.planned luft new).room.size = _
  omega

theorem keeps_planned (h : drive.floor + needed luft new ≤ drive.fin) :
    drive.Keeps luft new (drive.planned luft new) := by
  have hsmall := drive.smallest_le
  have hpos := drive.smallest_pos
  have hroom := drive.room_planned h
  rw [floor, needed] at h
  have hleft : drive.left luft new = min drive.windows.partition.size
      (drive.fin - added new - align_up luft - drive.windows.partition.offset) := rfl
  have hsize : (drive.planned luft new).room.size =
      drive.fin - added new - (drive.windows.partition.offset + drive.left luft new) := rfl
  have hdvd : ALIGNMENT ∣ drive.fin - added new := Nat.dvd_sub drive.dvd_fin (dvd_added new)
  refine ⟨?_, ?_, ?_, ?_, ?_, placed_asked new _, ?_,
    fun part hpart ↦ (mem_placed hdvd hpart).2.2, fun _ hspan ↦ drive.outside hspan, drive.fin_inside⟩
  · rw [kept_planned]
    omega
  · rw [kept_planned]
    exact Nat.min_le_left _ _
  · rw [kept_planned, planned]
  · omega
  · rw [kept_planned]
    omega
  · have htiles := placed_tiles new (drive.fin - added new)
    rw [Nat.sub_add_cancel (by omega)] at htiles
    rwa [hroom]

theorem plan_eq_ok_iff {p : Plan} : plan drive.disk drive.windows luft new = .ok p ↔
    drive.floor + needed luft new ≤ drive.fin ∧ p = drive.planned luft new := by
  rcases Nat.lt_or_ge drive.fin (drive.floor + needed luft new) with hshort | hfits
  · rw [drive.plan_of_short hshort]
    exact ⟨nofun, fun h ↦ absurd h.1 (Nat.not_le.2 hshort)⟩
  · rw [drive.plan_of_fits hfits, Except.ok.injEq]
    exact ⟨fun h ↦ ⟨hfits, h.symm⟩, fun h ↦ h.2.symm⟩

theorem keeps_of_plan {p : Plan} (hp : plan drive.disk drive.windows luft new = .ok p) :
    drive.Keeps luft new p := by
  obtain ⟨hfits, rfl⟩ := drive.plan_eq_ok_iff.1 hp
  exact drive.keeps_planned hfits

theorem exists_plan_iff :
    (∃ p, plan drive.disk drive.windows luft new = .ok p) ↔ drive.floor + needed luft new ≤ drive.fin :=
  ⟨fun ⟨_, hp⟩ ↦ (drive.plan_eq_ok_iff.1 hp).1, fun h ↦ ⟨_, drive.plan_of_fits h⟩⟩

variable (luft new)

variable {drive luft new}

theorem Keeps.room_fin {p : Plan} (h : drive.Keeps luft new p) :
    drive.windows.partition.offset + drive.kept p ≤ p.room.fin ∧ p.room.fin ≤ drive.fin := by
  refine ⟨?_, h.tiles.le⟩
  rw [Span.fin, h.room_offset]
  exact Nat.le_add_right _ _

theorem Keeps.mem {p : Plan} (h : drive.Keeps luft new p) {span : Span}
    (hspan : span ∈ p.partitions.map NewPartition.span) : p.room.fin ≤ span.offset ∧ span.fin ≤ drive.fin := by
  obtain ⟨part, hpart, rfl⟩ := List.mem_map.1 hspan
  exact h.tiles.within (List.mem_map_of_mem hpart)

/-- What lies between the start of Windows and the end of the plan is apart from everything else. -/
theorem Keeps.apart_of_within {p : Plan} (h : drive.Keeps luft new p) {a b : Span}
    (ha : drive.windows.partition.offset ≤ a.offset ∧ a.fin ≤ drive.fin) (hb : b ∈ drive.made ++ drive.foreign) :
    a.Apart b := by
  rcases h.clear b hb with hfront | hbehind
  · exact .inr (hfront.trans ha.1)
  · exact .inl (ha.2.trans hbehind)

theorem Keeps.pairwise {p : Plan} (h : drive.Keeps luft new p) :
    (p.partitions.map NewPartition.span).Pairwise Span.Apart := by
  have hpair := h.tiles.pairwise
  rw [List.pairwise_map] at hpair ⊢
  exact hpair.imp .inl

variable (drive) in
/-- The partitions after Windows has shrunk and the planned ones have been made. -/
def carried (p : Plan) : List Span :=
  ⟨drive.windows.partition.offset, drive.kept p⟩ :: (p.partitions.map NewPartition.span ++ drive.made ++ drive.foreign)

theorem Keeps.apart_carried {p : Plan} (h : drive.Keeps luft new p) : (drive.carried p).Pairwise Span.Apart := by
  obtain ⟨hlo, hhi⟩ := h.room_fin
  have hrest := (List.pairwise_cons.1 drive.apart).2
  rw [carried, List.append_assoc]
  refine List.pairwise_cons.2 ⟨fun span hspan ↦ ?_, List.pairwise_append.2
    ⟨h.pairwise, hrest, fun a ha b hb ↦ h.apart_of_within ⟨?_, (h.mem ha).2⟩ hb⟩⟩
  · rcases List.mem_append.1 hspan with hnew | hold
    · exact .inl (hlo.trans (h.mem hnew).1)
    · exact h.apart_of_within ⟨Nat.le_refl _, hlo.trans hhi⟩ hold
  · exact ((Nat.le_add_right _ _).trans hlo).trans (h.mem ha).1

theorem Keeps.inside_carried {p : Plan} (h : drive.Keeps luft new p) :
    ∀ span ∈ drive.carried p, span.fin + GPT_TAIL ≤ drive.disk.size := by
  intro span hspan
  rw [carried, List.append_assoc, List.mem_cons, List.mem_append] at hspan
  obtain ⟨hlo, hhi⟩ := h.room_fin
  rcases hspan with rfl | hnew | hold
  · exact Nat.le_trans (Nat.add_le_add_right (hlo.trans hhi) _) h.inside
  · exact Nat.le_trans (Nat.add_le_add_right (h.mem hnew).2 _) h.inside
  · exact drive.inside span (List.mem_cons_of_mem _ hold)

/-- The drive after a plan has been carried out, its partitions listed in any order. -/
def after {p : Plan} (h : drive.Keeps luft new p) (listing : List Span) (hlisting : listing.Perm (drive.carried p)) :
    Drive where
  disk := ⟨drive.disk.size, listing⟩
  windows := ⟨⟨drive.windows.partition.offset, drive.kept p⟩, drive.windows.used, drive.windows.supported_min⟩
  made := p.partitions.map NewPartition.span ++ drive.made
  foreign := drive.foreign
  listed := hlisting
  apart := h.apart_carried
  windows_pos := Nat.lt_of_lt_of_le drive.smallest_pos h.smallest_le
  inside := h.inside_carried

theorem sublist_without (span : Span) :
    (drive.windows.partition :: (drive.made.erase span ++ drive.foreign)).Sublist
      (drive.windows.partition :: (drive.made ++ drive.foreign)) :=
  (List.erase_sublist.append_right _).cons_cons _

theorem apart_without (span : Span) :
    (drive.windows.partition :: (drive.made.erase span ++ drive.foreign)).Pairwise Span.Apart :=
  drive.apart.sublist (sublist_without span)

theorem inside_without (span : Span) : ∀ other ∈ drive.windows.partition :: (drive.made.erase span ++ drive.foreign),
    other.fin + GPT_TAIL ≤ drive.disk.size :=
  fun other hother ↦ drive.inside other ((sublist_without span).subset hother)

variable (drive)

/-- The drive after a partition that Meet made has been removed. -/
def without (span : Span) (listing : List Span)
    (hlisting : listing.Perm (drive.windows.partition :: (drive.made.erase span ++ drive.foreign))) : Drive where
  disk := ⟨drive.disk.size, listing⟩
  windows := drive.windows
  made := drive.made.erase span
  foreign := drive.foreign
  listed := hlisting
  apart := drive.apart_without span
  windows_pos := drive.windows_pos
  inside := drive.inside_without span

/-- The drive after Windows has been used for a while. -/
def measured (used supported_min : ℕ) : Drive where
  disk := drive.disk
  windows := ⟨drive.windows.partition, used, supported_min⟩
  made := drive.made
  foreign := drive.foreign
  listed := drive.listed
  apart := drive.apart
  windows_pos := drive.windows_pos
  inside := drive.inside

end Drive

/-- What happens to a drive: a plan is carried out, something Meet made is removed, Windows' files change. -/
inductive Drive.Step : Drive → Drive → Prop
  | carried {drive : Drive} (luft : ℕ) (new : List (Role × ℕ)) {p : Plan}
      (hp : plan drive.disk drive.windows luft new = .ok p) (listing : List Span)
      (hlisting : listing.Perm (drive.carried p)) :
      Step drive (Drive.after (drive.keeps_of_plan hp) listing hlisting)
  | removed {drive : Drive} (span : Span) (listing : List Span)
      (hlisting : listing.Perm (drive.windows.partition :: (drive.made.erase span ++ drive.foreign))) :
      Step drive (drive.without span listing hlisting)
  | measured {drive : Drive} (used supported_min : ℕ) : Step drive (drive.measured used supported_min)

/-! ## Runs -/

namespace Drive

variable (drive : Drive)

/-- Where what belongs to others starts behind Windows. -/
def limit : ℕ := align_down (free_end ⟨drive.disk.size, drive.foreign⟩ drive.windows.partition.fin)

theorem fin_le_limit : drive.fin ≤ drive.limit := by
  refine Align.le_down drive.dvd_fin ?_
  rcases free_end_cases ⟨drive.disk.size, drive.foreign⟩ drive.windows.partition.fin with
    ⟨span, hspan, hbehind, heq⟩ | ⟨-, heq⟩
  · rw [heq]
    exact Nat.le_trans (Align.down_le _ _)
      (free_end_le (drive.mem_partitions.2 (.inr (List.mem_append_right _ hspan))) hbehind)
  · have hinside := drive.fin_inside
    rw [heq]
    change drive.fin ≤ drive.disk.size - GPT_TAIL
    omega

/-- What has stayed, and what Meet has made, since a drive was found. -/
structure Since (start now : Drive) : Prop where
  foreign : now.foreign = start.foreign
  size : now.disk.size = start.disk.size
  offset : now.windows.partition.offset = start.windows.partition.offset
  smaller : now.windows.partition.size ≤ start.windows.partition.size
  limit : now.limit = start.limit
  made : ∀ span ∈ now.made, span ∈ start.made ∨
    ALIGNMENT ∣ span.offset ∧ ALIGNMENT ∣ span.size ∧ now.windows.partition.fin ≤ span.offset ∧ span.fin ≤ start.limit

theorem Since.refl : Since drive drive := ⟨rfl, rfl, rfl, Nat.le_refl _, rfl, fun _ h ↦ .inl h⟩

variable {drive} {luft : ℕ} {new : List (Role × ℕ)}

/-- What belongs to others and lies behind the shrunk Windows lay behind it before. -/
theorem Keeps.behind_iff {p : Plan} (h : drive.Keeps luft new p) {span : Span} (hspan : span ∈ drive.made ++ drive.foreign) :
    drive.windows.partition.offset + drive.kept p ≤ span.offset ↔ drive.windows.partition.fin ≤ span.offset := by
  have hpos := Nat.lt_of_lt_of_le drive.smallest_pos h.smallest_le
  have hkept := h.kept_le
  have hsize : drive.windows.partition.fin = drive.windows.partition.offset + drive.windows.partition.size := rfl
  rcases drive.windows_apart hspan with hbehind | hfront
  · exact ⟨fun _ ↦ hbehind, fun _ ↦ by omega⟩
  · rw [Span.fin] at hfront
    omega

theorem limit_after {p : Plan} (h : drive.Keeps luft new p) (listing : List Span)
    (hlisting : listing.Perm (drive.carried p)) : (drive.after h listing hlisting).limit = drive.limit := by
  refine congrArg align_down (free_end_congr rfl fun span ↦ ?_)
  exact and_congr_right fun hspan ↦ h.behind_iff (List.mem_append_right _ hspan)

/-- One step keeps what stays. -/
theorem Step.since {start now next : Drive} (h : Step now next) (hsince : Since start now) : Since start next := by
  cases h with
  | carried luft new hp listing hlisting =>
    have h := now.keeps_of_plan hp
    refine ⟨hsince.foreign, hsince.size, hsince.offset, h.kept_le.trans hsince.smaller,
      (limit_after h listing hlisting).trans hsince.limit, fun span hspan ↦ ?_⟩
    rcases List.mem_append.1 hspan with hnew | hold
    · obtain ⟨hlo, hhi⟩ := h.mem hnew
      obtain ⟨part, hpart, rfl⟩ := List.mem_map.1 hnew
      obtain ⟨hoffset, hsize⟩ := h.aligned part hpart
      refine .inr ⟨hoffset, hsize, h.room_fin.1.trans hlo, hhi.trans (now.fin_le_limit.trans ?_)⟩
      exact Nat.le_of_eq hsince.limit
    · refine (hsince.made span hold).imp_right fun ⟨hoffset, hsize, hbehind, hlimit⟩ ↦ ⟨hoffset, hsize, ?_, hlimit⟩
      exact Nat.le_trans (Nat.add_le_add_left h.kept_le _) hbehind
  | removed span listing hlisting =>
    exact ⟨hsince.foreign, hsince.size, hsince.offset, hsince.smaller, hsince.limit,
      fun other hother ↦ hsince.made other (List.mem_of_mem_erase hother)⟩
  | measured used supported_min =>
    exact ⟨hsince.foreign, hsince.size, hsince.offset, hsince.smaller, hsince.limit, hsince.made⟩

theorem apart_laptop : ([⟨117 * MIB, 470 * GIB⟩, ⟨MIB, 100 * MIB⟩, ⟨101 * MIB, 16 * MIB⟩,
    ⟨117 * MIB + 470 * GIB, 750 * MIB⟩] : List Span).Pairwise Span.Apart := by decide +kernel

theorem inside_laptop : ∀ span ∈ ([⟨117 * MIB, 470 * GIB⟩, ⟨MIB, 100 * MIB⟩, ⟨101 * MIB, 16 * MIB⟩,
    ⟨117 * MIB + 470 * GIB, 750 * MIB⟩] : List Span), span.fin + GPT_TAIL ≤ 512 * GIB := by decide +kernel

theorem pos_laptop : 0 < 470 * GIB := by decide

/-- A laptop as it is sold, with Windows on nearly all of its drive. -/
def laptop : Drive where
  disk := ⟨512 * GIB, [⟨117 * MIB, 470 * GIB⟩, ⟨MIB, 100 * MIB⟩, ⟨101 * MIB, 16 * MIB⟩,
    ⟨117 * MIB + 470 * GIB, 750 * MIB⟩]⟩
  windows := ⟨⟨117 * MIB, 470 * GIB⟩, 120 * GIB, 90 * GIB⟩
  made := []
  foreign := [⟨MIB, 100 * MIB⟩, ⟨101 * MIB, 16 * MIB⟩, ⟨117 * MIB + 470 * GIB, 750 * MIB⟩]
  listed := .refl _
  apart := apart_laptop
  windows_pos := pos_laptop
  inside := inside_laptop

theorem laptop_fits : laptop.floor + needed (100 * GIB) [(.start, 512 * MIB), (.live, 3 * GIB)] ≤ laptop.fin := by
  decide +kernel

theorem Keeps.dvd_room_fin {p : Plan} (h : drive.Keeps luft new p) : ALIGNMENT ∣ p.room.fin := by
  refine h.tiles.dvd_lo (fun piece hpiece ↦ ?_) drive.dvd_fin
  obtain ⟨part, hpart, rfl⟩ := List.mem_map.1 hpiece
  exact (h.aligned part hpart).1

theorem mem_carried {p : Plan} {span : Span} : span ∈ drive.carried p ↔
    span = ⟨drive.windows.partition.offset, drive.kept p⟩ ∨ span ∈ p.partitions.map NewPartition.span ∨
      span ∈ drive.made ++ drive.foreign := by
  rw [carried, List.append_assoc, List.mem_cons, List.mem_append]

theorem not_behind {offset size : ℕ} (hpos : 0 < size) : ¬ offset + size ≤ offset := by omega

/-- With nothing new, what was behind Windows is behind it still. -/
theorem Keeps.behind_carried {p : Plan} (h : drive.Keeps luft new p) (hnone : p.partitions = []) (span : Span) :
    span ∈ drive.carried p ∧ drive.windows.partition.offset + drive.kept p ≤ span.offset ↔
      span ∈ drive.disk.partitions ∧ drive.windows.partition.fin ≤ span.offset := by
  rw [mem_carried, drive.mem_partitions, hnone, List.map_nil]
  constructor
  · rintro ⟨rfl | hnew | hold, hle⟩
    · exact absurd hle (not_behind (Nat.lt_of_lt_of_le drive.smallest_pos h.smallest_le))
    · exact absurd hnew List.not_mem_nil
    · exact ⟨.inr hold, (h.behind_iff hold).1 hle⟩
  · rintro ⟨rfl | hold, hle⟩
    · exact absurd hle (not_behind drive.windows_pos)
    · exact ⟨.inr (.inr hold), (h.behind_iff hold).2 hle⟩

/-- The next plan ends where this one's room does. -/
theorem fin_after {p : Plan} (h : drive.Keeps luft new p) (listing : List Span)
    (hlisting : listing.Perm (drive.carried p)) : (drive.after h listing hlisting).fin = p.room.fin := by
  obtain ⟨hlo, hhi⟩ := h.room_fin
  have hpos := Nat.lt_of_lt_of_le drive.smallest_pos h.smallest_le
  refine Nat.le_antisymm ?_ (Align.le_down h.dvd_room_fin ?_)
  · rcases h.tiles.starts with ⟨hempty, hnone⟩ | ⟨piece, hpiece, hstart⟩
    · rw [hempty]
      refine Nat.le_of_eq (congrArg align_down (free_end_congr rfl fun span ↦ ?_))
      rw [← h.behind_carried (List.map_eq_nil_iff.1 hnone)]
      exact and_congr_left fun _ ↦ hlisting.mem_iff
    · obtain ⟨part, hpart, rfl⟩ := List.mem_map.1 hpiece
      have hmem : part.span ∈ listing :=
        hlisting.mem_iff.2 (mem_carried.2 (.inr (.inl (List.mem_map_of_mem hpart))))
      refine (Align.down_le _ _).trans (Nat.le_trans (free_end_le hmem ?_) (Nat.le_of_eq hstart))
      exact hlo.trans (Nat.le_of_eq hstart.symm)
  · rcases free_end_cases ⟨drive.disk.size, listing⟩ (drive.windows.partition.offset + drive.kept p) with
      ⟨span, hspan, hle, heq⟩ | ⟨-, heq⟩
    · refine Nat.le_trans ?_ (Nat.le_of_eq heq.symm)
      rcases mem_carried.1 (hlisting.mem_iff.1 hspan) with rfl | hnew | hold
      · exact absurd hle (not_behind hpos)
      · exact (h.mem hnew).1
      · rcases h.clear span hold with hfront | hbehind
        · rw [Span.fin] at hfront
          omega
        · exact hhi.trans hbehind
    · refine Nat.le_trans ?_ (Nat.le_of_eq heq.symm)
      exact hhi.trans (Nat.le_sub_of_add_le h.inside)

theorem smallest_after {p : Plan} (h : drive.Keeps luft new p) (listing : List Span)
    (hlisting : listing.Perm (drive.carried p)) :
    (drive.after h listing hlisting).windows.smallest = drive.windows.smallest := by
  have hle := h.smallest_le
  have hkept := h.kept_le
  have hsmallest : drive.windows.smallest =
      min (smallest_windows drive.windows.used drive.windows.supported_min) drive.windows.partition.size := rfl
  have hafter : (drive.after h listing hlisting).windows.smallest =
      min (smallest_windows drive.windows.used drive.windows.supported_min) (drive.kept p) := rfl
  omega

/-- **Planning twice is planning at once.**  What is planned behind a plan that has been carried out is what would have
been planned in front of its partitions, with the same room for Luft. -/
theorem plan_after {first : List (Role × ℕ)} {p : Plan}
    (hp : plan drive.disk drive.windows luft first = .ok p) (listing : List Span)
    (hlisting : listing.Perm (drive.carried p)) (second : List (Role × ℕ)) :
    let next := drive.after (drive.keeps_of_plan hp) listing hlisting
    ((∃ q, plan next.disk next.windows luft second = .ok q) ↔
        ∃ r, plan drive.disk drive.windows luft (second ++ first) = .ok r) ∧
      ∀ q r, plan next.disk next.windows luft second = .ok q →
        plan drive.disk drive.windows luft (second ++ first) = .ok r →
        next.kept q = drive.kept r ∧ q.room = r.room ∧ r.partitions = q.partitions ++ p.partitions := by
  intro next
  have hkeeps := drive.keeps_of_plan hp
  obtain ⟨hfits, rfl⟩ := drive.plan_eq_ok_iff.1 hp
  have hfin : next.fin = drive.fin - added first :=
    (fin_after hkeeps listing hlisting).trans (drive.room_planned hfits)
  have hfloor : next.floor = drive.floor :=
    congrArg (drive.windows.partition.offset + ·) (smallest_after hkeeps listing hlisting)
  have hneeded : needed luft (second ++ first) = needed luft second + added first := by
    rw [needed, needed, added_append]
    omega
  have hleft : next.left luft second = drive.left luft (second ++ first) := by
    have hsize : next.windows.partition.size = drive.left luft first := drive.kept_planned
    have hoffset : next.windows.partition.offset = drive.windows.partition.offset := rfl
    rw [left, left, hsize, hoffset, hfin, left, added_append]
    omega
  have hiff : next.floor + needed luft second ≤ next.fin ↔ drive.floor + needed luft (second ++ first) ≤ drive.fin := by
    rw [hfin, hfloor, hneeded]
    rw [needed] at hfits
    omega
  constructor
  · rw [next.exists_plan_iff, drive.exists_plan_iff, hiff]
  · intro q r hq hr
    obtain ⟨-, rfl⟩ := next.plan_eq_ok_iff.1 hq
    obtain ⟨hboth, rfl⟩ := drive.plan_eq_ok_iff.1 hr
    have hstart : next.fin - added second = drive.fin - added (second ++ first) := by
      rw [hfin, added_append]
      omega
    refine ⟨?_, ?_, ?_⟩
    · rw [kept_planned, kept_planned, hleft]
    · rw [planned, planned, hleft, hstart]
      rfl
    · have hend : drive.fin - added first = drive.fin - added (second ++ first) + added second := by
        rw [needed, added_append] at hboth
        rw [added_append]
        omega
      rw [planned, planned, planned, placed_append, hstart, hend]

theorem plan_after_laptop :
    (∃ q, plan ⟨512 * GIB, laptop.carried (laptop.planned (100 * GIB) [(.start, 512 * MIB), (.live, 3 * GIB)])⟩
      ⟨⟨117 * MIB, laptop.kept (laptop.planned (100 * GIB) [(.start, 512 * MIB), (.live, 3 * GIB)])⟩, 120 * GIB, 90 * GIB⟩
      (100 * GIB) [(.movingBox, 20 * GIB)] = .ok q) ↔
    ∃ r, plan laptop.disk laptop.windows (100 * GIB)
      [(.movingBox, 20 * GIB), (.start, 512 * MIB), (.live, 3 * GIB)] = .ok r :=
  (plan_after (laptop.plan_of_fits laptop_fits) _ (.refl _) [(.movingBox, 20 * GIB)]).1

end Drive

end Meet
