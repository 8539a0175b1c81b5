import Luft.Lib.SortBy
import Luft.Meet.Layout

/-!
# The free space on a drive

`gaps` walks the partitions in the order they lie in and finds what is free between them.  `gaps_exact` says that it
finds every free megabyte and nothing else, whatever the table holds: partitions that overlap, that are empty, that
come in any order.  `inside` plans what goes into a gap.
-/

set_option autoImplicit false

namespace Meet

inductive Head
  | room (smallest : ℕ)
  | kept (room : Span)
deriving DecidableEq, Repr

/-- What is free from one place to another, if it is a megabyte at least. -/
def close (start fin : ℕ) : List Span :=
  if align_down fin ≥ align_up start + ALIGNMENT then [⟨align_up start, align_down fin - align_up start⟩] else []

def gapsFrom (size : ℕ) : ℕ → List Span → List Span
  | cursor, [] => close cursor (size - GPT_TAIL)
  | cursor, partition :: partitions =>
    (if partition.offset > cursor then close cursor partition.offset else []) ++
      gapsFrom size (max cursor partition.fin) partitions

def gaps (disk : Disk) : List Span := gapsFrom disk.size ALIGNMENT (SortBy.sortBy Span.offset disk.partitions)

def inside (gap : Span) (head : Head) (new : List (Role × ℕ)) : Except Shortfall Plan :=
  let start := align_up gap.offset
  let fin := align_down gap.fin
  let available := fin - start
  let first := (if fin < added new then none else some (fin - added new)).filter fun first ↦ first ≥ start
  let planned := fun room : Span ↦ Plan.mk none (placed (fin - added new) new) room
  match head, first with
  | .room smallest, some first =>
    if first - start ≥ align_up smallest then .ok (planned ⟨start, first - start⟩)
    else .error ⟨align_up smallest + added new, available⟩
  | .kept room, some _ => .ok (planned room)
  | .room smallest, none => .error ⟨align_up smallest + added new, available⟩
  | .kept _, none => .error ⟨added new, available⟩

/-! ## One gap -/

theorem fin_of_le {lo hi : ℕ} (h : lo ≤ hi) : (⟨lo, hi - lo⟩ : Span).fin = hi := Nat.add_sub_cancel' h

theorem mem_close {start fin : ℕ} {gap : Span} : gap ∈ close start fin ↔
    align_up start + ALIGNMENT ≤ align_down fin ∧ gap = ⟨align_up start, align_down fin - align_up start⟩ := by
  rw [close]
  split
  · rename_i h
    rw [List.mem_singleton]
    exact (and_iff_right h).symm
  · rename_i h
    exact ⟨fun hmem ↦ absurd hmem List.not_mem_nil, fun hmem ↦ absurd hmem.1 h⟩

/-- What is free, in whole megabytes and at least one of them. -/
structure Free (size cursor : ℕ) (partitions : List Span) (gap : Span) : Prop where
  behind : cursor ≤ gap.offset
  ends : gap.fin ≤ size - GPT_TAIL ∨ ∃ partition ∈ partitions, gap.fin ≤ partition.offset
  offset : ALIGNMENT ∣ gap.offset
  size : ALIGNMENT ∣ gap.size
  pos : ALIGNMENT ≤ gap.size
  apart : ∀ partition ∈ partitions, gap.Apart partition

theorem fin_le_of_mem_close {start fin : ℕ} {gap : Span} (h : gap ∈ close start fin) : gap.fin ≤ fin := by
  obtain ⟨hle, rfl⟩ := mem_close.1 h
  exact (fin_of_le ((Nat.le_add_right _ _).trans hle)).trans_le (Align.down_le _ _)

theorem free_of_mem_close {size start fin : ℕ} {partitions : List Span} {gap : Span} (h : gap ∈ close start fin)
    (hends : fin = size - GPT_TAIL ∨ ∃ partition ∈ partitions, fin = partition.offset)
    (hbehind : ∀ partition ∈ partitions, fin ≤ partition.offset) : Free size start partitions gap := by
  have hfin := fin_le_of_mem_close h
  obtain ⟨hle, rfl⟩ := mem_close.1 h
  refine ⟨Align.le_up alignment_pos _, ?_, dvd_align_up _, Nat.dvd_sub (Align.dvd_down _ _) (dvd_align_up _),
    Nat.le_sub_of_add_le' hle, fun partition hpartition ↦ .inl (hfin.trans (hbehind partition hpartition))⟩
  exact hends.imp hfin.trans_eq fun ⟨partition, hpartition, heq⟩ ↦ ⟨partition, hpartition, hfin.trans_eq heq⟩

/-- A partition in front of what is free is in no gap behind it. -/
theorem Free.cons {size cursor : ℕ} {partition gap : Span} {partitions : List Span}
    (h : Free size (max cursor partition.fin) partitions gap) : Free size cursor (partition :: partitions) gap where
  behind := (Nat.le_max_left _ _).trans h.behind
  ends := h.ends.imp_right fun ⟨other, hother, hle⟩ ↦ ⟨other, List.mem_cons_of_mem _ hother, hle⟩
  offset := h.offset
  size := h.size
  pos := h.pos
  apart := List.forall_mem_cons.2 ⟨.inr ((Nat.le_max_right _ _).trans h.behind), h.apart⟩

/-- What is inside a gap is apart from the partitions. -/
theorem Free.apart_of_within {size cursor : ℕ} {partitions : List Span} {gap a b : Span}
    (h : Free size cursor partitions gap) (ha : gap.offset ≤ a.offset ∧ a.fin ≤ gap.fin) (hb : b ∈ partitions) :
    a.Apart b := (h.apart b hb).imp ha.2.trans fun hle ↦ Nat.le_trans hle ha.1

/-- Whole megabytes. -/
structure Whole (span : Span) : Prop where
  offset : ALIGNMENT ∣ span.offset
  size : ALIGNMENT ∣ span.size
  pos : 0 < span.size

theorem Whole.le_size {span : Span} (h : Whole span) : ALIGNMENT ≤ span.size := Nat.le_of_dvd h.pos h.size

theorem Whole.fin {span : Span} (h : Whole span) : ALIGNMENT ∣ span.fin := (Nat.dvd_add_right h.offset).2 h.size

/-- Whole megabytes from one place to another are in the gap there. -/
theorem exists_mem_close {start fin : ℕ} {span : Span} (h : Whole span) (hlo : start ≤ span.offset)
    (hhi : span.fin ≤ fin) : ∃ gap ∈ close start fin, gap.offset ≤ span.offset ∧ span.fin ≤ gap.fin := by
  have hup : align_up start ≤ span.offset := Align.up_le h.offset hlo
  have hdown : span.fin ≤ align_down fin := Align.le_down h.fin hhi
  have hle : align_up start + ALIGNMENT ≤ align_down fin :=
    Nat.le_trans (Nat.add_le_add hup h.le_size) hdown
  refine ⟨_, mem_close.2 ⟨hle, rfl⟩, hup, ?_⟩
  exact hdown.trans_eq (fin_of_le ((Nat.le_add_right _ _).trans hle)).symm

/-! ## All of them -/

theorem pairwise_close (start fin : ℕ) : (close start fin).Pairwise fun a b ↦ a.fin ≤ b.offset := by
  rw [close]
  split <;> simp

theorem mem_gapsFrom_cons {size cursor : ℕ} {partition gap : Span} {partitions : List Span} :
    gap ∈ gapsFrom size cursor (partition :: partitions) ↔
      (cursor < partition.offset ∧ gap ∈ close cursor partition.offset) ∨
        gap ∈ gapsFrom size (max cursor partition.fin) partitions := by
  rw [gapsFrom, List.mem_append]
  refine or_congr_left ?_
  split
  · rename_i h
    exact (and_iff_right h).symm
  · rename_i h
    exact ⟨fun hmem ↦ absurd hmem List.not_mem_nil, fun hmem ↦ absurd hmem.1 h⟩

/-- What is found is free. -/
theorem free_of_mem_gapsFrom {size : ℕ} {partitions : List Span}
    (hsorted : partitions.Pairwise fun a b ↦ a.offset ≤ b.offset) {cursor : ℕ} {gap : Span}
    (h : gap ∈ gapsFrom size cursor partitions) : Free size cursor partitions gap := by
  induction partitions generalizing cursor with
  | nil => exact free_of_mem_close h (.inl rfl) fun _ hnil ↦ absurd hnil List.not_mem_nil
  | cons partition partitions ih =>
    obtain ⟨hfirst, hrest⟩ := List.pairwise_cons.1 hsorted
    rcases mem_gapsFrom_cons.1 h with ⟨-, hclose⟩ | hlater
    · exact free_of_mem_close hclose (.inr ⟨partition, List.mem_cons_self, rfl⟩)
        (List.forall_mem_cons.2 ⟨Nat.le_refl _, hfirst⟩)
    · exact (ih hrest hlater).cons

/-- The gaps come in order. -/
theorem pairwise_gapsFrom {size : ℕ} {partitions : List Span}
    (hsorted : partitions.Pairwise fun a b ↦ a.offset ≤ b.offset) (cursor : ℕ) :
    (gapsFrom size cursor partitions).Pairwise fun a b ↦ a.fin ≤ b.offset := by
  induction partitions generalizing cursor with
  | nil => exact pairwise_close _ _
  | cons partition partitions ih =>
    obtain ⟨-, hrest⟩ := List.pairwise_cons.1 hsorted
    rw [gapsFrom, List.pairwise_append]
    refine ⟨?_, ih hrest _, fun a ha b hb ↦ ?_⟩
    · split
      · exact pairwise_close _ _
      · exact .nil
    · have hbehind := (free_of_mem_gapsFrom hrest hb).behind
      split at ha
      · exact (fin_le_of_mem_close ha).trans
          ((Nat.le_add_right _ _).trans ((Nat.le_max_right _ _).trans hbehind))
      · exact absurd ha List.not_mem_nil

/-- What is free is found. -/
theorem exists_mem_gapsFrom {size : ℕ} {partitions : List Span} {cursor : ℕ} {span : Span} (h : Whole span)
    (hcursor : cursor ≤ span.offset)
    (hends : span.fin ≤ size - GPT_TAIL ∨ ∃ partition ∈ partitions, span.fin ≤ partition.offset)
    (hfree : ∀ partition ∈ partitions, span.Apart partition) :
    ∃ gap ∈ gapsFrom size cursor partitions, gap.offset ≤ span.offset ∧ span.fin ≤ gap.fin := by
  induction partitions generalizing cursor with
  | nil =>
    rcases hends with hend | ⟨partition, hnil, -⟩
    · exact exists_mem_close h hcursor hend
    · exact absurd hnil List.not_mem_nil
  | cons partition partitions ih =>
    obtain ⟨hfirst, hrest⟩ := List.forall_mem_cons.1 hfree
    have hpos := h.pos
    have hfin : span.fin = span.offset + span.size := rfl
    rcases hfirst with hfront | hbehind
    · obtain ⟨gap, hgap, hcovers⟩ := exists_mem_close h hcursor hfront
      exact ⟨gap, mem_gapsFrom_cons.2 (.inl ⟨by omega, hgap⟩), hcovers⟩
    · have hends' : span.fin ≤ size - GPT_TAIL ∨ ∃ other ∈ partitions, span.fin ≤ other.offset := by
        refine hends.imp_right fun ⟨other, hother, hle⟩ ↦ ?_
        rcases List.mem_cons.1 hother with rfl | hother
        · change other.offset + other.size ≤ span.offset at hbehind
          omega
        · exact ⟨other, hother, hle⟩
      obtain ⟨gap, hgap, hcovers⟩ := ih (Nat.max_le.2 ⟨hcursor, hbehind⟩) hends' hrest
      exact ⟨gap, mem_gapsFrom_cons.2 (.inr hgap), hcovers⟩

theorem free_of_mem_gaps {disk : Disk} {gap : Span} (h : gap ∈ gaps disk) :
    Free disk.size ALIGNMENT disk.partitions gap := by
  have hfree := free_of_mem_gapsFrom (SortBy.sortBy_sorted _ _) h
  have hmem (span : Span) := (SortBy.sortBy_perm Span.offset disk.partitions).mem_iff (a := span)
  refine ⟨hfree.behind, hfree.ends.imp_right fun ⟨partition, hpartition, hle⟩ ↦ ?_, hfree.offset, hfree.size,
    hfree.pos, fun partition hpartition ↦ hfree.apart partition ((hmem partition).2 hpartition)⟩
  exact ⟨partition, (hmem partition).1 hpartition, hle⟩

theorem pairwise_gaps (disk : Disk) : (gaps disk).Pairwise fun a b ↦ a.fin ≤ b.offset :=
  pairwise_gapsFrom (SortBy.sortBy_sorted _ _) _

/-- Different gaps start at different places. -/
theorem eq_of_offset_eq {disk : Disk} {a b : Span} (ha : a ∈ gaps disk) (hb : b ∈ gaps disk)
    (h : a.offset = b.offset) : a = b := by
  by_contra hne
  have hsymm : Std.Symm Span.Apart := ⟨fun _ _ ↦ Or.symm⟩
  have hapart : (gaps disk).Pairwise Span.Apart := (pairwise_gaps disk).imp .inl
  have hpos := alignment_pos
  have hsize (gap : Span) (hgap : gap ∈ gaps disk) : gap.offset < gap.fin :=
    Nat.lt_add_of_pos_right (hpos.trans_le (free_of_mem_gaps hgap).pos)
  rcases hapart.forall ha hb hne with hle | hle
  · exact absurd (hsize a ha) (Nat.not_lt.2 (h ▸ hle))
  · exact absurd (hsize b hb) (Nat.not_lt.2 (h ▸ hle))

theorem exists_mem_gaps {disk : Disk} {span : Span} (h : Whole span) (hfirst : ALIGNMENT ≤ span.offset)
    (hapart : ∀ partition ∈ disk.partitions, span.Apart partition)
    (hends : span.fin ≤ disk.size - GPT_TAIL ∨ ∃ partition ∈ disk.partitions, span.fin ≤ partition.offset) :
    ∃ gap ∈ gaps disk, gap.offset ≤ span.offset ∧ span.fin ≤ gap.fin := by
  have hmem (other : Span) := (SortBy.sortBy_perm Span.offset disk.partitions).mem_iff (a := other)
  refine exists_mem_gapsFrom h hfirst ?_ fun partition hpartition ↦ ?_
  · exact hends.imp_right fun ⟨partition, hpartition, hle⟩ ↦ ⟨partition, (hmem partition).2 hpartition, hle⟩
  · exact hapart partition ((hmem partition).1 hpartition)

/-- **The gaps are what is free.**  They come in order and each is free, and whole megabytes behind the first one are in
a gap if and only if no partition reaches into them and they end before the table at the end of the drive or before a
partition. -/
theorem gaps_exact (disk : Disk) :
    (gaps disk).Pairwise (fun a b ↦ a.fin ≤ b.offset) ∧
      (∀ gap ∈ gaps disk, Free disk.size ALIGNMENT disk.partitions gap) ∧
      ∀ span, Whole span → ((∃ gap ∈ gaps disk, gap.offset ≤ span.offset ∧ span.fin ≤ gap.fin) ↔
        ALIGNMENT ≤ span.offset ∧ (∀ partition ∈ disk.partitions, span.Apart partition) ∧
          (span.fin ≤ disk.size - GPT_TAIL ∨ ∃ partition ∈ disk.partitions, span.fin ≤ partition.offset)) := by
  refine ⟨pairwise_gaps disk, fun gap ↦ free_of_mem_gaps, fun span h ↦ ⟨?_, ?_⟩⟩
  · rintro ⟨gap, hgap, hlo, hhi⟩
    have hfree := free_of_mem_gaps hgap
    refine ⟨hfree.behind.trans hlo, fun partition hpartition ↦ hfree.apart_of_within ⟨hlo, hhi⟩ hpartition, ?_⟩
    exact hfree.ends.imp hhi.trans fun ⟨partition, hpartition, hle⟩ ↦ ⟨partition, hpartition, hhi.trans hle⟩
  · rintro ⟨hfirst, hapart, hends⟩
    exact exists_mem_gaps h hfirst hapart hends

/-! ## What goes into a gap -/

/-- The room that has to be in a gap in front of the new partitions. -/
def Head.least : Head → ℕ
  | .room smallest => align_up smallest
  | .kept _ => 0

/-- The room of the plan, in front of what starts at `first`. -/
def Head.taken : Head → Span → ℕ → Span
  | .room _, gap, first => ⟨gap.offset, first - gap.offset⟩
  | .kept span, _, _ => span

theorem inside_eq {gap : Span} (hoffset : ALIGNMENT ∣ gap.offset) (hsize : ALIGNMENT ∣ gap.size) (head : Head)
    (new : List (Role × ℕ)) :
    inside gap head new =
      if head.least + added new ≤ gap.size then
        .ok ⟨none, placed (gap.fin - added new) new, head.taken gap (gap.fin - added new)⟩
      else .error ⟨head.least + added new, gap.size⟩ := by
  have hstart : align_up gap.offset = gap.offset := Align.up_of_dvd alignment_pos hoffset
  have hfin : align_down gap.fin = gap.fin := Align.down_of_dvd ((Nat.dvd_add_right hoffset).2 hsize)
  have hgap : gap.fin = gap.offset + gap.size := rfl
  have havailable : gap.fin - gap.offset = gap.size := by omega
  unfold inside
  simp only [hstart, hfin, havailable]
  by_cases hadded : added new ≤ gap.size
  · rw [if_neg (by omega), Option.filter_some, if_pos (by rw [decide_eq_true_iff]; omega)]
    cases head with
    | room smallest =>
      change (if gap.fin - added new - gap.offset ≥ align_up smallest then _ else _) = _
      by_cases hroom : align_up smallest + added new ≤ gap.size
      · exact (if_pos (by omega)).trans (if_pos hroom).symm
      · exact (if_neg (by omega)).trans (if_neg hroom).symm
    | kept room =>
      refine Eq.symm (if_pos ?_)
      change 0 + added new ≤ gap.size
      omega
  · have hnone : (if gap.fin < added new then none else some (gap.fin - added new)).filter
        (fun first ↦ first ≥ gap.offset) = none := by
      split
      · rfl
      · rw [Option.filter_some, if_neg (by rw [decide_eq_true_iff]; omega)]
    rw [hnone, if_neg (by omega)]
    cases head with
    | room smallest => rfl
    | kept room => exact congrArg (fun n ↦ Except.error (Shortfall.mk n gap.size)) (Nat.zero_add _).symm

/-- What a plan for a gap has to keep to. -/
structure Fills (disk : Disk) (gap : Span) (head : Head) (new : List (Role × ℕ)) (p : Plan) : Prop where
  windows : p.windows_size = none
  room : p.room = head.taken gap (gap.fin - added new)
  least : gap.offset + head.least ≤ gap.fin - added new
  asked : p.partitions.map (fun part ↦ (part.role, part.span.size)) = new.map fun part ↦ (part.1, align_up part.2)
  tiles : Extents.Tiles (p.partitions.map NewPartition.stretch) (gap.fin - added new) gap.fin
  aligned : ∀ part ∈ p.partitions, ALIGNMENT ∣ part.span.offset ∧ ALIGNMENT ∣ part.span.size
  apart : disk.partitions.Pairwise Span.Apart →
    (p.partitions.map NewPartition.span ++ disk.partitions).Pairwise Span.Apart

theorem fills_placed {disk : Disk} {gap : Span} (hgap : gap ∈ gaps disk) {head : Head} {new : List (Role × ℕ)}
    (h : head.least + added new ≤ gap.size) :
    Fills disk gap head new ⟨none, placed (gap.fin - added new) new, head.taken gap (gap.fin - added new)⟩ := by
  have hfree := free_of_mem_gaps hgap
  have hfin : gap.fin = gap.offset + gap.size := rfl
  have hdvd : ALIGNMENT ∣ gap.fin - added new :=
    Nat.dvd_sub ((Nat.dvd_add_right hfree.offset).2 hfree.size) (dvd_added new)
  have htiles := placed_tiles new (gap.fin - added new)
  rw [Nat.sub_add_cancel (by omega)] at htiles
  refine ⟨rfl, rfl, by omega, placed_asked new _, htiles, fun part hpart ↦ (mem_placed hdvd hpart).2.2,
    fun hapart ↦ List.pairwise_append.2 ⟨?_, hapart, fun a ha b hb ↦ hfree.apart_of_within ?_ hb⟩⟩
  · have hpair := htiles.pairwise
    rw [List.pairwise_map] at hpair ⊢
    exact hpair.imp .inl
  · obtain ⟨part, hpart, rfl⟩ := List.mem_map.1 ha
    obtain ⟨hlo, hhi, -, -⟩ := mem_placed hdvd hpart
    omega

/-- **A plan for a gap fills it from behind,** and there is one whenever the gap is large enough. -/
theorem inside_gap {disk : Disk} {gap : Span} (hgap : gap ∈ gaps disk) (head : Head) (new : List (Role × ℕ)) :
    (∀ p, inside gap head new = .ok p → Fills disk gap head new p) ∧
      ((∃ p, inside gap head new = .ok p) ↔ head.least + added new ≤ gap.size) ∧
      ∀ s, inside gap head new = .error s → s = ⟨head.least + added new, gap.size⟩ ∧ s.available < s.needed := by
  have hfree := free_of_mem_gaps hgap
  rw [inside_eq hfree.offset hfree.size]
  by_cases h : head.least + added new ≤ gap.size
  · rw [if_pos h]
    refine ⟨fun p hp ↦ ?_, iff_of_true ⟨_, rfl⟩ h, nofun⟩
    rw [← Except.ok.inj hp]
    exact fills_placed hgap h
  · rw [if_neg h]
    refine ⟨nofun, iff_of_false nofun h, fun s hs ↦ ?_⟩
    rw [← Except.error.inj hs]
    exact ⟨rfl, not_le.1 h⟩

theorem mem_gaps_empty_drive : (⟨MIB, 62 * GIB⟩ : Span) ∈ gaps ⟨62 * GIB + 2 * MIB, []⟩ := by decide +kernel

theorem inside_empty_drive :
    (∃ p, inside ⟨MIB, 62 * GIB⟩ (.room (34 * GIB)) [(.start, 512 * MIB), (.live, 3 * GIB)] = .ok p) ↔
      (Head.room (34 * GIB)).least + added [(.start, 512 * MIB), (.live, 3 * GIB)] ≤ (⟨MIB, 62 * GIB⟩ : Span).size :=
  (inside_gap mem_gaps_empty_drive _ _).2.1

end Meet
