import Luft.Mover.Disk
import Luft.Mover.Phases

/-!
# The geometry of a plan

When do the steps of a plan leave everything on the drive but Luft alone, and where do they bring
Luft?  `Layout.Safe` says that no two partitions overlap after any of the steps, that partitions
which are not Luft's stay as they are, and that Luft arrives as a whole; `Layout.Clear` is the
condition for it.

The planner looks at the free space on either side of Luft but not at the gaps of less than a
mebibyte between that space and Luft, and it does not look whether a startup partition that follows
the root to the right stays clear of its old place.  `safe_iff` shows that these are the only two
ways to go wrong.
-/

set_option autoImplicit false

namespace Mover

open Table Runs

/-- The partitions that are not Luft's. -/
def Layout.others (layout : Layout) (t : Table) : Table := fun o ↦
  if o = layout.root.offset ∨ layout.startup.any fun startup ↦ startup.1.offset = o then none
  else t o

/-- Luft is whole, with its root at `o`: the root has its UUID and its settled encryption, the
startup partition has its size and its UUID and ends where the root starts, and nothing else is left
of the move. -/
structure Layout.ArrivedAt (layout : Layout) (t final : Table) (o : ℕ) : Prop where
  root : ∃ x, final o = some x ∧ x.uuid = some layout.rootUuid ∧ x.luks = layout.luksUuid ∧
    ∀ y, t layout.root.offset = some y → y.kind = rootType → x.kind = rootType
  startup : ∀ span uuid, layout.startup = some (span, uuid) → ∃ p x, p + span.size = o ∧
    final p = some x ∧ x.size = span.size ∧ x.uuid = some uuid ∧ x.kind = startupType
  others : ∀ p, p ≠ o → (∀ span uuid, layout.startup = some (span, uuid) → p + span.size ≠ o) →
    final p = layout.others t p

/-- The steps keep partitions apart, leave what is not Luft's alone and bring Luft to its place. -/
structure Layout.Safe (layout : Layout) (t : Table) (steps : List Step) : Prop where
  noOverlap : ∀ done, done <+: steps → NoOverlap (after Step.onTable done t)
  keeps : ∀ done, done <+: steps → Keeps (layout.others t) (after Step.onTable done t)
  arrived : ∃ o, layout.ArrivedAt t (after Step.onTable steps t) o

def Change.bytes : Change → ℕ
  | .grow => 0
  | .shrink bytes | .trim bytes => bytes

/-- When a plan is safe.  A root that grows needs the gaps between it and the free space next to it;
a root that moves to the right needs to go as far as the startup partition is long. -/
def Layout.Clear (layout : Layout) (t : Table) : Change → Prop
  | .grow => (∀ free, layout.freeBefore = some free → Fits t free.fin layout.block) ∧
    ∀ free, layout.freeAfter = some free → Fits t layout.root.fin free.offset
  | .shrink bytes => ∀ span uuid, layout.startup = some (span, uuid) →
    layout.root.offset + span.size ≤ layout.rightTarget bytes
  | .trim _ => True

namespace Layout

variable {layout : Layout} {t : Table} {o lo hi : ℕ} {x : Entry} {span : Span} {uuid : String}

theorem others_some (h : layout.others t o = some x) :
    t o = some x ∧ o ≠ layout.root.offset ∧
      ∀ span uuid, layout.startup = some (span, uuid) → o ≠ span.offset := by
  unfold others at h
  split at h
  · cases h
  next hown =>
    simp only [not_or] at hown
    refine ⟨h, hown.1, fun span uuid hstartup ↦ ?_⟩
    rintro rfl
    exact hown.2 (by simp [hstartup])

theorem others_eq (hroot : o ≠ layout.root.offset)
    (hstartup : ∀ span uuid, layout.startup = some (span, uuid) → o ≠ span.offset) :
    layout.others t o = t o := by
  unfold others
  rw [if_neg]
  rintro (h | h)
  · exact hroot h
  · rw [Option.any_eq_true] at h
    obtain ⟨⟨span, uuid⟩, h, ho⟩ := h
    exact hstartup span uuid h (of_decide_eq_true ho).symm

theorem others_root : layout.others t layout.root.offset = none := if_pos (.inl rfl)

theorem others_startup (h : layout.startup = some (span, uuid)) :
    layout.others t span.offset = none := if_pos (.inr (by simp [h]))

theorem keeps_others : Keeps (layout.others t) t := fun _ _ h ↦ (others_some h).1

theorem Found.fits_others (h : Fits t lo hi) : Fits (layout.others t) lo hi :=
  fun o x hx ↦ h o x (others_some hx).1

namespace Found

variable (h : layout.Found t)
include h

theorem others_pos : ∀ o x, layout.others t o = some x → 0 < x.size :=
  fun o x hx ↦ h.pos o x (others_some hx).1

theorem root_pos : 0 < layout.root.size := by
  obtain ⟨kind, hroot⟩ := h.root
  exact h.pos _ _ hroot

theorem startup_pos (hstartup : layout.startup = some (span, uuid)) : 0 < span.size := by
  obtain ⟨-, luks, hx⟩ := h.startup span uuid hstartup
  exact h.pos _ _ hx

theorem fits_root : Fits (layout.others t) layout.root.offset layout.root.fin := by
  intro o x hx
  obtain ⟨hx, hne, -⟩ := others_some hx
  obtain ⟨kind, hroot⟩ := h.root
  exact h.noOverlap o _ x _ hx hroot hne

theorem fits_startup (hstartup : layout.startup = some (span, uuid)) :
    Fits (layout.others t) span.offset span.fin := by
  intro o x hx
  obtain ⟨hx, -, hne⟩ := others_some hx
  obtain ⟨-, luks, hs⟩ := h.startup span uuid hstartup
  exact h.noOverlap o _ x _ hx hs (hne span uuid hstartup)

theorem noOverlap_others : NoOverlap (layout.others t) := fun a b x y hx hy ↦
  h.noOverlap a b x y (others_some hx).1 (others_some hy).1

/-- Where the other partitions leave room, Luft may use the drive. -/
theorem base (hfits : Fits (layout.others t) lo hi) :
    Base (layout.others t) (layout.others t) lo hi :=
  ⟨⟨h.noOverlap_others, .refl _⟩, hfits, fun _ hlo hhi ↦ hfits.vacant h.others_pos hlo hhi⟩

/-- The table of a Luft without a startup partition. -/
theorem table_alone (hstartup : layout.startup = none) : ∃ kind, t =
    (layout.others t).place layout.root.offset
      ⟨layout.root.size, kind, some layout.rootUuid, layout.luksUuid⟩ := by
  obtain ⟨kind, hroot⟩ := h.root
  refine ⟨kind, funext fun o ↦ ?_⟩
  rcases eq_or_ne o layout.root.offset with rfl | ho
  · rw [hroot, place_self]
  · rw [place_ne ho, others_eq ho (by simp [hstartup])]

/-- The table of a Luft with a startup partition. -/
theorem table_startup (hstartup : layout.startup = some (span, uuid)) : ∃ kind luks, t =
    ((layout.others t).place span.offset ⟨span.size, startupType, some uuid, luks⟩).place
      layout.root.offset ⟨layout.root.size, kind, some layout.rootUuid, layout.luksUuid⟩ := by
  obtain ⟨kind, hroot⟩ := h.root
  obtain ⟨hfin, luks, hs⟩ := h.startup span uuid hstartup
  refine ⟨kind, luks, funext fun o ↦ ?_⟩
  rcases eq_or_ne o layout.root.offset with rfl | ho
  · rw [hroot, place_self]
  rw [place_ne ho]
  rcases eq_or_ne o span.offset with rfl | ho'
  · rw [hs, place_self]
  · rw [place_ne ho', others_eq ho]
    rintro span' uuid' hstartup'
    rw [hstartup] at hstartup'
    cases hstartup'
    exact ho'

end Found

/-! ## Where a plan is safe -/

theorem safe_of_leads {steps : List Step} {final : Table}
    (h : Leads (layout.others t) steps t final) (harrived : layout.ArrivedAt t final o) :
    layout.Safe t steps :=
  ⟨fun done hdone ↦ ((throughout_iff steps t).1 h.1 done hdone).1,
    fun done hdone ↦ ((throughout_iff steps t).1 h.1 done hdone).2, o, by rwa [h.2]⟩

/-- A Luft without a startup partition has arrived. -/
theorem arrived_alone {size : ℕ} {kind : String} (hstartup : layout.startup = none)
    (hkind : ∀ y, t layout.root.offset = some y → y.kind = rootType → kind = rootType) :
    layout.ArrivedAt t
      ((layout.others t).place o ⟨size, kind, some layout.rootUuid, layout.luksUuid⟩) o := by
  refine ⟨⟨_, place_self, rfl, rfl, hkind⟩, ?_, fun p hp _ ↦ place_ne hp⟩
  intro span uuid h
  rw [hstartup] at h
  cases h

/-- A Luft with a startup partition has arrived. -/
theorem arrived_startup {size p : ℕ} {kind : String} {luks : Option String}
    (hstartup : layout.startup = some (span, uuid)) (hpos : 0 < span.size) (hp : p + span.size = o)
    (hkind : ∀ y, t layout.root.offset = some y → y.kind = rootType → kind = rootType) :
    layout.ArrivedAt t
      (((layout.others t).place p ⟨span.size, startupType, some uuid, luks⟩).place o
        ⟨size, kind, some layout.rootUuid, layout.luksUuid⟩) o := by
  refine ⟨⟨_, place_self, rfl, rfl, hkind⟩, ?_, fun q hq hq' ↦ ?_⟩
  · intro span' uuid' h
    rw [hstartup] at h
    cases h
    refine ⟨p, ⟨span.size, startupType, some uuid, luks⟩, hp, ?_, rfl, rfl, rfl⟩
    rw [place_ne (by omega), place_self]
  · have := hq' span uuid hstartup
    rw [place_ne hq, place_ne (by omega)]

namespace Found

variable (h : layout.Found t)
include h

/-- The base next to which the root partition is: the other partitions and the startup partition. -/
theorem home (hfits : Fits (layout.others t) layout.root.offset hi) : ∃ g kind,
    t = g.place layout.root.offset
      ⟨layout.root.size, kind, some layout.rootUuid, layout.luksUuid⟩ ∧
    Base (layout.others t) g layout.root.offset hi ∧
    ∀ size, layout.ArrivedAt t (g.place layout.root.offset
      ⟨size, kind, some layout.rootUuid, layout.luksUuid⟩) layout.root.offset := by
  rcases hstartup : layout.startup with - | ⟨span, uuid⟩
  · obtain ⟨kind, ht⟩ := h.table_alone hstartup
    refine ⟨_, kind, ht, h.base hfits, fun size ↦ arrived_alone hstartup fun y hy hkind ↦ ?_⟩
    rw [ht, place_self] at hy
    cases hy
    exact hkind
  · obtain ⟨kind, luks, ht⟩ := h.table_startup hstartup
    obtain ⟨hfin, -⟩ := h.startup span uuid hstartup
    have hpos := h.startup_pos hstartup
    rw [Span.fin] at hfin
    have hglue : Fits (layout.others t) span.offset hi := by
      refine Fits.glue h.others_pos ?_ hfits
      have := h.fits_startup hstartup
      rwa [Span.fin, hfin] at this
    refine ⟨_, kind, ht, ?_, fun size ↦ ?_⟩
    · rcases Nat.lt_or_ge layout.root.offset hi with hlt | hge
      · exact (h.base hglue).beside (x := ⟨span.size, startupType, some uuid, luks⟩)
          ⟨Nat.le_refl _, by simp only; omega⟩ hpos (by omega) (Nat.le_refl _)
          (.inl (by simp only; omega))
      · have hone := (h.base (h.fits_startup hstartup)).one
          (x := ⟨span.size, startupType, some uuid, luks⟩) (Nat.le_refl _) (Nat.le_refl _) hpos
        refine ⟨hone, hfits.place (.inl (by simp only; omega)), fun o ho ho' ↦ by omega⟩
    · refine arrived_startup hstartup hpos hfin fun y hy hkind ↦ ?_
      rw [ht, place_self] at hy
      cases hy
      exact hkind

/-- The free space behind the root, up to the end of a root that grows. -/
theorem fits_grown (hclear : layout.Clear t .grow) :
    Fits (layout.others t) layout.root.offset (layout.growsTo .grow) ∧
      layout.root.fin ≤ layout.growsTo .grow := by
  rw [growsTo]
  rcases hafter : layout.freeAfter with - | free
  · exact ⟨h.fits_root, Nat.le_refl _⟩
  · obtain ⟨hpos, hle, hfits⟩ := h.after free hafter
    have hgap := hclear.2 free hafter
    refine ⟨?_, ?_⟩
    · exact (h.fits_root.glue h.others_pos (fits_others hgap)).glue h.others_pos (fits_others hfits)
    · simp only [Option.elim_some, Span.fin] at hle ⊢
      omega

/-- Growing into the free space behind is safe when nothing lies before it. -/
theorem safe_inPlace {free : Span} (hafter : layout.freeAfter = some free)
    (hclear : layout.Clear t .grow) : layout.Safe t [.grow layout.root.offset free.fin] := by
  obtain ⟨hfits, hle⟩ := h.fits_grown hclear
  simp only [growsTo, hafter, Option.elim_some] at hfits hle
  obtain ⟨g, kind, ht, hbase, harrived⟩ := h.home hfits
  have hpos := h.root_pos
  rw [Span.fin] at hle
  have hgrow := leads_change (e := fun e ↦
      { e with size := max e.size (free.fin - layout.root.offset) }) hbase
    (.grow layout.root.offset free.fin) rfl
    (Nat.le_refl _) (x := ⟨layout.root.size, kind, some layout.rootUuid, layout.luksUuid⟩) hle hpos
    (by simp only; omega) (by simp only; omega)
  rw [← ht] at hgrow
  exact safe_of_leads hgrow (harrived _)

/-- Giving back space at the end is safe. -/
theorem safe_trimmed {size : ℕ} (hpos : 0 < size) (hle : size ≤ layout.root.size) :
    layout.Safe t [.shrink layout.root.offset size] := by
  obtain ⟨g, kind, ht, hbase, harrived⟩ := h.home h.fits_root
  have hshrink := leads_shrink hbase size
    (x := ⟨layout.root.size, kind, some layout.rootUuid, layout.luksUuid⟩) (Nat.le_refl _)
    (Nat.le_refl _) hpos hle
  rw [← ht] at hshrink
  exact safe_of_leads hshrink (harrived _)

/-- The free space before Luft, up to the end of a root that grows into it. -/
theorem fits_left {free : Span} (hbefore : layout.freeBefore = some free)
    (hclear : layout.Clear t .grow) :
    Fits (layout.others t) free.offset (layout.growsTo .grow) := by
  obtain ⟨-, -, hle, hfits⟩ := h.before free hbefore
  have hgap := (hfits.glue h.pos (hclear.1 free hbefore))
  have hroot := (h.fits_grown hclear).1
  rcases hstartup : layout.startup with - | ⟨span, uuid⟩
  · rw [block, hstartup, Option.elim_none] at hgap
    exact (fits_others hgap).glue h.others_pos hroot
  · obtain ⟨hfin, -⟩ := h.startup span uuid hstartup
    have hspan := h.fits_startup hstartup
    rw [block, hstartup, Option.elim_some] at hgap
    rw [hfin] at hspan
    exact ((fits_others hgap).glue h.others_pos hspan).glue h.others_pos hroot

/-- A free segment is aligned: the planner's target is where it starts, or a startup partition
further. -/
theorem leftTarget_eq {free : Span} (hbefore : layout.freeBefore = some free) :
    layout.leftTarget free = free.offset + layout.startupSize := by
  rw [leftTarget, alignUp, Align.up_of_dvd mib_pos (h.before free hbefore).1]

/-- A root that grows to the left goes to the left. -/
theorem leftTarget_lt {free : Span} (hbefore : layout.freeBefore = some free)
    (hsize : max gib layout.startupSize ≤ free.size) :
    layout.leftTarget free < layout.root.offset ∧ layout.leftTarget free ≤ free.fin := by
  have hgib := gib_pos
  have htarget := h.leftTarget_eq hbefore
  obtain ⟨-, -, hle, -⟩ := h.before free hbefore
  rw [Nat.max_le] at hsize
  rw [Span.fin] at hle ⊢
  rcases hstartup : layout.startup with - | ⟨span, uuid⟩
  · simp only [startupSize, block, hstartup, Option.elim_none] at hle htarget
    omega
  · obtain ⟨hfin, -⟩ := h.startup span uuid hstartup
    have hpos := h.startup_pos hstartup
    simp only [startupSize, block, hstartup, Option.elim_some, Span.fin] at hle htarget hsize hfin
    omega

omit h in
/-- The root partition moves next to a base, from where it is found. -/
theorem leads_root {g : Table} {change : Change} {target : ℕ} {hops : List Step} {x : Entry}
    (hbase : Base (layout.others t) g lo hi) (hhops : (layout.move change target).Hops hops)
    (hx : x.size = layout.root.size) (hpos : 0 < x.size) (htarget : lo ≤ target)
    (hstart : lo ≤ layout.root.offset) (hroom : target < layout.root.fin)
    (hfin : layout.root.fin ≤ layout.growsTo change) (hhi : layout.growsTo change ≤ hi) :
    ∃ size, 0 < size ∧ target + size ≤ hi ∧
      Leads (layout.others t) (hops ++ (layout.move change target).stretch)
        (g.place layout.root.offset x) (g.place target ⟨size, rootType, none, none⟩) := by
  have hneed : 0 < (layout.move change target).need := by
    rw [move_need]
    exact gib_pos.trans_le (gib_le_needed layout.allocated)
  have hmove := leads_move hbase hhops (x := x) (by rw [move_root, hx]) hpos hneed
    (by rwa [move_target]) (by rwa [move_root]) (by rw [move_root]; omega)
    (by rwa [move_root, move_target]) (by rw [move_target, move_fin]; omega)
  rwa [move_root, move_target] at hmove

/-- Growing to the left is safe when the gaps on both sides are empty. -/
theorem safe_left {free : Span} {hops : List Step} (hbefore : layout.freeBefore = some free)
    (hsize : max gib layout.startupSize ≤ free.size)
    (hhops : (layout.move .grow (layout.leftTarget free)).Hops hops)
    (hclear : layout.Clear t .grow) :
    layout.Safe t (layout.startupLeft free ++
      (hops ++ (layout.move .grow (layout.leftTarget free)).stretch) ++
      closing layout .grow (layout.leftTarget free)) := by
  have htarget := h.leftTarget_eq hbefore
  have hgrown := (h.fits_grown hclear).2
  have hrootpos := h.root_pos
  have hlt := h.leftTarget_lt hbefore hsize
  have hrootfin : layout.root.fin = layout.root.offset + layout.root.size := rfl
  have hbase := h.base (h.fits_left hbefore hclear)
  rcases hstartup : layout.startup with - | ⟨span, uuid⟩
  · -- the root goes where the free segment starts
    obtain ⟨kind, ht⟩ := h.table_alone hstartup
    obtain ⟨size, hpos, hle, hmove⟩ := leads_root hbase hhops
      (x := ⟨layout.root.size, kind, some layout.rootUuid, layout.luksUuid⟩) rfl hrootpos
      (by omega) (by omega) (by omega) hgrown (Nat.le_refl _)
    have hnames := leads_names hbase layout.rootUuid layout.luksUuid (by omega) hle hpos
    have hall := hmove.append hnames
    rw [← ht] at hall
    rw [startupLeft_alone hstartup, closing_alone hstartup, List.nil_append]
    exact safe_of_leads hall (arrived_alone hstartup fun _ _ _ ↦ rfl)
  · -- the startup partition goes first, and the root right behind it
    obtain ⟨kind, luks, ht⟩ := h.table_startup hstartup
    obtain ⟨hfin, -⟩ := h.startup span uuid hstartup
    have hspanpos := h.startup_pos hstartup
    have hstartupSize : layout.startupSize = span.size := by
      rw [startupSize, hstartup, Option.elim_some]
    have htarget' : alignUp free.offset = free.offset :=
      Align.up_of_dvd mib_pos (h.before free hbefore).1
    have hle := (h.before free hbefore).2.2.1
    rw [block, hstartup, Option.elim_some] at hle
    rw [Nat.max_le] at hsize
    rw [Span.fin] at hfin hle
    dsimp only at hle
    -- next to the root, the startup partition goes from before it to the start of the free segment
    have hahead := leads_moveStartup (s := (span, uuid)) (b := free.offset)
      (x := ⟨span.size, startupType, some uuid, luks⟩)
      (hbase.beside (x := ⟨layout.root.size, kind, some layout.rootUuid, layout.luksUuid⟩)
        (c := free.offset) (d := layout.root.offset) ⟨by omega, by simp only; omega⟩ hrootpos
        (Nat.le_refl _) (by omega) (.inr (Nat.le_refl _)))
      rfl hspanpos ⟨by simp only; omega, by simp only; omega⟩
      ⟨Nat.le_refl _, by simp only; omega⟩ (.inr (by simp only; omega))
    -- next to the new startup partition, the root follows
    have hbase' := hbase.beside (x := ⟨span.size, startupType, some uuid, none⟩)
      (a := free.offset) (c := layout.leftTarget free) (d := layout.growsTo .grow)
      ⟨Nat.le_refl _, by simp only; omega⟩ hspanpos (by omega) (Nat.le_refl _)
      (.inl (by simp only; omega))
    obtain ⟨size, hpos, hle, hmove⟩ := leads_root hbase' hhops
      (x := ⟨layout.root.size, kind, some layout.rootUuid, layout.luksUuid⟩) rfl hrootpos
      (Nat.le_refl _) (by omega) (by omega) hgrown (Nat.le_refl _)
    have hnames := leads_names hbase' layout.rootUuid layout.luksUuid (Nat.le_refl _) hle hpos
    dsimp only at hahead
    rw [place_comm (by omega), ← ht, place_comm (by omega)] at hahead
    have hall := (hahead.append hmove).append hnames
    rw [startupLeft_some hstartup, closing_grow, htarget']
    exact safe_of_leads hall (arrived_startup hstartup hspanpos (by omega) fun _ _ _ ↦ rfl)

/-- Giving space back is safe when the startup partition stays clear of its old place. -/
theorem safe_right {bytes : ℕ} {hops : List Step} (hsize : max gib layout.startupSize ≤ bytes)
    (hroom : layout.rightTarget bytes < layout.root.fin)
    (hhops : (layout.move (.shrink bytes) (layout.rightTarget bytes)).Hops hops)
    (hclear : layout.Clear t (.shrink bytes)) :
    layout.Safe t (hops ++ (layout.move (.shrink bytes) (layout.rightTarget bytes)).stretch ++
      closing layout (.shrink bytes) (layout.rightTarget bytes)) := by
  have hrootpos := h.root_pos
  have hlt := layout.lt_rightTarget (le_of_max_le_left hsize)
  have hrootfin : layout.root.fin = layout.root.offset + layout.root.size := rfl
  rcases hstartup : layout.startup with - | ⟨span, uuid⟩
  · obtain ⟨kind, ht⟩ := h.table_alone hstartup
    have hbase := h.base h.fits_root
    obtain ⟨size, hpos, hle, hmove⟩ := leads_root hbase hhops
      (x := ⟨layout.root.size, kind, some layout.rootUuid, layout.luksUuid⟩) rfl hrootpos
      hlt.le (Nat.le_refl _) hroom (Nat.le_refl _) (Nat.le_refl _)
    have hnames := leads_names hbase layout.rootUuid layout.luksUuid hlt.le hle hpos
    have hall := hmove.append hnames
    rw [← ht] at hall
    rw [closing_alone hstartup]
    exact safe_of_leads hall (arrived_alone hstartup fun _ _ _ ↦ rfl)
  · obtain ⟨kind, luks, ht⟩ := h.table_startup hstartup
    obtain ⟨hfin, -⟩ := h.startup span uuid hstartup
    have hspanpos := h.startup_pos hstartup
    have hfar := hclear span uuid hstartup
    have hspan := h.fits_startup hstartup
    rw [hfin] at hspan
    rw [Span.fin] at hfin
    have hbase := h.base (hspan.glue h.others_pos h.fits_root)
    -- next to the startup partition, the root moves
    have hbase' := hbase.beside (x := ⟨span.size, startupType, some uuid, luks⟩)
      (a := span.offset) (c := layout.root.offset) (d := layout.root.fin)
      ⟨Nat.le_refl _, by simp only; omega⟩ hspanpos (by omega) (Nat.le_refl _)
      (.inl (by simp only; omega))
    obtain ⟨size, hpos, hle, hmove⟩ := leads_root hbase' hhops
      (x := ⟨layout.root.size, kind, some layout.rootUuid, layout.luksUuid⟩) rfl hrootpos
      hlt.le (Nat.le_refl _) hroom (Nat.le_refl _) (Nat.le_refl _)
    -- next to the new root, the startup partition follows
    have hbehind := leads_moveStartup (s := (span, uuid))
      (b := layout.rightTarget bytes - span.size) (x := ⟨span.size, startupType, some uuid, luks⟩)
      (hbase.beside (x := ⟨size, rootType, none, none⟩) (a := layout.rightTarget bytes)
        (c := span.offset) (d := layout.rightTarget bytes) ⟨by omega, hle⟩ hpos
        (Nat.le_refl _) (by omega) (.inr (Nat.le_refl _)))
      rfl hspanpos ⟨Nat.le_refl _, by simp only; omega⟩
      ⟨by omega, by simp only; omega⟩ (.inl (by simp only; omega))
    have hbase'' := hbase.beside (x := ⟨span.size, startupType, some uuid, none⟩)
      (a := layout.rightTarget bytes - span.size) (c := layout.rightTarget bytes)
      (d := layout.root.fin) ⟨by omega, by simp only; omega⟩ hspanpos (by omega) (Nat.le_refl _)
      (.inl (by simp only; omega))
    have hnames := leads_names hbase'' layout.rootUuid layout.luksUuid (Nat.le_refl _) hle hpos
    rw [← ht] at hmove
    dsimp only at hbehind
    rw [place_comm (by omega), place_comm (a := layout.rightTarget bytes) (by omega)] at hbehind
    have hall := hmove.append (hbehind.append hnames)
    rw [closing_shrink hstartup]
    exact safe_of_leads hall (arrived_startup hstartup hspanpos (by omega) fun _ _ _ ↦ rfl)

end Found

/-! ## Where a plan is not -/

/-- What stays there when a step does not take it away. -/
theorem isSome_onTable {step : Step} (hstay : step ≠ .delete o)
    (hstay' : ∀ uuid, step ≠ .discard o uuid) (h : (t o).isSome) :
    (step.onTable t o).isSome := by
  have hchange : ∀ (u : Table) a e, (u o).isSome → (u.change a e o).isSome := by
    intro u a e hu
    rcases eq_or_ne o a with rfl | ho
    · rwa [change_self, Option.isSome_map]
    · rwa [change_ne ho]
  have hadd : ∀ a y, (t.add a y o).isSome := by
    intro a y
    rcases eq_or_ne o a with rfl | ho
    · exact isSome_add
    · rwa [add_ne ho]
  cases step with
  | copyStartup src dst =>
    rw [Step.onTable]
    split
    · exact h
    · exact hchange _ _ _ (hadd _ _)
  | hand src dst => exact hchange _ _ _ (hchange _ _ _ h)
  | create a size => exact hadd _ _
  | delete a =>
    rw [Step.onTable, remove, Function.update_of_ne (by rintro rfl; exact hstay rfl)]
    exact h
  | discard a uuid =>
    rw [Step.onTable]
    split
    · rw [remove, Function.update_of_ne (by rintro rfl; exact hstay' uuid rfl)]
      exact h
    · exact h
  | leave a => exact h
  | forgetStartEntry number => exact h
  | removeFolder folder => exact h
  | _ => exact hchange _ _ _ h

theorem isSome_after {steps : List Step} (hstay : ∀ step ∈ steps, step ≠ .delete o)
    (hstay' : ∀ step ∈ steps, ∀ uuid, step ≠ .discard o uuid) (h : (t o).isSome) :
    (after Step.onTable steps t o).isSome := by
  induction steps generalizing t with
  | nil => exact h
  | cons step steps ih =>
    refine ih (fun s hs ↦ hstay s (List.mem_cons_of_mem _ hs))
      (fun s hs ↦ hstay' s (List.mem_cons_of_mem _ hs)) ?_
    exact isSome_onTable (hstay step List.mem_cons_self) (hstay' step List.mem_cons_self) h

/-- After a hop there is a partition where it went, on any table. -/
theorem isSome_into (m : Move) {a b size : ℕ} (hab : a ≠ b) :
    (after Step.onTable (m.into a b size) t b).isSome := by
  rcases hsealed : m.sealed <;>
    simp only [Move.into, hsealed, Bool.false_eq_true, if_true, if_false, List.append_nil,
      List.cons_append, List.nil_append, after_cons (Step.create b size)] <;>
    exact isSome_after (by simp [hab]) (by simp) isSome_add

theorem isSome_hops {m : Move} {hops : List Step} (hhops : m.Hops hops)
    (htarget : m.target < m.root.offset) : (after Step.onTable hops t m.target).isSome := by
  cases hhops with
  | left hleft hneed => exact isSome_into m (by omega)
  | right hright hneed => omega
  | twice hdirect hneed =>
    rw [after_cons, after_append]
    refine isSome_into m (Nat.ne_of_gt ?_)
    rw [Move.middle]
    omega

/-- The names leave the size of the root alone. -/
theorem size_names {a : ℕ} {y : Entry} (h : t a = some y) (uuid : String) (luks : Option String) :
    ∃ z, after Step.onTable ([.rename a uuid] ++ luks.elim [] fun luks ↦ [.settle a luks]) t a =
      some z ∧ z.size = y.size := by
  cases luks with
  | none =>
    refine ⟨{ y with uuid := some uuid }, ?_, rfl⟩
    simp only [Option.elim_none, List.append_nil, after_cons, after_nil, Step.onTable, change_self,
      h, Option.map_some]
  | some luks =>
    refine ⟨{ y with uuid := some uuid, luks := some luks }, ?_, rfl⟩
    simp only [Option.elim_some, List.cons_append, List.nil_append, after_cons, after_nil,
      Step.onTable, change_self, h, Option.map_some]

theorem offsets_into (m : Move) {a b size : ℕ} {step : Step} (hstep : step ∈ m.into a b size)
    (ho : o ∈ step.offsets) : o = a ∨ o = b := by
  rcases hsealed : m.sealed <;> simp [Move.into, hsealed] at hstep
  · rcases hstep with rfl | rfl | rfl | rfl | rfl <;> simp [Step.offsets] at ho <;> omega
  · rcases hstep with rfl | rfl | rfl | rfl | rfl | rfl | rfl <;> simp [Step.offsets] at ho <;> omega

/-- A move to the right keeps to the right of where it started. -/
theorem offsets_hops {m : Move} {hops : List Step} (hhops : m.Hops hops)
    (htarget : m.root.offset ≤ m.target) {step : Step} (hstep : step ∈ hops)
    (ho : o ∈ step.offsets) : m.root.offset ≤ o := by
  have hmiddle : m.root.offset ≤ m.middle := Nat.le_add_right _ _
  cases hhops with
  | left hleft hneed => omega
  | right hright hneed =>
    rcases List.mem_cons.1 hstep with rfl | hstep
    · exact (List.mem_singleton.1 ho).ge
    · rcases offsets_into m hstep ho with rfl | rfl <;> omega
  | twice hdirect hneed =>
    rcases List.mem_cons.1 hstep with rfl | hstep
    · exact (List.mem_singleton.1 ho).ge
    · rcases List.mem_append.1 hstep with hstep | hstep <;>
        rcases offsets_into m hstep ho with rfl | rfl <;> omega

/-- A step that lets a partition take the space up to an end. -/
theorem grow_some {a : ℕ} (fin : ℕ) (h : (t a).isSome) :
    ∃ y, (Step.grow a fin).onTable t a = some y ∧ fin ≤ a + y.size := by
  obtain ⟨x, hx⟩ := Option.isSome_iff_exists.1 h
  refine ⟨{ x with size := max x.size (fin - a) }, ?_, by simp only; omega⟩
  rw [Step.onTable, change_self, hx, Option.map_some]

namespace Found

variable (h : layout.Found t)
include h

/-- Where the root ends up, no other partition was. -/
theorem fits_of_safe {steps : List Step} (hsafe : layout.Safe t steps) {a fin : ℕ} {y : Entry}
    (hfinal : Runs.after Step.onTable steps t a = some y) (hsize : fin ≤ a + y.size)
    (ha : a ≤ layout.root.offset) (hfin : layout.root.fin ≤ fin) :
    Fits (layout.others t) a fin := by
  intro o x hx
  have hkept := hsafe.keeps steps (List.prefix_refl steps) o x hx
  rcases eq_or_ne o a with rfl | hne
  · -- a partition that starts there and reaches as far would lie across the root
    obtain rfl : y = x := Option.some.inj (hfinal.symm.trans hkept)
    have hpos := h.root_pos
    obtain ⟨kind, hroot⟩ := h.root
    obtain ⟨hx, hne, -⟩ := others_some hx
    rw [Span.fin] at hfin
    rcases h.noOverlap o _ y _ hx hroot hne with h | h <;> omega
  · rcases hsafe.noOverlap steps (List.prefix_refl steps) o a x y hkept hfinal hne with h | h
    · exact .inl h
    · exact .inr (by omega)

/-- A stretch is free of all partitions when it is free of the others and Luft is elsewhere. -/
theorem fits_of_others (hfits : Fits (layout.others t) lo hi)
    (hroot : layout.root.fin ≤ lo ∨ hi ≤ layout.root.offset)
    (hstartup : ∀ span uuid, layout.startup = some (span, uuid) →
      span.fin ≤ lo ∨ hi ≤ span.offset) : Fits t lo hi := by
  intro o x hx
  rcases eq_or_ne o layout.root.offset with rfl | ho
  · obtain ⟨kind, hroot'⟩ := h.root
    rw [hroot'] at hx
    cases hx
    exact hroot
  by_cases hown : ∃ span uuid, layout.startup = some (span, uuid) ∧ o = span.offset
  · obtain ⟨span, uuid, hspan, rfl⟩ := hown
    obtain ⟨-, luks, hs⟩ := h.startup span uuid hspan
    rw [hs] at hx
    cases hx
    exact hstartup span uuid hspan
  · refine hfits o x ?_
    rwa [others_eq ho fun span uuid hspan ho' ↦ hown ⟨span, uuid, hspan, ho'⟩]

/-- The gap behind the root is free when a root that grows over it is safe. -/
theorem fits_behind (hfits : Fits (layout.others t) layout.root.offset (layout.growsTo .grow))
    {free : Span} (hafter : layout.freeAfter = some free) :
    Fits t layout.root.fin free.offset := by
  have hroot : layout.root.fin = layout.root.offset + layout.root.size := rfl
  simp only [growsTo, hafter, Option.elim_some] at hfits
  refine h.fits_of_others (hfits.mono (by omega) (Nat.le_add_right _ _)) (.inl (Nat.le_refl _)) ?_
  intro span uuid hspan
  have := (h.startup span uuid hspan).1
  omega

theorem clear_inPlace {free : Span} (hbefore : layout.freeBefore = none)
    (hafter : layout.freeAfter = some free)
    (hsafe : layout.Safe t [.grow layout.root.offset free.fin]) : layout.Clear t .grow := by
  obtain ⟨hpos, hle, -⟩ := h.after free hafter
  obtain ⟨kind, hroot⟩ := h.root
  obtain ⟨y, hy, hsize⟩ := grow_some (t := t) free.fin (by rw [hroot]; rfl)
  have hfin : free.fin = free.offset + free.size := rfl
  have hfits := h.fits_of_safe hsafe hy hsize (Nat.le_refl _) (by omega)
  refine ⟨fun free' h' ↦ ?_, fun free' h' ↦ ?_⟩
  · rw [hbefore] at h'
    cases h'
  · refine h.fits_behind ?_ h'
    rwa [growsTo, hafter, Option.elim_some]

theorem clear_left {free : Span} {hops : List Step} (hbefore : layout.freeBefore = some free)
    (hsize : max gib layout.startupSize ≤ free.size)
    (hhops : (layout.move .grow (layout.leftTarget free)).Hops hops)
    (hsafe : layout.Safe t (layout.startupLeft free ++
      (hops ++ (layout.move .grow (layout.leftTarget free)).stretch) ++
      closing layout .grow (layout.leftTarget free))) : layout.Clear t .grow := by
  obtain ⟨hlt, hle⟩ := h.leftTarget_lt hbefore hsize
  have hstretch : (layout.move .grow (layout.leftTarget free)).stretch =
      [.grow (layout.leftTarget free) (layout.growsTo .grow)] := by
    rw [Move.stretch_left (by rw [move_target, move_root]; omega), move_target, move_fin]
  -- the root ends up over everything from its target to its end
  obtain ⟨y, hy, hcovers⟩ : ∃ y, Runs.after Step.onTable (layout.startupLeft free ++
      (hops ++ (layout.move .grow (layout.leftTarget free)).stretch) ++
      closing layout .grow (layout.leftTarget free)) t (layout.leftTarget free) = some y ∧
      layout.growsTo .grow ≤ layout.leftTarget free + y.size := by
    rw [closing_grow, hstretch, after_append (_ ++ _), after_append (layout.startupLeft free),
      after_append hops]
    have hsome := isSome_hops (t := Runs.after Step.onTable (layout.startupLeft free) t) hhops
      (by rw [move_target, move_root]; exact hlt)
    rw [move_target] at hsome
    obtain ⟨y, hy, hcovers⟩ := grow_some (layout.growsTo .grow) hsome
    obtain ⟨z, hz, hzsize⟩ := size_names hy layout.rootUuid layout.luksUuid
    exact ⟨z, hz, by omega⟩
  have hgrows : layout.root.fin ≤ layout.growsTo .grow := by
    rw [growsTo]
    rcases hafter : layout.freeAfter with - | after
    · exact Nat.le_refl _
    · obtain ⟨-, hle, -⟩ := h.after after hafter
      rw [Option.elim_some]
      exact hle.trans (Nat.le_add_right _ _)
  have hfits := h.fits_of_safe hsafe hy hcovers hlt.le hgrows
  refine ⟨fun free' h' ↦ ?_, fun free' h' ↦ h.fits_behind (hfits.mono hlt.le (Nat.le_refl _)) h'⟩
  rw [hbefore] at h'
  cases h'
  have hroot : layout.root.fin = layout.root.offset + layout.root.size := rfl
  have hblock : layout.block ≤ layout.root.offset ∧
      ∀ span uuid, layout.startup = some (span, uuid) → layout.block = span.offset := by
    rcases hstartup : layout.startup with - | ⟨span, uuid⟩
    · rw [block, hstartup]
      exact ⟨Nat.le_refl _, fun _ _ h ↦ by cases h⟩
    · have := (h.startup span uuid hstartup).1
      rw [block, hstartup, Option.elim_some]
      rw [Span.fin] at this
      refine ⟨by dsimp only; omega, fun _ _ h ↦ ?_⟩
      cases h
      rfl
  refine h.fits_of_others (hfits.mono hle (by omega)) (.inr hblock.1) ?_
  intro span uuid hspan
  exact .inr (hblock.2 span uuid hspan).le

theorem clear_right {bytes : ℕ} {hops : List Step} (hsize : max gib layout.startupSize ≤ bytes)
    (hhops : (layout.move (.shrink bytes) (layout.rightTarget bytes)).Hops hops)
    (hsafe : layout.Safe t (hops ++
      (layout.move (.shrink bytes) (layout.rightTarget bytes)).stretch ++
        closing layout (.shrink bytes) (layout.rightTarget bytes))) :
    layout.Clear t (.shrink bytes) := by
  intro span uuid hstartup
  have hlt := layout.lt_rightTarget (le_of_max_le_left hsize)
  obtain ⟨hfin, luks, hs⟩ := h.startup span uuid hstartup
  have hspanpos := h.startup_pos hstartup
  rw [Span.fin] at hfin
  -- right after its copy is made, the startup partition is still where it was
  set moved := hops ++ (layout.move (.shrink bytes) (layout.rightTarget bytes)).stretch with hmoved
  have hframe : Runs.after Step.onTable moved t span.offset =
      some ⟨span.size, startupType, some uuid, luks⟩ := by
    rw [← hs]
    refine after_frame fun step hstep ho ↦ ?_
    have hge : layout.root.offset ≤ span.offset := by
      rcases List.mem_append.1 hstep with hstep | hstep
      · have := offsets_hops hhops (by rw [move_root, move_target]; exact hlt.le) hstep ho
        rwa [move_root] at this
      · rw [Move.stretch] at hstep
        split at hstep
        · rw [List.mem_singleton.1 hstep, Step.offsets, move_target, List.mem_singleton] at ho
          omega
        · cases hstep
    omega
  have hdone : moved ++ [.copyStartup span ⟨layout.rightTarget bytes - span.size, span.size⟩] <+:
      moved ++ closing layout (.shrink bytes) (layout.rightTarget bytes) := by
    rw [List.prefix_append_right_inj, closing_shrink hstartup]
    exact ⟨_, rfl⟩
  have hcopied : ((Step.copyStartup span ⟨layout.rightTarget bytes - span.size, span.size⟩).onTable
      (Runs.after Step.onTable moved t) (layout.rightTarget bytes - span.size)).isSome := by
    rw [Step.onTable, hframe, if_neg (by simp), change_self, Option.isSome_map]
    exact isSome_add
  obtain ⟨y, hy⟩ := Option.isSome_iff_exists.1 hcopied
  have hne : span.offset ≠ layout.rightTarget bytes - span.size := by omega
  have hold := (Step.onTable_frame (t := Runs.after Step.onTable moved t)
    (.copyStartup span ⟨layout.rightTarget bytes - span.size, span.size⟩) (o := span.offset)
    (by simpa [Step.offsets] using hne)).trans hframe
  have hapart := hsafe.noOverlap _ hdone span.offset (layout.rightTarget bytes - span.size)
  rw [after_append, after_cons, after_nil] at hapart
  rcases hapart _ _ hold hy hne with hapart | hapart
  · dsimp only at hapart
    omega
  · omega

end Found

/-! ## Exactly when -/

section

variable {change : Change} {steps : List Step}

theorem safe_of_clear (h : layout.Found t) (hfin : layout.root.fin < 2 ^ 64)
    (hbytes : change.bytes ≤ layout.root.size) (hplan : layout.Planned change steps)
    (hclear : layout.Clear t change) : layout.Safe t steps := by
  have hneed := gib_pos.trans_le (gib_le_needed layout.allocated)
  cases hplan with
  | inPlace free hbefore hafter => exact h.safe_inPlace hafter hclear
  | trimmed bytes hle hroom =>
    refine h.safe_trimmed (hneed.trans_le hroom) ?_
    exact (Align.down_le _ _).trans (Nat.sub_le _ _)
  | left free hops hbefore hsize hroom hhops => exact h.safe_left hbefore hsize hhops hclear
  | right bytes hops hsize hroom hhops =>
    have hle : layout.rightTarget bytes ≤ layout.root.fin :=
      (layout.rightTarget_le bytes).trans (Nat.add_le_add_left hbytes _)
    rw [wrappingSub_eq hle hfin] at hroom
    exact h.safe_right hsize (by omega) hhops hclear

theorem clear_of_safe (h : layout.Found t) (hplan : layout.Planned change steps)
    (hsafe : layout.Safe t steps) : layout.Clear t change := by
  cases hplan with
  | inPlace free hbefore hafter => exact h.clear_inPlace hbefore hafter hsafe
  | trimmed bytes hle hroom => trivial
  | left free hops hbefore hsize hroom hhops => exact h.clear_left hbefore hsize hhops hsafe
  | right bytes hops hsize hroom hhops => exact h.clear_right hsize hhops hsafe

end

end Layout

/-- **When a plan is safe.**  For every layout found on a sound drive and every plan for it: the
steps keep all partitions apart, leave what is not Luft's alone and bring Luft to its place as a
whole, if and only if the gaps a growing root takes are empty and a root that moves to the right
makes room for its startup partition. -/
theorem safe_iff {host : Host} {disk : Disk} {layout : Layout} {change : Change}
    {steps : List Step} (hsound : disk.Sound) (hcurrent : current host disk = .ok layout)
    (hfin : layout.root.fin < 2 ^ 64) (hbytes : change.bytes ≤ layout.root.size)
    (hplan : plan layout change = .ok steps) :
    layout.Safe disk.table steps ↔ layout.Clear disk.table change := by
  have hfound := found_of_current hsound hcurrent
  have hplanned := Layout.plan_cases hplan
  constructor
  · exact Layout.clear_of_safe hfound hplanned
  · exact Layout.safe_of_clear hfound hfin hbytes hplanned

/-! ## Two drives -/

def host (allocated : ℕ) : Host := ⟨"/dev/sda3", true, 1, allocated⟩

/-- A drive with Windows, Luft's startup partition and Luft, `off` bytes further than whole
mebibytes. -/
def drive (off : ℕ) : Disk :=
  { parts := [
      ⟨⟨mib, 90 * gib⟩, "/dev/sda1", "ebd0a0a2-b9e5-4433-87c0-68b6b72699c7", "w", "windows", "ntfs",
        none⟩,
      ⟨⟨100 * gib + off, 2 * gib⟩, "/dev/sda2", startupType, "s", "startup", "vfat", none⟩,
      ⟨⟨102 * gib + off, 100 * gib⟩, "/dev/sda3", rootType, "r", "root", "btrfs", none⟩]
    free := [⟨91 * gib, 8 * gib⟩] }

def luft (off allocated : ℕ) : Layout :=
  ⟨⟨102 * gib + off, 100 * gib⟩, "root", none, some (⟨100 * gib + off, 2 * gib⟩, "startup"), none,
    none, allocated⟩

/-- Thirty gibibytes are given back to Windows. -/
theorem safe_shrinking : (luft 0 (20 * gib)).Safe (drive 0).table
    [.shrink (102 * gib) (30 * gib), .create (132 * gib) (70 * gib), .join (132 * gib),
      .hand (102 * gib) (132 * gib), .leave (102 * gib), .delete (102 * gib),
      .copyStartup ⟨100 * gib, 2 * gib⟩ ⟨130 * gib, 2 * gib⟩, .delete (100 * gib),
      .rename (130 * gib) "startup", .rename (132 * gib) "root"] := by
  have hsound : (drive 0).Sound :=
    ⟨by decide +kernel, by decide +kernel, by decide +kernel, by decide +kernel, by decide +kernel⟩
  have hcurrent : current (host (20 * gib)) (drive 0) = .ok (luft 0 (20 * gib)) := by rfl
  have hbytes : (Change.shrink (30 * gib)).bytes ≤ (luft 0 (20 * gib)).root.size := by
    decide +kernel
  refine (safe_iff hsound hcurrent (by decide +kernel) hbytes (by decide +kernel)).2 ?_
  intro span uuid h
  cases h
  decide +kernel

/-- On a drive where Luft does not start at a whole mebibyte, giving back as much as the startup
partition is long puts its copy over the end of the partition itself. -/
theorem not_safe_shrinking : (drive 512).Sound ∧ current (host 0) (drive 512) = .ok (luft 512 0) ∧
    (luft 512 0).root.fin < 2 ^ 64 ∧ 2 * gib ≤ (luft 512 0).root.size ∧
    ∃ steps, plan (luft 512 0) (.shrink (2 * gib)) = .ok steps ∧
      ¬(luft 512 0).Safe (drive 512).table steps := by
  have hsound : (drive 512).Sound :=
    ⟨by decide +kernel, by decide +kernel, by decide +kernel, by decide +kernel, by decide +kernel⟩
  have hcurrent : current (host 0) (drive 512) = .ok (luft 512 0) := by rfl
  refine ⟨hsound, hcurrent, by decide +kernel, by decide +kernel,
    [.shrink (102 * gib + 512) (2 * gib - 512), .create (104 * gib) (98 * gib + 512),
      .join (104 * gib), .hand (102 * gib + 512) (104 * gib), .leave (102 * gib + 512),
      .delete (102 * gib + 512), .copyStartup ⟨100 * gib + 512, 2 * gib⟩ ⟨102 * gib, 2 * gib⟩,
      .delete (100 * gib + 512), .rename (102 * gib) "startup", .rename (104 * gib) "root"],
    by decide +kernel, fun hsafe ↦ ?_⟩
  have hclear : (luft 512 0).Clear (drive 512).table (.shrink (2 * gib)) :=
    Layout.clear_of_safe (found_of_current hsound hcurrent)
      (Layout.plan_cases (by decide +kernel)) hsafe
  have hclear := hclear _ _ rfl
  revert hclear
  decide +kernel

end Mover
