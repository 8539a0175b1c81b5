import Luft.Mover.Table
import Luft.Mover.Shapes

/-!
# The phases of a plan on the partition table

A plan goes through phases: a partition hops to a new place, takes the space behind it, the startup
partition is copied.  Each lemma here follows one phase table by table, on a table that holds one
partition of Luft's next to a base that stays as it is (`Base`).  All tables passed are `Good`: they
have no overlap, and every partition that is not Luft's is as it was.
-/

set_option autoImplicit false

namespace Mover

open Table Runs

/-- Nothing overlaps, and the partitions of `f` are as they are there. -/
def Good (f t : Table) : Prop := NoOverlap t ∧ Keeps f t

/-- The steps lead from one table to another, through good ones. -/
def Leads (f : Table) (steps : List Step) (t u : Table) : Prop :=
  Throughout Step.onTable (Good f) steps t ∧ after Step.onTable steps t = u

theorem Leads.append {f t u v : Table} {as bs : List Step} (h : Leads f as t u)
    (h' : Leads f bs u v) : Leads f (as ++ bs) t v := by
  obtain ⟨hgood, rfl⟩ := h
  obtain ⟨hgood', rfl⟩ := h'
  exact ⟨(throughout_append as bs t).2 ⟨hgood, hgood'⟩, after_append as bs t⟩

/-- A table next to which Luft may use the drive from `lo` to `hi`. -/
structure Base (f g : Table) (lo hi : ℕ) : Prop where
  good : Good f g
  fits : Fits g lo hi
  vacant : ∀ o, lo ≤ o → o < hi → g o = none

section

variable {f g : Table} {lo hi a b n : ℕ} {x y : Entry}

namespace Base

variable (h : Base f g lo hi)
include h

theorem vacant_f (hlo : lo ≤ a) (hhi : a < hi) : f a = none := by
  rcases hx : f a with - | x
  · rfl
  · have := h.good.2 a x hx
    rw [h.vacant a hlo hhi] at this
    cases this

/-- One more partition inside the free stretch. -/
theorem one (hlo : lo ≤ a) (hhi : a + x.size ≤ hi) (hx : 0 < x.size) : Good f (g.place a x) :=
  ⟨h.good.1.place (h.fits.mono hlo hhi), h.good.2.place (h.vacant_f hlo (by omega))⟩

/-- Two more partitions inside the free stretch, one beside the other. -/
theorem two (ha : lo ≤ a ∧ a + x.size ≤ hi) (hx : 0 < x.size) (hb : lo ≤ b ∧ b + y.size ≤ hi)
    (hy : 0 < y.size) (hab : a + x.size ≤ b ∨ b + y.size ≤ a) :
    Good f ((g.place a x).place b y) := by
  refine ⟨(h.one ha.1 ha.2 hx).1.place ?_, (h.one ha.1 ha.2 hx).2.place ?_⟩
  · exact (h.fits.mono hb.1 hb.2).place (by omega)
  · exact h.vacant_f hb.1 (by omega)

/-- A partition inside the free stretch makes a new base beside it. -/
theorem beside {c d : ℕ} (ha : lo ≤ a ∧ a + x.size ≤ hi) (hx : 0 < x.size) (hlo : lo ≤ c)
    (hhi : d ≤ hi) (hapart : a + x.size ≤ c ∨ d ≤ a) : Base f (g.place a x) c d := by
  refine ⟨h.one ha.1 ha.2 hx, (h.fits.mono hlo hhi).place hapart, fun o ho ho' ↦ ?_⟩
  rw [place_ne (by omega)]
  exact h.vacant o (by omega) (by omega)

end Base

theorem change_right {e : Entry → Entry} :
    ((g.place a x).place b y).change b e = (g.place a x).place b (e y) := by
  rw [change_some place_self, place_place]

theorem change_left {e : Entry → Entry} (hab : a ≠ b) :
    ((g.place a x).place b y).change a e = (g.place a (e x)).place b y := by
  rw [place_comm hab, change_right, place_comm hab.symm]

theorem remove_left (hab : a ≠ b) (ha : g a = none) :
    ((g.place a x).place b y).remove a = g.place b y := by
  rw [place_comm hab, remove_place (by rwa [place_ne hab])]

theorem add_beside (hab : a ≠ b) (hb : g b = none) :
    (g.place a x).add b y = (g.place a x).place b y := add_none (by rwa [place_ne hab.symm])

/-- **A hop**: the files go from the partition at `a` to a new one at `b`, and the old one goes. -/
theorem leads_into (h : Base f g lo hi) (m : Move) (ha : lo ≤ a ∧ a + x.size ≤ hi)
    (hx : 0 < x.size) (hb : lo ≤ b ∧ b + n ≤ hi) (hn : 0 < n)
    (hab : a + x.size ≤ b ∨ b + n ≤ a) :
    Leads f (m.into a b n) (g.place a x) (g.place b ⟨n, rootType, none, none⟩) := by
  have hne : a ≠ b := by omega
  have hga : g a = none := h.vacant a ha.1 (by omega)
  have hgb : g b = none := h.vacant b hb.1 (by omega)
  have htwo : ∀ x' y' : Entry, x'.size = x.size → y'.size = n →
      Good f ((g.place a x').place b y') := by
    intro x' y' hx' hy'
    exact h.two ⟨ha.1, by omega⟩ (by omega) ⟨hb.1, by omega⟩ (by omega) (by omega)
  have hone : Good f (g.place a x) := h.one ha.1 ha.2 hx
  have hlast : Good f (g.place b ⟨n, rootType, none, none⟩) := h.one hb.1 hb.2 hn
  rcases hsealed : m.sealed <;>
    simp only [Leads, Move.into, hsealed, Bool.false_eq_true, if_true, if_false, List.nil_append,
      List.append_nil, List.cons_append, throughout_cons, throughout_nil, after_cons, after_nil,
      Step.onTable, add_beside hne hgb, change_right, change_left hne, remove_left hne hga,
      and_true]
  · exact ⟨hone, htwo _ _ rfl rfl, htwo _ _ rfl rfl, htwo _ _ rfl rfl, htwo _ _ rfl rfl, hlast⟩
  · exact ⟨hone, htwo _ _ rfl rfl, htwo _ _ rfl rfl, htwo _ _ rfl rfl, htwo _ _ rfl rfl,
      htwo _ _ rfl rfl, htwo _ _ rfl rfl, hlast⟩

/-- **The startup partition moves**: its copy is there before it goes, and gets its name. -/
theorem leads_moveStartup (h : Base f g lo hi) {s : Span × String}
    (hx : x.size = s.1.size) (hpos : 0 < x.size)
    (ha : lo ≤ s.1.offset ∧ s.1.offset + x.size ≤ hi) (hb : lo ≤ b ∧ b + x.size ≤ hi)
    (hab : s.1.offset + x.size ≤ b ∨ b + x.size ≤ s.1.offset) :
    Leads f (moveStartup s b) (g.place s.1.offset x)
      (g.place b ⟨x.size, startupType, some s.2, none⟩) := by
  have hne : s.1.offset ≠ b := by omega
  have hga : g s.1.offset = none := h.vacant _ ha.1 (by omega)
  have hgb : g b = none := h.vacant b hb.1 (by omega)
  have hcopy : Step.onTable (.copyStartup s.1 ⟨b, s.1.size⟩)
      (g.place s.1.offset x) =
        (g.place s.1.offset x).place b ⟨x.size, startupType, none, none⟩ := by
    rw [Step.onTable, place_self, if_neg (by simp), add_beside hne hgb, change_right, hx]
  have hrename : (g.place b ⟨x.size, startupType, none, none⟩).change b (fun e ↦
      { e with uuid := some s.2 }) = g.place b ⟨x.size, startupType, some s.2, none⟩ := by
    rw [change_some place_self, place_place]
  simp only [Leads, moveStartup, throughout_cons, throughout_nil, after_cons, after_nil, hcopy]
  simp only [Step.onTable, remove_left hne hga, hrename, and_true]
  exact ⟨h.one ha.1 ha.2 hpos, h.two ha hpos hb hpos hab, h.one hb.1 hb.2 hpos,
    h.one hb.1 hb.2 hpos⟩

/-- A step that changes what the table says of one partition, but not where it ends. -/
theorem leads_change (h : Base f g lo hi) (step : Step) {e : Entry → Entry}
    (hstep : Step.onTable step (g.place a x) = (g.place a x).change a e) (ha : lo ≤ a)
    (hhi : a + x.size ≤ hi) (hpos : 0 < x.size) (hhi' : a + (e x).size ≤ hi)
    (hpos' : 0 < (e x).size) :
    Leads f [step] (g.place a x) (g.place a (e x)) := by
  rw [Leads, after_cons, after_nil, throughout_cons, throughout_nil, hstep, change_some place_self,
    place_place]
  exact ⟨⟨h.one ha hhi hpos, h.one ha hhi' hpos'⟩, rfl⟩

theorem leads_shrink (h : Base f g lo hi) (size : ℕ) (ha : lo ≤ a) (hhi : a + x.size ≤ hi)
    (hsize : 0 < size) (hle : size ≤ x.size) :
    Leads f [.shrink a size] (g.place a x) (g.place a { x with size := size }) := by
  have := leads_change (e := fun e ↦ { e with size := min e.size size }) h
    (.shrink a size) rfl ha hhi (by omega) (by simp only; omega) (by simp only; omega)
  rwa [Nat.min_eq_right hle] at this

/-- **The root partition goes to its new place**, in one hop or in two. -/
theorem leads_hops (h : Base f g lo hi) {m : Move} {hops : List Step} (hhops : m.Hops hops)
    (hx : x.size = m.root.size) (hpos : 0 < x.size) (hneed : 0 < m.need) (htarget : lo ≤ m.target)
    (hstart : lo ≤ m.root.offset) (hfin : m.root.fin ≤ hi) (hroom : m.target < m.root.fin) :
    ∃ size, 0 < size ∧ m.target + size ≤ hi ∧
      Leads f hops (g.place m.root.offset x) (g.place m.target ⟨size, rootType, none, none⟩) := by
  have hend : m.root.fin = m.root.offset + x.size := by rw [hx, Span.fin]
  cases hhops with
  | left hleft hfar =>
    refine ⟨_, by omega, by omega, leads_into h m ⟨hstart, by omega⟩ ?_ ⟨htarget, ?_⟩ ?_ ?_⟩ <;>
      omega
  | right hright hfar =>
    refine ⟨m.root.fin - m.target, by omega, by omega, (leads_shrink h
      (m.target - m.root.offset) hstart (by omega) (by omega) (by omega)).append ?_⟩
    exact leads_into h m ⟨hstart, by simp only; omega⟩ (by simp only; omega) ⟨htarget, by omega⟩
      (by omega) (by simp only; omega)
  | twice hdirect hfar =>
    have hkept := m.le_kept
    have hmiddle : m.middle = m.root.offset + m.kept := rfl
    refine ⟨m.middle - m.target, by omega, by omega,
      (leads_shrink h m.kept hstart (by omega) (by omega) (by omega)).append ?_⟩
    have hfirst := leads_into (x := { x with size := m.kept }) (b := m.middle)
      (n := m.root.fin - m.middle) h m ⟨hstart, by simp only; omega⟩ (by simp only; omega)
      ⟨by omega, by omega⟩ (by omega) (by simp only; omega)
    refine hfirst.append ?_
    exact leads_into h m ⟨by omega, by simp only; omega⟩ (by simp only; omega)
      ⟨htarget, by omega⟩ (by omega) (by simp only; omega)

/-- The root partition goes to its new place and takes the space behind it. -/
theorem leads_move (h : Base f g lo hi) {m : Move} {hops : List Step} (hhops : m.Hops hops)
    (hx : x.size = m.root.size) (hpos : 0 < x.size) (hneed : 0 < m.need) (htarget : lo ≤ m.target)
    (hstart : lo ≤ m.root.offset) (hfin : m.root.fin ≤ hi) (hroom : m.target < m.root.fin)
    (hend : m.target < m.fin ∧ m.fin ≤ hi) :
    ∃ size, 0 < size ∧ m.target + size ≤ hi ∧ Leads f (hops ++ m.stretch)
      (g.place m.root.offset x) (g.place m.target ⟨size, rootType, none, none⟩) := by
  obtain ⟨size, hsize, hle, hhop⟩ :=
    leads_hops h hhops hx hpos hneed htarget hstart hfin hroom
  rw [Move.stretch]
  split
  · refine ⟨max size (m.fin - m.target), by omega, by omega, hhop.append ?_⟩
    exact leads_change (e := fun e ↦ { e with size := max e.size (m.fin - m.target) }) h _ rfl htarget
      hle hsize (by simp only; omega) (by simp only; omega)
  · exact ⟨size, hsize, hle, by rwa [List.append_nil]⟩

/-- The root partition gets its names back. -/
theorem leads_names (h : Base f g lo hi) (uuid : String) (luks : Option String) (ha : lo ≤ a)
    (hhi : a + n ≤ hi) (hpos : 0 < n) :
    Leads f ([.rename a uuid] ++ luks.elim [] fun luks ↦ [.settle a luks])
      (g.place a ⟨n, rootType, none, none⟩) (g.place a ⟨n, rootType, some uuid, luks⟩) := by
  have hrename := leads_change (x := ⟨n, rootType, none, none⟩)
    (e := fun e ↦ { e with uuid := some uuid }) h (.rename a uuid) rfl ha hhi hpos hhi hpos
  cases luks with
  | none => exact hrename
  | some luks =>
    exact hrename.append (leads_change (e := fun e ↦ { e with luks := some luks }) h _ rfl ha hhi hpos
      hhi hpos)

end

end Mover
