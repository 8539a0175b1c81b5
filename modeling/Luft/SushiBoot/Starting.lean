import Luft.SushiBoot.Images

/-!
# Is the starting order an order?

The images are sorted by `Image.starting`.  It answers both ways round alike, but it can go round in
a circle, in two ways: a version that is no shorter than a newer one and no longer than an older one
it begins (`Stretched`), and an image without a sort key whose version is between those of two
images with keys that say the opposite.  `Orderly` is a list without either, and `totalOn_iff` says
that nothing else goes wrong.

Images that tie keep the order in which they were listed, so which entry is the default also takes
that nothing different ties for the first place (`OneForemost`).
-/

set_option autoImplicit false

open Std

namespace SushiBoot

namespace Image

variable {a b c : Image}

/-! ## The comparator -/

theorem order_of_none (h : a.sort_key = none ∨ b.sort_key = none) :
    a.order b = newest_first a.version b.version := by
  rw [order]
  rcases h with h | h
  · rw [h]
  · rw [h]
    cases a.sort_key <;> rfl

theorem order_of_some {k l : String} (ha : a.sort_key = some k) (hb : b.sort_key = some l) :
    a.order b = compare k l := by
  rw [order, ha, hb]

theorem order_self (a : Image) : a.order a = .eq := by
  rw [order]
  cases a.sort_key with
  | none => exact newest_first_self _
  | some k => exact compare_self

theorem order_swap (a b : Image) : b.order a = (a.order b).swap := by
  rw [order, order]
  cases a.sort_key <;> cases b.sort_key
  · exact newest_first_swap _ _
  · exact newest_first_swap _ _
  · exact newest_first_swap _ _
  · exact OrientedOrd.eq_swap

theorem starting_self (a : Image) : a.starting a = .eq := by
  rw [starting, compare_self, order_self]
  rfl

theorem starting_swap (a b : Image) : b.starting a = (a.starting b).swap := by
  rw [starting, starting, Ordering.swap_then, order_swap a b, OrientedOrd.eq_swap (a := b.bad)]

theorem starting_of_bad_eq (h : a.bad = b.bad) : a.starting b = a.order b := by
  rw [starting, h, compare_self]
  rfl

/-- Images that go round in a circle are all bad or all not. -/
theorem bad_eq_of_circle (hab : (a.starting b).isLE) (hbc : (b.starting c).isLE)
    (hca : (c.starting a).isLE) : a.bad = b.bad ∧ b.bad = c.bad := by
  have hab := Ordering.isLE_left_of_isLE_then hab
  have hbc := Ordering.isLE_left_of_isLE_then hbc
  have hca := Ordering.isLE_left_of_isLE_then hca
  revert hab hbc hca
  cases a.bad <;> cases b.bad <;> cases c.bad <;> decide

/-! ## Orderly lists -/

/-- No two of three images have a sort key, so that they compare by their versions. -/
def ByVersion (a b c : Image) : Prop :=
  (a.sort_key = none ∨ b.sort_key = none) ∧ (b.sort_key = none ∨ c.sort_key = none) ∧
    (c.sort_key = none ∨ a.sort_key = none)

/-- The lists on which the starting order is one.

* `versions`: no version of a `ByVersion` triple is stretched.
* `keys`: an image without a key is not between two with keys the other way round. -/
structure Orderly (images : List Image) : Prop where
  versions : ∀ x ∈ images, ∀ y ∈ images, ∀ z ∈ images, x.bad = y.bad → y.bad = z.bad →
    ByVersion x y z → ¬ Stretched x.version y.version z.version
  keys : ∀ a ∈ images, ∀ b ∈ images, ∀ c ∈ images, a.bad = b.bad → b.bad = c.bad →
    ∀ k l, a.sort_key = some k → b.sort_key = some l → c.sort_key = none →
      (compare k l).isLE → (newest_first b.version c.version).isLE →
        (newest_first c.version a.version).isLE →
          k = l ∧ newest_first b.version c.version = .eq ∧ newest_first c.version a.version = .eq

theorem ByVersion.order (h : ByVersion a b c) : a.order b = newest_first a.version b.version ∧
    b.order c = newest_first b.version c.version ∧ c.order a = newest_first c.version a.version :=
  ⟨order_of_none h.1, order_of_none h.2.1, order_of_none h.2.2⟩

/-- Three images are compared by version, or two of them have a key. -/
theorem byVersion_or (a b c : Image) : ByVersion a b c ∨
    (∃ k l, a.sort_key = some k ∧ b.sort_key = some l) ∨
    (∃ k l, b.sort_key = some k ∧ c.sort_key = some l) ∨
    ∃ k l, c.sort_key = some k ∧ a.sort_key = some l := by
  rw [ByVersion]
  cases a.sort_key <;> cases b.sort_key <;> cases c.sort_key <;> simp

variable {images : List Image}

/-- With keys on two of the three, an orderly list has no circle. -/
theorem Orderly.no_circle_of_keys (h : Orderly images) (ha : a ∈ images) (hb : b ∈ images)
    (hc : c ∈ images) (hab' : a.bad = b.bad) (hbc' : b.bad = c.bad) {k l : String}
    (hk : a.sort_key = some k) (hl : b.sort_key = some l) (hab : (a.order b).isLE)
    (hbc : (b.order c).isLE) (hca : (c.order a).isLE) :
    a.order b = .eq ∧ b.order c = .eq ∧ c.order a = .eq := by
  rw [order_of_some hk hl] at hab ⊢
  rcases hm : c.sort_key with _ | m
  · rw [order_of_none (.inr hm)] at hbc ⊢
    rw [order_of_none (.inl hm)] at hca ⊢
    obtain ⟨hkl, hbc, hca⟩ := h.keys a ha b hb c hc hab' hbc' k l hk hl hm hab hbc hca
    exact ⟨by rw [hkl, compare_self], hbc, hca⟩
  · rw [order_of_some hl hm] at hbc ⊢
    rw [order_of_some hm hk] at hca ⊢
    refine ⟨OrientedCmp.isLE_antisymm hab (TransOrd.isLE_trans hbc hca),
      OrientedCmp.isLE_antisymm hbc (TransOrd.isLE_trans hca hab),
      OrientedCmp.isLE_antisymm hca (TransOrd.isLE_trans hab hbc)⟩

/-- **On an orderly list the starting order never goes round in a circle.** -/
theorem Orderly.totalOn (h : Orderly images) : TotalOn starting images := by
  refine TotalOn.of_no_cycle (fun a _ ↦ starting_self a) (fun a _ b _ ↦ starting_swap a b) ?_
  intro a ha b hb c hc hab hbc hca
  obtain ⟨hab', hbc'⟩ := bad_eq_of_circle hab hbc (Ordering.isLE_of_eq_lt hca)
  rw [starting_of_bad_eq hab'] at hab
  rw [starting_of_bad_eq hbc'] at hbc
  rw [starting_of_bad_eq (hbc'.symm.trans hab'.symm)] at hca
  have hca' := Ordering.isLE_of_eq_lt hca
  rcases byVersion_or a b c with hv | ⟨k, l, hk, hl⟩ | ⟨k, l, hk, hl⟩ | ⟨k, l, hk, hl⟩
  · rw [hv.order.1] at hab
    rw [hv.order.2.1] at hbc
    rw [hv.order.2.2] at hca
    rcases exists_stretched hab hbc hca with hs | hs | hs
    · exact h.versions b hb c hc a ha hbc' (hbc'.symm.trans hab'.symm) ⟨hv.2.1, hv.2.2, hv.1⟩ hs
    · exact h.versions c hc a ha b hb (hbc'.symm.trans hab'.symm) hab' ⟨hv.2.2, hv.1, hv.2.1⟩ hs
    · exact h.versions a ha b hb c hc hab' hbc' hv hs
  · obtain ⟨-, -, heq⟩ := h.no_circle_of_keys ha hb hc hab' hbc' hk hl hab hbc hca'
    rw [heq] at hca
    cases hca
  · obtain ⟨-, heq, -⟩ := h.no_circle_of_keys hb hc ha hbc' (hbc'.symm.trans hab'.symm) hk hl hbc
      hca' hab
    rw [heq] at hca
    cases hca
  · obtain ⟨heq, -, -⟩ := h.no_circle_of_keys hc ha hb (hbc'.symm.trans hab'.symm) hab' hk hl hca'
      hab hbc
    rw [heq] at hca
    cases hca

/-- In a total order, three that follow each other round tie. -/
theorem ties_of_circle (h : TotalOn starting images) (ha : a ∈ images) (hb : b ∈ images)
    (hc : c ∈ images) (hab : (a.starting b).isLE) (hbc : (b.starting c).isLE)
    (hca : (c.starting a).isLE) :
    a.starting b = .eq ∧ b.starting c = .eq ∧ c.starting a = .eq := by
  have tie {o : Ordering} (hle : o.isLE) (hne : o ≠ .lt) : o = .eq := by
    revert hle hne
    cases o <;> decide
  exact ⟨tie hab (h.no_cycle hb hc ha hbc hca), tie hbc (h.no_cycle hc ha hb hca hab),
    tie hca (h.no_cycle ha hb hc hab hbc)⟩

/-- A list on which the starting order is total is orderly. -/
theorem orderly_of_totalOn (h : TotalOn starting images) : Orderly images where
  versions x hx y hy z hz hxy hyz hv hs := by
    obtain ⟨hzx, hxy', hyz'⟩ := hs.circle
    rw [← hv.order.2.2, ← starting_of_bad_eq (hyz.symm.trans hxy.symm)] at hzx
    rw [← hv.order.1, ← starting_of_bad_eq hxy] at hxy'
    rw [← hv.order.2.1, ← starting_of_bad_eq hyz] at hyz'
    exact h.no_cycle hz hx hy hzx hxy' hyz'
  keys a ha b hb c hc hab hbc k l hk hl hm hkl hbc' hca' := by
    have hcb : b.bad = c.bad := hbc
    rw [← order_of_some hk hl, ← starting_of_bad_eq hab] at hkl
    rw [← order_of_none (.inr hm), ← starting_of_bad_eq hbc] at hbc'
    rw [← order_of_none (.inl hm), ← starting_of_bad_eq (hbc.symm.trans hab.symm)] at hca'
    obtain ⟨h1, h2, h3⟩ := ties_of_circle h ha hb hc hkl hbc' hca'
    rw [starting_of_bad_eq hab, order_of_some hk hl] at h1
    rw [starting_of_bad_eq hbc, order_of_none (.inr hm)] at h2
    rw [starting_of_bad_eq (hbc.symm.trans hab.symm), order_of_none (.inl hm)] at h3
    exact ⟨LawfulEqOrd.compare_eq_iff_eq.1 h1, h2, h3⟩

/-- **The starting order is one exactly on the orderly lists.** -/
theorem totalOn_iff : TotalOn starting images ↔ Orderly images :=
  ⟨orderly_of_totalOn, Orderly.totalOn⟩

/-! ## The default entry -/

/-- Nothing in the list goes before it. -/
def Foremost (images : List Image) (a : Image) : Prop :=
  a ∈ images ∧ ∀ b ∈ images, (a.starting b).isLE

/-- All foremost images make the same entry. -/
def OneForemost (secure_boot : Bool) (images : List Image) : Prop :=
  ∀ a b, Foremost images a → Foremost images b →
    a.entry 0 (a.mainTitle true) secure_boot = b.entry 0 (b.mainTitle true) secure_boot

end Image

namespace Catalog

/-- The entry that starts when nothing else was chosen. -/
def defaultEntry (catalog : Catalog) : Option BootEntry :=
  catalog.first.bind fun index ↦ catalog.entries[index]?

variable {sorter : StableSort Image} {secure_boot : Bool} {images : List Image}

open Image

theorem defaultEntry_add {image : Image} {rest : List Image}
    (h : sorter.sort_by starting images = image :: rest) :
    (add sorter secure_boot images).defaultEntry =
      some (image.entry 0 (image.mainTitle true) secure_boot) := by
  obtain ⟨hfirst, hentry⟩ := first_addSorted secure_boot image rest
  rw [defaultEntry, add, h, hfirst]
  exact hentry

/-- **What the default entry needs to be sure of.** The starting order is total on the list, and the
default entry is the same however the images are listed, exactly for the orderly lists with one
foremost entry. -/
theorem default_sure_iff (sorter : StableSort Image) (secure_boot : Bool) (images : List Image) :
    (TotalOn starting images ∧ ∀ listed : List Image, listed.Perm images →
      (add sorter secure_boot listed).defaultEntry =
        (add sorter secure_boot images).defaultEntry) ↔
      Orderly images ∧ OneForemost secure_boot images := by
  rw [← totalOn_iff]
  refine and_congr_right fun htotal ↦ ⟨fun h a b ha hb ↦ ?_, fun h listed hperm ↦ ?_⟩
  · -- A foremost image that is listed first is the default.
    have hdefault {c : Image} (hc : Foremost images c) :
        (add sorter secure_boot images).defaultEntry =
          some (c.entry 0 (c.mainTitle true) secure_boot) := by
      have hperm := (List.perm_cons_erase hc.1).symm
      obtain ⟨rest, hrest⟩ := sorter.head_of_cons (htotal.of_subset hperm.subset) fun x hx ↦
        hc.2 x (hperm.subset hx)
      rw [← h _ hperm]
      exact defaultEntry_add hrest
    exact Option.some_inj.1 ((hdefault ha).symm.trans (hdefault hb))
  · have foremost {l : List Image} (hl : l.Perm images) {c : Image} {rest : List Image}
        (hsort : sorter.sort_by starting l = c :: rest) : Foremost images c := by
      refine ⟨hl.subset (sorter.mem_sort_by.1 (hsort ▸ List.mem_cons_self)), fun x hx ↦ ?_⟩
      exact sorter.head_isLE (htotal.of_subset hl.subset) hsort (hl.symm.subset hx)
    have hsorted := (sorter.perm starting listed).trans
      (hperm.trans (sorter.perm starting images).symm)
    rcases hx : sorter.sort_by starting listed with _ | ⟨x, xs⟩
    · rw [hx, List.nil_perm] at hsorted
      rw [add, add, hx, hsorted]
    · rcases hy : sorter.sort_by starting images with _ | ⟨y, ys⟩
      · rw [hx, hy] at hsorted
        exact absurd hsorted (List.not_perm_cons_nil)
      · rw [defaultEntry_add hx, defaultEntry_add hy,
          h x y (foremost hperm hx) (foremost (List.Perm.refl _) hy)]

/-! An entry that was rolled back to, the newer one it replaced, and an image in the folder of
images whose version lies between: the keys put the older entry first, the versions go the other
way round. -/

/-- A startup image of the boot volume, as it is found there. -/
def found (name : String) (sort_key : Option String) (version : String)
    (tries : Option Tries := none) : Image :=
  { origin := ⟨0, "", none⟩
    path := "\\EFI\\Linux\\" ++ name ++ ".efi"
    name := name ++ if sort_key.isSome then ".conf" else ".efi"
    sort_key := sort_key
    uki := ⟨none, "luft", some "Luft", some version, none, []⟩
    counted := tries.map fun tries ↦ ⟨0, "\\loader\\entries", name, name ++ ".conf", tries⟩ }

def rolledBack : List Image :=
  [found "first" (some "bootc-luft-0") "6.1", found "second" (some "bootc-luft-1") "6.3",
    found "third" none "6.2"]

theorem not_default_sure_rolledBack : ¬ (TotalOn starting rolledBack ∧
    ∀ listed : List Image, listed.Perm rolledBack →
      (add (StableSort.merge Image) true listed).defaultEntry =
        (add (StableSort.merge Image) true rolledBack).defaultEntry) := by
  rintro ⟨htotal, -⟩
  refine htotal.no_cycle (a := found "first" (some "bootc-luft-0") "6.1")
    (b := found "second" (some "bootc-luft-1") "6.3") (c := found "third" none "6.2")
    (by simp [rolledBack]) (by simp [rolledBack]) (by simp [rolledBack]) ?_ ?_ ?_
  · decide +kernel
  · decide +kernel
  · decide +kernel

end Catalog

end SushiBoot
