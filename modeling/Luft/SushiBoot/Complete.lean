import Luft.SushiBoot.Fallback

/-!
# The catalog is complete

What `Catalog.add` leaves behind, for any list of images: every image's own entry is on the main page or
behind Previous versions, and nothing is there twice (`Filled`).  Where the starting order is one, the
first entry is of a good image if there is one, and a `failed` entry is of a bad image that goes before
the good one which is on the main page instead (`Sure`).

`failed` is no place of its own: the entry it names is behind Previous versions as well.
-/

set_option autoImplicit false

namespace SushiBoot

def Row.index : Row → Option ℕ
  | .entry index => some index
  | .previous => none

namespace Catalog

/-- The entries on the main page. -/
def onMain (catalog : Catalog) : List ℕ := catalog.main.filterMap Row.index

/-- The entries that the menu leads to. -/
def reachable (catalog : Catalog) : List ℕ :=
  catalog.onMain ++ if Row.previous ∈ catalog.main then catalog.previous else []

def indices (catalog : Catalog) : List ℕ := catalog.onMain ++ catalog.previous ++ catalog.others

/-- No entry has two places, and every place has an entry. -/
structure Indexed (catalog : Catalog) : Prop where
  nodup : catalog.indices.Nodup
  valid : ∀ i ∈ catalog.indices, i < catalog.entries.length

/-- The image's own entry is at the index. -/
def Shows (secure_boot : Bool) (catalog : Catalog) (i : ℕ) (image : Image) : Prop :=
  ∃ entry, catalog.entries[i]? = some entry ∧ Made secure_boot (image, 0) entry

/-- **What a filled catalog has**: every image's own entry in a place of its own, the places different and
valid, and a failed entry among the previous ones. -/
structure Filled (secure_boot : Bool) (sorted : List Image) (catalog : Catalog) : Prop where
  complete : ∀ n image, sorted[n]? = some image →
    own sorted n ∈ catalog.reachable ∧ Shows secure_boot catalog (own sorted n) image
  indexed : Indexed catalog
  failed : ∀ i, catalog.failed = some i → i ∈ catalog.previous

/-- **Why an entry is `failed`**: it is of a bad image, and of its system a good one is on the main page
that no other good one goes before, but the bad one does. -/
def Failed (secure_boot : Bool) (sorted : List Image) (catalog : Catalog) (i : ℕ) : Prop :=
  ∃ image first j, image ∈ sorted ∧ image.bad ∧ Shows secure_boot catalog i image ∧
    first ∈ sorted ∧ first.bad = false ∧ first.uki.os = image.uki.os ∧
    j ∈ catalog.onMain ∧ Shows secure_boot catalog j first ∧
    (∀ other ∈ sorted, other.bad = false → other.uki.os = image.uki.os → (first.order other).isLE) ∧
    image.order first = .lt

/-- **What can be relied on where the images are in order.** -/
structure Sure (secure_boot : Bool) (sorted : List Image) (catalog : Catalog) : Prop where
  first : (∃ image ∈ sorted, image.bad = false) → ∃ i image, catalog.first = some i ∧
    image ∈ sorted ∧ image.bad = false ∧ Shows secure_boot catalog i image
  failed : ∀ i, catalog.failed = some i → Failed secure_boot sorted catalog i

variable {secure_boot : Bool} {catalog catalog' : Catalog} {image : Image} {newest : Bool}

/-! ## Pushing entries -/

theorem Indexed.push (h : Indexed catalog) {entry : BootEntry}
    (hentries : catalog'.entries = catalog.entries ++ [entry])
    (hindices : catalog'.indices.Perm (catalog.entries.length :: catalog.indices) ∨
      catalog'.indices = catalog.indices) : Indexed catalog' := by
  have hlength : catalog'.entries.length = catalog.entries.length + 1 := by
    rw [hentries, List.length_append, List.length_singleton]
  rcases hindices with hperm | hsame
  · have hnew : catalog.entries.length ∉ catalog.indices := fun hmem ↦ (h.valid _ hmem).ne rfl
    refine ⟨hperm.nodup_iff.2 (List.nodup_cons.2 ⟨hnew, h.nodup⟩), fun i hi ↦ ?_⟩
    rcases List.mem_cons.1 (hperm.mem_iff.1 hi) with rfl | hi
    · omega
    · have := h.valid i hi
      omega
  · refine ⟨hsame ▸ h.nodup, fun i hi ↦ ?_⟩
    have := h.valid i (hsame ▸ hi)
    omega

theorem perm_concat (main previous others : List ℕ) (i : ℕ) :
    (main ++ [i] ++ previous ++ others).Perm (i :: (main ++ previous ++ others)) := by
  rw [List.append_assoc, List.append_assoc, List.append_assoc]
  exact List.perm_middle

theorem onMain_append (row : Row) :
    ({ catalog with main := catalog.main ++ [row] } : Catalog).onMain =
      catalog.onMain ++ row.index.toList := by
  rw [onMain, List.filterMap_append, onMain]
  cases row <;> rfl

theorem onMain_subset (h : catalog.main <+: catalog'.main) : catalog.onMain ⊆ catalog'.onMain :=
  (h.sublist.filterMap _).subset

/-- What pushing further profiles leaves alone. -/
structure Same (catalog catalog' : Catalog) : Prop where
  previous : catalog'.previous = catalog.previous
  failed : catalog'.failed = catalog.failed
  others : catalog'.others = catalog.others

variable (secure_boot image newest) in
theorem same_addProfile (catalog : Catalog) (profile : Profile × ℕ) :
    Same catalog (addProfile secure_boot image newest catalog profile) := by
  rw [addProfile]
  split
  · exact ⟨rfl, rfl, rfl⟩
  · exact ⟨rfl, rfl, rfl⟩

variable (secure_boot image newest) in
theorem same_profiles (profiles : List (Profile × ℕ)) (catalog : Catalog) :
    Same catalog (profiles.foldl (addProfile secure_boot image newest) catalog) := by
  induction profiles generalizing catalog with
  | nil => exact ⟨rfl, rfl, rfl⟩
  | cons profile profiles ih =>
    obtain ⟨hprevious, hfailed, hothers⟩ :=
      same_addProfile secure_boot image newest catalog profile
    obtain ⟨hprevious', hfailed', hothers'⟩ := ih (addProfile secure_boot image newest catalog profile)
    exact ⟨hprevious'.trans hprevious, hfailed'.trans hfailed, hothers'.trans hothers⟩

theorem indexed_addProfile (h : Indexed catalog) (profile : Profile × ℕ) :
    Indexed (addProfile secure_boot image newest catalog profile) := by
  refine h.push (addProfile_entries catalog profile) ?_
  rw [addProfile]
  split
  · refine .inl ?_
    rw [indices, onMain_append]
    exact perm_concat _ _ _ _
  · exact .inr rfl

theorem indexed_profiles (profiles : List (Profile × ℕ)) (h : Indexed catalog) :
    Indexed (profiles.foldl (addProfile secure_boot image newest) catalog) := by
  induction profiles generalizing catalog with
  | nil => exact h
  | cons profile profiles ih => exact ih (indexed_addProfile h profile)

theorem indexed_addMain (h : Indexed catalog) (first : Option Image) :
    Indexed (addMain secure_boot image first catalog) := by
  refine h.push (addMain_entries catalog first) (.inl ?_)
  cases first with
  | none =>
    rw [addMain, indices, onMain_append]
    exact perm_concat _ _ _ _
  | some first =>
    show (catalog.onMain ++ (catalog.previous ++ [_]) ++ catalog.others).Perm _
    rw [← List.append_assoc, List.append_assoc]
    exact List.perm_middle

variable (secure_boot) in
theorem indexed_addImage (h : Indexed catalog) (listed : List Image) (image : Image) :
    Indexed (addImage secure_boot catalog listed image).1 :=
  indexed_profiles _ (indexed_addMain h _)

/-! ## The loop -/

/-- The images at the two places are of one system, and the first is the first of it. -/
def Leads (images : List Image) (m : ℕ) (first : Image) : Prop :=
  images[m]? = some first ∧ ∀ k < m, ∀ x, images[k]? = some x → x.uki.os ≠ first.uki.os

/-- **What holds after some of the images.** -/
structure Filling (images : List Image) (catalog : Catalog) (listed : List Image) : Prop where
  length : catalog.entries.length = (images.flatMap slots).length
  indexed : Indexed catalog
  listed : ∀ os, (listed.find? fun x ↦ x.uki.os == os) = images.find? fun x ↦ x.uki.os == os
  first : ∀ m x, Leads images m x → own images m ∈ catalog.onMain
  others : ∀ n x, images[n]? = some x → own images n ∈ catalog.onMain ++ catalog.previous
  failed : ∀ i, catalog.failed = some i → i ∈ catalog.previous ∧ ∃ n x m first,
    images[n]? = some x ∧ i = own images n ∧ x.bad ∧ Leads images m first ∧ m < n ∧
      first.uki.os = x.uki.os ∧ x.order first = .lt

theorem filling_nil : Filling [] {} [] where
  length := rfl
  indexed := ⟨.nil, nofun⟩
  listed _ := rfl
  first m x h := by cases h.1
  others n x h := by cases h
  failed i h := by cases h

theorem own_append {images : List Image} {n : ℕ} (hn : n ≤ images.length) (image : Image) :
    own (images ++ [image]) n = own images n := by
  rw [own, own, List.take_append_of_le_length hn]

theorem own_length (images : List Image) : own images images.length = (images.flatMap slots).length := by
  rw [own, List.take_length]

theorem getElem?_concat {images : List Image} {n : ℕ} {x : Image} :
    (images ++ [image])[n]? = some x ↔
      images[n]? = some x ∨ n = images.length ∧ x = image := by
  rcases Nat.lt_trichotomy n images.length with hlt | rfl | hgt
  · rw [List.getElem?_append_left hlt]
    simp [hlt.ne]
  · simp [eq_comm]
  · rw [List.getElem?_append_right hgt.le]
    simp [hgt.ne', hgt.le, Nat.sub_eq_zero_iff_le, hgt]

theorem Leads.of_concat {images : List Image} {m : ℕ} {x : Image} (h : Leads (images ++ [image]) m x) :
    Leads images m x ∨ m = images.length ∧ x = image ∧ ∀ y ∈ images, y.uki.os ≠ image.uki.os := by
  obtain ⟨hx, hbefore⟩ := h
  rcases getElem?_concat.1 hx with hx | ⟨rfl, rfl⟩
  · exact .inl ⟨hx, fun k hk y hy ↦ hbefore k hk y (getElem?_concat.2 (.inl hy))⟩
  · refine .inr ⟨rfl, rfl, fun y hy ↦ ?_⟩
    obtain ⟨k, hk⟩ := List.getElem?_of_mem hy
    exact hbefore k (List.getElem?_eq_some_iff.1 hk).1 y (getElem?_concat.2 (.inl hk))

theorem Leads.concat {images : List Image} {m : ℕ} {x : Image} (h : Leads images m x) (image : Image) :
    Leads (images ++ [image]) m x := by
  refine ⟨getElem?_concat.2 (.inl h.1), fun k hk y hy ↦ ?_⟩
  rcases getElem?_concat.1 hy with hy | ⟨rfl, -⟩
  · exact h.2 k hk y hy
  · exact absurd (List.getElem?_eq_some_iff.1 h.1).1 (by omega)

theorem find?_eq_some_leads {images : List Image} {os : String} {first : Image}
    (h : (images.find? fun x ↦ x.uki.os == os) = some first) :
    first.uki.os = os ∧ ∃ m, Leads images m first := by
  obtain ⟨m, hm, hos, hbefore⟩ := First.find?_eq_some_iff_at.1 h
  have hos : first.uki.os = os := eq_of_beq hos
  refine ⟨hos, m, hm, fun k hk x hx heq ↦ ?_⟩
  have := hbefore k hk x hx
  rw [heq, hos, beq_self_eq_true] at this
  cases this

variable (secure_boot catalog) in
/-- The first image of its system goes on the main page. -/
theorem addImage_first {listed : List Image}
    (h : (listed.find? fun x ↦ x.uki.os == image.uki.os) = none) :
    (addImage secure_boot catalog listed image).2 = listed ++ [image] ∧
      (addImage secure_boot catalog listed image).1.previous = catalog.previous ∧
      (addImage secure_boot catalog listed image).1.failed = catalog.failed ∧
      catalog.entries.length ∈ (addImage secure_boot catalog listed image).1.onMain := by
  rw [addImage, h]
  have hsame := same_profiles secure_boot image true
    (further image) (addMain secure_boot image none catalog)
  refine ⟨rfl, hsame.previous, hsame.failed, onMain_subset (profiles_main _ _) ?_⟩
  rw [addMain, onMain_append]
  exact List.mem_append_right _ List.mem_cons_self

variable (secure_boot catalog) in
/-- Every other one goes behind Previous versions. -/
theorem addImage_previous {listed : List Image} {first : Image}
    (h : (listed.find? fun x ↦ x.uki.os == image.uki.os) = some first) :
    (addImage secure_boot catalog listed image).2 = listed ∧
      (addImage secure_boot catalog listed image).1.previous =
        catalog.previous ++ [catalog.entries.length] ∧
      (addImage secure_boot catalog listed image).1.failed =
        if image.bad && image.order first == .lt then some catalog.entries.length
        else catalog.failed := by
  rw [addImage, h]
  have hsame := same_profiles secure_boot image false
    (further image) (addMain secure_boot image (some first) catalog)
  exact ⟨rfl, hsame.previous, hsame.failed⟩

/-- **One image more.** -/
theorem Filling.concat {images listed : List Image} (h : Filling images catalog listed) (image : Image) :
    Filling (images ++ [image]) (addImage secure_boot catalog listed image).1
      (addImage secure_boot catalog listed image).2 := by
  have hfind := h.listed image.uki.os
  obtain ⟨own_entries, hentries, hmade⟩ := addImage_made secure_boot catalog listed image
  have hmain := onMain_subset (addImage_main secure_boot catalog listed image)
  have hindexed := indexed_addImage secure_boot h.indexed listed image
  have hlength : (addImage secure_boot catalog listed image).1.entries.length =
      ((images ++ [image]).flatMap slots).length := by
    rw [hentries, List.length_append, h.length, List.flatMap_append, List.length_append,
      List.flatMap_singleton, hmade.length_eq]
  have hold {n : ℕ} {x : Image} (hx : images[n]? = some x) : own (images ++ [image]) n = own images n :=
    own_append (List.getElem?_eq_some_iff.1 hx).1.le image
  have hnew : own (images ++ [image]) images.length = catalog.entries.length := by
    rw [own_append le_rfl, own_length, h.length]
  have hother {n : ℕ} {x : Image} (hx : images[n]? = some x) :
      own images n ∈ (addImage secure_boot catalog listed image).1.onMain ++ catalog.previous :=
    (List.mem_append.1 (h.others n x hx)).elim (fun hi ↦ List.mem_append_left _ (hmain hi))
      (List.mem_append_right _)
  have hkept {i : ℕ} (hi : catalog.failed = some i) : i ∈ catalog.previous ∧ ∃ n x m first,
      (images ++ [image])[n]? = some x ∧ i = own (images ++ [image]) n ∧ x.bad ∧
        Leads (images ++ [image]) m first ∧ m < n ∧ first.uki.os = x.uki.os ∧ x.order first = .lt := by
    obtain ⟨hprevious, n, x, m, first, hx, rfl, hbad, hleads, hrest⟩ := h.failed i hi
    exact ⟨hprevious, n, x, m, first, getElem?_concat.2 (.inl hx), (hold hx).symm, hbad,
      hleads.concat image, hrest⟩
  rcases hfirst : images.find? (fun x ↦ x.uki.os == image.uki.os) with _ | first
  · obtain ⟨hlisted, hprevious, hfailed, hon⟩ :=
      addImage_first secure_boot catalog (hfind.trans hfirst)
    refine ⟨hlength, hindexed, fun os ↦ ?_, fun m x hx ↦ ?_, fun n x hx ↦ ?_, fun i hi ↦ ?_⟩
    · rw [hlisted, List.find?_append, List.find?_append, h.listed os]
    · rcases hx.of_concat with hx | ⟨rfl, rfl, -⟩
      · rw [hold hx.1]
        exact hmain (h.first m x hx)
      · rw [hnew]
        exact hon
    · rw [hprevious]
      rcases getElem?_concat.1 hx with hx | ⟨rfl, rfl⟩
      · rw [hold hx]
        exact hother hx
      · rw [hnew]
        exact List.mem_append_left _ hon
    · rw [hfailed] at hi
      rw [hprevious]
      exact hkept hi
  · obtain ⟨hlisted, hprevious, hfailed⟩ :=
      addImage_previous secure_boot catalog (hfind.trans hfirst)
    obtain ⟨hos, m, hleads⟩ := find?_eq_some_leads hfirst
    refine ⟨hlength, hindexed, fun os ↦ ?_, fun k x hx ↦ ?_, fun n x hx ↦ ?_, fun i hi ↦ ?_⟩
    · rw [hlisted, h.listed os, List.find?_append]
      by_cases himage : image.uki.os = os
      · rw [← himage, hfirst, Option.some_or]
      · rw [List.find?_singleton, beq_eq_false_iff_ne.2 himage]
        exact (Option.or_none).symm
    · rcases hx.of_concat with hx | ⟨rfl, rfl, hnone⟩
      · rw [hold hx.1]
        exact hmain (h.first k x hx)
      · exact absurd hos (hnone first (List.mem_of_getElem? hleads.1))
    · rw [hprevious, ← List.append_assoc]
      rcases getElem?_concat.1 hx with hx | ⟨rfl, rfl⟩
      · rw [hold hx]
        exact List.mem_append_left _ (hother hx)
      · rw [hnew]
        exact List.mem_append_right _ List.mem_cons_self
    · rw [hfailed] at hi
      rw [hprevious]
      split at hi
      · rename_i hbetter
        rw [Bool.and_eq_true] at hbetter
        obtain rfl := Option.some_inj.1 hi
        refine ⟨List.mem_append_right _ List.mem_cons_self, images.length, image, m, first,
          getElem?_concat.2 (.inr ⟨rfl, rfl⟩), hnew.symm, hbetter.1, hleads.concat image, ?_, hos,
          eq_of_beq hbetter.2⟩
        exact (List.getElem?_eq_some_iff.1 hleads.1).1
      · obtain ⟨hmem, hwhy⟩ := hkept hi
        exact ⟨List.mem_append_left _ hmem, hwhy⟩

variable (secure_boot) in
theorem filling_foldl {done listed : List Image} (h : Filling done catalog listed) (images : List Image) :
    Filling (done ++ images)
      (images.foldl (fun state ↦ addImage secure_boot state.1 state.2) (catalog, listed)).1
      (images.foldl (fun state ↦ addImage secure_boot state.1 state.2) (catalog, listed)).2 := by
  induction images generalizing done catalog listed with
  | nil =>
    rw [List.append_nil]
    exact h
  | cons image images ih =>
    rw [List.append_cons]
    exact ih (h.concat image)

/-! ## The catalog -/

/-- The row for the previous versions is there if there are any. -/
theorem addSorted_cases (secure_boot : Bool) (sorted : List Image) :
    ∃ catalog listed, Filling sorted catalog listed ∧
      (addSorted secure_boot sorted).onMain = catalog.onMain ∧
      (addSorted secure_boot sorted).previous = catalog.previous ∧
      (addSorted secure_boot sorted).others = catalog.others ∧
      (addSorted secure_boot sorted).failed = catalog.failed ∧
      (addSorted secure_boot sorted).entries = catalog.entries ∧
      (catalog.previous ≠ [] → Row.previous ∈ (addSorted secure_boot sorted).main) := by
  refine ⟨_, _, filling_foldl secure_boot filling_nil sorted, ?_⟩
  rw [addSorted]
  split
  · rename_i hempty
    exact ⟨rfl, rfl, rfl, rfl, rfl, fun h ↦ absurd (List.isEmpty_iff.1 hempty) h⟩
  · refine ⟨?_, rfl, rfl, rfl, rfl, fun _ ↦ List.mem_append_right _ List.mem_cons_self⟩
    rw [onMain_append]
    exact List.append_nil _

/-- The own entry of the `n`-th image is where `own` says. -/
theorem shows_own {sorted : List Image} {n : ℕ} (h : sorted[n]? = some image) :
    Shows secure_boot (addSorted secure_boot sorted) (own sorted n) image :=
  made_at secure_boot (slots_eq_zero.2 ⟨n, h, rfl⟩)

/-- **Any list of images** fills a catalog. -/
theorem filled_addSorted (secure_boot : Bool) (sorted : List Image) :
    Filled secure_boot sorted (addSorted secure_boot sorted) := by
  obtain ⟨catalog, listed, h, hmain, hprevious, hothers, hfailed, hentries, hrow⟩ :=
    addSorted_cases secure_boot sorted
  refine ⟨fun n image hx ↦ ⟨?_, shows_own hx⟩, ?_, fun i hi ↦ ?_⟩
  · rw [reachable, hmain]
    rcases List.mem_append.1 (h.others n image hx) with hi | hi
    · exact List.mem_append_left _ hi
    · rw [if_pos (hrow (List.ne_nil_of_mem hi)), hprevious]
      exact List.mem_append_right _ hi
  · have hindices : (addSorted secure_boot sorted).indices = catalog.indices := by
      rw [indices, hmain, hprevious, hothers, indices]
    refine ⟨hindices ▸ h.indexed.nodup, fun i hi ↦ ?_⟩
    rw [hentries]
    exact h.indexed.valid i (hindices ▸ hi)
  · rw [hprevious]
    exact (h.failed i (hfailed ▸ hi)).1

open Image in
/-- In order, a bad image that goes before another one by its version or key is behind it only if that
one is good. -/
theorem good_of_order_lt {first : Image} (h : (first.starting image).isLE) (hbad : image.bad)
    (hlt : image.order first = .lt) : first.bad = false := by
  cases hfirst : first.bad with
  | false => rfl
  | true =>
    rw [starting_of_bad_eq (hfirst.trans hbad.symm), order_swap image first, hlt] at h
    cases h

open Image in
/-- **Where the images are in order.** -/
theorem sure_addSorted (secure_boot : Bool) {sorted : List Image}
    (h : sorted.Pairwise fun a b ↦ (a.starting b).isLE) :
    Sure secure_boot sorted (addSorted secure_boot sorted) := by
  have hle {m n : ℕ} {a b : Image} (hmn : m ≤ n) (ha : sorted[m]? = some a) (hb : sorted[n]? = some b) :
      (a.starting b).isLE := by
    obtain ⟨hm, rfl⟩ := List.getElem?_eq_some_iff.1 ha
    obtain ⟨hn, rfl⟩ := List.getElem?_eq_some_iff.1 hb
    rcases hmn.eq_or_lt with rfl | hlt
    · rw [starting_self]
      rfl
    · exact List.pairwise_iff_getElem.1 h m n hm hn hlt
  constructor
  · rintro ⟨good, hgood, hnot⟩
    obtain ⟨n, hn⟩ := List.getElem?_of_mem hgood
    cases sorted with
    | nil => cases hgood
    | cons image rest =>
      refine ⟨0, image, (first_addSorted secure_boot image rest).1, List.mem_cons_self, ?_,
        shows_own (n := 0) rfl⟩
      have hfirst := Ordering.isLE_left_of_isLE_then (hle (Nat.zero_le n) rfl hn)
      rw [hnot] at hfirst
      cases hbad : image.bad with
      | false => rfl
      | true =>
        rw [hbad] at hfirst
        cases hfirst
  · rintro i hi
    obtain ⟨catalog, listed, hfilling, hmain, -, -, hfailed, -, -⟩ := addSorted_cases secure_boot sorted
    obtain ⟨-, n, x, m, first, hx, rfl, hbad, hleads, hmn, hos, hlt⟩ := hfilling.failed i (hfailed ▸ hi)
    have hgood := good_of_order_lt (hle hmn.le hleads.1 hx) hbad hlt
    refine ⟨x, first, own sorted m, List.mem_of_getElem? hx, hbad, shows_own hx,
      List.mem_of_getElem? hleads.1, hgood, hos, hmain ▸ hfilling.first m first hleads,
      shows_own hleads.1, fun other hother hgood' hos' ↦ ?_, hlt⟩
    obtain ⟨k, hk⟩ := List.getElem?_of_mem hother
    rcases Nat.lt_or_ge k m with hkm | hmk
    · exact absurd (hos'.trans hos.symm) (hleads.2 k hkm other hk)
    · rw [← starting_of_bad_eq (hgood.trans hgood'.symm)]
      exact hle hmk hleads.1 hk

open Image in
/-- **The catalog is complete**, and where the starting order is one it starts something good. -/
theorem catalog_complete (sorter : StableSort Image) (secure_boot : Bool) (images : List Image) :
    (sorter.sort_by starting images).Perm images ∧
      Filled secure_boot (sorter.sort_by starting images) (add sorter secure_boot images) ∧
      (TotalOn starting images →
        Sure secure_boot (sorter.sort_by starting images) (add sorter secure_boot images)) := by
  refine ⟨sorter.perm _ _, filled_addSorted _ _, fun htotal ↦ sure_addSorted _ ?_⟩
  rw [sorter.stable _ _ htotal]
  exact htotal.pairwise_mergeSort

open Image in
theorem totalOn_failed : TotalOn starting [kept, failedUpdate] where
  refl a _ := starting_self a
  swap a _ b _ := starting_swap a b
  trans := by decide +kernel

open Image in
theorem catalog_complete_failed :
    Sure true ((StableSort.merge Image).sort_by starting [kept, failedUpdate])
      (add (StableSort.merge Image) true [kept, failedUpdate]) :=
  (catalog_complete (StableSort.merge Image) true [kept, failedUpdate]).2.2 totalOn_failed

/-- The failed entry has another place. -/
theorem failed_among_previous :
    (add (StableSort.merge Image) true [kept, failedUpdate]).failed = some 1 ∧
      ¬ ((add (StableSort.merge Image) true [kept, failedUpdate]).indices ++
        (add (StableSort.merge Image) true [kept, failedUpdate]).failed.toList).Nodup := by
  rw [add, sort_failed]
  decide +kernel

end Catalog

end SushiBoot
