import Luft.Lib.First
import Luft.SushiBoot.Starting

/-!
# Going back to the version before

`Catalog.older` looks an entry's image up by its path alone, and takes the next image of the same
system in starting order.  What that order says about the next one is little: a bad image comes last
whatever its version, sort keys need not follow the versions, and nothing asks for the volume.

`GoesBack` is what going back should do, `Descends` are the lists in starting order on which it does
(`goesBack_iff`).
-/

set_option autoImplicit false

namespace SushiBoot

namespace Catalog

variable {secure_boot : Bool} {images : List Image}

/-! ## Where the images are in the catalog -/

/-- The index of the `n`-th image's own entry. -/
def own (images : List Image) (n : ℕ) : ℕ := ((images.take n).flatMap slots).length

theorem own_zero (images : List Image) : own images 0 = 0 := rfl

theorem own_succ (image : Image) (images : List Image) (n : ℕ) :
    own (image :: images) (n + 1) = (slots image).length + own images n := by
  rw [own, List.take_succ_cons, List.flatMap_cons, List.length_append, own]

theorem own_lt {m n : ℕ} (h : m < n) (hn : n ≤ images.length) : own images m < own images n := by
  induction images generalizing m n with
  | nil =>
    rw [List.length_nil] at hn
    omega
  | cons image images ih =>
    rw [List.length_cons] at hn
    obtain ⟨n, rfl⟩ : ∃ k, n = k + 1 := ⟨n - 1, by omega⟩
    rw [own_succ]
    cases m with
    | zero =>
      rw [own_zero, slots, List.length_cons]
      omega
    | succ m =>
      rw [own_succ]
      have hown := ih (m := m) (n := n) (by omega) (by omega)
      omega

theorem own_lt_iff {m n : ℕ} (hm : m ≤ images.length) (hn : n ≤ images.length) :
    own images m < own images n ↔ m < n := by
  refine ⟨fun h ↦ ?_, fun h ↦ own_lt h hn⟩
  rcases Nat.lt_trichotomy m n with hlt | rfl | hgt
  · exact hlt
  · omega
  · have hown := own_lt hgt hm
    omega

theorem slots_cons_eq_zero {image x : Image} {k : ℕ} (hk : k < (slots image).length) :
    (slots image)[k]? = some (x, 0) ↔ k = 0 ∧ x = image := by
  rw [slots]
  cases k with
  | zero => simp [eq_comm]
  | succ k =>
    rw [List.getElem?_cons_succ, List.getElem?_map, Option.map_eq_some_iff]
    constructor
    · rintro ⟨profile, hprofile, heq⟩
      exact absurd (Prod.ext_iff.1 heq).2 (mem_further (List.mem_of_getElem? hprofile))
    · rintro ⟨h, -⟩
      cases h

/-- **The own entries are where `own` says**, one for each image. -/
theorem slots_eq_zero {k : ℕ} {x : Image} : (images.flatMap slots)[k]? = some (x, 0) ↔
    ∃ n, images[n]? = some x ∧ k = own images n := by
  induction images generalizing k with
  | nil => simp
  | cons image images ih =>
    rw [List.flatMap_cons]
    rcases Nat.lt_or_ge k (slots image).length with hk | hk
    · rw [List.getElem?_append_left hk, slots_cons_eq_zero hk]
      constructor
      · rintro ⟨rfl, rfl⟩
        exact ⟨0, rfl, rfl⟩
      · rintro ⟨_ | n, hx, rfl⟩
        · exact ⟨rfl, (Option.some_inj.1 hx).symm⟩
        · rw [own_succ] at hk
          omega
    · rw [List.getElem?_append_right hk, ih]
      constructor
      · rintro ⟨n, hx, heq⟩
        exact ⟨n + 1, hx, by rw [own_succ]; omega⟩
      · rintro ⟨_ | n, hx, rfl⟩
        · rw [own_zero, slots, List.length_cons] at hk
          omega
        · exact ⟨n, hx, by rw [own_succ]; omega⟩

variable (secure_boot) in
/-- Each entry of a filled catalog is made of the slot at its index. -/
theorem made_at {k : ℕ} {slot : Image × ℕ} (h : (images.flatMap slots)[k]? = some slot) :
    ∃ entry, (addSorted secure_boot images).entries[k]? = some entry ∧
      Made secure_boot slot entry := by
  have hmade := addSorted_made secure_boot images
  obtain ⟨hk, hslot⟩ := List.getElem?_eq_some_iff.1 h
  rw [List.forall₂_iff_get] at hmade
  have hk' := hmade.1 ▸ hk
  refine ⟨_, List.getElem?_eq_getElem hk', ?_⟩
  have hat := hmade.2 k hk hk'
  rw [List.get_eq_getElem, hslot] at hat
  exact hat

theorem slot_of_entry {k : ℕ} {entry : BootEntry}
    (h : (addSorted secure_boot images).entries[k]? = some entry) :
    ∃ slot, (images.flatMap slots)[k]? = some slot ∧ Made secure_boot slot entry := by
  have hmade := addSorted_made secure_boot images
  obtain ⟨hk, rfl⟩ := List.getElem?_eq_some_iff.1 h
  rw [List.forall₂_iff_get] at hmade
  exact ⟨_, List.getElem?_eq_getElem (hmade.1 ▸ hk), hmade.2 k (hmade.1 ▸ hk) hk⟩

/-- What an image's own entry says of it. -/
def shown (image : Image) : String × Release :=
  (image.path, ⟨image.uki.os, image.uki.image_version.getD image.version⟩)

theorem Made.image {image : Image} {profile : ℕ} {entry : BootEntry}
    (h : Made secure_boot (image, profile) entry) :
    entry.image = if profile = 0 then some (shown image) else none := by
  obtain ⟨title, rfl⟩ := h
  cases profile <;> rfl

variable (secure_boot) in
/-- A search among the images' own entries is one among the images. -/
theorem any_at {k : ℕ} (q : String × Release → Bool) :
    (∃ entry, (addSorted secure_boot images).entries[k]? = some entry ∧
      entry.image.any q = true) ↔
      ∃ n x, images[n]? = some x ∧ k = own images n ∧ q (shown x) = true := by
  constructor
  · rintro ⟨entry, hentry, hany⟩
    obtain ⟨⟨x, profile⟩, hslot, hmade⟩ := slot_of_entry hentry
    rw [hmade.image] at hany
    split at hany
    · rename_i hp
      rw [hp] at hslot
      obtain ⟨n, hx, hk⟩ := slots_eq_zero.1 hslot
      exact ⟨n, x, hx, hk, hany⟩
    · cases hany
  · rintro ⟨n, x, hx, rfl, hq⟩
    obtain ⟨entry, hentry, hmade⟩ :=
      made_at secure_boot (slots_eq_zero.2 ⟨n, hx, rfl⟩)
    refine ⟨entry, hentry, ?_⟩
    rw [hmade.image, if_pos rfl]
    exact hq

/-- Nothing is found before an own entry exactly when no image before has it. -/
theorem none_between (q : String × Release → Bool) (low : ℕ) {n : ℕ} (hn : n ≤ images.length) :
    (∀ k, low ≤ k → k < own images n → ∀ entry,
      (addSorted secure_boot images).entries[k]? = some entry → entry.image.any q = false) ↔
      ∀ m < n, low ≤ own images m → ∀ x, images[m]? = some x → q (shown x) = false := by
  constructor
  · intro h m hm hlow x hx
    by_contra hq
    rw [Bool.not_eq_false] at hq
    obtain ⟨entry, hentry, hany⟩ :=
      (any_at secure_boot q).2 ⟨m, x, hx, rfl, hq⟩
    rw [h _ hlow (own_lt hm hn) entry hentry] at hany
    cases hany
  · intro h k hlow hk entry hentry
    by_contra hany
    rw [Bool.not_eq_false] at hany
    obtain ⟨m, x, hx, rfl, hq⟩ := (any_at secure_boot q).1 ⟨entry, hentry, hany⟩
    have hm := (own_lt_iff (List.getElem?_eq_some_iff.1 hx).1.le hn).1 hk
    rw [h m hm hlow x hx] at hq
    cases hq

/-! ## What `older` finds -/

/-- `f` is the `m`-th image and the first one at its path. -/
def FirstAt (images : List Image) (m : ℕ) (f : Image) : Prop :=
  images[m]? = some f ∧ ∀ k < m, ∀ x, images[k]? = some x → x.path ≠ f.path

/-- `f` is the first image at its path, and `b`, the `n`-th image, the next one of its system at
another path. -/
def Follows (images : List Image) (f : Image) (n : ℕ) (b : Image) : Prop :=
  ∃ m < n, FirstAt images m f ∧ images[n]? = some b ∧ b.path ≠ f.path ∧ b.uki.os = f.uki.os ∧
    ∀ k, m < k → k < n → ∀ x, images[k]? = some x → x.uki.os = f.uki.os → x.path = f.path

/-- What `older` looks for after an image: another path, the same system. -/
def isNext (f : Image) (other : String × Release) : Bool :=
  other.1 != f.path && other.2.os == f.uki.os

theorem isNext_shown {f x : Image} :
    isNext f (shown x) = true ↔ x.path ≠ f.path ∧ x.uki.os = f.uki.os := by
  rw [isNext, Bool.and_eq_true, bne_iff_ne, beq_iff_eq]
  exact Iff.rfl

/-- **The image of an entry** is the first one at the path of its own. -/
theorem image_of_eq_some {i k : ℕ} {a : Image} {profile : ℕ}
    (hi : (images.flatMap slots)[i]? = some (a, profile)) :
    (addSorted secure_boot images).image_of i = some k ↔
      ∃ m f, FirstAt images m f ∧ f.path = a.path ∧ k = own images m := by
  obtain ⟨entry, hentry, title, rfl⟩ := made_at secure_boot hi
  have heq : (addSorted secure_boot images).image_of i =
      (addSorted secure_boot images).entries.findIdx? fun entry ↦
        entry.image.any fun image ↦ image.1 == a.path := by
    rw [image_of, hentry]
    rfl
  rw [heq, First.findIdx?_eq_some_iff_at, any_at secure_boot]
  constructor
  · rintro ⟨⟨m, f, hf, rfl, hpath⟩, hbefore⟩
    have hpath : f.path = a.path := eq_of_beq hpath
    refine ⟨m, f, ⟨hf, fun j hj x hx heq ↦ ?_⟩, hpath, rfl⟩
    have := (none_between _ 0 (List.getElem?_eq_some_iff.1 hf).1.le).1
      (fun k _ hk ↦ hbefore k hk) j hj (Nat.zero_le _) x hx
    rw [show (shown x).1 = x.path from rfl, heq, hpath, beq_self_eq_true] at this
    cases this
  · rintro ⟨m, f, ⟨hf, hbefore⟩, hpath, rfl⟩
    refine ⟨⟨m, f, hf, rfl, beq_iff_eq.2 hpath⟩, fun k hk ↦ ?_⟩
    refine (none_between _ 0 (List.getElem?_eq_some_iff.1 hf).1.le).2
      (fun j hj _ x hx ↦ ?_) k (Nat.zero_le _) hk
    exact beq_eq_false_iff_ne.2 fun heq ↦ hbefore j hj x hx (heq.trans hpath.symm)

/-- **What `older` finds** is the image that follows the one first listed at the entry's path. -/
theorem older_eq_some {i j : ℕ} {a : Image} {profile : ℕ}
    (hi : (images.flatMap slots)[i]? = some (a, profile)) :
    (addSorted secure_boot images).older i = some j ↔
      ∃ f n b, f.path = a.path ∧ Follows images f n b ∧ j = own images n := by
  have entry_at {m : ℕ} {f : Image} (hf : images[m]? = some f) :
      ((addSorted secure_boot images).entries[own images m]?.bind BootEntry.image) =
        some (shown f) := by
    obtain ⟨entry, hentry, hmade⟩ :=
      made_at secure_boot (slots_eq_zero.2 ⟨m, hf, rfl⟩)
    rw [hentry]
    exact hmade.image
  have valid {m : ℕ} {f : Image} (hf : images[m]? = some f) : m ≤ images.length :=
    (List.getElem?_eq_some_iff.1 hf).1.le
  constructor
  · intro h
    obtain ⟨k, hk, h⟩ := Option.bind_eq_some_iff.1 h
    obtain ⟨m, f, hfirst, hpath, rfl⟩ := (image_of_eq_some hi).1 hk
    obtain ⟨_, hshown, h⟩ := Option.bind_eq_some_iff.1 h
    rw [entry_at hfirst.1] at hshown
    cases hshown
    obtain ⟨⟨entry, _⟩, hfind, heq⟩ := Option.bind_eq_some_iff.1 h
    cases heq
    obtain ⟨hlow, hentry, hany, hbetween⟩ :=
      (First.find?_zipIdx_drop (p := fun entry : BootEntry ↦ entry.image.any (isNext f))).1 hfind
    obtain ⟨n, b, hb, rfl, hq⟩ := (any_at secure_boot _).1 ⟨entry, hentry, hany⟩
    have hmn := (own_lt_iff (valid hfirst.1) (valid hb)).1 hlow
    refine ⟨f, n, b, hpath, ⟨m, hmn, hfirst, hb, (isNext_shown.1 hq).1, (isNext_shown.1 hq).2, ?_⟩, rfl⟩
    intro l hml hln x hx hos
    by_contra hne
    have hlow' := own_lt hml (valid hx)
    have := (none_between _ _ (valid hb)).1 hbetween l hln hlow' x hx
    rw [isNext_shown.2 ⟨hne, hos⟩] at this
    cases this
  · rintro ⟨f, n, b, hpath, ⟨m, hmn, hfirst, hb, hne, hos, hbetween⟩, rfl⟩
    obtain ⟨entry, hentry, hany⟩ :=
      (any_at secure_boot (isNext f)).2 ⟨n, b, hb, rfl, isNext_shown.2 ⟨hne, hos⟩⟩
    refine Option.bind_eq_some_iff.2
      ⟨_, (image_of_eq_some hi).2 ⟨m, f, hfirst, hpath, rfl⟩, Option.bind_eq_some_iff.2
        ⟨shown f, entry_at hfirst.1, Option.bind_eq_some_iff.2 ⟨(entry, own images n),
          (First.find?_zipIdx_drop (p := fun entry : BootEntry ↦ entry.image.any (isNext f))).2
            ⟨own_lt hmn (valid hb), hentry, hany, ?_⟩, rfl⟩⟩⟩
    refine (none_between _ _ (valid hb)).2 fun l hln hlow x hx ↦ ?_
    by_contra hq
    rw [Bool.not_eq_false] at hq
    have hml := (own_lt_iff (valid hfirst.1) (valid hx)).1 hlow
    exact (isNext_shown.1 hq).1 (hbetween l hml hln x hx (isNext_shown.1 hq).2)

/-! ## Going back -/

/-- `b` is an image of the same system on the same volume as `a`, of an older version. -/
structure Older (a b : Image) : Prop where
  os : b.uki.os = a.uki.os
  volume : b.origin.handle = a.origin.handle
  version : newest_first a.version b.version = .lt

/-- What starting the version before should start, from any entry of any image: the own entry of an
older image, and of a bad one only when all older images are. -/
def GoesBack (images : List Image) (catalog : Catalog) : Prop :=
  ∀ i a profile j, (images.flatMap slots)[i]? = some (a, profile) → catalog.older i = some j →
    ∃ b, (images.flatMap slots)[j]? = some (b, 0) ∧ Older a b ∧
      (b.bad → ∀ c ∈ images, Older a c → c.bad)

/-- Where one image follows another in starting order, it is older than every image at that one's
path, and bad only if everything older is. -/
def Descends (images : List Image) : Prop :=
  ∀ f n b, Follows images f n b → ∀ a ∈ images, a.path = f.path →
    Older a b ∧ (b.bad → ∀ c ∈ images, Older a c → c.bad)

/-- The version that was gone back to. -/
def kept : Image := found "kept" (some "bootc-luft-1") "6.1"

/-- The newer version, out of tries. -/
def failedUpdate : Image := found "update" (some "bootc-luft-0") "6.3" (some ⟨0, 3⟩)

theorem sort_failed : (StableSort.merge Image).sort_by Image.starting [kept, failedUpdate] =
    [kept, failedUpdate] := by
  refine List.mergeSort_of_pairwise ?_
  rw [List.pairwise_pair]
  decide +kernel

end Catalog

end SushiBoot
