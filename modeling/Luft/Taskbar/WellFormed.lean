import Luft.Taskbar.Arrangement
import Mathlib.Data.List.Nodup
import Mathlib.Logic.Equiv.Basic

/-!
# Every element in one place

An arrangement is well-formed when its islands are at different spots, none is empty and no element is in it
twice.  Reading the settings gives such an arrangement, and all moves keep it so, with just the elements there
were.

Completing does so exactly where there is room (`Room`): the elements that open an island of their own, because
none of their neighbours is there, find a free spot each, and no missing element has the name of something every
object inherits.
-/

set_option autoImplicit false

namespace Taskbar

variable {a a' : Arrangement} {spot origin target : Spot} {element : String} {new elements : List String}

/-! ## Islands found and changed -/

theorem changeFirst_eq {α : Type} {p : α → Bool} {l : List α} {x : α} (h : l.find? p = some x) (f : α → α) :
    ∃ before after, l = before ++ x :: after ∧ changeFirst p f l = before ++ f x :: after := by
  induction l with
  | nil => simp at h
  | cons y l ih =>
    cases hy : p y with
    | true =>
      obtain rfl : y = x := by simpa [hy] using h
      exact ⟨[], l, rfl, by simp [changeFirst, hy]⟩
    | false =>
      obtain ⟨before, after, rfl, hl⟩ := ih (by simpa [hy] using h)
      exact ⟨y :: before, after, rfl, by simp [changeFirst, hy, hl]⟩

theorem length_changeFirst {α : Type} (p : α → Bool) (f : α → α) (l : List α) :
    (changeFirst p f l).length = l.length := by
  induction l with
  | nil => rfl
  | cons x l ih =>
    rw [changeFirst]
    split
    · rfl
    · simp [ih]

theorem mem_elementsOf : element ∈ elementsOf a ↔ ∃ island ∈ a, element ∈ island.elements := List.mem_flatMap

theorem islandAt_isNone : (islandAt a spot).isNone ↔ spot ∉ a.map Island.spot := by
  simp [islandAt, Option.isNone_iff_eq_none, List.find?_eq_none]

theorem islandOf_isSome : (islandOf a element).isSome ↔ element ∈ elementsOf a := by
  simp [islandOf, List.find?_isSome, mem_elementsOf]

theorem islandOf_isNone : (islandOf a element).isNone ↔ element ∉ elementsOf a := by
  rw [← islandOf_isSome, Option.isNone_iff_eq_none, Option.isSome_iff_ne_none, not_not]

theorem elementsOf_filter_filled (a : Arrangement) :
    elementsOf (a.filter fun island ↦ !island.elements.isEmpty) = elementsOf a := by
  induction a with
  | nil => rfl
  | cons island a ih =>
    rw [elementsOf] at ih
    cases hisland : island.elements <;> simp [elementsOf, hisland, ih]

theorem mem_SPOTS (spot : Spot) : spot ∈ SPOTS := by
  obtain ⟨edge, along⟩ := spot
  cases edge <;> cases along <;> decide

/-! ## Well-formed arrangements -/

/-- No spot has two islands, and no element is in the arrangement twice. -/
structure Apart (a : Arrangement) : Prop where
  spots : (a.map Island.spot).Nodup
  elements : (elementsOf a).Nodup

/-- No island is empty. -/
def Filled (a : Arrangement) : Prop := ∀ island ∈ a, island.elements ≠ []

structure WellFormed (a : Arrangement) : Prop extends Apart a where
  filled : Filled a

/-- `a'` is `a` with new elements in one of its islands, or in one of their own at a free spot. -/
structure Grown (a : Arrangement) (new : List String) (a' : Arrangement) : Prop where
  spots : a'.map Island.spot = a.map Island.spot ∨
    ∃ spot ∉ a.map Island.spot, a'.map Island.spot = a.map Island.spot ++ [spot]
  elements : (elementsOf a').Perm (new ++ elementsOf a)
  filled : new ≠ [] → Filled a → Filled a'

theorem Grown.changeFirst {p : Island → Bool} {island : Island} {f : Island → Island}
    (h : a.find? p = some island) (hspot : (f island).spot = island.spot)
    (helements : (f island).elements.Perm (new ++ island.elements)) :
    Grown a new (changeFirst p f a) := by
  obtain ⟨before, after, rfl, heq⟩ := changeFirst_eq h f
  rw [heq]
  refine ⟨.inl (by simp [hspot]), ?_, fun hnew hfilled other hother ↦ ?_⟩
  · simp only [elementsOf, List.flatMap_append, List.flatMap_cons]
    refine (List.Perm.append_left _ (helements.append_right _)).trans ?_
    rw [List.append_assoc, ← List.append_assoc, ← List.append_assoc new]
    exact List.perm_append_comm.append_right _
  · rcases List.mem_append.1 hother with hother | hother
    · exact hfilled other (List.mem_append_left _ hother)
    · rcases List.mem_cons.1 hother with rfl | hother
      · intro hnil
        rw [hnil] at helements
        simp [hnew] at helements
      · exact hfilled other (List.mem_append_right _ (List.mem_cons_of_mem _ hother))

theorem Grown.append (h : spot ∉ a.map Island.spot) : Grown a new (a ++ [⟨spot, new⟩]) := by
  refine ⟨.inr ⟨spot, h, by simp⟩, ?_, fun hnew hfilled other hother ↦ ?_⟩
  · simpa [elementsOf] using List.perm_append_comm
  · rcases List.mem_append.1 hother with hother | hother
    · exact hfilled other hother
    · obtain rfl : other = ⟨spot, new⟩ := by simpa using hother
      exact hnew

/-- **What grows stays apart**, if the new elements are new. -/
theorem Apart.grown (h : Apart a) (hgrown : Grown a new a') (hnew : new.Nodup)
    (hdisjoint : new.Disjoint (elementsOf a)) : Apart a' := by
  constructor
  · rcases hgrown.spots with hspots | ⟨spot, hspot, hspots⟩
    · rw [hspots]
      exact h.spots
    · rw [hspots, List.nodup_append]
      exact ⟨h.spots, List.nodup_singleton _, by rintro x hx _ (_ | ⟨_, ⟨⟩⟩) rfl; exact hspot hx⟩
  · rw [hgrown.elements.nodup_iff]
    exact hnew.append h.elements hdisjoint

theorem WellFormed.grown (h : WellFormed a) (hgrown : Grown a [element] a') (hnew : element ∉ elementsOf a) :
    WellFormed a' :=
  ⟨h.toApart.grown hgrown (List.nodup_singleton _) (by simpa using hnew),
    hgrown.filled (List.cons_ne_nil _ _) h.filled⟩

/-! ## Reading the settings -/

theorem takeNew_eq (placed island elements : List String) :
    ∃ new, takeNew placed island elements = (new.reverse ++ placed, island ++ new) ∧ new.Nodup ∧
      new.Disjoint placed := by
  induction elements generalizing placed island with
  | nil => exact ⟨[], by simp [takeNew]⟩
  | cons element elements ih =>
    by_cases hplaced : element ∈ placed
    · obtain ⟨new, heq, h⟩ := ih placed island
      exact ⟨new, by simpa [takeNew, hplaced] using heq, h⟩
    · obtain ⟨new, heq, hnodup, hdisjoint⟩ := ih (element :: placed) (island ++ [element])
      simp only [List.disjoint_cons_right] at hdisjoint
      refine ⟨element :: new, ?_, List.nodup_cons.2 ⟨hdisjoint.1, hnodup⟩,
        List.disjoint_cons_left.2 ⟨hplaced, hdisjoint.2⟩⟩
      simpa [takeNew, hplaced] using heq

theorem setAt_grown (a : Arrangement) (spot : Spot) (new : List String) :
    Grown a new (setAt a spot (((islandAt a spot).map Island.elements).getD [] ++ new)) := by
  rw [setAt]
  cases hat : islandAt a spot with
  | none => exact Grown.append (islandAt_isNone.1 (by simp [hat]))
  | some island => exact Grown.changeFirst hat rfl (by simpa using List.perm_append_comm)

theorem parseIsland_apart {placed : List String} (entry : String × List String) (h : Apart a)
    (hplaced : (elementsOf a).Perm placed) :
    Apart (parseIsland (placed, a) entry).2 ∧
      (elementsOf (parseIsland (placed, a) entry).2).Perm (parseIsland (placed, a) entry).1 := by
  obtain ⟨name, elements⟩ := entry
  rw [parseIsland]
  cases spotOf name with
  | none => exact ⟨h, hplaced⟩
  | some spot =>
    obtain ⟨new, heq, hnew, hdisjoint⟩ :=
      takeNew_eq placed (((islandAt a spot).map Island.elements).getD []) elements
    simp only [heq]
    have hgrown := setAt_grown a spot new
    refine ⟨h.grown hgrown hnew fun x hx hxa ↦ hdisjoint hx (hplaced.subset hxa), ?_⟩
    exact hgrown.elements.trans ((List.reverse_perm new).symm.append hplaced)

/-- **Reading the settings** gives a well-formed arrangement, whatever is in them. -/
theorem parseArrangement_wellFormed (stored : List (String × List String)) :
    WellFormed (parseArrangement stored) := by
  have hfold : ∀ s : List String × List Island, Apart s.2 → (elementsOf s.2).Perm s.1 →
      Apart (stored.foldl parseIsland s).2 := by
    induction stored with
    | nil => exact fun s h _ ↦ h
    | cons entry stored ih =>
      intro s h hplaced
      obtain ⟨h, hplaced⟩ := parseIsland_apart entry h hplaced
      exact ih _ h hplaced
  obtain ⟨hspots, helements⟩ := hfold ([], []) ⟨List.nodup_nil, List.nodup_nil⟩ (.refl _)
  exact ⟨⟨hspots.sublist (List.filter_sublist.map _), by rwa [parseArrangement, elementsOf_filter_filled]⟩,
    fun island hisland ↦ by simpa using (List.mem_filter.1 hisland).2⟩

/-! ## Elements that are missing -/

theorem Apart.length_le (h : Apart a) : a.length ≤ 12 := by
  simpa [SPOTS, EDGES, ALONGS] using (List.subperm_of_subset h.spots fun spot _ ↦ mem_SPOTS spot).length_le

/-- Among twelve spots one is free unless there are twelve islands. -/
theorem exists_free_iff (h : Apart a) : (∃ spot, spot ∉ a.map Island.spot) ↔ a.length < 12 := by
  have hsub : (a.map Island.spot).Subperm SPOTS := List.subperm_of_subset h.spots fun spot _ ↦ mem_SPOTS spot
  have hlength : SPOTS.length = 12 := rfl
  constructor
  · rintro ⟨spot, hspot⟩
    by_contra hlt
    have hperm := hsub.perm_of_length_le (by rw [List.length_map]; omega)
    exact hspot (hperm.symm.subset (mem_SPOTS spot))
  · intro hlt
    by_contra hall
    push Not at hall
    have hle := (List.subperm_of_subset (show SPOTS.Nodup by decide) fun spot _ ↦ hall spot).length_le
    rw [List.length_map] at hle
    omega

theorem firstFreeSpot_free {preferred : Spot} (h : firstFreeSpot a preferred = some spot) :
    spot ∉ a.map Island.spot := by
  rw [← islandAt_isNone]
  simpa using List.find?_some h

theorem firstFreeSpot_isSome {preferred : Spot} (h : Apart a) :
    (firstFreeSpot a preferred).isSome ↔ a.length < 12 := by
  rw [← exists_free_iff h]
  constructor
  · intro hsome
    obtain ⟨spot, hspot⟩ := Option.isSome_iff_exists.1 hsome
    exact ⟨spot, firstFreeSpot_free hspot⟩
  · rintro ⟨spot, hspot⟩
    refine List.find?_isSome.2 ⟨spot, List.mem_append_right _ (mem_SPOTS spot), islandAt_isNone.2 hspot⟩

/-- One of the neighbours an element goes beside is there. -/
def NeighbourIn (present : List String) (element : String) : Prop :=
  ∃ neighbour ∈ (homeOf element).beside, neighbour ∈ present

instance NeighbourIn.decidable (present : List String) (element : String) :
    Decidable (NeighbourIn present element) :=
  inferInstanceAs (Decidable (∃ neighbour ∈ _, _))

theorem place_beside (hinherited : element ∉ INHERITED) (h : NeighbourIn (elementsOf a) element) :
    ∃ a', place a element = some a' ∧ Grown a [element] a' ∧ a'.length = a.length := by
  obtain ⟨neighbour, hbeside, hin⟩ := h
  obtain ⟨neighbour, hfind⟩ := Option.isSome_iff_exists.1
    (List.find?_isSome (p := fun neighbour ↦ (islandOf a neighbour).isSome) |>.2
      ⟨neighbour, hbeside, islandOf_isSome.2 hin⟩)
  obtain ⟨island, hisland⟩ := Option.isSome_iff_exists.1 (by simpa using List.find?_some hfind)
  have hmem : neighbour ∈ island.elements := by simpa using List.find?_some hisland
  have hlt := List.idxOf_lt_length_iff.2 hmem
  have hinsert : (island.elements.insertIdx
      (island.elements.idxOf neighbour + if (homeOf element).after then 1 else 0) element).Perm
      ([element] ++ island.elements) :=
    List.perm_insertIdx _ _ (by split <;> omega)
  have hgrown := Grown.changeFirst hisland (f := fun island ↦
    { island with
      elements := island.elements.insertIdx
        (island.elements.idxOf neighbour + if (homeOf element).after then 1 else 0) element }) rfl hinsert
  exact ⟨_, by rw [place, if_neg (by simpa using hinherited), hfind], hgrown, length_changeFirst _ _ a⟩

theorem place_alone (hinherited : element ∉ INHERITED) (h : ¬NeighbourIn (elementsOf a) element) :
    place a element = (firstFreeSpot a (preferredSpot element)).map fun spot ↦ a ++ [⟨spot, [element]⟩] := by
  have hfind : (homeOf element).beside.find? (fun neighbour ↦ (islandOf a neighbour).isSome) = none := by
    rw [List.find?_eq_none]
    exact fun neighbour hbeside hin ↦ h ⟨neighbour, hbeside, islandOf_isSome.1 hin⟩
  rw [place, if_neg (by simpa using hinherited), hfind]

theorem place_inherited (hinherited : element ∈ INHERITED) : place a element = none := by
  rw [place, if_pos (by simpa using hinherited)]

/-- **A place found**: the element is added, and nothing else changes. -/
theorem place_grown (h : place a element = some a') : Grown a [element] a' := by
  by_cases hinherited : element ∈ INHERITED
  · rw [place_inherited hinherited] at h
    cases h
  · by_cases hneighbour : NeighbourIn (elementsOf a) element
    · obtain ⟨b, hb, hgrown, -⟩ := place_beside hinherited hneighbour
      obtain rfl : b = a' := by simpa [hb] using h
      exact hgrown
    · rw [place_alone hinherited hneighbour, Option.map_eq_some_iff] at h
      obtain ⟨spot, hspot, rfl⟩ := h
      exact Grown.append (firstFreeSpot_free hspot)

/-- The elements that get an island of their own when one after the other is given a place. -/
def opening (present : List String) : List String → List String
  | [] => []
  | element :: elements =>
    if present.contains element || (homeOf element).beside.any present.contains then
      opening (element :: present) elements
    else element :: opening (element :: present) elements

/-- Each element that opens an island finds a free spot, and no missing element has an inherited name. -/
def Room (a : Arrangement) (elements : List String) : Prop :=
  (∀ element ∈ elements, element ∉ elementsOf a → element ∉ INHERITED) ∧
    a.length + (opening (elementsOf a) elements).length ≤ 12

instance Room.decidable : Decidable (Room a elements) := inferInstanceAs (Decidable (_ ∧ _))

theorem opening_congr {present present' : List String} (h : ∀ element, element ∈ present ↔ element ∈ present')
    (elements : List String) : opening present elements = opening present' elements := by
  induction elements generalizing present present' with
  | nil => rfl
  | cons element elements ih =>
    have hcontains : present.contains = present'.contains := by
      funext element
      rw [Bool.eq_iff_iff, List.contains_iff_mem, List.contains_iff_mem, h]
    have hrest : opening (element :: present) elements = opening (element :: present') elements :=
      ih fun other ↦ by simp [h]
    rw [opening, opening, hcontains, hrest]

theorem room_of_present (h : element ∈ elementsOf a) : Room a (element :: elements) ↔ Room a elements := by
  have hsame : opening (element :: elementsOf a) elements = opening (elementsOf a) elements :=
    opening_congr (by simp [h]) elements
  rw [Room, Room, opening, if_pos (by simp [h]), hsame]
  simp [h]

theorem room_of_missing (h : element ∉ elementsOf a) (hinherited : element ∉ INHERITED)
    (hperm : (elementsOf a').Perm (element :: elementsOf a))
    (hlength : a'.length = a.length + if NeighbourIn (elementsOf a) element then 0 else 1) :
    Room a (element :: elements) ↔ Room a' elements := by
  have hopening : opening (elementsOf a') elements = opening (element :: elementsOf a) elements :=
    opening_congr (fun _ ↦ hperm.mem_iff) elements
  have hnames : (∀ other ∈ element :: elements, other ∉ elementsOf a → other ∉ INHERITED) ↔
      ∀ other ∈ elements, other ∉ elementsOf a' → other ∉ INHERITED := by
    rw [List.forall_mem_cons]
    simp only [hperm.mem_iff, List.mem_cons, not_or]
    constructor
    · exact fun hall other hother hnot ↦ hall.2 other hother hnot.2
    · intro hall
      refine ⟨fun _ ↦ hinherited, fun other hother hnot ↦ ?_⟩
      by_cases heq : other = element
      · exact heq ▸ hinherited
      · exact hall other hother ⟨heq, hnot⟩
  refine and_congr hnames ?_
  rw [hopening, hlength, opening]
  have hbeside :
      ((elementsOf a).contains element || (homeOf element).beside.any (elementsOf a).contains) = true ↔
        NeighbourIn (elementsOf a) element := by
    simp [h, NeighbourIn]
  by_cases hneighbour : NeighbourIn (elementsOf a) element
  · rw [if_pos hneighbour, if_pos (hbeside.2 hneighbour), Nat.add_zero]
  · rw [if_neg hneighbour, if_neg (mt hbeside.1 hneighbour), List.length_cons]
    omega

/-- **Completing**: nothing is lost, and each element asked for is there. -/
theorem completeArrangement_wellFormed (h : WellFormed a)
    (hcomplete : completeArrangement a elements = some a') :
    WellFormed a' ∧ elementsOf a ⊆ elementsOf a' ∧ ∀ element ∈ elements, element ∈ elementsOf a' := by
  induction elements generalizing a with
  | nil =>
    obtain rfl : a = a' := by simpa [completeArrangement] using hcomplete
    exact ⟨h, List.Subset.refl _, by simp⟩
  | cons element elements ih =>
    rw [completeArrangement, List.foldlM_cons] at hcomplete
    by_cases hmem : element ∈ elementsOf a
    · rw [if_pos (islandOf_isSome.2 hmem)] at hcomplete
      obtain ⟨hwf, hsubset, hall⟩ := ih h hcomplete
      exact ⟨hwf, hsubset, List.forall_mem_cons.2 ⟨hsubset hmem, hall⟩⟩
    · rw [if_neg (by rwa [islandOf_isSome]), Option.bind_eq_bind, Option.bind_eq_some_iff] at hcomplete
      obtain ⟨b, hplace, hrest⟩ := hcomplete
      have hgrown := place_grown hplace
      obtain ⟨hwf, hsubset, hall⟩ := ih (h.grown hgrown hmem) hrest
      have hcons : element :: elementsOf a ⊆ elementsOf a' :=
        List.Subset.trans hgrown.elements.symm.subset hsubset
      exact ⟨hwf, fun other hother ↦ hcons (List.mem_cons_of_mem _ hother),
        List.forall_mem_cons.2 ⟨hcons List.mem_cons_self, hall⟩⟩

/-- **Room for all** is just what completing needs. -/
theorem completeArrangement_isSome_iff (h : WellFormed a) :
    (completeArrangement a elements).isSome ↔ Room a elements := by
  induction elements generalizing a with
  | nil => simpa [completeArrangement, Room, opening] using h.toApart.length_le
  | cons element elements ih =>
    rw [completeArrangement, List.foldlM_cons]
    by_cases hmem : element ∈ elementsOf a
    · rw [if_pos (islandOf_isSome.2 hmem), room_of_present hmem]
      exact ih h
    · rw [if_neg (by rwa [islandOf_isSome])]
      by_cases hinherited : element ∈ INHERITED
      · rw [place_inherited hinherited]
        refine iff_of_false (by simp) fun hroom ↦ ?_
        exact hroom.1 element List.mem_cons_self hmem hinherited
      · by_cases hneighbour : NeighbourIn (elementsOf a) element
        · obtain ⟨b, hplace, hgrown, hlength⟩ := place_beside hinherited hneighbour
          rw [← Nat.add_zero a.length] at hlength
          rw [hplace, room_of_missing hmem hinherited hgrown.elements (by rw [if_pos hneighbour, hlength])]
          exact ih (h.grown hgrown hmem)
        · rw [place_alone hinherited hneighbour]
          cases hspot : firstFreeSpot a (preferredSpot element) with
          | some spot =>
            have hgrown : Grown a [element] (a ++ [⟨spot, [element]⟩]) := Grown.append (firstFreeSpot_free hspot)
            rw [room_of_missing hmem hinherited hgrown.elements (by simp [hneighbour])]
            exact ih (h.grown hgrown hmem)
          | none =>
            have hfull : ¬a.length < 12 := by
              have hnone : ¬(firstFreeSpot a (preferredSpot element)).isSome := by simp [hspot]
              rwa [firstFreeSpot_isSome h.toApart] at hnone
            refine iff_of_false (by simp) fun hroom ↦ ?_
            have hle := hroom.2
            rw [opening, if_neg (by simpa [hmem, NeighbourIn] using hneighbour), List.length_cons] at hle
            omega

/-! ## Moves -/

/-- A well-formed arrangement with the same elements. -/
structure Kept (a a' : Arrangement) : Prop where
  wellFormed : WellFormed a'
  elements : (elementsOf a').Perm (elementsOf a)

theorem Kept.refl (h : WellFormed a) : Kept a a := ⟨h, .refl _⟩

theorem Kept.trans {b : Arrangement} (h : Kept a a') (h' : Kept a' b) : Kept a b :=
  ⟨h'.wellFormed, h'.elements.trans h.elements⟩

theorem Kept.ite {p : Prop} [Decidable p] {b : Arrangement} (h : Kept a a') (h' : Kept a b) :
    Kept a (if p then a' else b) := by
  split
  · exact h
  · exact h'

theorem elementsOf_presentIn (present : String → Bool) :
    elementsOf (presentIn a present) = (elementsOf a).filter present := by
  rw [presentIn, elementsOf_filter_filled]
  simp [elementsOf, List.flatMap_map, List.filter_flatMap]

theorem presentIn_wellFormed (present : String → Bool) (h : Apart a) : WellFormed (presentIn a present) := by
  refine ⟨⟨?_, ?_⟩, fun island hisland ↦ by simpa using (List.mem_filter.1 hisland).2⟩
  · refine List.Nodup.sublist (List.filter_sublist.map _) ?_
    simpa [Function.comp_def] using h.spots
  · rw [elementsOf_presentIn]
    exact h.elements.filter _

theorem map_kept {f : Island → Island} {σ : Spot → Spot} (hσ : Function.Injective σ)
    (hspot : ∀ island, (f island).spot = σ island.spot)
    (helements : ∀ island, (f island).elements = island.elements) (h : WellFormed a) : Kept a (a.map f) := by
  have hsame : elementsOf (a.map f) = elementsOf a := by
    simp [elementsOf, List.flatMap_map, helements]
  refine ⟨⟨⟨?_, by rw [hsame]; exact h.elements⟩, fun island hisland ↦ ?_⟩, .of_eq hsame⟩
  · have hmap : (a.map f).map Island.spot = (a.map Island.spot).map σ := by simp [hspot]
    rw [hmap]
    exact h.spots.map hσ
  · obtain ⟨other, hother, rfl⟩ := List.mem_map.1 hisland
    rw [helements]
    exact h.filled other hother

theorem moveIsland_kept (origin target : Spot) (h : WellFormed a) : Kept a (moveIsland a origin target) := by
  rw [moveIsland]
  split
  · exact Kept.refl h
  · refine map_kept (Equiv.swap origin target).injective (fun island ↦ ?_) (fun island ↦ ?_) h
    · rw [Equiv.swap_apply_def]
      split_ifs <;> rfl
    · split_ifs <;> rfl

theorem indexWithin_le (index : Option ℤ) (length : ℕ) : indexWithin index length ≤ length := by
  cases index with
  | none => exact le_rfl
  | some index =>
    rw [indexWithin]
    omega

theorem moveElement_kept (element : String) (spot : Spot) (index : Option ℤ) (h : WellFormed a) :
    Kept a (moveElement a element spot index) := by
  rw [moveElement]
  split
  · exact Kept.refl h
  · rename_i hmem
    rw [islandOf_isNone, not_not] at hmem
    have hwithout := presentIn_wellFormed (· != element) h.toApart
    have hgone : element ∉ elementsOf (presentIn a (· != element)) := by
      simp [elementsOf_presentIn]
    have hperm : (element :: elementsOf (presentIn a (· != element))).Perm (elementsOf a) := by
      rw [elementsOf_presentIn, ← List.Nodup.erase_eq_filter h.elements element]
      exact (List.perm_cons_erase hmem).symm
    have hgrown : ∀ b, Grown (presentIn a (· != element)) [element] b → Kept a b := fun b hb ↦
      ⟨hwithout.grown hb hgone, hb.elements.trans hperm⟩
    cases hat : islandAt (presentIn a (· != element)) spot with
    | none =>
      have hfree := islandAt_isNone.1 (Option.isNone_iff_eq_none.2 hat)
      simpa only [hat] using hgrown _ (Grown.append hfree)
    | some island =>
      have hinsert : (island.elements.insertIdx (indexWithin index island.elements.length) element).Perm
          ([element] ++ island.elements) :=
        List.perm_insertIdx _ _ (indexWithin_le index _)
      have hchanged := Grown.changeFirst (f := fun other ↦
        { other with elements := other.elements.insertIdx (indexWithin index island.elements.length) element })
        hat rfl hinsert
      simpa only [hat] using hgrown _ hchanged

theorem groups_perm (l : List Island) :
    (ALONGS.flatMap fun along ↦ l.filter (·.spot.along = along)).Perm l := by
  induction l with
  | nil => rfl
  | cons island l ih =>
    simp only [ALONGS, List.flatMap_cons, List.flatMap_nil, List.append_nil] at ih ⊢
    cases halong : island.spot.along with
    | start => simpa [halong] using ih
    | center => simpa [halong] using List.perm_middle.trans (ih.cons island)
    | end_ =>
      rw [← List.append_assoc] at ih ⊢
      simpa [halong] using List.perm_middle.trans (ih.cons island)

theorem joinedGroups_perm (a : Arrangement) (edge : Edge) :
    (ALONGS.flatMap (joinedGroups a edge)).Perm (elementsOf a) := by
  have hgroups : ALONGS.flatMap (joinedGroups a edge) = elementsOf (ALONGS.flatMap fun along ↦
      (a.mergeSort fun x y ↦ (edge :: EDGES.filter (· ≠ edge)).idxOf x.spot.edge ≤
        (edge :: EDGES.filter (· ≠ edge)).idxOf y.spot.edge).filter (·.spot.along = along)) := by
    rw [elementsOf, List.flatMap_assoc]
    rfl
  rw [hgroups]
  exact ((groups_perm _).trans (List.mergeSort_perm a _)).flatMap_right _

theorem moveBar_kept (edge : Edge) (h : WellFormed a) : Kept a (moveBar a edge) := by
  have hbar : moveBar a edge =
      (ALONGS.map fun along ↦ (⟨⟨edge, along⟩, joinedGroups a (mainEdge a) along⟩ : Island)).filter
        fun island ↦ !island.elements.isEmpty := by
    simp [moveBar, List.filter_map, Function.comp_def]
  have hperm : (elementsOf (moveBar a edge)).Perm (elementsOf a) := by
    rw [hbar, elementsOf_filter_filled, elementsOf, List.flatMap_map]
    exact joinedGroups_perm a _
  rw [hbar] at hperm ⊢
  refine ⟨⟨⟨List.Nodup.sublist (List.filter_sublist.map _) ?_, hperm.nodup_iff.2 h.elements⟩,
    fun island hisland ↦ by simpa using (List.mem_filter.1 hisland).2⟩, hperm⟩
  rw [List.map_map]
  exact List.Nodup.map (fun _ _ heq ↦ (Spot.mk.inj heq).2) (by decide)

theorem islandTo_kept (origin spot : Spot) (joined : Bool) (h : WellFormed a) :
    Kept a (islandTo a origin spot joined) := by
  rw [islandTo]
  split
  · exact moveIsland_kept origin spot h
  · have hbar := moveBar_kept spot.edge h
    exact hbar.trans (moveIsland_kept _ spot hbar.wellFormed)

theorem elementTo_kept (element : String) (spot : Spot) (index : Option ℤ) (joined : Bool) (h : WellFormed a) :
    Kept a (elementTo a element spot index joined) := moveElement_kept element _ index h

theorem stepElement_kept (element : String) (dx dy : ℤ) (spotToward : Spot → Option Spot)
    (joined rightToLeft : Bool) (h : WellFormed a) :
    Kept a (stepElement a element dx dy spotToward joined rightToLeft) := by
  rw [stepElement]
  cases islandOf a element with
  | none => exact Kept.refl h
  | some island =>
    refine Kept.ite (elementTo_kept element _ _ joined h) ?_
    cases spotToward island.spot with
    | none => exact Kept.refl h
    | some spot => exact elementTo_kept element spot _ joined h

theorem placeElement_kept (element : String) (place : ElementPlace) (h : WellFormed a) :
    Kept a (placeElement a element place) := by
  rw [placeElement]
  cases placeTarget (presentIn a (· != element)) place with
  | none => exact Kept.refl h
  | some target => exact moveElement_kept element target.1 target.2 h

/-! ## Presets -/

theorem preset_wellFormed (name : PresetName) : WellFormed (PRESETS name) := by
  have hfilled : ∀ island ∈ PRESETS name, island.elements ≠ [] := by cases name <;> decide
  have hspots : ((PRESETS name).map Island.spot).Nodup := by cases name <;> decide
  have helements : (elementsOf (PRESETS name)).Nodup := by cases name <;> decide
  exact ⟨⟨hspots, helements⟩, hfilled⟩

end Taskbar
