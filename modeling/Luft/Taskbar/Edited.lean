import Luft.Lib.Runs
import Luft.Taskbar.WellFormed

/-!
# A taskbar that is edited

A run reads the settings and then takes any of the steps, one after the other.  Every arrangement in it is
well-formed, moves keep the elements and completing puts in each one asked for, as long as whatever is completed
has room (`edited_iff`).  A taskbar with an island at each of the twelve spots has none for an element whose
neighbours aren't there (`twelve_islands`).
-/

set_option autoImplicit false

namespace Taskbar

/-- What can be done to an arrangement. -/
inductive Step
  | parseArrangement (stored : List (String × List String))
  | completeArrangement (elements : List String)
  | presentIn (present : String → Bool)
  | moveIsland (origin target : Spot)
  | moveElement (element : String) (spot : Spot) (index : Option ℤ)
  | moveBar (edge : Edge)
  | islandTo (origin spot : Spot) (joined : Bool)
  | elementTo (element : String) (spot : Spot) (index : Option ℤ) (joined : Bool)
  | stepElement (element : String) (dx dy : ℤ) (spotToward : Spot → Option Spot) (joined rightToLeft : Bool)
  | placeElement (element : String) (place : ElementPlace)
  | presetArrangement (name : PresetName)

namespace Step

/-- The arrangement after a step, unless it throws or puts an island at no spot. -/
def result : Step → Arrangement → Option Arrangement
  | parseArrangement stored, _ => some (Taskbar.parseArrangement stored)
  | completeArrangement elements, a => Taskbar.completeArrangement a elements
  | presentIn present, a => some (Taskbar.presentIn a present)
  | moveIsland origin target, a => some (Taskbar.moveIsland a origin target)
  | moveElement element spot index, a => some (Taskbar.moveElement a element spot index)
  | moveBar edge, a => some (Taskbar.moveBar a edge)
  | islandTo origin spot joined, a => some (Taskbar.islandTo a origin spot joined)
  | elementTo element spot index joined, a => some (Taskbar.elementTo a element spot index joined)
  | stepElement element dx dy spotToward joined rightToLeft, a =>
    some (Taskbar.stepElement a element dx dy spotToward joined rightToLeft)
  | placeElement element place, a => some (Taskbar.placeElement a element place)
  | presetArrangement name, a => Taskbar.presetArrangement name a

/-- The steps that only move what is there. -/
def isMove : Step → Bool
  | parseArrangement _ | completeArrangement _ | presentIn _ | presetArrangement _ => false
  | _ => true

/-- The elements a step is to see to. -/
def asked : Step → Arrangement → List String
  | completeArrangement elements, _ => elements
  | presetArrangement _, a => elementsOf a
  | _, _ => []

/-- There is room for what a step completes the arrangement with.  A preset names all the elements others go
beside, so nothing opens an island there. -/
def HasRoom : Step → Arrangement → Prop
  | completeArrangement elements, a => Room a elements
  | presetArrangement _, a => ∀ element ∈ elementsOf a, element ∉ INHERITED
  | _, _ => True

/-- A step gives a well-formed arrangement, adds or drops nothing if it is a move, and sees to what it was
asked. -/
def AsClaimed (step : Step) (a : Arrangement) : Prop :=
  ∃ a', step.result a = some a' ∧ WellFormed a' ∧ (step.isMove → (elementsOf a').Perm (elementsOf a)) ∧
    ∀ element ∈ step.asked a, element ∈ elementsOf a'

/-- What comes after a step; where it fails, the arrangement there was. -/
def advance (step : Step) (a : Arrangement) : Arrangement := (step.result a).getD a

end Step

variable {a a' : Arrangement} {step : Step}

theorem Kept.asClaimed (h : Kept a a') (hresult : step.result a = some a') (hasked : step.asked a = []) :
    step.AsClaimed a := by
  refine ⟨a', hresult, h.wellFormed, fun _ ↦ h.elements, ?_⟩
  rw [hasked]
  simp

theorem complete_asClaimed {elements : List String} {b : Arrangement} (hb : WellFormed b)
    (hresult : step.result a = completeArrangement b elements) (hmove : step.isMove = false)
    (hasked : step.asked a = elements) : step.AsClaimed a ↔ Room b elements := by
  rw [← completeArrangement_isSome_iff hb, Option.isSome_iff_exists, Step.AsClaimed, hresult, hasked, hmove]
  refine exists_congr fun a' ↦ ⟨fun h ↦ h.1, fun h ↦ ?_⟩
  obtain ⟨hwf, -, hall⟩ := completeArrangement_wellFormed hb h
  exact ⟨h, hwf, by simp, hall⟩

/-- Every element has a home beside one of the built-in ones. -/
theorem homeOf_beside (element : String) :
    ∃ neighbour ∈ (homeOf element).beside, neighbour ∈ BUILT_IN_ELEMENTS := by
  rw [homeOf.eq_def]
  split <;> simp [EXTENSION_HOME, BUILT_IN_ELEMENTS, SYSTEM_ELEMENTS]

/-- Where the built-in elements are, nothing opens an island. -/
theorem opening_eq_nil {present : List String} (elements : List String)
    (h : ∀ element ∈ BUILT_IN_ELEMENTS, element ∈ present) :
    opening present elements = [] := by
  induction elements generalizing present with
  | nil => rfl
  | cons element elements ih =>
    obtain ⟨neighbour, hbeside, hbuiltin⟩ := homeOf_beside element
    have hany : (homeOf element).beside.any present.contains = true :=
      List.any_eq_true.2 ⟨neighbour, hbeside, by simpa using h neighbour hbuiltin⟩
    rw [opening, if_pos (by simp [hany])]
    exact ih fun other hother ↦ List.mem_cons_of_mem _ (h other hother)

theorem room_preset (name : PresetName) (elements : List String) :
    Room (PRESETS name) elements ↔ ∀ element ∈ elements, element ∉ INHERITED := by
  have hbuiltin : ∀ element ∈ BUILT_IN_ELEMENTS, element ∈ elementsOf (PRESETS name) := by
    cases name <;> decide
  have hown : ∀ element ∈ elementsOf (PRESETS name), element ∉ INHERITED := by cases name <;> decide
  have hlength : (PRESETS name).length ≤ 12 := (preset_wellFormed name).toApart.length_le
  rw [Room, opening_eq_nil elements hbuiltin]
  constructor
  · rintro ⟨hnames, -⟩ element helement
    by_cases hmem : element ∈ elementsOf (PRESETS name)
    · exact hown element hmem
    · exact hnames element helement hmem
  · exact fun hall ↦ ⟨fun element helement _ ↦ hall element helement, hlength⟩

/-- **A step does as claimed** just where it has room. -/
theorem asClaimed_iff_hasRoom (h : WellFormed a) : step.AsClaimed a ↔ step.HasRoom a := by
  cases step with
  | parseArrangement stored =>
    exact iff_of_true
      ⟨_, rfl, parseArrangement_wellFormed stored, by simp [Step.isMove], by simp [Step.asked]⟩ trivial
  | completeArrangement elements => exact complete_asClaimed h rfl rfl rfl
  | presentIn present =>
    exact iff_of_true
      ⟨_, rfl, presentIn_wellFormed present h.toApart, by simp [Step.isMove], by simp [Step.asked]⟩ trivial
  | moveIsland origin target => exact iff_of_true ((moveIsland_kept origin target h).asClaimed rfl rfl) trivial
  | moveElement element spot index =>
    exact iff_of_true ((moveElement_kept element spot index h).asClaimed rfl rfl) trivial
  | moveBar edge => exact iff_of_true ((moveBar_kept edge h).asClaimed rfl rfl) trivial
  | islandTo origin spot joined =>
    exact iff_of_true ((islandTo_kept origin spot joined h).asClaimed rfl rfl) trivial
  | elementTo element spot index joined =>
    exact iff_of_true ((elementTo_kept element spot index joined h).asClaimed rfl rfl) trivial
  | stepElement element dx dy spotToward joined rightToLeft =>
    exact iff_of_true
      ((stepElement_kept element dx dy spotToward joined rightToLeft h).asClaimed rfl rfl) trivial
  | placeElement element place =>
    exact iff_of_true ((placeElement_kept element place h).asClaimed rfl rfl) trivial
  | presetArrangement name =>
    exact (complete_asClaimed (preset_wellFormed name) rfl rfl rfl).trans (room_preset name _)

theorem Step.AsClaimed.advance (h : step.AsClaimed a) : WellFormed (step.advance a) := by
  obtain ⟨a', hresult, hwf, -⟩ := h
  rw [Step.advance, hresult]
  exact hwf

/-- **An edited taskbar**: the settings give a well-formed arrangement, and in a run from there every step does
as claimed if and only if each has the room it needs. -/
theorem edited_iff (stored : List (String × List String)) (steps : List Step) :
    WellFormed (parseArrangement stored) ∧
      (Runs.Along Step.advance Step.AsClaimed steps (parseArrangement stored) ↔
        Runs.Along Step.advance Step.HasRoom steps (parseArrangement stored)) := by
  have hwf := parseArrangement_wellFormed stored
  refine ⟨hwf, fun h ↦ ?_, fun h ↦ ?_⟩
  · exact h.along (P := WellFormed) (fun step a _ hclaimed ↦ hclaimed.advance)
      (fun step a ha ↦ (asClaimed_iff_hasRoom ha).1) hwf
  · exact h.along (P := WellFormed) (fun step a ha hroom ↦ ((asClaimed_iff_hasRoom ha).2 hroom).advance)
      (fun step a ha ↦ (asClaimed_iff_hasRoom ha).2) hwf

/-- Settings with an island at each of the twelve spots, none with a built-in element. -/
def twelve : List (String × List String) := SPOTS.map fun spot ↦ (spot.name, ["clocks/" ++ spot.name])

/-- **No spot left**: the dock's own island would be put at no spot. -/
theorem twelve_islands :
    ¬Runs.Along Step.advance Step.AsClaimed [.completeArrangement ["dock"]] (parseArrangement twelve) := by
  rintro ⟨⟨a', hresult, -⟩, -⟩
  have hnone : completeArrangement (parseArrangement twelve) ["dock"] = none := by decide +kernel
  exact absurd (hresult.symm.trans hnone) (by simp)

end Taskbar
