import Luft.Lib.Text
import Luft.SushiBoot.Version
import Mathlib.Data.List.Basic

/-!
# Boot images and the catalog of the boot menu

An `Image` is a startup image found on one of the volumes, from the folder of images or from an
entry file that names it; only the latter have a sort key, and tries that are counted.
`Catalog.add` sorts the images and fills the menu's catalog with them: the first image of each
system goes on the main page, the others behind Previous versions, and each image is followed by
its further profiles.  `Catalog.older` finds the image that the previous version would start.

What was read from the volumes is taken as it is.  The entries for other systems and the one for the
firmware settings are pushed after the images, and left out here.
-/

set_option autoImplicit false

namespace SushiBoot

/-! ## What was found -/

abbrev Handle := ℕ

structure Tries where
  left : ℕ
  done : ℕ
deriving DecidableEq, Repr

structure Counted where
  volume : Handle
  directory : String
  stem : String
  file : String
  tries : Tries
deriving DecidableEq, Repr

structure Profile where
  id : Option String
  title : Option String
  command_line : Option String
deriving DecidableEq, Repr

structure Uki where
  command_line : Option String
  os : String
  name : Option String
  version : Option String
  image_version : Option String
  profiles : List Profile
deriving DecidableEq, Repr

/-- Where an image comes from; `lead` goes before the names of its entries. -/
structure Origin where
  handle : Handle
  lead : String
  label : Option String
deriving DecidableEq, Repr

structure Image where
  origin : Origin
  path : String
  name : String
  sort_key : Option String
  uki : Uki
  counted : Option Counted
deriving DecidableEq, Repr

/-! ## The catalog -/

inductive Action where
  | linux (linux : String) (initrd : Option String) (options : String)
  | efi (path options : String)
  | firmwareSetup
deriving DecidableEq, Repr

structure Release where
  os : String
  version : String
deriving DecidableEq, Repr

structure BootEntry where
  id : String
  title : String
  volume : Handle
  action : Action
  release : Option Release
  counted : Option Counted
deriving DecidableEq, Repr

inductive Row where
  | entry (index : ℕ)
  | previous
deriving DecidableEq, Repr

structure Catalog where
  entries : List BootEntry := []
  main : List Row := []
  previous : List ℕ := []
  others : List ℕ := []
  failed : Option ℕ := none
deriving DecidableEq, Repr

def Origin.id (origin : Origin) (name : String) : String := origin.lead ++ name

def Origin.title (origin : Origin) (title : String) : String :=
  match origin.label with
  | some label => title ++ " (" ++ label ++ ")"
  | none => title

/-- The path and release of a startup image's own entry. -/
def BootEntry.image (entry : BootEntry) : Option (String × Release) :=
  match entry.action, entry.release with
  | .efi path _, some release => some (path, release)
  | _, _ => none

/-! ## Images -/

def Counted.bad (counted : Counted) : Bool := counted.tries.left == 0

/-- A name without the `.efi`s it ends with, read from its end. -/
def trimEnd : List Char → List Char
  | 'i' :: 'f' :: 'e' :: '.' :: rest => trimEnd rest
  | rest => rest

def readable (version : String) : String :=
  match Text.split_once "-nightly.".toList version.toList with
  | some (release, number) =>
    String.ofList release ++ " Nightly " ++ String.ofList number
  | none => version

def without_lockdown (command_line : String) : String :=
  " ".intercalate <| ((Text.split_whitespace command_line.toList).filter fun argument ↦
    argument.takeWhile (· ≠ '=') ≠ "lockdown".toList).map String.ofList

namespace Image

def bad (image : Image) : Bool := image.counted.any Counted.bad

def version (image : Image) : String :=
  image.uki.version.getD (String.ofList (trimEnd image.name.toList.reverse).reverse)

def release (image : Image) : String :=
  match image.uki.name, image.uki.image_version with
  | some name, some version => name ++ " " ++ readable version
  | _, _ => "Linux " ++ image.version

def order (image other : Image) : Ordering :=
  match image.sort_key, other.sort_key with
  | some ours, some theirs => compare ours theirs
  | _, _ => newest_first image.version other.version

/-- What the images are sorted by: bad ones last, then `order`. -/
def starting (a b : Image) : Ordering := (compare a.bad b.bad).then (a.order b)

def command_line (image : Image) (profile : ℕ) : Option String :=
  (image.uki.profiles[profile]?.bind Profile.command_line).or image.uki.command_line

def options (image : Image) (profile : ℕ) (secure_boot : Bool) : String :=
  let number := if profile > 0 then ["@" ++ toString profile] else []
  let line := if secure_boot then [] else
    (image.command_line profile).toList.map without_lockdown
  " ".intercalate (number ++ line)

def entry (image : Image) (profile : ℕ) (title : String) (secure_boot : Bool) : BootEntry :=
  let id := match image.uki.profiles[profile]? with
    | some details =>
      match details.id with
      | some name => image.name ++ "@" ++ name
      | none => image.name ++ "@" ++ toString profile
    | none => image.name
  { id := image.origin.id id
    title := image.origin.title title
    volume := image.origin.handle
    action := .efi image.path (image.options profile secure_boot)
    release := if profile = 0 then
        some ⟨image.uki.os, image.uki.image_version.getD image.version⟩
      else none
    counted := if profile = 0 then image.counted else none }

/-- The title of an image's own entry; `newest` is whether it is the first of its system. -/
def mainTitle (image : Image) (newest : Bool) : String :=
  match image.uki.name with
  | some name =>
    if image.uki.image_version.isNone && newest then name
    else if image.uki.image_version.isNone then name ++ ", " ++ image.release
    else image.release
  | none => image.release

end Image

/-! ## Filling the catalog -/

namespace Catalog

def push (catalog : Catalog) (entry : BootEntry) : Catalog :=
  { catalog with entries := catalog.entries ++ [entry] }

/-- The further profiles of an image, each with its number. -/
def further (image : Image) : List (Profile × ℕ) := image.uki.profiles.zipIdx.drop 1

/-- Push one further profile; it shows on the main page if it has a title and its image is the
first of its system. -/
def addProfile (secure_boot : Bool) (image : Image) (newest : Bool) (catalog : Catalog)
    (profile : Profile × ℕ) : Catalog :=
  let title := profile.1.title.getD ""
  let index := catalog.entries.length
  let catalog := catalog.push (image.entry profile.2 title secure_boot)
  if newest && profile.1.title.isSome then
    { catalog with main := catalog.main ++ [.entry index] }
  else catalog

/-- Push an image's own entry: on the main page, or behind Previous versions after the `first`
image of its system. -/
def addMain (secure_boot : Bool) (image : Image) (first : Option Image) (catalog : Catalog) :
    Catalog :=
  let main := catalog.entries.length
  let catalog := catalog.push (image.entry 0 (image.mainTitle first.isNone) secure_boot)
  match first with
  | none => { catalog with main := catalog.main ++ [.entry main] }
  | some first =>
    { catalog with
      previous := catalog.previous ++ [main]
      failed := if image.bad && image.order first == .lt then some main else catalog.failed }

/-- One round of the loop over the sorted images; `listed` are the first images of their
systems. -/
def addImage (secure_boot : Bool) (catalog : Catalog) (listed : List Image) (image : Image) :
    Catalog × List Image :=
  let first := listed.find? fun other ↦ other.uki.os == image.uki.os
  let catalog := addMain secure_boot image first catalog
  let catalog := (further image).foldl (addProfile secure_boot image first.isNone) catalog
  (catalog, if first.isNone then listed ++ [image] else listed)

/-- The loop over the sorted images, and the row for the previous versions if there are any. -/
def addSorted (secure_boot : Bool) (images : List Image) : Catalog :=
  let catalog := (images.foldl (fun state ↦ addImage secure_boot state.1 state.2) ({}, [])).1
  if catalog.previous.isEmpty then catalog else { catalog with main := catalog.main ++ [.previous] }

/-- A catalog filled with images. -/
def add (sorter : StableSort Image) (secure_boot : Bool) (images : List Image) : Catalog :=
  addSorted secure_boot (sorter.sort_by Image.starting images)

/-! ## Reading the catalog -/

def first (catalog : Catalog) : Option ℕ :=
  catalog.main.findSome? fun
    | .entry index => some index
    | .previous => catalog.previous.head?

/-- The first entry of the image that an entry starts. -/
def image_of (catalog : Catalog) (index : ℕ) : Option ℕ :=
  match catalog.entries[index]? with
  | some { action := .efi path _, .. } =>
    catalog.entries.findIdx? fun entry ↦ entry.image.any fun image ↦ image.1 == path
  | _ => none

/-- The next image of the same system after the one an entry starts. -/
def older (catalog : Catalog) (index : ℕ) : Option ℕ := do
  let image ← catalog.image_of index
  let (path, release) ← catalog.entries[image]?.bind BootEntry.image
  let found ← (catalog.entries.zipIdx.drop (image + 1)).find? fun entry ↦
    entry.1.image.any fun other ↦ other.1 != path && other.2.os == release.os
  return found.2

/-! ## What the loop makes -/

/-- The entries an image gets: each is made of the image and the number of a profile. -/
def slots (image : Image) : List (Image × ℕ) :=
  (image, 0) :: (further image).map fun profile ↦ (image, profile.2)

/-- An entry made of an image and a profile, whatever its title. -/
def Made (secure_boot : Bool) (slot : Image × ℕ) (entry : BootEntry) : Prop :=
  ∃ title, entry = slot.1.entry slot.2 title secure_boot

variable {secure_boot : Bool} {image : Image} {newest : Bool}

theorem mem_further {profile : Profile × ℕ} (h : profile ∈ further image) : profile.2 ≠ 0 := by
  rw [further, List.drop_one] at h
  rcases hp : image.uki.profiles with _ | ⟨base, rest⟩
  · rw [hp] at h
    cases h
  · rw [hp, List.zipIdx_cons, List.tail_cons, List.mem_zipIdx_iff_le_and_getElem?_sub] at h
    omega

theorem addProfile_entries (catalog : Catalog) (profile : Profile × ℕ) :
    (addProfile secure_boot image newest catalog profile).entries =
      catalog.entries ++ [image.entry profile.2 (profile.1.title.getD "") secure_boot] := by
  rw [addProfile]
  split <;> rfl

theorem addProfile_main (catalog : Catalog) (profile : Profile × ℕ) :
    catalog.main <+: (addProfile secure_boot image newest catalog profile).main := by
  rw [addProfile]
  split
  · exact List.prefix_append _ _
  · exact List.prefix_refl _

theorem profiles_entries (profiles : List (Profile × ℕ)) (catalog : Catalog) :
    (profiles.foldl (addProfile secure_boot image newest) catalog).entries = catalog.entries ++
      profiles.map fun p ↦ image.entry p.2 (p.1.title.getD "") secure_boot := by
  induction profiles generalizing catalog with
  | nil => rw [List.foldl_nil, List.map_nil, List.append_nil]
  | cons profile profiles ih =>
    rw [List.foldl_cons, ih, addProfile_entries, List.append_assoc, List.map_cons,
      List.singleton_append]

theorem profiles_main (profiles : List (Profile × ℕ)) (catalog : Catalog) :
    catalog.main <+: (profiles.foldl (addProfile secure_boot image newest) catalog).main := by
  induction profiles generalizing catalog with
  | nil => exact List.prefix_refl _
  | cons profile profiles ih => exact (addProfile_main catalog profile).trans (ih _)

theorem addMain_entries (catalog : Catalog) (first : Option Image) :
    (addMain secure_boot image first catalog).entries =
      catalog.entries ++ [image.entry 0 (image.mainTitle first.isNone) secure_boot] := by
  cases first <;> rfl

theorem addMain_main (catalog : Catalog) (first : Option Image) :
    catalog.main <+: (addMain secure_boot image first catalog).main := by
  cases first with
  | none => exact List.prefix_append _ _
  | some first => exact List.prefix_refl _

variable (secure_boot) in
/-- **One round of the loop** appends the entries of its image. -/
theorem addImage_made (catalog : Catalog) (listed : List Image) (image : Image) :
    ∃ entries, (addImage secure_boot catalog listed image).1.entries =
      catalog.entries ++ entries ∧ List.Forall₂ (Made secure_boot) (slots image) entries := by
  rw [addImage, profiles_entries, addMain_entries, List.append_assoc]
  refine ⟨_, rfl, List.Forall₂.cons ⟨_, rfl⟩ ?_⟩
  show List.Forall₂ _ _ (List.map _ _)
  rw [List.forall₂_map_left_iff, List.forall₂_map_right_iff, List.forall₂_same]
  exact fun profile _ ↦ ⟨_, rfl⟩

variable (secure_boot) in
theorem addImage_main (catalog : Catalog) (listed : List Image) (image : Image) :
    catalog.main <+: (addImage secure_boot catalog listed image).1.main :=
  (addMain_main catalog _).trans (profiles_main _ _)

variable (secure_boot) in
theorem foldl_made (images : List Image) (state : Catalog × List Image) :
    ∃ entries, (images.foldl (fun state ↦ addImage secure_boot state.1 state.2) state).1.entries =
      state.1.entries ++ entries ∧ List.Forall₂ (Made secure_boot) (images.flatMap slots) entries := by
  induction images generalizing state with
  | nil => exact ⟨[], by rw [List.foldl_nil, List.append_nil], List.Forall₂.nil⟩
  | cons image images ih =>
    obtain ⟨own, hown, hmade⟩ := addImage_made secure_boot state.1 state.2 image
    obtain ⟨later, hlater, hmade'⟩ := ih (addImage secure_boot state.1 state.2 image)
    refine ⟨own ++ later, ?_, List.rel_append hmade hmade'⟩
    rw [List.foldl_cons, hlater, hown, List.append_assoc]

theorem foldl_main (images : List Image) (state : Catalog × List Image) : state.1.main <+:
    (images.foldl (fun state ↦ addImage secure_boot state.1 state.2) state).1.main := by
  induction images generalizing state with
  | nil => exact List.prefix_refl _
  | cons image images ih => exact (addImage_main _ state.1 state.2 image).trans (ih _)

theorem addSorted_entries (images : List Image) : (addSorted secure_boot images).entries =
    (images.foldl (fun state ↦ addImage secure_boot state.1 state.2) ({}, [])).1.entries := by
  rw [addSorted]
  split <;> rfl

theorem main_addSorted (images : List Image) :
    (images.foldl (fun state ↦ addImage secure_boot state.1 state.2) ({}, [])).1.main <+:
      (addSorted secure_boot images).main := by
  rw [addSorted]
  split
  · exact List.prefix_refl _
  · exact List.prefix_append _ _

variable (secure_boot) in
/-- **The catalog lists the images in starting order**, each with its profiles. -/
theorem addSorted_made (images : List Image) :
    List.Forall₂ (Made secure_boot) (images.flatMap slots) (addSorted secure_boot images).entries := by
  obtain ⟨entries, hentries, hmade⟩ := foldl_made secure_boot images ({}, [])
  rw [addSorted_entries, hentries]
  exact hmade

variable (secure_boot) in
/-- **The first entry of a filled catalog** is the one of the image that starts first. -/
theorem first_addSorted (image : Image) (images : List Image) :
    (addSorted secure_boot (image :: images)).first = some 0 ∧
      (addSorted secure_boot (image :: images)).entries[0]? =
        some (image.entry 0 (image.mainTitle true) secure_boot) := by
  constructor
  · have hown : [Row.entry 0] <+: (addImage secure_boot {} [] image).1.main :=
      profiles_main (further image) (addMain secure_boot image none {})
    obtain ⟨rows, hrows⟩ :=
      hown.trans ((foldl_main images _).trans (main_addSorted (image :: images)))
    rw [first, ← hrows]
    rfl
  · obtain ⟨later, hlater, -⟩ := foldl_made secure_boot images
      (addImage secure_boot {} [] image)
    rw [addSorted_entries, List.foldl_cons, hlater, addImage, profiles_entries, addMain_entries]
    rfl

end Catalog

end SushiBoot
