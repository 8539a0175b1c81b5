import Luft.Lib.First
import Luft.Lib.Numbered
import Luft.Lib.Text

/-!
# The accounts and the names of their folders

Each cloud account has a folder, named as people wish, but for what `folder_name` takes out of the name and for
the number that `unique_name` puts behind it.

A dot at the front of a name is taken out, and white space on its sides before and after that.  Where more white
space and another dot come after the dots, that dot is left at the front (`Uncovers`, `folder_name_dotted`); all
else is as it should be.
-/

set_option autoImplicit false

namespace Drives

inductive Provider
  | onedrive
  | dropbox
  | icloud
  | nextcloud
  | webdav
  deriving DecidableEq

def Provider.name : Provider → List Char
  | .onedrive => "OneDrive".toList
  | .dropbox => "Dropbox".toList
  | .icloud => "iCloud Drive".toList
  | .nextcloud => "Nextcloud".toList
  | .webdav => "WebDAV".toList

structure Record where
  id : String
  provider : Provider
  name : List Char
  user : List Char
  server : Option String
  deriving DecidableEq

def eq_ignore_ascii_case (a b : List Char) : Bool := a.map Char.toLower = b.map Char.toLower

def is_control (c : Char) : Bool := c.toNat < 0x20 || (0x7f ≤ c.toNat && c.toNat ≤ 0x9f)

/-- A name with what cannot be in a folder's replaced by spaces. -/
def cleaned (wanted : List Char) : List Char :=
  Text.trim ((Text.trim wanted).map fun c ↦ if c = '/' || is_control c then ' ' else c)

def folder_name (wanted : List Char) : List Char :=
  let name := Text.trim ((cleaned wanted).dropWhile (· = '.'))
  if name.isEmpty then "Cloud".toList else name

def numbered (base : List Char) : ℕ → List Char
  | 1 => base
  | number => base ++ ' ' :: Nat.toDigits 10 number

section

variable (records : List Record)

def get (id : String) : Option Record := records.find? (·.id = id)

def taken (except : Option String) (name : List Char) : Bool :=
  records.any fun record ↦ some record.id ≠ except && eq_ignore_ascii_case record.name name

/-- The first number whose name no account has, but for the one excepted; there always is one
(`unique_name_free`). -/
def unique_name (wanted : List Char) (except : Option String) : List Char :=
  let base := folder_name wanted
  let free := fun number ↦ !taken records except (numbered base number)
  let number := Numbered.firstFree free (records.length + 1) 1
  numbered base (number.getD 0)

/-- The account that is found is changed. -/
def edit (id : String) (change : Record → Record) : List Record := First.updateFirst (·.id = id) change records

def remove (id : String) : List Record := records.eraseP (·.id = id)

end

/-! ## Names of folders -/

/-- A single component of a path, that is not hidden and leads nowhere else. -/
structure Component (name : List Char) : Prop where
  ne_nil : name ≠ []
  ne_dot : name ≠ ['.']
  ne_dots : name ≠ ['.', '.']
  undotted : name.head? ≠ some '.'
  slash : '/' ∉ name
  control : ∀ c ∈ name, is_control c = false

/-- Behind the dots at the front of a name comes white space, and then another dot. -/
def Uncovers (wanted : List Char) : Prop :=
  ∃ dots blanks rest, cleaned wanted = dots ++ (blanks ++ '.' :: rest) ∧ dots ≠ [] ∧ blanks ≠ [] ∧
    (∀ c ∈ dots, c = '.') ∧ ∀ c ∈ blanks, Text.is_whitespace c

variable {wanted base name : List Char} {number : ℕ} {c : Char}

theorem of_mem_cleaned (h : c ∈ cleaned wanted) : c ≠ '/' ∧ is_control c = false := by
  obtain ⟨d, -, rfl⟩ := List.mem_map.1 (Text.mem_of_mem_trim h)
  split
  · exact ⟨by decide, by decide⟩
  · rename_i hd
    simpa using hd

theorem of_mem_folder_name (h : c ∈ folder_name wanted) : c ≠ '/' ∧ is_control c = false := by
  rw [folder_name] at h
  split at h
  · have hall : "Cloud".toList.all fun c ↦ c != '/' && !is_control c := by decide
    simpa using List.all_eq_true.1 hall c h
  · exact of_mem_cleaned ((List.dropWhile_sublist _).subset (Text.mem_of_mem_trim h))

theorem folder_name_ne_nil (wanted : List Char) : folder_name wanted ≠ [] := by
  rw [folder_name]
  split
  · decide
  · rename_i hname
    simpa using hname

theorem not_whitespace_dot : Text.is_whitespace '.' = false := Text.not_whitespace (by decide) (by decide)

theorem dropWhile_eq_self {p : Char → Bool} (h : name.takeWhile p = []) : name.dropWhile p = name := by
  simpa [h] using List.takeWhile_append_dropWhile (p := p) (l := name)

theorem takeWhile_cleaned (wanted : List Char) : (cleaned wanted).takeWhile Text.is_whitespace = [] := by
  cases hcleaned : cleaned wanted with
  | nil => rfl
  | cons c rest =>
    have hc := (Text.trimmed_trim _).1 c (by rw [← cleaned, hcleaned]; rfl)
    simp [hc]

/-- **A dot is left at the front** just where the white space behind the first dots uncovers it. -/
theorem folder_name_dotted : (folder_name wanted).head? = some '.' ↔ Uncovers wanted := by
  have hname : (folder_name wanted).head? = some '.' ↔
      (((cleaned wanted).dropWhile (· = '.')).dropWhile Text.is_whitespace).head? = some '.' := by
    rw [← Text.head?_trim, folder_name]
    split
    · rename_i hempty
      rw [List.isEmpty_iff.1 hempty]
      decide
    · rfl
  rw [hname]
  constructor
  · intro h
    obtain ⟨rest, hrest⟩ := List.head?_eq_some_iff.1 h
    have hsplit : cleaned wanted = (cleaned wanted).takeWhile (· = '.') ++
        (((cleaned wanted).dropWhile (· = '.')).takeWhile Text.is_whitespace ++ '.' :: rest) := by
      rw [← hrest, List.takeWhile_append_dropWhile, List.takeWhile_append_dropWhile]
    refine ⟨_, _, rest, hsplit, fun hnone ↦ ?_, fun hnone ↦ ?_, ?_, ?_⟩
    · -- the name begins with no white space, so a dot found behind none is at its front
      have hfront : cleaned wanted = '.' :: rest := by
        rw [dropWhile_eq_self hnone] at hrest
        rw [← hrest]
        exact (dropWhile_eq_self (takeWhile_cleaned wanted)).symm
      simp [hfront] at hnone
    · have hdot : (cleaned wanted).dropWhile (· = '.') = '.' :: rest :=
        (dropWhile_eq_self hnone).symm.trans hrest
      have hhead := List.head_dropWhile_not (· = '.') (l := cleaned wanted) (by simp [hdot])
      simp [hdot] at hhead
    · exact fun c hc ↦ by simpa using List.mem_takeWhile_imp hc
    · exact fun c hc ↦ List.mem_takeWhile_imp hc
  · rintro ⟨dots, blanks, rest, heq, -, hblanks, hdots, hwhite⟩
    obtain ⟨blank, blanks, rfl⟩ := List.exists_cons_of_ne_nil hblanks
    have hblank : blank ≠ '.' := by
      rintro rfl
      have := hwhite '.' List.mem_cons_self
      rw [not_whitespace_dot] at this
      cases this
    rw [heq, List.dropWhile_append_of_pos (by simpa using hdots), List.cons_append,
      List.dropWhile_cons_of_neg (by simpa using hblank), ← List.cons_append,
      List.dropWhile_append_of_pos hwhite, List.dropWhile_cons_of_neg (by simp [not_whitespace_dot])]
    rfl

/-! ## Names that no other account has -/

theorem numbered_of_ne (h : number ≠ 1) : numbered base number = base ++ ' ' :: Nat.toDigits 10 number := by
  rw [numbered]
  exact h

theorem numbered_injective (base : List Char) :
    Function.Injective fun number ↦ (numbered base number).map Char.toLower := by
  intro m n h
  simp only at h
  by_cases hm : m = 1 <;> by_cases hn : n = 1
  · rw [hm, hn]
  · subst hm
    simpa [numbered, numbered_of_ne hn] using congrArg List.length h
  · subst hn
    simpa [numbered, numbered_of_ne hm] using congrArg List.length h
  · rw [numbered_of_ne hm, numbered_of_ne hn, List.map_append, List.map_append, List.map_cons, List.map_cons,
      Numbered.map_toLower_toDigits, Numbered.map_toLower_toDigits] at h
    exact Numbered.toDigits_injective (List.tail_eq_of_cons_eq (List.append_cancel_left h))

theorem exists_numbered (base : List Char) (number : ℕ) : ∃ more, numbered base number = base ++ more ∧
    ∀ c ∈ more, c ≠ '/' ∧ is_control c = false := by
  by_cases hone : number = 1
  · exact ⟨[], by rw [hone, numbered, List.append_nil], by simp⟩
  · refine ⟨' ' :: Nat.toDigits 10 number, numbered_of_ne hone,
      List.forall_mem_cons.2 ⟨by decide, fun c hc ↦ ?_⟩⟩
    have hdigit := Nat.isDigit_of_mem_toDigits (by decide) (by decide) hc
    rw [Char.isDigit_iff_toNat] at hdigit
    have hlow : 48 ≤ c.toNat := hdigit.1
    have hhigh : c.toNat ≤ 57 := hdigit.2
    refine ⟨?_, ?_⟩
    · rintro rfl
      exact absurd hlow (by decide)
    · rw [is_control]
      simp
      omega

/-- **A wanted name makes a component**, with any number, unless it uncovers a dot. -/
theorem component_numbered (wanted : List Char) (number : ℕ) :
    Component (numbered (folder_name wanted) number) ↔ ¬Uncovers wanted := by
  obtain ⟨more, hmore, hclean⟩ := exists_numbered (folder_name wanted) number
  obtain ⟨c, rest, hname⟩ := List.exists_cons_of_ne_nil (folder_name_ne_nil wanted)
  have hhead : (numbered (folder_name wanted) number).head? = (folder_name wanted).head? := by
    rw [hmore, hname]
    rfl
  rw [← folder_name_dotted, ← hhead]
  refine ⟨fun h ↦ h.undotted, fun h ↦ ?_⟩
  have hall : ∀ c ∈ numbered (folder_name wanted) number, c ≠ '/' ∧ is_control c = false := by
    intro c hc
    rw [hmore] at hc
    rcases List.mem_append.1 hc with hc | hc
    · exact of_mem_folder_name hc
    · exact hclean c hc
  refine ⟨by rw [hmore, hname]; exact List.cons_ne_nil _ _, ?_, ?_, h, fun hslash ↦ (hall '/' hslash).1 rfl,
    fun c hc ↦ (hall c hc).2⟩
  · exact fun heq ↦ h (by rw [heq]; rfl)
  · exact fun heq ↦ h (by rw [heq]; rfl)

variable {records : List Record} {except : Option String}

theorem taken_iff : taken records except name = true ↔
    ∃ record ∈ records, some record.id ≠ except ∧ eq_ignore_ascii_case record.name name := by
  simp [taken]

/-- **A name that is free**: the wanted one, or that with the first number that makes it free. -/
theorem unique_name_free (records : List Record) (wanted : List Char) (except : Option String) :
    ∃ number, unique_name records wanted except = numbered (folder_name wanted) number ∧
      taken records except (numbered (folder_name wanted) number) = false := by
  have hoccupied : ∀ number, (!taken records except (numbered (folder_name wanted) number)) = false →
      (numbered (folder_name wanted) number).map Char.toLower ∈
        records.map fun record ↦ record.name.map Char.toLower := by
    intro number hnumber
    obtain ⟨record, hrecord, -, hsame⟩ := taken_iff.1 (by simpa using hnumber)
    exact List.mem_map.2 ⟨record, hrecord, of_decide_eq_true hsame⟩
  have hsome := Numbered.firstFree_isSome _ 1 (fun _ _ _ _ h ↦ numbered_injective (folder_name wanted) h) hoccupied
  rw [List.length_map] at hsome
  obtain ⟨number, hnumber⟩ := Option.isSome_iff_exists.1 hsome
  obtain ⟨-, -, hfree, -⟩ := Numbered.firstFree_eq_some_iff.1 hnumber
  exact ⟨number, by rw [unique_name, hnumber]; rfl, by simpa using hfree⟩

end Drives
