import Luft.Drives.Records

/-!
# Names of conflict copies

Where a file changed on this computer and in the cloud at the same time, the older version is kept under a name
with a mark and a number in front of its extension.  `parse` reads such a name from the right and `copy_name` makes
a readable one of it.

The readable name can itself be taken for that of a conflict copy, if the extension is a mark with a number or if
the name is one with a mark further in front and nothing else behind the last dot (`Retaken`, `parse_copy_name`).
-/

set_option autoImplicit false

namespace Drives

inductive Side
  | thisDevice
  | cloud
  deriving DecidableEq

def Side.mark : Side → List Char
  | .thisDevice => ".luft-device".toList
  | .cloud => ".luft-cloud".toList

structure Found where
  original : List Char
  side : Side
  extension : List Char
  stem : List Char
  deriving DecidableEq

def parse_mark (name : List Char) (side : Side) : Option Found :=
  match Text.rfind side.mark name with
  | none => none
  | some (stem, rest) =>
    let digits := (rest.takeWhile Char.isDigit).length
    let extension := rest.drop digits
    if digits = 0 then none
    else if !(extension.isEmpty || (extension.head? = some '.' && !extension.tail.contains '.')) then none
    else some ⟨stem ++ extension, side, extension, stem⟩

def parse (name : List Char) : Option Found := [Side.thisDevice, Side.cloud].findSome? (parse_mark name)

/-- Where a copy is from. -/
def Side.source (cloud : List Char) : Side → List Char
  | .thisDevice => "this device".toList
  | .cloud => cloud

def numberMark (number : ℕ) : List Char := if number > 1 then ' ' :: Nat.toDigits 10 number else []

def COPY_FROM : List Char := " (copy from ".toList

/-- What stands between the stem and the extension. -/
def copyMark (side : Side) (cloud : List Char) (number : ℕ) : List Char :=
  COPY_FROM ++ (side.source cloud ++ (numberMark number ++ [')']))

def copy_name (found : Found) (cloud : List Char) (number : ℕ) : List Char :=
  found.stem ++ (copyMark found.side cloud number ++ found.extension)

/-! ## Conflict copies -/

def Digits (digits : List Char) : Prop := digits ≠ [] ∧ ∀ c ∈ digits, c.isDigit

/-- An extension, which may be one in several parts. -/
def Extension (extension : List Char) : Prop := extension = [] ∨ ∃ rest, extension = '.' :: rest

/-- An extension of one part. -/
def Simple (extension : List Char) : Prop := extension = [] ∨ ∃ rest, extension = '.' :: rest ∧ '.' ∉ rest

/-- The name that a version of a file is kept under. -/
def IsCopy (name : List Char) : Prop :=
  ∃ (stem : List Char) (side : Side) (digits extension : List Char), Digits digits ∧ Extension extension ∧
    name = stem ++ (side.mark ++ (digits ++ extension))

/-- The readable name has a mark, the last one, with a number and an extension of one part behind it. -/
def Retaken (mark stem extension : List Char) : Prop :=
  (∃ digits, Digits digits ∧ extension = mark ++ digits) ∨
    extension = [] ∧ ∃ front digits last, Digits digits ∧ '.' ∉ last ∧ ¬mark <+: '.' :: last ∧
      stem = front ++ (mark ++ (digits ++ '.' :: last))

variable {name stem extension digits mid before after mark last : List Char} {side : Side} {found : Found}
  {cloud : List Char} {number : ℕ}

theorem Side.exists_mark (side : Side) : ∃ rest, side.mark = '.' :: rest ∧ '.' ∉ rest := by
  cases side
  · exact ⟨"luft-device".toList, by decide +kernel, by decide +kernel⟩
  · exact ⟨"luft-cloud".toList, by decide +kernel, by decide +kernel⟩

theorem Side.space (side : Side) : ' ' ∉ side.mark := by cases side <;> decide +kernel

theorem not_isDigit_dot : Char.isDigit '.' = false := by decide

theorem Simple.head (h : Simple extension) : ∀ c ∈ extension.head?, c = '.' := by
  rcases h with rfl | ⟨rest, rfl, -⟩ <;> simp

theorem simple_iff : Simple extension ↔
    (extension.isEmpty || (extension.head? = some '.' && !extension.tail.contains '.')) = true := by
  cases extension with
  | nil => simp [Simple]
  | cons c rest => simp [Simple, and_comm]

theorem takeWhile_digits (h : Digits digits) (hextension : Simple extension) :
    (digits ++ extension).takeWhile Char.isDigit = digits := by
  have hnone : extension.takeWhile Char.isDigit = [] := by
    rcases hextension with rfl | ⟨rest, rfl, -⟩ <;> simp [not_isDigit_dot]
  rw [List.takeWhile_append_of_pos h.2, hnone, List.append_nil]

/-- **What `parse` reads** with one of the marks. -/
theorem parse_mark_eq_some_iff : parse_mark name side = some found ↔
    found.side = side ∧ found.original = found.stem ++ found.extension ∧ Simple found.extension ∧
      ∃ digits, Digits digits ∧ Text.rfind side.mark name = some (found.stem, digits ++ found.extension) := by
  rw [parse_mark]
  constructor
  · intro h
    cases hfind : Text.rfind side.mark name with
    | none => simp [hfind] at h
    | some halves =>
      obtain ⟨stem, rest⟩ := halves
      have hdrop : rest.drop (rest.takeWhile Char.isDigit).length = rest.dropWhile Char.isDigit :=
        calc rest.drop (rest.takeWhile Char.isDigit).length
          _ = (rest.takeWhile Char.isDigit ++ rest.dropWhile Char.isDigit).drop
              (rest.takeWhile Char.isDigit).length := by rw [List.takeWhile_append_dropWhile]
          _ = rest.dropWhile Char.isDigit := List.drop_left
      simp only [hfind, hdrop] at h
      split at h
      · cases h
      · rename_i hdigits
        split at h
        · cases h
        · rename_i hsimple
          obtain rfl := Option.some_inj.1 h
          rw [Bool.not_eq_true', Bool.not_eq_false] at hsimple
          refine ⟨rfl, rfl, simple_iff.2 hsimple, rest.takeWhile Char.isDigit, ⟨?_, ?_⟩, ?_⟩
          · simpa using hdigits
          · exact fun c hc ↦ List.mem_takeWhile_imp hc
          · simp
  · rintro ⟨rfl, horiginal, hsimple, digits, hdigits, hfind⟩
    have hlength : digits.length ≠ 0 := fun h ↦ hdigits.1 (List.length_eq_zero_iff.1 h)
    simp only [hfind, takeWhile_digits hdigits hsimple, List.drop_left, if_neg hlength]
    rw [if_neg (by rw [simple_iff.1 hsimple]; simp), ← horiginal]

/-- What was put between the stem and the extension: no part of it can be part of a mark. -/
def Between (mid : List Char) : Prop := ∃ rest, mid = ' ' :: rest ∧ '.' ∉ mid

/-- A mark begins in front of what was put between stem and extension, or behind it. -/
theorem occurrence_cases (hmid : Between mid)
    (h : stem ++ (mid ++ extension) = before ++ (side.mark ++ after)) :
    (∃ rest, stem = before ++ (side.mark ++ rest) ∧ after = rest ++ (mid ++ extension)) ∨
      ∃ front, before = stem ++ (mid ++ front) ∧ extension = front ++ (side.mark ++ after) := by
  obtain ⟨tail, hmark, -⟩ := side.exists_mark
  obtain ⟨more, hspace, hdot⟩ := hmid
  rcases List.append_eq_append_iff.1 h with ⟨xs, hbefore, hrest⟩ | ⟨xs, hstem, hrest⟩
  · rcases List.append_eq_append_iff.1 hrest with ⟨ys, hys, hextension⟩ | ⟨ys, hys, hextension⟩
    · exact .inr ⟨ys, by rw [hbefore, hys], hextension⟩
    · cases ys with
      | nil => exact .inr ⟨[], by rw [hbefore, hys]; simp, hextension.symm⟩
      | cons c ys =>
        rw [hmark] at hextension
        obtain rfl : '.' = c := List.head_eq_of_cons_eq hextension
        exact absurd (hys ▸ by simp) hdot
  · rcases List.append_eq_append_iff.1 hrest with ⟨ys, hys, hextension⟩ | ⟨ys, hys, hextension⟩
    · exact .inl ⟨ys, by rw [hstem, hys], hextension⟩
    · cases ys with
      | nil => exact .inl ⟨[], by rw [hstem, hys]; simp, hextension.symm⟩
      | cons c ys =>
        rw [hspace] at hextension
        obtain rfl : ' ' = c := List.head_eq_of_cons_eq hextension
        exact absurd (hys ▸ by simp) side.space

/-- A text with no dot but its first is cut in front of a dot only there. -/
theorem eq_nil_of_dot {text front back : List Char} (htext : '.' ∉ text) (h : '.' :: text = front ++ '.' :: back) :
    front = [] := by
  cases front with
  | nil => rfl
  | cons c front =>
    refine absurd ?_ htext
    rw [List.tail_eq_of_cons_eq h]
    simp

theorem Digits.not_mem (h : Digits digits) {c : Char} (hc : c.isDigit = false) : c ∉ digits := by
  intro hmem
  rw [h.2 c hmem] at hc
  cases hc

/-- Read in the stem, a mark has a number and the last dot behind it. -/
theorem retaken_of_stem {rest read : List Char} (hmid : Between mid) (hextension : Simple extension)
    (hread : Simple read) (hdigits : Digits digits) (hrest : digits ++ read = rest ++ (mid ++ extension)) :
    extension = [] ∧ ∃ last, '.' ∉ last ∧ rest = digits ++ '.' :: last := by
  obtain ⟨more, hspace, hdot⟩ := hmid
  rcases List.append_eq_append_iff.1 hrest with ⟨ys, hys, hext⟩ | ⟨ys, hys, hext⟩
  · -- the extension that is read begins in the stem, so there is no other dot behind that one
    rcases hread with rfl | ⟨text, rfl, hnodot⟩
    · simp [hspace] at hext
    · cases ys with
      | nil => simp [hspace] at hext
      | cons c last =>
        rw [List.cons_append] at hext
        obtain rfl : '.' = c := List.head_eq_of_cons_eq hext
        rw [List.tail_eq_of_cons_eq hext, List.mem_append, List.mem_append, not_or, not_or] at hnodot
        refine ⟨?_, last, hnodot.1, hys⟩
        rcases hextension with hnil | ⟨text', rfl, -⟩
        · exact hnil
        · exact absurd List.mem_cons_self hnodot.2.2
  · cases ys with
    | nil => rcases hread with rfl | ⟨text, rfl, -⟩ <;> simp [hspace] at hext
    | cons c ys =>
      rw [hspace] at hext
      obtain rfl : ' ' = c := List.head_eq_of_cons_eq hext
      exact absurd (hys ▸ by simp) (hdigits.not_mem (c := ' ') (by decide))

/-- Read in the extension, a mark is all of it but for the number. -/
theorem retaken_of_extension {front read : List Char} (hextension : Simple extension) (hread : Simple read)
    (hext : extension = front ++ (side.mark ++ (digits ++ read))) : extension = side.mark ++ digits := by
  obtain ⟨tail, hmark, -⟩ := side.exists_mark
  rcases hextension with rfl | ⟨text, rfl, htext⟩
  · simp [hmark] at hext
  · rw [hmark, List.cons_append] at hext
    obtain rfl := eq_nil_of_dot htext hext
    rw [List.tail_eq_of_cons_eq hext] at htext
    rcases hread with rfl | ⟨text', rfl, -⟩
    · rw [hext, hmark]
      simp
    · simp at htext

theorem retaken_of_parse (hmid : Between mid) (hextension : Simple extension)
    (h : (parse_mark (stem ++ (mid ++ extension)) side).isSome) : Retaken side.mark stem extension := by
  obtain ⟨found, hfound⟩ := Option.isSome_iff_exists.1 h
  obtain ⟨-, -, hread, digits, hdigits, hfind⟩ := parse_mark_eq_some_iff.1 hfound
  obtain ⟨hname, hlast⟩ := Text.rfind_eq_some_iff.1 hfind
  rcases occurrence_cases hmid hname with ⟨rest, hstem, hrest⟩ | ⟨front, -, hext⟩
  · obtain ⟨hnone, last, hnodot, hdigitsrest⟩ := retaken_of_stem hmid hextension hread hdigits hrest
    refine .inr ⟨hnone, found.stem, digits, last, hdigits, hnodot, fun hbegins ↦ ?_, by rw [hstem, hdigitsrest]⟩
    obtain ⟨behind, hbehind⟩ := hbegins
    have hle := hlast (found.stem ++ (side.mark ++ digits)) (behind ++ (mid ++ extension)) (by
      rw [hstem, hdigitsrest, ← hbehind]
      simp)
    have hpositive := List.length_pos_iff.2 hdigits.1
    rw [List.length_append, List.length_append] at hle
    omega
  · exact .inl ⟨digits, hdigits, retaken_of_extension hextension hread hext⟩

theorem parse_of_extension (hmid : Between mid) (hdigits : Digits digits) :
    (parse_mark (stem ++ (mid ++ (side.mark ++ digits))) side).isSome := by
  obtain ⟨tail, hmark, htail⟩ := side.exists_mark
  have hfind : Text.rfind side.mark (stem ++ (mid ++ (side.mark ++ digits))) =
      some (stem ++ mid, digits ++ []) := by
    refine Text.rfind_eq_some_iff.2 ⟨by simp, fun before after h ↦ ?_⟩
    rcases occurrence_cases hmid h with ⟨rest, hstem, -⟩ | ⟨front, hbefore, hext⟩
    · rw [hstem]
      simp
    · have hnodot : '.' ∉ tail ++ digits := by
        simp [htail, hdigits.not_mem not_isDigit_dot]
      rw [hmark, List.cons_append, List.cons_append] at hext
      rw [hbefore, eq_nil_of_dot hnodot hext]
      simp
  exact Option.isSome_iff_exists.2 ⟨⟨(stem ++ mid) ++ [], side, [], stem ++ mid⟩,
    parse_mark_eq_some_iff.2 ⟨rfl, rfl, .inl rfl, digits, hdigits, hfind⟩⟩

theorem parse_of_stem (hmid : Between mid) (hdigits : Digits digits) (hlast : '.' ∉ last)
    (hbegins : ¬side.mark <+: '.' :: last) (front : List Char) :
    (parse_mark (front ++ (side.mark ++ (digits ++ '.' :: last)) ++ (mid ++ [])) side).isSome := by
  obtain ⟨tail, hmark, htail⟩ := side.exists_mark
  have hfind : Text.rfind side.mark (front ++ (side.mark ++ (digits ++ '.' :: last)) ++ (mid ++ [])) =
      some (front, digits ++ '.' :: (last ++ mid)) := by
    refine Text.rfind_eq_some_iff.2 ⟨by simp, fun before after h ↦ ?_⟩
    rcases occurrence_cases hmid h with ⟨rest, hstem, -⟩ | ⟨front', -, hext⟩
    · rcases List.append_eq_append_iff.1 hstem with ⟨ys, rfl, hrest⟩ | ⟨ys, rfl, -⟩
      · cases ys with
        | nil => simp
        | cons c ys =>
          -- a later mark would be behind the last dot
          exfalso
          rw [hmark, List.cons_append, List.cons_append, List.cons_append] at hrest
          have hnodot : '.' ∉ tail ++ digits := by
            simp [htail, hdigits.not_mem not_isDigit_dot]
          have hcut := List.tail_eq_of_cons_eq hrest
          rw [← List.append_assoc, List.append_cons_inj_of_notMem hnodot hlast] at hcut
          exact hbegins ⟨rest, by rw [hcut.2.2, hmark, List.cons_append]⟩
      · simp
    · simp [hmark] at hext
  have hsimple : Simple ('.' :: (last ++ mid)) := .inr ⟨last ++ mid, rfl, by
    obtain ⟨-, -, hdot⟩ := hmid
    simp [hlast, hdot]⟩
  exact Option.isSome_iff_exists.2 ⟨⟨front ++ '.' :: (last ++ mid), side, '.' :: (last ++ mid), front⟩,
    parse_mark_eq_some_iff.2 ⟨rfl, rfl, hsimple, digits, hdigits, hfind⟩⟩

theorem parse_mark_iff (hmid : Between mid) (hextension : Simple extension) :
    (parse_mark (stem ++ (mid ++ extension)) side).isSome ↔ Retaken side.mark stem extension := by
  refine ⟨retaken_of_parse hmid hextension, ?_⟩
  rintro (⟨digits, hdigits, rfl⟩ | ⟨rfl, front, digits, last, hdigits, hlast, hbegins, rfl⟩)
  · exact parse_of_extension hmid hdigits
  · exact parse_of_stem hmid hdigits hlast hbegins front

theorem not_mem_numberMark (number : ℕ) : '.' ∉ numberMark number := by
  rw [numberMark]
  split
  · rw [List.mem_cons, not_or]
    exact ⟨by decide, fun h ↦ absurd (Nat.isDigit_of_mem_toDigits (by decide) (by decide) h) (by decide)⟩
  · exact List.not_mem_nil

theorem exists_copyFrom : ∃ rest, COPY_FROM = ' ' :: rest ∧ '.' ∉ ' ' :: rest :=
  ⟨"(copy from ".toList, by decide +kernel, by decide +kernel⟩

theorem Side.not_mem_source (side : Side) (hcloud : '.' ∉ cloud) : '.' ∉ side.source cloud := by
  cases side with
  | thisDevice =>
    have hdevice : '.' ∉ "this device".toList := by decide +kernel
    exact hdevice
  | cloud => exact hcloud

theorem between_copyMark (side : Side) (hcloud : '.' ∉ cloud) (number : ℕ) :
    Between (copyMark side cloud number) := by
  obtain ⟨rest, hfront, hopen⟩ := exists_copyFrom
  have heq : copyMark side cloud number = ' ' :: rest ++ (side.source cloud ++ (numberMark number ++ [')'])) :=
    congrArg (· ++ _) hfront
  refine ⟨_, heq, ?_⟩
  rw [heq, List.mem_append, List.mem_append, List.mem_append, not_or, not_or, not_or]
  exact ⟨hopen, side.not_mem_source hcloud, not_mem_numberMark number, by decide⟩

theorem parse_isSome_iff : (parse name).isSome ↔ ∃ side, (parse_mark name side).isSome := by
  rw [parse, List.findSome?_isSome_iff]
  constructor
  · rintro ⟨side, -, h⟩
    exact ⟨side, h⟩
  · rintro ⟨side, h⟩
    exact ⟨side, by cases side <;> simp, h⟩

/-- What `parse` finds in a name. -/
theorem of_parse (h : parse name = some found) : Simple found.extension ∧
    ∃ digits, Digits digits ∧ name = found.stem ++ (found.side.mark ++ (digits ++ found.extension)) := by
  obtain ⟨side, -, hmark⟩ := List.exists_of_findSome?_eq_some h
  obtain ⟨rfl, -, hsimple, digits, hdigits, hfind⟩ := parse_mark_eq_some_iff.1 hmark
  exact ⟨hsimple, digits, hdigits, (Text.rfind_eq_some_iff.1 hfind).1⟩

theorem isCopy_of_parse (h : parse name = some found) : IsCopy name := by
  obtain ⟨hsimple, digits, hdigits, hname⟩ := of_parse h
  refine ⟨found.stem, found.side, digits, found.extension, hdigits, ?_, hname⟩
  rcases hsimple with hnil | ⟨rest, hrest, -⟩
  · exact .inl hnil
  · exact .inr ⟨rest, hrest⟩

/-- **A name that was given is taken for that of a conflict copy** just if it is retaken by one of the marks. -/
theorem parse_copy_name_iff (h : parse name = some found) (hcloud : '.' ∉ cloud) (number : ℕ) :
    (parse (copy_name found cloud number)).isSome ↔
      ∃ side : Side, Retaken side.mark found.stem found.extension := by
  rw [parse_isSome_iff]
  exact exists_congr fun side ↦ parse_mark_iff (between_copyMark found.side hcloud number) (of_parse h).1

/-- **A conflict copy is recognized** if its extension has one part and does not begin with the mark. -/
theorem parse_isSome_of_simple (stem : List Char) (side : Side) (hdigits : Digits digits)
    (hextension : Simple extension) (hbegins : ¬side.mark <+: extension) :
    (parse (stem ++ (side.mark ++ (digits ++ extension)))).isSome := by
  obtain ⟨tail, hmark, htail⟩ := side.exists_mark
  have hfind : Text.rfind side.mark (stem ++ (side.mark ++ (digits ++ extension))) =
      some (stem, digits ++ extension) := by
    refine Text.rfind_eq_some_iff.2 ⟨rfl, fun before after h ↦ ?_⟩
    rcases List.append_eq_append_iff.1 h with ⟨ys, rfl, hrest⟩ | ⟨ys, rfl, -⟩
    · cases ys with
      | nil => simp
      | cons c ys =>
        -- a later mark would be the extension's beginning
        exfalso
        rw [hmark, List.cons_append, List.cons_append, List.cons_append] at hrest
        have hcut := List.tail_eq_of_cons_eq hrest
        have hnodot : '.' ∉ tail ++ digits := by
          simp [htail, hdigits.not_mem not_isDigit_dot]
        rw [← List.append_assoc] at hcut
        rcases hextension with rfl | ⟨text, rfl, htext⟩
        · rw [List.append_nil] at hcut
          exact hnodot (hcut ▸ by simp)
        · rw [List.append_cons_inj_of_notMem hnodot htext] at hcut
          exact hbegins ⟨after, by rw [hcut.2.2, hmark, List.cons_append]⟩
    · simp
  exact parse_isSome_iff.2 ⟨side, Option.isSome_iff_exists.2 ⟨⟨stem ++ extension, side, extension, stem⟩,
    parse_mark_eq_some_iff.2 ⟨rfl, rfl, hextension, digits, hdigits, hfind⟩⟩⟩

theorem numberMark_injective {m n : ℕ} (hm : 1 ≤ m) (hn : 1 ≤ n) (h : numberMark m = numberMark n) : m = n := by
  rw [numberMark, numberMark] at h
  split at h <;> split at h
  · exact Numbered.toDigits_injective (List.tail_eq_of_cons_eq h)
  · cases h
  · cases h
  · omega

/-- Different numbers give different names. -/
theorem copy_name_injective (found : Found) (cloud : List Char) {m n : ℕ} (hm : 1 ≤ m) (hn : 1 ≤ n)
    (h : copy_name found cloud m = copy_name found cloud n) : m = n := by
  rw [copy_name, copy_name] at h
  have hcopy := List.append_cancel_right (List.append_cancel_left h)
  rw [copyMark, copyMark] at hcopy
  have hmark := List.append_cancel_left hcopy
  exact numberMark_injective hm hn (List.append_cancel_right (List.append_cancel_left hmark))

end Drives
