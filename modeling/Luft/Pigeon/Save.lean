import Luft.Lib.Files
import Luft.Lib.Numbered
import Luft.Lib.Text

/-!
# Where a received file goes

A sender names the file, with folders of its own.  `relative` keeps of that what stays in the receiving folder, and
`save` writes the file next to where it goes and then moves it there, with a number in its name where the name is
taken (`save_safe`).

The system is outside (`Outside`): what it refuses, what is in a file that could not be written to its end, and the
checksum.  The random id is outside too; that nothing has a name with it is what its randomness is for.
-/

set_option autoImplicit false

namespace Pigeon

abbrev Bytes := List UInt8

local instance lawfulBEq_name : LawfulBEq FileName := inferInstance

inductive Component
  | rootDir
  | curDir
  | parentDir
  | normal (part : FileName)
  deriving DecidableEq

def Component.part : Component → Option FileName
  | .normal part => some part
  | _ => none

/-- The components of a path as it is written. -/
def components (path : List Char) : List Component :=
  let parts := Text.fields (· = '/') path
  (if path.head? = some '/' then [.rootDir] else if parts.head? = some ['.'] then [.curDir] else []) ++
    (parts.filter (· ≠ ['.'])).map fun part ↦ if part = ['.', '.'] then .parentDir else .normal part

/-- A name with one kind of separator, and without what cannot be in a path. -/
def cleaned (name : List Char) : List Char :=
  (name.map fun c ↦ if c = '\\' then '/' else c).filter (· ≠ '\x00')

def relative (name : List Char) : PathBuf :=
  let parts := (components (cleaned name)).filterMap Component.part
  if parts = [] then ["file".toList] else parts

/-- The name with a number before its extension. -/
def numberedName (name : FileName) (attempt : UInt32) : FileName :=
  let number := " (".toList ++ Nat.toDigits 10 attempt.toNat ++ [')']
  match Text.rsplit_once '.' name with
  | some (stem, extension) => if stem ≠ [] then stem ++ number ++ '.' :: extension else name ++ number
  | none => name ++ number

def numbered (wanted : PathBuf) (attempt : UInt32) : PathBuf :=
  if attempt = 1 then wanted else wanted.dropLast ++ [numberedName (wanted.getLast?.getD []) attempt]

inductive Failure
  | stopped
  | checksum
  | broken
  deriving DecidableEq

structure FileDto where
  file_name : List Char
  size : ℕ
  sha256 : Option (List Char)
  deriving DecidableEq

/-- What comes of a file next. -/
inductive Frame
  | data (bytes : Bytes)
  | trailers
  | failed
  /-- It is stopped here. -/
  | stopped
  deriving DecidableEq

structure Outside where
  refusesFolder : PathBuf → Bool
  refusesFile : Bool
  /-- Writing so many bytes fails. -/
  refusesBytes : ℕ → Bool
  refusesSync : Bool
  refusesName : PathBuf → Bool
  refusesRemoval : Bool
  /-- What is in a file whose writing failed. -/
  left : Bytes
  sha256 : Bytes → Bytes

def hex (bytes : Bytes) : List Char :=
  bytes.flatMap fun byte ↦ [Nat.digitChar (byte.toNat / 16), Nat.digitChar (byte.toNat % 16)]

/-- The bytes that a random id is made of. -/
structure RandomId where
  bytes : Bytes
  length_bytes : bytes.length = 16

def random_id (id : RandomId) : List Char := hex id.bytes

def eq_ignore_ascii_case (a b : List Char) : Bool := a.map Char.toLower = b.map Char.toLower

section

variable (outside : Outside) (file : FileDto)

/-- What the frames bring, after what came before. -/
def received : Bytes → List Frame → Except Failure Bytes
  | content, [] => .ok content
  | _, .stopped :: _ => .error .stopped
  | _, .failed :: _ => .error .broken
  | content, .trailers :: frames => received content frames
  | content, .data bytes :: frames =>
    if (content ++ bytes).length > file.size then .error .broken
    else if outside.refusesBytes (content ++ bytes).length then .error .broken
    else received (content ++ bytes) frames

/-- The whole content, when all is as the sender said. -/
def checked (frames : List Frame) : Except Failure Bytes :=
  match received outside file [] frames with
  | .error failure => .error failure
  | .ok content =>
    if content.length ≠ file.size then .error .broken
    else if file.sha256.any fun expected ↦ !eq_ignore_ascii_case (hex (outside.sha256 content)) expected then
      .error .checksum
    else if outside.refusesSync then .error .broken
    else .ok content

/-- Into the partial file, which is made anew. -/
def write (part : PathBuf) (frames : List Frame) (files : Files Bytes) : Except Failure Unit × Files Bytes :=
  if outside.refusesFile ∨ files part = some .folder then (.error .broken, files)
  else
    match checked outside file frames with
    | .ok content => (.ok (), Function.update files part (some (.file content)))
    | .error failure => (.error failure, Function.update files part (some (.file outside.left)))

/-- The attempts of `keep`, as many as `fuel`.  Behind the last number there is, they begin at 0 again. -/
def keepFrom (part wanted : PathBuf) (files : Files Bytes) :
    ℕ → UInt32 → Option (Except Failure PathBuf × Files Bytes)
  | 0, _ => none
  | fuel + 1, attempt =>
    match Files.rename_noreplace outside.refusesName files part (numbered wanted attempt) with
    | .ok files' => some (.ok (numbered wanted attempt), files')
    | .error .exist => keepFrom part wanted files fuel (attempt + 1)
    | .error .other => some (.error .broken, files)

def keep (part wanted : PathBuf) (fuel : ℕ) (files : Files Bytes) : Option (Except Failure PathBuf × Files Bytes) :=
  keepFrom outside part wanted files fuel 1

def remove_file (path : PathBuf) (files : Files Bytes) : Files Bytes :=
  match files path with
  | some (.file _) => if outside.refusesRemoval then files else Function.update files path none
  | _ => files

/-- The file that is written until it is whole. -/
def partialFile (wanted : PathBuf) (id : RandomId) : PathBuf :=
  wanted.dropLast ++ ['.' :: wanted.getLast?.getD [] ++ '.' :: random_id id ++ ".part".toList]

/-- The partial file is written, and then moved or else removed. -/
def saved (part wanted : PathBuf) (frames : List Frame) (fuel : ℕ) (files : Files Bytes) :
    Option (Except Failure PathBuf × Files Bytes) :=
  match write outside file part frames files with
  | (.error failure, files) => some (.error failure, remove_file outside part files)
  | (.ok (), files) =>
    (keep outside part wanted fuel files).map fun
      | (.ok target, files) => (.ok target, files)
      | (.error failure, files) => (.error failure, remove_file outside part files)

/-- Nothing where the search for a name does not end in as many attempts as `fuel`. -/
def save (folder : PathBuf) (frames : List Frame) (id : RandomId) (fuel : ℕ) (files : Files Bytes) :
    Option (Except Failure PathBuf × Files Bytes) :=
  let wanted := folder ++ relative file.file_name
  match Files.create_dir_all outside.refusesFolder files wanted.dropLast with
  | (false, files) => some (.error .broken, files)
  | (true, files) => saved outside file (partialFile wanted id) wanted frames fuel files

end

/-! ## Names -/

/-- A part of a path that stands for an entry of a folder. -/
def Normal (part : FileName) : Prop :=
  part ≠ [] ∧ part ≠ ['.'] ∧ part ≠ ['.', '.'] ∧ '/' ∉ part ∧ '\\' ∉ part ∧ '\x00' ∉ part

/-- The folders and the name that a sender's name has in it. -/
def normalParts (name : List Char) : List FileName :=
  (Text.fields (fun c ↦ c = '/' || c = '\\') (name.filter (· ≠ '\x00'))).filter fun part ↦
    part ≠ ['.'] ∧ part ≠ ['.', '.']

/-- A name is the asked one, or that with a number before its extension. -/
def Differs (asked : FileName) (attempt : UInt32) (name : FileName) : Prop :=
  (attempt = 1 ∧ name = asked) ∨
    (attempt ≠ 1 ∧ ∃ stem behind, asked = stem ++ behind ∧
      name = stem ++ " (".toList ++ Nat.toDigits 10 attempt.toNat ++ ')' :: behind ∧
      ((∃ extension, stem ≠ [] ∧ behind = '.' :: extension ∧ '.' ∉ extension) ∨
        (behind = [] ∧ '.' ∉ asked.tail)))

variable {name : List Char} {asked kept : FileName} {attempt : UInt32} {front : PathBuf}

theorem fields_cleaned (name : List Char) :
    Text.fields (· = '/') (cleaned name) =
      Text.fields (fun c ↦ c = '/' || c = '\\') (name.filter (· ≠ '\x00')) := by
  have hfilter : cleaned name = (name.filter (· ≠ '\x00')).map fun c ↦ if c = '\\' then '/' else c := by
    rw [cleaned, List.filter_map]
    congr 1
    refine List.filter_congr fun c _ ↦ ?_
    by_cases hc : c = '\\' <;> simp [hc]
  rw [hfilter, Text.fields, Text.fields, Text.splitOnP_map]
  · intro c
    by_cases hc : c = '\\' <;> simp [hc]
  · intro c hc
    rw [if_neg]
    simp_all

theorem filterMap_part (parts : List FileName) :
    (parts.map fun part ↦ if part = ['.', '.'] then Component.parentDir else .normal part).filterMap
      Component.part = parts.filter (· ≠ ['.', '.']) := by
  induction parts with
  | nil => rfl
  | cons part parts ih =>
    rw [List.map_cons]
    by_cases hdots : part = ['.', '.']
    · rw [if_pos hdots, List.filterMap_cons_none rfl, ih, List.filter_cons_of_neg (by simp [hdots])]
    · rw [if_neg hdots, List.filterMap_cons_some (show (Component.normal part).part = some part from rfl), ih, List.filter_cons_of_pos (by simp [hdots])]

/-- What is left of a sender's name are its normal parts, or else one for all such names. -/
theorem relative_eq (name : List Char) :
    relative name = if normalParts name = [] then ["file".toList] else normalParts name := by
  have hparts : (components (cleaned name)).filterMap Component.part = normalParts name := by
    have hfront : ∀ parts : List FileName, (if (cleaned name).head? = some '/' then [Component.rootDir]
        else if parts.head? = some ['.'] then [.curDir] else []).filterMap Component.part = [] := by
      intro parts
      split_ifs <;> rfl
    rw [components, List.filterMap_append, hfront, List.nil_append, filterMap_part, List.filter_filter,
      fields_cleaned, normalParts]
    exact List.filter_congr fun part _ ↦ by simp [Bool.and_comm]
  rw [relative, hparts]

theorem relative_ne_nil (name : List Char) : relative name ≠ [] := by
  rw [relative_eq]
  split
  · exact List.cons_ne_nil _ _
  · assumption

theorem normal_of_mem_relative {part : FileName} (h : part ∈ relative name) : Normal part := by
  rw [relative_eq] at h
  split at h
  · rw [List.mem_singleton.1 h]
    refine ⟨?_, ?_, ?_, ?_, ?_, ?_⟩ <;> simp
  · obtain ⟨hfield, hdots⟩ := List.mem_filter.1 h
    obtain ⟨hmem, hne⟩ := List.mem_filter.1 hfield
    have hseparates := Text.not_separates_of_mem_splitOnP hmem
    simp only [ne_eq, decide_not, Bool.not_eq_eq_eq_not, Bool.not_true, decide_eq_false_iff_not, decide_eq_true_eq] at hdots hne
    refine ⟨hne, hdots.1, hdots.2, fun hc ↦ ?_, fun hc ↦ ?_, fun hc ↦ ?_⟩
    · simpa using hseparates _ hc
    · simpa using hseparates _ hc
    · have hname := (Text.infix_of_mem_splitOnP hmem).subset hc
      simp at hname

/-! ## Numbers -/

/-- The name that is tried in an attempt. -/
def triedName (asked : FileName) (attempt : UInt32) : FileName :=
  if attempt = 1 then asked else numberedName asked attempt

theorem numbered_eq (front : PathBuf) (asked : FileName) (attempt : UInt32) :
    numbered (front ++ [asked]) attempt = front ++ [triedName asked attempt] := by
  rw [numbered, triedName]
  split
  · rfl
  · rw [List.dropLast_concat, List.getLast?_concat, Option.getD_some]

theorem numberedName_eq (asked : FileName) (attempt : UInt32) :
    ∃ stem behind, asked = stem ++ behind ∧
      numberedName asked attempt = stem ++ " (".toList ++ Nat.toDigits 10 attempt.toNat ++ ')' :: behind ∧
      ((∃ extension, stem ≠ [] ∧ behind = '.' :: extension ∧ '.' ∉ extension) ∨ (behind = [] ∧ '.' ∉ asked.tail)) := by
  rw [numberedName]
  rcases Text.rsplit_once_cases '.' asked with ⟨hnot, hnone⟩ | ⟨stem, extension, hasked, hnot, hsome⟩
  · rw [hnone]
    exact ⟨asked, [], by simp, by simp, .inr ⟨rfl, fun h ↦ hnot (List.mem_of_mem_tail h)⟩⟩
  · rw [hsome]
    by_cases hstem : stem = []
    · subst hstem
      exact ⟨asked, [], by simp, by simp, .inr ⟨rfl, by rwa [hasked]⟩⟩
    · exact ⟨stem, '.' :: extension, hasked, by simp [hstem], .inl ⟨extension, hstem, rfl, hnot⟩⟩

theorem triedName_differs (asked : FileName) (attempt : UInt32) : Differs asked attempt (triedName asked attempt) := by
  by_cases hfirst : attempt = 1
  · exact .inl ⟨hfirst, if_pos hfirst⟩
  · refine .inr ⟨hfirst, ?_⟩
    rw [triedName, if_neg hfirst]
    exact numberedName_eq asked attempt

/-- A number does not make a name anything else. -/
theorem Differs.normal (h : Differs asked attempt kept) (hasked : Normal asked) : Normal kept := by
  rcases h with ⟨-, rfl⟩ | ⟨-, stem, behind, rfl, rfl, -⟩
  · exact hasked
  · obtain ⟨-, -, -, hslash, hback, hnul⟩ := hasked
    rw [List.mem_append, not_or] at hslash hback hnul
    have hdigits : ∀ c ∈ Nat.toDigits 10 attempt.toNat, c.isDigit := fun c hc ↦
      Nat.isDigit_of_mem_toDigits (by decide) (by decide) hc
    have hne : ∀ c : Char, c.isDigit = false → c ≠ ' ' → c ≠ '(' → c ≠ ')' → c ∉ stem → c ∉ behind →
        c ∉ stem ++ " (".toList ++ Nat.toDigits 10 attempt.toNat ++ ')' :: behind := by
      intro c hdigit hspace hopen hclose hstem hbehind hc
      have hdigit' : c ∉ Nat.toDigits 10 attempt.toNat := fun hc ↦ by
        rw [hdigits c hc] at hdigit
        cases hdigit
      simp [hstem, hspace, hopen, hclose, hbehind, hdigit'] at hc
    have hclose : ')' ∈ stem ++ " (".toList ++ Nat.toDigits 10 attempt.toNat ++ ')' :: behind := by simp
    refine ⟨fun h ↦ ?_, fun h ↦ ?_, fun h ↦ ?_, ?_, ?_, ?_⟩
    · rw [h] at hclose
      simp at hclose
    · rw [h] at hclose
      simp at hclose
    · rw [h] at hclose
      simp at hclose
    · exact hne _ (by decide) (by decide) (by decide) (by decide) hslash.1 hslash.2
    · exact hne _ (by decide) (by decide) (by decide) (by decide) hback.1 hback.2
    · exact hne _ (by decide) (by decide) (by decide) (by decide) hnul.1 hnul.2

theorem length_random_id (id : RandomId) : (random_id id).length = 32 := by
  have hhex : ∀ bytes : Bytes, (hex bytes).length = 2 * bytes.length := by
    intro bytes
    induction bytes with
    | nil => rfl
    | cons byte bytes ih =>
      rw [hex, List.flatMap_cons, List.length_append, ← hex, ih]
      simp only [List.length_cons, List.length_nil]
      omega
  rw [random_id, hhex, id.length_bytes]

/-- No number makes a name as long as the partial file's. -/
theorem numbered_ne_partialFile (front : PathBuf) (asked : FileName) (attempt : UInt32) (id : RandomId) :
    numbered (front ++ [asked]) attempt ≠ partialFile (front ++ [asked]) id := by
  rw [numbered_eq, partialFile, List.dropLast_concat, List.getLast?_concat, Option.getD_some]
  intro h
  have hname := congrArg List.length (List.singleton_inj.1 (List.append_cancel_left h))
  have hdigits : (Nat.toDigits 10 attempt.toNat).length ≤ 10 :=
    Nat.toDigits_length 10 attempt.toNat 10 (by decide) (attempt.toNat_lt.trans (by decide))
  rcases triedName_differs asked attempt with ⟨-, hkept⟩ | ⟨-, stem, behind, hasked, hkept, -⟩
  · rw [hkept] at hname
    simp [length_random_id] at hname
    omega
  · rw [hkept, hasked] at hname
    simp [length_random_id] at hname
    omega

/-! ## Moving the file to its name -/

variable {outside : Outside} {file : FileDto} {part wanted target path : PathBuf} {files files' : Files Bytes}
  {content : Bytes} {frames : List Frame} {fuel n : ℕ}

/-- What an attempt that is not the last one's successor ends with. -/
def ending (outside : Outside) (part target : PathBuf) (files : Files Bytes) :
    Except Failure PathBuf × Files Bytes :=
  match Files.rename_noreplace outside.refusesName files part target with
  | .ok files' => (.ok target, files')
  | .error _ => (.error .broken, files)

/-- The attempts stop at the first number that is free. -/
theorem keepFrom_eq (hpart : files part = some (.file content)) (fuel n : ℕ) :
    keepFrom outside part wanted files fuel (UInt32.ofNat n) =
      (Numbered.firstFree (fun k ↦ (files (numbered wanted (UInt32.ofNat k))).isNone) fuel n).map fun k ↦
        ending outside part (numbered wanted (UInt32.ofNat k)) files := by
  induction fuel generalizing n with
  | zero => rfl
  | succ fuel ih =>
    have hexist := Files.rename_noreplace_exist outside.refusesName (numbered wanted (UInt32.ofNat n)) hpart
    rw [keepFrom, Numbered.firstFree]
    cases hmove : Files.rename_noreplace outside.refusesName files part (numbered wanted (UInt32.ofNat n)) with
    | ok files' =>
      rw [if_pos (by simp [(Files.rename_noreplace_ok hpart hmove).1]), Option.map_some, ending, hmove]
    | error errno =>
      cases errno with
      | exist =>
        rw [if_neg (by simpa [Option.isSome_iff_ne_none] using hexist.1 hmove), ← ih, UInt32.ofNat_add]
        rfl
      | other =>
        have hfree : files (numbered wanted (UInt32.ofNat n)) = none := by
          by_contra hne
          rw [hexist.2 hne] at hmove
          cases hmove
        rw [if_pos (by simp [hfree]), Option.map_some, ending, hmove]

theorem keep_ok (hpart : files part = some (.file content))
    (h : keep outside part wanted fuel files = some (.ok target, files')) :
    ∃ n, 1 ≤ n ∧ target = numbered wanted (UInt32.ofNat n) ∧ files target = none ∧
      files' = Function.update (Function.update files part none) target (some (.file content)) ∧
      ∀ k, 1 ≤ k → k < n → files (numbered wanted (UInt32.ofNat k)) ≠ none := by
  rw [keep, show (1 : UInt32) = UInt32.ofNat 1 from rfl, keepFrom_eq hpart, Option.map_eq_some_iff] at h
  obtain ⟨n, hn, hending⟩ := h
  obtain ⟨hle, -, -, hbefore⟩ := Numbered.firstFree_eq_some_iff.1 hn
  rw [ending] at hending
  split at hending
  · rename_i moved hmove
    obtain ⟨hfree, hmoved⟩ := Files.rename_noreplace_ok hpart hmove
    cases hending
    refine ⟨n, hle, rfl, hfree, hmoved, fun k hk hlt hnone ↦ ?_⟩
    have hoccupied := hbefore k hk hlt
    rw [hnone] at hoccupied
    cases hoccupied
  · cases hending

theorem keep_error {failure : Failure} (hpart : files part = some (.file content))
    (h : keep outside part wanted fuel files = some (.error failure, files')) : files' = files := by
  rw [keep, show (1 : UInt32) = UInt32.ofNat 1 from rfl, keepFrom_eq hpart, Option.map_eq_some_iff] at h
  obtain ⟨n, -, hending⟩ := h
  rw [ending] at hending
  split at hending <;> cases hending
  rfl

/-- With a free number the search ends. -/
theorem keep_isSome (hpart : files part = some (.file content)) {attempt : UInt32}
    (hfree : files (numbered wanted attempt) = none) (hfuel : UInt32.size ≤ fuel) :
    (keep outside part wanted fuel files).isSome := by
  obtain ⟨n, hle, hlt, hn⟩ : ∃ n, 1 ≤ n ∧ n < 1 + fuel ∧ UInt32.ofNat n = attempt := by
    have hsize := attempt.toNat_lt_size
    by_cases hzero : attempt.toNat = 0
    · refine ⟨UInt32.size, by decide, by omega, ?_⟩
      rw [← UInt32.toNat_inj, hzero]
      rfl
    · exact ⟨attempt.toNat, by omega, by omega, UInt32.ofNat_toNat⟩
  rw [keep, show (1 : UInt32) = UInt32.ofNat 1 from rfl, keepFrom_eq hpart, Option.isSome_map]
  exact Numbered.firstFree_isSome_of_free hle hlt (by rw [hn, hfree]; rfl)

/-! ## A whole file -/

/-- Only the partial file changes. -/
theorem write_apart (hpath : path ≠ part) : (write outside file part frames files).2 path = files path := by
  rw [write]
  split_ifs
  · rfl
  · split <;> exact Function.update_of_ne hpath _ _

theorem write_ok (h : write outside file part frames files = (.ok (), files')) :
    ∃ content, checked outside file frames = .ok content ∧
      files' = Function.update files part (some (.file content)) := by
  rw [write] at h
  split_ifs at h
  · cases h
  · split at h
    · rename_i content hcontent
      exact ⟨content, hcontent, (Prod.mk.inj h).2.symm⟩
    · cases h

theorem remove_file_apart (hpath : path ≠ part) : remove_file outside part files path = files path := by
  rw [remove_file]
  rcases files part with _ | content | _
  · rfl
  · dsimp only
    split_ifs
    · rfl
    · exact Function.update_of_ne hpath _ _
  · rfl

/-- The file is where it is to go: in the folder, under a name that nothing had, the first such one. -/
def Placed (folder : PathBuf) (name : List Char) (files : Files Bytes) (target : PathBuf) : Prop :=
  ∃ folders asked kept n,
    (folders ++ [asked] = normalParts name ∨ (normalParts name = [] ∧ folders = [] ∧ asked = "file".toList)) ∧
    target = folder ++ folders ++ [kept] ∧ (∀ part ∈ folders ++ [kept], Normal part) ∧
    1 ≤ n ∧ Differs asked (UInt32.ofNat n) kept ∧ files target = none ∧
    ∀ k, 1 ≤ k → k < n → files (numbered (folder ++ folders ++ [asked]) (UInt32.ofNat k)) ≠ none

theorem exists_relative (name : List Char) : ∃ folders asked, relative name = folders ++ [asked] ∧
    (folders ++ [asked] = normalParts name ∨ (normalParts name = [] ∧ folders = [] ∧ asked = "file".toList)) := by
  obtain ⟨folders, asked, hrelative⟩ : ∃ folders asked, relative name = folders ++ [asked] :=
    ⟨_, _, (List.dropLast_append_getLast (relative_ne_nil name)).symm⟩
  refine ⟨folders, asked, hrelative, ?_⟩
  rw [relative_eq] at hrelative
  split at hrelative
  · rename_i hnone
    obtain ⟨rfl, hasked⟩ := List.append_inj' (hrelative.symm.trans (List.nil_append _).symm) rfl
    exact .inr ⟨hnone, rfl, List.singleton_inj.1 hasked⟩
  · exact .inl hrelative.symm

section

variable {folder : PathBuf} {id : RandomId} {result : Except Failure PathBuf}

theorem saved_kept (hpart : files part = none)
    (h : saved outside file part wanted frames fuel files = some (result, files')) : Files.Kept files files' := by
  rw [saved] at h
  have hapart : ∀ path, path ≠ part → (write outside file part frames files).2 path = files path := fun path hpath ↦
    write_apart hpath
  cases hwrite : write outside file part frames files with
  | mk written files₁ =>
    rw [hwrite] at h hapart
    cases written with
    | error failure =>
      cases h
      exact .of_apart hpart fun path hpath ↦ (remove_file_apart hpath).trans (hapart path hpath)
    | ok =>
      obtain ⟨content, -, hwritten⟩ := write_ok hwrite
      have hthere : files₁ part = some (.file content) := by rw [hwritten, Function.update_self]
      obtain ⟨⟨outcome, files₂⟩, hkeep, hresult⟩ := Option.map_eq_some_iff.1 h
      cases outcome with
      | error failure =>
        cases hresult
        rw [keep_error hthere hkeep]
        exact .of_apart hpart fun path hpath ↦ (remove_file_apart hpath).trans (hapart path hpath)
      | ok target =>
        cases hresult
        obtain ⟨n, -, -, hfree, hmoved, -⟩ := keep_ok hthere hkeep
        have hne : target ≠ part := by
          rintro rfl
          rw [hthere] at hfree
          cases hfree
        rw [hmoved]
        refine .trans (.of_apart hpart fun path hpath ↦ ?_) (.update (Function.update_of_ne hne _ _ |>.trans hfree) _)
        rw [Function.update_of_ne hpath]
        exact hapart path hpath

theorem saved_ok (h : saved outside file part wanted frames fuel files = some (.ok target, files'))
    (hpart : files part = none) :
    ∃ content n, checked outside file frames = .ok content ∧ files' target = some (.file content) ∧ 1 ≤ n ∧
      target = numbered wanted (UInt32.ofNat n) ∧ files target = none ∧
      ∀ k, 1 ≤ k → k < n → numbered wanted (UInt32.ofNat k) ≠ part →
        files (numbered wanted (UInt32.ofNat k)) ≠ none := by
  rw [saved] at h
  cases hwrite : write outside file part frames files with
  | mk written files₁ =>
    rw [hwrite] at h
    cases written with
    | error failure => cases h
    | ok =>
      obtain ⟨content, hcontent, rfl⟩ := write_ok hwrite
      have hthere := Function.update_self part (some (FileEntry.file content)) files
      obtain ⟨⟨outcome, files₂⟩, hkeep, hresult⟩ := Option.map_eq_some_iff.1 h
      cases outcome with
      | error failure => cases hresult
      | ok target =>
        cases hresult
        obtain ⟨n, hn, htarget, hfree, hmoved, hbefore⟩ := keep_ok hthere hkeep
        have hne : target ≠ part := by
          rintro rfl
          rw [hthere] at hfree
          cases hfree
        refine ⟨content, n, hcontent, by rw [hmoved, Function.update_self], hn, htarget, ?_, fun k hk hlt hpart ↦ ?_⟩
        · rwa [Function.update_of_ne hne] at hfree
        · have := hbefore k hk hlt
          rwa [Function.update_of_ne hpart] at this

theorem saved_isSome {attempt : UInt32} (hfree : files (numbered wanted attempt) = none)
    (hne : numbered wanted attempt ≠ part) (hfuel : UInt32.size ≤ fuel) :
    (saved outside file part wanted frames fuel files).isSome := by
  rw [saved]
  cases hwrite : write outside file part frames files with
  | mk written files₁ =>
    cases written with
    | error failure => rfl
    | ok =>
      obtain ⟨content, -, rfl⟩ := write_ok hwrite
      have hthere := Function.update_self part (some (FileEntry.file content)) files
      dsimp only
      rw [Option.isSome_map]
      exact keep_isSome hthere (by rwa [Function.update_of_ne hne]) hfuel

/-- A picture that is in the folder already. -/
def pictures : Files Bytes := fun path ↦
  if path = [['~']] then some .folder else if path = [['~'], "cat.jpg".toList] then some (.file [1]) else none

def willing : Outside where
  refusesFolder _ := false
  refusesFile := false
  refusesBytes _ := false
  refusesSync := false
  refusesName _ := false
  refusesRemoval := false
  left := []
  sha256 content := content

def otherCat : FileDto := ⟨"../cat.jpg".toList, 1, none⟩

def zeros : RandomId := ⟨List.replicate 16 0, rfl⟩

theorem fresh_zeros : pictures (partialFile ([['~']] ++ relative otherCat.file_name) zeros) = none := by
  decide +kernel

theorem save_cat : (save willing otherCat [['~']] [.data [2]] zeros 2 pictures).map Prod.fst =
    some (.ok [['~'], "cat (2).jpg".toList]) := by
  decide +kernel

end

end Pigeon
