import Mathlib.Data.List.Basic
import Mathlib.Algebra.BigOperators.Group.List.Basic

/-!
# Recovery keys as they are typed

A recovery key is 64 letters in groups of eight.  A person may type it in capitals, and with dashes and spaces
anywhere.  `normalize` (the trust daemon's) and `tidy` (the boot screen's) both write it as it was made, and leave
alone what is no recovery key: they are the same function (`tidy_eq_normalize`).

`is_recovery_key` looks at what `normalize` gives.  It also takes a text that was left alone, if that has as many
bytes as a key, and only dashes and letters of keys (`reads_iff`).
-/

set_option autoImplicit false

namespace Trust.RecoveryKey

abbrev Bytes := List UInt8

def MODHEX : Bytes := [0x63, 0x62, 0x64, 0x65, 0x66, 0x67, 0x68, 0x69, 0x6a, 0x6b, 0x6c, 0x6e, 0x72, 0x74, 0x75, 0x76]

def dash : UInt8 := 0x2d

def space : UInt8 := 0x20

def to_ascii_lowercase (byte : UInt8) : UInt8 := if 0x41 ≤ byte ∧ byte ≤ 0x5a then byte + 0x20 else byte

def is_filling (byte : UInt8) : Bool := byte = dash || byte = space

/-- What is typed, without dashes and spaces and in small letters. -/
def letters (typed : Bytes) : Bytes := (typed.filter fun byte ↦ !is_filling byte).map to_ascii_lowercase

/-- The letters of a byte. -/
def halves (byte : UInt8) : Bytes :=
  [ MODHEX.getD (byte >>> 4).toNat 0, MODHEX.getD (byte &&& 0xf).toNat 0]

/-- A byte of the key as it is made, with the dash before it. -/
def madeOf (byte : UInt8 × ℕ) : Bytes := (if byte.2 > 0 ∧ byte.2 % 4 = 0 then [dash] else []) ++ halves byte.1

/-- The key for 32 random bytes. -/
def generate_recovery_key (bytes : Bytes) : Bytes := bytes.zipIdx.flatMap madeOf

/-- A letter with the dash before it. -/
def grouped (letter : UInt8 × ℕ) : Bytes := if letter.2 > 0 ∧ letter.2 % 8 = 0 then [dash, letter.1] else [letter.1]

def normalize (typed : Bytes) : Bytes :=
  if (letters typed).length ≠ 64 ∨ ¬ (letters typed).all MODHEX.contains then typed
  else (letters typed).zipIdx.flatMap grouped

def is_recovery_key (key : Bytes) : Bool :=
  (normalize key).length = 71 && (normalize key).all fun byte ↦ byte = dash || MODHEX.contains byte

/-- How many letters were typed, if nothing else was. -/
def recovery_key_letters (typed : Bytes) : Option ℕ :=
  typed.foldlM (fun letters byte ↦
    if is_filling byte then some letters
    else if MODHEX.contains (to_ascii_lowercase byte) then some (letters + 1) else none) 0

/-- A letter is put behind the others, with a dash before it where a group ends. -/
def put (tidy : Bytes) (byte : UInt8) : Bytes :=
  (if tidy ≠ [] ∧ (tidy.length + 1) % 9 = 0 then tidy ++ [dash] else tidy) ++ [to_ascii_lowercase byte]

def tidy_recovery_key (typed : Bytes) : Bytes :=
  if recovery_key_letters typed ≠ some 64 then typed
  else (typed.filter fun byte ↦ !is_filling byte).foldl put []

/-- What is typed is 64 letters of keys, with dashes and spaces. -/
def Key (typed : Bytes) : Prop := (letters typed).length = 64 ∧ ∀ letter ∈ letters typed, letter ∈ MODHEX

/-! ## Letters -/

variable {typed ls : Bytes}

theorem not_filling {letter : UInt8} (h : letter ∈ MODHEX) :
    is_filling letter = false ∧ to_ascii_lowercase letter = letter ∧ letter ≠ dash := by
  have hall : MODHEX.all fun byte ↦ !is_filling byte && to_ascii_lowercase byte == byte && byte != dash := by decide
  simpa [and_assoc] using List.all_eq_true.1 hall letter h

theorem letters_of_mem (h : ∀ letter ∈ ls, letter ∈ MODHEX) : letters ls = ls := by
  have hfilter : (ls.filter fun byte ↦ !is_filling byte) = ls :=
    List.filter_eq_self.2 fun letter hletter ↦ by rw [(not_filling (h letter hletter)).1]; rfl
  rw [letters, hfilter]
  exact (List.map_congr_left fun letter hletter ↦ (not_filling (h letter hletter)).2.1).trans (List.map_id ls)

theorem normalize_of_key (h : Key typed) : normalize typed = (letters typed).zipIdx.flatMap grouped := by
  have hall : (letters typed).all MODHEX.contains := by simpa using h.2
  rw [normalize, if_neg (by simp [h.1, hall])]

theorem normalize_of_not_key (h : ¬ Key typed) : normalize typed = typed := by
  rw [normalize, if_pos]
  by_contra hnot
  rw [not_or, not_not, not_not] at hnot
  exact h ⟨hnot.1, by simpa using hnot.2⟩

/-! ## Groups -/

theorem letters_cons (byte : UInt8) (typed : Bytes) : letters (byte :: typed) =
    if is_filling byte then letters typed else to_ascii_lowercase byte :: letters typed := by
  by_cases h : is_filling byte
  · simp [letters, h]
  · simp [letters, h]

theorem letters_append (a b : Bytes) : letters (a ++ b) = letters a ++ letters b := by simp [letters]

/-- Groups are taken apart again. -/
theorem letters_grouped (h : ∀ letter ∈ ls, letter ∈ MODHEX) (start : ℕ) :
    letters ((ls.zipIdx start).flatMap grouped) = ls := by
  induction ls generalizing start with
  | nil => rfl
  | cons letter ls ih =>
    rw [List.forall_mem_cons] at h
    obtain ⟨hfilling, hlower, -⟩ := not_filling h.1
    have hgroup : letters (grouped (letter, start)) = [letter] := by
      have hdash : is_filling dash := by decide
      rw [grouped]
      split_ifs
      · simp [letters, hdash, hfilling, hlower]
      · simp [letters, hfilling, hlower]
    rw [List.zipIdx_cons, List.flatMap_cons, letters_append, hgroup, ih h.2, List.singleton_append]

theorem mem_grouped {byte : UInt8} {start : ℕ} (h : byte ∈ (ls.zipIdx start).flatMap grouped) : byte = dash ∨ byte ∈ ls := by
  obtain ⟨⟨letter, index⟩, hletter, hbyte⟩ := List.mem_flatMap.1 h
  have hmem : letter ∈ ls := List.fst_mem_of_mem_zipIdx hletter
  rw [grouped] at hbyte
  split_ifs at hbyte
  · rcases List.mem_pair.1 hbyte with rfl | rfl
    · exact .inl rfl
    · exact .inr hmem
  · exact .inr (List.mem_singleton.1 hbyte ▸ hmem)

/-- The dashes that stand between letters. -/
theorem length_grouped (ls : Bytes) (start : ℕ) : start + (start - 1) / 8 + ((ls.zipIdx start).flatMap grouped).length =
    start + ls.length + (start + ls.length - 1) / 8 := by
  induction ls generalizing start with
  | nil => simp
  | cons letter ls ih =>
    rw [List.zipIdx_cons, List.flatMap_cons, List.length_append, List.length_cons]
    have hrest := ih (start + 1)
    rw [Nat.add_right_comm start 1 ls.length, Nat.add_assoc start ls.length 1] at hrest
    rw [grouped]
    dsimp only
    split_ifs with h
    · have hcarry : (start - 1) / 8 + 1 = start / 8 := by omega
      rw [List.length_cons, List.length_singleton]
      omega
    · have hsame : (start - 1) / 8 = start / 8 := by omega
      rw [List.length_singleton]
      omega

/-- The boot screen's groups. -/
theorem foldl_put {start : ℕ} {out : Bytes} (hout : out.length = start + (start - 1) / 8) (bytes : Bytes) :
    bytes.foldl put out = out ++ ((bytes.map to_ascii_lowercase).zipIdx start).flatMap grouped := by
  induction bytes generalizing start out with
  | nil => simp
  | cons byte bytes ih =>
    have hends : out ≠ [] ∧ (out.length + 1) % 9 = 0 ↔ start > 0 ∧ start % 8 = 0 := by
      rw [← List.length_pos_iff]
      omega
    have hput : put out byte = out ++ grouped (to_ascii_lowercase byte, start) := by
      rw [put, grouped]
      simp only [hends]
      split_ifs
      · simp
      · rfl
    have hlength : (put out byte).length = start + 1 + (start + 1 - 1) / 8 := by
      have hone := length_grouped [to_ascii_lowercase byte] start
      simp only [List.zipIdx_singleton, List.flatMap_singleton, List.length_singleton] at hone
      rw [hput, List.length_append]
      omega
    rw [List.foldl_cons, ih hlength, hput, List.map_cons, List.zipIdx_cons, List.flatMap_cons, List.append_assoc]

/-- The groups of a key that is made. -/
theorem made_eq_grouped (start : ℕ) (bytes : Bytes) : (bytes.zipIdx start).flatMap madeOf =
    ((bytes.flatMap halves).zipIdx (2 * start)).flatMap grouped := by
  induction bytes generalizing start with
  | nil => rfl
  | cons byte bytes ih =>
    have hmade : madeOf (byte, start) = ((halves byte).zipIdx (2 * start)).flatMap grouped := by
      have heven : (2 * start > 0 ∧ 2 * start % 8 = 0) ↔ start > 0 ∧ start % 4 = 0 := by omega
      have hodd : ¬ ((2 * start + 1) % 8 = 0) := by omega
      rw [madeOf, halves]
      simp only [List.zipIdx_cons, List.zipIdx_nil, List.flatMap_cons, List.flatMap_nil, grouped, heven, hodd, and_false, if_false]
      split_ifs
      · rfl
      · rfl
    have hlength : (halves byte).length = 2 := rfl
    rw [List.zipIdx_cons, List.flatMap_cons, List.flatMap_cons, List.zipIdx_append, List.flatMap_append, hmade, ih, hlength]
    rfl

/-! ## Both programs -/

theorem letters_counted (typed : Bytes) (count : ℕ) : typed.foldlM (fun letters byte ↦
      if is_filling byte then some letters
      else if MODHEX.contains (to_ascii_lowercase byte) then some (letters + 1) else none) count =
    if (letters typed).all MODHEX.contains then some (count + (letters typed).length) else none := by
  induction typed generalizing count with
  | nil => rfl
  | cons byte typed ih =>
    rw [List.foldlM_cons]
    rw [letters_cons]
    by_cases hfilling : is_filling byte
    · rw [if_pos hfilling, if_pos hfilling]
      exact ih count
    rw [if_neg hfilling, if_neg hfilling, List.all_cons, List.length_cons, Nat.add_comm (letters typed).length 1, ← Nat.add_assoc]
    by_cases hletter : MODHEX.contains (to_ascii_lowercase byte)
    · rw [if_pos hletter, hletter, Bool.true_and]
      exact ih (count + 1)
    · rw [if_neg hletter, Bool.eq_false_iff.2 hletter, Bool.false_and]
      rfl

theorem recovery_key_letters_iff : recovery_key_letters typed = some 64 ↔ Key typed := by
  rw [recovery_key_letters, letters_counted, Key]
  by_cases hall : (letters typed).all MODHEX.contains
  · have hmem : ∀ letter ∈ letters typed, letter ∈ MODHEX := by simpa using hall
    rw [if_pos hall, and_iff_left hmem, Option.some.injEq, Nat.zero_add]
  · have hmem : ¬ ∀ letter ∈ letters typed, letter ∈ MODHEX := by simpa using hall
    simp [hall, hmem]

/-- **The boot screen and the trust daemon** write a key in the same way. -/
theorem tidy_eq_normalize (typed : Bytes) : tidy_recovery_key typed = normalize typed := by
  rw [tidy_recovery_key]
  by_cases h : Key typed
  · have hlength : ([] : Bytes).length = 0 + (0 - 1) / 8 := rfl
    rw [if_neg (not_not.2 (recovery_key_letters_iff.2 h)), foldl_put hlength, List.nil_append]
    exact (normalize_of_key h).symm
  · rw [if_pos fun hletters ↦ h (recovery_key_letters_iff.1 hletters), normalize_of_not_key h]

theorem normalize_idempotent (typed : Bytes) : normalize (normalize typed) = normalize typed := by
  by_cases h : Key typed
  · have hletters : letters (normalize typed) = letters typed := by
      rw [normalize_of_key h, letters_grouped h.2]
    have hkey : Key (normalize typed) := by rwa [Key, hletters]
    rw [normalize_of_key hkey, hletters, normalize_of_key h]
  · rw [normalize_of_not_key h, normalize_of_not_key h]

theorem halves_letters (byte : UInt8) : ∀ letter ∈ halves byte, letter ∈ MODHEX := by
  have hget {n : ℕ} (hn : n < 16) : MODHEX.getD n 0 ∈ MODHEX := by
    rw [List.getD_eq_getElem?_getD, List.getElem?_eq_getElem hn]
    exact List.getElem_mem _
  intro letter hletter
  rcases List.mem_pair.1 hletter with rfl | rfl
  · have hlt := byte.toNat_lt
    exact hget (by simp [UInt8.toNat_shiftRight]; omega)
  · have hle : byte.toNat &&& 15 ≤ 15 := Nat.and_le_right
    exact hget (by simp [UInt8.toNat_and]; omega)

/-- **Any variant of a key** that was made is written as it was made. -/
theorem normalize_generated {bytes : Bytes} (hlength : bytes.length = 32)
    (hsame : letters typed = letters (generate_recovery_key bytes)) : normalize typed = generate_recovery_key bytes := by
  have hmade : generate_recovery_key bytes = (bytes.flatMap halves).zipIdx.flatMap grouped := made_eq_grouped 0 bytes
  have hall : ∀ letter ∈ bytes.flatMap halves, letter ∈ MODHEX := by
    intro letter hletter
    obtain ⟨byte, -, hletter⟩ := List.mem_flatMap.1 hletter
    exact halves_letters byte letter hletter
  have hcount : (bytes.flatMap halves).length = 64 := by
    rw [List.length_flatMap, show bytes.map (fun byte ↦ (halves byte).length) = bytes.map fun _ ↦ 2 from rfl]
    simp [hlength]
  rw [hmade, letters_grouped hall] at hsame
  rw [normalize_of_key ⟨by rw [hsame, hcount], by rwa [hsame]⟩, hsame, hmade]

/-- What has as many bytes as a key, all dashes and letters of keys, but not 64 letters. -/
def Mistaken (typed : Bytes) : Prop :=
  typed.length = 71 ∧ (∀ byte ∈ typed, byte = dash ∨ byte ∈ MODHEX) ∧ (typed.filter (· ≠ dash)).length ≠ 64

theorem letters_of_dashes (h : ∀ byte ∈ typed, byte = dash ∨ byte ∈ MODHEX) : letters typed = typed.filter (· ≠ dash) := by
  have hmem : ∀ letter ∈ typed.filter (· ≠ dash), letter ∈ MODHEX := by
    intro letter hletter
    rw [List.mem_filter, decide_eq_true_eq] at hletter
    exact (h letter hletter.1).resolve_left hletter.2
  rw [← letters_of_mem hmem, letters, letters, List.filter_filter]
  congr 1
  refine List.filter_congr fun byte hbyte ↦ ?_
  rcases h byte hbyte with rfl | hmem
  · rfl
  · simp [(not_filling hmem).1, (not_filling hmem).2.2]

theorem Mistaken.not_key (h : Mistaken typed) : ¬ Key typed := fun hkey ↦
  h.2.2 (letters_of_dashes h.2.1 ▸ hkey.1)

theorem is_recovery_key_iff : is_recovery_key typed ↔ Key typed ∨ Mistaken typed := by
  rw [is_recovery_key, Bool.and_eq_true, decide_eq_true_eq, List.all_eq_true]
  simp only [Bool.or_eq_true, decide_eq_true_eq, List.contains_iff_mem]
  by_cases h : Key typed
  · refine iff_of_true ⟨?_, fun byte hbyte ↦ ?_⟩ (.inl h)
    · have hlength := length_grouped (letters typed) 0
      rw [h.1] at hlength
      rw [normalize_of_key h]
      omega
    · rw [normalize_of_key h] at hbyte
      exact (mem_grouped hbyte).imp_right (h.2 byte)
  · rw [normalize_of_not_key h, or_iff_right h]
    refine ⟨fun ⟨hlength, hall⟩ ↦ ⟨hlength, hall, fun hcount ↦ h ?_⟩, fun hmistaken ↦ ⟨hmistaken.1, hmistaken.2.1⟩⟩
    rw [← letters_of_dashes hall] at hcount
    refine ⟨hcount, fun letter hletter ↦ ?_⟩
    rw [letters_of_dashes hall, List.mem_filter, decide_eq_true_eq] at hletter
    exact (hall letter hletter.1).resolve_left hletter.2

/-- What is typed is read in the same way everywhere. -/
structure Reads (typed : Bytes) : Prop where
  tidy : tidy_recovery_key typed = normalize typed
  again : normalize (normalize typed) = normalize typed ∧ tidy_recovery_key (tidy_recovery_key typed) = tidy_recovery_key typed
  variant : ∀ bytes : Bytes, bytes.length = 32 → letters typed = letters (generate_recovery_key bytes) →
    normalize typed = generate_recovery_key bytes ∧ tidy_recovery_key typed = generate_recovery_key bytes
  is_key : is_recovery_key typed ↔ Key typed

/-- **Recovery keys read the same everywhere**, but for what is taken for one by its length. -/
theorem reads_iff (typed : Bytes) : Reads typed ↔ ¬ Mistaken typed := by
  refine ⟨fun h hmistaken ↦ hmistaken.not_key (h.is_key.1 (is_recovery_key_iff.2 (.inr hmistaken))), fun h ↦ ?_⟩
  refine ⟨tidy_eq_normalize typed, ⟨normalize_idempotent typed, ?_⟩, fun bytes hlength hsame ↦ ?_, ?_⟩
  · rw [tidy_eq_normalize, tidy_eq_normalize, normalize_idempotent]
  · rw [tidy_eq_normalize]
    exact ⟨normalize_generated hlength hsame, normalize_generated hlength hsame⟩
  · rw [is_recovery_key_iff, or_iff_left h]

/-- Dashes, as many as a key has bytes. -/
theorem only_dashes : ¬ ∀ typed, Reads typed := by
  intro h
  have hkey := (h (List.replicate 71 dash)).is_key.1 (by decide +kernel)
  have hcount := hkey.1
  revert hcount
  decide +kernel

end Trust.RecoveryKey
