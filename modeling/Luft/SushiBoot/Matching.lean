import Luft.Lib.BytePositions
import Luft.Lib.Glob
import Luft.Lib.Text
import Luft.SushiBoot.Images

/-!
# Finding an entry by a pattern

The configuration names the entry to start by a pattern, in which a star stands for any text.  `matchesPattern`
goes by byte positions; `none` is the panic of a slice in the middle of a character.
-/

set_option autoImplicit false

namespace SushiBoot

open BytePositions

def eq_ignore_ascii_case (a b : List Char) : Bool := a.map Char.toLower = b.map Char.toLower

/-- `&text[..n]`. -/
def sliceTo (text : List Char) (n : ℕ) : Option (List Char) := (split_at text n).map (·.1)

/-- `&text[n..]`. -/
def sliceFrom (text : List Char) (n : ℕ) : Option (List Char) := (split_at text n).map (·.2)

/-- Where the rest of the text may start: at the byte positions from `start` on that are between characters. -/
def starts (text : List Char) (start : ℕ) : List ℕ :=
  (List.range' start (len text + 1 - start)).filter (is_char_boundary text)

theorem length_of_split_once {c : Char} {pattern piece rest : List Char}
    (h : Text.split_once [c] pattern = some (piece, rest)) : rest.length < pattern.length := by
  rcases Text.split_once_cases c pattern with ⟨-, hnone⟩ | ⟨before, after, rfl, -, hsome⟩
  · rw [hnone] at h
    cases h
  · rw [hsome] at h
    cases h
    rw [List.length_append, List.length_cons]
    omega

def matchesPattern (pattern text : List Char) : Option Bool :=
  match _h : Text.split_once ['*'] pattern with
  | none => some (eq_ignore_ascii_case pattern text)
  | some (piece, rest) =>
    if len piece ≤ len text ∧ is_char_boundary text (len piece) then do
      let head ← sliceTo text (len piece)
      if eq_ignore_ascii_case head piece then
        (starts text (len piece)).anyM fun start ↦ do matchesPattern rest (← sliceFrom text start)
      else pure false
    else some false
termination_by pattern.length
decreasing_by exact length_of_split_once ‹_›

def without_suffix (id : List Char) : List Char :=
  let (name, profile) :=
    match Text.split_once ['@'] id with
    | some (name, profile) => (name, some profile)
    | none => (id, none)
  let name := ((Text.without_suffix ".efi".toList name).or (Text.without_suffix ".conf".toList name)).getD name
  match profile with
  | some profile => name ++ '@' :: profile
  | none => name

/-- Whether the pattern matches an id, as it is or without the suffix of its file. -/
def fits (pattern id : List Char) : Option Bool := do
  if ← matchesPattern pattern id then pure true else matchesPattern pattern (without_suffix id)

/-- The first entry from `index` on that the pattern fits. -/
def findFrom (pattern : List Char) : ℕ → List BootEntry → Option (Option ℕ)
  | _, [] => some none
  | index, entry :: rest => do
    if ← fits pattern entry.id.toList then pure (some index) else findFrom pattern (index + 1) rest

def Catalog.find (catalog : Catalog) (pattern : List Char) : Option (Option ℕ) :=
  findFrom (Text.trim pattern) 0 catalog.entries

/-! ## What a pattern spells -/

/-- The same but for the case of ASCII letters. -/
def Same (a b : List Char) : Prop := eq_ignore_ascii_case a b = true

/-- The text is the pattern's pieces, with something in place of each star. -/
def Spells (pattern text : List Char) : Prop := Glob.Spelled Same (pattern.splitOn '*') text

/-- The pattern spells the id of an entry, as it is or without the suffix of its file. -/
def Spelled (pattern : List Char) (entry : BootEntry) : Prop :=
  Spells pattern entry.id.toList ∨ Spells pattern (without_suffix entry.id.toList)

variable {piece rest text pattern head tail gap : List Char}

theorem utf8Size_ascii {c : Char} (h : c.val ≤ 0x7F) : c.utf8Size = 1 := if_pos h

theorem utf8Size_toLower (c : Char) : c.toLower.utf8Size = c.utf8Size := by
  delta Char.toLower
  split
  · next h =>
    have hle : c.val ≤ 'Z'.val := h.2
    have hlow : c.val ≤ 0x7F := UInt32.le_trans hle (by decide)
    have hupper : c.val + ('a'.val - 'A'.val) ≤ 0x7F := by
      rw [UInt32.le_iff_toNat_le] at hle ⊢
      rw [UInt32.toNat_add]
      have hz : ('Z'.val).toNat = 90 := rfl
      have ha : ('a'.val - 'A'.val).toNat = 32 := rfl
      have hm : (0x7F : UInt32).toNat = 127 := rfl
      omega
    rw [utf8Size_ascii hlow]
    exact utf8Size_ascii hupper
  · rfl
theorem Same.len_eq {a b : List Char} (h : Same a b) : len a = len b := by
  have hmap : a.map Char.toLower = b.map Char.toLower := of_decide_eq_true h
  have hlen : ∀ text : List Char, len (text.map Char.toLower) = len text := fun text ↦ by
    induction text with
    | nil => rfl
    | cons c text ih => rw [List.map_cons, len_cons, len_cons, utf8Size_toLower, ih]
  rw [← hlen a, hmap, hlen]

theorem Same.symm {a b : List Char} (h : Same a b) : Same b a := decide_eq_true (of_decide_eq_true h).symm

theorem sliceTo_append (head tail : List Char) : sliceTo (head ++ tail) (len head) = some head := by
  rw [sliceTo, split_at_eq_some_iff.2 ⟨rfl, rfl⟩, Option.map_some]

theorem sliceFrom_append (head tail : List Char) : sliceFrom (head ++ tail) (len head) = some tail := by
  rw [sliceFrom, split_at_eq_some_iff.2 ⟨rfl, rfl⟩, Option.map_some]

theorem mem_starts {start n : ℕ} :
    n ∈ starts text start ↔ start ≤ n ∧ ∃ before after, text = before ++ after ∧ len before = n := by
  rw [starts, List.mem_filter, List.mem_range'_1, is_char_boundary_iff]
  constructor
  · rintro ⟨⟨hle, -⟩, h⟩
    exact ⟨hle, h⟩
  · rintro ⟨hle, before, after, rfl, rfl⟩
    rw [len_append]
    exact ⟨⟨hle, by omega⟩, before, after, rfl, rfl⟩

theorem anyM_eq {α : Type} {f : α → Option Bool} {g : α → Bool} {l : List α} (h : ∀ a ∈ l, f a = some (g a)) :
    l.anyM f = some (l.any g) := by
  induction l with
  | nil => rfl
  | cons a l ih =>
    rw [List.anyM, h a List.mem_cons_self, List.any_cons]
    cases g a with
    | true => rfl
    | false => exact ih fun b hb ↦ h b (List.mem_cons_of_mem a hb)

theorem splitOn_of_split_once (h : Text.split_once ['*'] pattern = some (piece, rest)) :
    pattern.splitOn '*' = piece :: rest.splitOn '*' := by
  rcases Text.split_once_cases '*' pattern with ⟨-, hnone⟩ | ⟨before, after, rfl, hbefore, hsome⟩
  · rw [hnone] at h
    cases h
  · rw [hsome] at h
    cases h
    exact List.splitOn_append_cons_self_of_not_mem hbefore _

theorem splitOn_of_split_once_none (h : Text.split_once ['*'] pattern = none) : pattern.splitOn '*' = [pattern] := by
  rcases Text.split_once_cases '*' pattern with ⟨hmem, -⟩ | ⟨before, after, -, -, hsome⟩
  · exact List.splitOn_eq_singleton hmem
  · rw [hsome] at h
    cases h

theorem spells_of_none (h : Text.split_once ['*'] pattern = none) : Spells pattern text ↔ Same pattern text := by
  rw [Spells, splitOn_of_split_once_none h, Glob.spelled_singleton]

theorem spells_of_some (h : Text.split_once ['*'] pattern = some (piece, rest)) :
    Spells pattern text ↔ ∃ head tail, text = head ++ tail ∧ Same piece head ∧
      ∃ start ∈ starts text (len piece), ∃ last, sliceFrom text start = some last ∧ Spells rest last := by
  rw [Spells, splitOn_of_split_once h, Glob.spelled_cons (List.splitOn_ne_nil _ _)]
  constructor
  · rintro ⟨head, gap, last, rfl, hsame, hlast⟩
    refine ⟨head, gap ++ last, rfl, hsame, len (head ++ gap), mem_starts.2 ⟨?_, head ++ gap, last, ?_, rfl⟩, last, ?_, hlast⟩
    · rw [hsame.len_eq, len_append]
      omega
    · rw [List.append_assoc]
    · rw [← List.append_assoc, sliceFrom_append]
  · rintro ⟨head, tail, rfl, hsame, start, hstart, last, hslice, hlast⟩
    obtain ⟨hle, before, after, htext, rfl⟩ := mem_starts.1 hstart
    rw [htext, sliceFrom_append, Option.some.injEq] at hslice
    obtain ⟨gap, rfl⟩ := exists_gap htext (hsame.len_eq ▸ hle)
    rw [List.append_assoc] at htext
    refine ⟨head, gap, last, ?_, hsame, hlast⟩
    rw [htext, hslice]

theorem matches_none (h : Text.split_once ['*'] pattern = none) :
    matchesPattern pattern text = some (eq_ignore_ascii_case pattern text) := by
  rw [matchesPattern]
  split
  · rfl
  · next hsome =>
    rw [h] at hsome
    cases hsome

theorem matches_some (h : Text.split_once ['*'] pattern = some (piece, rest)) :
    matchesPattern pattern text =
      if len piece ≤ len text ∧ is_char_boundary text (len piece) then do
        let head ← sliceTo text (len piece)
        if eq_ignore_ascii_case head piece then
          (starts text (len piece)).anyM fun start ↦ do matchesPattern rest (← sliceFrom text start)
        else pure false
      else some false := by
  rw [matchesPattern]
  split
  · next hnone =>
    rw [h] at hnone
    cases hnone
  · next hsome =>
    rw [h] at hsome
    cases hsome
    rfl

/-- **A pattern matches what it spells**, and never slices a text in the middle of a character. -/
theorem matches_spells (pattern text : List Char) :
    ∃ answer, matchesPattern pattern text = some answer ∧ (answer = true ↔ Spells pattern text) := by
  induction hn : pattern.length using Nat.strongRecOn generalizing pattern text with
  | ind n ih =>
    cases h : Text.split_once ['*'] pattern with
    | none => exact ⟨_, matches_none h, (spells_of_none h).symm⟩
    | some halves =>
      obtain ⟨piece, rest⟩ := halves
      choose answer hanswer hspells using fun text ↦ ih rest.length (hn ▸ length_of_split_once h) rest text rfl
      rw [matches_some h, spells_of_some h]
      split
      · next hfits =>
        obtain ⟨head, tail, rfl, hlen⟩ := is_char_boundary_iff.1 hfits.2
        rw [← hlen, sliceTo_append, Option.bind_eq_bind, Option.bind_some]
        split
        · next hsame =>
          have hslices : ∀ start ∈ starts (head ++ tail) (len head), ∃ last, sliceFrom (head ++ tail) start = some last := by
            intro start hstart
            obtain ⟨-, before, after, htext, rfl⟩ := mem_starts.1 hstart
            exact ⟨after, by rw [htext, sliceFrom_append]⟩
          have hany : ∀ start ∈ starts (head ++ tail) (len head),
              (do matchesPattern rest (← sliceFrom (head ++ tail) start)) =
                some (((sliceFrom (head ++ tail) start).map answer).getD false) := by
            intro start hstart
            obtain ⟨last, hlast⟩ := hslices start hstart
            rw [hlast, Option.bind_eq_bind, Option.bind_some, hanswer]
            rfl
          refine ⟨_, anyM_eq hany, ?_⟩
          rw [List.any_eq_true]
          constructor
          · rintro ⟨start, hstart, htrue⟩
            obtain ⟨last, hlast⟩ := hslices start hstart
            rw [hlast] at htrue
            exact ⟨head, tail, rfl, Same.symm hsame, start, hstart, last, hlast, (hspells last).1 htrue⟩
          · rintro ⟨-, -, -, -, start, hstart, last, hlast, hrest⟩
            refine ⟨start, hstart, ?_⟩
            rw [hlast]
            exact (hspells last).2 hrest
        · next hdiffers =>
          refine ⟨false, rfl, ?_⟩
          constructor
          · rintro ⟨⟩
          · rintro ⟨head', tail', htext, hsame, -⟩
            obtain ⟨rfl, -⟩ := append_inj htext (hlen.trans hsame.len_eq)
            exact (hdiffers hsame.symm).elim
      · next hfits =>
        refine ⟨false, rfl, ?_⟩
        constructor
        · rintro ⟨⟩
        · rintro ⟨head, tail, rfl, hsame, -⟩
          refine absurd ⟨?_, is_char_boundary_iff.2 ⟨head, tail, rfl, hsame.len_eq.symm⟩⟩ hfits
          rw [hsame.len_eq, len_append]
          omega

/-! ## The first entry -/

theorem fits_spells (pattern id : List Char) : ∃ answer, fits pattern id = some answer ∧
    (answer = true ↔ Spells pattern id ∨ Spells pattern (without_suffix id)) := by
  obtain ⟨whole, hwhole, hwhole_iff⟩ := matches_spells pattern id
  obtain ⟨short, hshort, hshort_iff⟩ := matches_spells pattern (without_suffix id)
  refine ⟨whole || short, ?_, by rw [Bool.or_eq_true, hwhole_iff, hshort_iff]⟩
  rw [fits, hwhole, Option.bind_eq_bind, Option.bind_some]
  cases whole with
  | true => rfl
  | false => exact hshort

theorem findFrom_eq {answer : List Char → Bool} (h : ∀ id, fits pattern id = some (answer id)) (index : ℕ)
    (entries : List BootEntry) : findFrom pattern index entries =
      some ((entries.findIdx? fun entry ↦ answer entry.id.toList).map (· + index)) := by
  induction entries generalizing index with
  | nil => rfl
  | cons entry entries ih =>
    rw [findFrom, h, Option.bind_eq_bind, Option.bind_some, List.findIdx?_cons]
    cases answer entry.id.toList with
    | true =>
      rw [if_pos rfl, if_pos rfl, Option.map_some, Nat.zero_add]
      rfl
    | false =>
      rw [if_neg Bool.false_ne_true, if_neg Bool.false_ne_true, ih, Option.map_map]
      congr 2
      funext i
      rw [Function.comp_apply, Nat.add_assoc, Nat.add_comm index 1]

/-- **The entry that is found** is the first one whose id the pattern spells, or whose id without its suffix. -/
theorem find_first (catalog : Catalog) (pattern : List Char) : ∃ found, catalog.find pattern = some found ∧
    ∀ index, found = some index ↔ ∃ h : index < catalog.entries.length,
      Spelled (Text.trim pattern) catalog.entries[index] ∧
        ∀ (earlier : ℕ) (hlt : earlier < index), ¬ Spelled (Text.trim pattern) catalog.entries[earlier] := by
  choose answer hanswer hspells using fits_spells (Text.trim pattern)
  refine ⟨_, findFrom_eq hanswer 0 _, fun index ↦ ?_⟩
  have hzero : (fun index ↦ index + 0 : ℕ → ℕ) = id := rfl
  rw [hzero, Option.map_id_apply, List.findIdx?_eq_some_iff_getElem]
  simp only [hspells, Spelled]

end SushiBoot
