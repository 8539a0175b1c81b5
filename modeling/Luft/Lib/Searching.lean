import Mathlib.Data.List.Basic
import Mathlib.Data.List.Infix

/-!
# Searching one text in another

A `Searcher` finds a needle in a text: the first place where it stands (`find`), and from left to right the
places where it stands and that do not overlap (`find_iter`).  `naive` is one that tries every place.

Pieces can be searched all at once when they are laid out one behind the other with a separator after
each: a piece that the needle stands in has a place of its own among those found (`mem_find_iter`).
-/

set_option autoImplicit false

namespace Searching

variable {α : Type*}

/-- The needle stands at a place of the text. -/
def Occurs (needle hay : List α) (p : ℕ) : Prop := needle <+: hay.drop p

structure Searcher (α : Type*) where
  find : List α → List α → Option ℕ
  find_iter : List α → List α → List ℕ
  find_some : ∀ {hay needle p}, find hay needle = some p → Occurs needle hay p ∧ ∀ q < p, ¬ Occurs needle hay q
  find_none : ∀ {hay needle}, find hay needle = none → ∀ p, ¬ Occurs needle hay p
  occurs : ∀ {hay needle p}, needle ≠ [] → p ∈ find_iter hay needle → Occurs needle hay p
  apart : ∀ {hay needle}, needle ≠ [] → (find_iter hay needle).Pairwise fun p q ↦ p + needle.length ≤ q
  covers : ∀ {hay needle q}, needle ≠ [] → Occurs needle hay q →
    ∃ p ∈ find_iter hay needle, p ≤ q ∧ q < p + needle.length

variable {needle hay : List α} {p q : ℕ}

theorem Occurs.lt_length (h : Occurs needle hay p) (hneedle : needle ≠ []) : p < hay.length := by
  have hle := h.length_le
  have hpos := List.length_pos_iff.2 hneedle
  rw [List.length_drop] at hle
  omega

theorem Occurs.getElem? (h : Occurs needle hay p) {k : ℕ} (hk : k < needle.length) :
    hay[p + k]? = needle[k]? := by
  obtain ⟨rest, hrest⟩ := h
  rw [← List.getElem?_drop, ← hrest, List.getElem?_append_left hk]

theorem occurs_append_iff (before : List α) : Occurs needle (before ++ hay) (before.length + p) ↔ Occurs needle hay p := by
  rw [Occurs, Occurs, List.drop_length_add_append]

theorem occurs_append (h : Occurs needle hay p) (after : List α) (hle : p ≤ hay.length) :
    Occurs needle (hay ++ after) p := by
  rw [Occurs, List.drop_append_of_le_length hle]
  exact h.trans (List.prefix_append _ _)

/-! ## Trying every place -/

section

variable [DecidableEq α]

def findFrom (needle : List α) : ℕ → List α → Option ℕ
  | start, hay =>
    if needle.isPrefixOf hay then some start
    else
      match hay with
      | [] => none
      | _ :: rest => findFrom needle (start + 1) rest

/-- The places where the needle stands, after some that are skipped. -/
def findAll (needle : List α) : ℕ → ℕ → List α → List ℕ
  | _, _, [] => []
  | skip + 1, place, _ :: rest => findAll needle skip (place + 1) rest
  | 0, place, c :: rest =>
    if needle.isPrefixOf (c :: rest) then place :: findAll needle (needle.length - 1) (place + 1) rest
    else findAll needle 0 (place + 1) rest

theorem findAll_sound {skip place : ℕ} (h : p ∈ findAll needle skip place hay) :
    place + skip ≤ p ∧ Occurs needle hay (p - place) := by
  induction hay generalizing skip place with
  | nil => cases skip with
    | zero => exact absurd h List.not_mem_nil
    | succ skip => exact absurd h List.not_mem_nil
  | cons c rest ih =>
    have hstep {skip' : ℕ} (h : p ∈ findAll needle skip' (place + 1) rest) :
        place + 1 + skip' ≤ p ∧ Occurs needle (c :: rest) (p - place) := by
      obtain ⟨hle, hoccurs⟩ := ih h
      refine ⟨hle, ?_⟩
      rw [show p - place = p - (place + 1) + 1 by omega]
      exact hoccurs
    cases skip with
    | succ skip =>
      rw [findAll] at h
      exact ⟨by have := (hstep h).1; omega, (hstep h).2⟩
    | zero =>
      rw [findAll] at h
      split_ifs at h with hfront
      · rcases List.mem_cons.1 h with rfl | h
        · refine ⟨le_rfl, ?_⟩
          rw [Nat.sub_self]
          exact List.isPrefixOf_iff_prefix.1 hfront
        · exact ⟨by have := (hstep h).1; omega, (hstep h).2⟩
      · exact ⟨by have := (hstep h).1; omega, (hstep h).2⟩

theorem findAll_apart (hneedle : needle ≠ []) (skip place : ℕ) (hay : List α) :
    (findAll needle skip place hay).Pairwise fun p q ↦ p + needle.length ≤ q := by
  have hpos := List.length_pos_iff.2 hneedle
  induction hay generalizing skip place with
  | nil => cases skip with
    | zero => exact .nil
    | succ skip => exact .nil
  | cons c rest ih =>
    cases skip with
    | succ skip => exact ih skip (place + 1)
    | zero =>
      rw [findAll]
      split_ifs
      · refine List.pairwise_cons.2 ⟨fun q hq ↦ ?_, ih _ _⟩
        have hle := (findAll_sound hq).1
        omega
      · exact ih 0 (place + 1)

theorem findAll_covers (hneedle : needle ≠ []) (skip place : ℕ) (h : Occurs needle hay q) (hskip : skip ≤ q) :
    ∃ p ∈ findAll needle skip place hay, p ≤ place + q ∧ place + q < p + needle.length := by
  have hpos := List.length_pos_iff.2 hneedle
  induction hay generalizing skip place q with
  | nil => exact absurd (h.lt_length hneedle) (Nat.not_lt_zero _)
  | cons c rest ih =>
    cases skip with
    | succ skip =>
      obtain ⟨q, rfl⟩ : ∃ r, q = r + 1 := ⟨q - 1, by omega⟩
      obtain ⟨p, hp, hle, hlt⟩ := ih skip (place + 1) (show Occurs needle rest q from h) (Nat.le_of_succ_le_succ hskip)
      exact ⟨p, hp, by omega, by omega⟩
    | zero =>
      rw [findAll]
      split_ifs with hfront
      · by_cases hq : q < needle.length
        · exact ⟨place, List.mem_cons_self, by omega, by omega⟩
        · obtain ⟨q, rfl⟩ : ∃ r, q = r + 1 := ⟨q - 1, by omega⟩
          obtain ⟨p, hp, hle, hlt⟩ := ih (needle.length - 1) (place + 1)
            (show Occurs needle rest q from h) (by omega)
          exact ⟨p, List.mem_cons_of_mem _ hp, by omega, by omega⟩
      · obtain ⟨q, rfl⟩ : ∃ r, q = r + 1 := by
          refine ⟨q - 1, ?_⟩
          by_contra hq
          obtain rfl : q = 0 := by omega
          exact hfront (List.isPrefixOf_iff_prefix.2 h)
        obtain ⟨p, hp, hle, hlt⟩ := ih 0 (place + 1) (show Occurs needle rest q from h) (Nat.zero_le _)
        exact ⟨p, hp, by omega, by omega⟩

theorem findFrom_some {start : ℕ} (h : findFrom needle start hay = some p) :
    start ≤ p ∧ Occurs needle hay (p - start) ∧ ∀ q < p - start, ¬ Occurs needle hay q := by
  induction hay generalizing start with
  | nil =>
    rw [findFrom] at h
    split_ifs at h with hfront
    obtain rfl := Option.some.inj h
    rw [Nat.sub_self]
    exact ⟨le_rfl, List.isPrefixOf_iff_prefix.1 hfront, fun q hq ↦ absurd hq (Nat.not_lt_zero q)⟩
  | cons c rest ih =>
    rw [findFrom] at h
    split_ifs at h with hfront
    · obtain rfl := Option.some.inj h
      rw [Nat.sub_self]
      exact ⟨le_rfl, List.isPrefixOf_iff_prefix.1 hfront, fun q hq ↦ absurd hq (Nat.not_lt_zero q)⟩
    · obtain ⟨hle, hoccurs, hfirst⟩ := ih h
      obtain ⟨k, rfl⟩ : ∃ k, p = start + 1 + k := ⟨p - (start + 1), by omega⟩
      rw [Nat.add_sub_cancel_left] at hoccurs hfirst
      rw [show start + 1 + k - start = k + 1 by omega]
      refine ⟨by omega, hoccurs, fun q hq ↦ ?_⟩
      cases q with
      | zero => exact fun h ↦ hfront (List.isPrefixOf_iff_prefix.2 h)
      | succ q => exact hfirst q (by omega)

theorem findFrom_none {start : ℕ} (h : findFrom needle start hay = none) (p : ℕ) : ¬ Occurs needle hay p := by
  induction hay generalizing start p with
  | nil =>
    rw [findFrom] at h
    split_ifs at h with hfront
    intro hoccurs
    rw [Occurs, List.drop_nil] at hoccurs
    exact hfront (List.isPrefixOf_iff_prefix.2 hoccurs)
  | cons c rest ih =>
    rw [findFrom] at h
    split_ifs at h with hfront
    cases p with
    | zero => exact fun hoccurs ↦ hfront (List.isPrefixOf_iff_prefix.2 hoccurs)
    | succ p => exact ih h p

/-- One that tries every place. -/
def naive : Searcher α where
  find := fun hay needle ↦ findFrom needle 0 hay
  find_iter := fun hay needle ↦ findAll needle 0 0 hay
  find_some := fun h ↦ (findFrom_some h).2
  find_none := fun h ↦ findFrom_none h
  occurs := fun _ h ↦ (findAll_sound h).2
  apart := fun hneedle ↦ findAll_apart hneedle 0 0 _
  covers := by
    intro hay needle q hneedle h
    obtain ⟨p, hp, hle, hlt⟩ := findAll_covers hneedle 0 0 h (Nat.zero_le q)
    exact ⟨p, hp, by omega, by omega⟩

end

/-! ## Pieces with separators -/

section

variable {sep : α} {pieces : List (List α)} {i : ℕ}

/-- The pieces, each with a separator after it. -/
def laid (sep : α) (pieces : List (List α)) : List α := pieces.flatMap fun piece ↦ piece ++ [sep]

/-- Where a piece begins. -/
def offset (sep : α) (pieces : List (List α)) (i : ℕ) : ℕ := (laid sep (pieces.take i)).length

theorem laid_append (sep : α) (pieces more : List (List α)) :
    laid sep (pieces ++ more) = laid sep pieces ++ laid sep more := List.flatMap_append

theorem laid_singleton (sep : α) (piece : List α) : laid sep [piece] = piece ++ [sep] := List.flatMap_singleton ..

theorem offset_append (sep : α) (pieces more : List (List α)) :
    offset sep (pieces ++ more) pieces.length = (laid sep pieces).length := by
  rw [offset, List.take_left]

theorem offset_succ (h : i < pieces.length) :
    offset sep pieces (i + 1) = offset sep pieces i + pieces[i].length + 1 := by
  rw [offset, ← List.take_concat_get' _ _ h, laid_append, List.length_append, offset, Nat.add_assoc]
  congr 1
  rw [laid_singleton, List.length_append, List.length_singleton]

theorem offset_mono (sep : α) (pieces : List (List α)) {j : ℕ} (h : i ≤ j) : offset sep pieces i ≤ offset sep pieces j := by
  obtain ⟨k, rfl⟩ := Nat.exists_eq_add_of_le h
  rw [offset, offset, List.take_add, laid_append, List.length_append]
  exact Nat.le_add_right _ _

theorem laid_eq (h : i < pieces.length) :
    laid sep pieces = laid sep (pieces.take i) ++ (pieces[i] ++ sep :: laid sep (pieces.drop (i + 1))) := by
  conv_lhs => rw [← List.take_append_drop i pieces, laid_append, List.drop_eq_getElem_cons h]
  rw [laid, laid, List.flatMap_cons, List.append_assoc, List.singleton_append]
  rfl

theorem offset_length (sep : α) (pieces : List (List α)) : offset sep pieces pieces.length = (laid sep pieces).length := by
  rw [offset, List.take_length]

/-- A piece, without its separator. -/
theorem slice_laid (h : i < pieces.length) :
    ((laid sep pieces).take (offset sep pieces (i + 1) - 1)).drop (offset sep pieces i) = pieces[i] := by
  rw [offset_succ h, Nat.add_sub_cancel, laid_eq h, offset, List.take_length_add_append, List.drop_left, List.take_left]

/-- **A piece that the needle stands in** has a place of its own among those found. -/
theorem mem_find_iter (searcher : Searcher α) (hneedle : needle ≠ []) (h : i < pieces.length)
    (hsep : sep ∉ pieces[i]) (hoccurs : Occurs needle pieces[i] p) :
    ∃ q ∈ searcher.find_iter (laid sep pieces) needle, offset sep pieces i ≤ q ∧ q < offset sep pieces (i + 1) := by
  have hlt := hoccurs.lt_length hneedle
  have hwhole : Occurs needle (laid sep pieces) (offset sep pieces i + p) := by
    rw [laid_eq h, offset, occurs_append_iff]
    exact occurs_append hoccurs _ (Nat.le_of_lt hlt)
  obtain ⟨q, hq, hle, hover⟩ := searcher.covers hneedle hwhole
  refine ⟨q, hq, ?_, by rw [offset_succ h]; omega⟩
  -- one that begins before the piece has the separator in it
  by_contra hbefore
  rw [Nat.not_le] at hbefore
  obtain ⟨j, hj⟩ : ∃ j, j + 1 = i := by
    refine ⟨i - 1, ?_⟩
    by_contra hi
    obtain rfl : i = 0 := by omega
    exact Nat.not_lt_zero _ hbefore
  subst hj
  have hsepat : (laid sep pieces)[offset sep pieces (j + 1) - 1]? = some sep := by
    have hjlt : j < pieces.length := by omega
    rw [offset_succ hjlt, Nat.add_sub_cancel, laid_eq hjlt, offset, List.getElem?_append_right (Nat.le_add_right _ _),
      Nat.add_sub_cancel_left, List.getElem?_append_right (le_refl _), Nat.sub_self]
    rfl
  have hneedleat := (searcher.occurs hneedle hq).getElem? (k := offset sep pieces (j + 1) - 1 - q) (by omega)
  rw [show q + (offset sep pieces (j + 1) - 1 - q) = offset sep pieces (j + 1) - 1 by omega, hsepat] at hneedleat
  exact hsep (List.drop_subset _ _ (hoccurs.subset (List.mem_of_getElem? hneedleat.symm)))

end

end Searching
