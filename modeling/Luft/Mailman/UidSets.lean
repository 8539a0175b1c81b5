import Luft.Lib.Checked
import Luft.Lib.Intervals
import Luft.Mailman.Imap
import Mathlib.Data.List.Destutter
import Mathlib.Data.List.Sort

/-!
# Sets of messages

Messages are named to the server by their numbers, as a set in which consecutive ones are a range
(`uid_set`), and the server names them so in its answers (`parse_uid_set`).  The numbers are 32 bits wide;
`none` is the sum of a number and one that does not fit.
-/

set_option autoImplicit false

namespace Mailman

namespace Imap

open Intervals

/-- One more than the largest number. -/
def U32 : ℕ := 4294967296

/-! ## Writing and reading -/

/-- Where the range that has come to `last` ends, and what comes after it. -/
def extend (last : ℕ) : List ℕ → Option (ℕ × List ℕ)
  | [] => some (last, [])
  | next :: rest => do
    let following ← Checked.add U32 last 1
    if next = following then extend next rest else pure (last, next :: rest)

/-- The ranges of a sorted list, with a bound on how many there are. -/
def rangesWith : ℕ → List ℕ → Option (List (ℕ × ℕ))
  | _, [] => some []
  | 0, _ :: _ => none
  | fuel + 1, start :: rest => do
    let (last, rest) ← extend start rest
    pure ((start, last) :: (← rangesWith fuel rest))

def written (range : ℕ × ℕ) : List Char :=
  if range.1 = range.2 then Nat.toDigits 10 range.1
  else Nat.toDigits 10 range.1 ++ ':' :: Nat.toDigits 10 range.2

/-- The numbers in order, each once. -/
def sorted (uids : List UInt32) : List ℕ :=
  ((uids.map UInt32.toNat).insertionSort (· ≤ ·)).destutter (· ≠ ·)

def ranges (uids : List UInt32) : Option (List (ℕ × ℕ)) := rangesWith (sorted uids).length (sorted uids)

def uid_set (uids : List UInt32) : Option (List Char) :=
  (ranges uids).map fun ranges ↦ List.intercalate [','] (ranges.map written)

/-- The numbers of one range. -/
def parseRange (range : List Char) : List ℕ :=
  match Text.split_once [':'] range with
  | some (start, last) =>
    match parseUnsigned U32 start, parseUnsigned U32 last with
    | some start, some last => numbers (min start last, max start last)
    | _, _ => []
  | none => (parseUnsigned U32 range).toList

def parse_uid_set (set : List Char) : List ℕ := (set.splitOn ',').flatMap parseRange

/-! ## The sorted numbers -/

theorem mem_destutter' {a b : ℕ} (l : List ℕ) : b ∈ l.destutter' (· ≠ ·) a ↔ b = a ∨ b ∈ l := by
  induction l generalizing a with
  | nil => simp
  | cons c l ih =>
    rw [List.destutter'_cons, List.mem_cons]
    by_cases h : a = c
    · rw [if_neg (not_not_intro h), ih, h]
      tauto
    · rw [if_pos h, List.mem_cons, ih]

theorem mem_destutter {b : ℕ} {l : List ℕ} : b ∈ l.destutter (· ≠ ·) ↔ b ∈ l := by
  cases l with
  | nil => rfl
  | cons a l => rw [List.destutter_cons', mem_destutter', List.mem_cons]

theorem mem_sorted {uids : List UInt32} {n : ℕ} : n ∈ sorted uids ↔ ∃ uid ∈ uids, uid.toNat = n := by
  rw [sorted, mem_destutter, List.mem_insertionSort, List.mem_map]

theorem sorted_lt {uids : List UInt32} {n : ℕ} (h : n ∈ sorted uids) : n < U32 := by
  obtain ⟨uid, -, rfl⟩ := mem_sorted.1 h
  exact uid.toNat_lt

theorem isChain_lt : ∀ {l : List ℕ}, l.Pairwise (· ≤ ·) → l.IsChain (· ≠ ·) → l.IsChain (· < ·)
  | [], _, _ => .nil
  | [a], _, _ => .singleton a
  | a :: b :: l, hle, hne => by
    obtain ⟨hab, hne⟩ := List.isChain_cons_cons.1 hne
    obtain ⟨hle', hle⟩ := List.pairwise_cons.1 hle
    exact List.isChain_cons_cons.2 ⟨lt_of_le_of_ne (hle' b List.mem_cons_self) hab, isChain_lt hle hne⟩

theorem sorted_increasing (uids : List UInt32) : (sorted uids).Pairwise (· < ·) := by
  have hle : (sorted uids).Pairwise (· ≤ ·) :=
    (List.pairwise_insertionSort _ _).sublist (List.destutter_sublist _ _)
  exact List.isChain_iff_pairwise.1 (isChain_lt hle (List.isChain_destutter _ _))

theorem parseUnsigned_toDigits {bound n : ℕ} (h : n < bound) : parseUnsigned bound (Nat.toDigits 10 n) = some n := by
  have hdigits : (Nat.toDigits 10 n).all Char.isDigit :=
    List.all_eq_true.2 fun c hc ↦ Nat.isDigit_of_mem_toDigits (by decide) (by decide) hc
  have hplus : (Nat.toDigits 10 n).head? ≠ some '+' := fun hhead ↦ by
    have hdigit := Nat.isDigit_of_mem_toDigits (by decide) (by decide) (List.mem_of_mem_head? hhead)
    exact absurd hdigit (by decide)
  have hvalue : (Nat.toDigits 10 n).foldl (fun n c ↦ n * 10 + (c.toNat - 48)) 0 = n := by
    conv_rhs => rw [← Nat.ofDigitChars_ten_toDigits (n := n), Nat.ofDigitChars]
    congr 1
    funext m c
    rw [Nat.mul_comm]
    rfl
  rw [parseUnsigned, if_neg hplus, hvalue, if_pos ⟨Nat.toDigits_ne_nil, hdigits, h⟩]

variable {last n : ℕ} {rest : List ℕ}

/-- The inner loop goes to the end of the first range. -/
theorem extend_spec (hinc : (last :: rest).Pairwise (· < ·)) (hlt : ∀ n ∈ rest, n < U32) :
    ∃ final after, extend last rest = some (final, after) ∧ last ≤ final ∧
      last :: rest = numbers (last, final) ++ after ∧ ∀ n ∈ after, final + 1 < n := by
  induction rest generalizing last with
  | nil => exact ⟨last, [], rfl, le_rfl, by simp [numbers], by simp⟩
  | cons next rest ih =>
    obtain ⟨hlast, hrest⟩ := List.pairwise_cons.1 hinc
    have hnext := hlast next List.mem_cons_self
    have hadd : Checked.add U32 last 1 = some (last + 1) :=
      Checked.add_of_lt (by have := hlt next List.mem_cons_self; omega)
    by_cases h : next = last + 1
    · obtain ⟨final, after, heq, hle, hlist, hafter⟩ := ih hrest fun n hn ↦ hlt n (List.mem_cons_of_mem _ hn)
      refine ⟨final, after, ?_, by omega, ?_, hafter⟩
      · rw [extend, hadd, Option.bind_eq_bind, Option.bind_some, if_pos h, heq]
      · rw [hlist, h, ← List.cons_append, numbers_cons (by omega)]
    · refine ⟨last, next :: rest, ?_, le_rfl, by simp [numbers], fun n hn ↦ ?_⟩
      · rw [extend, hadd, Option.bind_eq_bind, Option.bind_some, if_neg h]
        rfl
      · rcases List.mem_cons.1 hn with rfl | hn
        · omega
        · have := (List.pairwise_cons.1 hrest).1 n hn
          omega

theorem rangesWith_spec {fuel : ℕ} {l : List ℕ} (hfuel : l.length ≤ fuel) (hinc : l.Pairwise (· < ·))
    (hlt : ∀ n ∈ l, n < U32) : ∃ rs, rangesWith fuel l = some rs ∧ Apart rs ∧ rs.flatMap numbers = l := by
  induction fuel generalizing l with
  | zero =>
    obtain rfl := List.length_eq_zero_iff.1 (Nat.le_zero.1 hfuel)
    exact ⟨[], rfl, .nil, rfl⟩
  | succ fuel ih =>
    cases l with
    | nil => exact ⟨[], rfl, .nil, rfl⟩
    | cons start rest =>
      obtain ⟨final, after, heq, hle, hlist, hafter⟩ :=
        extend_spec hinc fun n hn ↦ hlt n (List.mem_cons_of_mem _ hn)
      have hsub : after.Sublist (start :: rest) := hlist ▸ List.sublist_append_right _ _
      have hlength : after.length ≤ fuel := by
        have hcount := congrArg List.length hlist
        have hnumbers : (numbers (start, final)).length = final + 1 - start := List.length_range'
        rw [List.length_cons, List.length_append, hnumbers] at hcount
        rw [List.length_cons] at hfuel
        omega
      obtain ⟨rs, hrs, hapart, hflat⟩ := ih hlength (hinc.sublist hsub) fun n hn ↦ hlt n (hsub.subset hn)
      refine ⟨(start, final) :: rs, ?_, .cons hle (fun r' hr' ↦ ?_) hapart, ?_⟩
      · rw [rangesWith, heq, Option.bind_eq_bind, Option.bind_some]
        dsimp only
        rw [hrs]
        rfl
      · refine hafter r'.1 ?_
        rw [← hflat, mem_all]
        exact ⟨r', hr', le_rfl, hapart.ordered r' hr'⟩
      · rw [List.flatMap_cons, hflat, hlist]
/-! ## Reading what was written -/

theorem not_digit_of_mem {c : Char} (hc : c.isDigit = false) : c ∉ Nat.toDigits 10 n := fun hmem ↦ by
  rw [Nat.isDigit_of_mem_toDigits (by decide) (by decide) hmem] at hc
  cases hc

theorem comma_not_mem_written (r : ℕ × ℕ) : ',' ∉ written r := by
  rw [written]
  split
  · exact not_digit_of_mem rfl
  · rw [List.mem_append, List.mem_cons, not_or, not_or]
    exact ⟨not_digit_of_mem rfl, by decide, not_digit_of_mem rfl⟩

theorem parseRange_written {r : ℕ × ℕ} (hle : r.1 ≤ r.2) (hlt : r.2 < U32) : parseRange (written r) = numbers r := by
  rw [parseRange, written]
  by_cases h : r.1 = r.2
  · rw [if_pos h, Text.split_once_eq_none (not_digit_of_mem rfl)]
    dsimp only
    rw [parseUnsigned_toDigits (by omega), numbers, ← h, Nat.add_sub_cancel_left]
    rfl
  · rw [if_neg h, Text.split_once_eq (not_digit_of_mem rfl)]
    dsimp only
    rw [parseUnsigned_toDigits (by omega), parseUnsigned_toDigits hlt]
    dsimp only
    rw [Nat.min_eq_left hle, Nat.max_eq_right hle]

theorem parse_uid_set_written {rs : List (ℕ × ℕ)} (hle : ∀ r ∈ rs, r.1 ≤ r.2) (hlt : ∀ r ∈ rs, r.2 < U32) :
    parse_uid_set (List.intercalate [','] (rs.map written)) = rs.flatMap numbers := by
  cases rs with
  | nil => rfl
  | cons r rs =>
    have hcomma : ∀ text ∈ (r :: rs).map written, ',' ∉ text := by
      intro text htext
      obtain ⟨r', -, rfl⟩ := List.mem_map.1 htext
      exact comma_not_mem_written r'
    rw [parse_uid_set, List.splitOn_intercalate _ hcomma (List.cons_ne_nil _ _), List.flatMap_map]
    exact List.flatMap_congr fun r' hr' ↦ parseRange_written (hle r' hr') (hlt r' hr')

/-- **A set of numbers is read back as those numbers**, in order and each once.  The ranges it is written with
are in order, apart from one another and as long as they can be. -/
theorem uid_set_read_back (uids : List UInt32) : ∃ rs set, ranges uids = some rs ∧ uid_set uids = some set ∧
    set = List.intercalate [','] (rs.map written) ∧
    (parse_uid_set set).Pairwise (· < ·) ∧ (∀ n, n ∈ parse_uid_set set ↔ ∃ uid ∈ uids, uid.toNat = n) ∧
    rs.Pairwise (fun r r' ↦ r.2 < r'.1) ∧ ∀ r ∈ rs, Maximal (∃ uid ∈ uids, uid.toNat = ·) r := by
  obtain ⟨rs, hrs, hapart, hflat⟩ := rangesWith_spec le_rfl (sorted_increasing uids) fun _ ↦ sorted_lt
  have hranges : ranges uids = some rs := hrs
  have hlt : ∀ r ∈ rs, r.2 < U32 := fun r hr ↦
    sorted_lt (hflat ▸ mem_all.2 ⟨r, hr, hapart.ordered r hr, le_rfl⟩)
  have hread := parse_uid_set_written hapart.ordered hlt
  have hset : (∃ uid ∈ uids, uid.toNat = ·) = (· ∈ rs.flatMap numbers) := by
    funext n
    rw [hflat, mem_sorted]
  refine ⟨rs, _, hranges, by rw [uid_set, hranges, Option.map_some], rfl, ?_, fun n ↦ ?_,
    hapart.gaps.imp fun h ↦ Nat.lt_of_succ_lt h, fun r hr ↦ ?_⟩
  · rw [hread, hflat]
    exact sorted_increasing uids
  · rw [hread, hflat, mem_sorted]
  · rw [hset]
    exact hapart.maximal hr

example : uid_set [7, 4294967295, 5, 6, 9, 7, 4294967294] = some "5:7,9,4294967294:4294967295".toList := by
  decide +kernel

end Imap

end Mailman
