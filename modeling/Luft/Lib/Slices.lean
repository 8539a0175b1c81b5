import Luft.Lib.BigEndian

/-!
# Slices of bytes

`slice data a b` is the part of some bytes from position `a` to position `b`, if both are in it.
`slice_eq_some_iff` says so by what stands before and after.
-/

set_option autoImplicit false

namespace Slices

open LittleEndian

variable {α : Type*} {data part : List α} {a b : ℕ}

/-- `data.get(a..b)`; where there is none, `&data[a..b]` panics. -/
def slice (data : List α) (a b : ℕ) : Option (List α) :=
  if a ≤ b ∧ b ≤ data.length then some ((data.drop a).take (b - a)) else none

/-- `data.get(a..)`. -/
def sliceFrom (data : List α) (a : ℕ) : Option (List α) := slice data a data.length

theorem slice_eq_some_iff : slice data a b = some part ↔
    ∃ before after, data = before ++ (part ++ after) ∧ before.length = a ∧ a + part.length = b := by
  rw [slice]
  constructor
  · intro h
    split at h
    · next hle =>
      cases h
      refine ⟨data.take a, (data.drop a).drop (b - a), ?_, ?_, ?_⟩
      · rw [List.take_append_drop, List.take_append_drop]
      · rw [List.length_take]
        omega
      · rw [List.length_take, List.length_drop]
        omega
    · cases h
  · rintro ⟨before, after, rfl, rfl, rfl⟩
    rw [if_pos ⟨Nat.le_add_right _ _, by simp only [List.length_append]; omega⟩, List.drop_left,
      Nat.add_sub_cancel_left, List.take_left]

/-- **What stands in the middle** is the slice. -/
theorem slice_append (before part after : List α) {a b : ℕ} (ha : before.length = a) (hb : a + part.length = b) :
    slice (before ++ (part ++ after)) a b = some part :=
  slice_eq_some_iff.2 ⟨before, after, rfl, ha, hb⟩

theorem slice_start (part after : List α) {b : ℕ} (hb : part.length = b) : slice (part ++ after) 0 b = some part :=
  slice_append [] part after rfl ((Nat.zero_add _).trans hb)

theorem sliceFrom_append (before after : List α) {a : ℕ} (ha : before.length = a) :
    sliceFrom (before ++ after) a = some after := by
  have h := slice_append before after [] ha (by rw [List.length_append, ha] : a + after.length = (before ++ after).length)
  rwa [List.append_nil] at h

theorem slice_isSome (hab : a ≤ b) (hb : b ≤ data.length) : ∃ part, slice data a b = some part :=
  ⟨_, if_pos ⟨hab, hb⟩⟩

theorem slice_eq_none (hb : data.length < b) : slice data a b = none := if_neg fun h ↦ by omega

theorem length_slice (h : slice data a b = some part) : part.length = b - a ∧ a ≤ b ∧ b ≤ data.length := by
  obtain ⟨before, after, rfl, rfl, rfl⟩ := slice_eq_some_iff.1 h
  simp only [List.length_append]
  omega

/-- The number in the `k` bytes at a position, least significant first. -/
def numberAt (k : ℕ) (data : List UInt8) (a : ℕ) : Option ℕ := (slice data a (a + k)).map ofLe

theorem numberAt_append {k n : ℕ} (before after : List UInt8) (hn : n < 256 ^ k) {a : ℕ} (ha : before.length = a) :
    numberAt k (before ++ (le k n ++ after)) a = some n := by
  rw [numberAt, slice_append before _ after ha (by rw [length_le]), Option.map_some, ofLe_le hn]

end Slices
