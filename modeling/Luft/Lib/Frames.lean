import Luft.Lib.BigEndian
import Mathlib.Data.List.Basic

/-!
# Frames with their length in front

`frame` puts the length of some bytes before them.  `scan` reads frames one after the other until what
is left is no whole frame, and answers what the frames decode to together with the bytes that are
left.  `scan_append` says what more bytes at the end change: the frames that were read stay, and
reading goes on where it stopped, in the middle of a frame that was cut off.
-/

set_option autoImplicit false

namespace Frames

open LittleEndian

variable {α : Type*} (decode : List UInt8 → Option α)

def frame (payload : List UInt8) : List UInt8 := le 4 payload.length ++ payload

/-- The first frame and what comes after it, if it is whole. -/
def next (bytes : List UInt8) : Option (List UInt8 × List UInt8) :=
  if bytes.length < 4 then none
  else
    let length := ofLe (bytes.take 4)
    if bytes.length < 4 + length then none
    else some ((bytes.drop 4).take length, bytes.drop (4 + length))

def scanWith : ℕ → List UInt8 → List α × List UInt8
  | 0, bytes => ([], bytes)
  | fuel + 1, bytes =>
    match next bytes with
    | none => ([], bytes)
    | some (payload, rest) =>
      ((decode payload).toList ++ (scanWith fuel rest).1, (scanWith fuel rest).2)

/-- What the frames decode to, and what is left. -/
def scan (bytes : List UInt8) : List α × List UInt8 := scanWith decode bytes.length bytes

variable {decode} {bytes payload rest : List UInt8}

theorem length_of_next (h : next bytes = some (payload, rest)) : rest.length < bytes.length := by
  rw [next] at h
  split at h
  · cases h
  · rename_i hshort
    dsimp only at h
    split at h
    · cases h
    · cases h
      rw [List.length_drop]
      omega

theorem scanWith_eq {n m : ℕ} (hn : bytes.length ≤ n) (hm : bytes.length ≤ m) :
    scanWith decode n bytes = scanWith decode m bytes := by
  have hnone (hempty : bytes.length = 0) : next bytes = none := by
    rw [next, if_pos (by omega)]
  induction n generalizing m bytes with
  | zero =>
    cases m with
    | zero => rfl
    | succ m => rw [scanWith, scanWith, hnone (by omega)]
  | succ n ih =>
    cases m with
    | zero => rw [scanWith, scanWith, hnone (by omega)]
    | succ m =>
      rw [scanWith, scanWith]
      cases h : next bytes with
      | none => rfl
      | some found =>
        have hlt := length_of_next h
        dsimp only
        rw [ih (m := m) (by omega) (by omega) fun h ↦ by rw [next, if_pos (by omega)]]

theorem scan_of_none (h : next bytes = none) : scan decode bytes = ([], bytes) := by
  rw [scan]
  cases bytes.length with
  | zero => rfl
  | succ n => rw [scanWith, h]

theorem scan_of_some (h : next bytes = some (payload, rest)) : scan decode bytes =
    ((decode payload).toList ++ (scan decode rest).1, (scan decode rest).2) := by
  have hlt := length_of_next h
  obtain ⟨n, hn⟩ := Nat.exists_eq_add_of_lt hlt
  rw [scan, hn, scanWith, h]
  dsimp only
  rw [scan, scanWith_eq (m := rest.length) (by omega) le_rfl]

@[simp] theorem scan_nil : scan decode [] = ([], []) := rfl

theorem next_append (h : next bytes = some (payload, rest)) (more : List UInt8) :
    next (bytes ++ more) = some (payload, rest ++ more) := by
  rw [next] at h
  split at h
  · cases h
  rename_i hshort
  dsimp only at h
  split at h
  · cases h
  rename_i hwhole
  cases h
  rw [next, List.take_append_of_le_length (by omega), if_neg (by rw [List.length_append]; omega)]
  dsimp only
  rw [if_neg (by rw [List.length_append]; omega), List.drop_append_of_le_length (by omega),
    List.take_append_of_le_length (by rw [List.length_drop]; omega),
    List.drop_append_of_le_length (by omega)]

/-- **More bytes** leave what was read, and reading goes on with what was left. -/
theorem scan_append (bytes more : List UInt8) : scan decode (bytes ++ more) =
    ((scan decode bytes).1 ++ (scan decode ((scan decode bytes).2 ++ more)).1,
      (scan decode ((scan decode bytes).2 ++ more)).2) := by
  induction h : bytes.length using Nat.strong_induction_on generalizing bytes with
  | _ n ih =>
    cases hnext : next bytes with
    | none => rw [scan_of_none hnext, List.nil_append]
    | some found =>
      obtain ⟨payload, rest⟩ := found
      rw [scan_of_some hnext, scan_of_some (next_append hnext more),
        ih rest.length (h ▸ length_of_next hnext) rest rfl, List.append_assoc]

theorem next_frame (h : payload.length < 4294967296) :
    next (frame payload) = some (payload, []) := by
  have hlength : (frame payload).length = 4 + payload.length := by
    rw [frame, List.length_append, length_le]
  rw [next, if_neg (by omega), hlength]
  dsimp only
  rw [frame, List.take_left' (length_le _ _), List.drop_left' (length_le _ _), ofLe_le h,
    if_neg (by omega), List.take_length, List.drop_eq_nil_of_le]
  rw [List.length_append, length_le]

/-- **A whole frame.** -/
theorem scan_frame (h : payload.length < 4294967296) :
    scan decode (frame payload) = ((decode payload).toList, []) := by
  rw [scan_of_some (next_frame h), scan_nil, List.append_nil]

end Frames
