import Luft.Lib.BigEndian

/-!
# Reading binary data

A `Reader` takes what it wants off the front of some bytes, or fails.  `forCount` and `untilEmpty` are the two loops a
reader runs, a number of times and until nothing is left, with a state that each turn may change or give up on.

`Turns` says what one turn does: on an item as it is written it is a step of the state, and it reads nothing that is
not an item.  Then the loops fold the steps over items, and read nothing but items.
-/

set_option autoImplicit false

abbrev Reader (α : Type) := StateT (List UInt8) Option α

namespace Reader

open LittleEndian

variable {α β σ ι : Type} {data rest : List UInt8}

/-! ## The readers -/

/-- The next `size` bytes. -/
def take (size : ℕ) : Reader (List UInt8) := fun data ↦
  if size ≤ data.length then some (data.take size, data.drop size) else none

/-- The number in the next `size` bytes. -/
def number (size : ℕ) : Reader ℕ := fun data ↦ (take size data).map fun p ↦ (ofLe p.1, p.2)

/-- What there is, or a failure. -/
def need (option : Option α) : Reader α := fun data ↦ option.map (·, data)

theorem bind_apply (r : Reader α) (f : α → Reader β) (data : List UInt8) :
    (r >>= f) data = (r data).bind fun p ↦ f p.1 p.2 := rfl

theorem bind_iff {r : Reader α} {f : α → Reader β} {out : β × List UInt8} :
    (r >>= f) data = some out ↔ ∃ a rest, r data = some (a, rest) ∧ f a rest = some out := by
  rw [bind_apply, Option.bind_eq_some_iff]
  exact ⟨fun ⟨p, hp, hf⟩ ↦ ⟨p.1, p.2, hp, hf⟩, fun ⟨a, rest, hp, hf⟩ ↦ ⟨(a, rest), hp, hf⟩⟩

/-- A reader that goes on where another has stopped. -/
theorem bind_eq {r : Reader α} {f : α → Reader β} {a : α} (h : r data = some (a, rest)) :
    (r >>= f) data = f a rest := by
  rw [bind_apply, h]
  rfl

theorem take_append {size : ℕ} {bytes : List UInt8} (h : bytes.length = size) (rest : List UInt8) :
    take size (bytes ++ rest) = some (bytes, rest) := by
  subst h
  rw [take, if_pos (by rw [List.length_append]; omega), List.take_left, List.drop_left]

theorem take_eq_some {size : ℕ} {bytes : List UInt8} (h : take size data = some (bytes, rest)) :
    bytes.length = size ∧ data = bytes ++ rest := by
  rw [take] at h
  split at h
  · next hle =>
    cases h
    exact ⟨List.length_take_of_le hle, (List.take_append_drop _ _).symm⟩
  · cases h

theorem number_append {size n : ℕ} (h : n < 256 ^ size) (rest : List UInt8) :
    number size (le size n ++ rest) = some (n, rest) := by
  rw [number, take_append (length_le _ _), Option.map_some, ofLe_le h]

theorem number_eq_some {size n : ℕ} (h : number size data = some (n, rest)) :
    n < 256 ^ size ∧ data = le size n ++ rest := by
  obtain ⟨⟨bytes, rest'⟩, htake, hn⟩ := Option.map_eq_some_iff.1 h
  cases hn
  obtain ⟨hlength, rfl⟩ := take_eq_some htake
  rw [← hlength]
  exact ⟨ofLe_lt bytes, by rw [le_ofLe]⟩

theorem need_some (a : α) (data : List UInt8) : need (some a) data = some (a, data) := rfl

theorem need_eq_some {option : Option α} {a : α} (h : need option data = some (a, rest)) :
    option = some a ∧ rest = data := by
  obtain ⟨b, rfl, hb⟩ := Option.map_eq_some_iff.1 h
  cases hb
  exact ⟨rfl, rfl⟩

/-! ## Loops -/

/-- A number of turns. -/
def forCount (turn : σ → Reader σ) : ℕ → σ → Reader σ
  | 0, state => pure state
  | count + 1, state => do forCount turn count (← turn state)

def untilEmptyFrom (turn : σ → Reader σ) : ℕ → σ → Reader σ
  | _, state, [] => some (state, [])
  | 0, _, _ :: _ => none
  | fuel + 1, state, byte :: data => (turn state (byte :: data)).bind fun (state, rest) ↦
    untilEmptyFrom turn fuel state rest

/-- Turns until nothing is left. -/
def untilEmpty (turn : σ → Reader σ) (state : σ) : Reader σ := fun data ↦ untilEmptyFrom turn data.length state data

/-- What a turn reads is an item, and makes a step. -/
structure Turns (turn : σ → Reader σ) (write : ι → List UInt8) (step : σ → ι → Option σ) : Prop where
  read : ∀ state item rest, turn state (write item ++ rest) = (step state item).map (·, rest)
  written : ∀ {state state' data rest}, turn state data = some (state', rest) → ∃ item, data = write item ++ rest

namespace Turns

variable {turn : σ → Reader σ} {write : ι → List UInt8} {step : σ → ι → Option σ} (h : Turns turn write step)

include h

theorem forCount_write (items : List ι) (state : σ) (rest : List UInt8) :
    forCount turn items.length state (items.flatMap write ++ rest) = (items.foldlM step state).map (·, rest) := by
  induction items generalizing state with
  | nil => rfl
  | cons item items ih =>
    rw [List.length_cons, forCount, List.flatMap_cons, List.append_assoc, bind_apply, h.read, List.foldlM_cons]
    cases step state item with
    | none => rfl
    | some state' => exact ih state'

theorem forCount_written {count : ℕ} {state state' : σ} (hrun : forCount turn count state data = some (state', rest)) :
    ∃ items : List ι, items.length = count ∧ data = items.flatMap write ++ rest := by
  induction count generalizing state data with
  | zero =>
    cases hrun
    exact ⟨[], rfl, rfl⟩
  | succ count ih =>
    obtain ⟨mid, left, hturn, hmore⟩ := bind_iff.1 hrun
    obtain ⟨item, rfl⟩ := h.written hturn
    obtain ⟨items, rfl, rfl⟩ := ih hmore
    exact ⟨item :: items, rfl, by rw [List.flatMap_cons, List.append_assoc]⟩

variable (hpos : ∀ item, 0 < (write item).length)

include hpos

/-- Fuel for every byte is enough. -/
theorem untilEmptyFrom_eq {fuel : ℕ} (state : σ) (hfuel : data.length ≤ fuel) :
    untilEmptyFrom turn fuel state data = untilEmpty turn state data := by
  have hall : ∀ {data : List UInt8} {fuel fuel' : ℕ} (state : σ), data.length ≤ fuel → data.length ≤ fuel' →
      untilEmptyFrom turn fuel state data = untilEmptyFrom turn fuel' state data := by
    intro data fuel fuel' state hfuel hfuel'
    induction fuel generalizing data fuel' state with
    | zero =>
      cases data with
      | nil => rw [untilEmptyFrom, untilEmptyFrom]
      | cons byte data => exact absurd hfuel (Nat.not_succ_le_zero _)
    | succ fuel ih =>
      cases data with
      | nil => rw [untilEmptyFrom, untilEmptyFrom]
      | cons byte data =>
        obtain ⟨fuel', rfl⟩ : ∃ k, fuel' = k + 1 := Nat.exists_eq_succ_of_ne_zero fun hzero ↦ by
          rw [hzero] at hfuel'
          exact absurd hfuel' (Nat.not_succ_le_zero _)
        rw [untilEmptyFrom, untilEmptyFrom]
        rcases hturn : turn state (byte :: data) with _ | ⟨state', rest⟩
        · rfl
        · obtain ⟨item, hitem⟩ := h.written hturn
          have hlength := congrArg List.length hitem
          have := hpos item
          rw [List.length_append] at hlength
          exact ih state' (by omega) (by omega)
  exact hall state hfuel (Nat.le_refl _)

/-- **The loop turns and goes on**, as long as there is something left. -/
theorem untilEmpty_eq {state : σ} (hdata : data ≠ []) :
    untilEmpty turn state data = (turn state data).bind fun (state, rest) ↦ untilEmpty turn state rest := by
  obtain ⟨byte, data, rfl⟩ := List.exists_cons_of_ne_nil hdata
  rw [untilEmpty, List.length_cons, untilEmptyFrom]
  rcases hturn : turn state (byte :: data) with _ | ⟨state', rest⟩
  · rfl
  · obtain ⟨item, hitem⟩ := h.written hturn
    have hlength := congrArg List.length hitem
    have := hpos item
    rw [List.length_append, List.length_cons] at hlength
    exact h.untilEmptyFrom_eq hpos state' (by omega)

theorem untilEmpty_write (items : List ι) (state : σ) :
    untilEmpty turn state (items.flatMap write) = (items.foldlM step state).map (·, []) := by
  induction items generalizing state with
  | nil => rfl
  | cons item items ih =>
    have hne : write item ++ items.flatMap write ≠ [] := fun hnil ↦ by
      have := hpos item
      rw [(List.append_eq_nil_iff.1 hnil).1] at this
      exact absurd this (Nat.lt_irrefl _)
    rw [List.flatMap_cons, h.untilEmpty_eq hpos hne, h.read, List.foldlM_cons]
    cases step state item with
    | none => rfl
    | some state' => exact ih state'

theorem untilEmpty_written {state state' : σ} (hrun : untilEmpty turn state data = some (state', rest)) :
    ∃ items : List ι, data = items.flatMap write := by
  induction hlength : data.length using Nat.strongRecOn generalizing data state with
  | _ length ih =>
    by_cases hdata : data = []
    · exact ⟨[], hdata⟩
    · rw [h.untilEmpty_eq hpos hdata] at hrun
      obtain ⟨⟨mid, left⟩, hturn, hmore⟩ := Option.bind_eq_some_iff.1 hrun
      obtain ⟨item, rfl⟩ := h.written hturn
      have := hpos item
      rw [List.length_append] at hlength
      obtain ⟨items, hitems⟩ := ih left.length (by omega) hmore rfl
      exact ⟨item :: items, by rw [List.flatMap_cons, ← hitems]⟩

end Turns

end Reader
