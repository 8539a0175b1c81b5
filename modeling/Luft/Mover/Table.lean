import Mathlib.Logic.Function.Basic
import Luft.Lib.Runs
import Luft.Mover.Plan

/-!
# The partition table

What the steps do to the partition table, with everything else on the drive left out.  A table maps
the offset a partition starts at to what the table says about it, together with the UUID of its
encryption once that is settled.

`NoOverlap` is what a table must keep, `Fits` that a stretch of the drive is free of a table's
partitions.
-/

set_option autoImplicit false

namespace Mover

def rootType : String := "4f68bce3-e8cd-4db1-96e7-fbcaf984b709"

def startupType : String := "bc13c2ff-59e6-4262-a352-b275fd6f7172"

def linuxData : String := "0fc63daf-8483-4772-8e79-3d69d8477de4"

/-- What a table says about one partition.  The table makes up the UUID of a new partition, and a
copy of the encryption gets a random one; both are `none` here. -/
structure Entry where
  size : ℕ
  kind : String
  uuid : Option String
  luks : Option String
deriving DecidableEq, Repr

abbrev Table := ℕ → Option Entry

namespace Table

variable (t : Table)

def change (offset : ℕ) (f : Entry → Entry) : Table :=
  Function.update t offset ((t offset).map f)

def add (offset : ℕ) (e : Entry) : Table :=
  if (t offset).isNone then Function.update t offset (some e) else t

def remove (offset : ℕ) : Table := Function.update t offset none

/-- The table with one more partition. -/
abbrev place (offset : ℕ) (e : Entry) : Table := Function.update t offset (some e)

end Table

/-- What a step does to the table. -/
def Step.onTable : Step → Table → Table
  | .copyStartup src dst, t =>
    if (t src.offset).isNone then t
    else (t.add dst.offset ⟨dst.size, startupType, none, none⟩).change dst.offset fun e ↦
      { e with luks := none }
  | .shrink o size, t => t.change o fun e ↦ { e with size := min e.size size }
  | .create o size, t => t.add o ⟨size, linuxData, none, none⟩
  | .seal o, t | .join o, t | .retire o, t => t.change o fun e ↦ { e with luks := none }
  | .hand src dst, t =>
    (t.change dst fun e ↦ { e with kind := rootType }).change src fun e ↦
      { e with kind := linuxData }
  | .delete o, t => t.remove o
  | .grow o fin, t => t.change o fun e ↦ { e with size := max e.size (fin - o) }
  | .rename o uuid, t => t.change o fun e ↦ { e with uuid := some uuid }
  | .settle o uuid, t => t.change o fun e ↦ { e with luks := some uuid }
  | .discard o uuid, t =>
    if (t o).any fun e ↦ e.uuid = some uuid then t.remove o else t
  | .leave _, t | .forgetStartEntry _, t | .removeFolder _, t => t

/-- No two partitions overlap. -/
def NoOverlap (t : Table) : Prop :=
  ∀ a b x y, t a = some x → t b = some y → a ≠ b → a + x.size ≤ b ∨ b + y.size ≤ a

/-- No partition of the table reaches into the stretch from `lo` to `hi`. -/
def Fits (t : Table) (lo hi : ℕ) : Prop :=
  ∀ o x, t o = some x → o + x.size ≤ lo ∨ hi ≤ o

/-- Every partition of `t` is in `u` as it is. -/
def Keeps (t u : Table) : Prop := ∀ o x, t o = some x → u o = some x

namespace Table

variable {t : Table} {a b lo hi mid : ℕ} {x y : Entry} {f : Entry → Entry}

@[simp] theorem change_self : t.change a f a = (t a).map f := Function.update_self a _ t

theorem change_ne (h : b ≠ a) : t.change a f b = t b := Function.update_of_ne h _ t

theorem change_some (h : t a = some x) : t.change a f = t.place a (f x) := by
  rw [change, h, Option.map_some]

theorem change_none (h : t a = none) : t.change a f = t := by
  rw [change, h, Option.map_none, ← h, Function.update_eq_self]

theorem add_none (h : t a = none) : t.add a x = t.place a x := by simp [add, h]

theorem add_some (h : t a = some y) : t.add a x = t := by simp [add, h]

theorem add_ne (h : b ≠ a) : t.add a x b = t b := by
  unfold add
  split
  · exact Function.update_of_ne h _ t
  · rfl

theorem isSome_add : (t.add a x a).isSome := by
  rcases h : t a with - | y
  · rw [add_none h, place, Function.update_self, Option.isSome_some]
  · rw [add_some h, h, Option.isSome_some]

theorem remove_place (h : t a = none) : (t.place a x).remove a = t := by
  rw [remove, Function.update_idem, ← h, Function.update_eq_self]

@[simp] theorem place_place : (t.place a x).place a y = t.place a y := Function.update_idem _ _ t

theorem place_comm (h : a ≠ b) : (t.place a x).place b y = (t.place b y).place a x :=
  Function.update_comm h (some x) (some y) t

@[simp] theorem place_self : t.place a x a = some x := Function.update_self a (some x) t

theorem place_ne (h : b ≠ a) : t.place a x b = t b := Function.update_of_ne h (some x) t

theorem place_cases {o : ℕ} (h : t.place a x o = some y) :
    o = a ∧ x = y ∨ o ≠ a ∧ t o = some y := by
  rcases eq_or_ne o a with rfl | ho
  · exact .inl ⟨rfl, Option.some.inj (t.place_self ▸ h)⟩
  · rw [place_ne ho] at h
    exact .inr ⟨ho, h⟩

end Table

open Table

variable {t u : Table} {a lo hi mid : ℕ} {x : Entry}

theorem Fits.mono {lo' hi' : ℕ} (h : Fits t lo hi) (hlo : lo ≤ lo') (hhi : hi' ≤ hi) :
    Fits t lo' hi' := fun o x hx ↦ by
  rcases h o x hx with h | h <;> omega

/-- Two stretches side by side are free when each of them is. -/
theorem Fits.glue (hpos : ∀ o x, t o = some x → 0 < x.size) (h₁ : Fits t lo mid)
    (h₂ : Fits t mid hi) : Fits t lo hi := fun o x hx ↦ by
  have := hpos o x hx
  rcases h₁ o x hx with h₁ | h₁ <;> rcases h₂ o x hx with h₂ | h₂ <;> omega

theorem Fits.place (h : Fits t lo hi) (hx : a + x.size ≤ lo ∨ hi ≤ a) :
    Fits (t.place a x) lo hi := fun o y hy ↦ by
  rcases place_cases hy with ⟨rfl, rfl⟩ | ⟨-, hy⟩
  · exact hx
  · exact h o y hy

theorem NoOverlap.place (h : NoOverlap t) (hx : Fits t a (a + x.size)) :
    NoOverlap (t.place a x) := fun b c y z hy hz hbc ↦ by
  rcases place_cases hy with ⟨rfl, rfl⟩ | ⟨-, hb⟩ <;>
    rcases place_cases hz with ⟨rfl, rfl⟩ | ⟨-, hc⟩
  · exact absurd rfl hbc
  · exact (hx c z hc).symm
  · exact hx b y hb
  · exact h b c y z hb hc hbc

/-- Nothing starts in a free stretch. -/
theorem Fits.vacant (h : Fits t lo hi) (hpos : ∀ o x, t o = some x → 0 < x.size) (hlo : lo ≤ a)
    (hhi : a < hi) : t a = none := by
  rcases hx : t a with - | x
  · rfl
  · have := hpos a x hx
    rcases h a x hx with h | h <;> omega

theorem Keeps.place (h : Keeps t u) (ha : t a = none) : Keeps t (u.place a x) := fun o y hy ↦ by
  have ho : o ≠ a := by rintro rfl; rw [ha] at hy; cases hy
  rw [place_ne ho]
  exact h o y hy

theorem Keeps.refl (t : Table) : Keeps t t := fun _ _ h ↦ h

/-! ## What a step leaves alone -/

/-- The offsets of the partitions a step is about. -/
def Step.offsets : Step → List ℕ
  | .copyStartup _ dst => [dst.offset]
  | .hand src dst => [src, dst]
  | .shrink o _ | .create o _ | .seal o | .join o | .leave o | .retire o | .delete o
  | .grow o _ | .rename o _ | .settle o _ | .discard o _ => [o]
  | .forgetStartEntry _ | .removeFolder _ => []

/-- A step changes no partition but those it is about. -/
theorem Step.onTable_frame (step : Step) {o : ℕ} (h : o ∉ step.offsets) :
    step.onTable t o = t o := by
  cases step with
  | copyStartup src dst =>
    have ho : o ≠ dst.offset := by simpa [offsets] using h
    rw [onTable]
    split
    · rfl
    · rw [change_ne ho, add_ne ho]
  | hand src dst =>
    obtain ⟨hsrc, hdst⟩ : o ≠ src ∧ o ≠ dst := by simpa [offsets] using h
    rw [onTable, change_ne hsrc, change_ne hdst]
  | create c size => exact add_ne (by simpa [offsets] using h)
  | delete c => exact Function.update_of_ne (by simpa [offsets] using h) _ t
  | discard c uuid =>
    rw [onTable]
    split
    · exact Function.update_of_ne (by simpa [offsets] using h) _ t
    · rfl
  | leave c => rfl
  | forgetStartEntry number => rfl
  | removeFolder folder => rfl
  | _ => exact change_ne (by simpa [offsets] using h)

theorem after_frame {steps : List Step} {o : ℕ} (h : ∀ step ∈ steps, o ∉ step.offsets) :
    Runs.after Step.onTable steps t o = t o := by
  induction steps generalizing t with
  | nil => rfl
  | cons step steps ih =>
    rw [Runs.after_cons, ih fun s hs ↦ h s (List.mem_cons_of_mem step hs)]
    exact step.onTable_frame (h step List.mem_cons_self)

end Mover
