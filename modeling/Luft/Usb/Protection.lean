import Luft.Usb.Sysfs

/-!
# The USB guard

The daemon guards while it is turned on and the screen is locked.  While it guards, every bus holds
new devices, keyboards, mice and hubs are let in as they are announced, and what has to wait is in
`held`; when it stops guarding, everything in `held` is let in.

The functions are those of the source, over the state of the daemon with the devices it acts on.
After them comes what each does to the devices and to `held`: `mem_held_hold` for one device,
`holdWaiting_spec` for a look at all of them, `release_spec` for letting them in.
-/

set_option autoImplicit false

namespace Usb

/-- A device for people to read: its name after its place. -/
abbrev Named := String × Str

inductive Event
  | added (id : String)
  | removed (id : String)
  | missed
  deriving DecidableEq, Repr

structure Change where
  enabled : Bool
  guarding : Bool
  held : Bool
  released : List Named
  deriving DecidableEq, Repr

/-! ## Held devices -/

/-- An entry in the order of the places, in the place of an older one. -/
def insert (id : String) (name : Str) : List Named → List Named
  | [] => [(id, name)]
  | (other, old) :: held =>
    if id < other then (id, name) :: (other, old) :: held
    else if id = other then (id, name) :: held
    else (other, old) :: insert id name held

def remove (id : String) (held : List Named) : List Named := held.filter fun device ↦ device.1 ≠ id

/-- The places of devices. -/
def places (held : List Named) : List String := held.map Prod.fst

theorem mem_places_insert {id i : String} {name : Str} {held : List Named} :
    i ∈ places (insert id name held) ↔ i = id ∨ i ∈ places held := by
  induction held with
  | nil => simp [insert, places]
  | cons device held ih =>
    obtain ⟨other, old⟩ := device
    rw [insert]
    split
    · simp [places]
    · split
      · rename_i h
        simp [places, h]
      · simp only [places, List.map_cons, List.mem_cons] at ih ⊢
        rw [ih]
        tauto

theorem mem_places_filter {p : String → Bool} {i : String} {held : List Named} :
    i ∈ places (held.filter fun device ↦ p device.1) ↔ i ∈ places held ∧ p i := by
  simp only [places, List.mem_map, List.mem_filter]
  constructor
  · rintro ⟨device, ⟨hmem, hp⟩, rfl⟩
    exact ⟨⟨device, hmem, rfl⟩, hp⟩
  · rintro ⟨⟨device, hmem, rfl⟩, hp⟩
    exact ⟨device, ⟨hmem, hp⟩, rfl⟩

theorem mem_places_remove {id i : String} {held : List Named} :
    i ∈ places (remove id held) ↔ i ∈ places held ∧ i ≠ id := by
  rw [remove, mem_places_filter (p := fun i ↦ i ≠ id), decide_eq_true_eq]

/-! ## The daemon -/

structure Protection where
  enabled : Bool
  unlocked : Bool
  guarding : Bool
  held : List Named
  unclaimed : List Named
  deriving DecidableEq, Repr

/-- The protection with the choice it keeps on disk and the devices it acts on. -/
structure Daemon extends Protection where
  store : Bool
  sysfs : Sysfs

namespace Daemon

variable (s : Daemon)

def shouldGuard : Bool := s.enabled && !s.unlocked

def hold (id : String) : Daemon :=
  let (admission, sysfs) := s.sysfs.admitUsablePart id
  { s with
    sysfs
    held := match admission with
      | .waiting => insert id (sysfs.name id) s.held
      | .complete => remove id s.held }

def welcome (id : String) : Daemon :=
  if isRootHub id then { s with sysfs := s.sysfs.holdNewDevicesOn id } else s.hold id

/-- `usb::waiting().for_each(|id| self.hold(&id))` -/
def holdWaiting (ids : List String) : Daemon :=
  ids.foldl (fun s id ↦ if s.sysfs.isWaiting id then s.hold id else s) s

def catchUp : Daemon :=
  let s := { s with held := s.held.filter fun device ↦ s.sysfs.present device.1 }
  if s.guarding then s.holdWaiting s.sysfs.ids else s

def release : List Named × Daemon :=
  (s.held,
    { s with
      held := []
      sysfs := (places s.held).foldl Sysfs.admitWhole s.sysfs.welcomeNewDevices })

def settle : List Named × Daemon :=
  let guarding := s.shouldGuard
  if guarding = s.guarding then ([], s)
  else
    let s := { s with guarding }
    if guarding then ([], { s with unclaimed := [], sysfs := s.sysfs.holdNewDevices })
    else
      let (released, s) := s.release
      (released, { s with unclaimed := s.unclaimed ++ released })

def track (apply : Daemon → List Named × Daemon) : Change × Daemon :=
  let (released, after) := apply s
  ({ enabled := s.enabled ≠ after.enabled, guarding := s.guarding ≠ after.guarding
     held := s.held ≠ after.held, released }, after)

def setUnlocked (unlocked : Bool) : Change × Daemon :=
  s.track fun s ↦ { s with unlocked }.settle

/-- `saves` tells whether the choice can be written down. -/
def setEnabled (enabled saves : Bool) : Option Change × Daemon :=
  if saves then
    let (change, s) := { s with store := enabled }.track fun s ↦ { s with enabled }.settle
    (some change, s)
  else (none, s)

def handle (event : Event) : Change × Daemon :=
  s.track fun s ↦ ([],
    match event with
    | .added id => if s.guarding then s.welcome id else s
    | .removed id => { s with held := remove id s.held }
    | .missed => s.catchUp)

def takeReleased : List Named × Daemon := (s.unclaimed, { s with unclaimed := [] })

def stop : Daemon := if s.guarding then s.release.2 else s

/-- `Protection::start` -/
def start (store : Bool) (sysfs : Sysfs) (unlocked : Bool) : Daemon :=
  let s : Daemon :=
    { enabled := store, unlocked, guarding := false, held := [], unclaimed := [], store, sysfs }
  let waiting := sysfs.waiting
  if s.shouldGuard then
    waiting.foldl hold { s with guarding := true, sysfs := sysfs.holdNewDevices }
  else { s with sysfs := waiting.foldl Sysfs.admitWhole sysfs.welcomeNewDevices }

/-! ## Holding one device -/

section Hold

variable (id : String)

@[simp] theorem hold_guarding : (s.hold id).guarding = s.guarding := rfl

theorem hold_sysfs : (s.hold id).sysfs = (s.sysfs.admitUsablePart id).2 := rfl

@[simp] theorem hold_defaults : (s.hold id).sysfs.defaults = s.sysfs.defaults := by
  rw [hold_sysfs, Sysfs.admitUsablePart_defaults]

theorem hold_device (i : String) : (s.hold id).sysfs.device i =
    if i = id then (s.sysfs.device i).map s.sysfs.usablePart else s.sysfs.device i := by
  rw [hold_sysfs, Sysfs.admitUsablePart_device]

/-- **A device is held while something of it waits.** -/
theorem mem_held_hold (i : String) : i ∈ places (s.hold id).held ↔
    if i = id then (s.hold id).sysfs.isWaiting id = true else i ∈ places s.held := by
  rw [hold_sysfs, ← Sysfs.admitUsablePart_eq_waiting]
  simp only [hold]
  split
  · rename_i h
    rw [mem_places_insert, h]
    by_cases hi : i = id <;> simp [hi]
  · rename_i h
    rw [mem_places_remove, h]
    by_cases hi : i = id <;> simp [hi]

end Hold

/-- Devices were held one after the other, those `t` has left out of account. -/
structure Holding (s t : Daemon) : Prop where
  guarding : t.guarding = s.guarding
  defaults : t.sysfs.defaults = s.sysfs.defaults
  present : ∀ i, t.sysfs.present i = s.sysfs.present i
  waiting : ∀ i, t.sysfs.isWaiting i → s.sysfs.isWaiting i
  lists : ∀ i, (s.sysfs.isWaiting i → i ∈ places s.held) →
    t.sysfs.isWaiting i → i ∈ places t.held
  waits : ∀ i, (i ∈ places s.held → s.sysfs.isWaiting i) →
    i ∈ places t.held → t.sysfs.isWaiting i
  device : ∀ P : Device → Prop, (∀ d, P d → P (s.sysfs.usablePart d)) →
    ∀ i, (∀ d, s.sysfs.device i = some d → P d) → ∀ d, t.sysfs.device i = some d → P d

namespace Holding

variable {s t u : Daemon}

theorem refl (s : Daemon) : Holding s s where
  guarding := rfl
  defaults := rfl
  present _ := rfl
  waiting _ h := h
  lists _ h := h
  waits _ h := h
  device _ _ _ h := h

theorem trans (hst : Holding s t) (htu : Holding t u) : Holding s u where
  guarding := htu.guarding.trans hst.guarding
  defaults := htu.defaults.trans hst.defaults
  present i := (htu.present i).trans (hst.present i)
  waiting i h := hst.waiting i (htu.waiting i h)
  lists i h := htu.lists i (hst.lists i h)
  waits i h := htu.waits i (hst.waits i h)
  device P hP i h := by
    refine htu.device P ?_ i (hst.device P hP i h)
    rw [Sysfs.usablePart_congr hst.defaults]
    exact hP

theorem hold (s : Daemon) (id : String) : Holding s (s.hold id) where
  guarding := rfl
  defaults := s.hold_defaults id
  present i := by
    rw [Sysfs.present, hold_device, Sysfs.present]
    split
    · exact Option.isSome_map
    · rfl
  waiting i h := by
    rw [Sysfs.isWaiting, hold_device] at h
    rw [Sysfs.isWaiting]
    split at h
    · rcases hd : s.sysfs.device i with - | d
      · rw [hd] at h
        exact h
      · rw [hd, Option.map_some, Option.any_some] at h
        by_contra hwaiting
        rw [Option.any_some, Bool.not_eq_true] at hwaiting
        rw [s.sysfs.usablePart_waiting hwaiting] at h
        cases h
    · exact h
  lists i h hwaiting := by
    rw [mem_held_hold]
    by_cases hi : i = id
    · rw [if_pos hi]
      exact hi ▸ hwaiting
    · rw [if_neg hi]
      rw [Sysfs.isWaiting, hold_device, if_neg hi] at hwaiting
      exact h hwaiting
  waits i h hmem := by
    rw [mem_held_hold] at hmem
    by_cases hi : i = id
    · rw [if_pos hi] at hmem
      exact hi ▸ hmem
    · rw [if_neg hi] at hmem
      rw [Sysfs.isWaiting, hold_device, if_neg hi]
      exact h hmem
  device P hP i h d hd := by
    rw [hold_device] at hd
    split at hd
    · obtain ⟨d, hbefore, rfl⟩ := Option.map_eq_some_iff.1 hd
      exact hP d (h d hbefore)
    · exact h d hd

theorem foldl {f : Daemon → String → Daemon} (hf : ∀ s id, Holding s (f s id)) (ids : List String)
    (s : Daemon) : Holding s (ids.foldl f s) := by
  induction ids generalizing s with
  | nil => exact .refl s
  | cons id ids ih => exact (hf s id).trans (ih (f s id))

/-- Every device that was looked at is listed if it still waits. -/
theorem foldl_lists {f : Daemon → String → Daemon} (hf : ∀ s id, Holding s (f s id))
    (hlists : ∀ s id, (f s id).sysfs.isWaiting id → id ∈ places (f s id).held)
    {ids : List String} (s : Daemon) {i : String} (hi : i ∈ ids)
    (hwaiting : (ids.foldl f s).sysfs.isWaiting i) : i ∈ places (ids.foldl f s).held := by
  induction ids generalizing s with
  | nil => cases hi
  | cons id ids ih =>
    rw [List.foldl_cons] at hwaiting ⊢
    rcases List.mem_cons.1 hi with rfl | hi
    · exact (foldl hf ids (f s i)).lists i (hlists s i) hwaiting
    · exact ih (f s id) hi hwaiting

end Holding

theorem hold_lists (id : String) (h : (s.hold id).sysfs.isWaiting id) :
    id ∈ places (s.hold id).held := by
  rw [mem_held_hold, if_pos rfl]
  exact h

/-! ## Holding all that waits -/

theorem holding_step (s : Daemon) (id : String) :
    Holding s (if s.sysfs.isWaiting id then s.hold id else s) := by
  split
  · exact .hold s id
  · exact .refl s

theorem holding_holdWaiting (ids : List String) : Holding s (s.holdWaiting ids) :=
  .foldl holding_step ids s

/-- **Whatever still waits after a look at every device is held.** -/
theorem mem_held_holdWaiting {i : String} (h : (s.holdWaiting s.sysfs.ids).sysfs.isWaiting i) :
    i ∈ places (s.holdWaiting s.sysfs.ids).held := by
  have hi : i ∈ s.sysfs.ids := by
    have hbefore := (s.holding_holdWaiting _).waiting i h
    rw [s.sysfs.mem_ids]
    exact Option.isSome_of_any hbefore
  refine Holding.foldl_lists holding_step (fun s id hwaiting ↦ ?_) s hi h
  by_cases hid : s.sysfs.isWaiting id
  · rw [if_pos hid] at hwaiting ⊢
    exact s.hold_lists id hwaiting
  · rw [if_neg hid] at hwaiting
    exact absurd hwaiting hid

/-! ## Letting everything in -/

theorem release_present (i : String) : s.release.2.sysfs.present i = s.sysfs.present i := by
  rw [release, Sysfs.admitAll_present, Sysfs.present, Sysfs.welcomeNewDevices_device, Sysfs.present]

/-- **What was held does not wait any more.** -/
theorem release_isWaiting (i : String) :
    s.release.2.sysfs.isWaiting i = (s.sysfs.isWaiting i && i ∉ places s.held) := by
  rw [release, Sysfs.admitAll_isWaiting, Sysfs.isWaiting, Sysfs.welcomeNewDevices_device,
    Sysfs.isWaiting]

theorem release_defaults {i : String} (hi : s.sysfs.present i) (hroot : isRootHub i) :
    (s.release.2.sysfs.defaults i).interface_authorized_default = true := by
  rw [release, Sysfs.admitAll_defaults]
  exact Sysfs.welcomeNewDevices_defaults _ hi hroot

/-! ## Starting -/

/-- The guard starts up, or lets everything in. -/
theorem start_cases (store : Bool) (sysfs : Sysfs) (unlocked : Bool) :
    (∃ s, Holding s (start store sysfs unlocked) ∧ s.guarding ∧ s.held = [] ∧
      s.sysfs = sysfs.holdNewDevices ∧ ∀ i, (start store sysfs unlocked).sysfs.isWaiting i →
        i ∈ places (start store sysfs unlocked).held) ∨
    ((start store sysfs unlocked).guarding = false ∧ (start store sysfs unlocked).held = [] ∧
      (start store sysfs unlocked).sysfs =
        sysfs.waiting.foldl Sysfs.admitWhole sysfs.welcomeNewDevices) := by
  let s : Daemon :=
    { enabled := store, unlocked, guarding := true, held := [], unclaimed := [], store
      sysfs := sysfs.holdNewDevices }
  by_cases hguard : (store && !unlocked) = true
  · left
    have hstart : start store sysfs unlocked = sysfs.waiting.foldl hold s := if_pos hguard
    have hhold := Holding.foldl Holding.hold sysfs.waiting s
    rw [hstart]
    refine ⟨s, hhold, rfl, rfl, rfl, fun i hi ↦ ?_⟩
    refine Holding.foldl_lists Holding.hold (fun s id ↦ s.hold_lists id) s ?_ hi
    have hbefore : sysfs.isWaiting i := by
      have := hhold.waiting i hi
      rwa [Sysfs.isWaiting, Sysfs.holdNewDevices_device] at this
    rw [Sysfs.waiting, List.mem_filter, sysfs.mem_ids]
    exact ⟨Option.isSome_of_any hbefore, hbefore⟩
  · right
    have hstart : start store sysfs unlocked = { s with
        guarding := false
        sysfs := sysfs.waiting.foldl Sysfs.admitWhole sysfs.welcomeNewDevices } := if_neg hguard
    rw [hstart]
    exact ⟨rfl, rfl, rfl⟩

/-- The guard stays as it is, goes up or comes down. -/
theorem settle_cases :
    (s.settle.2.guarding = s.guarding ∧ s.settle.2.sysfs = s.sysfs ∧ s.settle.2.held = s.held) ∨
    (s.guarding = false ∧ s.settle.2.guarding = true ∧
      s.settle.2.sysfs = s.sysfs.holdNewDevices ∧ s.settle.2.held = s.held) ∨
    (s.guarding = true ∧ s.shouldGuard = false ∧ s.settle.2.guarding = false ∧
      s.settle.2.sysfs = s.release.2.sysfs ∧ s.settle.2.held = []) := by
  unfold settle
  by_cases h : s.shouldGuard = s.guarding
  · rw [if_pos h]
    exact .inl ⟨rfl, rfl, rfl⟩
  · right
    rw [if_neg h]
    rcases hguarding : s.guarding with - | -
    · left
      rw [hguarding, Bool.not_eq_false] at h
      rw [h, if_pos rfl]
      exact ⟨rfl, rfl, rfl, rfl⟩
    · right
      rw [hguarding, Bool.not_eq_true] at h
      rw [h, if_neg Bool.false_ne_true]
      exact ⟨rfl, rfl, rfl, rfl, rfl⟩

end Daemon

end Usb
