import Luft.Usb.Protection

/-!
# The guard and the kernel

Devices come and go, and the guard learns of it later: the kernel queues an announcement for each,
or drops it when the queue is full and lets the guard know once that it missed some.  What is
dropped is told ahead of what is still queued.  The screen locks and unlocks and the guard is turned
on and off at any time in between.

A `System` is the daemon with the devices and with what is under way, and `step` one event of
either side.  Steps of the daemon are not cut into pieces.  Some fields are read by no step: they
say what happened so far.
-/

set_option autoImplicit false

namespace Usb

/-! ## The kernel's side -/

/-- Whether a device comes up authorised; `wired` is one built into the computer. -/
def Policy.authorizes (wired : Bool) : Policy → Bool
  | .nobody => false
  | .all => true
  | .internal => wired

namespace Sysfs

variable (k : Sysfs)

def add (id : String) (d : Device) (defaults : Defaults) (hroot : isRootHub id → d.waiting = false)
    (hbus : d.bus = id ∨ k.present d.bus) : Sysfs :=
  { k with
    ids := k.ids ++ [id]
    device := fun i ↦ if i = id then some d else k.device i
    defaults := fun i ↦ if i = id then defaults else k.defaults i
    mem_ids := by
      intro i
      rw [List.mem_append, List.mem_singleton, k.mem_ids]
      by_cases hi : i = id <;> simp [hi]
    bus_mem := by
      intro i e he
      by_cases hbusid : e.bus = id
      · rw [if_pos hbusid]
        rfl
      · rw [if_neg hbusid]
        by_cases hi : i = id
        · rw [if_pos hi, Option.some_inj] at he
          subst he
          exact hbus.resolve_left hbusid
        · rw [if_neg hi] at he
          exact k.bus_mem i e he
    root := by
      intro i e he hi
      by_cases hid : i = id
      · rw [if_pos hid, Option.some_inj] at he
        subst he
        exact hroot (hid ▸ hi)
      · rw [if_neg hid] at he
        exact k.root i e he hi }

section Add

variable {k} {id : String} {d : Device} {defaults : Defaults}
  {hroot : isRootHub id → d.waiting = false} {hbus : d.bus = id ∨ k.present d.bus} (i : String)

theorem add_device : (k.add id d defaults hroot hbus).device i =
    if i = id then some d else k.device i := rfl

theorem add_defaults : (k.add id d defaults hroot hbus).defaults i =
    if i = id then defaults else k.defaults i := rfl

theorem add_present :
    (k.add id d defaults hroot hbus).present i = (decide (i = id) || k.present i) := by
  rw [present, add_device]
  by_cases hi : i = id <;> simp [hi, present]

end Add

/-- A device on a bus that is there is not on the one that comes up. -/
theorem bus_ne {id i : String} {d : Device} (hid : k.present id = false)
    (hd : k.device i = some d) : d.bus ≠ id := by
  rintro rfl
  have := k.bus_mem i d hd
  rw [present] at hid
  rw [hid] at this
  cases this

/-- No other device is connected below this one. -/
def idle (id : String) : Bool :=
  k.ids.all fun i ↦ i = id || (k.device i).all fun d ↦ d.bus ≠ id

theorem bus_ne_of_idle {id i : String} {d : Device} (h : k.idle id) (hd : k.device i = some d)
    (hi : i ≠ id) : d.bus ≠ id := by
  have hmem : i ∈ k.ids := (k.mem_ids i).2 (by rw [hd]; rfl)
  have := List.all_eq_true.1 h i hmem
  simpa [hi, hd] using this

def erase (id : String) (h : k.idle id) : Sysfs :=
  { k with
    ids := k.ids.filter (· ≠ id)
    device := fun i ↦ if i = id then none else k.device i
    mem_ids := by
      intro i
      rw [List.mem_filter, k.mem_ids]
      by_cases hi : i = id <;> simp [hi]
    bus_mem := by
      intro i d hd
      by_cases hi : i = id
      · rw [if_pos hi] at hd
        cases hd
      · rw [if_neg hi] at hd
        rw [if_neg (k.bus_ne_of_idle h hd hi)]
        exact k.bus_mem i d hd
    root := by
      intro i d hd hroot
      by_cases hi : i = id
      · rw [if_pos hi] at hd
        cases hd
      · rw [if_neg hi] at hd
        exact k.root i d hd hroot }

theorem erase_device {id : String} (h : k.idle id) (i : String) :
    (k.erase id h).device i = if i = id then none else k.device i := rfl

theorem device_of_erase {id i : String} (h : k.idle id) {d : Device}
    (hd : (k.erase id h).device i = some d) : i ≠ id ∧ k.device i = some d := by
  rw [erase_device] at hd
  by_cases hi : i = id
  · rw [if_pos hi] at hd
    cases hd
  · rw [if_neg hi] at hd
    exact ⟨hi, hd⟩

/-- A root hub as it comes up: authorised, with hub interfaces that are. -/
def rootHub (id : String) (d : Device) : Device :=
  { d with
    bus := id
    authorized := true
    interfaces := d.configuration.map fun (name, _) ↦
      { name, bInterfaceClass := some "09".toList, authorized := true } }

theorem rootHub_waiting (id : String) (d : Device) : (rootHub id d).waiting = false := by
  rw [Device.waiting, rootHub, Bool.not_true, Bool.false_or, List.any_map, List.any_eq_false]
  intro interface _
  simp

/-- A device as it comes up, by the defaults of its bus. -/
def plugged (d : Device) (wired : Bool) : Device :=
  if (k.defaults d.bus).authorized_default.authorizes wired then
    d.authorize (k.interfaceDefault d)
  else { d with authorized := false, interfaces := [] }

theorem plugged_bus (d : Device) (wired : Bool) : (k.plugged d wired).bus = d.bus := by
  unfold plugged
  split <;> rfl

/-- Whether the bus holds new devices. -/
def holds (bus : String) : Bool := k.defaults bus = .hold

theorem plugged_of_holds {d : Device} (h : k.holds d.bus) (wired : Bool) :
    k.plugged d wired = { d with authorized := false, interfaces := [] } := by
  rw [holds, decide_eq_true_eq] at h
  rw [plugged, h]
  rfl

end Sysfs

namespace Sysfs

/-- A computer with nothing connected, not even a bus. -/
def bare : Sysfs where
  ids := []
  device _ := none
  defaults _ := .hold
  parameter := none
  mem_ids _ := by simp
  bus_mem _ _ h := by cases h
  root _ _ h := by cases h

end Sysfs

/-- A drive with one interface, for storage. -/
def drive (bus : String) : Device where
  bus
  descriptors := [9, 4, 0, 0, 2, 0x08, 0x06, 0x50, 0]
  configuration := [("1-1:1.0", some "08".toList)]
  manufacturer := none
  product := some "Drive".toList
  authorized := false
  interfaces := []

/-! ## What is under way -/

inductive Uevent
  | added (id : String)
  | removed (id : String)
  deriving DecidableEq, Repr

def Uevent.event : Uevent → Event
  | .added id => .added id
  | .removed id => .removed id

def Uevent.id : Uevent → String
  | .added id => id
  | .removed id => id

structure System extends Daemon where
  started : Bool
  /-- What the guard will be told, oldest first. -/
  pending : List Uevent
  /-- The guard will be told that it missed something. -/
  overrun : Bool
  /-- What was connected while the guard was up, since it last went up. -/
  arrived : List String
  /-- The root hubs that came up since then and whose announcement was not handled yet. -/
  fresh : List String
  /-- What was held back: by its bus when it came up, or by the guard. -/
  kept : List String
  /-- What the guard was told is there. -/
  known : List String

inductive Step
  /-- A root hub comes up. -/
  | appear (id : String) (device : Device) (policy : Policy) (lost : Bool)
  | plug (id : String) (device : Device) (wired lost : Bool)
  | unplug (id : String) (lost : Bool)
  | start (unlocked : Bool)
  /-- The guard handles the oldest announcement. -/
  | handle
  /-- The guard handles that it missed some. -/
  | missed
  | setUnlocked (unlocked : Bool)
  | setEnabled (enabled saves : Bool)
  | takeReleased

namespace System

variable (s : System)

/-- Before the guard starts. -/
def init (store : Bool) (sysfs : Sysfs) : System where
  enabled := store
  unlocked := false
  guarding := false
  held := []
  unclaimed := []
  store
  sysfs
  started := false
  pending := []
  overrun := false
  arrived := []
  fresh := []
  kept := []
  known := []

def announce (uevent : Uevent) (lost : Bool) : System :=
  if lost then { s with overrun := true } else { s with pending := s.pending ++ [uevent] }

/-- A device is not the one any more that was known by its place. -/
def forget (id : String) : System :=
  { s with
    arrived := s.arrived.filter (· ≠ id)
    kept := s.kept.filter (· ≠ id)
    known := s.known.filter (· ≠ id) }

/-- The daemon did something. -/
def act (d : Daemon) : System :=
  { s with
    toDaemon := d
    arrived := if s.guarding then s.arrived else []
    fresh := if s.guarding then s.fresh else []
    kept := s.kept ++ places d.held }

def appear (id : String) (device : Device) (policy : Policy) : System :=
  let s' := s.forget id
  { s' with
    sysfs := s.sysfs.add id (Sysfs.rootHub id device)
      { authorized_default := policy, interface_authorized_default := true }
      (fun _ ↦ Sysfs.rootHub_waiting id device) (.inl rfl)
    arrived := if s.guarding then id :: s'.arrived else s'.arrived
    fresh := if s.guarding then id :: s.fresh else s.fresh }

def plug (id : String) (device : Device) (wired : Bool) (hid : isRootHub id = false)
    (hbus : s.sysfs.present device.bus) : System :=
  let s' := s.forget id
  { s' with
    sysfs := s.sysfs.add id (s.sysfs.plugged device wired) (s.sysfs.defaults id)
      (fun h ↦ absurd h (by rw [hid]; exact Bool.false_ne_true))
      (.inr (by rw [Sysfs.plugged_bus]; exact hbus))
    arrived := if s.guarding then id :: s'.arrived else s'.arrived
    kept := if s.sysfs.holds device.bus then id :: s'.kept else s'.kept }

def handle : System :=
  match s.pending with
  | [] => s
  | uevent :: pending =>
    let s' := s.act (s.toDaemon.handle uevent.event).2
    { s' with
      pending
      fresh := match uevent with
        | .added id => s'.fresh.filter (· ≠ id)
        | .removed _ => s'.fresh
      known := match uevent with
        | .added id => id :: s.known
        | .removed id => s.known.filter (· ≠ id) }

def step : Step → System
  | .appear id device policy lost =>
    if s.sysfs.present id = false ∧ isRootHub id then
      (s.appear id device policy).announce (.added id) lost
    else s
  | .plug id device wired lost =>
    if h : s.sysfs.present id = false ∧ isRootHub id = false ∧ isRootHub device.bus ∧
        s.sysfs.present device.bus then
      (s.plug id device wired h.2.1 h.2.2.2).announce (.added id) lost
    else s
  | .unplug id lost =>
    if h : s.sysfs.present id ∧ s.sysfs.idle id then
      { s with sysfs := s.sysfs.erase id h.2 }.announce (.removed id) lost
    else s
  | .start unlocked =>
    if s.started then s
    else
      let s' := s.act (.start s.store s.sysfs unlocked)
      { s' with started := true, known := s.sysfs.ids, kept := s'.kept ++ s.sysfs.waiting }
  | .handle => if s.started then s.handle else s
  | .missed =>
    if s.started ∧ s.overrun then
      { s.act (s.toDaemon.handle .missed).2 with overrun := false, known := s.sysfs.ids }
    else s
  | .setUnlocked unlocked =>
    if s.started then s.act (s.toDaemon.setUnlocked unlocked).2 else s
  | .setEnabled enabled saves =>
    if s.started then s.act (s.toDaemon.setEnabled enabled saves).2 else s
  | .takeReleased => if s.started then s.act s.toDaemon.takeReleased.2 else s

/-! ## Fields after a device came -/

section Fields

variable {s} {id : String} {device : Device} {policy : Policy} {wired : Bool}
  {hid : isRootHub id = false} {hbus : s.sysfs.present device.bus}

theorem appear_fresh : (s.appear id device policy).fresh =
    if s.guarding then id :: s.fresh else s.fresh := rfl

theorem appear_arrived : (s.appear id device policy).arrived =
    if s.guarding then id :: s.arrived.filter (· ≠ id) else s.arrived.filter (· ≠ id) := rfl

theorem appear_device (i : String) : (s.appear id device policy).sysfs.device i =
    if i = id then some (Sysfs.rootHub id device) else s.sysfs.device i := rfl

theorem appear_defaults (i : String) : (s.appear id device policy).sysfs.defaults i =
    if i = id then { authorized_default := policy, interface_authorized_default := true }
    else s.sysfs.defaults i := rfl

theorem appear_present (i : String) : (s.appear id device policy).sysfs.present i =
    (decide (i = id) || s.sysfs.present i) := by
  rw [appear, Sysfs.add_present]

theorem plug_arrived : (s.plug id device wired hid hbus).arrived =
    if s.guarding then id :: s.arrived.filter (· ≠ id) else s.arrived.filter (· ≠ id) := rfl

theorem plug_kept : (s.plug id device wired hid hbus).kept =
    if s.sysfs.holds device.bus then id :: s.kept.filter (· ≠ id)
    else s.kept.filter (· ≠ id) := rfl

theorem plug_device (i : String) : (s.plug id device wired hid hbus).sysfs.device i =
    if i = id then some (s.sysfs.plugged device wired) else s.sysfs.device i := rfl

theorem plug_defaults : (s.plug id device wired hid hbus).sysfs.defaults = s.sysfs.defaults := by
  funext i
  by_cases hi : i = id
  · rw [hi]
    exact if_pos rfl
  · exact if_neg hi

theorem plug_present (i : String) : (s.plug id device wired hid hbus).sysfs.present i =
    (decide (i = id) || s.sysfs.present i) := by
  rw [plug, Sysfs.add_present]

end Fields

/-- Everything that happened was handled. -/
def Settled : Prop := s.started ∧ s.pending = [] ∧ s.overrun = false

/-- A step, for runs. -/
def next (step : Step) (s : System) : System := s.step step

end System

end Usb
