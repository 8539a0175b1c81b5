import Luft.Lib.Text
import Mathlib.Data.Option.Basic

/-!
# USB devices in sysfs

What the USB guard sees and writes under `/sys/bus/usb`.  Every device has an `authorized` switch,
and so has each of its interfaces; the interfaces are only there once the device is authorised.  A
bus is its root hub, whose two defaults say how new devices on the bus and their interfaces come up.

The guard reads what a device is from its descriptors (`interfaceClasses`) while it is not
authorised, and from its interfaces afterwards.  `admitUsablePart` and `admitWhole` act on one
device: `usablePart` and `admitted` say what becomes of it, and everything else stays as it is.
-/

set_option autoImplicit false

namespace Usb

open Text

abbrev Str := List Char

/-! ## Descriptors -/

def INTERFACE : UInt8 := 4
def INTERFACE_LENGTH : ℕ := 9
def CLASS_OFFSET : ℕ := 5

/-- The classes in the first `fuel` descriptors. -/
def classesFrom : ℕ → List UInt8 → List UInt8
  | 0, _ => []
  | _ + 1, [] => []
  | fuel + 1, length :: bytes =>
    if 2 ≤ length.toNat ∧ length.toNat ≤ bytes.length + 1 then
      let descriptor := (length :: bytes).take length.toNat
      let next := (length :: bytes).drop length.toNat
      if descriptor[1]? = some INTERFACE ∧ INTERFACE_LENGTH ≤ length.toNat then
        descriptor.getD CLASS_OFFSET 0 :: classesFrom fuel next
      else classesFrom fuel next
    else []

/-- The class of every interface, up to the first descriptor that is cut off. -/
def interfaceClasses (descriptors : List UInt8) : List UInt8 :=
  classesFrom descriptors.length descriptors

theorem classesFrom_of_le {fuel : ℕ} {bytes : List UInt8} (h : bytes.length ≤ fuel) :
    classesFrom fuel bytes = interfaceClasses bytes := by
  suffices hmore : ∀ n fuel (bytes : List UInt8), bytes.length ≤ n → n ≤ fuel →
      classesFrom fuel bytes = classesFrom n bytes from hmore bytes.length fuel bytes le_rfl h
  intro n
  induction n with
  | zero =>
    intro fuel bytes hbytes _
    rw [List.length_eq_zero_iff.1 (Nat.le_zero.1 hbytes)]
    cases fuel <;> rfl
  | succ n ih =>
    intro fuel bytes hbytes hfuel
    obtain ⟨fuel, rfl⟩ : ∃ more, fuel = more + 1 := ⟨fuel - 1, by omega⟩
    cases bytes with
    | nil => rfl
    | cons length bytes =>
      simp only [classesFrom]
      by_cases hlength : 2 ≤ length.toNat ∧ length.toNat ≤ bytes.length + 1
      · have hnext := ih fuel ((length :: bytes).drop length.toNat) (by
          rw [List.length_drop]
          omega) (by omega)
        rw [if_pos hlength, if_pos hlength, hnext]
      · rw [if_neg hlength, if_neg hlength]

/-- **A whole descriptor is read, and the rest after it.** -/
theorem interfaceClasses_append {length : UInt8} {bytes : List UInt8}
    (hlength : length.toNat = bytes.length + 1) (hne : bytes ≠ []) (rest : List UInt8) :
    interfaceClasses (length :: bytes ++ rest) =
      (if bytes[0]? = some INTERFACE ∧ INTERFACE_LENGTH ≤ length.toNat then
        [(length :: bytes).getD CLASS_OFFSET 0] else []) ++ interfaceClasses rest := by
  have htwo : 2 ≤ length.toNat ∧ length.toNat ≤ (bytes ++ rest).length + 1 := by
    have := List.length_pos_iff.2 hne
    rw [List.length_append]
    omega
  have htake : (length :: (bytes ++ rest)).take length.toNat = length :: bytes := by
    rw [hlength, List.take_succ_cons, List.take_left]
  have hdrop : (length :: (bytes ++ rest)).drop length.toNat = rest := by
    rw [hlength, List.drop_succ_cons, List.drop_left]
  rw [interfaceClasses, List.cons_append, List.length_cons, classesFrom, if_pos htwo]
  simp only [htake, hdrop, List.getElem?_cons_succ]
  rw [classesFrom_of_le (by simp)]
  by_cases h : bytes[0]? = some INTERFACE ∧ INTERFACE_LENGTH ≤ length.toNat
  · rw [if_pos h, if_pos h, List.singleton_append]
  · rw [if_neg h, if_neg h, List.nil_append]

/-! ## Devices and interfaces -/

def HID : UInt8 := 0x03
def HUB : UInt8 := 0x09

def usableWhileLocked (cls : UInt8) : Bool := cls = HID || cls = HUB

def digit16 (c : Char) : Option ℕ :=
  if '0' ≤ c ∧ c ≤ '9' then some (c.toNat - '0'.toNat)
  else if 'a' ≤ c ∧ c ≤ 'f' then some (c.toNat - 'a'.toNat + 10)
  else if 'A' ≤ c ∧ c ≤ 'F' then some (c.toNat - 'A'.toNat + 10)
  else none

/-- `u8::from_str_radix(text, 16)` -/
def fromStrRadix16 (text : Str) : Option UInt8 :=
  let digits := if text.head? = some '+' then text.tail else text
  if digits = [] then none
  else (digits.mapM digit16).bind fun digits ↦
    let value := digits.foldl (fun n digit ↦ 16 * n + digit) 0
    if value < 256 then some (UInt8.ofNat value) else none

/-- What is read from an attribute. -/
def read (value : Option Str) : Option Str := (value.map trim).filter (· ≠ [])

structure Interface where
  name : String
  bInterfaceClass : Option Str
  authorized : Bool
  deriving DecidableEq, Repr

def Interface.class (i : Interface) : Option UInt8 := (read i.bInterfaceClass).bind fromStrRadix16

/-- `interface.class().is_some_and(usable_while_locked)` -/
def Interface.usable (i : Interface) : Bool := i.class.any usableWhileLocked

/-- The values of `authorized_default`: `0`, `1` and `2`. -/
inductive Policy
  | nobody
  | all
  | internal
  deriving DecidableEq, Repr

structure Defaults where
  authorized_default : Policy
  interface_authorized_default : Bool
  deriving DecidableEq, Repr

/-- What a bus that holds new devices has. -/
def Defaults.hold : Defaults :=
  { authorized_default := .nobody, interface_authorized_default := false }

/-- `bus` is the root hub the device is connected below, and `configuration` what interfaces it gets
when it is authorised. -/
structure Device where
  bus : String
  descriptors : List UInt8
  configuration : List (String × Option Str)
  manufacturer : Option Str
  product : Option Str
  authorized : Bool
  interfaces : List Interface
  deriving DecidableEq, Repr

def isRootHub (id : String) : Bool := "usb".toList.isPrefixOf id.toList

namespace Device

variable (d : Device)

def name : Str :=
  match read d.manufacturer, read d.product with
  | some maker, some product =>
    if maker.isPrefixOf product then product else maker ++ ' ' :: product
  | none, some product => product
  | some maker, none => maker
  | none, none => "USB device".toList

def waiting : Bool := !d.authorized || d.interfaces.any fun i ↦ !i.authorized

/-- The kernel authorises the device and sets up its interfaces. -/
def authorize (interfaceDefault : Bool) : Device :=
  { d with
    authorized := true
    interfaces := d.configuration.map fun (name, bInterfaceClass) ↦
      { name, bInterfaceClass, authorized := interfaceDefault } }

/-- Authorise the interfaces that may be used while locked. -/
def authorizeUsable : Device :=
  { d with interfaces := d.interfaces.map fun i ↦
      if !i.authorized && i.usable then { i with authorized := true } else i }

/-- Authorise every interface. -/
def authorizeAll : Device :=
  { d with interfaces := d.interfaces.map fun i ↦ { i with authorized := true } }

variable {d}

theorem authorizeUsable_bus : d.authorizeUsable.bus = d.bus := rfl

theorem authorizeAll_bus : d.authorizeAll.bus = d.bus := rfl

theorem authorizeUsable_waiting (hd : d.waiting = false) : d.authorizeUsable.waiting = false := by
  rw [waiting, Bool.or_eq_false_iff] at hd ⊢
  refine ⟨hd.1, ?_⟩
  rw [List.any_eq_false] at hd ⊢
  intro i hi
  obtain ⟨j, hj, rfl⟩ := List.mem_map.1 hi
  have := hd.2 j hj
  split
  · simp
  · exact this

theorem authorizeAll_waiting (hd : d.waiting = false) : d.authorizeAll.waiting = false := by
  rw [waiting, Bool.or_eq_false_iff] at hd ⊢
  refine ⟨hd.1, ?_⟩
  rw [List.any_eq_false]
  intro i hi
  obtain ⟨j, -, rfl⟩ := List.mem_map.1 hi
  simp

end Device

/-! ## The tree -/

/-- The devices there are, with the order in which the directory lists them.  The kernel authorises
root hubs itself. -/
structure Sysfs where
  ids : List String
  device : String → Option Device
  defaults : String → Defaults
  /-- What `/sys/module/usbcore/parameters/authorized_default` holds. -/
  parameter : Option Str
  mem_ids : ∀ id, id ∈ ids ↔ (device id).isSome
  bus_mem : ∀ id d, device id = some d → (device d.bus).isSome
  root : ∀ id d, device id = some d → isRootHub id → d.waiting = false

namespace Sysfs

variable (k : Sysfs)

/-- Change a device in a way that leaves it on its bus and takes nothing back. -/
def update (id : String) (f : Device → Device) (hbus : ∀ d, (f d).bus = d.bus)
    (hwaiting : ∀ d, d.waiting = false → (f d).waiting = false) : Sysfs :=
  { k with
    device := fun i ↦ if i = id then (k.device i).map f else k.device i
    mem_ids := by
      intro i
      rw [k.mem_ids]
      by_cases hi : i = id
      · rw [if_pos hi, Option.isSome_map]
      · rw [if_neg hi]
    bus_mem := by
      have hsome : ∀ i, (if i = id then (k.device i).map f else k.device i).isSome =
          (k.device i).isSome := by
        intro i
        by_cases hi : i = id
        · rw [if_pos hi, Option.isSome_map]
        · rw [if_neg hi]
      intro i d hd
      rw [hsome]
      by_cases hi : i = id
      · rw [if_pos hi, Option.map_eq_some_iff] at hd
        obtain ⟨d, hd, rfl⟩ := hd
        rw [hbus]
        exact k.bus_mem i d hd
      · rw [if_neg hi] at hd
        exact k.bus_mem i d hd
    root := by
      intro i d hd hroot
      by_cases hi : i = id
      · rw [if_pos hi, Option.map_eq_some_iff] at hd
        obtain ⟨d, hd, rfl⟩ := hd
        exact hwaiting d (k.root i d hd hroot)
      · rw [if_neg hi] at hd
        exact k.root i d hd hroot }

@[simp] theorem update_defaults (id : String) (f : Device → Device) (hbus hwaiting) :
    (k.update id f hbus hwaiting).defaults = k.defaults := rfl

theorem update_device (id : String) (f : Device → Device) (hbus hwaiting) (i : String) :
    (k.update id f hbus hwaiting).device i =
      if i = id then (k.device i).map f else k.device i := rfl

/-! ## What the guard reads and writes -/

/-- `exists` -/
def present (id : String) : Bool := (k.device id).isSome

def name (id : String) : Str := (k.device id).elim "USB device".toList Device.name

/-- A device that is gone does not read as held back. -/
def isAuthorized (id : String) : Bool := (k.device id).elim true Device.authorized

def isWaiting (id : String) : Bool := (k.device id).any Device.waiting

def waiting : List String := k.ids.filter k.isWaiting

def interfaceDefault (d : Device) : Bool := (k.defaults d.bus).interface_authorized_default

def authorize (id : String) : Sysfs :=
  k.update id (fun d ↦ if d.authorized then d else d.authorize (k.interfaceDefault d))
    (by
      intro d
      split <;> rfl)
    (by
      intro d hd
      rw [Device.waiting, Bool.or_eq_false_iff, Bool.not_eq_false'] at hd
      rw [if_pos hd.1, Device.waiting, hd.1, hd.2]
      rfl)

inductive Admission
  | complete
  | waiting
  deriving DecidableEq, Repr

/-- Let the interfaces in that may be used while locked. -/
def admitInterfaces (id : String) : Admission × Sysfs :=
  (if (k.device id).any fun d ↦ d.interfaces.any fun i ↦ !i.authorized && !i.usable then .waiting
    else .complete,
   k.update id Device.authorizeUsable (fun _ ↦ Device.authorizeUsable_bus)
    fun _ ↦ Device.authorizeUsable_waiting)

def admitUsablePart (id : String) : Admission × Sysfs :=
  match k.device id with
  | none => (.complete, k)
  | some d =>
    if !d.authorized then
      if !(interfaceClasses d.descriptors).any usableWhileLocked then (.waiting, k)
      else (k.authorize id).admitInterfaces id
    else k.admitInterfaces id

/-- `admit`: let the whole device in. -/
def admitWhole (id : String) : Sysfs :=
  (if !k.isAuthorized id then k.authorize id else k).update id Device.authorizeAll
    (fun _ ↦ Device.authorizeAll_bus) fun _ ↦ Device.authorizeAll_waiting

/-- Write the defaults of a bus, which fails if it is gone. -/
def setDefaults (bus : String) (defaults : Defaults) : Sysfs :=
  if k.present bus then
    { k with defaults := fun i ↦ if i = bus then defaults else k.defaults i }
  else k

def holdNewDevicesOn (bus : String) : Sysfs := k.setDefaults bus .hold

def systemPolicy : Policy :=
  match k.parameter.map trim with
  | some ['0'] => .nobody
  | some ['2'] => .internal
  | _ => .all

def welcomeNewDevicesOn (bus : String) : Sysfs :=
  k.setDefaults bus
    { authorized_default := k.systemPolicy, interface_authorized_default := true }

/-- `Bus::all` -/
def buses : List String := k.ids.filter isRootHub

def holdNewDevices : Sysfs := k.buses.foldl holdNewDevicesOn k

def welcomeNewDevices : Sysfs := k.buses.foldl welcomeNewDevicesOn k

/-! ## What becomes of a device -/

/-- A device after `admitUsablePart`. -/
def usablePart (d : Device) : Device :=
  if !d.authorized && !(interfaceClasses d.descriptors).any usableWhileLocked then d
  else (if d.authorized then d else d.authorize (k.interfaceDefault d)).authorizeUsable

/-- A device after `admitWhole`. -/
def admitted (d : Device) : Device :=
  (if d.authorized then d else d.authorize (k.interfaceDefault d)).authorizeAll

theorem usablePart_congr {k k' : Sysfs} (h : k.defaults = k'.defaults) :
    k.usablePart = k'.usablePart := by
  funext d
  rw [usablePart, usablePart, interfaceDefault, interfaceDefault, h]

/-- What was let in stays in. -/
theorem usablePart_waiting {d : Device} (hd : d.waiting = false) :
    (k.usablePart d).waiting = false := by
  have ha : d.authorized := by
    rw [Device.waiting, Bool.or_eq_false_iff, Bool.not_eq_false'] at hd
    exact hd.1
  rw [usablePart, ha]
  exact Device.authorizeUsable_waiting hd

theorem usablePart_bus (d : Device) : (k.usablePart d).bus = d.bus := by
  unfold usablePart
  split
  · rfl
  · split <;> rfl

theorem admitInterfaces_device (id i : String) : (k.admitInterfaces id).2.device i =
    if i = id then (k.device i).map Device.authorizeUsable else k.device i := rfl

theorem authorize_device (id i : String) : (k.authorize id).device i =
    if i = id then
      (k.device i).map fun d ↦ if d.authorized then d else d.authorize (k.interfaceDefault d)
    else k.device i := rfl

theorem admitUsablePart_device (id i : String) : (k.admitUsablePart id).2.device i =
    if i = id then (k.device i).map k.usablePart else k.device i := by
  unfold admitUsablePart
  rcases hd : k.device id with - | d
  · by_cases hi : i = id
    · rw [if_pos hi, hi, hd, Option.map_none]
    · rw [if_neg hi]
  by_cases hi : i = id
  · subst hi
    rw [if_pos rfl, hd, Option.map_some, usablePart]
    by_cases ha : d.authorized
    · simp only [ha, Bool.not_true, Bool.false_eq_true, if_false, if_true, Bool.false_and]
      rw [admitInterfaces_device, if_pos rfl, hd, Option.map_some]
    · by_cases hu : (interfaceClasses d.descriptors).any usableWhileLocked
      · simp only [ha, hu, Bool.not_true, Bool.not_false, Bool.false_eq_true, if_true, if_false,
          Bool.and_false]
        rw [admitInterfaces_device, if_pos rfl, authorize_device, if_pos rfl, hd, Option.map_some,
          Option.map_some, if_neg ha]
      · simp only [ha, hu, Bool.not_false, Bool.and_self, if_true]
        exact hd
  · rw [if_neg hi]
    dsimp only
    split
    · split
      · rfl
      · rw [admitInterfaces_device, if_neg hi, authorize_device, if_neg hi]
    · rw [admitInterfaces_device, if_neg hi]

@[simp] theorem admitUsablePart_defaults (id : String) :
    (k.admitUsablePart id).2.defaults = k.defaults := by
  unfold admitUsablePart
  split
  · rfl
  · split
    · split <;> rfl
    · rfl

/-- Whether something still waits after the interfaces that may be used were let in. -/
theorem waiting_authorizeUsable (d : Device) : d.authorizeUsable.waiting =
    (!d.authorized || d.interfaces.any fun i ↦ !i.authorized && !i.usable) := by
  rw [Device.waiting, Device.authorizeUsable, List.any_map]
  congr 2
  funext i
  rw [Function.comp_apply]
  split
  · rename_i h
    rw [Bool.and_eq_true] at h
    rw [h.2]
    simp
  · rename_i h
    rw [Bool.and_eq_true, not_and, Bool.not_eq_true] at h
    by_cases ha : i.authorized
    · rw [ha]
      rfl
    · rw [Bool.not_eq_true] at ha
      rw [ha, h (by rw [ha, Bool.not_false])]
      rfl

/-- **A device that is reported as waiting still waits, any other does not.** -/
theorem admitUsablePart_eq_waiting (id : String) :
    (k.admitUsablePart id).1 = .waiting ↔ (k.admitUsablePart id).2.isWaiting id := by
  have hinner : ∀ k : Sysfs, ∀ d, k.device id = some d → d.authorized →
      ((k.admitInterfaces id).1 = .waiting ↔ (k.admitInterfaces id).2.isWaiting id) := by
    intro k d hd ha
    rw [isWaiting, admitInterfaces_device, if_pos rfl, hd, Option.map_some, Option.any_some,
      waiting_authorizeUsable, ha, Bool.not_true, Bool.false_or, admitInterfaces, hd,
      Option.any_some]
    split <;> simp_all
  unfold admitUsablePart
  split
  · rename_i hd
    rw [isWaiting, hd]
    simp
  · rename_i d hd
    by_cases ha : d.authorized
    · rw [ha, Bool.not_true, if_neg Bool.false_ne_true]
      exact hinner k d hd ha
    · rw [Bool.not_eq_true] at ha
      rw [ha, Bool.not_false, if_pos rfl]
      split
      · rw [isWaiting, hd, Option.any_some, Device.waiting, ha]
        simp
      · refine hinner (k.authorize id) (d.authorize (k.interfaceDefault d)) ?_ rfl
        rw [authorize_device, if_pos rfl, hd, Option.map_some, ha, if_neg Bool.false_ne_true]

theorem admitWhole_device (id i : String) : (k.admitWhole id).device i =
    if i = id then (k.device i).map k.admitted else k.device i := by
  rw [admitWhole, update_device]
  by_cases hi : i = id
  · subst hi
    rw [if_pos rfl, if_pos rfl, isAuthorized]
    rcases hd : k.device i with - | d
    · simp [hd]
    · rw [Option.elim_some, Option.map_some, admitted]
      by_cases ha : d.authorized
      · simp [ha, hd]
      · simp [ha, authorize_device, hd]
  · rw [if_neg hi, if_neg hi]
    split
    · rw [authorize_device, if_neg hi]
    · rfl

@[simp] theorem admitWhole_defaults (id : String) : (k.admitWhole id).defaults = k.defaults := by
  rw [admitWhole, update_defaults]
  split <;> rfl

theorem waiting_admitted (d : Device) : (k.admitted d).waiting = false := by
  rw [admitted, Device.waiting, Device.authorizeAll, Bool.or_eq_false_iff]
  constructor
  · by_cases ha : d.authorized <;> simp [ha, Device.authorize]
  · rw [List.any_eq_false]
    intro i hi
    obtain ⟨j, -, rfl⟩ := List.mem_map.1 hi
    simp

theorem admitAll_defaults (ids : List String) : (ids.foldl admitWhole k).defaults = k.defaults := by
  induction ids generalizing k with
  | nil => rfl
  | cons id ids ih => rw [List.foldl_cons, ih, admitWhole_defaults]

theorem admitAll_present (ids : List String) (i : String) :
    (ids.foldl admitWhole k).present i = k.present i := by
  induction ids generalizing k with
  | nil => rfl
  | cons id ids ih =>
    rw [List.foldl_cons, ih, present, admitWhole_device, present]
    split
    · exact Option.isSome_map
    · rfl

theorem isWaiting_admitWhole (id i : String) :
    (k.admitWhole id).isWaiting i = (k.isWaiting i && i ≠ id) := by
  rw [isWaiting, admitWhole_device, isWaiting]
  by_cases hi : i = id
  · rw [if_pos hi]
    rcases k.device i with - | d
    · rfl
    · simp [waiting_admitted, hi]
  · rw [if_neg hi]
    simp [hi]

/-- **Nothing that was let in waits.** -/
theorem admitAll_isWaiting (ids : List String) (i : String) :
    (ids.foldl admitWhole k).isWaiting i = (k.isWaiting i && i ∉ ids) := by
  induction ids generalizing k with
  | nil => simp
  | cons id ids ih =>
    rw [List.foldl_cons, ih, isWaiting_admitWhole, Bool.and_assoc]
    congr 1
    by_cases hi : i = id <;> simp [hi]

/-! ## What becomes of a bus -/

@[simp] theorem setDefaults_device (bus : String) (defaults : Defaults) :
    (k.setDefaults bus defaults).device = k.device := by
  unfold setDefaults
  split <;> rfl

@[simp] theorem setDefaults_parameter (bus : String) (defaults : Defaults) :
    (k.setDefaults bus defaults).parameter = k.parameter := by
  unfold setDefaults
  split <;> rfl

theorem setDefaults_defaults (bus : String) (defaults : Defaults) (i : String) :
    (k.setDefaults bus defaults).defaults i =
      if i = bus ∧ k.present i then defaults else k.defaults i := by
  unfold setDefaults
  by_cases hbus : k.present bus
  · rw [if_pos hbus]
    by_cases hi : i = bus
    · subst hi
      rw [if_pos ⟨rfl, hbus⟩]
      exact if_pos rfl
    · rw [if_neg fun h ↦ hi h.1]
      exact if_neg hi
  · rw [if_neg hbus, if_neg]
    rintro ⟨rfl, h⟩
    exact hbus h

/-- **The same defaults for several buses.** -/
theorem foldl_setDefaults {f : Sysfs → String → Sysfs} {D : Option Str → Defaults}
    (hf : ∀ k bus, f k bus = k.setDefaults bus (D k.parameter)) (l : List String)
    (k : Sysfs) :
    (l.foldl f k).device = k.device ∧ (l.foldl f k).parameter = k.parameter ∧
      ∀ i, (l.foldl f k).defaults i =
        if i ∈ l ∧ k.present i then D k.parameter else k.defaults i := by
  induction l generalizing k with
  | nil => simp
  | cons bus l ih =>
    obtain ⟨hdevice, hparameter, hdefaults⟩ := ih (f k bus)
    rw [List.foldl_cons]
    refine ⟨?_, ?_, fun i ↦ ?_⟩
    · rw [hdevice, hf, setDefaults_device]
    · rw [hparameter, hf, setDefaults_parameter]
    · rw [hdefaults, hf, setDefaults_parameter, setDefaults_defaults, present, setDefaults_device,
        ← present]
      by_cases hpresent : k.present i
      · by_cases hl : i ∈ l
        · rw [if_pos ⟨hl, hpresent⟩, if_pos ⟨List.mem_cons_of_mem bus hl, hpresent⟩]
        · rw [if_neg fun h ↦ hl h.1]
          by_cases hi : i = bus
          · rw [if_pos ⟨hi, hpresent⟩, if_pos ⟨hi ▸ List.mem_cons_self, hpresent⟩]
          · rw [if_neg fun h ↦ hi h.1, if_neg]
            rintro ⟨h, -⟩
            exact (List.mem_cons.1 h).elim hi hl
      · rw [if_neg fun h ↦ hpresent h.2, if_neg fun h ↦ hpresent h.2,
          if_neg fun h ↦ hpresent h.2]

theorem mem_buses {i : String} : i ∈ k.buses ↔ k.present i ∧ isRootHub i := by
  rw [buses, List.mem_filter, k.mem_ids, present]

@[simp] theorem holdNewDevices_device : k.holdNewDevices.device = k.device :=
  (foldl_setDefaults (f := holdNewDevicesOn) (D := fun _ ↦ .hold) (fun _ _ ↦ rfl) k.buses k).1

theorem holdNewDevices_defaults {i : String} (hi : k.present i) (hroot : isRootHub i) :
    k.holdNewDevices.defaults i = .hold := by
  obtain ⟨-, -, hdefaults⟩ := foldl_setDefaults (f := holdNewDevicesOn) (D := fun _ ↦ .hold)
    (fun _ _ ↦ rfl) k.buses k
  rw [holdNewDevices, hdefaults, if_pos ⟨k.mem_buses.2 ⟨hi, hroot⟩, hi⟩]

/-- What `welcomeNewDevices` gives every bus. -/
def welcome : Defaults :=
  { authorized_default := k.systemPolicy, interface_authorized_default := true }

theorem welcomeNewDevices_spec : k.welcomeNewDevices.device = k.device ∧
    ∀ i, k.welcomeNewDevices.defaults i =
      if i ∈ k.buses ∧ k.present i then k.welcome else k.defaults i := by
  obtain ⟨hdevice, -, hdefaults⟩ := foldl_setDefaults (f := welcomeNewDevicesOn)
    (D := fun parameter ↦ { k with parameter }.welcome) (fun _ _ ↦ rfl) k.buses k
  exact ⟨hdevice, hdefaults⟩

@[simp] theorem welcomeNewDevices_device : k.welcomeNewDevices.device = k.device :=
  k.welcomeNewDevices_spec.1

theorem welcomeNewDevices_defaults {i : String} (hi : k.present i) (hroot : isRootHub i) :
    (k.welcomeNewDevices.defaults i).interface_authorized_default = true := by
  rw [k.welcomeNewDevices_spec.2, if_pos ⟨k.mem_buses.2 ⟨hi, hroot⟩, hi⟩, welcome]

end Sysfs

end Usb
