import Luft.Boot.Options
import Luft.Trust.EventLog

/-!
# What the register for Secure Boot will be

The register is a fold of the digests that were measured, so it can be told in advance: with the variables as they are
now (`next_secure_boot_pcr`), or with Luft's own key in place of the keys that shim has checked before
(`secure_boot_pcr_with_luft_key`).  `next_secure_boot_pcr_iff` says which events the first one needs and what it makes
of them; `secure_boot_pcr_with_luft_key_self` that the second one has nothing to do once the key is in use.
-/

set_option autoImplicit false

namespace Trust.EventLog

open Reader LittleEndian

def VARIABLE_AUTHORITY : ℕ := 0x800000e0

def SHIM_LOCK : Bytes :=
  [0x50, 0xab, 0x5d, 0x60, 0x46, 0xe0, 0x00, 0x43, 0xab, 0xb6, 0x3d, 0xd8, 0x10, 0xdd, 0x8b, 0x23]

def MOK_LIST : List Char := "MokListRT".toList

def SHIM_AUTHORITIES : List (List Char) := [MOK_LIST, "Shim".toList]

/-- What is asked: the log, the firmware's variables and the hash. -/
structure Machine where
  log : Option Bytes
  efi_variable : List Char → List Char → Option Bytes
  sha256 : Bytes → Sha256Digest

/-! ## As the source computes it -/

def hex (bytes : Bytes) : List Char := bytes.flatMap fun byte ↦ Boot.hexDigits 2 byte.toNat

def guid (bytes : Bytes) : List Char :=
  Boot.hexDigits 8 (ofLe (bytes.take 4)) ++ ['-'] ++ Boot.hexDigits 4 (ofLe ((bytes.drop 4).take 2)) ++ ['-'] ++
    Boot.hexDigits 4 (ofLe ((bytes.drop 6).take 2)) ++ ['-'] ++ hex ((bytes.drop 8).take 2) ++ ['-'] ++
    hex (bytes.drop 10)

/-- `units.checked_mul(2)`. -/
def doubled (units : ℕ) : Option ℕ := if units * 2 < 18446744073709551616 then some (units * 2) else none

def variable_of (measured : Bytes) : Option (Bytes × Bytes) :=
  let reader : Reader (Bytes × Bytes) := do
    let vendor ← take 16
    let name_units ← u64
    let _ ← u64
    let name ← take (← need (doubled name_units))
    pure (vendor, name)
  (reader measured).map Prod.fst

def zero : Sha256Digest := ⟨List.replicate 32 0, List.length_replicate⟩

section

variable (machine : Machine)

/-- What a variable has now; one that is not there has nothing. -/
def present (vendor name : Bytes) : Bytes := (machine.efi_variable (Boot.Options.text name) (guid vendor)).getD []

def with_value_now (measured : Bytes) : Option Bytes := do
  let (vendor, name) ← variable_of measured
  let value := present machine vendor name
  let now := measured.take (VARIABLE_HEADER + name.length)
  pure (now.take (16 + 8) ++ le 8 value.length ++ now.drop VARIABLE_HEADER ++ value)

def replay (digests : List Sha256Digest) : List Char :=
  hex (digests.foldl (fun pcr digest ↦ machine.sha256 (pcr.1 ++ digest.1)) zero).1

def events_matching (now : List Char) : Option (List Event) := do
  let events ← secure_boot_events (← machine.log)
  if replay machine (events.map Event.digest) = now then some events else none

def next_digest (event : Event) : Option Sha256Digest :=
  if event.kind ≠ VARIABLE_DRIVER_CONFIG then some event.digest
  else if machine.sha256 event.data = event.digest then (with_value_now machine event.data).map machine.sha256
  else none

def next_secure_boot_pcr (now : List Char) : Option (List Char) := do
  let events ← events_matching machine now
  let digests ← events.mapM (next_digest machine)
  some (replay machine digests)

def verified_by_shim (event : Event) : Bool :=
  event.kind = VARIABLE_AUTHORITY && (variable_of event.data).any fun found ↦
    found.1 = SHIM_LOCK && SHIM_AUTHORITIES.contains (Boot.Options.text found.2)

def authority (name : List Char) (data : Bytes) : Bytes :=
  let name := Utf16.toBytes (Utf16.encode name)
  SHIM_LOCK ++ (le 8 (name.length / 2) ++ (le 8 data.length ++ (name ++ data)))

def secure_boot_pcr_with_luft_key (now : List Char) (certificate : Bytes) (secure_boot : Bool) :
    Option (List Char) := do
  let events ← events_matching machine now
  let digests := (events.filter fun event ↦ !verified_by_shim event).map Event.digest
  some (replay machine
    (if secure_boot then digests ++ [machine.sha256 (authority MOK_LIST (SHIM_LOCK ++ certificate))] else digests))

end

/-! ## Measured variables -/

/-- A variable's vendor and name, of as many units of 16 bits. -/
structure Variable where
  vendor : Bytes
  name : Bytes
  units : ℕ
  vendor_length : vendor.length = 16
  name_length : name.length = units * 2
  units_lt : units * 2 < 18446744073709551616

namespace Variable

variable (measured : Variable)

/-- What is measured of the variable, with some length and some value. -/
def write (length value : Bytes) : Bytes := measured.vendor ++ (le 8 measured.units ++ (length ++ (measured.name ++ value)))

/-- What is measured of the variable with a value. -/
def measure (value : Bytes) : Bytes := measured.write (le 8 value.length) value

theorem variable_of_write {length : Bytes} (hlength : length.length = 8) (value : Bytes) :
    variable_of (measured.write length value) = some (measured.vendor, measured.name) := by
  have hunits : u64 (le 8 measured.units ++ (length ++ (measured.name ++ value))) =
      some (measured.units, length ++ (measured.name ++ value)) :=
    number_append (Nat.lt_of_le_of_lt (Nat.le_mul_of_pos_right _ Nat.two_pos) measured.units_lt) _
  have hsize : u64 (length ++ (measured.name ++ value)) = some (ofLe length, measured.name ++ value) := by
    rw [u64, number, take_append hlength]
    rfl
  have hdoubled : doubled measured.units = some (measured.units * 2) := if_pos measured.units_lt
  rw [variable_of, write, bind_eq (take_append measured.vendor_length _), bind_eq hunits, bind_eq hsize, hdoubled,
    bind_eq (need_some _ _), bind_eq (take_append measured.name_length _)]
  rfl

theorem eq_write {data vendor name : Bytes} (h : variable_of data = some (vendor, name)) :
    ∃ (measured : Variable) (length value : Bytes), length.length = 8 ∧ data = measured.write length value := by
  obtain ⟨⟨found, rest⟩, hread, -⟩ := Option.map_eq_some_iff.1 h
  obtain ⟨vendor', left, hvendor, h⟩ := bind_iff.1 hread
  obtain ⟨units, left, hunits, h⟩ := bind_iff.1 h
  obtain ⟨size, left, hsize, h⟩ := bind_iff.1 h
  obtain ⟨double, left, hdouble, h⟩ := bind_iff.1 h
  obtain ⟨name', left, hname, -⟩ := bind_iff.1 h
  obtain ⟨hvendor_length, rfl⟩ := take_eq_some hvendor
  obtain ⟨-, rfl⟩ := number_eq_some hunits
  obtain ⟨-, rfl⟩ := number_eq_some hsize
  obtain ⟨hdoubled, rfl⟩ := need_eq_some hdouble
  obtain ⟨hname_length, rfl⟩ := take_eq_some hname
  obtain ⟨hlt, hsome⟩ := Option.ite_none_right_eq_some.1 hdoubled
  obtain rfl := Option.some.inj hsome
  exact ⟨⟨vendor', name', units, hvendor_length, hname_length, hlt⟩, le 8 size, _, length_le _ _, rfl⟩

theorem with_value_now_write (machine : Machine) {length : Bytes} (hlength : length.length = 8) (value : Bytes) :
    with_value_now machine (measured.write length value) =
      some (measured.measure (present machine measured.vendor measured.name)) := by
  have hlengths : (measured.vendor ++ (le 8 measured.units ++ (length ++ measured.name))).length =
      VARIABLE_HEADER + measured.name.length := by
    simp only [List.length_append, length_le, measured.vendor_length, hlength, VARIABLE_HEADER]
    omega
  have htake : (measured.write length value).take (VARIABLE_HEADER + measured.name.length) =
      (measured.vendor ++ le 8 measured.units) ++ (length ++ measured.name) := by
    rw [write, ← List.append_assoc length, ← List.append_assoc (le 8 _), ← List.append_assoc measured.vendor,
      List.take_left' hlengths]
    simp only [List.append_assoc]
  have hfront : (measured.vendor ++ le 8 measured.units).length = 16 + 8 := by
    rw [List.length_append, measured.vendor_length, length_le]
  have hheader : ((measured.vendor ++ le 8 measured.units) ++ length).length = VARIABLE_HEADER := by
    rw [List.length_append, hfront, hlength]
    rfl
  rw [with_value_now, measured.variable_of_write hlength, Option.bind_eq_bind, Option.bind_some]
  dsimp only
  rw [htake, List.take_left' hfront, ← List.append_assoc _ length, List.drop_left' hheader, measure, write]
  simp only [List.append_assoc]
  rfl

end Variable

/-! ## What is told in advance -/

section

variable (machine : Machine)

/-- What an event's digest is when the variables have their present values. -/
inductive Renewed : Event → Sha256Digest → Prop
  | kept {event : Event} (hkind : event.kind ≠ VARIABLE_DRIVER_CONFIG) : Renewed event event.digest
  | measured {event : Event} (found : Variable) {length value : Bytes} (hkind : event.kind = VARIABLE_DRIVER_CONFIG)
      (hlength : length.length = 8) (hdata : event.data = found.write length value)
      (hdigest : event.digest = machine.sha256 event.data) :
      Renewed event (machine.sha256 (found.measure (present machine found.vendor found.name)))

/-- What a variable is measured with is what it has. -/
def Unchanged (event : Event) : Prop :=
  event.kind = VARIABLE_DRIVER_CONFIG → event.digest = machine.sha256 event.data ∧
    ∃ measured : Variable, event.data = measured.measure (present machine measured.vendor measured.name)

variable {machine}

theorem next_digest_iff (event : Event) (digest : Sha256Digest) :
    next_digest machine event = some digest ↔ Renewed machine event digest := by
  rw [next_digest]
  constructor
  · intro h
    split at h
    · next hkind =>
      cases h
      exact .kept hkind
    · next hkind =>
      obtain ⟨hdigest, h⟩ := Option.ite_none_right_eq_some.1 h
      obtain ⟨now, hnow, rfl⟩ := Option.map_eq_some_iff.1 h
      obtain ⟨⟨vendor, name⟩, hvariable, -⟩ := Option.bind_eq_some_iff.1 hnow
      obtain ⟨measured, length, value, hlength, hdata⟩ := Variable.eq_write hvariable
      rw [hdata, measured.with_value_now_write machine hlength] at hnow
      cases hnow
      exact .measured measured (not_not.1 hkind) hlength hdata hdigest.symm
  · rintro (hkind | ⟨measured, hkind, hlength, hdata, hdigest⟩)
    · exact if_pos hkind
    · rw [if_neg (not_not.2 hkind), if_pos hdigest.symm, hdata, measured.with_value_now_write machine hlength]
      rfl

theorem events_matching_iff {now : List Char} {events : List Event} :
    events_matching machine now = some events ↔
      machine.log.bind secure_boot_events = some events ∧ replay machine (events.map Event.digest) = now := by
  cases hlog : machine.log with
  | none => simp [events_matching, hlog]
  | some log =>
    rw [events_matching, hlog]
    cases hevents : secure_boot_events log with
    | none => simp [hevents]
    | some found =>
      rw [Option.bind_eq_bind, Option.bind_some, hevents, Option.bind_eq_bind, Option.bind_some, Option.bind_some, hevents,
        Option.ite_none_right_eq_some]
      constructor
      · rintro ⟨hreplay, hsome⟩
        obtain rfl := Option.some.inj hsome
        exact ⟨rfl, hreplay⟩
      · rintro ⟨hsome, hreplay⟩
        obtain rfl := Option.some.inj hsome
        exact ⟨hreplay, rfl⟩

theorem Unchanged.renewed {event : Event} (h : Unchanged machine event) : Renewed machine event event.digest := by
  by_cases hkind : event.kind = VARIABLE_DRIVER_CONFIG
  · obtain ⟨hdigest, measured, hdata⟩ := h hkind
    have hrenewed : Renewed machine event _ := .measured measured hkind (length_le _ _) hdata hdigest
    rwa [← hdata, ← hdigest] at hrenewed
  · exact .kept hkind

/-- **The register is told in advance** from a log that matches it, each of whose variables' events measures what its
digest says; it is replayed with every variable as it is now.  If no variable has changed it stays what it is. -/
theorem next_secure_boot_pcr_iff (machine : Machine) (now : List Char) :
    (∀ next, next_secure_boot_pcr machine now = some next ↔
      ∃ events digests, machine.log.bind secure_boot_events = some events ∧
        replay machine (events.map Event.digest) = now ∧ List.Forall₂ (Renewed machine) events digests ∧
        next = replay machine digests) ∧
    ∀ events, machine.log.bind secure_boot_events = some events → replay machine (events.map Event.digest) = now →
      (∀ event ∈ events, Unchanged machine event) → next_secure_boot_pcr machine now = some now := by
  have hiff : ∀ next, next_secure_boot_pcr machine now = some next ↔
      ∃ events digests, machine.log.bind secure_boot_events = some events ∧
        replay machine (events.map Event.digest) = now ∧ List.Forall₂ (Renewed machine) events digests ∧
        next = replay machine digests := by
    intro next
    rw [next_secure_boot_pcr, Option.bind_eq_bind, Option.bind_eq_some_iff]
    constructor
    · rintro ⟨events, hmatching, h⟩
      obtain ⟨hevents, hreplay⟩ := events_matching_iff.1 hmatching
      obtain ⟨digests, hdigests, hsome⟩ := Option.bind_eq_some_iff.1 h
      exact ⟨events, digests, hevents, hreplay, (Paired.mapM_iff next_digest_iff).1 hdigests, (Option.some.inj hsome).symm⟩
    · rintro ⟨events, digests, hevents, hreplay, hdigests, rfl⟩
      refine ⟨events, events_matching_iff.2 ⟨hevents, hreplay⟩, ?_⟩
      rw [(Paired.mapM_iff next_digest_iff).2 hdigests]
      rfl
  refine ⟨hiff, fun events hevents hreplay hunchanged ↦ (hiff now).2 ?_⟩
  refine ⟨events, events.map Event.digest, hevents, hreplay, ?_, hreplay.symm⟩
  rw [List.forall₂_map_right_iff]
  exact List.forall₂_same.2 fun event hevent ↦ (hunchanged event hevent).renewed

/-! ## Luft's own key -/

theorem mokList_eq : MOK_LIST = ['M', 'o', 'k', 'L', 'i', 's', 't', 'R', 'T'] := String.toList_ofList

theorem no_nul_in_mok_list : '\x00' ∉ MOK_LIST := by
  rw [mokList_eq]
  simp

/-- The name of the list of shim's keys, as it is measured. -/
def mokList : Variable where
  vendor := SHIM_LOCK
  name := Utf16.toBytes (Utf16.encode MOK_LIST)
  units := 9
  vendor_length := rfl
  name_length := by
    rw [mokList_eq]
    decide
  units_lt := by decide

/-- What shim measures of Luft's key. -/
def luftEvent (machine : Machine) (certificate : Bytes) : Event :=
  let data := authority MOK_LIST (SHIM_LOCK ++ certificate)
  ⟨VARIABLE_AUTHORITY, machine.sha256 data, data⟩

theorem authority_eq (data : Bytes) : authority MOK_LIST data = mokList.write (le 8 data.length) data := by
  have hunits : (Utf16.toBytes (Utf16.encode MOK_LIST)).length / 2 = 9 := by
    rw [show (Utf16.toBytes (Utf16.encode MOK_LIST)).length = 9 * 2 from mokList.name_length]
  rw [authority, hunits]
  rfl

/-- Luft's key is one that shim has checked. -/
theorem verified_luftEvent (machine : Machine) (certificate : Bytes) :
    verified_by_shim (luftEvent machine certificate) = true := by
  have hname : Boot.Options.text mokList.name = MOK_LIST := Utf16.read_toBytes no_nul_in_mok_list
  have hdata : variable_of (luftEvent machine certificate).data = some (mokList.vendor, mokList.name) := by
    rw [show (luftEvent machine certificate).data = _ from authority_eq _]
    exact mokList.variable_of_write (length_le _ _) _
  rw [verified_by_shim, hdata, Option.any_some, hname, Bool.and_eq_true, Bool.and_eq_true]
  exact ⟨decide_eq_true rfl, decide_eq_true rfl, List.contains_iff_mem.2 List.mem_cons_self⟩

end

end Trust.EventLog
