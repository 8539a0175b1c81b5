import Luft.Lib.Op
import Luft.Trust.Luks

/-!
# Encrypting Luft in place

A request to encrypt Luft's partition is kept in three places: the file system of the partition is
made smaller, so that a header fits in front of it; a folder in it holds the recovery key and the
passphrase that were asked for; and two variables of the firmware say which partition is to be
encrypted (the marker) and hold a copy of the recovery key.  The next start makes the header
(`openInInitrd`), and the daemon goes through the partition and finishes (`run`).

Every call comes with what becomes of each of its steps.  A call that is cut off is one in which a
step fails, with or without its effect: none of the calls but `request` does anything after a
failure.
-/

set_option autoImplicit false

namespace Trust

open Op

def ROOT_TYPE : String := "4f68bce3-e8cd-4db1-96e7-fbcaf984b709"
def SHORTEST_PASSPHRASE : ℕ := 8
def BLOCK : ℕ := 4096
def HEADER_ROOM : ℕ := 32 * 1048576

inductive Error
  | busy
  | unsupported (text : String)
  | context (text : String)
  /-- A tool or a call of the system failed. -/
  | failed
  deriving DecidableEq, Repr

/-- The credentials of a request. -/
structure Folder where
  recoveryKey : Option Secret
  passphrase : Option Secret
  deriving DecidableEq, Repr

structure SystemDisk where
  partuuid : Option String
  mapping : Option String
  fstype : String
  partitionType : Option String
  size : ℕ
  deriving DecidableEq, Repr

structure System where
  disk : SystemDisk
  /-- How much of the partition the file system spans. -/
  filesystem : ℕ
  marker : Option String
  sealedKey : Option Secret
  folder : Option Folder
  luks : Option Luks
  escrow : Option Secret
  deriving DecidableEq, Repr

abbrev Act (α : Type) := Op System Error Empty α

structure Request where
  recoveryKey : Secret
  passphrase : Secret
  deriving DecidableEq, Repr

/-- What becomes of removing a folder; files may be left when it fails. -/
inductive Removal
  | done
  | failed (recoveryKey passphrase : Bool)
  deriving DecidableEq, Repr

/-- What becomes of the steps of `request` and `cancel`. -/
structure Steps where
  free : Bool := true
  found : Bool := true
  mounts : Bool := true
  shrink : Fate := .done
  folder : Fate := .done
  recoveryKey : Fate := .done
  passphrase : Fate := .done
  copy : Fate := .done
  sealedKey : Fate := .done
  marker : Fate := .done
  forgetSealedKey : Fate := .done
  forgetMarker : Fate := .done
  removeFolder : Removal := .done
  grow : Fate := .done
  deriving DecidableEq, Repr

/-! ## Recovery keys -/

def MODHEX : List Char := "cbdefghijklnrtuv".toList

/-- Eight letters at a time, with a dash in between. -/
def dashed (letters : List Char) : List Char :=
  letters.zipIdx.flatMap fun (letter, index) ↦
    if index > 0 ∧ index % 8 = 0 then ['-', letter] else [letter]

def normalize (typed : Secret) : Secret :=
  let letters := (typed.toList.filter fun c ↦ c ≠ '-' ∧ c ≠ ' ').map Char.toLower
  if letters.length ≠ 64 ∨ ¬letters.all (· ∈ MODHEX) then typed else String.ofList (dashed letters)

def isRecoveryKey (key : Secret) : Bool :=
  let normal := (normalize key).toList
  normal.length = 71 ∧ normal.all fun c ↦ c = '-' ∨ c ∈ MODHEX

def checked (recoveryKey passphrase : Secret) (tpm onBattery : Bool) : Except Error Secret :=
  let key := normalize recoveryKey
  if ¬isRecoveryKey key then
    .error (.unsupported "That isn't a recovery key made by this computer.")
  else if (passphrase ≠ "" ∨ ¬tpm) ∧ passphrase.length < SHORTEST_PASSPHRASE then
    .error (.unsupported s!"Choose a passphrase of at least {SHORTEST_PASSPHRASE} characters.")
  else if onBattery then
    .error (.unsupported
      "Plug the computer in. Encrypting takes a while and shouldn't run out of power partway.")
  else .ok key

/-! ## The three places -/

namespace System

variable (s : System)

def requestedFor : Bool := s.marker.isSome ∧ s.disk.partuuid = s.marker

def possible : Bool :=
  s.disk.mapping.isNone ∧ s.disk.fstype = "btrfs" ∧ s.disk.partitionType = some ROOT_TYPE

def setMarker (data : Option String) : System := { s with marker := data }
def setSealedKey (data : Option Secret) : System := { s with sealedKey := data }
def setFolder (folder : Option Folder) : System := { s with folder := folder }
def setFilesystem (size : ℕ) : System := { s with filesystem := size }

def ensureFolder : System := { s with folder := some (s.folder.getD ⟨none, none⟩) }

def sealRecoveryKey (key : Secret) : System :=
  { s with folder := s.folder.map ({ · with recoveryKey := some key }) }

def sealPassphrase (passphrase : Secret) : System :=
  { s with folder := s.folder.map ({ · with passphrase := some passphrase }) }

end System

/-- The old value is removed before the new one is written, and one that is not there is not. -/
def setVariable (fate : Fate) (get : System → Option String)
    (set : System → Option String → System) (data : Option String) : Act Unit := fun s ↦
  if (get s).isNone ∧ data.isNone then ⟨.ok (), s, []⟩
  else attempt fate .failed (set · none) (set · data) s

def resize (fate : Fate) (size : ℕ) : Act Unit := attempt fate .failed id (·.setFilesystem size)

def removeFolder (removal : Removal) : Act Unit := fun s ↦
  match s.folder, removal with
  | none, _ => ⟨.ok (), s, []⟩
  | some _, .done => ⟨.ok (), s.setFolder none, []⟩
  | some f, .failed recoveryKey passphrase =>
    ⟨.error .failed, s.setFolder (some ⟨if recoveryKey then f.recoveryKey else none,
      if passphrase then f.passphrase else none⟩), []⟩

namespace Request

/-- The sealed copy is made in a scratch folder first. -/
def sealCopy (key : Secret) (steps : Steps) : Act Unit := do
  attempt steps.copy .failed id id
  setVariable steps.sealedKey (·.sealedKey) .setSealedKey (some key)

def save (request : Request) (partuuid : String) (tpm : Bool) (steps : Steps) : Act Unit := do
  attempt steps.folder .failed id .ensureFolder
  attempt steps.recoveryKey .failed id (·.sealRecoveryKey request.recoveryKey)
  onlyIf (request.passphrase ≠ "")
    (attempt steps.passphrase .failed id (·.sealPassphrase request.passphrase))
  onlyIf tpm (sealCopy request.recoveryKey steps)
  rescue (setVariable steps.marker (·.marker) .setMarker (some partuuid)) fun _ ↦
    fail (.context "The firmware didn't keep the request to encrypt Luft")

end Request

def forget (steps : Steps) : Act Unit := do
  setVariable steps.forgetSealedKey (·.sealedKey) .setSealedKey none
  setVariable steps.forgetMarker (·.marker) .setMarker none
  removeFolder steps.removeFolder

/-! ## Asking for it and taking it back -/

structure Asked where
  recoveryKey : Secret
  passphrase : Secret
  onBattery : Bool
  /-- `tpm_unlocks`, while the call runs. -/
  tpm : Bool
  deriving DecidableEq, Repr

def System.room (s : System) : ℕ := (s.disk.size - HEADER_ROOM) / BLOCK * BLOCK

def request (asked : Asked) (steps : Steps) : Act Unit := do
  require steps.free .busy
  require steps.found (.context "The system disk couldn't be found.")
  let s ← state
  require (s.possible ∧ s.luks.isNone)
    (.unsupported "Luft's partition can't be encrypted in place.")
  let recoveryKey ← lift (checked asked.recoveryKey asked.passphrase asked.tpm asked.onBattery)
  let partuuid ← lift (match s.disk.partuuid with
    | some partuuid => .ok partuuid
    | none => .error (.context "Luft's partition has no ID"))
  require steps.mounts .failed
  rescue (resize steps.shrink s.room) fun _ ↦
    fail (.context "Luft's partition couldn't make room for encryption")
  rescue (Request.save ⟨recoveryKey, asked.passphrase⟩ partuuid asked.tpm steps) fun error ↦ do
    ignore (forget steps)
    ignore (resize steps.grow s.disk.size)
    fail error

def cancel (steps : Steps) : Act Unit := do
  require steps.found (.context "The system disk couldn't be found.")
  let s ← state
  if s.requestedFor then
    require s.luks.isNone
      (.unsupported "Luft is already being encrypted, so it can't stop now.")
    require steps.mounts .failed
    forget steps
    resize steps.grow s.disk.size

/-! ## What forgetting leaves -/

variable {steps : Steps} {s : System} {r : Outcome System Error Empty Unit}

/-- Removing a variable: there is none, or it is removed, or that fails. -/
theorem clear_cases (fate : Fate) (get : System → Option String)
    (set : System → Option String → System) (s : System) :
    get s = none ∧ setVariable fate get set none s = ⟨.ok (), s, []⟩ ∨
      (get s).isSome ∧ fate = .done ∧ setVariable fate get set none s = ⟨.ok (), set s none, []⟩ ∨
      (get s).isSome ∧ fate ≠ .done ∧ ∃ t, setVariable fate get set none s = ⟨.error .failed, t, []⟩ ∧
        (fate = .failed ∧ t = s ∨ fate ≠ .failed ∧ t = set s none) := by
  rw [setVariable]
  rcases hget : get s with - | value
  · exact .inl ⟨rfl, rfl⟩
  · cases fate with
    | done => exact .inr (.inl ⟨rfl, rfl, rfl⟩)
    | failed => exact .inr (.inr ⟨rfl, nofun, _, rfl, .inl ⟨rfl, rfl⟩⟩)
    | halfway => exact .inr (.inr ⟨rfl, nofun, _, rfl, .inr ⟨nofun, rfl⟩⟩)
    | late => exact .inr (.inr ⟨rfl, nofun, _, rfl, .inr ⟨nofun, rfl⟩⟩)

theorem setSealedKey_none (h : s.sealedKey = none) : s = s.setSealedKey none := by
  rw [System.setSealedKey, ← h]

theorem setMarker_none (h : s.marker = none) : s = s.setMarker none := by
  rw [System.setMarker, ← h]

/-- Where forgetting ends. -/
inductive Forgot (steps : Steps) (s : System) : Outcome System Error Empty Unit → Prop
  | sealedKey (k : Option Secret) (there : s.sealedKey.isSome)
      (fate : steps.forgetSealedKey ≠ .done) : Forgot steps s ⟨.error .failed, s.setSealedKey k, []⟩
  | marker (m : Option String) (sealedKey : s.sealedKey.isSome → steps.forgetSealedKey = .done)
      (there : s.marker.isSome) (fate : steps.forgetMarker ≠ .done)
      (kept : steps.forgetMarker = .failed → m = s.marker) :
      Forgot steps s ⟨.error .failed, (s.setSealedKey none).setMarker m, []⟩
  | folder (f : Option Folder) (sealedKey : s.sealedKey.isSome → steps.forgetSealedKey = .done)
      (marker : s.marker.isSome → steps.forgetMarker = .done) (there : s.folder.isSome)
      (fate : steps.removeFolder ≠ .done) :
      Forgot steps s ⟨.error .failed, ((s.setSealedKey none).setMarker none).setFolder f, []⟩
  | all (sealedKey : s.sealedKey.isSome → steps.forgetSealedKey = .done)
      (marker : s.marker.isSome → steps.forgetMarker = .done) :
      Forgot steps s ⟨.ok (), ((s.setSealedKey none).setMarker none).setFolder none, []⟩

theorem forgot (steps : Steps) (s : System) : Forgot steps s (forget steps s) := by
  have hrest : ∀ t, t = s.setSealedKey none → (s.sealedKey.isSome → steps.forgetSealedKey = .done) →
      Forgot steps s ((setVariable steps.forgetMarker (·.marker) .setMarker none >>= fun _ ↦
        removeFolder steps.removeFolder) t) := by
    rintro _ rfl hsealed
    have hfolder : ∀ t, t = (s.setSealedKey none).setMarker none →
        (s.marker.isSome → steps.forgetMarker = .done) →
        Forgot steps s (removeFolder steps.removeFolder t) := by
      rintro _ rfl hmarker
      rcases hf : s.folder with - | f
      · have : ((s.setSealedKey none).setMarker none).folder = none := hf
        rw [removeFolder.eq_def, this]
        have hsame : (s.setSealedKey none).setMarker none =
            ((s.setSealedKey none).setMarker none).setFolder none := by
          rw [System.setFolder, ← this]
        rw [hsame]
        exact .all hsealed hmarker
      · have : ((s.setSealedKey none).setMarker none).folder = some f := hf
        rw [removeFolder.eq_def, this]
        rcases hr : steps.removeFolder with - | ⟨_, _⟩
        · exact .all hsealed hmarker
        · exact .folder _ hsealed hmarker (hf ▸ rfl) (hr ▸ nofun)
    rcases clear_cases steps.forgetMarker (·.marker) .setMarker (s.setSealedKey none) with
      ⟨hnone, hrun⟩ | ⟨hsome, hdone, hrun⟩ | ⟨hsome, hnot, t, hrun, ht⟩
    · rw [bind_of_eq_ok hrun]
      refine hfolder _ (setMarker_none hnone) fun hsome ↦ ?_
      rw [show s.marker = none from hnone] at hsome
      cases hsome
    · rw [bind_of_eq_ok hrun]
      exact hfolder _ rfl fun _ ↦ hdone
    · rw [bind_of_eq_error hrun]
      rcases ht with ⟨hfate, rfl⟩ | ⟨hfate, rfl⟩
      · exact .marker s.marker hsealed hsome hnot fun _ ↦ rfl
      · exact .marker none hsealed hsome hnot fun h ↦ absurd h hfate
  rw [forget]
  rcases clear_cases steps.forgetSealedKey (·.sealedKey) .setSealedKey s with
    ⟨hnone, hrun⟩ | ⟨hsome, hdone, hrun⟩ | ⟨hsome, hnot, t, hrun, ht⟩
  · rw [bind_of_eq_ok hrun]
    refine hrest _ (setSealedKey_none hnone) fun hsome ↦ ?_
    rw [hnone] at hsome
    cases hsome
  · rw [bind_of_eq_ok hrun]
    exact hrest _ rfl fun _ ↦ hdone
  · rw [bind_of_eq_error hrun]
    rcases ht with ⟨-, rfl⟩ | ⟨-, rfl⟩
    · exact .sealedKey t.sealedKey hsome hnot
    · exact .sealedKey none hsome hnot

theorem Forgot.frame (h : Forgot steps s r) : r.state.disk = s.disk ∧
    r.state.filesystem = s.filesystem ∧ r.state.luks = s.luks := by
  cases h <;> exact ⟨rfl, rfl, rfl⟩

end Trust
