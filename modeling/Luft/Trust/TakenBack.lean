import Luft.Lib.Runs
import Luft.Trust.Encrypting

/-!
# A request to encrypt can be taken back

Nothing but the marker tells that there is a request.  So a call that ends without the marker has to
leave a file system that fills its partition, and neither credentials nor a sealed key: no later
call looks for them (`cancel_cases`).

`Careful` is when the steps that take a request back, once they have removed the marker or found
none, all work; `takenBack_run` says that then every call ends in a state that is as before the
request, or from which `cancel` leads there.
-/

set_option autoImplicit false

namespace Trust

open Op

/-- A call about the request; nothing else touches it before encryption has started. -/
inductive Call
  | request (asked : Asked) (steps : Steps)
  | cancel (steps : Steps)

def Call.act : Call → Act Unit
  | .request asked steps => Trust.request asked steps
  | .cancel steps => Trust.cancel steps

namespace System

def step (call : Call) (s : System) : System := (call.act s).state

/-- Nothing of a request is left. -/
structure Clean (s : System) : Prop where
  filesystem : s.filesystem = s.disk.size
  sealedKey : s.sealedKey = none
  folder : s.folder = none

instance (s : System) : Decidable s.Clean :=
  decidable_of_iff (s.filesystem = s.disk.size ∧ s.sealedKey = none ∧ s.folder = none)
    ⟨fun ⟨h, h', h''⟩ ↦ ⟨h, h', h''⟩, fun ⟨h, h', h''⟩ ↦ ⟨h, h', h''⟩⟩

/-- Without a request nothing is left of one, and a `cancel` none of whose steps fails gets there. -/
def TakenBack (s : System) : Prop :=
  (¬s.requestedFor → s.Clean) ∧
    ((s.step (.cancel {})).Clean ∧ ¬(s.step (.cancel {})).requestedFor)

instance (s : System) : Decidable s.TakenBack :=
  inferInstanceAs (Decidable ((¬s.requestedFor → s.Clean) ∧ _))

end System

/-! ## Which steps may fail -/

namespace Steps

variable (steps : Steps) (asked : Asked) (s : System)

/-- The save comes to the sealed copy of the recovery key. -/
def ReachesSealedKey : Prop :=
  steps.folder = .done ∧ steps.recoveryKey = .done ∧
    (asked.passphrase = "" ∨ steps.passphrase = .done) ∧ asked.tpm ∧ steps.copy = .done

def ReachesMarker : Prop :=
  steps.folder = .done ∧ steps.recoveryKey = .done ∧
    (asked.passphrase = "" ∨ steps.passphrase = .done) ∧
    (asked.tpm → steps.copy = .done ∧ steps.sealedKey = .done)

instance : Decidable (steps.ReachesSealedKey asked) := inferInstanceAs (Decidable (_ ∧ _))

instance : Decidable (steps.ReachesMarker asked) := inferInstanceAs (Decidable (_ ∧ _))

def Saves : Prop := steps.ReachesMarker asked ∧ steps.marker = .done

instance : Decidable (steps.Saves asked) := inferInstanceAs (Decidable (_ ∧ _))

/-- What a variable that was to be written holds then. -/
def written (fate : Fate) (before after : Option String) : Option String :=
  match fate with
  | .done => after
  | .failed => before
  | .halfway => none
  | .late => after

/-- There is a folder when a save gives up. -/
def folderLeft : Bool := s.folder.isSome ∨ steps.folder = .done ∨ steps.folder = .late

/-- There is a sealed copy of the recovery key when a save gives up. -/
def sealedKeyLeft : Bool :=
  if steps.ReachesSealedKey asked then
    (written steps.sealedKey s.sealedKey (some asked.recoveryKey)).isSome
  else s.sealedKey.isSome

/-- The marker when a save gives up. -/
def markerLeft : Option String :=
  if steps.ReachesMarker asked then written steps.marker s.marker s.disk.partuuid else s.marker

/-- The marker is not removed when things are forgotten. -/
def KeepsMarker (sealedKey : Bool) : Prop :=
  sealedKey ∧ steps.forgetSealedKey ≠ .done ∨ steps.forgetMarker = .failed

/-- All there is gets forgotten. -/
def Forgets (sealedKey marker folder : Bool) : Prop :=
  (sealedKey → steps.forgetSealedKey = .done) ∧
    (folder → (marker → steps.forgetMarker = .done) ∧ steps.removeFolder = .done)

def Grows : Prop := steps.grow = .done ∨ steps.grow = .late

/-- A request is not refused. -/
def Accepts : Prop :=
  steps.free ∧ steps.found ∧ steps.mounts ∧ s.possible ∧ s.luks = none ∧ s.disk.partuuid.isSome ∧
    (checked asked.recoveryKey asked.passphrase asked.tpm asked.onBattery).isOk

instance (sealedKey : Bool) : Decidable (steps.KeepsMarker sealedKey) :=
  inferInstanceAs (Decidable (_ ∨ _))

instance (sealedKey marker folder : Bool) : Decidable (steps.Forgets sealedKey marker folder) :=
  inferInstanceAs (Decidable (_ ∧ _))

instance : Decidable steps.Grows := inferInstanceAs (Decidable (_ ∨ _))

instance : Decidable (steps.Accepts asked s) := inferInstanceAs (Decidable (_ ∧ _))

end Steps

/-- A request leaves the marker, or takes everything back; a cancel that removes the marker takes
everything back. -/
def Careful (call : Call) (s : System) : Prop :=
  match call with
  | .request asked steps => steps.Accepts asked s →
    (steps.shrink = .late → s.requestedFor) ∧
      (steps.shrink = .done → steps.Saves asked ∨
        (steps.markerLeft asked s).isSome ∧ steps.markerLeft asked s = s.disk.partuuid ∧
          steps.KeepsMarker (steps.sealedKeyLeft asked s) ∨
        steps.Forgets (steps.sealedKeyLeft asked s) (steps.markerLeft asked s).isSome
          (steps.folderLeft s) ∧ steps.Grows)
  | .cancel steps => steps.found → steps.mounts → s.requestedFor →
    steps.KeepsMarker s.sealedKey.isSome ∨
      steps.forgetMarker = .done ∧
        steps.Forgets s.sealedKey.isSome true s.folder.isSome ∧
          (s.filesystem = s.disk.size ∨ steps.Grows)

instance (call : Call) (s : System) : Decidable (Careful call s) :=
  match call with
  | .request asked steps => inferInstanceAs (Decidable (steps.Accepts asked s → _))
  | .cancel steps => inferInstanceAs (Decidable (steps.found → _))

/-! ## What the steps leave -/

variable {steps : Steps} {asked : Asked} {s : System} {r : Outcome System Error Empty Unit}

namespace Forgot

theorem keepsMarker (h : Forgot steps s r) (hk : steps.KeepsMarker s.sealedKey.isSome)
    (hm : s.marker.isSome) : r.state.marker = s.marker := by
  have hdone (hsealed : s.sealedKey.isSome → steps.forgetSealedKey = .done) :
      steps.forgetMarker = .failed := by
    rcases hk with ⟨hsome, hnot⟩ | hfailed
    · exact absurd (hsealed hsome) hnot
    · exact hfailed
  cases h with
  | sealedKey => rfl
  | marker m hsealed _ _ hkept => exact hkept (hdone hsealed)
  | folder _ hsealed hmarker => exact absurd (hmarker hm) (hdone hsealed ▸ nofun)
  | all hsealed hmarker => exact absurd (hmarker hm) (hdone hsealed ▸ nofun)

theorem forgets (h : Forgot steps s r)
    (hf : steps.Forgets s.sealedKey.isSome s.marker.isSome s.folder.isSome) :
    r.state.sealedKey = none ∧ r.state.folder = none := by
  cases h with
  | sealedKey _ hthere hfate => exact absurd (hf.1 hthere) hfate
  | marker m _ hthere hfate =>
    refine ⟨rfl, Option.not_isSome_iff_eq_none.1 fun hfolder ↦ hfate ?_⟩
    exact (hf.2 hfolder).1 hthere
  | folder _ _ _ hthere hfate => exact absurd (hf.2 hthere).2 hfate
  | all => exact ⟨rfl, rfl⟩

theorem ok (h : Forgot steps s r) (hm : steps.forgetMarker = .done)
    (hf : steps.Forgets s.sealedKey.isSome s.marker.isSome s.folder.isSome) :
    r = ⟨.ok (), ((s.setSealedKey none).setMarker none).setFolder none, []⟩ := by
  cases h with
  | sealedKey _ hthere hfate => exact absurd (hf.1 hthere) hfate
  | marker _ _ _ hfate => exact absurd hm hfate
  | folder _ _ _ hthere hfate => exact absurd (hf.2 hthere).2 hfate
  | all => rfl

end Forgot

/-- What a save leaves, and whether it went well. -/
structure Saved (asked : Asked) (steps : Steps) (s : System)
    (r : Outcome System Error Empty Unit) : Prop where
  disk : r.state.disk = s.disk
  filesystem : r.state.filesystem = s.filesystem
  luks : r.state.luks = s.luks
  ok : steps.Saves asked → r.result = .ok () ∧ r.state.marker = s.disk.partuuid
  error : ¬steps.Saves asked → ∃ e, r.result = .error e
  folder : r.state.folder.isSome = steps.folderLeft s
  sealedKey : r.state.sealedKey.isSome = steps.sealedKeyLeft asked s
  marker : r.state.marker = steps.markerLeft asked s

/-- A save that gives up before it comes to the variables. -/
theorem Saved.early {t : System} {e : Error} (hdisk : t.disk = s.disk)
    (hfilesystem : t.filesystem = s.filesystem) (hluks : t.luks = s.luks)
    (hfolder : t.folder.isSome = steps.folderLeft s) (hsealed : t.sealedKey = s.sealedKey)
    (hmarker : t.marker = s.marker) (hnot : ¬steps.ReachesSealedKey asked)
    (hnot' : ¬steps.ReachesMarker asked) : Saved asked steps s ⟨.error e, t, []⟩ where
  disk := hdisk
  filesystem := hfilesystem
  luks := hluks
  ok := fun h ↦ absurd h.1 hnot'
  error := fun _ ↦ ⟨e, rfl⟩
  folder := hfolder
  sealedKey := by rw [Steps.sealedKeyLeft, if_neg hnot, hsealed]
  marker := by rw [Steps.markerLeft, if_neg hnot', hmarker]

theorem setVariable_some {fate : Fate} {get : System → Option String}
    {set : System → Option String → System} {value : String} :
    setVariable fate get set (some value) s =
      attempt fate .failed (set · none) (set · (some value)) s := by
  rw [setVariable, if_neg]
  rintro ⟨-, h⟩
  cases h

/-- The last step of a save. -/
theorem saved_marker {t : System} {partuuid : String} (hp : s.disk.partuuid = some partuuid)
    (hreaches : steps.ReachesMarker asked) (hdisk : t.disk = s.disk)
    (hfilesystem : t.filesystem = s.filesystem) (hluks : t.luks = s.luks)
    (hfolder : t.folder.isSome = steps.folderLeft s)
    (hsealed : t.sealedKey.isSome = steps.sealedKeyLeft asked s) (hmarker : t.marker = s.marker) :
    Saved asked steps s (rescue (setVariable steps.marker (·.marker) .setMarker (some partuuid))
      (fun _ ↦ fail (.context "The firmware didn't keep the request to encrypt Luft")) t) := by
  have hleft : steps.markerLeft asked s = Steps.written steps.marker s.marker s.disk.partuuid := by
    rw [Steps.markerLeft, if_pos hreaches]
  rcases attempt_cases steps.marker Error.failed (System.setMarker · none)
      (System.setMarker · (some partuuid)) t with ⟨hfate, hrun⟩ | ⟨hfate, t', hrun, ht'⟩
  · rw [rescue_of_ok (a := ()) (by rw [setVariable_some, hrun]), setVariable_some, hrun]
    refine ⟨hdisk, hfilesystem, hluks, fun _ ↦ ⟨rfl, hp.symm⟩, fun h ↦ absurd ⟨hreaches, hfate⟩ h,
      hfolder, hsealed, ?_⟩
    rw [hleft, hfate]
    exact hp.symm
  · rw [rescue_of_error (e := .failed) (by rw [setVariable_some, hrun]), setVariable_some, hrun]
    have hnot : ¬steps.Saves asked := fun h ↦ hfate h.2
    rcases ht' with ⟨hfate', rfl⟩ | ⟨hfate', rfl⟩ | ⟨hfate', rfl⟩
    · refine ⟨hdisk, hfilesystem, hluks, fun h ↦ absurd h hnot, fun _ ↦ ⟨_, rfl⟩, hfolder, hsealed, ?_⟩
      rw [hleft, hfate']
      exact hmarker
    · refine ⟨hdisk, hfilesystem, hluks, fun h ↦ absurd h hnot, fun _ ↦ ⟨_, rfl⟩, hfolder, hsealed, ?_⟩
      rw [hleft, hfate']
      rfl
    · refine ⟨hdisk, hfilesystem, hluks, fun h ↦ absurd h hnot, fun _ ↦ ⟨_, rfl⟩, hfolder, hsealed, ?_⟩
      rw [hleft, hfate']
      exact hp.symm

/-- The last two steps of a save. -/
theorem saved_variables {t : System} {partuuid : String} (hp : s.disk.partuuid = some partuuid)
    (hfate : steps.folder = .done) (hkey : steps.recoveryKey = .done)
    (hpassphrase : asked.passphrase = "" ∨ steps.passphrase = .done) (key : Secret)
    (hdisk : t.disk = s.disk) (hfilesystem : t.filesystem = s.filesystem) (hluks : t.luks = s.luks)
    (hfolder : t.folder.isSome = steps.folderLeft s) (hsealed : t.sealedKey = s.sealedKey)
    (hmarker : t.marker = s.marker) :
    Saved asked steps s ((onlyIf asked.tpm (Request.sealCopy key steps) >>= fun _ ↦
      rescue (setVariable steps.marker (·.marker) .setMarker (some partuuid))
        (fun _ ↦ fail (.context "The firmware didn't keep the request to encrypt Luft"))) t) := by
  by_cases htpm : asked.tpm
  swap
  · rw [bind_of_eq_ok (onlyIf_neg htpm)]
    have hnot : ¬steps.ReachesSealedKey asked := fun h ↦ htpm h.2.2.2.1
    refine saved_marker hp ⟨hfate, hkey, hpassphrase, fun h ↦ absurd h htpm⟩ hdisk hfilesystem hluks
      hfolder ?_ hmarker
    rw [Steps.sealedKeyLeft, if_neg hnot, hsealed]
  rcases attempt_cases steps.copy Error.failed id id t with ⟨hdone, hrun⟩ | ⟨hnot, t', hrun, ht'⟩
  swap
  · have hcopy : Request.sealCopy key steps t = _ := bind_of_eq_error hrun
    rw [bind_of_eq_error ((onlyIf_pos htpm).trans hcopy)]
    have hsame : t' = t := by rcases ht' with ⟨-, h⟩ | ⟨-, h⟩ | ⟨-, h⟩ <;> exact h
    rw [hsame]
    exact .early hdisk hfilesystem hluks hfolder hsealed hmarker (fun h ↦ hnot h.2.2.2.2)
      fun h ↦ hnot (h.2.2.2 htpm).1
  have hcopy : Request.sealCopy key steps t = _ := (bind_of_eq_ok hrun).trans setVariable_some
  have hreaches : steps.ReachesSealedKey asked := ⟨hfate, hkey, hpassphrase, htpm, hdone⟩
  have hleft : steps.sealedKeyLeft asked s =
      (Steps.written steps.sealedKey s.sealedKey (some asked.recoveryKey)).isSome := by
    rw [Steps.sealedKeyLeft, if_pos hreaches]
  rcases attempt_cases steps.sealedKey Error.failed (System.setSealedKey · none)
      (System.setSealedKey · (some key)) t with ⟨hwritten, hrun⟩ | ⟨hwritten, t', hrun, ht'⟩
  · rw [bind_of_eq_ok ((onlyIf_pos htpm).trans (hcopy.trans hrun))]
    refine saved_marker hp ⟨hfate, hkey, hpassphrase, fun _ ↦ ⟨hdone, hwritten⟩⟩ hdisk hfilesystem
      hluks hfolder ?_ hmarker
    rw [hleft, hwritten]
    rfl
  · rw [bind_of_eq_error ((onlyIf_pos htpm).trans (hcopy.trans hrun))]
    have hnot' : ¬steps.ReachesMarker asked := fun h ↦ hwritten (h.2.2.2 htpm).2
    have hmarkerLeft : steps.markerLeft asked s = s.marker := by rw [Steps.markerLeft, if_neg hnot']
    rcases ht' with ⟨hw, rfl⟩ | ⟨hw, rfl⟩ | ⟨hw, rfl⟩
    · refine ⟨hdisk, hfilesystem, hluks, fun h ↦ absurd h.1 hnot', fun _ ↦ ⟨_, rfl⟩, hfolder, ?_,
        hmarker.trans hmarkerLeft.symm⟩
      rw [hleft, hw]
      exact congrArg Option.isSome hsealed
    · refine ⟨hdisk, hfilesystem, hluks, fun h ↦ absurd h.1 hnot', fun _ ↦ ⟨_, rfl⟩, hfolder, ?_,
        hmarker.trans hmarkerLeft.symm⟩
      rw [hleft, hw]
      rfl
    · refine ⟨hdisk, hfilesystem, hluks, fun h ↦ absurd h.1 hnot', fun _ ↦ ⟨_, rfl⟩, hfolder, ?_,
        hmarker.trans hmarkerLeft.symm⟩
      rw [hleft, hw]
      rfl

theorem saved {partuuid : String} (hp : s.disk.partuuid = some partuuid) (key : Secret) :
    Saved asked steps s (Request.save ⟨key, asked.passphrase⟩ partuuid asked.tpm steps s) := by
  rw [Request.save]
  rcases attempt_cases steps.folder Error.failed id System.ensureFolder s with
    ⟨hfolder, hrun⟩ | ⟨hfolder, t, hrun, ht⟩
  swap
  · rw [bind_of_eq_error hrun]
    have hnot : ¬steps.ReachesSealedKey asked := fun h ↦ hfolder h.1
    have hnot' : ¬steps.ReachesMarker asked := fun h ↦ hfolder h.1
    rcases ht with ⟨hfate, rfl⟩ | ⟨hfate, rfl⟩ | ⟨hfate, rfl⟩
    · exact .early rfl rfl rfl (by simp [Steps.folderLeft, hfate]) rfl rfl hnot hnot'
    · exact .early rfl rfl rfl (by simp [Steps.folderLeft, hfate]) rfl rfl hnot hnot'
    · exact .early rfl rfl rfl (by simp [Steps.folderLeft, hfate, System.ensureFolder]) rfl rfl hnot
        hnot'
  rw [bind_of_eq_ok hrun]
  have hleft : steps.folderLeft s = true := by simp [Steps.folderLeft, hfolder]
  rcases attempt_cases steps.recoveryKey Error.failed id (System.sealRecoveryKey · key)
    s.ensureFolder with ⟨hkey, hrun⟩ | ⟨hkey, t, hrun, ht⟩
  swap
  · rw [bind_of_eq_error hrun]
    have hnot : ¬steps.ReachesSealedKey asked := fun h ↦ hkey h.2.1
    have hnot' : ¬steps.ReachesMarker asked := fun h ↦ hkey h.2.1
    rcases ht with ⟨-, rfl⟩ | ⟨-, rfl⟩ | ⟨-, rfl⟩
    · exact .early rfl rfl rfl hleft.symm rfl rfl hnot hnot'
    · exact .early rfl rfl rfl hleft.symm rfl rfl hnot hnot'
    · exact .early rfl rfl rfl hleft.symm rfl rfl hnot hnot'
  rw [bind_of_eq_ok hrun]
  by_cases hempty : asked.passphrase = ""
  · rw [bind_of_eq_ok (onlyIf_neg (by simpa using hempty))]
    exact saved_variables hp hfolder hkey (.inl hempty) key rfl rfl rfl hleft.symm rfl rfl
  have honly : decide (asked.passphrase ≠ "") = true := decide_eq_true hempty
  rcases attempt_cases steps.passphrase Error.failed id (System.sealPassphrase · asked.passphrase)
    (s.ensureFolder.sealRecoveryKey key) with ⟨hpass, hrun⟩ | ⟨hpass, t, hrun, ht⟩
  · rw [bind_of_eq_ok ((onlyIf_pos honly).trans hrun)]
    exact saved_variables hp hfolder hkey (.inr hpass) key rfl rfl rfl hleft.symm rfl rfl
  · rw [bind_of_eq_error ((onlyIf_pos honly).trans hrun)]
    have hnot : ¬steps.ReachesSealedKey asked := fun h ↦ h.2.2.1.elim hempty hpass
    have hnot' : ¬steps.ReachesMarker asked := fun h ↦ h.2.2.1.elim hempty hpass
    rcases ht with ⟨-, rfl⟩ | ⟨-, rfl⟩ | ⟨-, rfl⟩
    · exact .early rfl rfl rfl hleft.symm rfl rfl hnot hnot'
    · exact .early rfl rfl rfl hleft.symm rfl rfl hnot hnot'
    · exact .early rfl rfl rfl hleft.symm rfl rfl hnot hnot'

/-! ## What the calls leave -/

/-- A request that is not refused makes room, saves, and cleans up if that fails. -/
theorem request_cases (asked : Asked) (steps : Steps) (s : System) :
    (¬steps.Accepts asked s ∧ (request asked steps s).state = s) ∨
      steps.Accepts asked s ∧ ∃ key partuuid,
        checked asked.recoveryKey asked.passphrase asked.tpm asked.onBattery = .ok key ∧
        s.disk.partuuid = some partuuid ∧ request asked steps s = (rescue (resize steps.shrink s.room) (fun _ ↦
            fail (.context "Luft's partition couldn't make room for encryption")) >>= fun _ ↦
          rescue (Request.save ⟨key, asked.passphrase⟩ partuuid asked.tpm steps) fun error ↦
            ignore (forget steps) >>= fun _ ↦
              ignore (resize steps.grow s.disk.size) >>= fun _ ↦ fail error) s := by
  rw [request, require_bind]
  by_cases hfree : steps.free
  swap
  · rw [if_neg hfree]
    exact .inl ⟨fun h ↦ hfree h.1, rfl⟩
  rw [if_pos hfree, require_bind]
  by_cases hfound : steps.found
  swap
  · rw [if_neg hfound]
    exact .inl ⟨fun h ↦ hfound h.2.1, rfl⟩
  rw [if_pos hfound, bind_of_eq_ok state_apply, require_bind]
  by_cases hpossible : decide (s.possible = true ∧ s.luks.isNone = true)
  swap
  · rw [if_neg hpossible]
    refine .inl ⟨fun h ↦ hpossible (decide_eq_true ⟨h.2.2.2.1, ?_⟩), rfl⟩
    rw [h.2.2.2.2.1]
    rfl
  rw [if_pos hpossible]
  obtain ⟨hpossible, hluks⟩ := of_decide_eq_true hpossible
  rcases hchecked : checked asked.recoveryKey asked.passphrase asked.tpm asked.onBattery with e | key
  · rw [bind_of_eq_error (lift_apply _)]
    refine .inl ⟨fun h ↦ ?_, rfl⟩
    have := h.2.2.2.2.2.2
    rw [hchecked] at this
    cases this
  rw [bind_of_eq_ok (lift_apply _)]
  rcases hp : s.disk.partuuid with - | partuuid
  · refine .inl ⟨fun h ↦ ?_, rfl⟩
    have := h.2.2.2.2.2.1
    rw [hp] at this
    cases this
  rw [bind_of_eq_ok (lift_apply _), require_bind]
  by_cases hmounts : steps.mounts
  · rw [if_pos hmounts]
    refine .inr ⟨⟨hfree, hfound, hmounts, hpossible, Option.isNone_iff_eq_none.1 hluks, hp ▸ rfl, ?_⟩,
      key, partuuid, rfl, rfl, rfl⟩
    rw [hchecked]
    rfl
  · rw [if_neg hmounts]
    exact .inl ⟨fun h ↦ hmounts h.2.2.1, rfl⟩

/-- Encryption has not started, and without a request nothing is left of one. -/
structure System.Settled (s : System) : Prop where
  luks : s.luks = none
  clean : ¬s.requestedFor → s.Clean

theorem requestedFor_of_marker {t : System} (hdisk : t.disk = s.disk)
    (hmarker : t.marker = s.disk.partuuid) (hp : s.disk.partuuid.isSome) : t.requestedFor := by
  rw [System.requestedFor, hdisk, hmarker]
  exact decide_eq_true ⟨hp, rfl⟩

theorem requestedFor_eq {t : System} (hdisk : t.disk = s.disk) (hmarker : t.marker = s.marker) :
    t.requestedFor = s.requestedFor := by
  rw [System.requestedFor, hdisk, hmarker]
  rfl

/-- What a resize that grows the file system back leaves. -/
theorem resize_frame (fate : Fate) (size : ℕ) (s : System) :
    (resize fate size s).state.disk = s.disk ∧ (resize fate size s).state.luks = s.luks ∧
      (resize fate size s).state.marker = s.marker ∧
        (resize fate size s).state.sealedKey = s.sealedKey ∧
          (resize fate size s).state.folder = s.folder := by
  cases fate <;> exact ⟨rfl, rfl, rfl, rfl, rfl⟩

theorem resize_filesystem {fate : Fate} {size : ℕ} (h : fate = .done ∨ fate = .late) :
    (resize fate size s).state.filesystem = size := by
  rcases h with rfl | rfl
  · rfl
  · rfl

/-- What is left when a save has given up and things are forgotten. -/
theorem settled_cleanUp {t : System} {r : Outcome System Error Empty Unit} (hluks : s.luks = none)
    (hp : s.disk.partuuid.isSome) (hsaved : Saved asked steps s r) (ht : r.state = t)
    (hc : (steps.markerLeft asked s).isSome ∧ steps.markerLeft asked s = s.disk.partuuid ∧
          steps.KeepsMarker (steps.sealedKeyLeft asked s) ∨
        steps.Forgets (steps.sealedKeyLeft asked s) (steps.markerLeft asked s).isSome
          (steps.folderLeft s) ∧ steps.Grows) :
    (resize steps.grow s.disk.size (forget steps t).state).state.Settled := by
  subst ht
  rw [← hsaved.sealedKey, ← hsaved.marker, ← hsaved.folder] at hc
  have hforgot := forgot steps r.state
  obtain ⟨hdisk, -, hluks'⟩ := hforgot.frame
  obtain ⟨gdisk, gluks, gmarker, gsealed, gfolder⟩ :=
    resize_frame steps.grow s.disk.size (forget steps r.state).state
  refine ⟨gluks.trans (hluks'.trans (hsaved.luks.trans hluks)), fun hnot ↦ ?_⟩
  rcases hc with ⟨hsome, hmarker, hkeeps⟩ | ⟨hforgets, hgrows⟩
  · refine absurd (requestedFor_of_marker (gdisk.trans (hdisk.trans hsaved.disk)) ?_ hp) hnot
    exact gmarker.trans ((hforgot.keepsMarker hkeeps hsome).trans hmarker)
  · obtain ⟨hsealed, hfolder⟩ := hforgot.forgets hforgets
    refine ⟨?_, gsealed.trans hsealed, gfolder.trans hfolder⟩
    rw [gdisk, hdisk, hsaved.disk]
    exact resize_filesystem hgrows

theorem cleanUp_state (e : Error) (size : ℕ) (t : System) :
    ((ignore (forget steps) >>= fun _ ↦ ignore (resize steps.grow size) >>= fun _ ↦ fail e :
      Act Unit) t).state = (resize steps.grow size (forget steps t).state).state := rfl

/-- A request that is not refused, whatever room it makes. -/
theorem settled_accepted (h : s.Settled) {partuuid : String} (hp : s.disk.partuuid = some partuuid)
    (hlate : steps.shrink = .late → s.requestedFor)
    (hdone : steps.shrink = .done → steps.Saves asked ∨
      (steps.markerLeft asked s).isSome ∧ steps.markerLeft asked s = s.disk.partuuid ∧
          steps.KeepsMarker (steps.sealedKeyLeft asked s) ∨
        steps.Forgets (steps.sealedKeyLeft asked s) (steps.markerLeft asked s).isSome
          (steps.folderLeft s) ∧ steps.Grows) (room : ℕ) (key : Secret) :
    ((rescue (resize steps.shrink room) (fun _ ↦
        fail (.context "Luft's partition couldn't make room for encryption")) >>= fun _ ↦
      rescue (Request.save ⟨key, asked.passphrase⟩ partuuid asked.tpm steps) fun error ↦
        ignore (forget steps) >>= fun _ ↦
          ignore (resize steps.grow s.disk.size) >>= fun _ ↦ fail error) s).state.Settled := by
  have hp' : s.disk.partuuid.isSome := hp ▸ rfl
  rcases attempt_cases steps.shrink Error.failed id (System.setFilesystem · room) s with
    ⟨hfate, hshrink⟩ | ⟨hfate, t, hshrink, ht⟩
  swap
  · rw [bind_of_error (e := .context "Luft's partition couldn't make room for encryption")]
    swap
    · rw [rescue_of_error (e := .failed) (by rw [resize, hshrink]), resize, hshrink]
      rfl
    rw [rescue_of_error (e := .failed) (by rw [resize, hshrink]), resize, hshrink]
    rcases ht with ⟨-, rfl⟩ | ⟨-, rfl⟩ | ⟨hfate', rfl⟩
    · exact h
    · exact h
    · exact ⟨h.luks, fun hnot ↦ absurd (hlate hfate') hnot⟩
  have hroom : rescue (resize steps.shrink room) (fun _ ↦
      fail (.context "Luft's partition couldn't make room for encryption")) s =
      ⟨.ok (), s.setFilesystem room, []⟩ := by
    rw [rescue_of_ok (a := ()) (by rw [resize, hshrink]), resize, hshrink]
  rw [bind_of_eq_ok hroom]
  have hsaved : Saved asked steps (s.setFilesystem room) _ := saved (s := s.setFilesystem room) hp key
  by_cases hsaves : steps.Saves asked
  · obtain ⟨hok, hmarker⟩ := hsaved.ok hsaves
    rw [rescue_of_ok hok]
    exact ⟨hsaved.luks.trans h.luks, fun hnot ↦
      absurd (requestedFor_of_marker hsaved.disk hmarker hp') hnot⟩
  · obtain ⟨e, he⟩ := hsaved.error hsaves
    rw [rescue_of_error he]
    change (_ : Outcome System Error Empty Unit).state.Settled
    rw [cleanUp_state]
    exact settled_cleanUp (s := s.setFilesystem room) h.luks hp' hsaved rfl
      ((hdone hfate).resolve_left hsaves)

theorem settled_request (h : s.Settled) (hc : Careful (.request asked steps) s) :
    (request asked steps s).state.Settled := by
  obtain ⟨-, hsame⟩ | ⟨haccepts, key, partuuid, -, hp, hrun⟩ := request_cases asked steps s
  · rw [hsame]
    exact h
  · obtain ⟨hlate, hdone⟩ := hc haccepts
    rw [hrun]
    exact settled_accepted h hp hlate hdone s.room key

/-- Without a request, or where it comes to nothing, `cancel` changes nothing. -/
theorem cancel_cases (steps : Steps) (s : System) (hluks : s.luks = none) :
    (¬(steps.found ∧ steps.mounts ∧ s.requestedFor) ∧ (cancel steps s).state = s) ∨
      (steps.found ∧ steps.mounts ∧ s.requestedFor) ∧
        cancel steps s = (forget steps >>= fun _ ↦ resize steps.grow s.disk.size) s := by
  rw [cancel, require_bind]
  by_cases hfound : steps.found
  swap
  · rw [if_neg hfound]
    exact .inl ⟨fun h ↦ hfound h.1, rfl⟩
  rw [if_pos hfound, bind_of_eq_ok state_apply]
  by_cases hrequested : s.requestedFor
  swap
  · rw [if_neg hrequested]
    exact .inl ⟨fun h ↦ hrequested h.2.2, rfl⟩
  rw [if_pos hrequested, require_bind, if_pos (by rw [hluks]; rfl), require_bind]
  by_cases hmounts : steps.mounts
  · rw [if_pos hmounts]
    exact .inr ⟨⟨hfound, hmounts, hrequested⟩, rfl⟩
  · rw [if_neg hmounts]
    exact .inl ⟨fun h ↦ hmounts h.2.1, rfl⟩

theorem settled_cancel (h : s.Settled) (hc : Careful (.cancel steps) s) :
    (cancel steps s).state.Settled := by
  obtain ⟨-, hsame⟩ | ⟨⟨hfound, hmounts, hrequested⟩, hrun⟩ := cancel_cases steps s h.luks
  · rw [hsame]
    exact h
  rw [hrun]
  obtain ⟨hsome, -⟩ := of_decide_eq_true hrequested
  have hforgot := forgot steps s
  rcases hc hfound hmounts hrequested with hkeeps | ⟨hmarker, hforgets, hsize⟩
  · obtain ⟨hdisk, -, hluks⟩ := hforgot.frame
    have hkept := hforgot.keepsMarker hkeeps hsome
    rcases hresult : (forget steps s).result with e | u
    · rw [bind_of_error hresult]
      refine ⟨hluks.trans h.luks, fun hnot ↦ absurd ?_ hnot⟩
      exact (requestedFor_eq hdisk hkept).trans hrequested
    · rw [bind_of_ok hresult]
      obtain ⟨gdisk, gluks, gmarker, -, -⟩ :=
        resize_frame steps.grow s.disk.size (forget steps s).state
      refine ⟨gluks.trans (hluks.trans h.luks), fun hnot ↦ absurd ?_ hnot⟩
      exact (requestedFor_eq (gdisk.trans hdisk) (gmarker.trans hkept)).trans hrequested
  · rw [bind_of_eq_ok (hforgot.ok hmarker (hsome ▸ hforgets))]
    obtain ⟨gdisk, gluks, -, gsealed, gfolder⟩ := resize_frame steps.grow s.disk.size
      (((s.setSealedKey none).setMarker none).setFolder none)
    refine ⟨gluks.trans h.luks, fun _ ↦ ⟨?_, gsealed, gfolder⟩⟩
    rw [gdisk]
    rcases hsize with hsize | hgrows
    · cases steps.grow with
      | done => rfl
      | failed => exact hsize
      | halfway => exact hsize
      | late => rfl
    · exact resize_filesystem hgrows

/-- When no step fails, `cancel` takes everything back. -/
theorem clean_cancel (h : s.Settled) :
    (s.step (.cancel {})).Clean ∧ ¬(s.step (.cancel {})).requestedFor := by
  change (cancel {} s).state.Clean ∧ ¬(cancel {} s).state.requestedFor
  obtain ⟨hnot, hsame⟩ | ⟨⟨-, -, hrequested⟩, hrun⟩ := cancel_cases {} s h.luks
  · have hnot' : ¬s.requestedFor := fun hrequested ↦ hnot ⟨rfl, rfl, hrequested⟩
    rw [hsame]
    exact ⟨h.clean hnot', hnot'⟩
  · rw [hrun, bind_of_eq_ok ((forgot {} s).ok rfl ⟨fun _ ↦ rfl, fun _ ↦ ⟨fun _ ↦ rfl, rfl⟩⟩)]
    exact ⟨⟨rfl, rfl, rfl⟩, nofun⟩

namespace System

theorem Settled.step (h : s.Settled) {call : Call} (hc : Careful call s) :
    (System.step call s).Settled := by
  rcases call with ⟨asked, steps⟩ | steps
  · exact settled_request h hc
  · exact settled_cancel h hc

/-- **What was asked for can be taken back** at every point of a run of careful calls. -/
theorem takenBack_run {run : List Call} (hs : s.Settled) (h : Runs.Along step Careful run s) :
    Runs.Throughout step TakenBack run s := by
  refine (h.throughout (P := Settled) (fun _ _ ht hc ↦ ht.step hc) hs).mono fun t ht ↦ ?_
  exact ⟨ht.clean, clean_cancel ht⟩

end System

/-! ## Runs -/

/-- Luft's partition, 64 GiB, before anything is asked for. -/
def untouched : System where
  disk := ⟨some "7c0f", none, "btrfs", some ROOT_TYPE, 64 * 1073741824⟩
  filesystem := 64 * 1073741824
  marker := none
  sealedKey := none
  folder := none
  luks := none
  escrow := none

/-- What a person asks for. -/
def wish : Asked where
  recoveryKey := "cbdefghi-jklnrtuv-cbdefghi-jklnrtuv-cbdefghi-jklnrtuv-cbdefghi-jklnrtuv"
  passphrase := "correct horse"
  onBattery := false
  tpm := true

/-- What a request leaves that works. -/
def wished : System :=
  { untouched with
    filesystem := untouched.room
    marker := some "7c0f"
    sealedKey := some wish.recoveryKey
    folder := some ⟨some wish.recoveryKey, some wish.passphrase⟩ }

theorem checked_wish :
    checked wish.recoveryKey wish.passphrase wish.tpm wish.onBattery = .ok wish.recoveryKey := by
  have hmodhex : MODHEX = ['c', 'b', 'd', 'e', 'f', 'g', 'h', 'i', 'j', 'k', 'l', 'n', 'r', 't', 'u', 'v'] :=
    String.toList_ofList
  have htyped : wish.recoveryKey = String.ofList (dashed (List.replicate 4 MODHEX).flatten) := by
    rw [hmodhex]
    rfl
  have hnormal : normalize wish.recoveryKey = wish.recoveryKey := by
    rw [htyped, normalize, String.toList_ofList, hmodhex]
    exact if_neg (by decide +kernel)
  have hkey : isRecoveryKey wish.recoveryKey = true := by
    rw [isRecoveryKey, hnormal, htyped, String.toList_ofList, hmodhex]
    decide +kernel
  have hlong : ¬((wish.passphrase ≠ "" ∨ ¬wish.tpm) ∧ wish.passphrase.length < SHORTEST_PASSPHRASE) := by
    rw [← String.length_toList]
    simp [wish, SHORTEST_PASSPHRASE]
  rw [checked, hnormal, if_neg (not_not.2 hkey), if_neg hlong]
  rfl

theorem request_wish (steps : Steps) (h : steps.free ∧ steps.found ∧ steps.mounts) {s : System}
    (hdisk : s.disk = untouched.disk) (hluks : s.luks = none) :
    request wish steps s = (rescue (resize steps.shrink s.room) (fun _ ↦
        fail (.context "Luft's partition couldn't make room for encryption")) >>= fun _ ↦
      rescue (Request.save ⟨wish.recoveryKey, wish.passphrase⟩ "7c0f" wish.tpm steps) fun error ↦
        ignore (forget steps) >>= fun _ ↦
          ignore (resize steps.grow s.disk.size) >>= fun _ ↦ fail error) s := by
  have hpossible : s.possible = true := by simp [System.possible, hdisk, untouched]
  obtain ⟨hnot, -⟩ | ⟨-, key, partuuid, hchecked, hp, hrun⟩ := request_cases wish steps s
  · refine absurd ⟨h.1, h.2.1, h.2.2, hpossible, hluks, by rw [hdisk]; rfl, ?_⟩ hnot
    rw [checked_wish]
    rfl
  rw [checked_wish] at hchecked
  rw [hdisk] at hp
  cases hchecked
  cases hp
  exact hrun

/-- The marker can't be written, which is cleaned up, nor removed later, which is tried again. -/
def hesitant : List Call :=
  [.request wish { marker := .failed }, .request wish {}, .cancel { forgetMarker := .failed },
    .request wish { sealedKey := .late, forgetSealedKey := .halfway }, .cancel { mounts := false },
    .cancel {}, .cancel {}]

theorem step_request (asked : Asked) (steps : Steps) (s : System) :
    System.step (.request asked steps) s = (request asked steps s).state := rfl

theorem passphrase_wish : decide (wish.passphrase ≠ "") = true := by simp [wish]

theorem step_wish : System.step (.request wish {}) untouched = wished := by
  rw [step_request, request_wish {} ⟨rfl, rfl, rfl⟩ rfl rfl, Request.save]
  simp only [passphrase_wish]
  rfl

theorem takenBack_run_hesitant : untouched.Settled ∧
    Runs.Along System.step Careful hesitant untouched ∧
      Runs.Throughout System.step System.TakenBack hesitant untouched := by
  have hs : untouched.Settled := ⟨rfl, fun _ ↦ ⟨rfl, rfl, rfl⟩⟩
  have hcleaned : System.step (.request wish { marker := .failed }) untouched = untouched := by
    rw [step_request, request_wish { marker := .failed } ⟨rfl, rfl, rfl⟩ rfl rfl, Request.save]
    simp only [passphrase_wish]
    rfl
  have hkept : System.step (.cancel { forgetMarker := .failed }) wished = wished.setSealedKey none := rfl
  have htried : System.step (.request wish { sealedKey := .late, forgetSealedKey := .halfway })
      (wished.setSealedKey none) = (wished.setSealedKey none).setFilesystem untouched.filesystem := by
    rw [step_request, request_wish { sealedKey := .late, forgetSealedKey := .halfway } ⟨rfl, rfl, rfl⟩
      (s := wished.setSealedKey none) rfl rfl, Request.save]
    simp only [passphrase_wish]
    rfl
  have h : Runs.Along System.step Careful hesitant untouched := by
    rw [hesitant, Runs.Along, hcleaned, Runs.Along, step_wish, Runs.Along, hkept, Runs.Along, htried]
    exact ⟨fun _ ↦ by decide, fun _ ↦ by decide, by decide, fun _ ↦ by decide, by decide⟩
  exact ⟨hs, h, System.takenBack_run hs h⟩

/-- The folder can't be removed when the request is taken back. -/
def halfForgotten : List Call := [.request wish {}, .cancel { removeFolder := .failed true true }]

/-- The credentials are left and the file system stays small, and `cancel` does nothing about it. -/
theorem not_takenBack :
    ¬Runs.Throughout System.step System.TakenBack halfForgotten untouched ∧
      ∃ t, t = Runs.after System.step halfForgotten untouched ∧ t.folder.isSome ∧
        t.filesystem < t.disk.size ∧ (cancel {} t).result.isOk ∧ (cancel {} t).state = t := by
  have hafter : Runs.after System.step halfForgotten untouched = (wished.setSealedKey none).setMarker none := by
    rw [halfForgotten, Runs.after_cons, step_wish]
    rfl
  refine ⟨fun h ↦ absurd h.finish ?_, _, rfl, ?_⟩
  · rw [hafter]
    decide
  · rw [hafter]
    decide

end Trust
