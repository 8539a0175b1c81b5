import Luft.Lib.Op
import Luft.Lib.Runs
import Luft.Trust.Encrypting

/-!
# What the disk key is sealed to

The TPM gives the disk key away when the firmware measures the value it was sealed to.  Changes to
Secure Boot change that value, and `followUp` and `beforeRestart` seal the key to the new one
without asking anyone, if they expected the change: `beforeRestart` works out what the next start
will measure and writes it down, and `followUp` compares it with what was measured.  Any other
change is marked and waits for an administrator.

`Machine` is a computer with what its firmware says in this boot and the files the trust daemon
keeps.  `Follows` says what a step of the daemon may do, and `follows_run` in which runs every step
does no more.
-/

set_option autoImplicit false

namespace Trust.Seal

open Op

/-- How long ago `beforeRestart` worked a value out: in this boot, or in the last one before this
one whose measurement could be read.  `waiting` is when no later measurement could be read yet. -/
inductive Age
  | here
  | waiting
  | next
  | past
  deriving DecidableEq, Repr

/-- `predictions` are the values that `beforeRestart` worked out while no mark was set and no
forbidden entry was missing, and `fresh` whether it wrote one down in this boot.  Nothing keeps
these two but this model. -/
structure Machine where
  /-- The measurement of this boot, if it can be read. -/
  pcr : Option String
  /-- The entries of the firmware's forbidden list. -/
  forbidden : List String
  secureBoot : Bool
  /-- What the TPM is bound to. -/
  slot : Option String
  sealedTo : Option String
  sealedForbidden : Option (List String)
  predicted : Option String
  changed : Bool
  installed : Bool
  predictions : List (String × Age)
  fresh : Bool
  deriving DecidableEq, Repr

abbrev Act (α : Type) := Op Machine Error Empty α

/-- What becomes of the steps of a call. -/
structure Steps where
  /-- `tpm_unavailable_reason` has none. -/
  tpm : Bool := true
  /-- There is a disk that the TPM unlocks without a PIN, and a key that opens it. -/
  disk : Bool := true
  /-- What the event log and the variables say that the next start measures. -/
  next : Option String := none
  predictedRead : Bool := true
  sealedToRead : Bool := true
  forbiddenRead : Bool := true
  /-- The firmware's forbidden list can be read, to compare it and to write it down. -/
  listCompared : Bool := true
  listKept : Bool := true
  changedSeen : Bool := true
  forgetPredicted : Fate := .done
  forgetChanged : Fate := .done
  forgetInstalled : Fate := .done
  predicted : Fate := .done
  mark : Fate := .done
  enroll : Fate := .done
  started : Fate := .done
  sealedTo : Fate := .done
  sealedForbidden : Fate := .done
  deriving DecidableEq, Repr

variable (steps : Steps)

/-! ## The files -/

def Machine.readSealedTo (s : Machine) : Option String :=
  if steps.sealedToRead then s.sealedTo else none

def Machine.recorded (s : Machine) : List String := s.sealedForbidden.getD []

def Machine.forbiddenNow (readable : Bool) (s : Machine) : List String :=
  if readable then s.forbidden else []

def Machine.revocationsRemoved (s : Machine) : Bool :=
  (if steps.forbiddenRead then s.recorded else []).any (· ∉ s.forbiddenNow steps.listCompared)

def Machine.secureBootChanged (s : Machine) : Bool := s.changed ∧ steps.changedSeen

/-- Files that can't be removed are left. -/
def forget (fate : Fate) (change : Machine → Machine) : Act Unit :=
  ignore (attempt fate .failed id change)

def forgetPredicted : Act Unit := forget steps.forgetPredicted fun s ↦ { s with predicted := none }
def forgetChanged : Act Unit := forget steps.forgetChanged fun s ↦ { s with changed := false }
def forgetInstalled : Act Unit := forget steps.forgetInstalled fun s ↦ { s with installed := false }

def markChanged : Act Unit := fun s ↦
  if s.secureBootChanged steps then ⟨.ok (), s, []⟩
  else attempt steps.mark .failed id (fun s ↦ { s with changed := true }) s

def rememberSeal (pcr : String) : Act Unit := do
  attempt steps.sealedTo .failed id fun s ↦ { s with sealedTo := some pcr }
  attempt steps.sealedForbidden .failed id fun s ↦
    { s with sealedForbidden := some (s.forbiddenNow steps.listKept) }

def sealTo (pcr : String) : Act Unit := do
  attempt steps.enroll .failed id fun s ↦ { s with slot := some pcr }
  attempt steps.started .failed id id
  rememberSeal steps pcr
  forgetChanged steps
  forgetInstalled steps

/-! ## The calls -/

def sealedDisk (s : Machine) : Bool := s.secureBoot ∧ steps.tpm ∧ steps.disk

def firstMeasuredStart (now : String) : Act Unit :=
  onlyIf (steps.tpm ∧ steps.disk) (sealTo steps now)

/-- What `followUp` does once it has read the prediction and forgotten it. -/
def compare (now : String) (predicted : Option String) : Act Unit := fun s ↦
  if s.readSealedTo steps = some now then
    (forgetChanged steps >>= fun _ ↦ onlyIf steps.tpm (forgetInstalled steps)) s
  else if s.installed then firstMeasuredStart steps now s
  else if ¬sealedDisk steps s then ⟨.ok (), s, []⟩
  else if predicted ≠ some now ∨ s.revocationsRemoved steps then markChanged steps s
  else sealTo steps now s

def followUp : Act Unit := do
  let s ← state
  match s.pcr with
  | none => pure ()
  | some now =>
    forgetPredicted steps
    compare steps now (if steps.predictedRead then s.predicted else none)

def acceptSecureBootChange : Act Unit := fun s ↦
  match s.pcr with
  | none => ⟨.error (.context "The TPM didn't say how this computer started."), s, []⟩
  | some now =>
    if sealedDisk steps s then sealTo steps now s
    else ⟨.error (.unsupported
      "The disk can't be linked to the security chip right now. Link it again instead."), s, []⟩

def enroll : Act Unit := fun s ↦
  if ¬steps.tpm then ⟨.error .failed, s, []⟩
  else
    match s.pcr with
    | none => ⟨.error (.context "The TPM didn't say how this computer started."), s, []⟩
    | some now => sealTo steps now s

/-- A value that was worked out while no mark was set and no forbidden entry was missing. -/
def Machine.predict (next : String) (s : Machine) : Machine :=
  { s with
    predicted := some next
    fresh := true
    predictions :=
      if s.changed ∨ ¬s.recorded ⊆ s.forbidden then s.predictions
      else (next, .here) :: s.predictions }

/-- What `beforeRestart` does once the prediction is written down. -/
def sealNext (next : String) : Act Unit := fun s ↦
  if s.readSealedTo steps = some next then ⟨.ok (), s, []⟩
  else if sealedDisk steps s then sealTo steps next s
  else ⟨.ok (), s, []⟩

def beforeRestart : Act Unit := fun s ↦
  match s.pcr.bind fun _ ↦ steps.next with
  | none => ⟨.ok (), s, []⟩
  | some next =>
    if s.secureBootChanged steps then ⟨.ok (), s, []⟩
    else if s.revocationsRemoved steps then ⟨.ok (), s, []⟩
    else
      (attempt steps.predicted .failed id (Machine.predict next) >>= fun _ ↦ sealNext steps next) s

/-! ## Boots -/

inductive Event
  /-- The computer restarts and measures this. -/
  | boot (pcr : Option String) (forbidden : List String) (secureBoot : Bool)
  | followUp (steps : Steps)
  | beforeRestart (steps : Steps)
  | accept (steps : Steps)
  | enroll (steps : Steps)

/-- What becomes of a value with the next boot. -/
def Age.older (age : Age) (readable : Bool) : Age :=
  match age with
  | .here => if readable then .next else .waiting
  | .waiting => if readable then .next else .waiting
  | .next => .past
  | .past => .past

namespace Machine

def boot (pcr : Option String) (forbidden : List String) (secureBoot : Bool) (s : Machine) :
    Machine :=
  { s with
    pcr, forbidden, secureBoot
    predictions := s.predictions.map fun (v, age) ↦ (v, age.older pcr.isSome)
    fresh := false }

def step (e : Event) (s : Machine) : Machine :=
  match e with
  | .boot pcr forbidden secureBoot => s.boot pcr forbidden secureBoot
  | .followUp steps => (followUp steps s).state
  | .beforeRestart steps => (beforeRestart steps s).state
  | .accept steps => (acceptSecureBootChange steps s).state
  | .enroll steps => (enroll steps s).state

/-- The value was worked out in this boot or in the last one before, without a mark. -/
def Expected (s : Machine) (v : String) : Prop :=
  (v, .here) ∈ s.predictions ∨ (v, .next) ∈ s.predictions

instance (s : Machine) (v : String) : Decidable (s.Expected v) := inferInstanceAs (Decidable (_ ∨ _))

/-- What a step of the daemon does without an administrator. -/
structure Automatic (s t : Machine) : Prop where
  /-- The TPM is bound to a new value only if it was expected. -/
  expected : ∀ v, t.slot = some v → s.slot ≠ some v → t.Expected v
  /-- The list that was written down loses no entry. -/
  recorded : s.recorded ⊆ t.recorded
  /-- While the mark is set the TPM stays bound to what it is. -/
  marked : s.changed → t.slot = s.slot

def Follows (e : Event) (s : Machine) : Prop :=
  match e with
  | .followUp _ => Automatic s (s.step e)
  | .beforeRestart _ => Automatic s (s.step e)
  | _ => True

end Machine

/-! ## Which steps follow only what was expected -/

namespace Machine

/-- A prediction is compared with the next measurement and forgotten then, and where a seal depends
on the lists of forbidden entries they can be read. -/
def Careful (e : Event) (s : Machine) : Prop :=
  match e with
  | .boot _ _ _ => s.pcr.isSome → s.predicted.isSome → s.fresh
  | .followUp steps => s.pcr.isSome → s.predicted.isSome →
      (steps.forgetPredicted = .done ∨ steps.forgetPredicted = .late) ∧
        (s.predicted = s.pcr → sealedDisk steps s →
          (steps.forbiddenRead ∨ s.recorded ⊆ s.forbidden) ∧ (steps.listKept ∨ s.recorded = []))
  | .beforeRestart steps => s.pcr.isSome → steps.next.isSome →
      (steps.changedSeen ∨ ¬s.changed) ∧ (steps.forbiddenRead ∨ s.recorded ⊆ s.forbidden) ∧
        (sealedDisk steps s → steps.listKept ∨ s.recorded = [])
  | .accept _ => True
  | .enroll _ => True

instance (e : Event) (s : Machine) : Decidable (Careful e s) :=
  match e with
  | .boot _ _ _ => inferInstanceAs (Decidable (_ → _))
  | .followUp _ => inferInstanceAs (Decidable (s.pcr.isSome → _))
  | .beforeRestart _ => inferInstanceAs (Decidable (s.pcr.isSome → _))
  | .accept _ => .isTrue trivial
  | .enroll _ => .isTrue trivial

/-- Nothing waits for the first start after the installation, and a prediction that is written down
was made without a mark and has not missed a measurement. -/
structure Sound (s : Machine) : Prop where
  installed : s.installed = false
  unmarked : s.predicted.isSome → s.changed = false
  predicted : ∀ v, s.predicted = some v →
    (v, if s.fresh then Age.here else if s.pcr.isSome then .next else .waiting) ∈ s.predictions

/-- What sealing to a value changes. -/
structure Sealed (steps : Steps) (v : String) (s t : Machine) : Prop where
  slot : t.slot = s.slot ∨ t.slot = some v
  recorded : t.recorded = s.recorded ∨ t.recorded = s.forbiddenNow steps.listKept
  changed : t.changed → s.changed
  installed : t.installed → s.installed
  pcr : t.pcr = s.pcr
  forbidden : t.forbidden = s.forbidden
  predicted : t.predicted = s.predicted
  predictions : t.predictions = s.predictions
  fresh : t.fresh = s.fresh

end Machine

variable {steps : Steps} {v : String} {s t : Machine}

open Machine

theorem Machine.Sealed.refl (s : Machine) : Sealed steps v s s :=
  ⟨.inl rfl, .inl rfl, id, id, rfl, rfl, rfl, rfl, rfl⟩

/-- **Sealing**, however far it comes. -/
theorem keeps_sealTo (steps : Steps) (v : String) (s : Machine) :
    Keeps (Sealed steps v s) (fun _ ↦ True) (sealTo steps v) := by
  have hid : ∀ t, Sealed steps v s t → Sealed steps v s (id t) := fun _ h ↦ h
  refine .bind (.attempt hid fun t h ↦ { h with slot := .inr rfl }) fun _ ↦ .bind (.attempt hid hid)
    fun _ ↦ .bind (.bind (.attempt hid fun t h ↦ { h with }) fun _ ↦ .attempt hid fun t h ↦ ?_)
    fun _ ↦ .bind (.ignore (.attempt hid fun t h ↦ { h with changed := nofun })) fun _ ↦
    .ignore (.attempt hid fun t h ↦ { h with installed := nofun })
  refine { h with recorded := .inr ?_ }
  rw [recorded, Option.getD_some, forbiddenNow, forbiddenNow, h.forbidden]

/-- The files that a step is not about may have changed before it. -/
theorem Machine.Automatic.of_eq {u : Machine} (h : Automatic u t) (hslot : u.slot = s.slot)
    (hrecorded : u.recorded = s.recorded) (hchanged : s.changed → u.changed) : Automatic s t where
  expected := fun v ht hs ↦ h.expected v ht (hslot ▸ hs)
  recorded := hrecorded ▸ h.recorded
  marked := fun hmarked ↦ (h.marked (hchanged hmarked)).trans hslot

/-- What a call changes that seals nothing. -/
structure Quiet (s t : Machine) : Prop where
  slot : t.slot = s.slot
  recorded : t.recorded = s.recorded
  installed : t.installed → s.installed
  pcr : t.pcr = s.pcr
  predicted : t.predicted = s.predicted
  predictions : t.predictions = s.predictions
  fresh : t.fresh = s.fresh

theorem Quiet.refl (s : Machine) : Quiet s s := ⟨rfl, rfl, id, rfl, rfl, rfl, rfl⟩

theorem Quiet.automatic (h : Quiet s t) : Automatic s t where
  expected := fun _ ht hs ↦ absurd (h.slot ▸ ht) hs
  recorded := h.recorded ▸ List.Subset.refl _
  marked := fun _ ↦ h.slot

theorem keeps_markChanged : Keeps (Quiet s) (fun _ ↦ True) (markChanged steps) := by
  intro t ht
  rw [markChanged.eq_def]
  by_cases hseen : t.secureBootChanged steps
  · rw [if_pos hseen]
    exact ⟨ht, nofun⟩
  · rw [if_neg hseen]
    have hmark : Keeps (Quiet s) (fun _ ↦ True)
        (attempt steps.mark .failed id fun s ↦ { s with changed := true } : Act Unit) :=
      .attempt (fun _ h ↦ h) fun _ h ↦ { h with }
    exact hmark t ht

/-- What `followUp` does after it forgot the prediction: it seals to what was predicted, or seals
nothing. -/
theorem compare_cases (steps : Steps) (hinstalled : s.installed = false) (now : String)
    (predicted : Option String) :
    Quiet s (compare steps now predicted s).state ∨
      predicted = some now ∧ s.revocationsRemoved steps = false ∧ sealedDisk steps s ∧
        Sealed steps now s (compare steps now predicted s).state := by
  rw [compare.eq_def]
  by_cases hsame : s.readSealedTo steps = some now
  · rw [if_pos hsame]
    have hforget : Keeps (Quiet s) (fun _ ↦ True) (forgetChanged steps >>= fun _ ↦
        onlyIf steps.tpm (forgetInstalled steps)) :=
      .bind (.ignore (.attempt (fun _ h ↦ h) fun _ h ↦ { h with })) fun _ ↦
        .onlyIf fun _ ↦ .ignore (.attempt (fun _ h ↦ h) fun _ h ↦ { h with installed := nofun })
    exact .inl (hforget s (.refl s)).1
  rw [if_neg hsame, if_neg (by rw [hinstalled]; exact Bool.false_ne_true)]
  by_cases hdisk : sealedDisk steps s
  swap
  · rw [if_pos hdisk]
    exact .inl (.refl s)
  rw [if_neg (not_not_intro hdisk)]
  by_cases hunexpected : predicted ≠ some now ∨ s.revocationsRemoved steps
  · rw [if_pos hunexpected]
    exact .inl (keeps_markChanged s (.refl s)).1
  · rw [if_neg hunexpected]
    obtain ⟨hpredicted, hrevoked⟩ := not_or.1 hunexpected
    exact .inr ⟨not_not.1 hpredicted, Bool.eq_false_iff.2 hrevoked, hdisk,
      (keeps_sealTo steps now s s (.refl s)).1⟩

/-- No entry is missing when none was found missing. -/
theorem recorded_subset_forbidden (hrevoked : s.revocationsRemoved steps = false)
    (hread : steps.forbiddenRead ∨ s.recorded ⊆ s.forbidden) : s.recorded ⊆ s.forbidden := by
  intro f hf
  rcases hread with hread | hsubset
  · rw [revocationsRemoved, if_pos hread, List.any_eq_false] at hrevoked
    have hmem : f ∈ s.forbiddenNow steps.listCompared := by simpa using hrevoked f hf
    rw [forbiddenNow] at hmem
    cases hlist : steps.listCompared with
    | true =>
      rw [hlist] at hmem
      exact hmem
    | false =>
      rw [hlist] at hmem
      cases hmem
  · exact hsubset hf

/-- The list that is written down has all the entries of the one before. -/
theorem recorded_subset_forbiddenNow (h : s.recorded ⊆ s.forbidden)
    (hkept : steps.listKept ∨ s.recorded = []) : s.recorded ⊆ s.forbiddenNow steps.listKept := by
  rcases hkept with hkept | hempty
  · rw [forbiddenNow, if_pos hkept]
    exact h
  · rw [hempty]
    exact List.nil_subset _

/-- A seal is what follows from a prediction without a mark. -/
theorem Machine.Sealed.automatic (h : Sealed steps v s t) (hexpected : s.Expected v)
    (hunmarked : s.changed = false) (hsubset : s.recorded ⊆ s.forbiddenNow steps.listKept) :
    Automatic s t where
  expected := by
    intro v' ht hs
    rcases h.slot with hsame | hslot
    · exact absurd (hsame ▸ ht) hs
    · rw [← Option.some.inj (hslot.symm.trans ht), Expected, h.predictions]
      exact hexpected
  recorded := by
    rcases h.recorded with hsame | hnew
    · exact hsame ▸ List.Subset.refl _
    · exact hnew ▸ hsubset
  marked := by
    intro hmarked
    rw [hunmarked] at hmarked
    cases hmarked

namespace Machine.Sound

theorem of_sealed (hs : s.Sound) (h : Sealed steps v s t) : t.Sound where
  installed := Bool.eq_false_iff.2 fun ht ↦ Bool.eq_false_iff.1 hs.installed (h.installed ht)
  unmarked := fun hsome ↦ Bool.eq_false_iff.2 fun ht ↦ by
    have := hs.unmarked (h.predicted ▸ hsome)
    rw [h.changed ht] at this
    cases this
  predicted := by
    intro v' hv
    rw [h.fresh, h.pcr, h.predictions]
    exact hs.predicted v' (h.predicted ▸ hv)

theorem expected (hs : s.Sound) (hv : s.predicted = some v) (hpcr : s.pcr.isSome) : s.Expected v := by
  have hmem := hs.predicted v hv
  rw [if_pos hpcr] at hmem
  cases hfresh : s.fresh with
  | true =>
    rw [hfresh] at hmem
    exact .inl hmem
  | false =>
    rw [hfresh] at hmem
    exact .inr hmem

/-- The prediction is forgotten, if there is one. -/
theorem forgetPredicted_apply (h : s.predicted.isSome →
    steps.forgetPredicted = .done ∨ steps.forgetPredicted = .late) :
    forgetPredicted steps s = ⟨.ok (), { s with predicted := none }, []⟩ := by
  have hnone (hnone : s.predicted = none) : s = { s with predicted := none } := by rw [← hnone]
  rcases hpredicted : s.predicted with - | v
  · rcases attempt_cases (κ := Empty) steps.forgetPredicted Error.failed id
      (fun s : Machine ↦ { s with predicted := none }) s with ⟨-, hrun⟩ | ⟨-, t, hrun, ht⟩
    · rw [forgetPredicted, forget, ignore_apply, hrun]
    · rw [forgetPredicted, forget, ignore_apply, hrun]
      rcases ht with ⟨-, rfl⟩ | ⟨-, rfl⟩ | ⟨-, rfl⟩
      · rw [← hnone hpredicted]
      · exact congrArg (fun u ↦ Outcome.mk (.ok ()) u []) (hnone hpredicted)
      · rfl
  · rw [forgetPredicted, forget, ignore_apply]
    rcases h (hpredicted ▸ rfl) with hfate | hfate
    · rw [hfate]
      rfl
    · rw [hfate]
      rfl

theorem of_forgotten (hinstalled : t.installed = false) (h : t.predicted = none) : t.Sound where
  installed := hinstalled
  unmarked := fun hsome ↦ by
    rw [h] at hsome
    cases hsome
  predicted := fun v hv ↦ by
    rw [h] at hv
    cases hv

/-- **One `followUp`.** -/
theorem followUp (hs : s.Sound) (hc : Careful (.followUp steps) s) :
    (s.step (.followUp steps)).Sound ∧ Automatic s (s.step (.followUp steps)) := by
  change (Seal.followUp steps s).state.Sound ∧ Automatic s (Seal.followUp steps s).state
  rcases hpcr : s.pcr with - | now
  · rw [Seal.followUp, bind_of_eq_ok state_apply, hpcr]
    exact ⟨hs, (Quiet.refl s).automatic⟩
  have hrun : Seal.followUp steps s = (forgetPredicted steps >>= fun _ ↦
      Seal.compare steps now (if steps.predictedRead then s.predicted else none)) s := by
    rw [Seal.followUp, bind_of_eq_ok state_apply, hpcr]
  have hcareful := hc (hpcr ▸ rfl)
  rw [hrun, bind_of_eq_ok (forgetPredicted_apply fun hsome ↦ (hcareful hsome).1)]
  obtain hquiet | ⟨hpredicted, hrevoked, hdisk, hsealed⟩ :=
    compare_cases steps (s := { s with predicted := none }) hs.installed now
      (if steps.predictedRead then s.predicted else none)
  · have hinstalled := Bool.eq_false_iff.2 fun h ↦ Bool.eq_false_iff.1 hs.installed (hquiet.installed h)
    exact ⟨of_forgotten hinstalled hquiet.predicted, hquiet.automatic.of_eq rfl rfl id⟩
  · have hv : s.predicted = some now := by
      cases hread : steps.predictedRead with
      | true =>
        rw [hread] at hpredicted
        exact hpredicted
      | false =>
        rw [hread] at hpredicted
        cases hpredicted
    obtain ⟨-, hlists⟩ := hcareful (hv ▸ rfl)
    obtain ⟨hread, hkept⟩ := hlists (hv.trans hpcr.symm) hdisk
    have hinstalled := Bool.eq_false_iff.2 fun h ↦ Bool.eq_false_iff.1 hs.installed (hsealed.installed h)
    refine ⟨of_forgotten hinstalled hsealed.predicted, ?_⟩
    exact (hsealed.automatic (hs.expected hv (hpcr ▸ rfl)) (hs.unmarked (hv ▸ rfl))
      (recorded_subset_forbiddenNow (recorded_subset_forbidden hrevoked hread) hkept)).of_eq rfl rfl id

/-- A prediction without a mark and with no entry missing. -/
theorem predict (hs : s.Sound) (hchanged : s.changed = false) (hsubset : s.recorded ⊆ s.forbidden)
    (next : String) : (s.predict next).Sound ∧ (s.predict next).Expected next := by
  have hmem : (next, Age.here) ∈ (s.predict next).predictions := by
    have hnot : ¬(s.changed ∨ ¬s.recorded ⊆ s.forbidden) := by
      rw [hchanged]
      exact fun h ↦ h.elim Bool.false_ne_true fun h ↦ h hsubset
    rw [Machine.predict, if_neg hnot]
    exact List.mem_cons_self
  refine ⟨⟨hs.installed, fun _ ↦ hchanged, fun v hv ↦ ?_⟩, .inl hmem⟩
  rw [← Option.some.inj (show some next = some v from hv)]
  exact hmem

/-- **One `beforeRestart`.** -/
theorem beforeRestart (hs : s.Sound) (hc : Careful (.beforeRestart steps) s) :
    (s.step (.beforeRestart steps)).Sound ∧ Automatic s (s.step (.beforeRestart steps)) := by
  have hsame : s.Sound ∧ Automatic s s := ⟨hs, (Quiet.refl s).automatic⟩
  change (Seal.beforeRestart steps s).state.Sound ∧ Automatic s (Seal.beforeRestart steps s).state
  rw [Seal.beforeRestart.eq_def]
  rcases hpcr : s.pcr with - | now
  · exact hsame
  rcases hnext : steps.next with - | next
  · exact hsame
  obtain ⟨hseen, hread, hkept⟩ := hc (hpcr ▸ rfl) (hnext ▸ rfl)
  simp only [Option.bind_some]
  by_cases hmarked : s.secureBootChanged steps
  · rw [if_pos hmarked]
    exact hsame
  rw [if_neg hmarked]
  by_cases hrevoked : s.revocationsRemoved steps
  · rw [if_pos hrevoked]
    exact hsame
  rw [if_neg hrevoked]
  have hchanged : s.changed = false := by
    refine Bool.eq_false_iff.2 fun hchanged ↦ hmarked (decide_eq_true ⟨hchanged, ?_⟩)
    exact hseen.resolve_right (not_not_intro hchanged)
  have hsubset := recorded_subset_forbidden (Bool.eq_false_iff.2 hrevoked) hread
  obtain ⟨hpredict, hexpected⟩ := hs.predict hchanged hsubset next
  have hwritten : (s.predict next).Sound ∧ Automatic s (s.predict next) :=
    ⟨hpredict, fun _ ht hs ↦ absurd ht hs, List.Subset.refl _, fun _ ↦ rfl⟩
  rcases attempt_cases (κ := Empty) steps.predicted Error.failed id (Machine.predict next) s with
    ⟨-, hrun⟩ | ⟨-, t, hrun, ht⟩
  swap
  · rw [bind_of_eq_error hrun]
    rcases ht with ⟨-, rfl⟩ | ⟨-, rfl⟩ | ⟨-, rfl⟩
    · exact hsame
    · exact hsame
    · exact hwritten
  rw [bind_of_eq_ok hrun, sealNext.eq_def]
  by_cases hsealed : (s.predict next).readSealedTo steps = some next
  · rw [if_pos hsealed]
    exact hwritten
  rw [if_neg hsealed]
  by_cases hdisk : sealedDisk steps (s.predict next)
  swap
  · rw [if_neg hdisk]
    exact hwritten
  rw [if_pos hdisk]
  have hnew := (keeps_sealTo steps next _ _ (.refl (s.predict next))).1
  refine ⟨hpredict.of_sealed hnew, (hnew.automatic hexpected hchanged ?_).of_eq rfl rfl id⟩
  exact recorded_subset_forbiddenNow hsubset (hkept hdisk)

/-- An administrator seals to whatever was measured. -/
theorem sealTo (hs : s.Sound) (steps : Steps) (v : String) : (sealTo steps v s).state.Sound :=
  hs.of_sealed (keeps_sealTo steps v s s (.refl s)).1

theorem accept (hs : s.Sound) (steps : Steps) : (s.step (.accept steps)).Sound := by
  change (acceptSecureBootChange steps s).state.Sound
  rw [acceptSecureBootChange.eq_def]
  rcases s.pcr with - | now
  · exact hs
  · by_cases hdisk : sealedDisk steps s
    · simp only [if_pos hdisk]
      exact hs.sealTo steps now
    · simp only [if_neg hdisk]
      exact hs

theorem enroll (hs : s.Sound) (steps : Steps) : (s.step (.enroll steps)).Sound := by
  change (Seal.enroll steps s).state.Sound
  rw [Seal.enroll.eq_def]
  by_cases htpm : steps.tpm
  · rw [if_neg (not_not_intro htpm)]
    rcases s.pcr with - | now
    · exact hs
    · exact hs.sealTo steps now
  · rw [if_pos htpm]
    exact hs

theorem boot (hs : s.Sound) {pcr : Option String} {forbidden : List String} {secureBoot : Bool}
    (hc : Careful (.boot pcr forbidden secureBoot) s) : (s.boot pcr forbidden secureBoot).Sound where
  installed := hs.installed
  unmarked := hs.unmarked
  predicted := by
    intro v hv
    have hmem := hs.predicted v hv
    have hage : ∀ age, (v, age) ∈ s.predictions →
        (v, age.older pcr.isSome) ∈ (s.boot pcr forbidden secureBoot).predictions :=
      fun age h ↦ List.mem_map.2 ⟨_, h, rfl⟩
    change (v, if pcr.isSome then Age.next else Age.waiting) ∈ _
    by_cases hfresh : s.fresh
    · rw [if_pos hfresh] at hmem
      exact hage _ hmem
    · have hpcr : ¬s.pcr.isSome := fun hpcr ↦ hfresh (hc hpcr (hv ▸ rfl))
      rw [if_neg hfresh, if_neg hpcr] at hmem
      exact hage _ hmem

theorem step (hs : s.Sound) {e : Event} (hc : Careful e s) : (s.step e).Sound := by
  cases e with
  | boot => exact hs.boot hc
  | followUp => exact (hs.followUp hc).1
  | beforeRestart => exact (hs.beforeRestart hc).1
  | accept steps => exact hs.accept steps
  | enroll steps => exact hs.enroll steps

theorem follows (hs : s.Sound) {e : Event} (hc : Careful e s) : Follows e s := by
  cases e with
  | boot => exact trivial
  | followUp => exact (hs.followUp hc).2
  | beforeRestart => exact (hs.beforeRestart hc).2
  | accept => exact trivial
  | enroll => exact trivial

end Machine.Sound

/-! ## Whole runs -/

/-- A computer that has been installed. -/
def installed : Machine where
  pcr := some "pcr"
  forbidden := ["first"]
  secureBoot := true
  slot := some "pcr"
  sealedTo := some "pcr"
  sealedForbidden := some ["first"]
  predicted := none
  changed := false
  installed := false
  predictions := []
  fresh := false

/-- Two updates, the second of which is sealed to only in the boot it was expected in, and a change
that nobody expected. -/
def updates : List Event :=
  [.beforeRestart { next := some "update" }, .boot (some "update") ["first", "second"] true,
    .followUp {}, .beforeRestart { next := some "again", enroll := .failed },
    .boot none ["first", "second"] true, .followUp {}, .boot (some "again") ["first", "second"] true,
    .followUp { sealedForbidden := .failed }, .boot (some "stranger") [] true,
    .followUp { mark := .late }, .beforeRestart { next := some "stranger" }, .accept {}]

/-- The prediction can't be removed in the boot it is for, which measures something else. -/
def stale : List Event :=
  [.beforeRestart { next := some "update", enroll := .failed }, .boot (some "stranger") ["first"] true,
    .followUp { forgetPredicted := .failed }, .boot (some "update") ["first"] true, .followUp {}]

end Trust.Seal
