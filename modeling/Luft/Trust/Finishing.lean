import Luft.Lib.Runs
import Luft.Trust.Encrypting

/-!
# Encrypting in place survives interruption

The start that finds a request makes the header (`openInInitrd`), and the daemon has cryptsetup go
through the partition, finishes the header and forgets the request (`run`).  Each of them can be cut
off anywhere, and finds out from the header alone what was done before.

`Good` is what every header in between is like, and `survives_run` says that the request is not
forgotten before everything it asked for is there.
-/

set_option autoImplicit false

namespace Trust

open Op

/-! ## The start and the daemon -/

/-- What becomes of the steps of a start. -/
structure StartSteps where
  found : Bool := true
  mounts : Bool := true
  loads : Bool := true
  start : Fate := .done
  unseals : Bool := true
  opens : Bool := true
  deriving DecidableEq, Repr

/-- What becomes of the child that encrypts the partition.  `ended` is whether it came to the end
all the same. -/
inductive Child
  | finished
  | stopped (ended : Bool)
  /-- It can't be started, or the daemon is cut off. -/
  | cut (ended : Bool)
  deriving DecidableEq, Repr

/-- What becomes of the steps of a run of the daemon. -/
structure RunSteps where
  found : Bool := true
  mounts : Bool := true
  loads : Bool := true
  child : Child := .finished
  readable : Bool := true
  token : Fate := .done
  passphrase : Fate := .done
  escrow : Fate := .done
  /-- After how many changes enrolling the TPM is cut off, if it is. -/
  enroll : Option ℕ := none
  /-- What the enrollment was for is written down. -/
  remembers : Bool := true
  forget : Steps := {}
  deriving DecidableEq, Repr

def Request.load (loads : Bool) : Act Request := fun s ↦
  match s.folder.bind (·.recoveryKey), loads with
  | some key, true => ⟨.ok ⟨key, (s.folder.bind (·.passphrase)).getD ""⟩, s, []⟩
  | _, _ => ⟨.error (.context "The recovery key Luft is being encrypted with is missing"), s, []⟩

def setLuks (l : Luks) (s : System) : System := { s with luks := some l }

/-- One of the tools changes the header. -/
def changeLuks (fate : Fate) (change : Luks → Option Luks) : Act Unit := fun s ↦
  match s.luks.bind change with
  | some l => attempt fate .failed id (setLuks l) s
  | none => ⟨.error .failed, s, []⟩

section

variable (tools : Tools)

def start (fate : Fate) (key : Secret) : Act Unit :=
  attempt fate (.context "Encrypting Luft's partition couldn't start") id (setLuks (tools.start key))

/-- Attaching the mapping changes nothing that stays. -/
def openPartition (opens : Bool) : Act Unit :=
  require opens (.context "Luft's partition couldn't be opened while it's being encrypted")

def openInInitrd (steps : StartSteps) : Act Unit := do
  let s ← state
  if s.marker.isSome then
    require steps.found .failed
    if s.disk.partuuid = s.marker then
      match s.luks with
      | none =>
        require steps.mounts .failed
        let request ← Request.load steps.loads
        start tools steps.start request.recoveryKey
        openPartition steps.opens
      | some l =>
        onlyIf (l.reencrypting.isSome ∧ s.sealedKey.isSome ∧ steps.unseals)
          (openPartition steps.opens)

/-- The child goes through the partition; whether it ended well. -/
def reencrypt (child : Child) : Act Bool := fun s ↦
  match child with
  | .finished => ⟨.ok true, { s with luks := s.luks.map tools.resume }, []⟩
  | .stopped ended =>
    ⟨.ok false, { s with luks := if ended then s.luks.map tools.resume else s.luks }, []⟩
  | .cut ended =>
    ⟨.error .failed, { s with luks := if ended then s.luks.map tools.resume else s.luks }, []⟩

/-- The header as it is now. -/
def header : Act Header := fun s ↦
  match s.luks with
  | some l => ⟨.ok l.read, s, []⟩
  | none => ⟨.error (.context "Luft's partition lost its encryption"), s, []⟩

def addRecoveryToken (fate : Fate) (slot : ℕ) : Act Unit :=
  changeLuks fate (tools.importToken · ⟨RECOVERY, [slot], false⟩)

def addKeyslot (fate : Fate) (unlock new : Secret) (header : Header) : Act Unit :=
  changeLuks fate (tools.addKey · unlock new header.freeSlot)

def escrow (fate : Fate) (key : Secret) : Act Unit :=
  attempt fate .failed id fun s ↦ { s with escrow := some key }

/-- `seal::enroll`; the files it writes about the enrollment are no part of the request. -/
def enroll (cut : Option ℕ) (remembers : Bool) (unlock : Secret) : Act Unit := fun s ↦
  match s.luks, cut with
  | none, _ => ⟨.error .failed, s, []⟩
  | some l, some k => ⟨.error .failed, setLuks (((tools.enroll l unlock)[k]?).getD l) s, []⟩
  | some l, none =>
    match (tools.enroll l unlock).getLast? with
    | none => ⟨.error .failed, s, []⟩
    | some l' => ⟨if remembers then .ok () else .error .failed, setLuks l' s, []⟩

def finish (tpm : Bool) (steps : RunSteps) (request : Request) : Act Unit := do
  let first ← header
  onlyIf (¬first.has RECOVERY) (addRecoveryToken tools steps.token 0)
  let second ← header
  onlyIf (request.passphrase ≠ "" ∧ second.passphraseSlots.isEmpty)
    (addKeyslot tools steps.passphrase request.recoveryKey request.passphrase second)
  onlyIf tpm (do
    escrow steps.escrow request.recoveryKey
    enroll tools steps.enroll steps.remembers request.recoveryKey)

/-- Whether the partition is to be gone through again later. -/
def goThrough (steps : RunSteps) (reencrypting : Bool) : Act Bool := do
  if reencrypting then
    let ended ← reencrypt tools steps.child
    if ended then pure false
    else
      require steps.readable .failed
      let s ← state
      pure (s.luks.any (·.reencrypting.isSome))
  else pure false

def run (tpm : Bool) (steps : RunSteps) : Act Bool := do
  require steps.found (.context "The system disk couldn't be found.")
  let s ← state
  match s.luks.filter fun _ ↦ s.requestedFor with
  | none => pure true
  | some l =>
    require steps.mounts .failed
    let request ← Request.load steps.loads
    let again ← goThrough tools steps l.reencrypting.isSome
    if again then pure false
    else
      finish tools tpm steps request
      forget steps.forget
      pure true

end

/-! ## What the request asked for -/

/-- Luft's partition, and whether the TPM could be used in the last run of the daemon that had a
request to finish. -/
structure Life where
  system : System
  tpm : Bool
  deriving DecidableEq, Repr

inductive Event
  | start (steps : StartSteps)
  | run (tpm : Bool) (steps : RunSteps)

namespace Life

def step (tools : Tools) (e : Event) (life : Life) : Life :=
  match e with
  | .start steps => { life with system := (openInInitrd tools steps life.system).state }
  | .run tpm steps =>
    { system := (run tools tpm steps life.system).state
      tpm := if life.system.requestedFor then tpm else life.tpm }

end Life

/-- The passphrase is in exactly one slot that no token claims. -/
def Luks.HasPassphrase (l : Luks) (passphrase : Secret) : Prop :=
  ∃! slot, (slot, Opener.secret passphrase) ∈ l.slots ∧ slot ∉ l.read.claimed

/-- A token says that the recovery key is in slot 0. -/
def Luks.HasRecovery (l : Luks) : Prop := ∃ t ∈ l.tokens, t.2.kind = RECOVERY ∧ 0 ∈ t.2.keyslots

/-- Everything the request asked for is there. -/
structure Finished (request : Request) (tpm : Bool) (s : System) (l : Luks) : Prop where
  encrypted : l.reencrypting = none
  recovery : l.HasRecovery
  passphrase : request.passphrase ≠ "" → l.HasPassphrase request.passphrase
  escrow : tpm → s.escrow = some request.recoveryKey
  tpmSlot : tpm → Tools.OneTpmSlot l

/-- The request is there as it was saved. -/
structure Kept (request : Request) (s : System) : Prop where
  marker : s.requestedFor
  recoveryKey : s.folder.bind (·.recoveryKey) = some request.recoveryKey
  passphrase : (s.folder.bind (·.passphrase)).getD "" = request.passphrase

/-- The request is there, or all it asked for, and the recovery key opens the partition once it has
a header. -/
structure Survives (request : Request) (life : Life) : Prop where
  opens : ∀ l, life.system.luks = some l → l.Opens request.recoveryKey
  kept : Kept request life.system ∨
    ∃ l, life.system.luks = some l ∧ Finished request life.tpm life.system l

/-! ## What every header in between is like -/

/-- How far the header is, as far as the passphrase goes. -/
inductive Stage (request : Request) (l : Luks) : Prop
  | notAsked (empty : request.passphrase = "")
      (slots : ∀ slot ∈ l.slots, slot = (0, .secret request.recoveryKey) ∨ slot.2 = .tpm)
  /-- Nothing of the TPM is there before the passphrase is. -/
  | before (asked : request.passphrase ≠ "") (slots : l.slots = [(0, .secret request.recoveryKey)])
      (tokens : ∀ t ∈ l.tokens, t.2.kind ≠ TPM2)
  | after (asked : request.passphrase ≠ "") (n : ℕ) (ne : n ≠ 0)
      (mem : (n, Opener.secret request.passphrase) ∈ l.slots)
      (slots : ∀ slot ∈ l.slots, slot = (0, .secret request.recoveryKey) ∨
        slot = (n, .secret request.passphrase) ∨ slot.2 = .tpm)

/-- The passphrase, if one was asked for, has a slot of its own. -/
def Added (request : Request) (l : Luks) : Prop :=
  request.passphrase ≠ "" → ∃ n ≠ 0, (n, Opener.secret request.passphrase) ∈ l.slots ∧
    ∀ slot ∈ l.slots, slot = (0, .secret request.recoveryKey) ∨
      slot = (n, .secret request.passphrase) ∨ slot.2 = .tpm

structure Good (request : Request) (l : Luks) : Prop where
  nodup : (l.slots.map (·.1)).Nodup
  zero : (0, Opener.secret request.recoveryKey) ∈ l.slots
  tokens : ∀ t ∈ l.tokens, t.2.kind = RECOVERY ∧ t.2.keyslots = [0] ∨ t.2.kind = TPM2
  claims : ∀ slot ∈ l.slots, slot.1 ∈ l.read.slotsOf TPM2 → slot.2 = .tpm
  stage : Stage request l

variable {tools : Tools} {request : Request} {l l' : Luks}

theorem mem_claimed {slot : ℕ} : slot ∈ l.read.claimed ↔ ∃ t ∈ l.tokens, slot ∈ t.2.keyslots :=
  List.mem_flatMap

theorem mem_slotsOf {kind : String} {slot : ℕ} : slot ∈ l.read.slotsOf kind ↔
    ∃ t ∈ l.tokens, t.2.kind = kind ∧ slot ∈ t.2.keyslots := by
  simp only [Header.slotsOf, Luks.read, List.mem_flatMap, List.mem_filter, decide_eq_true_eq,
    and_assoc]

theorem recovery_ne_tpm2 : RECOVERY ≠ TPM2 := by decide

namespace Good

/-- What no token claims is not the recovery key, once there is a token for it. -/
theorem claimed_zero (h : l.HasRecovery) : 0 ∈ l.read.claimed := by
  obtain ⟨t, ht, -, hzero⟩ := h
  exact mem_claimed.2 ⟨t, ht, hzero⟩

theorem hasRecovery (h : Good request l) (hhas : l.read.has RECOVERY) : l.HasRecovery := by
  obtain ⟨t, ht, hkind⟩ := List.any_eq_true.1 hhas
  have hkind := of_decide_eq_true hkind
  rcases h.tokens t ht with ⟨-, hzero⟩ | htpm
  · exact ⟨t, ht, hkind, hzero ▸ List.mem_singleton_self 0⟩
  · exact absurd (hkind.symm.trans htpm) recovery_ne_tpm2

/-- Only the recovery key's slot and slots of the TPM are claimed. -/
theorem of_claimed (h : Good request l) {slot : ℕ × Opener} (hslot : slot ∈ l.slots)
    (hclaimed : slot.1 ∈ l.read.claimed) : slot.1 = 0 ∨ slot.2 = .tpm := by
  obtain ⟨t, ht, hmem⟩ := mem_claimed.1 hclaimed
  rcases h.tokens t ht with ⟨-, hzero⟩ | hkind
  · rw [hzero] at hmem
    exact .inl (List.mem_singleton.1 hmem)
  · exact .inr (h.claims slot hslot (mem_slotsOf.2 ⟨t, ht, hkind, hmem⟩))

theorem opens (h : Good request l) : l.Opens request.recoveryKey := ⟨_, h.zero, rfl⟩

/-- The passphrase's slot is the only one that holds it and that no token claims. -/
theorem hasPassphrase (h : Good request l) (hrecovery : l.HasRecovery) (hadded : Added request l)
    (hasked : request.passphrase ≠ "") : l.HasPassphrase request.passphrase := by
  obtain ⟨n, hn, hmem, hslots⟩ := hadded hasked
  refine ⟨n, ⟨hmem, fun hclaimed ↦ ?_⟩, fun m ⟨hm, hfree⟩ ↦ ?_⟩
  · rcases h.of_claimed hmem hclaimed with hzero | htpm
    · exact hn hzero
    · cases htpm
  · rcases hslots _ hm with hzero | hsame | htpm
    · rw [(Prod.mk.inj hzero).1] at hfree
      exact absurd (claimed_zero hrecovery) hfree
    · exact (Prod.mk.inj hsame).1
    · cases htpm

theorem start (ht : tools.Documented) : Good request (tools.start request.recoveryKey) := by
  rw [ht.start]
  refine ⟨List.nodup_singleton _, List.mem_singleton_self _, nofun, fun _ _ h ↦ ?_, ?_⟩
  · cases h
  · by_cases hempty : request.passphrase = ""
    · exact .notAsked hempty fun slot hslot ↦ .inl (List.mem_singleton.1 hslot)
    · exact .before hempty rfl nofun

/-- The stage depends on the slots and, before the passphrase is there, on the tokens. -/
theorem stage_of_eq (h : Stage request l) (hslots : l'.slots = l.slots)
    (htokens : ∀ t ∈ l'.tokens, t.2.kind = TPM2 → t ∈ l.tokens) : Stage request l' := by
  cases h with
  | notAsked hempty h => exact .notAsked hempty (hslots ▸ h)
  | before hasked h htpm =>
    exact .before hasked (hslots.trans h) fun t ht hkind ↦ htpm t (htokens t ht hkind) hkind
  | after hasked n hn hmem h => exact .after hasked n hn (hslots ▸ hmem) (hslots ▸ h)

theorem resume (ht : tools.Documented) (h : Good request l) : Good request (tools.resume l) := by
  rw [ht.resume]
  exact ⟨h.nodup, h.zero, h.tokens, h.claims, stage_of_eq h.stage rfl fun _ ht _ ↦ ht⟩

theorem importToken (ht : tools.Documented) (h : Good request l)
    (hl : tools.importToken l ⟨RECOVERY, [0], false⟩ = some l') :
    Good request l' ∧ l'.HasRecovery ∧ l'.reencrypting = l.reencrypting := by
  obtain ⟨id, rfl⟩ := ht.importToken _ _ _ hl
  have hold : ∀ t ∈ l.tokens ++ [(id, (⟨RECOVERY, [0], false⟩ : Token))], t.2.kind = TPM2 →
      t ∈ l.tokens := by
    intro t ht hkind
    rcases List.mem_append.1 ht with ht | ht
    · exact ht
    · rw [List.mem_singleton.1 ht] at hkind
      exact absurd hkind recovery_ne_tpm2
  refine ⟨⟨h.nodup, h.zero, fun t ht ↦ ?_, fun slot hslot hclaim ↦ ?_, stage_of_eq h.stage rfl hold⟩,
    ⟨_, List.mem_append_right _ (List.mem_singleton_self _), rfl, List.mem_singleton_self _⟩, rfl⟩
  · rcases List.mem_append.1 ht with ht | ht
    · exact h.tokens t ht
    · rw [List.mem_singleton.1 ht]
      exact .inl ⟨rfl, rfl⟩
  · obtain ⟨t, ht, hkind, hmem⟩ := mem_slotsOf.1 hclaim
    exact h.claims slot hslot (mem_slotsOf.2 ⟨t, hold t ht hkind, hkind, hmem⟩)

/-- Once there is a token for the recovery key, a slot that no token claims is missing only before
the passphrase is there. -/
theorem before_of_passphraseSlots (h : Good request l) (hrecovery : l.HasRecovery)
    (hasked : request.passphrase ≠ "") :
    l.read.passphraseSlots = [] ↔
      l.slots = [(0, .secret request.recoveryKey)] ∧ ∀ t ∈ l.tokens, t.2.kind ≠ TPM2 := by
  rw [Header.passphraseSlots, List.filter_eq_nil_iff]
  constructor
  · intro hnone
    cases h.stage with
    | notAsked hempty => exact absurd hempty hasked
    | before _ hslots htokens => exact ⟨hslots, htokens⟩
    | after _ n hn hmem =>
      refine absurd (decide_eq_true (p := n ∉ l.read.claimed) fun hclaimed ↦ ?_) (hnone n (List.mem_map_of_mem hmem))
      rcases h.of_claimed hmem hclaimed with hzero | htpm
      · exact hn hzero
      · cases htpm
  · rintro ⟨hslots, -⟩ n hn hfree
    rw [Luks.read, hslots] at hn
    rw [List.mem_singleton.1 hn] at hfree
    exact of_decide_eq_true hfree (claimed_zero hrecovery)

theorem added (h : Good request l) (hsome : request.passphrase ≠ "" → l.read.passphraseSlots ≠ [])
    (hrecovery : l.HasRecovery) : Added request l := by
  intro hasked
  cases h.stage with
  | notAsked hempty => exact absurd hempty hasked
  | before _ hslots htokens =>
    exact absurd ((h.before_of_passphraseSlots hrecovery hasked).2 ⟨hslots, htokens⟩) (hsome hasked)
  | after _ n hn hmem hslots => exact ⟨n, hn, hmem, hslots⟩

theorem addKey (ht : tools.Documented) (h : Good request l) (hrecovery : l.HasRecovery)
    (hasked : request.passphrase ≠ "") (hnone : l.read.passphraseSlots = []) {slot : ℕ}
    (hl : tools.addKey l request.recoveryKey request.passphrase slot = some l') :
    Good request l' ∧ l'.HasRecovery ∧ l'.reencrypting = l.reencrypting ∧ Added request l' := by
  obtain ⟨hfree, rfl⟩ := ht.addKey _ _ _ _ _ hl
  obtain ⟨hslots, htokens⟩ := (h.before_of_passphraseSlots hrecovery hasked).1 hnone
  have hne : slot ≠ 0 := by
    rintro rfl
    exact hfree (List.mem_map_of_mem h.zero)
  have hmem : ∀ s ∈ l.slots ++ [(slot, Opener.secret request.passphrase)],
      s = (0, .secret request.recoveryKey) ∨ s = (slot, .secret request.passphrase) := by
    intro s hs
    rw [hslots] at hs
    exact (List.mem_append.1 hs).imp List.mem_singleton.1 List.mem_singleton.1
  have hnew : (slot, Opener.secret request.passphrase) ∈
      l.slots ++ [(slot, Opener.secret request.passphrase)] :=
    List.mem_append_right _ (List.mem_singleton_self _)
  have hall : ∀ s ∈ l.slots ++ [(slot, Opener.secret request.passphrase)],
      s = (0, .secret request.recoveryKey) ∨ s = (slot, .secret request.passphrase) ∨ s.2 = .tpm :=
    fun s hs ↦ (hmem s hs).imp_right .inl
  refine ⟨⟨?_, List.mem_append_left _ h.zero, h.tokens, fun s _ hclaim ↦ ?_,
    .after hasked slot hne hnew hall⟩, hrecovery, rfl, fun _ ↦ ⟨slot, hne, hnew, hall⟩⟩
  · rw [List.map_append, List.nodup_append]
    refine ⟨h.nodup, List.nodup_singleton _, fun a ha b hb heq ↦ hfree ?_⟩
    have hsame : b = slot := List.mem_singleton.1 hb
    rw [← hsame, ← heq]
    exact ha
  · obtain ⟨t, ht, hkind, -⟩ := mem_slotsOf.1 hclaim
    exact absurd hkind (htokens t ht)

theorem enrolling (h : Good request l) (hadded : Added request l) (he : Tools.Enrolling l l') :
    Good request l' ∧ Added request l' := by
  have hkept : ∀ slot ∈ l.slots, slot.2 ≠ .tpm → slot ∈ l'.slots := fun slot hslot hne ↦
    (he.kept slot hslot).resolve_right fun hclaim ↦ hne (h.claims slot hslot hclaim)
  have hadded' : Added request l' := by
    intro hasked
    obtain ⟨n, hn, hmem, hslots⟩ := hadded hasked
    refine ⟨n, hn, hkept _ hmem nofun, fun slot hslot ↦ ?_⟩
    rcases he.slots slot hslot with hold | ⟨htpm, -⟩
    · exact hslots slot hold
    · exact .inr (.inr htpm)
  refine ⟨⟨he.nodup, hkept _ h.zero nofun, fun t ht ↦ ?_, fun slot hslot hclaim ↦ ?_, ?_⟩, hadded'⟩
  · by_cases hkind : t.2.kind = TPM2
    · exact .inr hkind
    · have hmem : t ∈ l'.tokens.filter (·.2.kind ≠ TPM2) :=
        List.mem_filter.2 ⟨ht, decide_eq_true hkind⟩
      rw [he.others] at hmem
      exact h.tokens t (List.mem_filter.1 hmem).1
  · rcases he.slots slot hslot with hold | ⟨htpm, -⟩
    · rcases he.claims slot.1 hclaim with hclaimed | hnew
      · exact h.claims slot hold hclaimed
      · exact absurd (List.mem_map_of_mem hold) hnew
    · exact htpm
  · by_cases hasked : request.passphrase = ""
    · refine .notAsked hasked fun slot hslot ↦ ?_
      rcases he.slots slot hslot with hold | ⟨htpm, -⟩
      · cases h.stage with
        | notAsked _ hslots => exact hslots slot hold
        | before hne => exact absurd hasked hne
        | after hne => exact absurd hasked hne
      · exact .inr htpm
    · obtain ⟨n, hn, hmem, hslots⟩ := hadded' hasked
      exact .after hasked n hn hmem hslots

theorem hasRecovery_enrolling (h : l.HasRecovery) (he : Tools.Enrolling l l') : l'.HasRecovery := by
  obtain ⟨t, ht, hkind, hzero⟩ := h
  have hmem : t ∈ l.tokens.filter (·.2.kind ≠ TPM2) := by
    refine List.mem_filter.2 ⟨ht, decide_eq_true ?_⟩
    rw [hkind]
    exact recovery_ne_tpm2
  rw [← he.others] at hmem
  exact ⟨t, (List.mem_filter.1 hmem).1, hkind, hzero⟩

end Good

/-! ## What the steps keep -/

/-- The request is there and the partition has a header with `P`. -/
structure Has (request : Request) (P : Luks → Prop) (s : System) : Prop where
  kept : Kept request s
  luks : ∃ l, s.luks = some l ∧ P l

variable {P Q : Luks → Prop}

theorem Has.mono {s : System} (h : Has request P s) (hPQ : ∀ l, P l → Q l) : Has request Q s := by
  obtain ⟨l, hl, hp⟩ := h.luks
  exact ⟨h.kept, l, hl, hPQ l hp⟩

theorem Has.setLuks {s : System} (h : Has request P s) {l' : Luks} (hl' : Q l') :
    Has request Q (Trust.setLuks l' s) :=
  ⟨⟨h.kept.marker, h.kept.recoveryKey, h.kept.passphrase⟩, l', rfl, hl'⟩

theorem Has.escrowed {s : System} (h : Has request P s) (key : Secret) :
    Has request P { s with escrow := some key } :=
  ⟨⟨h.kept.marker, h.kept.recoveryKey, h.kept.passphrase⟩, h.luks⟩

theorem meets_load {A : System → Prop} (hA : ∀ s, A s → Kept request s) (loads : Bool) :
    Meets A (Request.load loads) (fun loaded s ↦ loaded = request ∧ A s) A := by
  intro s hs
  have hkept := hA s hs
  rw [Request.load.eq_def, hkept.recoveryKey]
  cases loads with
  | false => exact ⟨nofun, fun _ _ ↦ hs⟩
  | true =>
    refine ⟨fun loaded h ↦ ⟨?_, hs⟩, nofun⟩
    rw [← Except.ok.inj h, hkept.passphrase]

theorem meets_changeLuks {R : Luks → Prop} {fate : Fate} {change : Luks → Option Luks}
    (hchange : ∀ l l', P l → change l = some l' → Q l') (hP : ∀ l, P l → R l)
    (hQ : ∀ l, Q l → R l) : Meets (Has request P) (changeLuks fate change)
      (fun _ ↦ Has request Q) (Has request R) := by
  intro s hs
  obtain ⟨l, hl, hp⟩ := hs.luks
  rw [changeLuks.eq_def, hl, Option.bind_some]
  rcases hnew : change l with - | l'
  · exact ⟨nofun, fun _ _ ↦ hs.mono hP⟩
  have hq := hchange l l' hp hnew
  rcases attempt_cases (κ := Empty) fate Error.failed id (setLuks l') s with
    ⟨-, hrun⟩ | ⟨-, t, hrun, ht⟩
  · simp only [hrun]
    exact ⟨fun _ _ ↦ hs.setLuks hq, nofun⟩
  · simp only [hrun]
    refine ⟨nofun, fun _ _ ↦ ?_⟩
    rcases ht with ⟨-, rfl⟩ | ⟨-, rfl⟩ | ⟨-, rfl⟩
    · exact hs.mono hP
    · exact hs.mono hP
    · exact hs.setLuks (hQ l' hq)

theorem meets_header {failed : System → Prop} : Meets (Has request P) header
    (fun h s ↦ Has request (fun l ↦ P l ∧ l.read = h) s) failed := by
  intro s hs
  obtain ⟨l, hl, hp⟩ := hs.luks
  rw [header.eq_def, hl]
  exact ⟨fun h heq ↦ ⟨hs.kept, l, hl, hp, Except.ok.inj heq⟩, nofun⟩

/-- The TPM is enrolled in a header that has the rest, and the escrow was written before. -/
theorem meets_enroll (ht : tools.Documented) (cut : Option ℕ) (remembers : Bool)
    (hP : ∀ l, P l → Good request l ∧ Added request l) (hQ : ∀ l l', P l →
      Tools.Enrolling l l' → Tools.OneTpmSlot l' → Q l') (key : Secret) :
    Meets (fun s ↦ Has request P s ∧ s.escrow = some request.recoveryKey)
      (enroll tools cut remembers key)
      (fun _ s ↦ Has request Q s ∧ s.escrow = some request.recoveryKey)
      (Has request (Good request)) := by
  rintro s ⟨hs, hescrow⟩
  obtain ⟨l, hl, hp⟩ := hs.luks
  obtain ⟨hgood, hadded⟩ := hP l hp
  have henrolling := ht.enrolling l key hgood.nodup
  rw [enroll.eq_def, hl]
  rcases cut with - | k
  · rcases hlast : (tools.enroll l key).getLast? with - | l'
    · simp only [hlast]
      exact ⟨nofun, fun _ _ ↦ hs.mono fun l hp ↦ (hP l hp).1⟩
    have he := henrolling l' (List.mem_of_getLast? hlast)
    simp only [hlast]
    cases remembers with
    | false => exact ⟨nofun, fun _ _ ↦ hs.setLuks (hgood.enrolling hadded he).1⟩
    | true =>
      exact ⟨fun _ _ ↦ ⟨hs.setLuks (hQ l l' hp he (ht.enrolled l key l' hlast)), hescrow⟩, nofun⟩
  · refine ⟨nofun, fun _ _ ↦ ?_⟩
    rcases hk : (tools.enroll l key)[k]? with - | l'
    · simp only [hk, Option.getD_none]
      exact hs.setLuks hgood
    · simp only [hk, Option.getD_some]
      exact hs.setLuks (hgood.enrolling hadded (henrolling l' (List.mem_of_getElem? hk))).1

/-- A header that has all but what the TPM adds. -/
structure Ready (request : Request) (l : Luks) : Prop where
  good : Good request l
  encrypted : l.reencrypting = none
  recovery : l.HasRecovery
  added : Added request l

/-- The request is there and what it asked for too. -/
def Complete (request : Request) (tpm : Bool) (s : System) : Prop :=
  Has request (fun l ↦ Good request l ∧ Finished request tpm s l) s

theorem Ready.finished {s : System} {tpm : Bool} {l : Luks} (h : Ready request l)
    (hescrow : tpm → s.escrow = some request.recoveryKey) (hslot : tpm → Tools.OneTpmSlot l) :
    Finished request tpm s l :=
  ⟨h.encrypted, h.recovery, h.good.hasPassphrase h.recovery h.added, hescrow, hslot⟩

/-- **Finishing** a header that is encrypted. -/
theorem meets_finish (ht : tools.Documented) (tpm : Bool) (steps : RunSteps) :
    Meets (Has request fun l ↦ Good request l ∧ l.reencrypting = none)
      (finish tools tpm steps request) (fun _ ↦ Complete request tpm)
      (Has request (Good request)) := by
  have hgood : ∀ l, Good request l ∧ l.reencrypting = none → Good request l := fun _ h ↦ h.1
  refine meets_header.bind fun first ↦ Meets.bind (B := fun _ ↦ Has request fun l ↦
    Good request l ∧ l.reencrypting = none ∧ l.HasRecovery) (.onlyIf (fun _ ↦ ?_) fun hnot s hs ↦ ?_)
    fun _ ↦ meets_header.bind fun second ↦ Meets.bind (B := fun _ ↦ Has request (Ready request))
      (.onlyIf (fun hadd ↦ ?_) fun hnot s hs ↦ ?_) fun _ ↦ .onlyIf (fun htpm ↦ ?_) fun hnot s hs ↦ ?_
  · exact meets_changeLuks (fun l l' h hl ↦ by
      obtain ⟨hgood', hrecovery, hsame⟩ := h.1.1.importToken ht hl
      exact ⟨hgood', hsame.trans h.1.2, hrecovery⟩) (fun _ h ↦ h.1.1) fun _ h ↦ h.1
  · refine hs.mono ?_
    rintro l ⟨⟨hg, hencrypted⟩, rfl⟩
    exact ⟨hg, hencrypted, hg.hasRecovery (by simpa using hnot)⟩
  · obtain ⟨hasked, hempty⟩ := of_decide_eq_true hadd
    refine meets_changeLuks (fun l l' h hl ↦ ?_) (fun _ h ↦ h.1.1) fun _ h ↦ h.good
    obtain ⟨⟨hg, hencrypted, hrecovery⟩, rfl⟩ := h
    obtain ⟨hg', hrecovery', hsame, hadded⟩ :=
      hg.addKey ht hrecovery hasked (List.isEmpty_iff.1 hempty) hl
    exact ⟨hg', hsame.trans hencrypted, hrecovery', hadded⟩
  · refine hs.mono ?_
    rintro l ⟨⟨hg, hencrypted, hrecovery⟩, rfl⟩
    refine ⟨hg, hencrypted, hrecovery, hg.added (fun hasked hempty ↦ ?_) hrecovery⟩
    exact of_decide_eq_false hnot ⟨hasked, List.isEmpty_iff.2 hempty⟩
  · refine Meets.bind (B := fun _ s ↦ Has request (Ready request) s ∧
      s.escrow = some request.recoveryKey) (.attempt ?_ ?_ ?_ ?_) fun _ ↦ ?_
    · exact fun s hs ↦ ⟨hs.escrowed _, rfl⟩
    · exact fun s hs ↦ hs.mono fun _ h ↦ h.good
    · exact fun s hs ↦ hs.mono fun _ h ↦ h.good
    · exact fun s hs ↦ (hs.escrowed _).mono fun _ h ↦ h.good
    · refine (meets_enroll (Q := fun l ↦ Ready request l ∧ Tools.OneTpmSlot l) ht _ _
        (fun _ h ↦ ⟨h.good, h.added⟩) (fun l l' h he hone ↦ ?_) _).mono (fun _ h ↦ h)
        (fun _ s hs ↦ ?_) fun _ h ↦ h
      · obtain ⟨hg, hadded⟩ := h.good.enrolling h.added he
        exact ⟨⟨hg, he.reencrypting.trans h.encrypted, Good.hasRecovery_enrolling h.recovery he,
          hadded⟩, hone⟩
      · exact hs.1.mono fun l h ↦ ⟨h.1.good, h.1.finished (fun _ ↦ hs.2) fun _ ↦ h.2⟩
  · refine hs.mono fun l h ↦ ⟨h.good, h.finished ?_ ?_⟩
    · intro htpm
      rw [hnot] at htpm
      cases htpm
    · intro htpm
      rw [hnot] at htpm
      cases htpm

theorem Has.resume (ht : tools.Documented) {s : System} (h : Has request (Good request) s) :
    Has request (fun l ↦ Good request l ∧ l.reencrypting = none)
      { s with luks := s.luks.map tools.resume } := by
  obtain ⟨l, hl, hg⟩ := h.luks
  refine ⟨⟨h.kept.marker, h.kept.recoveryKey, h.kept.passphrase⟩, tools.resume l, ?_, hg.resume ht, ?_⟩
  · rw [hl]
    rfl
  · rw [ht.resume]

theorem meets_reencrypt (ht : tools.Documented) (child : Child) :
    Meets (Has request (Good request)) (reencrypt tools child)
      (fun ended ↦ Has request fun l ↦ Good request l ∧ (ended → l.reencrypting = none))
      (Has request (Good request)) := by
  intro s hs
  have hended : ∀ ended : Bool, Has request (Good request)
      { s with luks := if ended then s.luks.map tools.resume else s.luks } := by
    intro ended
    cases ended with
    | false => exact hs
    | true => exact (hs.resume ht).mono fun _ h ↦ h.1
  rw [reencrypt.eq_def]
  cases child with
  | finished =>
    exact ⟨fun _ _ ↦ (hs.resume ht).mono fun _ h ↦ ⟨h.1, fun _ ↦ h.2⟩, nofun⟩
  | stopped ended =>
    refine ⟨fun again h ↦ (hended ended).mono fun _ hg ↦ ⟨hg, fun hagain ↦ ?_⟩, nofun⟩
    rw [← Except.ok.inj h] at hagain
    cases hagain
  | cut ended => exact ⟨nofun, fun _ _ ↦ hended ended⟩

theorem meets_goThrough (ht : tools.Documented) (steps : RunSteps) (reencrypting : Bool) :
    Meets (Has request fun l ↦ Good request l ∧ l.reencrypting.isSome = reencrypting)
      (goThrough tools steps reencrypting)
      (fun again ↦ Has request fun l ↦ Good request l ∧ (again = false → l.reencrypting = none))
      (Has request (Good request)) := by
  rw [goThrough]
  cases reencrypting with
  | false =>
    refine .pure fun s hs ↦ hs.mono fun l h ↦ ⟨h.1, fun _ ↦ ?_⟩
    exact Option.not_isSome_iff_eq_none.1 (Bool.eq_false_iff.1 h.2)
  | true =>
    refine ((meets_reencrypt ht steps.child).mono (fun s hs ↦ hs.mono fun _ h ↦ h.1) (fun _ _ h ↦ h)
      fun _ h ↦ h).bind fun ended ↦ ?_
    cases ended with
    | true => exact .pure fun s hs ↦ hs.mono fun l h ↦ ⟨h.1, fun _ ↦ h.2 rfl⟩
    | false =>
      refine (Meets.require fun s hs ↦ hs.mono fun _ h ↦ h.1).bind fun _ ↦ Meets.state.bind fun t ↦
        .pure ?_
      rintro s ⟨rfl, -, hs⟩
      obtain ⟨l, hl, hg, -⟩ := hs.luks
      refine ⟨hs.kept, l, hl, hg, fun hagain ↦ ?_⟩
      rw [hl, Option.any_some] at hagain
      exact Option.not_isSome_iff_eq_none.1 (Bool.eq_false_iff.1 hagain)

/-! ## Whole runs -/

/-- What is known of Luft's partition at any time. -/
structure Sound (request : Request) (tpm : Bool) (s : System) : Prop where
  good : ∀ l, s.luks = some l → Good request l
  kept : s.requestedFor → Kept request s
  finished : ¬s.requestedFor → ∃ l, s.luks = some l ∧ Finished request tpm s l

theorem Has.sound {tpm : Bool} {s : System} (h : Has request (Good request) s) :
    Sound request tpm s := by
  obtain ⟨l, hl, hg⟩ := h.luks
  refine ⟨fun l' hl' ↦ ?_, fun _ ↦ h.kept, fun hnot ↦ absurd h.kept.marker hnot⟩
  rw [← Option.some.inj (hl.symm.trans hl')]
  exact hg

/-- **Forgetting a request** that is complete, wherever it is cut off. -/
theorem Forgot.sound {steps : Steps} {tpm : Bool} {s : System}
    {r : Outcome System Error Empty Unit} (h : Forgot steps s r) (hs : Complete request tpm s) :
    Sound request tpm r.state := by
  obtain ⟨hkept, l, hl, hg, hfinished⟩ := hs
  obtain ⟨-, -, hluks⟩ := h.frame
  refine ⟨fun l' hl' ↦ ?_, fun hrequested ↦ ?_, fun _ ↦ ⟨l, hluks.trans hl, ?_⟩⟩
  · rw [← Option.some.inj (hl.symm.trans (hluks.symm.trans hl'))]
    exact hg
  · cases h with
    | sealedKey => exact ⟨hrequested, hkept.recoveryKey, hkept.passphrase⟩
    | marker => exact ⟨hrequested, hkept.recoveryKey, hkept.passphrase⟩
    | folder => cases hrequested
    | all => cases hrequested
  · refine ⟨hfinished.encrypted, hfinished.recovery, hfinished.passphrase, fun htpm ↦ ?_,
      hfinished.tpmSlot⟩
    cases h <;> exact hfinished.escrow htpm

theorem meets_forget (tpm : Bool) (steps : Steps) :
    Meets (Complete request tpm) (forget steps) (fun _ ↦ Sound request tpm) (Sound request tpm) :=
  fun s hs ↦ ⟨fun _ _ ↦ (forgot steps s).sound hs, fun _ _ ↦ (forgot steps s).sound hs⟩

namespace Sound

variable {tpm : Bool} {s : System}

/-- While there is a request, it does not matter whether the TPM can be used. -/
theorem withTpm (h : Sound request tpm s) (tpm' : Bool) :
    Sound request (if s.requestedFor then tpm' else tpm) s := by
  by_cases hrequested : s.requestedFor
  · exact ⟨h.good, h.kept, fun hnot ↦ absurd hrequested hnot⟩
  · rw [if_neg hrequested]
    exact h

theorem has (h : Sound request tpm s) (hrequested : s.requestedFor) {l : Luks} (hl : s.luks = some l) :
    Has request (fun l' ↦ Good request l' ∧ l'.reencrypting.isSome = l.reencrypting.isSome) s :=
  ⟨h.kept hrequested, l, hl, h.good l hl, rfl⟩

theorem run (ht : tools.Documented) (h : Sound request tpm s) (tpm' : Bool) (steps : RunSteps) :
    Sound request (if s.requestedFor then tpm' else tpm) (run tools tpm' steps s).state := by
  rw [Trust.run, require_bind]
  by_cases hfound : steps.found
  swap
  · rw [if_neg hfound]
    exact h.withTpm tpm'
  rw [if_pos hfound, bind_of_eq_ok state_apply]
  rcases hl : s.luks with - | l
  · exact h.withTpm tpm'
  by_cases hrequested : s.requestedFor
  swap
  · have hfilter : (some l).filter (fun _ ↦ s.requestedFor) = none := by
      rw [Option.filter_some, if_neg hrequested]
    rw [hfilter]
    exact h.withTpm tpm'
  have hfilter : (some l).filter (fun _ ↦ s.requestedFor) = some l := by
    rw [Option.filter_some, if_pos hrequested]
  rw [if_pos hrequested, hfilter]
  have hgood : ∀ s, Has request (fun l' ↦ Good request l' ∧
      l'.reencrypting.isSome = l.reencrypting.isSome) s → Sound request tpm' s :=
    fun _ hs ↦ (hs.mono fun _ hg ↦ hg.1).sound
  refine Meets.state_of (A := Has request fun l' ↦ Good request l' ∧
    l'.reencrypting.isSome = l.reencrypting.isSome) (I := Sound request tpm') ?_
    (h.has hrequested hl)
  refine (Meets.require hgood).bind fun _ ↦ ((meets_load (fun _ hs ↦ hs.kept) steps.loads).mono
    (fun _ hs ↦ hs.2) (fun _ _ hs ↦ hs) hgood).bind fun loaded ↦ ?_
  refine Meets.bind (B := fun again s ↦ loaded = request ∧ Has request (fun l ↦
    Good request l ∧ (again = false → l.reencrypting = none)) s) ?_ fun again ↦ ?_
  · rintro s ⟨rfl, hs⟩
    obtain ⟨hok, herror⟩ := meets_goThrough ht steps l.reencrypting.isSome s hs
    exact ⟨fun again ha ↦ ⟨rfl, hok again ha⟩, fun e he ↦ (herror e he).sound⟩
  · cases again with
    | true => exact .pure fun s hs ↦ (hs.2.mono fun _ hg ↦ hg.1).sound
    | false =>
      rintro s ⟨rfl, hs⟩
      have hrest : Meets (Has loaded fun l ↦ Good loaded l ∧ l.reencrypting = none)
          (finish tools tpm' steps loaded >>= fun _ ↦ forget steps.forget >>= fun _ ↦ pure true)
          (fun _ ↦ Sound loaded tpm') (Sound loaded tpm') :=
        ((meets_finish ht tpm' steps).mono (fun _ h ↦ h) (fun _ _ h ↦ h) fun _ h ↦ h.sound).bind
          fun _ ↦ (meets_forget tpm' steps.forget).bind fun _ ↦ .pure fun _ h ↦ h
      exact hrest s (hs.mono fun _ hg ↦ ⟨hg.1, hg.2 rfl⟩)

theorem openInInitrd (ht : tools.Documented) (h : Sound request tpm s) (steps : StartSteps) :
    Sound request tpm (openInInitrd tools steps s).state := by
  rw [Trust.openInInitrd, bind_of_eq_ok state_apply]
  by_cases hmarker : s.marker.isSome
  swap
  · rw [if_neg hmarker]
    exact h
  rw [if_pos hmarker, require_bind]
  by_cases hfound : steps.found
  swap
  · rw [if_neg hfound]
    exact h
  rw [if_pos hfound]
  by_cases hdisk : s.disk.partuuid = s.marker
  swap
  · rw [if_neg hdisk]
    exact h
  rw [if_pos hdisk]
  have hrequested : s.requestedFor := decide_eq_true ⟨hmarker, hdisk⟩
  rcases hl : s.luks with - | l
  swap
  · refine Meets.state_of (A := (· = s)) (I := Sound request tpm) ?_ rfl
    refine .onlyIf (fun _ ↦ ?_) fun _ _ ht ↦ ht ▸ h
    exact (Meets.require fun _ ht ↦ ht ▸ h).mono (fun _ ht ↦ ht) (fun _ _ ht ↦ ht.2 ▸ h) fun _ ht ↦ ht
  have hsound : ∀ t, (Kept request t ∧ t.luks = none) → Sound request tpm t := by
    rintro t ⟨hkept, hnone⟩
    refine ⟨fun l hl ↦ ?_, fun _ ↦ hkept, fun hnot ↦ absurd hkept.marker hnot⟩
    rw [hnone] at hl
    cases hl
  have hstarted : ∀ t, (Kept request t ∧ t.luks = none) →
      Sound request tpm (setLuks (tools.start request.recoveryKey) t) := by
    rintro t ⟨hkept, -⟩
    refine Has.sound ⟨⟨hkept.marker, hkept.recoveryKey, hkept.passphrase⟩, _, rfl, Good.start ht⟩
  refine Meets.state_of (A := fun t ↦ Kept request t ∧ t.luks = none) (I := Sound request tpm) ?_
    ⟨h.kept hrequested, hl⟩
  refine (Meets.require hsound).bind fun _ ↦ ((meets_load (fun _ ht ↦ ht.1) steps.loads).mono
    (fun _ ht ↦ ht.2) (fun _ _ ht ↦ ht) hsound).bind fun loaded ↦ ?_
  refine Meets.bind (B := fun _ ↦ Sound request tpm) ?_ fun _ ↦
    (Meets.require fun _ ht ↦ ht).mono (fun _ ht ↦ ht) (fun _ _ ht ↦ ht.2) fun _ ht ↦ ht
  rintro t ⟨rfl, hready⟩
  exact Meets.attempt (fun _ ht ↦ hstarted _ ht) hsound hsound hstarted t hready

end Sound

theorem Sound.step (ht : tools.Documented) {life : Life}
    (h : Sound request life.tpm life.system) (e : Event) :
    Sound request (Life.step tools e life).tpm (Life.step tools e life).system := by
  cases e with
  | start steps => exact h.openInInitrd ht steps
  | run tpm steps => exact h.run ht tpm steps

/-- **Encrypting survives interruption**: in every run of starts and of the daemon that begins with
a saved request. -/
theorem survives_run (ht : tools.Documented) {life : Life} (hkept : Kept request life.system)
    (hluks : life.system.luks = none) (run : List Event) :
    Runs.Throughout (Life.step tools) (Survives request) run life := by
  have hsound : Sound request life.tpm life.system := by
    refine ⟨fun l hl ↦ ?_, fun _ ↦ hkept, fun hnot ↦ absurd hkept.marker hnot⟩
    rw [hluks] at hl
    cases hl
  refine (Runs.throughout_of_step (P := fun life ↦ Sound request life.tpm life.system)
    (fun e _ h ↦ h.step ht e) run hsound).mono fun life h ↦ ⟨fun l hl ↦ (h.good l hl).opens, ?_⟩
  by_cases hrequested : life.system.requestedFor
  · exact .inl (h.kept hrequested)
  · exact .inr (h.finished hrequested)

/-! ## A run -/

namespace Tools

/-- The old slots and tokens of the TPM, wiped. -/
def wiped (l : Luks) : Luks :=
  { l with
    slots := l.slots.filter (·.1 ∉ l.read.slotsOf TPM2)
    tokens := l.tokens.filter (·.2.kind ≠ TPM2) }

/-- The tools as they work where nothing stands against them. -/
def plain : Tools where
  start key := ⟨[(0, .secret key)], [], some .encrypt⟩
  resume l := { l with reencrypting := none }
  importToken l token := some { l with tokens := l.tokens ++ [(l.tokens.length, token)] }
  addKey l _ new slot :=
    if slot ∈ l.slots.map (·.1) then none
    else some { l with slots := l.slots ++ [(slot, .secret new)] }
  enroll l _ :=
    let slot := l.read.freeSlot
    let token := (l.tokens.length, ⟨TPM2, [slot], false⟩)
    if slot ∈ l.slots.map (·.1) then []
    else [{ l with slots := l.slots ++ [(slot, .tpm)] },
      { l with slots := l.slots ++ [(slot, .tpm)], tokens := l.tokens ++ [token] },
      { wiped l with
        slots := (wiped l).slots ++ [(slot, .tpm)], tokens := (wiped l).tokens ++ [token] }]

/-- A slot of the TPM that is new, with some of the slots and tokens there were. -/
theorem enrolling_of {l : Luks} (hnodup : (l.slots.map (·.1)).Nodup) {n : ℕ}
    (hn : n ∉ l.slots.map (·.1)) {slots : List (ℕ × Opener)} (hsub : slots.Sublist l.slots)
    (hkept : ∀ slot ∈ l.slots, slot ∈ slots ∨ slot.1 ∈ l.read.slotsOf TPM2)
    {tokens : List (ℕ × Token)}
    (hothers : tokens.filter (·.2.kind ≠ TPM2) = l.tokens.filter (·.2.kind ≠ TPM2))
    (hclaims : ∀ t ∈ tokens, t.2.kind = TPM2 → t ∈ l.tokens ∨ t.2.keyslots = [n]) :
    Enrolling l ⟨slots ++ [(n, .tpm)], tokens, l.reencrypting⟩ where
  nodup := by
    rw [List.map_append, List.nodup_append]
    refine ⟨(hsub.map _).nodup hnodup, List.nodup_singleton _, fun a ha b hb heq ↦ hn ?_⟩
    have hsame : b = n := List.mem_singleton.1 hb
    rw [← hsame, ← heq]
    exact (hsub.map _).subset ha
  slots := by
    intro slot hslot
    rcases List.mem_append.1 hslot with hold | hnew
    · exact .inl (hsub.subset hold)
    · rw [List.mem_singleton.1 hnew]
      exact .inr ⟨rfl, hn⟩
  kept := fun slot hslot ↦ (hkept slot hslot).imp_left (List.mem_append_left _)
  others := hothers
  claims := by
    intro slot hslot
    obtain ⟨t, ht, hkind, hmem⟩ := mem_slotsOf.1 hslot
    rcases hclaims t ht hkind with hold | hnew
    · exact .inl (mem_slotsOf.2 ⟨t, hold, hkind, hmem⟩)
    · rw [hnew] at hmem
      exact .inr (List.mem_singleton.1 hmem ▸ hn)
  reencrypting := rfl

theorem plain_documented : plain.Documented where
  start _ := rfl
  resume _ := rfl
  importToken := by
    rintro l token l' hl
    exact ⟨_, (Option.some.inj hl).symm⟩
  addKey := by
    intro l key new slot l' hl
    change (if _ then _ else _) = _ at hl
    by_cases hmem : slot ∈ l.slots.map (·.1)
    · rw [if_pos hmem] at hl
      cases hl
    · rw [if_neg hmem] at hl
      exact ⟨hmem, (Option.some.inj hl).symm⟩
  enrolling := by
    intro l key hnodup l' hl'
    change l' ∈ (if _ then _ else _) at hl'
    by_cases hmem : l.read.freeSlot ∈ l.slots.map (·.1)
    · rw [if_pos hmem] at hl'
      cases hl'
    rw [if_neg hmem] at hl'
    have hwiped : ∀ slot ∈ l.slots, slot ∈ (wiped l).slots ∨ slot.1 ∈ l.read.slotsOf TPM2 := by
      intro slot hslot
      by_cases hclaim : slot.1 ∈ l.read.slotsOf TPM2
      · exact .inr hclaim
      · exact .inl (List.mem_filter.2 ⟨hslot, decide_eq_true hclaim⟩)
    rcases hl' with _ | ⟨_, _ | ⟨_, _ | ⟨_, h⟩⟩⟩
    · exact enrolling_of hnodup hmem (List.Sublist.refl _) (fun _ h ↦ .inl h) rfl fun _ h _ ↦ .inl h
    · refine enrolling_of hnodup hmem (List.Sublist.refl _) (fun _ h ↦ .inl h) ?_ fun t ht _ ↦ ?_
      · rw [List.filter_append]
        exact List.append_nil _
      · exact (List.mem_append.1 ht).imp_right fun h ↦ by rw [List.mem_singleton.1 h]
    · refine enrolling_of hnodup hmem List.filter_sublist hwiped ?_ fun t ht _ ↦ ?_
      · rw [List.filter_append, wiped, List.filter_filter]
        refine (List.append_nil _).trans (List.filter_congr fun t _ ↦ Bool.and_self _)
      · refine (List.mem_append.1 ht).imp (fun h ↦ (List.mem_filter.1 h).1) fun h ↦ ?_
        rw [List.mem_singleton.1 h]
    · cases h
  enrolled := by
    intro l key l' hl'
    change l' ∈ (if _ then _ else _ : List Luks).getLast? at hl'
    by_cases hmem : l.read.freeSlot ∈ l.slots.map (·.1)
    · rw [if_pos hmem] at hl'
      cases hl'
    rw [if_neg hmem] at hl'
    obtain rfl := (Option.some.inj hl').symm
    refine ⟨l.read.freeSlot, ?_, List.mem_append_right _ (List.mem_singleton_self _)⟩
    have hnone : (l.tokens.filter (·.2.kind ≠ TPM2)).filter (·.2.kind = TPM2) = [] := by
      rw [List.filter_filter, List.filter_eq_nil_iff]
      intro t _ h
      obtain ⟨hkind, hne⟩ := Bool.and_eq_true_iff.1 h
      exact of_decide_eq_true hne (of_decide_eq_true hkind)
    change List.flatMap (fun t : ℕ × Token ↦ t.2.keyslots) (List.filter
      (fun t : ℕ × Token ↦ t.2.kind = TPM2) (l.tokens.filter (·.2.kind ≠ TPM2) ++ [_])) = _
    rw [List.filter_append, hnone]
    rfl

end Tools

/-- A partition with a request for a passphrase. -/
def requested : Life where
  system :=
    { disk := ⟨some "7c0f", none, "btrfs", some ROOT_TYPE, 64 * 1073741824⟩
      filesystem := 63 * 1073741824
      marker := some "7c0f"
      sealedKey := some "key"
      folder := some ⟨some "key", some "passphrase"⟩
      luks := none
      escrow := none }
  tpm := false

/-- Encryption stops on battery, and the daemon is cut off while it adds the passphrase, enrolls the
TPM and forgets the request. -/
def interrupted : List Event :=
  [.start { mounts := false }, .start {}, .run true { child := .stopped false },
    .start { unseals := false }, .run true { passphrase := .late }, .run true { enroll := some 0 },
    .start {}, .run true { enroll := some 1 },
    .run true { forget := { forgetMarker := .failed } },
    .run true { forget := { removeFolder := .failed true false } }, .start {}, .run false {}]

theorem survives_run_interrupted : Tools.plain.Documented ∧
    Kept ⟨"key", "passphrase"⟩ requested.system ∧
    Runs.Throughout (Life.step .plain) (Survives ⟨"key", "passphrase"⟩) interrupted requested ∧
    (Runs.after (Life.step .plain) interrupted requested).system.requestedFor = false := by
  have hkept : Kept ⟨"key", "passphrase"⟩ requested.system := ⟨by decide, rfl, rfl⟩
  exact ⟨Tools.plain_documented, hkept,
    survives_run Tools.plain_documented hkept rfl interrupted, by decide⟩

end Trust
