import Mathlib.Data.List.Perm.Basic
import Mathlib.Data.List.Nodup

/-!
# LUKS headers

A LUKS2 header has key slots, each of which opens the partition with a secret or with the TPM, and
tokens, each of which says how slots are opened and so *claims* them.  The trust daemon tells the
slots apart by the tokens alone: a slot that no token claims holds a passphrase
(`Header.passphraseSlots`).

What changes a header are the tools of cryptsetup and systemd.  `Tools` is what they make of a
header and `Tools.Documented` what is relied on.
-/

set_option autoImplicit false

namespace Trust

abbrev Secret := String

structure Token where
  kind : String
  keyslots : List ℕ
  tpm2Pin : Bool
  deriving DecidableEq, Repr

inductive Direction
  | encrypt
  | decrypt
  deriving DecidableEq, Repr

def TPM2 : String := "systemd-tpm2"
def RECOVERY : String := "systemd-recovery"

/-- What `luks::read` makes of the header on a partition. -/
structure Header where
  keyslots : List ℕ
  tokens : List (ℕ × Token)
  reencrypting : Option Direction
  deriving DecidableEq, Repr

namespace Header

variable (h : Header)

def has (kind : String) : Bool := h.tokens.any (·.2.kind = kind)

def tpmPin : Bool := h.tokens.any fun t ↦ t.2.kind = TPM2 ∧ t.2.tpm2Pin

def slotsOf (kind : String) : List ℕ :=
  (h.tokens.filter (·.2.kind = kind)).flatMap (·.2.keyslots)

def claimed : List ℕ := h.tokens.flatMap (·.2.keyslots)

def passphraseSlots : List ℕ := h.keyslots.filter (· ∉ h.claimed)

def freeSlot : ℕ := ((List.range 32).find? (· ∉ h.keyslots)).getD 31

end Header

/-- What a slot is opened with. -/
inductive Opener
  | secret (key : Secret)
  | tpm
  deriving DecidableEq, Repr

/-- The header on a partition, with what each slot is opened with. -/
structure Luks where
  slots : List (ℕ × Opener)
  tokens : List (ℕ × Token)
  reencrypting : Option Direction
  deriving DecidableEq, Repr

namespace Luks

def read (l : Luks) : Header := ⟨l.slots.map (·.1), l.tokens, l.reencrypting⟩

/-- The key opens the partition. -/
def Opens (l : Luks) (key : Secret) : Prop := ∃ slot ∈ l.slots, slot.2 = .secret key

end Luks

/-- What the tools make of a header, `none` where they fail. -/
structure Tools where
  /-- `cryptsetup reencrypt --encrypt --init-only` -/
  start : Secret → Luks
  /-- `cryptsetup reencrypt --resume-only`, when it has come to the end -/
  resume : Luks → Luks
  /-- `cryptsetup token import` -/
  importToken : Luks → Token → Option Luks
  /-- `cryptsetup luksAddKey`: the key to unlock with, the new one and the slot it goes to -/
  addKey : Luks → Secret → Secret → ℕ → Option Luks
  /-- `systemd-cryptenroll --wipe-slot=tpm2`: the header after each of its changes -/
  enroll : Luks → Secret → List Luks

namespace Tools

/-- One of the headers there are while the TPM is enrolled: only slots of the TPM come and go. -/
structure Enrolling (l l' : Luks) : Prop where
  nodup : (l'.slots.map (·.1)).Nodup
  /-- Slots that are new are the TPM's. -/
  slots : ∀ slot ∈ l'.slots, slot ∈ l.slots ∨ slot.2 = .tpm ∧ slot.1 ∉ l.slots.map (·.1)
  /-- Slots that are gone were claimed by a token of the TPM. -/
  kept : ∀ slot ∈ l.slots, slot ∈ l'.slots ∨ slot.1 ∈ l.read.slotsOf TPM2
  others : l'.tokens.filter (·.2.kind ≠ TPM2) = l.tokens.filter (·.2.kind ≠ TPM2)
  /-- Slots that are claimed for the TPM were so before or are new. -/
  claims : ∀ slot ∈ l'.read.slotsOf TPM2,
    slot ∈ l.read.slotsOf TPM2 ∨ slot ∉ l.slots.map (·.1)
  reencrypting : l'.reencrypting = l.reencrypting

/-- There is one slot that a token claims for the TPM, and the TPM opens it. -/
def OneTpmSlot (l : Luks) : Prop :=
  ∃ slot, l.read.slotsOf TPM2 = [slot] ∧ (slot, Opener.tpm) ∈ l.slots

/-- What the manuals of the tools say of the headers they leave. -/
structure Documented (t : Tools) : Prop where
  start : ∀ key, t.start key = ⟨[(0, .secret key)], [], some .encrypt⟩
  resume : ∀ l, t.resume l = { l with reencrypting := none }
  importToken : ∀ l token l', t.importToken l token = some l' →
    ∃ id, l' = { l with tokens := l.tokens ++ [(id, token)] }
  addKey : ∀ l key new slot l', t.addKey l key new slot = some l' →
    slot ∉ l.slots.map (·.1) ∧ l' = { l with slots := l.slots ++ [(slot, .secret new)] }
  enrolling : ∀ l key, (l.slots.map (·.1)).Nodup → ∀ l' ∈ t.enroll l key, Enrolling l l'
  enrolled : ∀ l key, ∀ l' ∈ (t.enroll l key).getLast?, OneTpmSlot l'

end Tools

end Trust
