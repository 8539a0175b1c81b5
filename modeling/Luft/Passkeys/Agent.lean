import Luft.Lib.First
import Luft.Passkeys.Inert

/-!
# The agent

The platform of the passkey device keeps its passkeys in the keyring, and reaches it over the bus.  A
call that changes the store may be refused, and it may be lost: it does what it should, but the caller
is told that it failed, or does not wait for the answer.  The keyring itself is such a caller's peer: an
edit that cannot be saved fails and stays in memory.

What comes from outside during a request, the answers of the person and the fate of the calls, comes
with the request.
-/

set_option autoImplicit false

namespace Passkeys.Ctap

/-- A passkey in the keyring. -/
structure Passkey where
  credential : Credential
  created : ℕ
deriving DecidableEq, Repr

/-- What becomes of a call that changes the store. -/
inductive Effect where
  | done
  | refused (status : Status)
  /-- It is done, but not heard of. -/
  | lost (status : Status)
deriving DecidableEq, Repr

/-- What comes from outside during a request. -/
structure Answers where
  consent : Result Consent
  listing : Result Unit
  creating : Effect
  updating : Effect
  deleting : Effect
  counting : Result ℕ
  signing : Result Bytes
  computing : Result Bytes
  /-- The id and the key of a new passkey. -/
  id : Bytes
  key : PublicKey
  now : ℕ
  random : Bytes

structure Agent where
  passkeys : List Passkey
  answers : Answers

namespace Agent

def apply {α : Type} (effect : Effect) (value : α) (passkeys : List Passkey) (a : Agent) :
    Result α × Agent :=
  match effect with
  | .done => (.ok value, { a with passkeys })
  | .refused status => (.error status, a)
  | .lost status => (.error status, { a with passkeys })

/-- An empty text is none. -/
def optional (text : Option String) : Option String := text.filter (· ≠ "")

def list (a : Agent) : Result (List Passkey) := a.answers.listing.map fun _ ↦ a.passkeys

def newest_first (passkeys : List Passkey) : List Passkey :=
  passkeys.insertionSort fun p q ↦ q.created ≤ p.created

def credentials (rp_id : String) (a : Agent) : Result (List Credential) :=
  a.list.map fun passkeys ↦
    (newest_first (passkeys.filter fun p ↦ p.credential.rp.id = rp_id)).map (·.credential)

def made (request : NewCredential) (answers : Answers) : Passkey :=
  { credential :=
      { id := answers.id
        rp := { id := request.rp.id, name := optional request.rp.name }
        user := { id := request.user.id, name := optional request.user.name
                  display_name := optional request.user.display_name }
        public_key := answers.key
        discoverable := request.discoverable
        protection := request.protection }
    created := answers.now }

def create (request : NewCredential) (a : Agent) : Result Credential × Agent :=
  if request.rp.id = "" ∨ request.user.id = [] then (.error .operationDenied, a)
  else
    let passkey := made request a.answers
    a.apply a.answers.creating passkey.credential (a.passkeys ++ [passkey])

def has (id : Bytes) (a : Agent) : Bool := a.passkeys.any fun p ↦ p.credential.id = id

def delete (id : Bytes) (a : Agent) : Result Unit × Agent :=
  if a.has id then
    a.apply a.answers.deleting () (a.passkeys.eraseP fun p ↦ p.credential.id = id)
  else (.error .noCredentials, a)

/-- The id of the user stays. -/
def renamed (user : User) (p : Passkey) : Passkey :=
  { p with credential := { p.credential with
      user := { p.credential.user with
        name := optional user.name, display_name := optional user.display_name } } }

def update_user (id : Bytes) (user : User) (a : Agent) : Result Unit × Agent :=
  if a.has id then
    a.apply a.answers.updating ()
      (First.updateFirst (fun p ↦ p.credential.id = id) (renamed user) a.passkeys)
  else (.error .noCredentials, a)

def held {α : Type} (id : Bytes) (answer : Result α) (a : Agent) : Result α :=
  if a.has id then answer else .error .noCredentials

instance platform : Platform Agent where
  ask _ a := (a.answers.consent, a)
  credentials rp_id a := (a.credentials rp_id, a)
  all_credentials a := (a.list.map fun passkeys ↦ passkeys.map (·.credential), a)
  create := create
  next_count id a := (a.held id a.answers.counting, a)
  sign id _ a := (a.held id a.answers.signing, a)
  hmac_secret id _ _ a := (a.held id a.answers.computing, a)
  delete := delete
  update_user := update_user
  now a := a.answers.now
  random _ a := (a.answers.random, a)

/-! ## Accounts -/

/-- Two passkeys that can be discovered, of one account. -/
def SameAccount (p q : Passkey) : Prop :=
  p.credential.discoverable ∧ q.credential.discoverable ∧
    p.credential.rp.id = q.credential.rp.id ∧ p.credential.user.id = q.credential.user.id

/-- No id twice, and no account twice. -/
structure Sound (passkeys : List Passkey) : Prop where
  ids : (passkeys.map (·.credential.id)).Nodup
  once : ∀ p ∈ passkeys, ∀ q ∈ passkeys, SameAccount p q → p.credential.id = q.credential.id

/-- What makes an account. -/
def tag (p : Passkey) : Bytes × Bool × String × Bytes :=
  (p.credential.id, p.credential.discoverable, p.credential.rp.id, p.credential.user.id)

theorem Sound.nil : Sound [] := ⟨.nil, nofun⟩

theorem Sound.sublist {passkeys passkeys' : List Passkey} (h : Sound passkeys)
    (hsub : passkeys'.Sublist passkeys) : Sound passkeys' where
  ids := h.ids.sublist (hsub.map _)
  once p hp q hq := h.once p (hsub.subset hp) q (hsub.subset hq)

theorem Sound.of_tags {passkeys passkeys' : List Passkey} (h : Sound passkeys)
    (htags : passkeys'.map tag = passkeys.map tag) : Sound passkeys' := by
  have hmem {p : Passkey} (hp : p ∈ passkeys') : ∃ q ∈ passkeys, tag q = tag p :=
    List.mem_map.1 (htags ▸ List.mem_map_of_mem hp)
  constructor
  · have hids : passkeys'.map (·.credential.id) = passkeys.map (·.credential.id) := by
      have := congrArg (List.map Prod.fst) htags
      rwa [List.map_map, List.map_map] at this
    rw [hids]
    exact h.ids
  · rintro p hp q hq ⟨hpd, hqd, hrp, huser⟩
    obtain ⟨p', hp', hptag⟩ := hmem hp
    obtain ⟨q', hq', hqtag⟩ := hmem hq
    simp only [tag, Prod.mk.injEq] at hptag hqtag
    rw [← hptag.1, ← hqtag.1]
    refine h.once p' hp' q' hq' ⟨?_, ?_, ?_, ?_⟩
    · rw [hptag.2.1, hpd]
    · rw [hqtag.2.1, hqd]
    · rw [hptag.2.2.1, hqtag.2.2.1, hrp]
    · rw [hptag.2.2.2, hqtag.2.2.2, huser]

/-- **One per account**: no two entries of the store are of one account. -/
theorem Sound.pairwise {passkeys : List Passkey} (h : Sound passkeys) :
    passkeys.Pairwise fun p q ↦ ¬ SameAccount p q := by
  refine (List.pairwise_map.1 h.ids).imp_of_mem fun hp hq hne hsame ↦ ?_
  exact hne (h.once _ hp _ hq hsame)

/-! ## What the calls do to the store -/

theorem apply_passkeys {α : Type} (effect : Effect) (value : α) (passkeys : List Passkey) (a : Agent) :
    (a.apply effect value passkeys).2.passkeys = a.passkeys ∨
      (a.apply effect value passkeys).2.passkeys = passkeys := by
  cases effect with
  | done => exact .inr rfl
  | refused status => exact .inl rfl
  | lost status => exact .inr rfl

theorem sound_delete {a : Agent} (h : Sound a.passkeys) (id : Bytes) :
    Sound (a.delete id).2.passkeys := by
  rw [delete]
  split
  · rcases apply_passkeys a.answers.deleting () (a.passkeys.eraseP fun p ↦ p.credential.id = id) a with
      hsame | herased
    · rw [hsame]
      exact h
    · rw [herased]
      exact h.sublist List.eraseP_sublist
  · exact h

theorem sound_update_user {a : Agent} (h : Sound a.passkeys) (id : Bytes) (user : User) :
    Sound (a.update_user id user).2.passkeys := by
  rw [update_user]
  split
  · rcases apply_passkeys a.answers.updating ()
      (First.updateFirst (fun p ↦ p.credential.id = id) (renamed user) a.passkeys) a with hsame | hrenamed
    · rw [hsame]
      exact h
    · rw [hrenamed]
      have htag (p : Passkey) : tag (renamed user p) = tag p := rfl
      exact h.of_tags (First.map_updateFirst htag _)
  · exact h

/-- What is asked, looked up or signed leaves the agent as it is. -/
theorem steady (J : Agent → Prop) : Steady fun s : Authenticator Agent ↦ J s.platform where
  token _ _ hs := hs
  ask _ _ hs := hs
  credentials _ _ hs := hs
  all_credentials _ hs := hs
  next_count _ _ hs := hs
  sign _ _ _ hs := hs
  hmac_secret _ _ _ _ hs := hs
  random _ _ hs := hs

theorem managed_sound : Managed fun s : Authenticator Agent ↦ Sound s.platform.passkeys where
  toSteady := steady fun a ↦ Sound a.passkeys
  delete id _ hs := sound_delete hs id
  update_user id user _ hs := sound_update_user hs id user

end Agent

end Passkeys.Ctap
