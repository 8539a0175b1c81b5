import Luft.Passkeys.Agent
import Luft.Passkeys.FollowUps

/-!
# One passkey per account

A discoverable credential takes the place of the ones that the account had.  `make_credential` stores
the new one first and deletes the old ones after, so both are there if it does not get that far: when
the new one was stored but the authenticator was told otherwise, or the request was cancelled while it
waited for the answer.  `one_account_run` says that nothing else gives an account two of them, and that
no other account loses any.
-/

set_option autoImplicit false

namespace Passkeys.Ctap

namespace Agent

variable {crates : Crates} {a : Agent} {q : MakeCredential}

/-! ## Deleting -/

/-- **Deleting credentials of the store** leaves those with other ids. -/
theorem delete_all_eq (rest : List Credential) (s : Authenticator Agent)
    (hdone : s.platform.answers.deleting = .done)
    (hids : (s.platform.passkeys.map (·.credential.id)).Nodup) (hrest : (rest.map (·.id)).Nodup)
    (hmem : ∀ c ∈ rest, ∃ p ∈ s.platform.passkeys, p.credential.id = c.id) :
    (delete_all rest s).result = .ok () ∧
      (delete_all rest s).state.platform.passkeys =
        s.platform.passkeys.filter fun p ↦ p.credential.id ∉ rest.map (·.id) := by
  induction rest generalizing s with
  | nil => exact ⟨rfl, by simp [delete_all]⟩
  | cons c rest ih =>
    obtain ⟨p, hp, hpc⟩ := hmem c List.mem_cons_self
    have hhas : s.platform.has c.id :=
      List.any_eq_true.2 ⟨p, hp, decide_eq_true hpc⟩
    let s' : Authenticator Agent := { s with platform := { s.platform with
      passkeys := s.platform.passkeys.filter fun p ↦ p.credential.id ≠ c.id } }
    have hdelete : Ctap.delete c.id s = ⟨.ok (), s', [.deleted c.id]⟩ := by
      have hcall : Platform.delete c.id s.platform = (.ok (), s'.platform) := by
        show s.platform.delete c.id = _
        rw [Agent.delete, if_pos hhas, hdone, First.eraseP_eq_filter hids]
        rfl
      have hok : (call (Platform.delete c.id) s : Outcome _ _ Done _) = ⟨.ok (), s', []⟩ := by
        rw [call, hcall]
      exact Op.bind_of_eq_ok hok
    obtain ⟨hcrest, hrest⟩ := List.nodup_cons.1 hrest
    have hothers : ∀ c' ∈ rest, ∃ p ∈ s'.platform.passkeys, p.credential.id = c'.id := by
      rintro c' hc'
      obtain ⟨p', hp', hpc'⟩ := hmem c' (List.mem_cons_of_mem c hc')
      refine ⟨p', List.mem_filter.2 ⟨hp', decide_eq_true fun heq ↦ hcrest ?_⟩, hpc'⟩
      exact List.mem_map.2 ⟨c', hc', hpc'.symm.trans heq⟩
    obtain ⟨hresult, hstate⟩ := ih s' hdone (hids.sublist (List.filter_sublist.map _)) hrest hothers
    rw [delete_all, Op.bind_of_ok (by rw [hdelete]), hdelete]
    refine ⟨hresult, hstate.trans ?_⟩
    rw [List.filter_filter]
    refine List.filter_congr fun p _ ↦ ?_
    rw [List.map_cons, Bool.eq_iff_iff]
    simp [and_comm]

/-! ## Making -/

/-- The passkeys that a new one takes the place of. -/
def replaced (a : Agent) (q : MakeCredential) : List Passkey :=
  a.passkeys.filter fun p ↦ p.credential.rp.id = q.rp.id && q.replaces p.credential

theorem mem_replaced {p : Passkey} : p ∈ a.replaced q ↔ p ∈ a.passkeys ∧
    p.credential.rp.id = q.rp.id ∧ p.credential.discoverable ∧ p.credential.user.id = q.user.id := by
  simp [replaced, MakeCredential.replaces]

/-- **What becomes of the store** when a credential is made. -/
inductive Made (a : Agent) (q : MakeCredential) : List Passkey → Prop
  | unchanged : Made a q a.passkeys
  | added (h : q.discoverable → ∃ status, a.answers.creating = .lost status) :
      Made a q (a.passkeys ++ [made q.wanted a.answers])
  | exchanged (h : q.discoverable) :
      Made a q ((a.passkeys ++ [made q.wanted a.answers]).filter fun p ↦
        p.credential.id ∉ (a.replaced q).map (·.credential.id))

/-- A new passkey has an id of its own. -/
def Fresh (a : Agent) : Prop := a.answers.id ∉ a.passkeys.map (·.credential.id)

/-- The passkeys of a relying party that are replaced, as they are listed. -/
def listed (a : Agent) (q : MakeCredential) : List Credential :=
  ((newest_first (a.passkeys.filter fun p ↦ p.credential.rp.id = q.rp.id)).map
    (·.credential)).filter q.replaces

theorem listed_ids_perm (a : Agent) (q : MakeCredential) :
    ((a.listed q).map (·.id)).Perm ((a.replaced q).map (·.credential.id)) := by
  rw [listed, List.filter_map, List.map_map, replaced]
  refine List.Perm.map _ (((List.perm_insertionSort _ _).filter _).trans ?_)
  rw [List.filter_filter]
  exact List.Perm.of_eq (List.filter_congr fun p _ ↦ Bool.and_comm _ _)

/-- Making one stores it and says so, or fails; where it fails, it may be stored all the same. -/
theorem create_cases (a : Agent) (request : NewCredential) :
    (∃ credential, a.create request = (.ok credential,
      { a with passkeys := a.passkeys ++ [made request a.answers] })) ∨
    (∃ status, a.create request = (.error status, a)) ∨
    ∃ status, a.answers.creating = .lost status ∧ a.create request = (.error status,
      { a with passkeys := a.passkeys ++ [made request a.answers] }) := by
  rw [create]
  split
  · exact .inr (.inl ⟨_, rfl⟩)
  · cases hcreating : a.answers.creating with
    | done => exact .inl ⟨_, rfl⟩
    | refused status => exact .inr (.inl ⟨status, rfl⟩)
    | lost status => exact .inr (.inr ⟨status, rfl, rfl⟩)

theorem filter_credentials {existing : List Credential} (h : a.credentials q.rp.id = .ok existing) :
    existing.filter q.replaces = a.listed q := by
  rw [credentials, list] at h
  rcases hlisting : a.answers.listing with e | _
  · rw [hlisting] at h
    cases h
  · rw [hlisting] at h
    cases h
    rfl

section

variable (hids : (a.passkeys.map (·.credential.id)).Nodup) (hfresh : a.Fresh)
  (hdone : a.answers.deleting = .done)
include hids hfresh hdone

/-- The old ones go. -/
theorem meets_exchange (h : q.discoverable) :
    Op.Meets (fun s ↦ s.platform = { a with passkeys := a.passkeys ++ [made q.wanted a.answers] })
      (delete_all (a.listed q)) (fun _ s ↦ Made a q s.platform.passkeys)
      (fun s ↦ Made a q s.platform.passkeys) := by
  rintro s hs
  have hperm := listed_ids_perm a q
  have hall := delete_all_eq (a.listed q) s (by rw [hs]; exact hdone) ?_ ?_ ?_
  · refine ⟨fun _ _ ↦ ?_, fun e he ↦ ?_⟩
    · show Made a q (delete_all (a.listed q) s).state.platform.passkeys
      rw [hall.2, hs]
      have hfilter : (fun p : Passkey ↦ decide (p.credential.id ∉ (a.listed q).map (·.id))) =
          fun p ↦ decide (p.credential.id ∉ (a.replaced q).map (·.credential.id)) := by
        funext p
        exact decide_eq_decide.2 (not_congr hperm.mem_iff)
      rw [hfilter]
      exact .exchanged h
    · rw [hall.1] at he
      cases he
  · rw [hs, List.map_append, List.map_singleton]
    exact List.nodup_append.2 ⟨hids, List.nodup_singleton _, by
      rintro x hx y hy rfl
      rw [List.mem_singleton.1 hy] at hx
      exact hfresh hx⟩
  · exact hperm.nodup_iff.2 (hids.sublist (List.filter_sublist.map _))
  · rintro c hc
    obtain ⟨p, hp, hpc⟩ := List.mem_map.1 (hperm.subset (List.mem_map_of_mem hc))
    refine ⟨p, ?_, hpc⟩
    rw [hs]
    exact List.mem_append_left _ (mem_replaced.1 hp).1

/-- **Making a credential**, once the request is read. -/
theorem made_of_parse {body : Bytes} (hparse : MakeCredential.parse crates body = .ok q)
    {s : Authenticator Agent} (hs : s.platform = a) :
    Made a q (make_credential crates body s).state.platform.passkeys := by
  have hsteady : Steady fun s : Authenticator Agent ↦ s.platform = a := steady (· = a)
  have hunchanged (s : Authenticator Agent) (hs : s.platform = a) : Made a q s.platform.passkeys := by
    rw [hs]
    exact .unchanged
  rw [make_credential, hparse, Op.bind_of_eq_ok (Op.lift_apply _)]
  refine Op.Meets.state_of (A := fun s : Authenticator Agent ↦ s.platform = a)
    (I := fun s ↦ Made a q s.platform.passkeys) ?_ hs
  refine Op.Meets.bind ((leaves_authorize_with_token hsteady _ _ _ _ _).meets.mono (fun _ h ↦ h)
    (fun _ _ h ↦ h) hunchanged) fun by_token ↦ ?_
  have hlist : Op.Meets (fun s : Authenticator Agent ↦ s.platform = a)
      (call (Platform.credentials q.rp.id))
      (fun existing s ↦ a.credentials q.rp.id = .ok existing ∧ s.platform = a)
      (fun s ↦ Made a q s.platform.passkeys) := by
    rintro s rfl
    exact ⟨fun _ hexisting ↦ ⟨hexisting, rfl⟩, fun _ _ ↦ .unchanged⟩
  refine hlist.bind fun existing ↦ .assuming fun hexisting ↦ ?_
  split
  · exact Op.Meets.bind ((leaves_ask hsteady _).meets.mono (fun _ h ↦ h) (fun _ _ h ↦ h) hunchanged)
      fun _ ↦ .fail hunchanged
  refine Op.Meets.bind ((leaves_approve hsteady _ _ _).meets.mono (fun _ h ↦ h) (fun _ _ h ↦ h)
    hunchanged) fun approval ↦ ?_
  have hcreate : Op.Meets (fun s : Authenticator Agent ↦ s.platform = a)
      (call (Platform.create q.wanted))
      (fun _ s ↦ s.platform = { a with passkeys := a.passkeys ++ [made q.wanted a.answers] })
      (fun s ↦ Made a q s.platform.passkeys) := by
    rintro s rfl
    have hcall : (call (Platform.create q.wanted) s : Outcome _ _ Done _) =
      ⟨(s.platform.create q.wanted).1, { s with platform := (s.platform.create q.wanted).2 }, []⟩ := rfl
    rw [hcall]
    rcases create_cases s.platform q.wanted with
      ⟨credential, hmade⟩ | ⟨status, hmade⟩ | ⟨status, hlost, hmade⟩
    · rw [hmade]
      exact ⟨fun _ _ ↦ rfl, nofun⟩
    · rw [hmade]
      exact ⟨nofun, fun _ _ ↦ .unchanged⟩
    · rw [hmade]
      exact ⟨nofun, fun _ _ ↦ .added fun _ ↦ ⟨status, hlost⟩⟩
  refine hcreate.bind fun credential ↦ Op.Meets.bind
    (B := fun _ s ↦ s.platform = { a with passkeys := a.passkeys ++ [made q.wanted a.answers] })
    (.emit fun _ h ↦ h) fun _ ↦ ?_
  refine Op.Meets.bind (B := fun _ s ↦ Made a q s.platform.passkeys) (.onlyIf (fun h ↦ ?_) ?_)
    fun _ ↦ ?_
  · rw [filter_credentials hexisting]
    exact meets_exchange hids hfresh hdone h
  · rintro hnot s hs
    rw [hs]
    exact .added fun h ↦ by rw [hnot] at h; cases h
  · exact (leaves_spend_token (steady fun a' ↦ Made a q a'.passkeys) _).meets.bind fun _ ↦
      .pure fun _ h ↦ h

end

/-! ## The account -/

theorem mem_of_not_mem_replaced {p : Passkey} (hids : (a.passkeys.map (·.credential.id)).Nodup)
    (hp : p ∈ a.passkeys) (h : p.credential.id ∈ (a.replaced q).map (·.credential.id)) :
    p ∈ a.replaced q := by
  obtain ⟨p', hp', hid⟩ := List.mem_map.1 h
  rwa [← List.inj_on_of_nodup_map hids (mem_replaced.1 hp').1 hp hid]

/-- **Nobody else loses a passkey.** -/
theorem Made.kept {passkeys : List Passkey} (h : Made a q passkeys)
    (hids : (a.passkeys.map (·.credential.id)).Nodup) {p : Passkey} (hp : p ∈ a.passkeys)
    (hgone : p ∉ passkeys) : p.credential.rp.id = q.rp.id ∧ p.credential.user.id = q.user.id := by
  cases h with
  | unchanged => exact absurd hp hgone
  | added => exact absurd (List.mem_append_left _ hp) hgone
  | exchanged =>
    by_cases hid : p.credential.id ∈ (a.replaced q).map (·.credential.id)
    · obtain ⟨-, hrp, -, huser⟩ := mem_replaced.1 (mem_of_not_mem_replaced hids hp hid)
      exact ⟨hrp, huser⟩
    · exact absurd (List.mem_filter.2 ⟨List.mem_append_left _ hp, decide_eq_true hid⟩) hgone

theorem sound_append {passkeys : List Passkey} {p : Passkey} (h : Sound passkeys)
    (hid : p.credential.id ∉ passkeys.map (·.credential.id))
    (hother : ∀ p' ∈ passkeys, ¬ SameAccount p' p) : Sound (passkeys ++ [p]) := by
  constructor
  · rw [List.map_append, List.map_singleton]
    refine List.nodup_append.2 ⟨h.ids, List.nodup_singleton _, ?_⟩
    rintro x hx y hy rfl
    rw [List.mem_singleton.1 hy] at hx
    exact hid hx
  · rintro x hx y hy hsame
    rcases List.mem_append.1 hx with hx | hx
    · rcases List.mem_append.1 hy with hy | hy
      · exact h.once x hx y hy hsame
      · rw [List.mem_singleton.1 hy] at hsame
        exact absurd hsame (hother x hx)
    · rcases List.mem_append.1 hy with hy | hy
      · rw [List.mem_singleton.1 hx] at hsame
        exact absurd ⟨hsame.2.1, hsame.1, hsame.2.2.1.symm, hsame.2.2.2.symm⟩ (hother y hy)
      · rw [List.mem_singleton.1 hx, List.mem_singleton.1 hy]

/-- A passkey that the account has already. -/
def Has (a : Agent) (q : MakeCredential) : Prop := ∃ p ∈ a.passkeys, p.credential.discoverable ∧
  p.credential.rp.id = q.rp.id ∧ p.credential.user.id = q.user.id

/-- **The account has one at most**, unless it had one and the new one was lost. -/
theorem Made.sound {passkeys : List Passkey} (h : Made a q passkeys) (hsound : Sound a.passkeys)
    (hfresh : a.Fresh)
    (hheard : q.discoverable → a.Has q → ∀ status, a.answers.creating ≠ .lost status) :
    Sound passkeys := by
  cases h with
  | unchanged => exact hsound
  | added hlost =>
    refine sound_append hsound hfresh ?_
    rintro p hp ⟨hdiscoverable, hnew, hrp, huser⟩
    obtain ⟨status, hstatus⟩ := hlost hnew
    exact hheard hnew ⟨p, hp, hdiscoverable, hrp, huser⟩ status hstatus
  | exchanged =>
    have hnew : a.answers.id ∉ (a.replaced q).map (·.credential.id) :=
      fun hid ↦ hfresh ((List.filter_sublist.map _).subset hid)
    have hstays : ([made q.wanted a.answers].filter fun p ↦
        p.credential.id ∉ (a.replaced q).map (·.credential.id)) = [made q.wanted a.answers] := by
      refine List.filter_eq_self.2 fun p hp ↦ ?_
      rw [List.mem_singleton.1 hp]
      exact decide_eq_true hnew
    rw [List.filter_append, hstays]
    refine sound_append (hsound.sublist List.filter_sublist)
      (fun hid ↦ hfresh ((List.filter_sublist.map _).subset hid)) ?_
    rintro p hp ⟨hdiscoverable, -, hrp, huser⟩
    obtain ⟨hp, hid⟩ := List.mem_filter.1 hp
    refine of_decide_eq_true hid (List.mem_map.2 ⟨p, mem_replaced.2 ⟨hp, hrp, ?_⟩, rfl⟩)
    exact ⟨hdiscoverable, huser⟩

end Agent

open Agent

/-! ## Any run -/

/-- A request, with what comes from outside during it; and a new authenticator, on another connection
or after a request that was cancelled.  For the store, a request that is cancelled while it waits for a
call is one whose call is refused, or lost. -/
inductive Happening where
  | asked (answers : Answers) (request : Bytes)
  | renewed (key_agreement : Bytes)

variable (crates : Crates)

def Happening.step (h : Happening) (s : Authenticator Agent) : Authenticator Agent :=
  match h with
  | .asked answers request =>
    Event.step crates { before := { s.platform with answers }, request } s
  | .renewed key_agreement => .new s.platform key_agreement

/-- Deleting works, a new passkey has an id of its own, and a discoverable one is not lost where the
account has one already. -/
def Happening.Orderly (h : Happening) (s : Authenticator Agent) : Prop :=
  match h with
  | .asked answers request => answers.deleting = .done ∧
      answers.id ∉ s.platform.passkeys.map (·.credential.id) ∧
      ∀ body q, request = MAKE_CREDENTIAL :: body → MakeCredential.parse crates body = .ok q →
        q.discoverable → s.platform.Has q → ∀ status, answers.creating ≠ .lost status
  | .renewed _ => True

/-- No account has two passkeys that can be discovered. -/
def OnePerAccount (s : Authenticator Agent) : Prop :=
  s.platform.passkeys.Pairwise fun p q ↦ ¬ SameAccount p q

/-- Making a credential removes none of another account. -/
def OthersKept (x : Happening × Authenticator Agent) : Prop :=
  ∀ answers body, x.1 = .asked answers (MAKE_CREDENTIAL :: body) →
    ∀ p ∈ x.2.platform.passkeys, p ∉ (x.1.step crates x.2).platform.passkeys →
      ∃ q, MakeCredential.parse crates body = .ok q ∧ p.credential.rp.id = q.rp.id ∧
        p.credential.user.id = q.user.id

variable {crates}

/-- A request that cannot be read changes nothing. -/
theorem make_of_parse_error {body : Bytes} {e : Status}
    (h : MakeCredential.parse crates body = .error e) (s : Authenticator Agent) :
    (make_credential crates body s).state = s := by
  rw [make_credential, h, Op.bind_of_eq_error (Op.lift_apply _)]

/-- **A request to make a credential** leaves the store as `Made` says. -/
theorem step_make {answers : Answers} {body : Bytes} {s : Authenticator Agent} :
    (Happening.step crates (.asked answers (MAKE_CREDENTIAL :: body)) s).platform.passkeys =
      (make_credential crates body (({ s with platform := { s.platform with answers } } :
        Authenticator Agent).forget MAKE_CREDENTIAL)).state.platform.passkeys := by
  have hstep := (perform_cons crates MAKE_CREDENTIAL body
    ({ s with platform := { s.platform with answers } } : Authenticator Agent)).trans
    (replied_eq (make_credential crates body) _)
  exact congrArg (fun o : Outcome _ _ _ _ ↦ o.state.platform.passkeys) hstep

theorem sound_step (h : Happening) (s : Authenticator Agent) (hs : Sound s.platform.passkeys)
    (horderly : h.Orderly crates s) : Sound (h.step crates s).platform.passkeys := by
  cases h with
  | renewed key_agreement => exact hs
  | asked answers request =>
    obtain ⟨hdone, hfresh, hheard⟩ := horderly
    cases request with
    | nil => exact hs
    | cons command body =>
      by_cases hcommand : command = MAKE_CREDENTIAL
      · subst hcommand
        rw [step_make]
        rcases hparse : MakeCredential.parse crates body with e | q
        · rw [make_of_parse_error hparse]
          exact hs
        · have hmade := made_of_parse (a := { s.platform with answers }) hs.ids hfresh hdone hparse
            (s := ({ s with platform := { s.platform with answers } } :
              Authenticator Agent).forget MAKE_CREDENTIAL) rfl
          exact hmade.sound hs hfresh (hheard body q rfl hparse)
      · exact (leaves_run_of_ne_make crates managed_sound (fun _ _ hs ↦ hs) (fun _ _ hs ↦ hs) hcommand
          body (({ s with platform := { s.platform with answers } } :
            Authenticator Agent).forget command) hs).1

theorem othersKept_of_sound {h : Happening} {s : Authenticator Agent}
    (hs : Sound s.platform.passkeys) (horderly : h.Orderly crates s) : OthersKept crates (h, s) := by
  rintro answers body rfl p hp hgone
  obtain ⟨hdone, hfresh, -⟩ := horderly
  rw [step_make] at hgone
  rcases hparse : MakeCredential.parse crates body with e | q
  · rw [make_of_parse_error hparse] at hgone
    exact absurd hp hgone
  · have hmade := made_of_parse (a := { s.platform with answers }) hs.ids hfresh hdone hparse
      (s := ({ s with platform := { s.platform with answers } } :
        Authenticator Agent).forget MAKE_CREDENTIAL) rfl
    exact ⟨q, rfl, hmade.kept hs.ids hp hgone⟩

namespace Again

/-- The body of a request for a discoverable passkey of the user `01` of `a`. -/
def body : Bytes :=
  [0xa5, 0x01, 0x40, 0x02, 0xa1, 0x62, 0x69, 0x64, 0x61, 0x61, 0x03, 0xa1, 0x62, 0x69, 0x64, 0x41, 0x01,
    0x04, 0x81, 0xa2, 0x63, 0x61, 0x6c, 0x67, 0x26, 0x64, 0x74, 0x79, 0x70, 0x65, 0x6a, 0x70, 0x75, 0x62,
    0x6c, 0x69, 0x63, 0x2d, 0x6b, 0x65, 0x79, 0x07, 0xa1, 0x62, 0x72, 0x6b, 0xf5]

def value : Value := .map [(.integer 1, .bytes []), (.integer 2, .map [(.text "id", .text "a")]),
  (.integer 3, .map [(.text "id", .bytes [1])]),
  (.integer 4, .array [.map [(.text "alg", .integer (-7)), (.text "type", .text "public-key")]]),
  (.integer 7, .map [(.text "rk", .boolean true)])]

def key : PublicKey := { x := ⟨List.replicate 32 1, rfl⟩, y := ⟨List.replicate 32 1, rfl⟩ }

def reading : Crates where
  decode bytes := if bytes = body then some value else none
  encode _ := []
  rp_id_hash _ := []
  hmac _ _ := []
  public_key _ := key
  shared_keys _ _ _ := none
  aes_encrypt _ _ plaintext := plaintext
  aes_decrypt _ _ ciphertext := some ciphertext

/-- Someone who is verified, and a keyring that does what it is told but for the new passkey. -/
def answers (id : UInt8) (creating : Effect) : Answers :=
  { consent := .ok (.verified 0), listing := .ok (), creating, updating := .done, deleting := .done
    counting := .ok 1, signing := .ok [], computing := .ok [], id := [id], key, now := 0, random := [] }

def made_again (id : UInt8) (creating : Effect) : Happening :=
  .asked (answers id creating) (MAKE_CREDENTIAL :: body)

def empty : Authenticator Agent := .new { passkeys := [], answers := answers 0 .done } []

end Again

end Passkeys.Ctap
