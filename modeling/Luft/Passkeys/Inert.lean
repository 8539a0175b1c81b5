import Luft.Passkeys.Commands

/-!
# What commands leave alone

Most of what a command does is to call the platform and to look at the token.  A property is *steady*
if it does not look at the token, and nothing that is asked, looked up or signed changes it; it is
*managed* if deleting a credential and changing its user do not change it either, and *inert* if making
one does not.  Each command keeps the properties that its calls keep, but for the few steps that keep
something for a follow-up: the first of several assertions, the next one, and a listing.
-/

set_option autoImplicit false

namespace Passkeys.Ctap

variable {P α β : Type} {crates : Crates}

/-- Every run keeps `I`, failed ones included. -/
abbrev Leaves (I : Authenticator P → Prop) (x : Command P α) : Prop := Op.Keeps I (fun _ ↦ True) x

variable {I : Authenticator P → Prop}

theorem leaves_of_log {x : Command P α} (h : ∀ s, I s → I (x s).state) : Leaves I x :=
  fun s hs ↦ ⟨h s hs, fun _ _ ↦ trivial⟩

theorem leaves_ite {p : Prop} {_ : Decidable p} {x y : Command P α} (hx : Leaves I x)
    (hy : Leaves I y) : Leaves I (if p then x else y) := by
  split
  · exact hx
  · exact hy

theorem leaves_require (p : Bool) (e : Status) : Leaves I (Op.require p e) :=
  leaves_of_log fun _ hs ↦ hs

/-- A call that keeps `I`. -/
def Spares (I : Authenticator P → Prop) (f : P → Result α × P) : Prop :=
  ∀ s, I s → I { s with platform := (f s.platform).2 }

theorem leaves_call {f : P → Result α × P} (h : Spares I f) : Leaves I (call f) := leaves_of_log h

variable [Platform P]

/-- A property of the store at most. -/
structure Steady (I : Authenticator P → Prop) : Prop where
  token : ∀ s token, I s → I { s with token }
  ask : ∀ prompt, Spares I (Platform.ask prompt)
  credentials : ∀ rp_id, Spares I (Platform.credentials rp_id)
  all_credentials : Spares I Platform.all_credentials
  next_count : ∀ id, Spares I (Platform.next_count id)
  sign : ∀ id message, Spares I (Platform.sign id message)
  hmac_secret : ∀ id verified salts, Spares I (Platform.hmac_secret id verified salts)
  random : ∀ n s, I s → I { s with platform := (Platform.random n s.platform).2 }

/-- A property that deleting and changing credentials keeps. -/
structure Managed (I : Authenticator P → Prop) : Prop extends Steady I where
  delete : ∀ id, Spares I (Platform.delete id)
  update_user : ∀ id user, Spares I (Platform.update_user id user)

/-- A property of neither the platform nor the token. -/
structure Inert (I : Authenticator P → Prop) : Prop extends Managed I where
  create : ∀ request, Spares I (Platform.create request)

theorem Inert.of (h : ∀ s platform token, I s → I { s with platform, token }) : Inert I where
  token s token hs := h s s.platform token hs
  ask _ s hs := h s _ s.token hs
  credentials _ s hs := h s _ s.token hs
  all_credentials s hs := h s _ s.token hs
  next_count _ s hs := h s _ s.token hs
  sign _ _ s hs := h s _ s.token hs
  hmac_secret _ _ _ s hs := h s _ s.token hs
  random _ s hs := h s _ s.token hs
  delete _ s hs := h s _ s.token hs
  update_user _ _ s hs := h s _ s.token hs
  create _ s hs := h s _ s.token hs

section

variable (hI : Steady I)
include hI

theorem leaves_random (n : ℕ) : Leaves I (random n) := leaves_of_log (hI.random n)

theorem leaves_random_iv (protocol : Protocol) :
    Leaves I (random_iv protocol : Command P Bytes) := by
  cases protocol with
  | one => exact .pure _
  | two => exact leaves_random hI _

theorem leaves_ask (prompt : Prompt) : Leaves I (ask prompt) :=
  (leaves_call (hI.ask prompt)).bind fun _ ↦ (Op.Keeps.emit trivial).bind fun _ ↦ .pure _

theorem leaves_choose : Leaves I (choose : Command P Unit) :=
  (leaves_ask hI _).bind fun _ ↦ .pure _

/-! ## Tokens -/

theorem leaves_authorize (protocol : Protocol) (message param : Bytes) (permission : UInt8)
    (rp_id : Option String) :
    Leaves I (authorize crates protocol message param permission rp_id : Command P Unit) := by
  refine leaves_of_log fun s hs ↦ ?_
  rw [authorize.eq_def]
  split
  · exact hs
  · split
    · exact hs
    · exact hI.token s _ hs

theorem leaves_authorize_with_token (param protocol : Option Value) (client_data_hash : Bytes)
    (permission : UInt8) (rp_id : String) :
    Leaves I (authorize_with_token crates param protocol client_data_hash permission rp_id :
      Command P Bool) := by
  cases param with
  | none => exact .pure _
  | some param =>
    refine (Op.Keeps.lift _).bind fun _ ↦ leaves_ite ?_ ?_
    · exact (leaves_choose hI).bind fun _ ↦ .fail _
    · refine (Op.Keeps.lift _).bind fun _ ↦ (Op.Keeps.lift _).bind fun _ ↦ ?_
      exact (leaves_authorize hI _ _ _ _ _).bind fun _ ↦ .pure _

theorem leaves_take_presence : Leaves I (take_presence : Command P Bool) :=
  leaves_of_log fun s hs ↦ hI.token s _ hs

theorem leaves_speaks (by_token presence : Bool) :
    Leaves I (speaks by_token presence : Command P Bool) := by
  rw [speaks.eq_def]
  split
  · exact leaves_take_presence hI
  · exact .pure _

theorem leaves_approve (by_token presence : Bool) (prompt : Prompt) :
    Leaves I (approve by_token presence prompt : Command P Approval) := by
  refine (leaves_speaks hI _ _).bind fun _ ↦ leaves_ite (.pure _) ?_
  refine (leaves_ask hI _).bind fun consent ↦ ?_
  cases consent with
  | verified account => exact .pure _
  | confirmed => exact .pure _

theorem leaves_spend_token (by_token : Bool) : Leaves I (spend_token by_token : Command P Unit) :=
  .onlyIf fun _ ↦ .change fun s hs ↦ hI.token s _ hs

theorem leaves_token_using_uv (fields : Fields) :
    Leaves I (token_using_uv crates fields : Command P Reply) := by
  refine (Op.Keeps.lift _).bind fun _ ↦ Op.Keeps.state.bind fun _ ↦ (Op.Keeps.lift _).bind fun _ ↦ ?_
  refine (Op.Keeps.change fun s hs ↦ hI.token s _ hs).bind fun _ ↦ ?_
  refine (leaves_ask hI _).bind fun consent ↦ ?_
  cases consent with
  | confirmed => exact .fail _
  | verified account =>
    refine (leaves_random hI _).bind fun _ ↦ Op.Keeps.state.bind fun _ ↦ ?_
    refine (leaves_random_iv hI _).bind fun _ ↦ ?_
    exact (Op.Keeps.change fun s hs ↦ hI.token s _ hs).bind fun _ ↦ .pure _

theorem leaves_client_pin (body : Bytes) : Leaves I (client_pin crates body : Command P Reply) := by
  refine (Op.Keeps.lift _).bind fun _ ↦ (Op.Keeps.lift _).bind fun _ ↦ ?_
  refine (Op.Keeps.lift _).bind fun _ ↦ (Op.Keeps.lift _).bind fun _ ↦ ?_
  refine leaves_ite ?_ (leaves_ite (leaves_token_using_uv hI _) (leaves_ite (.pure _) (.fail _)))
  refine (Op.Keeps.lift _).bind fun _ ↦ (Op.Keeps.lift _).bind fun _ ↦ ?_
  exact (Op.Keeps.lift _).bind fun _ ↦ Op.Keeps.state.bind fun _ ↦ .pure _

/-! ## Assertions and new credentials -/

theorem leaves_hmac_secret (request : HmacSecret.Request) (id : Bytes) (verified : Bool) :
    Leaves I (hmac_secret crates request id verified : Command P Value) := by
  refine Op.Keeps.state.bind fun _ ↦ (Op.Keeps.lift _).bind fun _ ↦ ?_
  refine (leaves_require _ _).bind fun _ ↦ (Op.Keeps.lift _).bind fun _ ↦ ?_
  refine (leaves_require _ _).bind fun _ ↦ (leaves_call (hI.hmac_secret _ _ _)).bind fun _ ↦ ?_
  exact (leaves_random_iv hI _).bind fun _ ↦ .pure _

theorem leaves_extend (assertion : Assertion) :
    Leaves I (extend crates assertion : Command P (Option Value)) := by
  rw [extend.eq_def]
  split
  · exact .pure _
  · exact leaves_ite (.pure _) ((leaves_hmac_secret hI _ _ _).bind fun _ ↦ .pure _)

theorem leaves_assert (assertion : Assertion) :
    Leaves I (assert crates assertion : Command P Reply) :=
  (leaves_extend hI _).bind fun _ ↦ (leaves_call (hI.next_count _)).bind fun _ ↦
    (leaves_call (hI.sign _ _)).bind fun _ ↦ .pure _

/-! ## Management -/

theorem leaves_discoverable : Leaves I (discoverable : Command P (List Credential)) :=
  (leaves_call hI.all_credentials).bind fun _ ↦ .pure _

theorem leaves_find (id : Bytes) : Leaves I (find id : Command P Credential) := by
  refine (leaves_discoverable hI).bind fun credentials ↦ ?_
  split
  · exact .pure _
  · exact .fail _

theorem leaves_enumerate_rps (hlisting : ∀ s listing, I s → I { s with listing }) :
    Leaves I (enumerate_rps : Command P Reply) := by
  refine (leaves_discoverable hI).bind fun credentials ↦ ?_
  split
  · exact .fail _
  · exact (Op.Keeps.change fun s hs ↦ hlisting s _ hs).bind fun _ ↦ .pure _

theorem leaves_enumerate_credentials (hlisting : ∀ s listing, I s → I { s with listing })
    (hash : Bytes) : Leaves I (enumerate_credentials crates hash : Command P Reply) := by
  refine (leaves_discoverable hI).bind fun credentials ↦ ?_
  split
  · exact .fail _
  · exact (Op.Keeps.change fun s hs ↦ hlisting s _ hs).bind fun _ ↦ .pure _

theorem leaves_approved (q : GetAssertion) (by_token : Bool) (candidates : List Credential) :
    Leaves I (q.approved by_token candidates : Command P Approval) :=
  leaves_ite (leaves_approve hI _ _ _) (.pure _)

/-! ## What is kept for follow-ups -/

/-- Only an assertion keeps others for later. -/
theorem leaves_get_assertion (hpending : ∀ s pending, I s → I { s with pending }) (body : Bytes) :
    Leaves I (get_assertion crates body : Command P Reply) := by
  refine (Op.Keeps.lift _).bind fun q ↦ (leaves_authorize_with_token hI _ _ _ _ _).bind fun _ ↦ ?_
  refine (leaves_require _ _).bind fun _ ↦ (leaves_call (hI.credentials _)).bind fun credentials ↦ ?_
  split
  · exact .fail _
  · refine (leaves_approved hI _ _ _).bind fun approval ↦ (leaves_spend_token hI _).bind fun _ ↦ ?_
    split
    · split
      · exact .fail _
      · exact leaves_assert hI _
    · refine (leaves_assert hI _).bind fun _ ↦ ?_
      exact (Op.Keeps.onlyIf fun _ ↦ .change fun s hs ↦ hpending s _ hs).bind fun _ ↦ .pure _

theorem leaves_get_next_assertion (hpending : ∀ s pending, I s → I { s with pending }) :
    Leaves I (get_next_assertion crates : Command P Reply) := by
  refine Op.Keeps.state.bind fun s ↦ (Op.Keeps.change fun s hs ↦ hpending s _ hs).bind fun _ ↦ ?_
  split
  · exact .fail _
  · refine (leaves_require _ _).bind fun _ ↦ ?_
    split
    · exact .fail _
    · refine (leaves_assert hI _).bind fun _ ↦ ?_
      exact (Op.Keeps.change fun s hs ↦ hpending s _ hs).bind fun _ ↦ .pure _

omit [Platform P] hI in
theorem leaves_next_listed (hlisting : ∀ s listing, I s → I { s with listing })
    (subcommand : UInt8) : Leaves I (next_listed subcommand : Command P Reply) := by
  refine Op.Keeps.state.bind fun s ↦ ?_
  split
  · refine (leaves_require _ _).bind fun _ ↦ ?_
    exact (Op.Keeps.change fun s hs ↦ hlisting s _ hs).bind fun _ ↦ .pure _
  · refine (leaves_require _ _).bind fun _ ↦ ?_
    exact (Op.Keeps.change fun s hs ↦ hlisting s _ hs).bind fun _ ↦ .pure _
  · exact .fail _

theorem leaves_authorize_management (hlisting : ∀ s listing, I s → I { s with listing })
    (q : Management) : Leaves I (authorize_management crates q : Command P Unit) := by
  refine (Op.Keeps.change fun s hs ↦ hlisting s _ hs).bind fun _ ↦ (Op.Keeps.lift _).bind fun _ ↦ ?_
  refine (Op.Keeps.lift _).bind fun _ ↦ (Op.Keeps.lift _).bind fun _ ↦ (Op.Keeps.lift _).bind fun _ ↦ ?_
  exact (Op.Keeps.lift _).bind fun _ ↦ leaves_authorize hI _ _ _ _ _

end

/-! ## Deleting and changing credentials -/

section

variable (hI : Managed I)
include hI

theorem leaves_delete (id : Bytes) : Leaves I (delete id : Command P Unit) :=
  (leaves_call (hI.delete id)).bind fun _ ↦ .emit trivial

theorem leaves_delete_all (credentials : List Credential) :
    Leaves I (delete_all credentials : Command P Unit) := by
  induction credentials with
  | nil => exact .pure _
  | cons credential credentials ih => exact (leaves_delete hI _).bind fun _ ↦ ih

theorem leaves_update_user (id : Bytes) (user : User) :
    Leaves I (update_user id user : Command P Unit) :=
  (leaves_find hI.toSteady _).bind fun _ ↦ (leaves_require _ _).bind fun _ ↦
    (leaves_call (hI.update_user _ _)).bind fun _ ↦ .emit trivial

theorem leaves_manage (hlisting : ∀ s listing, I s → I { s with listing }) (subcommand : UInt8)
    (parameters : Option Fields) :
    Leaves I (manage crates subcommand parameters : Command P (Option Reply)) := by
  refine leaves_ite ?_ (leaves_ite ?_ (leaves_ite ?_ (leaves_ite ?_ (leaves_ite ?_
    (leaves_ite ?_ (.fail _))))))
  · exact (leaves_discoverable hI.toSteady).bind fun _ ↦ .pure _
  · exact (leaves_enumerate_rps hI.toSteady hlisting).bind fun _ ↦ .pure _
  · refine (Op.Keeps.lift _).bind fun _ ↦ ?_
    exact (leaves_enumerate_credentials hI.toSteady hlisting _).bind fun _ ↦ .pure _
  · exact (leaves_next_listed hlisting _).bind fun _ ↦ .pure _
  · refine (Op.Keeps.lift _).bind fun _ ↦ (leaves_find hI.toSteady _).bind fun _ ↦ ?_
    exact (leaves_delete hI _).bind fun _ ↦ .pure _
  · refine (Op.Keeps.lift _).bind fun _ ↦ (Op.Keeps.lift _).bind fun _ ↦ ?_
    exact (Op.Keeps.lift _).bind fun _ ↦ (leaves_update_user hI _ _).bind fun _ ↦ .pure _

/-- Only management keeps a listing. -/
theorem leaves_credential_management (hlisting : ∀ s listing, I s → I { s with listing })
    (body : Bytes) :
    Leaves I (credential_management crates body : Command P (Option Reply)) := by
  refine (Op.Keeps.lift _).bind fun q ↦ ?_
  refine (Op.Keeps.onlyIf fun _ ↦ leaves_authorize_management hI.toSteady hlisting q).bind fun _ ↦ ?_
  exact (Op.Keeps.lift _).bind fun _ ↦ leaves_manage hI hlisting _ _

variable (crates) in
/-- **A command that makes no credential** keeps what is managed. -/
theorem leaves_run_of_ne_make (hpending : ∀ s pending, I s → I { s with pending })
    (hlisting : ∀ s listing, I s → I { s with listing }) {command : UInt8}
    (h : command ≠ MAKE_CREDENTIAL) (body : Bytes) :
    Leaves I (run crates command body : Command P (Option Reply)) := by
  have hS := hI.toSteady
  rw [run, if_neg h]
  refine leaves_ite ?_ (leaves_ite (.pure _) (leaves_ite ?_ (leaves_ite (.fail _) (leaves_ite ?_
    (leaves_ite ?_ (leaves_ite ?_ (.fail _)))))))
  · exact (leaves_get_assertion hS hpending _).bind fun _ ↦ .pure _
  · exact (leaves_client_pin hS _).bind fun _ ↦ .pure _
  · exact (leaves_get_next_assertion hS hpending).bind fun _ ↦ .pure _
  · exact leaves_credential_management hI hlisting _
  · exact (leaves_choose hS).bind fun _ ↦ .pure _

end

/-! ## New credentials -/

section

variable (hI : Inert I)
include hI

theorem leaves_make_credential (body : Bytes) :
    Leaves I (make_credential crates body : Command P Reply) := by
  have hS := hI.toSteady
  refine (Op.Keeps.lift _).bind fun q ↦ (leaves_authorize_with_token hS _ _ _ _ _).bind fun _ ↦ ?_
  refine (leaves_call (hI.credentials _)).bind fun _ ↦ leaves_ite ?_ ?_
  · exact (leaves_ask hS _).bind fun _ ↦ .fail _
  · refine (leaves_approve hS _ _ _).bind fun _ ↦ (leaves_call (hI.create _)).bind fun _ ↦ ?_
    refine (Op.Keeps.emit trivial).bind fun _ ↦ ?_
    refine (Op.Keeps.onlyIf fun _ ↦ leaves_delete_all hI.toManaged _).bind fun _ ↦ ?_
    exact (leaves_spend_token hS _).bind fun _ ↦ .pure _

variable (crates) in
/-- **A command that asserts nothing** keeps what is inert, listings apart. -/
theorem leaves_run_of_ne_assertion (hlisting : ∀ s listing, I s → I { s with listing })
    {command : UInt8} (hfirst : command ≠ GET_ASSERTION) (hnext : command ≠ GET_NEXT_ASSERTION)
    (body : Bytes) : Leaves I (run crates command body : Command P (Option Reply)) := by
  rw [run, if_neg hfirst, if_neg hnext]
  refine leaves_ite ?_ (leaves_ite (.pure _) (leaves_ite ?_ (leaves_ite (.fail _) (leaves_ite ?_
    (leaves_ite ?_ (.fail _))))))
  · exact (leaves_make_credential hI _).bind fun _ ↦ .pure _
  · exact (leaves_client_pin hI.toSteady _).bind fun _ ↦ .pure _
  · exact leaves_credential_management hI.toManaged hlisting _
  · exact (leaves_choose hI.toSteady).bind fun _ ↦ .pure _

variable (crates) in
/-- **A command that is no management** keeps what is inert, assertions for later apart. -/
theorem leaves_run_of_ne_management (hpending : ∀ s pending, I s → I { s with pending })
    {command : UInt8} (h : command ≠ CREDENTIAL_MANAGEMENT) (body : Bytes) :
    Leaves I (run crates command body : Command P (Option Reply)) := by
  have hS := hI.toSteady
  rw [run, if_neg h]
  refine leaves_ite ?_ (leaves_ite ?_ (leaves_ite (.pure _) (leaves_ite ?_ (leaves_ite (.fail _)
    (leaves_ite ?_ (leaves_ite ?_ (.fail _)))))))
  · exact (leaves_make_credential hI _).bind fun _ ↦ .pure _
  · exact (leaves_get_assertion hS hpending _).bind fun _ ↦ .pure _
  · exact (leaves_client_pin hS _).bind fun _ ↦ .pure _
  · exact (leaves_get_next_assertion hS hpending).bind fun _ ↦ .pure _
  · exact (leaves_choose hS).bind fun _ ↦ .pure _

end

end Passkeys.Ctap
