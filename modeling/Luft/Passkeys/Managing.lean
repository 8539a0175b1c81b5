import Luft.Passkeys.Agent
import Luft.Passkeys.Listings

/-!
# Managing within the relying party

A token may be bound to a relying party, and the person who is asked for it is told which one.  Making
and asserting credentials looks at that; management does not, and so a token for one relying party
lists, deletes and renames the passkeys of all of them (`managed_beyond`).

`within_run` says when it does not: in a run where every request that such a token authorizes reaches
passkeys of its own relying party only, nothing else is listed, by the request or its follow-ups, and
no passkey of another is deleted or changed.
-/

set_option autoImplicit false

namespace Passkeys.Ctap

variable {P : Type} [Platform P] (crates : Crates)

/-- The authenticator once a request for management has arrived. -/
def managing (x : Event P × Authenticator P) : Authenticator P :=
  ({ x.2 with platform := x.1.before } : Authenticator P).forget CREDENTIAL_MANAGEMENT

/-- A new request for management that is authorized by a token for the relying party `R`. -/
structure Bound (R : String) (q : Management) (x : Event P × Authenticator P) : Prop where
  request : ∃ body, x.1.request = CREDENTIAL_MANAGEMENT :: body ∧
    Management.parse crates body = .ok q
  new : q.follows = false
  token : ∃ token, x.2.token = some token ∧ token.rp_id = some R
  authorized : (authorize_management crates q (managing x)).result = .ok ()

/-- A request that goes on with a listing, or that cannot be read. -/
def GoesOn (x : Event P × Authenticator P) : Prop :=
  x.1.request = [] ∨ ∃ body, x.1.request = CREDENTIAL_MANAGEMENT :: body ∧
    ∀ q, Management.parse crates body = .ok q → q.follows

/-- The hash of a relying party among the parameters. -/
def Management.names_hash (q : Management) : Result Bytes := do
  let fields ← (← q.read).elim (.error .missingParameter) .ok
  Cbor.bytes (← fields.required (.integer 0x01))

/-- The id of a credential among the parameters. -/
def Management.names_id (q : Management) : Result Bytes := do
  let fields ← (← q.read).elim (.error .missingParameter) .ok
  credential_id fields

/-- A passkey that a request lists or names. -/
def Management.reaches (q : Management) (p : Passkey) : Prop :=
  q.subcommand = ENUMERATE_RPS ∧ p.credential.discoverable ∨
    q.subcommand = ENUMERATE_CREDENTIALS ∧ p.credential.discoverable ∧
      q.names_hash = .ok (crates.rp_id_hash p.credential.rp.id) ∨
    (q.subcommand = DELETE ∨ q.subcommand = UPDATE_USER) ∧ q.names_id = .ok p.credential.id

/-- **What is asked for**: a token for a relying party is only used where the request reaches none but
its passkeys. -/
def Confined (x : Event Agent × Authenticator Agent) : Prop :=
  ∀ R q, Bound crates R q x → ∀ p ∈ x.1.before.passkeys, q.reaches crates p →
    p.credential.rp.id = R

/-- The passkeys of other relying parties. -/
def Agent.others (R : String) (a : Agent) : List Passkey :=
  a.passkeys.filter fun p ↦ p.credential.rp.id ≠ R

/-- **Staying within**: what is listed is of the relying party, and all other passkeys stay. -/
structure StaysWithin (R : String) (x : Event Agent × Authenticator Agent) : Prop where
  reply : ∀ (kind : Kind) c n, Replies crates x (kind.reply c n) → c.rp.id = R
  store : (served crates x).state.platform.others R = x.1.before.others R

variable {crates} {R : String} {a : Agent} {q : Management}

/-! ## The store -/

namespace Agent

theorem others_apply {α : Type} {effect : Effect} {value : α} {passkeys : List Passkey}
    (h : passkeys.filter (fun p ↦ p.credential.rp.id ≠ R) = a.others R) :
    (a.apply effect value passkeys).2.others R = a.others R := by
  rw [others]
  rcases apply_passkeys effect value passkeys a with hsame | hnew
  · rw [hsame, others]
  · rw [hnew, h]

theorem others_delete {id : Bytes} (h : ∀ p ∈ a.passkeys, p.credential.id = id → p.credential.rp.id = R) :
    (a.delete id).2.others R = a.others R := by
  rw [delete]
  split
  · refine others_apply (First.filter_eraseP fun p hp hid hother ↦ ?_)
    exact of_decide_eq_true hother (h p hp (of_decide_eq_true hid))
  · rfl

theorem others_update_user {id : Bytes} {user : User}
    (h : ∀ p ∈ a.passkeys, p.credential.id = id → p.credential.rp.id = R) :
    (a.update_user id user).2.others R = a.others R := by
  rw [update_user]
  split
  · refine others_apply (First.filter_updateFirst fun p hp hid ↦ ?_)
    have hrp := h p hp (of_decide_eq_true hid)
    exact ⟨fun hother ↦ of_decide_eq_true hother hrp, fun hother ↦ of_decide_eq_true hother hrp⟩
  · rfl

end Agent

/-! ## A new request -/

/-- The entries that are left to list are of `R`. -/
def LeftWithin (R : String) (s : Authenticator P) : Prop :=
  ∀ kind items, s.listed = some (kind, items) → ∀ c ∈ items, c.rp.id = R

/-- The listing is of `R`, and the other passkeys are those of `a`. -/
structure Stays (R : String) (a : Agent) (s : Authenticator Agent) : Prop where
  left : LeftWithin R s
  store : s.platform.others R = a.others R

/-- An entry of a listing is of `R`. -/
def ReplyWithin (R : String) (reply : Option Reply) : Prop :=
  ∀ (kind : Kind) c n, reply = some (kind.reply c n) → c.rp.id = R

omit [Platform P] in
theorem Unlisted.leftWithin {s : Authenticator P} (h : Unlisted s) : LeftWithin R s := by
  rintro kind items hlisted
  rw [h.listed_eq] at hlisted
  cases hlisted

/-- Nothing is listed yet, and the store is as it was. -/
abbrev Ready (a : Agent) (s : Authenticator Agent) : Prop := Unlisted s ∧ s.platform = a

theorem Ready.stays {s : Authenticator Agent} (h : Ready a s) : Stays R a s where
  left := h.1.leftWithin
  store := by rw [h.2]

theorem steady_ready (a : Agent) : Steady (Ready a) where
  token _ _ hs := hs
  ask _ _ hs := hs
  credentials _ _ hs := hs
  all_credentials _ hs := hs
  next_count _ _ hs := hs
  sign _ _ _ hs := hs
  hmac_secret _ _ _ _ hs := hs
  random _ _ hs := hs

theorem meets_ready {α : Type} {x : Command Agent α} (h : Leaves (Ready a) x) :
    Op.Meets (Ready a) x (fun _ ↦ Ready a) (Stays R a) :=
  h.meets.mono (fun _ hs ↦ hs) (fun _ _ hs ↦ hs) fun _ hs ↦ hs.stays

theorem mem_store {credentials : List Credential} {c : Credential}
    (h : (Platform.all_credentials a).1 = .ok credentials) (hc : c ∈ credentials) :
    ∃ p ∈ a.passkeys, p.credential = c := by
  have hlist : a.list.map (fun passkeys ↦ passkeys.map (·.credential)) = .ok credentials := h
  rw [Agent.list] at hlist
  rcases hlisting : a.answers.listing with e | _
  · rw [hlisting] at hlist
    cases hlist
  · rw [hlisting] at hlist
    cases hlist
    exact List.mem_map.1 hc

/-- The relying parties of the passkeys that can be discovered. -/
theorem rps_within {body : Bytes} {credentials items : List Credential}
    (hall : (Platform.all_credentials a).1 = .ok credentials)
    (hmatching : Matching crates body credentials items .rps)
    (hreach : ∀ p ∈ a.passkeys, p.credential.discoverable → p.credential.rp.id = R) :
    ∀ c ∈ items, c.rp.id = R := by
  rintro c hc
  obtain ⟨c', hc', hdiscoverable, hrp⟩ := (hmatching.2 c.rp.id).1 (List.mem_map_of_mem hc)
  obtain ⟨p, hp, rfl⟩ := mem_store hall hc'
  rw [← hrp]
  exact hreach p hp hdiscoverable

theorem credentials_within {body : Bytes} {credentials items : List Credential}
    (hall : (Platform.all_credentials a).1 = .ok credentials)
    (hmatching : Matching crates body credentials items .credentials)
    (hreach : ∀ hash, NamesHash crates body hash → ∀ p ∈ a.passkeys, p.credential.discoverable →
      crates.rp_id_hash p.credential.rp.id = hash → p.credential.rp.id = R) :
    ∀ c ∈ items, c.rp.id = R := by
  obtain ⟨hash, hnames, hperm⟩ := hmatching
  rintro c hc
  obtain ⟨hc', hreached⟩ := List.mem_filter.1 (hperm.mem_iff.1 hc)
  rw [Bool.and_eq_true] at hreached
  obtain ⟨p, hp, rfl⟩ := mem_store hall hc'
  exact hreach hash hnames p hp hreached.1 (of_decide_eq_true hreached.2)

/-- What a subcommand leaves behind, where it stays within `R`. -/
def ManagedWithin (R : String) (a : Agent) (reply : Option Reply) (s : Authenticator Agent) : Prop :=
  ReplyWithin R reply ∧ Stays R a s

/-- What is replied, wherever it is. -/
abbrev RepliesOf (x : Command P Reply) (kind : Kind) : Prop :=
  Op.Meets (fun _ ↦ True) x (fun reply _ ↦ ∃ c n, reply = kind.reply c n) fun _ ↦ True

/-- A listing of entries of `R`, without another look at the store. -/
theorem meets_listing {x : Command Agent Reply} {body : Bytes} (kind : Kind)
    (hx : Op.Meets (Ready a) x (fun reply s ↦ Listed crates a body reply s) Unlisted)
    (hkind : RepliesOf x kind)
    (hstore : Leaves (fun s : Authenticator Agent ↦ s.platform = a) x)
    (hitems : ∀ credentials items, (Platform.all_credentials a).1 = .ok credentials →
      Matching crates body credentials items kind → ∀ c ∈ items, c.rp.id = R) :
    Op.Meets (Ready a) (x >>= fun reply ↦ pure (some reply)) (ManagedWithin R a) (Stays R a) := by
  refine Op.Meets.bind (B := fun reply s ↦ ManagedWithin R a (some reply) s) ?_ fun reply ↦
    .pure fun _ hs ↦ hs
  rintro s hs
  obtain ⟨hok, herror⟩ := hx s hs
  have hplatform : (x s).state.platform = a := (hstore s hs.2).1
  refine ⟨fun reply hreply ↦ ?_, fun e he ↦ Ready.stays ⟨herror e he, hplatform⟩⟩
  obtain ⟨kind', first, rest, credentials, rfl, hlisted, hall, hmatching⟩ := hok reply hreply
  obtain ⟨c, n, heq⟩ := (hkind s trivial).1 _ hreply
  obtain ⟨rfl, -, -⟩ := Kind.reply_inj heq
  have hentries := hitems credentials _ hall hmatching
  refine ⟨?_, ?_, by rw [hplatform]⟩
  · rintro kind'' c' n' heq
    obtain ⟨-, rfl, -⟩ := Kind.reply_inj (Option.some_inj.1 heq)
    exact hentries _ List.mem_cons_self
  · rintro kind'' items hitems c' hc'
    rw [hlisted] at hitems
    cases hitems
    exact hentries c' (List.mem_cons_of_mem first hc')

theorem repliesOf_enumerate_rps : RepliesOf (enumerate_rps : Command P Reply) .rps := by
  refine Op.Meets.bind (B := fun _ _ ↦ True) (fun _ _ ↦ ⟨fun _ _ ↦ trivial, fun _ _ ↦ trivial⟩)
    fun credentials ↦ ?_
  split
  · exact .fail fun _ _ ↦ trivial
  · exact Op.Meets.bind (B := fun _ _ ↦ True) (.change fun _ _ ↦ trivial) fun _ ↦
      .pure fun _ _ ↦ ⟨_, _, rfl⟩

theorem repliesOf_enumerate_credentials (hash : Bytes) :
    RepliesOf (enumerate_credentials crates hash : Command P Reply) .credentials := by
  refine Op.Meets.bind (B := fun _ _ ↦ True) (fun _ _ ↦ ⟨fun _ _ ↦ trivial, fun _ _ ↦ trivial⟩)
    fun credentials ↦ ?_
  split
  · exact .fail fun _ _ ↦ trivial
  · exact Op.Meets.bind (B := fun _ _ ↦ True) (.change fun _ _ ↦ trivial) fun _ ↦
      .pure fun _ _ ↦ ⟨_, _, rfl⟩

theorem names_hash_eq {body hash : Bytes} (hparse : Management.parse crates body = .ok q)
    (h : NamesHash crates body hash) : q.names_hash = .ok hash := by
  obtain ⟨q', value, fields, hparse', hparameters, hnew, hhash⟩ := h
  rw [hparse] at hparse'
  cases hparse'
  have hread : q.read = .ok (some fields) := by
    rw [Management.read, hparameters]
    exact congrArg (Except.map some) hnew
  rw [Management.names_hash, hread]
  exact hhash

/-- A call on a passkey of `R`. -/
theorem meets_call {f : Agent → Result Unit × Agent} {k : Done}
    (h : (f a).2.others R = a.others R) :
    Op.Meets (Ready a) (call f >>= fun _ ↦ Op.emit k) (fun _ ↦ Stays R a) (Stays R a) := by
  refine Op.Meets.bind (B := fun _ ↦ Stays R a) ?_ fun _ ↦ .emit fun _ hs ↦ hs
  rintro s ⟨hs, rfl⟩
  have hstays : Stays R s.platform (call f s).state := ⟨Unlisted.leftWithin hs, h⟩
  exact ⟨fun _ _ ↦ hstays, fun _ _ ↦ hstays⟩

/-- **A new subcommand** that reaches passkeys of `R` only. -/
theorem meets_manage_within {body : Bytes} {parameters : Option Fields}
    (hparse : Management.parse crates body = .ok q) (hnew : q.follows = false)
    (hread : q.read = .ok parameters)
    (hnames : ∀ fields hash, parameters = some fields →
      (fields.required (.integer 0x01) >>= Cbor.bytes) = .ok hash → NamesHash crates body hash)
    (hreach : ∀ p ∈ a.passkeys, q.reaches crates p → p.credential.rp.id = R) :
    Op.Meets (Ready a) (manage crates q.subcommand parameters) (ManagedWithin R a) (Stays R a) := by
  have hplatform : Steady fun s : Authenticator Agent ↦ s.platform = a := Agent.steady (· = a)
  have hnone (s : Authenticator Agent) (hs : Stays R a s) : ManagedWithin R a none s :=
    ⟨nofun, hs⟩
  rw [Management.follows, Bool.or_eq_false_iff] at hnew
  have hid (id : Bytes) (h : ((parameters.elim (.error .missingParameter) .ok : Result Fields) >>=
      credential_id) = .ok id) : q.names_id = .ok id := by
    rw [Management.names_id, hread]
    exact h
  rw [manage]
  split
  · refine (meets_ready (leaves_discoverable (steady_ready a))).bind fun _ ↦ .pure fun s hs ↦ ?_
    refine ⟨?_, Ready.stays hs⟩
    rintro (_ | _) c n ⟨⟩
  split
  · rename_i hsubcommand
    refine meets_listing .rps (meets_enumerate_rps crates body)
      repliesOf_enumerate_rps (leaves_enumerate_rps hplatform fun _ _ hs ↦ hs) ?_
    rintro credentials items hall hmatching
    exact rps_within hall hmatching fun p hp hdiscoverable ↦
      hreach p hp (.inl ⟨hsubcommand, hdiscoverable⟩)
  split
  · rename_i hsubcommand
    refine (Op.Meets.lift fun _ hs ↦ Ready.stays hs).bind fun hash ↦ .assuming fun hhash ↦ ?_
    have hname : NamesHash crates body hash := by
      cases parameters with
      | none => cases hhash
      | some fields => exact hnames fields hash rfl hhash
    refine meets_listing .credentials (meets_enumerate_credentials hname)
      (repliesOf_enumerate_credentials hash)
      (leaves_enumerate_credentials hplatform (fun _ _ hs ↦ hs) hash) ?_
    rintro credentials items hall hmatching
    refine credentials_within hall hmatching fun hash' hnames' p hp hdiscoverable heq ↦ ?_
    refine hreach p hp (.inr (.inl ⟨hsubcommand, hdiscoverable, ?_⟩))
    rw [names_hash_eq hparse hnames', heq]
  rw [if_neg (not_or.2 ⟨of_decide_eq_false hnew.1, of_decide_eq_false hnew.2⟩)]
  split
  · rename_i hsubcommand
    refine (Op.Meets.lift fun _ hs ↦ Ready.stays hs).bind fun id ↦ .assuming fun hlift ↦ ?_
    refine (meets_ready (leaves_find (steady_ready a) id)).bind fun _ ↦ ?_
    refine Op.Meets.bind (meets_call (Agent.others_delete fun p hp heq ↦ ?_)) fun _ ↦ .pure hnone
    exact hreach p hp (.inr (.inr ⟨.inl hsubcommand, heq ▸ hid id hlift⟩))
  split
  · rename_i hsubcommand
    refine (Op.Meets.lift fun _ hs ↦ Ready.stays hs).bind fun fields ↦ .assuming fun hfields ↦ ?_
    refine (Op.Meets.lift fun _ hs ↦ Ready.stays hs).bind fun id ↦ .assuming fun hlift ↦ ?_
    refine (Op.Meets.lift fun _ hs ↦ Ready.stays hs).bind fun user ↦ .assuming fun _ ↦ ?_
    refine Op.Meets.bind ?_ fun _ ↦ .pure hnone
    refine (meets_ready (leaves_find (steady_ready a) id)).bind fun credential ↦ ?_
    refine (Op.Meets.require fun _ hs ↦ Ready.stays hs).bind fun _ ↦ .assuming fun _ ↦ ?_
    refine meets_call (Agent.others_update_user fun p hp heq ↦ ?_)
    refine hreach p hp (.inr (.inr ⟨.inr hsubcommand, heq ▸ hid id ?_⟩))
    rw [hfields]
    exact hlift
  · exact .fail fun _ hs ↦ Ready.stays hs

theorem meets_management_within {body : Bytes} (hparse : Management.parse crates body = .ok q)
    (hnew : q.follows = false)
    (hreach : ∀ p ∈ a.passkeys, q.reaches crates p → p.credential.rp.id = R) :
    Op.Meets (fun s ↦ s.platform = a) (credential_management crates body) (ManagedWithin R a)
      (Stays R a) := by
  rintro s hs
  rw [credential_management, hparse, Op.bind_of_eq_ok (Op.lift_apply _), hnew, Bool.not_false]
  refine Op.Meets.bind (A := fun s ↦ s.platform = a) (B := fun _ ↦ Ready a)
    (.onlyIf (fun _ ↦ ?_) fun h ↦ by cases h) ?_ s hs
  · have hauthorize := (meets_authorize_management crates (p := a) q).and
      (leaves_authorize_management (Agent.steady (· = a)) (fun _ _ hs ↦ hs) q).meets
    exact hauthorize.mono (fun _ hs ↦ hs) (fun _ _ hs ↦ hs.1) fun _ hs ↦ Ready.stays hs
  refine fun _ ↦ (Op.Meets.lift fun _ hs ↦ Ready.stays hs).bind fun parameters ↦
    .assuming fun hread ↦ meets_manage_within hparse hnew hread ?_ hreach
  rintro fields hash rfl hhash
  rw [Management.read] at hread
  rcases hparameters : q.parameters with _ | value
  · rw [hparameters] at hread
    cases hread
  · rw [hparameters] at hread
    cases value with
    | map entries =>
      cases hread
      exact ⟨q, _, _, hparse, hparameters, rfl, hhash⟩
    | _ => cases hread

/-! ## Any run -/

variable (crates) in
theorem served_management {x : Event P × Authenticator P} {body : Bytes}
    (h : x.1.request = CREDENTIAL_MANAGEMENT :: body) :
    served crates x = credential_management crates body (managing x) := by
  obtain ⟨⟨p, request⟩, s⟩ := x
  dsimp only at h
  subst h
  exact perform_cons crates CREDENTIAL_MANAGEMENT body _

/-- **The request itself.** -/
theorem within_bound {x : Event Agent × Authenticator Agent} (hbound : Bound crates R q x)
    (hconfined : Confined crates x) :
    StaysWithin crates R x ∧ LeftWithin R (x.1.step crates x.2) := by
  obtain ⟨body, hrequest, hparse⟩ := hbound.request
  have hserved := served_management crates hrequest
  obtain ⟨hok, herror⟩ := meets_management_within hparse hbound.new
    (hconfined R q hbound) (managing x) rfl
  rw [← hserved] at hok herror
  rcases hresult : (served crates x).result with e | reply
  · obtain ⟨hleft, hstore⟩ := herror e hresult
    refine ⟨⟨fun kind c n h ↦ ?_, hstore⟩, hleft⟩
    rw [h.2] at hresult
    cases hresult
  · obtain ⟨hreply, hleft, hstore⟩ := hok reply hresult
    refine ⟨⟨fun kind c n h ↦ hreply kind c n ?_, hstore⟩, hleft⟩
    exact Except.ok.inj (hresult.symm.trans h.2)

/-- A request that goes on lists what is left, or nothing. -/
theorem goesOn_cases {x : Event P × Authenticator P} (h : GoesOn crates x) :
    (served crates x).state.platform = x.1.before ∧
      ((∃ e, (served crates x).result = .error e) ∧ (x.1.step crates x.2).listed = x.2.listed ∨
        ∃ kind c rest, x.2.listed = some (kind, c :: rest) ∧
          (served crates x).result = .ok (some (kind.reply c none)) ∧
          (x.1.step crates x.2).listed = some (kind, rest)) := by
  obtain ⟨⟨p, request⟩, s⟩ := x
  rcases h with hnil | ⟨body, hrequest, hfollows⟩
  · dsimp only at hnil
    subst hnil
    exact ⟨rfl, .inl ⟨⟨_, rfl⟩, rfl⟩⟩
  have hserved := served_management crates hrequest
  have hlisted : (managing (⟨p, request⟩, s)).listed = s.listed := rfl
  rw [Event.step, hserved]
  rcases hparse : Management.parse crates body with e | q
  · rw [credential_management, hparse, Op.bind_of_eq_error (Op.lift_apply _)]
    exact ⟨rfl, .inl ⟨⟨e, rfl⟩, rfl⟩⟩
  rw [follow_management hparse (hfollows q hparse)]
  rcases hread : q.read with e | parameters
  · rw [Op.bind_of_eq_error (Op.lift_apply _)]
    exact ⟨rfl, .inl ⟨⟨e, rfl⟩, rfl⟩⟩
  rw [Op.bind_of_eq_ok (Op.lift_apply _), replied_eq]
  refine ⟨(leaves_next_listed (I := fun s ↦ s.platform = p) (fun _ _ hs ↦ hs) _ _ rfl).1, ?_⟩
  rcases next_listed_cases q.subcommand (managing (⟨p, request⟩, s)) with
    ⟨kind, c, rest, hleft, -, hresult, hstate⟩ | ⟨hresult, hstate, -⟩
  · exact .inr ⟨kind, c, rest, hleft, by rw [hresult]; rfl, hstate⟩
  · exact .inl ⟨⟨.notAllowed, by rw [hresult]; rfl⟩, by rw [hstate]; exact hlisted⟩

/-- **A follow-up.** -/
theorem within_goesOn {x : Event Agent × Authenticator Agent} (h : GoesOn crates x)
    (hleft : LeftWithin R x.2) : StaysWithin crates R x ∧ LeftWithin R (x.1.step crates x.2) := by
  obtain ⟨hplatform, ⟨⟨e, herror⟩, hlisted⟩ | ⟨kind, c, rest, hlisted, hresult, hafter⟩⟩ := goesOn_cases h
  · refine ⟨⟨fun kind c n hreply ↦ ?_, by rw [hplatform]⟩, ?_⟩
    · rw [hreply.2] at herror
      cases herror
    · rw [LeftWithin, hlisted]
      exact hleft
  · have hentries := hleft kind _ hlisted
    refine ⟨⟨fun kind' c' n hreply ↦ ?_, by rw [hplatform]⟩, ?_⟩
    · rw [hreply.2] at hresult
      obtain ⟨-, rfl, -⟩ := Kind.reply_inj (Option.some_inj.1 (Except.ok.inj hresult))
      exact hentries _ List.mem_cons_self
    · rintro kind' items hitems c' hc'
      rw [hafter] at hitems
      cases hitems
      exact hentries c' (List.mem_cons_of_mem c hc')

theorem within_follow_ups {es : List (Event Agent)} {s : Authenticator Agent}
    {mid rest : List (Event Agent × Authenticator Agent)}
    (htrace : Runs.trace (Event.step crates) es s = mid ++ rest) (hleft : LeftWithin R s)
    (hmid : ∀ y ∈ mid, GoesOn crates y) : ∀ y ∈ mid, StaysWithin crates R y := by
  induction mid generalizing es s with
  | nil =>
    rintro y ⟨⟩
  | cons x mid ih =>
    cases es with
    | nil =>
      rw [Runs.trace_nil, List.cons_append] at htrace
      cases htrace
    | cons e es =>
      rw [Runs.trace_cons, List.cons_append, List.cons.injEq] at htrace
      obtain ⟨rfl, htrace⟩ := htrace
      obtain ⟨hwithin, hafter⟩ := within_goesOn (hmid (e, s) List.mem_cons_self) hleft
      rintro y hy
      rcases List.mem_cons.1 hy with rfl | hy
      · exact hwithin
      · exact ih htrace hafter (fun z hz ↦ hmid z (List.mem_cons_of_mem _ hz)) y hy

/-- **Management stays within the relying party** of the token, follow-ups included, in every run where
no such token is used to reach the passkeys of another. -/
theorem within_run (crates : Crates) (es : List (Event Agent)) (s : Authenticator Agent)
    (h : Runs.Along (Event.step crates) (fun e t ↦ Confined crates (e, t)) es s) (R : String)
    (q : Management) (earlier mid rest : List (Event Agent × Authenticator Agent))
    (x : Event Agent × Authenticator Agent)
    (htrace : Runs.trace (Event.step crates) es s = earlier ++ x :: (mid ++ rest))
    (hbound : Bound crates R q x) (hmid : ∀ y ∈ mid, GoesOn crates y) :
    ∀ y ∈ x :: mid, StaysWithin crates R y := by
  induction earlier generalizing es s with
  | nil =>
    cases es with
    | nil => cases htrace
    | cons e es =>
      rw [Runs.trace_cons, List.nil_append, List.cons.injEq] at htrace
      obtain ⟨rfl, htrace⟩ := htrace
      obtain ⟨hwithin, hleft⟩ := within_bound hbound h.1
      rintro y hy
      rcases List.mem_cons.1 hy with rfl | hy
      · exact hwithin
      · exact within_follow_ups htrace hleft hmid y hy
  | cons z earlier ih =>
    cases es with
    | nil => cases htrace
    | cons e es =>
      rw [Runs.trace_cons, List.cons_append, List.cons.injEq] at htrace
      exact ih es (e.step crates s) h.2 htrace.2

/-! ## A token for one site -/

namespace Narrow

def coordinate : Coordinate := ⟨List.replicate 32 2, rfl⟩

def key : PublicKey := { x := coordinate, y := coordinate }

/-- The body of a request for a token to manage `a`. -/
def token_body : Bytes :=
  [0xa5, 0x01, 0x01, 0x02, 0x06, 0x03, 0xa5, 0x01, 0x02, 0x03, 0x38, 0x18, 0x20, 0x01, 0x21, 0x58, 0x20] ++
    coordinate.1 ++ [0x22, 0x58, 0x20] ++ coordinate.1 ++ [0x09, 0x04, 0x0a, 0x61, 0x61]

def token_value : Value := .map [(.integer 1, .integer 1), (.integer 2, .integer 6),
  (.integer 3, key.to_cose ECDH_ES_HKDF_256), (.integer 9, .integer 4), (.integer 10, .text "a")]

def tag : Bytes := List.replicate 16 7

/-- The body of a request for all relying parties. -/
def rps_body : Bytes := [0xa3, 0x01, 0x02, 0x03, 0x01, 0x04, 0x50] ++ tag

def rps_value : Value := .map [(.integer 1, .integer 2), (.integer 3, .integer 1), (.integer 4, .bytes tag)]

def reading : Crates where
  decode bytes :=
    if bytes = token_body then some token_value else if bytes = rps_body then some rps_value else none
  encode _ := []
  rp_id_hash _ := []
  hmac _ _ := List.replicate 32 7
  public_key _ := key
  shared_keys _ _ _ := some ([], [])
  aes_encrypt _ _ plaintext := plaintext
  aes_decrypt _ _ ciphertext := some ciphertext

/-- A passkey of a site. -/
def stored (site : String) : Passkey :=
  { credential :=
      { id := [1], rp := { id := site, name := none }
        user := { id := [1], name := none, display_name := none }
        public_key := key, discoverable := true, protection := .uvOptional }
    created := 0 }

/-- Someone who is verified, and a keyring with one passkey. -/
def agent (site : String) : Agent :=
  { passkeys := [stored site]
    answers :=
      { consent := .ok (.verified 0), listing := .ok (), creating := .done, updating := .done
        deleting := .done, counting := .ok 1, signing := .ok [], computing := .ok [], id := [2], key
        now := 0, random := [] } }

def obtaining (site : String) : Event Agent := ⟨agent site, CLIENT_PIN :: token_body⟩

def listing (site : String) : Event Agent := ⟨agent site, CREDENTIAL_MANAGEMENT :: rps_body⟩

def fresh (site : String) : Authenticator Agent := .new (agent site) []

/-- The request for all relying parties, with a token for `a`. -/
def using_token (site : String) : Event Agent × Authenticator Agent :=
  (listing site, (obtaining site).step reading (fresh site))

def token : Token :=
  { key := [], protocol := .one, permissions := 4, rp_id := some "a", user_present := true
    last_used := 0 }

def request : Management :=
  { subcommand := 2, parameters := none
    fields := [(.integer 1, .integer 2), (.integer 3, .integer 1), (.integer 4, .bytes tag)] }

theorem parse_rps_body : Management.parse reading rps_body = .ok request := by
  rfl

theorem token_using (site : String) : (using_token site).2.token = some token := by
  rfl

theorem authorize_token :
    token.authorize reading 0 .one [2] tag Token.CREDENTIAL_MANAGEMENT none = .ok token := by
  decide +kernel

theorem authorize_request {s : Authenticator Agent} (htoken : s.token = some token)
    (hnow : Platform.now s.platform = 0) :
    (authorize_management reading request s).result = .ok () := by
  have hauthorize : authorize_management reading request s =
    authorize reading .one [2] tag Token.CREDENTIAL_MANAGEMENT none { s with listing := none } := rfl
  rw [hauthorize, authorize.eq_def]
  dsimp only
  rw [htoken, hnow]
  dsimp only
  rw [authorize_token]

theorem bound (site : String) : Bound reading "a" request (using_token site) where
  request := ⟨rps_body, rfl, parse_rps_body⟩
  new := rfl
  token := ⟨token, token_using site, rfl⟩
  authorized := authorize_request (token_using site) rfl

end Narrow

open Narrow in
/-- A keyring with passkeys of the site only. -/
theorem within_run_own : StaysWithin reading "a" (using_token "a") := by
  have hnone : Confined reading (obtaining "a", fresh "a") := by
    rintro R q ⟨⟨body, hrequest, -⟩, -⟩
    exact absurd (List.cons.inj hrequest).1 (by decide)
  have hown : Confined reading (using_token "a") := by
    rintro R q ⟨-, -, ⟨token', htoken, hrp⟩, -⟩ p hp -
    rw [token_using] at htoken
    obtain rfl := Option.some_inj.1 htoken
    rw [List.mem_singleton.1 hp]
    exact Option.some_inj.1 hrp
  exact within_run reading [obtaining "a", listing "a"] (fresh "a") ⟨hnone, hown, trivial⟩ "a" request
    [(obtaining "a", fresh "a")] [] [] (using_token "a") rfl (bound "a") (by rintro y ⟨⟩)
    (using_token "a") List.mem_cons_self

open Narrow in
/-- **Beyond the site**: the token is for `a`, and the passkey of `b` is listed. -/
theorem managed_beyond :
    Runs.trace (Event.step reading) [obtaining "b", listing "b"] (fresh "b") =
        [(obtaining "b", fresh "b"), using_token "b"] ∧
      Bound reading "a" request (using_token "b") ∧ ¬ StaysWithin reading "a" (using_token "b") := by
  refine ⟨rfl, bound "b", fun h ↦ ?_⟩
  have hlisted : Replies reading (using_token "b") (Kind.rps.reply (stored "b").credential (some 1)) :=
    ⟨rfl, rfl⟩
  exact absurd (h.reply .rps _ _ hlisted) (by decide)

end Passkeys.Ctap
