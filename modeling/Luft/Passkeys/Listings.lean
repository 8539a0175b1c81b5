import Luft.Passkeys.FollowUps

/-!
# Listings

Management lists the relying parties, or the credentials of one of them, an entry at a time: the first
reply says how many there are, and each of the following requests gets the next.
-/

set_option autoImplicit false

namespace Passkeys.Ctap

/-- What is listed. -/
inductive Kind where
  | rps
  | credentials
deriving DecidableEq, Repr

namespace Kind

def next : Kind → UInt8
  | rps => NEXT_RP
  | credentials => NEXT_CREDENTIAL

def reply : Kind → Credential → Option ℕ → Reply
  | rps => .rp
  | credentials => .credential

theorem reply_inj {k k' : Kind} {c c' : Credential} {n n' : Option ℕ}
    (h : k.reply c n = k'.reply c' n') : k = k' ∧ c = c' ∧ n = n' := by
  cases k <;> cases k' <;> cases h <;> exact ⟨rfl, rfl, rfl⟩

end Kind

def Listing.left : Listing → Kind × List Credential
  | .relyingParties remaining => (.rps, remaining)
  | .credentials remaining => (.credentials, remaining)

variable {P : Type} [Platform P] (crates : Crates)

/-- The entries that are left to list. -/
def Authenticator.listed (s : Authenticator P) : Option (Kind × List Credential) :=
  s.listing.map Listing.left

/-- A request for management is served with a reply. -/
def Replies (x : Event P × Authenticator P) (reply : Reply) : Prop :=
  x.1.request.head? = some CREDENTIAL_MANAGEMENT ∧ (served crates x).result = .ok (some reply)

/-- The hash of the relying party that a request for management names. -/
def NamesHash (body hash : Bytes) : Prop :=
  ∃ q value fields, Management.parse crates body = .ok q ∧ q.parameters = some value ∧
    Fields.new value = .ok fields ∧ (fields.required (.integer 0x01) >>= Cbor.bytes) = .ok hash

/-- **What a listing should be**, of all credentials: every relying party of a credential that can be
discovered, once; or every such credential of the relying party with the hash. -/
def Matching (body : Bytes) (credentials items : List Credential) : Kind → Prop
  | .rps => (items.map (·.rp.id)).Nodup ∧
      ∀ id, id ∈ items.map (·.rp.id) ↔ ∃ c ∈ credentials, c.discoverable ∧ c.rp.id = id
  | .credentials => ∃ hash, NamesHash crates body hash ∧
      items.Perm (credentials.filter fun c ↦ c.discoverable && crates.rp_id_hash c.rp.id = hash)

/-- A request lists the entries that match, and leaves all but the first. -/
def Lists (x : Event P × Authenticator P) (kind : Kind) (items : List Credential) : Prop :=
  ∃ first body credentials, x.1.request = CREDENTIAL_MANAGEMENT :: body ∧
    Replies crates x (kind.reply first (some (items.length + 1))) ∧
    (Platform.all_credentials x.1.before).1 = .ok credentials ∧
    Matching crates body credentials (first :: items) kind

def listings : Dealing.Dealer (Event P × Authenticator P) Kind Credential where
  begins := Lists crates
  deals x kind credential := Replies crates x (kind.reply credential none)
  idle x := ∃ e, (served crates x).result = .error e

/-! ## What is discoverable -/

variable {crates} {p : P}

instance totalRp : Std.Total fun a b : Credential ↦ a.rp.id ≤ b.rp.id :=
  ⟨fun a b ↦ le_total a.rp.id b.rp.id⟩

instance transRp : IsTrans Credential fun a b ↦ a.rp.id ≤ b.rp.id := ⟨fun _ _ _ ↦ le_trans⟩

/-- The credentials that can be discovered, by relying party. -/
def sorted (credentials : List Credential) : List Credential :=
  (credentials.filter (·.discoverable)).insertionSort fun a b ↦ a.rp.id ≤ b.rp.id

theorem mem_sorted {credentials : List Credential} {c : Credential} :
    c ∈ sorted credentials ↔ c ∈ credentials ∧ c.discoverable := by
  rw [sorted, List.mem_insertionSort, List.mem_filter]

variable (crates) in
/-- Each relying party once. -/
theorem matching_rps (body : Bytes) (credentials : List Credential) :
    Matching crates body credentials
      (Adjacent.dedup_by (fun a b ↦ a.rp.id = b.rp.id) (sorted credentials)) .rps := by
  constructor
  · have hpairwise := Adjacent.pairwise_dedup_by (fun c : Credential ↦ c.rp.id)
      (List.pairwise_insertionSort (fun a b : Credential ↦ a.rp.id ≤ b.rp.id)
        (credentials.filter (·.discoverable)))
    exact List.pairwise_map.2 (hpairwise.imp fun h ↦ h.ne)
  · intro id
    rw [Adjacent.mem_map_dedup_by fun c : Credential ↦ c.rp.id, List.mem_map]
    constructor
    · rintro ⟨c, hc, rfl⟩
      exact ⟨c, (mem_sorted.1 hc).1, (mem_sorted.1 hc).2, rfl⟩
    · rintro ⟨c, hc, hdiscoverable, rfl⟩
      exact ⟨c, mem_sorted.2 ⟨hc, hdiscoverable⟩, rfl⟩

/-- Each credential of the relying party once. -/
theorem matching_credentials {body hash : Bytes} (h : NamesHash crates body hash)
    (credentials : List Credential) :
    Matching crates body credentials
      ((sorted credentials).filter fun c ↦ crates.rp_id_hash c.rp.id = hash) .credentials := by
  refine ⟨hash, h, ((List.perm_insertionSort _ _).filter _).trans ?_⟩
  rw [List.filter_filter]
  exact List.Perm.of_eq (List.filter_congr fun c _ ↦ Bool.and_comm _ _)

/-! ## A new listing -/

/-- Nothing is listed. -/
def Unlisted (s : Authenticator P) : Prop := s.listing = none

theorem inert_unlisted : Inert (Unlisted (P := P)) := .of fun _ _ _ hs ↦ hs

omit [Platform P] in
theorem Unlisted.listed_eq {s : Authenticator P} (h : Unlisted s) : s.listed = none := by
  rw [Authenticator.listed, h, Option.map_none]

/-- A reply lists what matches, and the rest of it is left. -/
def Listed (crates : Crates) (p : P) (body : Bytes) (reply : Reply) (s : Authenticator P) : Prop :=
  ∃ kind first rest credentials, reply = kind.reply first (some (rest.length + 1)) ∧
    s.listed = some (kind, rest) ∧ (Platform.all_credentials p).1 = .ok credentials ∧
    Matching crates body credentials (first :: rest) kind

variable (crates) in
theorem meets_authorize_management (q : Management) :
    Op.Meets (fun s ↦ s.platform = p) (authorize_management crates q)
      (fun _ s ↦ Unlisted s ∧ s.platform = p) Unlisted := by
  refine Op.Meets.bind (B := fun _ s ↦ Unlisted s ∧ s.platform = p)
    (.change fun _ hs ↦ ⟨rfl, hs⟩) fun _ ↦ ?_
  refine (Op.Meets.lift fun _ hs ↦ hs.1).bind fun _ ↦ .assuming fun _ ↦ ?_
  refine (Op.Meets.lift fun _ hs ↦ hs.1).bind fun _ ↦ .assuming fun _ ↦ ?_
  refine (Op.Meets.lift fun _ hs ↦ hs.1).bind fun _ ↦ .assuming fun _ ↦ ?_
  refine (Op.Meets.lift fun _ hs ↦ hs.1).bind fun _ ↦ .assuming fun _ ↦ ?_
  refine (Op.Meets.lift fun _ hs ↦ hs.1).bind fun _ ↦ .assuming fun _ ↦ ?_
  exact meets_authorize (fun _ hs ↦ hs.1) fun _ _ hs ↦ hs

theorem meets_discoverable :
    Op.Meets (fun s ↦ Unlisted s ∧ s.platform = p) discoverable
      (fun listed s ↦ (∃ credentials, (Platform.all_credentials p).1 = .ok credentials ∧
        listed = sorted credentials) ∧ Unlisted s) Unlisted := by
  refine Op.Meets.bind (B := fun credentials s ↦
    (Platform.all_credentials p).1 = .ok credentials ∧ Unlisted s) ?_ fun credentials ↦
    .pure fun _ hs ↦ ⟨⟨credentials, hs.1, rfl⟩, hs.2⟩
  rintro s ⟨hs, rfl⟩
  exact ⟨fun _ hcredentials ↦ ⟨hcredentials, hs⟩, fun _ _ ↦ hs⟩

variable (crates) in
theorem meets_enumerate_rps (body : Bytes) :
    Op.Meets (fun s ↦ Unlisted s ∧ s.platform = p) enumerate_rps
      (fun reply s ↦ Listed crates p body reply s) Unlisted := by
  refine meets_discoverable.bind fun listed ↦ .assuming ?_
  rintro ⟨credentials, hcredentials, rfl⟩
  have hmatching := matching_rps crates body credentials
  split
  · exact .fail fun _ hs ↦ hs
  · rename_i first rest hrps
    rw [hrps] at hmatching
    refine Op.Meets.bind (B := fun _ s ↦ s.listed = some (Kind.rps, rest)) (.change fun _ _ ↦ rfl)
      fun _ ↦ .pure fun s hs ↦ ?_
    exact ⟨.rps, first, rest, credentials, rfl, hs, hcredentials, hmatching⟩

theorem meets_enumerate_credentials {body hash : Bytes} (h : NamesHash crates body hash) :
    Op.Meets (fun s ↦ Unlisted s ∧ s.platform = p) (enumerate_credentials crates hash)
      (fun reply s ↦ Listed crates p body reply s) Unlisted := by
  refine meets_discoverable.bind fun listed ↦ .assuming ?_
  rintro ⟨credentials, hcredentials, rfl⟩
  have hmatching := matching_credentials h credentials
  split
  · exact .fail fun _ hs ↦ hs
  · rename_i first rest hmatch
    rw [hmatch] at hmatching
    refine Op.Meets.bind (B := fun _ s ↦ s.listed = some (Kind.credentials, rest))
      (.change fun _ _ ↦ rfl) fun _ ↦ .pure fun s hs ↦ ?_
    exact ⟨.credentials, first, rest, credentials, rfl, hs, hcredentials, hmatching⟩

/-- What a subcommand that is no follow-up leaves: what it lists, or nothing. -/
def Begun (crates : Crates) (p : P) (body : Bytes) (reply : Option Reply) (s : Authenticator P) :
    Prop :=
  (∃ r, reply = some r ∧ Listed crates p body r s) ∨
    Unlisted s ∧ ∀ (kind : Kind) c n, reply ≠ some (kind.reply c n)

/-- A subcommand that lists nothing. -/
theorem meets_then {α : Type} {x : Command P α} {f : α → Option Reply} {body : Bytes}
    (hx : Op.Meets (fun s ↦ Unlisted s ∧ s.platform = p) x (fun _ ↦ Unlisted) Unlisted)
    (hf : ∀ a (kind : Kind) c n, f a ≠ some (kind.reply c n)) :
    Op.Meets (fun s ↦ Unlisted s ∧ s.platform = p) (x >>= fun a ↦ pure (f a))
      (Begun crates p body) Unlisted :=
  hx.bind fun a ↦ .pure fun _ hs ↦ .inr ⟨hs, hf a⟩

omit [Platform P] in
/-- What leaves it at nothing listed. -/
theorem unlisted_of_leaves {α : Type} {x : Command P α} (hx : Leaves Unlisted x) :
    Op.Meets (fun s ↦ Unlisted s ∧ s.platform = p) x (fun _ ↦ Unlisted) Unlisted :=
  hx.meets.mono (fun _ hs ↦ hs.1) (fun _ _ hs ↦ hs) fun _ hs ↦ hs

/-- **A new subcommand.** -/
theorem meets_manage {subcommand : UInt8} {parameters : Option Fields} {body : Bytes}
    (hrp : subcommand ≠ NEXT_RP) (hcredential : subcommand ≠ NEXT_CREDENTIAL)
    (hnames : ∀ fields hash, parameters = some fields →
      (fields.required (.integer 0x01) >>= Cbor.bytes) = .ok hash → NamesHash crates body hash) :
    Op.Meets (fun s ↦ Unlisted s ∧ s.platform = p) (manage crates subcommand parameters)
      (Begun crates p body) Unlisted := by
  rw [manage]
  split
  · exact meets_then (unlisted_of_leaves (leaves_discoverable inert_unlisted.toSteady))
      fun _ kind _ _ ↦ by cases kind <;> rintro ⟨⟩
  split
  · exact (meets_enumerate_rps crates body).bind fun reply ↦ .pure fun _ hs ↦ .inl ⟨reply, rfl, hs⟩
  split
  · refine (Op.Meets.lift fun _ hs ↦ hs.1).bind fun hash ↦ .assuming fun hhash ↦ ?_
    have hname : NamesHash crates body hash := by
      cases parameters with
      | none => cases hhash
      | some fields => exact hnames fields hash rfl hhash
    exact (meets_enumerate_credentials hname).bind fun reply ↦
      .pure fun _ hs ↦ .inl ⟨reply, rfl, hs⟩
  rw [if_neg (not_or.2 ⟨hrp, hcredential⟩)]
  split
  · refine (Op.Meets.lift fun _ hs ↦ hs.1).bind fun id ↦ .assuming fun _ ↦ ?_
    refine Op.Meets.bind (unlisted_of_leaves (leaves_find inert_unlisted.toSteady id)) fun _ ↦ ?_
    exact (leaves_delete inert_unlisted.toManaged id).meets.bind fun _ ↦ .pure fun _ hs ↦ .inr ⟨hs, nofun⟩
  split
  · refine (Op.Meets.lift fun _ hs ↦ hs.1).bind fun fields ↦ .assuming fun _ ↦ ?_
    refine (Op.Meets.lift fun _ hs ↦ hs.1).bind fun id ↦ .assuming fun _ ↦ ?_
    refine (Op.Meets.lift fun _ hs ↦ hs.1).bind fun user ↦ .assuming fun _ ↦ ?_
    exact meets_then (unlisted_of_leaves (leaves_update_user inert_unlisted.toManaged id user)) nofun
  · exact .fail fun _ hs ↦ hs.1

/-! ## The next entry -/

omit [Platform P] in
/-- **The next entry** is the first that is left, if it is of the kind that is asked for; otherwise the
request is refused and changes nothing. -/
theorem next_listed_cases (subcommand : UInt8) (s : Authenticator P) :
    (∃ kind c rest, s.listed = some (kind, c :: rest) ∧ subcommand = kind.next ∧
      (next_listed subcommand s).result = .ok (kind.reply c none) ∧
      (next_listed subcommand s).state.listed = some (kind, rest)) ∨
    (next_listed subcommand s).result = .error .notAllowed ∧ (next_listed subcommand s).state = s ∧
      ∀ kind c rest, s.listed = some (kind, c :: rest) → subcommand ≠ kind.next := by
  rw [next_listed, Op.bind_of_eq_ok Op.state_apply]
  rcases hlisting : s.listing with _ | (_ | ⟨c, rest⟩) | (_ | ⟨c, rest⟩)
  · refine .inr ⟨rfl, rfl, fun kind c rest h ↦ ?_⟩
    rw [Authenticator.listed, hlisting] at h
    cases h
  · refine .inr ⟨rfl, rfl, fun kind c rest h ↦ ?_⟩
    rw [Authenticator.listed, hlisting] at h
    cases h
  · dsimp only
    rw [Op.require_bind]
    split
    · rename_i hnext
      refine .inl ⟨.rps, c, rest, ?_, of_decide_eq_true hnext, rfl, rfl⟩
      rw [Authenticator.listed, hlisting]
      rfl
    · rename_i hnext
      refine .inr ⟨rfl, rfl, fun kind c' rest' h ↦ ?_⟩
      rw [Authenticator.listed, hlisting] at h
      cases h
      exact fun heq ↦ hnext (decide_eq_true heq)
  · refine .inr ⟨rfl, rfl, fun kind c rest h ↦ ?_⟩
    rw [Authenticator.listed, hlisting] at h
    cases h
  · dsimp only
    rw [Op.require_bind]
    split
    · rename_i hnext
      refine .inl ⟨.credentials, c, rest, ?_, of_decide_eq_true hnext, rfl, rfl⟩
      rw [Authenticator.listed, hlisting]
      rfl
    · rename_i hnext
      refine .inr ⟨rfl, rfl, fun kind c' rest' h ↦ ?_⟩
      rw [Authenticator.listed, hlisting] at h
      cases h
      exact fun heq ↦ hnext (decide_eq_true heq)

theorem manage_next {subcommand : UInt8} (h : subcommand = NEXT_RP ∨ subcommand = NEXT_CREDENTIAL)
    (parameters : Option Fields) :
    (manage crates subcommand parameters : Command P (Option Reply)) =
      replied (next_listed subcommand) := by
  rcases h with rfl | rfl
  · rfl
  · rfl

/-! ## One request -/

/-- A follow-up needs no token. -/
theorem follow_management {q : Management} {body : Bytes} (hparse : Management.parse crates body = .ok q)
    (hfollows : q.follows) (s : Authenticator P) :
    credential_management crates body s =
      (Op.lift q.read >>= fun _ ↦ replied (next_listed q.subcommand) : Command P _) s := by
  rw [credential_management, hparse, Op.bind_of_eq_ok (Op.lift_apply _), hfollows,
    Op.bind_of_eq_ok (Op.onlyIf_neg (show ¬ (!true) = true from Bool.false_ne_true))]
  refine congrArg (fun f ↦ (Op.lift q.read >>= f) s) (funext (manage_next ?_))
  rw [Management.follows, Bool.or_eq_true] at hfollows
  exact hfollows.imp of_decide_eq_true of_decide_eq_true

theorem meets_management {q : Management} {body : Bytes} (hparse : Management.parse crates body = .ok q)
    (hfollows : q.follows = false) :
    Op.Meets (fun s ↦ s.platform = p) (credential_management crates body) (Begun crates p body)
      Unlisted := by
  rintro s hs
  rw [credential_management, hparse, Op.bind_of_eq_ok (Op.lift_apply _), hfollows, Bool.not_false]
  rw [Management.follows, Bool.or_eq_false_iff] at hfollows
  refine Op.Meets.bind (.onlyIf (fun _ ↦ meets_authorize_management crates q) fun h ↦ by cases h) ?_ s hs
  refine fun _ ↦ (Op.Meets.lift fun _ hs ↦ hs.1).bind fun parameters ↦ .assuming fun hread ↦ ?_
  refine meets_manage (of_decide_eq_false hfollows.1) (of_decide_eq_false hfollows.2) ?_
  rintro fields hash rfl hhash
  rw [Management.read] at hread
  rcases hparameters : q.parameters with _ | value
  · rw [hparameters] at hread
    cases hread
  · rw [hparameters] at hread
    cases value with
    | map entries =>
      cases hread
      exact ⟨q, _, _, hparse, hparameters, rfl, hhash⟩
    | _ => cases hread

variable (crates) in
/-- **One request for management** lists something new, goes on with a listing, fails and leaves the
listing alone, or leaves nothing listed. -/
theorem management_cases (body : Bytes) (s : Authenticator P) :
    (∃ r, (credential_management crates body s).result = .ok (some r) ∧
      Listed crates s.platform body r (credential_management crates body s).state) ∨
    (∃ kind c rest, s.listed = some (kind, c :: rest) ∧
      (credential_management crates body s).result = .ok (some (kind.reply c none)) ∧
      (credential_management crates body s).state.listed = some (kind, rest)) ∨
    ((∃ e, (credential_management crates body s).result = .error e) ∧
      (credential_management crates body s).state.listed = s.listed) ∨
    Unlisted (credential_management crates body s).state ∧ ∀ (kind : Kind) c n,
      (credential_management crates body s).result ≠ .ok (some (kind.reply c n)) := by
  rcases hparse : Management.parse crates body with e | q
  · rw [credential_management, hparse, Op.bind_of_eq_error (Op.lift_apply _)]
    exact .inr (.inr (.inl ⟨⟨e, rfl⟩, rfl⟩))
  cases hfollows : q.follows with
  | true =>
    rw [follow_management hparse hfollows]
    rcases hread : q.read with e | parameters
    · rw [Op.bind_of_eq_error (Op.lift_apply _)]
      exact .inr (.inr (.inl ⟨⟨e, rfl⟩, rfl⟩))
    · rw [Op.bind_of_eq_ok (Op.lift_apply _), replied_eq]
      rcases next_listed_cases q.subcommand s with
        ⟨kind, c, rest, hlisted, -, hresult, hstate⟩ | ⟨hresult, hstate, -⟩
      · exact .inr (.inl ⟨kind, c, rest, hlisted, by rw [hresult]; rfl, hstate⟩)
      · exact .inr (.inr (.inl ⟨⟨.notAllowed, by rw [hresult]; rfl⟩, by rw [hstate]⟩))
  | false =>
    obtain ⟨hok, herror⟩ := meets_management hparse hfollows s rfl
    rcases hresult : (credential_management crates body s).result with e | reply
    · exact .inr (.inr (.inr ⟨herror e hresult, fun _ _ _ h ↦ by cases h⟩))
    · rcases hok reply hresult with ⟨r, rfl, hlisted⟩ | ⟨hunlisted, hnot⟩
      · exact .inl ⟨r, rfl, hlisted⟩
      · exact .inr (.inr (.inr ⟨hunlisted, fun kind c n h ↦ hnot kind c n (Except.ok.inj h)⟩))

variable (crates) in
/-- **One request**, whatever it is. -/
theorem served_cases (e : Event P) (s : Authenticator P) :
    (∃ kind items, Lists crates (e, s) kind items ∧ (e.step crates s).listed = some (kind, items)) ∨
    (∃ kind c rest, s.listed = some (kind, c :: rest) ∧ Replies crates (e, s) (kind.reply c none) ∧
      (e.step crates s).listed = some (kind, rest)) ∨
    ((∃ status, (served crates (e, s)).result = .error status) ∧
      (e.step crates s).listed = s.listed) ∨
    (e.step crates s).listed = none ∧
      ∀ (kind : Kind) c n, ¬ Replies crates (e, s) (kind.reply c n) := by
  obtain ⟨p, request⟩ := e
  cases request with
  | nil => exact .inr (.inr (.inl ⟨⟨.invalidLength, rfl⟩, rfl⟩))
  | cons command body =>
    have hserved : served crates (⟨p, command :: body⟩, s) =
        run crates command body (({ s with platform := p } : Authenticator P).forget command) :=
      perform_cons crates command body _
    by_cases hcommand : command = CREDENTIAL_MANAGEMENT
    · subst hcommand
      have hlisted : (({ s with platform := p } : Authenticator P).forget
          CREDENTIAL_MANAGEMENT).listed = s.listed := rfl
      rw [← hlisted]
      have hrun : served crates (⟨p, CREDENTIAL_MANAGEMENT :: body⟩, s) =
        credential_management crates body
          (({ s with platform := p } : Authenticator P).forget CREDENTIAL_MANAGEMENT) := hserved
      rcases management_cases crates body
          (({ s with platform := p } : Authenticator P).forget CREDENTIAL_MANAGEMENT) with
        ⟨r, hresult, kind, first, rest, credentials, rfl, hrest, hcredentials, hmatching⟩ |
        ⟨kind, c, rest, hleft, hresult, hrest⟩ | ⟨⟨status, hresult⟩, hsame⟩ | ⟨hunlisted, hnot⟩
      · refine .inl ⟨kind, rest, ⟨first, body, credentials, rfl, ⟨rfl, ?_⟩, hcredentials, hmatching⟩, ?_⟩
        · rw [hrun, hresult]
        · rw [Event.step, hrun, hrest]
      · refine .inr (.inl ⟨kind, c, rest, hleft, ⟨rfl, ?_⟩, ?_⟩)
        · rw [hrun, hresult]
        · rw [Event.step, hrun, hrest]
      · refine .inr (.inr (.inl ⟨⟨status, ?_⟩, ?_⟩))
        · rw [hrun, hresult]
        · rw [Event.step, hrun, hsame]
      · refine .inr (.inr (.inr ⟨?_, fun kind c n h ↦ hnot kind c n ?_⟩))
        · rw [Event.step, hrun, hunlisted.listed_eq]
        · rw [← hrun]
          exact h.2
    · have hunlisted := (leaves_run_of_ne_management crates inert_unlisted (fun _ _ hs ↦ hs) hcommand
        body (({ s with platform := p } : Authenticator P).forget command) (if_neg hcommand)).1
      refine .inr (.inr (.inr ⟨?_, fun kind c n h ↦ hcommand ?_⟩))
      · rw [Event.step, hserved, hunlisted.listed_eq]
      · exact Option.some_inj.1 h.1

/-! ## A listing -/

theorem Replies.reply_eq {x : Event P × Authenticator P} {r r' : Reply} (h : Replies crates x r)
    (h' : Replies crates x r') : r = r' :=
  Option.some_inj.1 (Except.ok.inj (h.2.symm.trans h'.2))

variable (crates) in
theorem step_listings (e : Event P) (s : Authenticator P) :
    Dealing.Step (listings crates) (e, s) s.listed (e.step crates s).listed := by
  rcases served_cases crates e s with ⟨kind, items, hlists, hafter⟩ |
    ⟨kind, c, rest, hleft, hreply, hafter⟩ | ⟨herror, hafter⟩ | ⟨hafter, -⟩
  · rw [hafter]
    exact .begun _ hlists
  · rw [hleft, hafter]
    exact .dealt hreply
  · rw [hafter]
    exact .kept _ herror
  · rw [hafter]
    exact .dropped _

variable {e : Event P} {s : Authenticator P} {kind : Kind} {c : Credential}

/-- A further entry was left. -/
theorem listed_of_next (h : Replies crates (e, s) (kind.reply c none)) :
    ∃ rest, s.listed = some (kind, c :: rest) := by
  rcases served_cases crates e s with
    ⟨kind', items, ⟨first, body, credentials, -, hreply, -⟩, -⟩ | ⟨kind', c', rest, hleft, hreply, -⟩ |
    ⟨⟨status, herror⟩, -⟩ | ⟨-, hnot⟩
  · exact absurd (Kind.reply_inj (h.reply_eq hreply)).2.2 nofun
  · obtain ⟨rfl, rfl, -⟩ := Kind.reply_inj (h.reply_eq hreply)
    exact ⟨rest, hleft⟩
  · exact absurd (herror.symm.trans h.2) nofun
  · exact absurd h (hnot kind c none)

/-- **The first entry** leaves the others, as many as it says. -/
theorem listed_of_first {total : ℕ} (h : Replies crates (e, s) (kind.reply c (some total))) :
    ∃ items body credentials, e.request = CREDENTIAL_MANAGEMENT :: body ∧
      (Platform.all_credentials e.before).1 = .ok credentials ∧
      Matching crates body credentials (c :: items) kind ∧ total = items.length + 1 ∧
      (e.step crates s).listed = some (kind, items) := by
  rcases served_cases crates e s with
    ⟨kind', items, ⟨first, body, credentials, hbody, hreply, hcredentials, hmatching⟩, hafter⟩ |
    ⟨kind', c', rest, -, hreply, -⟩ | ⟨⟨status, herror⟩, -⟩ | ⟨-, hnot⟩
  · obtain ⟨rfl, rfl, htotal⟩ := Kind.reply_inj (h.reply_eq hreply)
    exact ⟨items, body, credentials, hbody, hcredentials, hmatching, Option.some_inj.1 htotal, hafter⟩
  · exact absurd (Kind.reply_inj (h.reply_eq hreply)).2.2 nofun
  · exact absurd (herror.symm.trans h.2) nofun
  · exact absurd h (hnot kind c (some total))

variable (crates) in
/-- A request for the next entry of a listing. -/
def AsksNext (kind : Kind) (e : Event P) : Prop :=
  ∃ body q parameters, e.request = CREDENTIAL_MANAGEMENT :: body ∧
    Management.parse crates body = .ok q ∧ q.subcommand = kind.next ∧ q.read = .ok parameters

variable (crates) in
/-- **Asking for the next entry** gets it, until none is left. -/
theorem served_next (h : AsksNext crates kind e) {items : List Credential}
    (hs : s.listed = some (kind, items)) :
    (served crates (e, s)).result = items.head?.elim (.error .notAllowed)
        (fun c ↦ .ok (some (kind.reply c none))) ∧
      (e.step crates s).listed = some (kind, items.tail) := by
  obtain ⟨p, request⟩ := e
  obtain ⟨body, q, parameters, rfl, hparse, hsubcommand, hread⟩ := h
  have hfollows : q.follows := by
    rw [Management.follows, hsubcommand]
    cases kind <;> rfl
  have hserved : served crates (⟨p, CREDENTIAL_MANAGEMENT :: body⟩, s) =
      replied (next_listed q.subcommand)
        (({ s with platform := p } : Authenticator P).forget CREDENTIAL_MANAGEMENT) := by
    refine (perform_cons crates CREDENTIAL_MANAGEMENT body _).trans ?_
    refine (follow_management hparse hfollows _).trans ?_
    rw [hread, Op.bind_of_eq_ok (Op.lift_apply _)]
  have hlisted : (({ s with platform := p } : Authenticator P).forget
      CREDENTIAL_MANAGEMENT).listed = some (kind, items) := hs
  rw [Event.step, hserved, replied_eq]
  rcases next_listed_cases q.subcommand
      (({ s with platform := p } : Authenticator P).forget CREDENTIAL_MANAGEMENT) with
    ⟨kind', c, rest, hleft, hnext, hresult, hstate⟩ | ⟨hresult, hstate, hnot⟩
  · rw [hlisted] at hleft
    cases hleft
    dsimp only
    rw [hresult, hstate]
    exact ⟨rfl, rfl⟩
  · cases items with
    | nil =>
      dsimp only
      rw [hresult, hstate]
      exact ⟨rfl, hlisted⟩
    | cons c rest => exact absurd hsubcommand (hnot kind c rest hlisted)

/-- **Asking again and again** gets what is left, in order, and then nothing. -/
theorem served_all_next {items : List Credential} (next : List (Event P))
    (h : ∀ e ∈ next, AsksNext crates kind e) (hs : s.listed = some (kind, items)) :
    ((Runs.trace (Event.step crates) next s).map fun x ↦ (served crates x).result) =
      ((items.take next.length).map fun c ↦ .ok (some (kind.reply c none))) ++
        List.replicate (next.length - items.length) (.error .notAllowed) := by
  induction next generalizing s items with
  | nil => simp
  | cons e next ih =>
    obtain ⟨hresult, hafter⟩ := served_next crates (h e List.mem_cons_self) hs
    have hrest := ih (fun e he ↦ h e (List.mem_cons_of_mem _ he)) hafter
    rw [Runs.trace_cons, List.map_cons, hresult, hrest]
    cases items with
    | nil => simp [List.replicate_succ]
    | cons c items => simp

/-! ## Any run -/

variable (crates) in
/-- Where the next entry `c` of a listing comes from: a request that got the first of `total` entries,
and since then nothing but requests that got the entries after it, or failed.  Together with what is
left they are what matches. -/
structure Continued (x : Event P × Authenticator P) (mid : List (Event P × Authenticator P))
    (kind : Kind) (first : Credential) (given : List Credential) (c : Credential)
    (left : List Credential) (total : ℕ) : Prop where
  announced : Replies crates x (kind.reply first (some total))
  between : Dealing.Dealt (listings crates) kind mid given
  complete : ∃ body credentials, x.1.request = CREDENTIAL_MANAGEMENT :: body ∧
    (Platform.all_credentials x.1.before).1 = .ok credentials ∧
    Matching crates body credentials (first :: (given ++ c :: left)) kind
  count : (first :: (given ++ c :: left)).length = total

theorem continued_of_trace {es : List (Event P)} {p : P} {key : Bytes}
    {before rest : List (Event P × Authenticator P)} {y : Event P × Authenticator P}
    (htrace : Runs.trace (Event.step crates) es (.new p key) = before ++ y :: rest)
    (h : Replies crates y (kind.reply c none)) :
    ∃ earlier x mid first given left total, before = earlier ++ x :: mid ∧
      Continued crates x mid kind first given c left total := by
  obtain ⟨left, hleft⟩ := listed_of_next h
  have hbefore := Dealing.series_before (step_listings crates) rfl htrace
  obtain ⟨earlier, x, mid, items, given, rfl, hlists, hmid, rfl⟩ := hbefore kind _ hleft
  obtain ⟨first, body, credentials, hbody, hreply, hcredentials, hmatching⟩ := hlists
  exact ⟨earlier, x, mid, first, given, left, _, rfl,
    ⟨hreply, hmid, ⟨body, credentials, hbody, hcredentials, hmatching⟩, rfl⟩⟩

/-- **Follow-ups**, in any run of requests: a next assertion follows an assertion that announced it; the
next entry of a listing follows its first one; and after a first entry that says how many there are,
each request for the next one gets another of them, until all have been listed. -/
theorem follow_ups (crates : Crates) (es : List (Event P)) (p : P) (key : Bytes)
    (before rest : List (Event P × Authenticator P)) (y : Event P × Authenticator P)
    (htrace : Runs.trace (Event.step crates) es (.new p key) = before ++ y :: rest) :
    (∀ b, Asserts crates y GET_NEXT_ASSERTION b →
      ∃ earlier x mid a given total, before = earlier ++ x :: mid ∧
        Following crates x mid y a b given total) ∧
    (∀ (kind : Kind) c, Replies crates y (kind.reply c none) →
      ∃ earlier x mid first given left total, before = earlier ++ x :: mid ∧
        Continued crates x mid kind first given c left total) ∧
    ∀ (kind : Kind) first total, Replies crates y (kind.reply first (some total)) →
      ∃ items body credentials, y.1.request = CREDENTIAL_MANAGEMENT :: body ∧
        (Platform.all_credentials y.1.before).1 = .ok credentials ∧
        Matching crates body credentials (first :: items) kind ∧ total = items.length + 1 ∧
        ∀ next : List (Event P), (∀ e ∈ next, AsksNext crates kind e) →
          (Runs.trace (Event.step crates) next (y.1.step crates y.2)).map
              (fun x ↦ (served crates x).result) =
            ((items.take next.length).map fun c ↦ .ok (some (kind.reply c none))) ++
              List.replicate (next.length - items.length) (.error .notAllowed) := by
  refine ⟨fun b h ↦ following_of_trace htrace h, fun kind c h ↦ continued_of_trace htrace h, ?_⟩
  intro kind first total h
  obtain ⟨items, body, credentials, hbody, hcredentials, hmatching, htotal, hafter⟩ :=
    listed_of_first h
  exact ⟨items, body, credentials, hbody, hcredentials, hmatching, htotal,
    fun next hnext ↦ served_all_next next hnext hafter⟩

/-! ## Two passkeys of one site -/

namespace Two

/-- Someone who confirms, and a store of two passkeys; the state is the time. -/
def stored (id : UInt8) : Credential :=
  { id := [id], rp := { id := "a", name := none }
    user := { id := [id], name := none, display_name := none }
    public_key := { x := ⟨List.replicate 32 0, rfl⟩, y := ⟨List.replicate 32 0, rfl⟩ }
    discoverable := true, protection := .uvOptional }

instance desk : Platform ℕ where
  ask _ n := (.ok .confirmed, n)
  credentials _ n := (.ok [stored 1, stored 2], n)
  all_credentials n := (.ok [stored 1, stored 2], n)
  create _ n := (.error .operationDenied, n)
  next_count _ n := (.ok 1, n)
  sign _ _ n := (.ok [], n)
  hmac_secret _ _ _ n := (.ok [], n)
  delete _ n := (.ok (), n)
  update_user _ _ n := (.ok (), n)
  now n := n
  random _ n := ([], n)

/-- The body of one request is read. -/
def reading : Crates where
  decode body := if body = [0xa2, 0x01, 0x61, 0x61, 0x02, 0x40] then
      some (.map [(.integer 1, .text "a"), (.integer 2, .bytes [])]) else none
  encode _ := []
  rp_id_hash _ := []
  hmac _ _ := []
  public_key _ := (stored 1).public_key
  shared_keys _ _ _ := none
  aes_encrypt _ _ plaintext := plaintext
  aes_decrypt _ _ ciphertext := some ciphertext

def asking : Event ℕ := ⟨0, [GET_ASSERTION, 0xa2, 0x01, 0x61, 0x61, 0x02, 0x40]⟩

def going_on : Event ℕ := ⟨20000000000, [GET_NEXT_ASSERTION]⟩

/-- The second passkey, 20 seconds later. -/
def second : Assertion :=
  { credential := stored 2, rp_id := "a", client_data_hash := [], flags := USER_PRESENT
    hmac_secret := none, discoverable := true, total := none, selected := false }

end Two

open Two in
/-- The second passkey is asserted, after the first one. -/
theorem follow_ups_two : ∃ earlier x mid a given total,
    [(asking, Authenticator.new 0 [])] = earlier ++ x :: mid ∧
      Following reading x mid (going_on, asking.step reading (.new 0 [])) a second given total :=
  (follow_ups reading [asking, going_on] 0 [] [(asking, .new 0 [])] []
    (going_on, asking.step reading (.new 0 [])) rfl).1 second ⟨rfl, _, _, rfl⟩

end Passkeys.Ctap
