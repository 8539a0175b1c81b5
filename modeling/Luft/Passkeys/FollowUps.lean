import Luft.Lib.Dealing
import Luft.Passkeys.Inert

/-!
# Follow-ups

Several passkeys of one relying party are asserted one request at a time, and listings are read the
same way.  What is left to assert or to list is kept between the requests, and every other command
forgets it.

An event is a request and the platform as it is when the request arrives, so that time may pass and
the store may change between two requests.
-/

set_option autoImplicit false

namespace Passkeys.Ctap

/-- A request, and the platform as it is by then. -/
structure Event (P : Type) where
  before : P
  request : Bytes

variable {P : Type} [Platform P] (crates : Crates)

/-- How a request is served. -/
def served (x : Event P × Authenticator P) :
    Outcome (Authenticator P) Status Done (Option Reply) :=
  perform crates x.1.request { x.2 with platform := x.1.before }

def Event.step (e : Event P) (s : Authenticator P) : Authenticator P := (served crates (e, s)).state

/-! ## Assertions -/

/-- What the assertions of one series have in common. -/
structure Label where
  rp_id : String
  client_data_hash : Bytes
  flags : UInt8
  hmac_secret : Option HmacSecret.Request
  started : ℕ
deriving DecidableEq, Repr

def PendingAssertions.label (pending : PendingAssertions) : Label :=
  { rp_id := pending.rp_id, client_data_hash := pending.client_data_hash, flags := pending.flags,
    hmac_secret := pending.hmac_secret, started := pending.started }

def Assertion.label (a : Assertion) (started : ℕ) : Label :=
  { rp_id := a.rp_id, client_data_hash := a.client_data_hash, flags := a.flags,
    hmac_secret := a.hmac_secret, started }

/-- A request is served with an assertion. -/
def Asserts (x : Event P × Authenticator P) (command : UInt8) (a : Assertion) : Prop :=
  x.1.request.head? = some command ∧
    ∃ auth_data signature, (served crates x).result = .ok (some (.assertion a auth_data signature))

/-- A `getAssertion` announces assertions: it asserts the first of some credentials that the platform
listed and says how many there are. -/
def Announces (x : Event P × Authenticator P) (label : Label) (items : List Credential) : Prop :=
  ∃ a credentials, Asserts crates x GET_ASSERTION a ∧ a.total = some (items.length + 1) ∧
    label = a.label (Platform.now (served crates x).state.platform) ∧
    (Platform.credentials a.rp_id x.1.before).1 = .ok credentials ∧
    (a.credential :: items).Sublist credentials

/-- A `getNextAssertion` asserts a credential the way its series does, in time. -/
def Continues (x : Event P × Authenticator P) (label : Label) (credential : Credential) : Prop :=
  ∃ a, Asserts crates x GET_NEXT_ASSERTION a ∧ a.credential = credential ∧
    a.label label.started = label ∧
    Platform.now x.1.before - label.started ≤ NEXT_ASSERTION_WINDOW

def assertions : Dealing.Dealer (Event P × Authenticator P) Label Credential where
  begins := Announces crates
  deals := Continues crates
  idle x := x.1.request = []

/-- The credentials that are left to assert. -/
def Authenticator.left (s : Authenticator P) : Option (Label × List Credential) :=
  s.pending.map fun pending ↦ (pending.label, pending.remaining)

variable {crates} {I : Authenticator P → Prop} {p : P}

variable (crates) in
theorem meets_assert (hI : Steady I) (a : Assertion) :
    Op.Meets I (assert crates a) (fun reply s ↦
      (∃ auth_data signature, reply = .assertion a auth_data signature) ∧ I s) I := by
  refine (leaves_extend hI a).meets.bind fun _ ↦ (leaves_call (hI.next_count _)).meets.bind fun _ ↦ ?_
  exact (leaves_call (hI.sign _ _)).meets.bind fun _ ↦ .pure fun _ hs ↦ ⟨⟨_, _, rfl⟩, hs⟩

/-- Nothing is left to assert. -/
def Quiet (s : Authenticator P) : Prop := s.pending = none

theorem inert_quiet : Inert (Quiet (P := P)) := .of fun _ _ _ hs ↦ hs

/-- The token is all that authorizing changes. -/
theorem meets_authorize {A F : Authenticator P → Prop} (hF : ∀ s, A s → F s)
    (hA : ∀ s token, A s → A { s with token }) {protocol : Protocol} {message param : Bytes}
    {permission : UInt8} {rp_id : Option String} :
    Op.Meets A (authorize crates protocol message param permission rp_id) (fun _ ↦ A) F := by
  intro s hs
  rw [authorize.eq_def]
  split
  · refine ⟨?_, fun _ _ ↦ hF s hs⟩
    rintro _ ⟨⟩
  · split
    · refine ⟨?_, fun _ _ ↦ hF s hs⟩
      rintro _ ⟨⟩
    · refine ⟨fun _ _ ↦ hA s _ hs, ?_⟩
      rintro _ ⟨⟩

/-- A token is looked at before the platform is. -/
theorem meets_authorize_with_token (param protocol : Option Value) (client_data_hash : Bytes)
    (permission : UInt8) (rp_id : String) :
    Op.Meets (fun s ↦ Quiet s ∧ s.platform = p)
      (authorize_with_token crates param protocol client_data_hash permission rp_id)
      (fun _ s ↦ Quiet s ∧ s.platform = p) Quiet := by
  cases param with
  | none => exact .pure fun _ hs ↦ hs
  | some param =>
    refine (Op.Meets.lift fun _ hs ↦ hs.1).bind fun bytes ↦ .assuming fun _ ↦ ?_
    split
    · refine Op.Meets.bind ?_ fun _ ↦ .fail fun s (hs : Quiet s) ↦ hs
      exact (leaves_choose inert_quiet.toSteady).meets.mono (fun _ hs ↦ hs.1) (fun _ _ hs ↦ hs) fun _ hs ↦ hs
    · refine (Op.Meets.lift fun _ hs ↦ hs.1).bind fun number ↦ .assuming fun _ ↦ ?_
      refine (Op.Meets.lift fun _ hs ↦ hs.1).bind fun protocol ↦ .assuming fun _ ↦ ?_
      exact (meets_authorize (fun _ hs ↦ hs.1) fun _ _ hs ↦ hs).bind fun _ ↦ .pure fun _ hs ↦ hs

/-- What a reply announces is left to assert. -/
def Announced (p : P) (reply : Reply) (s : Authenticator P) : Prop :=
  ∃ a auth_data signature pending credentials, reply = .assertion a auth_data signature ∧
    s.pending = some pending ∧ a.total = some (pending.remaining.length + 1) ∧
    pending.label = a.label (Platform.now s.platform) ∧
    (Platform.credentials a.rp_id p).1 = .ok credentials ∧
    (a.credential :: pending.remaining).Sublist credentials

theorem meets_assert_first {q : GetAssertion} {flags : UInt8} {first : Credential}
    {remaining credentials : List Credential} (h : (Platform.credentials q.rp_id p).1 = .ok credentials)
    (hsub : (first :: remaining).Sublist credentials) :
    Op.Meets Quiet (assert_first crates q flags first remaining)
      (fun reply s ↦ Quiet s ∨ Announced p reply s) Quiet := by
  refine (meets_assert crates inert_quiet.toSteady _).bind fun reply ↦ .assuming ?_
  rintro ⟨auth_data, signature, rfl⟩
  cases hmore : !q.listed && !remaining.isEmpty with
  | false => exact Op.Meets.bind (.onlyIf nofun fun _ _ hs ↦ hs) fun _ ↦ .pure fun _ hs ↦ .inl hs
  | true =>
    refine Op.Meets.bind (B := fun _ s ↦ Announced p _ s)
      (.onlyIf (fun _ ↦ .change fun s _ ↦ ?_) nofun) fun _ ↦ .pure fun _ hs ↦ .inr hs
    exact ⟨_, _, _, _, _, rfl, rfl, rfl, rfl, h, hsub⟩

variable (crates) in
/-- **An assertion** leaves nothing, or what it announces. -/
theorem meets_get_assertion (body : Bytes) :
    Op.Meets (fun s ↦ Quiet s ∧ s.platform = p) (get_assertion crates body)
      (fun reply s ↦ Quiet s ∨ Announced p reply s) Quiet := by
  refine (Op.Meets.lift fun _ hs ↦ hs.1).bind fun q ↦ .assuming fun _ ↦ ?_
  refine (meets_authorize_with_token _ _ _ _ _).bind fun by_token ↦ ?_
  refine (Op.Meets.require fun _ hs ↦ hs.1).bind fun _ ↦ .assuming fun _ ↦ ?_
  have hcall : Op.Meets (fun s ↦ Quiet s ∧ s.platform = p) (call (Platform.credentials q.rp_id))
      (fun credentials s ↦ (Platform.credentials q.rp_id p).1 = .ok credentials ∧ Quiet s) Quiet := by
    rintro s ⟨hs, rfl⟩
    exact ⟨fun _ hcredentials ↦ ⟨hcredentials, hs⟩, fun _ _ ↦ hs⟩
  refine hcall.bind fun credentials ↦ .assuming fun hcredentials ↦ ?_
  have hsub : (credentials.filter (q.allows by_token)).Sublist credentials := List.filter_sublist
  split
  · exact .fail fun _ hs ↦ hs
  · rename_i first remaining hfilter
    rw [hfilter] at hsub
    refine (leaves_approved inert_quiet.toSteady _ _ _).meets.bind fun approval ↦ ?_
    refine (leaves_spend_token inert_quiet.toSteady _).meets.bind fun _ ↦ ?_
    split
    · split
      · exact .fail fun _ hs ↦ hs
      · exact (meets_assert crates inert_quiet.toSteady _).mono (fun _ hs ↦ hs) (fun _ _ hs ↦ .inl hs.2) fun _ hs ↦ hs
    · exact meets_assert_first hcredentials hsub

variable (crates) in
/-- **The next assertion** is the first that is left, in time, and leaves the others; whatever else
happens, nothing is left. -/
theorem get_next_assertion_cases (s : Authenticator P) :
    (∃ e, (get_next_assertion crates s).result = .error e) ∧ Quiet (get_next_assertion crates s).state ∨
      ∃ pending credential remaining auth_data signature, s.pending = some pending ∧
        pending.remaining = credential :: remaining ∧
        Platform.now s.platform - pending.started ≤ NEXT_ASSERTION_WINDOW ∧
        (get_next_assertion crates s).result =
          .ok (.assertion (pending.assertion credential) auth_data signature) ∧
        (get_next_assertion crates s).state.pending = some { pending with remaining } := by
  rw [get_next_assertion, Op.bind_of_eq_ok Op.state_apply, Op.bind_of_eq_ok (Op.change_apply _)]
  rcases hpending : s.pending with _ | pending
  · exact .inl ⟨⟨_, rfl⟩, rfl⟩
  dsimp only
  rw [Op.require_bind]
  split
  · rename_i hwindow
    rcases hremaining : pending.remaining with _ | ⟨credential, remaining⟩
    · exact .inl ⟨⟨_, rfl⟩, rfl⟩
    · have hassert := meets_assert crates inert_quiet.toSteady (pending.assertion credential)
        { s with pending := none } rfl
      rcases hresult : (assert crates (pending.assertion credential) { s with pending := none }).result
        with e | reply
      · dsimp only
        rw [Op.bind_of_error hresult]
        exact .inl ⟨⟨e, rfl⟩, hassert.2 e hresult⟩
      · obtain ⟨⟨auth_data, signature, rfl⟩, -⟩ := hassert.1 reply hresult
        dsimp only
        rw [Op.bind_of_ok hresult]
        exact .inr ⟨pending, credential, remaining, auth_data, signature, rfl, hremaining,
          of_decide_eq_true hwindow, rfl, rfl⟩
  · exact .inl ⟨⟨_, rfl⟩, rfl⟩

omit [Platform P] in
theorem replied_eq (x : Command P Reply) (s : Authenticator P) :
    replied x s = ⟨(x s).result.map some, (x s).state, (x s).log⟩ := by
  rcases hresult : (x s).result with e | reply
  · exact Op.bind_of_error hresult
  · rw [replied, Op.bind_of_ok hresult, Op.pure_apply, List.append_nil]
    rfl

variable (crates) in
theorem perform_cons (command : UInt8) (body : Bytes) (s : Authenticator P) :
    perform crates (command :: body) s = run crates command body (s.forget command) :=
  Op.bind_of_eq_ok (Op.change_apply _)

omit [Platform P] in
theorem Quiet.left_eq {s : Authenticator P} (h : Quiet s) : s.left = none := by
  rw [Authenticator.left, h, Option.map_none]

variable (crates) in
/-- **One request** begins a series, goes on with it, or drops it; only a message without a command
leaves it as it is. -/
theorem step_assertions (e : Event P) (s : Authenticator P) :
    Dealing.Step (assertions crates) (e, s) s.left (e.step crates s).left := by
  obtain ⟨p, request⟩ := e
  cases request with
  | nil => exact .kept _ rfl
  | cons command body =>
    have hserved (t : Authenticator P) : served crates (⟨p, command :: body⟩, t) =
        run crates command body (({ t with platform := p } : Authenticator P).forget command) :=
      perform_cons crates command body _
    by_cases hnext : command = GET_NEXT_ASSERTION
    · subst hnext
      have hstep := (hserved s).trans (replied_eq (get_next_assertion crates) _)
      rcases get_next_assertion_cases crates
          (({ s with platform := p } : Authenticator P).forget GET_NEXT_ASSERTION) with
        ⟨-, hquiet⟩ | ⟨pending, credential, remaining, auth_data, signature, hpending, hremaining,
          hwindow, hresult, hstate⟩
      · rw [Event.step, hstep, hquiet.left_eq]
        exact .dropped _
      · have hleft : s.left = some (pending.label, credential :: remaining) := by
          rw [← hremaining]
          exact congrArg (Option.map _) hpending
        have hafter : (Event.step crates ⟨p, GET_NEXT_ASSERTION :: body⟩ s).left =
            some (pending.label, remaining) := by
          rw [Event.step, hstep, Authenticator.left, hstate]
          rfl
        rw [hleft, hafter]
        refine .dealt ⟨pending.assertion credential, ⟨rfl, auth_data, signature, ?_⟩, rfl, rfl, hwindow⟩
        rw [hstep, hresult]
        rfl
    by_cases hfirst : command = GET_ASSERTION
    · subst hfirst
      have hstep := (hserved s).trans (replied_eq (get_assertion crates body) _)
      obtain ⟨hok, herror⟩ := meets_get_assertion crates body
        (({ s with platform := p } : Authenticator P).forget GET_ASSERTION) ⟨rfl, rfl⟩
      rcases hresult : (get_assertion crates body
          (({ s with platform := p } : Authenticator P).forget GET_ASSERTION)).result with e | reply
      · rw [Event.step, hstep, (show Quiet _ from herror e hresult).left_eq]
        exact .dropped _
      · rcases hok reply hresult with hquiet | ⟨a, auth_data, signature, pending, credentials, rfl,
          hpending, htotal, hlabel, hcredentials, hsub⟩
        · rw [Event.step, hstep, (show Quiet _ from hquiet).left_eq]
          exact .dropped _
        · have hafter : (Event.step crates ⟨p, GET_ASSERTION :: body⟩ s).left =
              some (pending.label, pending.remaining) := by
            rw [Event.step, hstep, Authenticator.left, hpending]
            rfl
          rw [hafter]
          refine .begun _ ⟨a, credentials, ⟨rfl, auth_data, signature, ?_⟩, htotal, ?_,
            hcredentials, hsub⟩
          · rw [hstep, hresult]
            rfl
          · rw [hstep]
            exact hlabel
    · have hquiet := (leaves_run_of_ne_assertion crates inert_quiet (fun _ _ hs ↦ hs)
        hfirst hnext body (({ s with platform := p } : Authenticator P).forget command)
        (if_neg hnext)).1
      rw [Event.step, hserved, hquiet.left_eq]
      exact .dropped _

theorem Continues.request_ne_nil {x : Event P × Authenticator P} {label : Label} {c : Credential}
    (h : Continues crates x label c) : x.1.request ≠ [] := by
  obtain ⟨a, ⟨hhead, -⟩, -⟩ := h
  rintro hnil
  rw [hnil] at hhead
  cases hhead

/-- Every entry of a series but the empty messages asserts one credential. -/
theorem length_of_dealt {label : Label} {mid : List (Event P × Authenticator P)}
    {given : List Credential} (h : Dealing.Dealt (assertions crates) label mid given) :
    (mid.filter fun x ↦ x.1.request ≠ []).length = given.length := by
  induction h with
  | nil => rfl
  | deal _ he ih => simp [← ih, Continues.request_ne_nil he]
  | idle _ he ih => simp [← ih, show _ = [] from he]

variable (crates) in
/-- Where a next assertion comes from: a `getAssertion` that announced `total` assertions, and since
then nothing but other next assertions (and messages without a command). -/
structure Following (x : Event P × Authenticator P) (mid : List (Event P × Authenticator P))
    (y : Event P × Authenticator P) (a b : Assertion) (given : List Credential) (total : ℕ) : Prop where
  announced : Asserts crates x GET_ASSERTION a ∧ a.total = some total
  between : Dealing.Dealt (assertions crates)
    (a.label (Platform.now (served crates x).state.platform)) mid given
  same : b.rp_id = a.rp_id ∧ b.client_data_hash = a.client_data_hash ∧ b.flags = a.flags
  inTime : Platform.now y.1.before - Platform.now (served crates x).state.platform ≤
    NEXT_ASSERTION_WINDOW
  /-- What was asserted are different entries of what the platform listed. -/
  once : ∃ credentials, (Platform.credentials a.rp_id x.1.before).1 = .ok credentials ∧
    (a.credential :: given ++ [b.credential]).Sublist credentials
  count : (mid.filter fun z ↦ z.1.request ≠ []).length + 1 + 1 ≤ total

theorem Asserts.assertion_eq {x : Event P × Authenticator P} {command command' : UInt8}
    {a b : Assertion} (ha : Asserts crates x command a) (hb : Asserts crates x command' b) : a = b := by
  obtain ⟨-, _, _, ha⟩ := ha
  obtain ⟨-, _, _, hb⟩ := hb
  rw [ha] at hb
  cases hb
  rfl

/-- A next assertion is one of those that were left. -/
theorem left_of_asserts {e : Event P} {s : Authenticator P} {b : Assertion}
    (h : Asserts crates (e, s) GET_NEXT_ASSERTION b) :
    ∃ label rest, s.left = some (label, b.credential :: rest) ∧
      Continues crates (e, s) label b.credential := by
  obtain ⟨p, request⟩ := e
  have hasserts := h
  obtain ⟨hhead, auth_data, signature, hresult⟩ := h
  cases request with
  | nil => cases hhead
  | cons command body =>
    cases hhead
    have hstep := (perform_cons crates GET_NEXT_ASSERTION body
      ({ s with platform := p } : Authenticator P)).trans (replied_eq (get_next_assertion crates) _)
    rw [served, hstep] at hresult
    rcases get_next_assertion_cases crates
        (({ s with platform := p } : Authenticator P).forget GET_NEXT_ASSERTION) with
      ⟨⟨e, herror⟩, -⟩ | ⟨pending, credential, remaining, _, _, hpending, hremaining, hwindow, hok, -⟩
    · rw [herror] at hresult
      cases hresult
    · rw [hok] at hresult
      cases hresult
      refine ⟨pending.label, remaining, ?_, _, hasserts, rfl, rfl, hwindow⟩
      show s.left = some (pending.label, credential :: remaining)
      rw [← hremaining]
      exact congrArg (Option.map _) hpending

/-- **A next assertion follows** an assertion that announced it. -/
theorem following_of_trace {es : List (Event P)} {p : P} {key : Bytes}
    {before rest : List (Event P × Authenticator P)} {y : Event P × Authenticator P} {b : Assertion}
    (htrace : Runs.trace (Event.step crates) es (.new p key) = before ++ y :: rest)
    (h : Asserts crates y GET_NEXT_ASSERTION b) :
    ∃ earlier x mid a given total, before = earlier ++ x :: mid ∧
      Following crates x mid y a b given total := by
  obtain ⟨label, left, hleft, c, hc, hcredential, hlabel, hwindow⟩ := left_of_asserts h
  have hbefore := Dealing.series_before (step_assertions crates) rfl htrace
  obtain ⟨earlier, x, mid, items, given, rfl, hbegins, hmid, rfl⟩ := hbefore label _ hleft
  obtain ⟨a, credentials, ha, htotal, rfl, hcredentials, hsub⟩ := hbegins
  obtain rfl := h.assertion_eq hc
  have hsame := Label.mk.inj hlabel
  refine ⟨earlier, x, mid, a, given, _, rfl, ⟨ha, htotal⟩, hmid, ⟨hsame.1, hsame.2.1, hsame.2.2.1⟩,
    hwindow, ⟨credentials, hcredentials, ?_⟩, ?_⟩
  · refine List.Sublist.trans (List.Sublist.cons_cons _ ?_) hsub
    rw [List.append_cons]
    exact List.sublist_append_left _ _
  · rw [length_of_dealt hmid, List.length_append, List.length_cons]
    omega

end Passkeys.Ctap
