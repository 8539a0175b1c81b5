import Luft.Lib.Adjacent
import Luft.Passkeys.Authenticator

/-!
# The commands

What the authenticator does for each command of CTAP2.  A request is read first, which may refuse it
before anything happens; then the token that comes with it is looked at, the person is asked, and the
platform does its part.
-/

set_option autoImplicit false

namespace Passkeys.Ctap

variable {P : Type} [Platform P] (crates : Crates)

/-! ## Calls -/

def call {α : Type} (f : P → Result α × P) : Command P α := fun s ↦
  ⟨(f s.platform).1, { s with platform := (f s.platform).2 }, []⟩

def random (n : ℕ) : Command P Bytes := fun s ↦
  ⟨.ok (Platform.random n s.platform).1,
    { s with platform := (Platform.random n s.platform).2 }, []⟩

/-- The initialisation vector of a protocol. -/
def random_iv : Protocol → Command P Bytes
  | .one => pure []
  | .two => random 16

def ask (prompt : Prompt) : Command P Consent := do
  let consent ← call (Platform.ask prompt)
  Op.emit (.asked prompt consent)
  return consent

def delete (id : Bytes) : Command P Unit := do
  call (Platform.delete id)
  Op.emit (.deleted id)

def delete_all : List Credential → Command P Unit
  | [] => pure ()
  | credential :: credentials => do
    delete credential.id
    delete_all credentials

def choose : Command P Unit := do
  let _ ← ask { purpose := .choose, rp_id := none, rp_name := none, accounts := [] }

/-- The value of a body. -/
def decode (body : Bytes) : Result Value := (crates.decode body).elim (.error .invalidCbor) .ok

/-! ## Presence and verification -/

/-- The authenticator's token, if it has one, authorizes a request. -/
def authorize (protocol : Protocol) (message param : Bytes) (permission : UInt8)
    (rp_id : Option String) : Command P Unit := fun s ↦
  match s.token with
  | none => ⟨.error .pinAuthInvalid, s, []⟩
  | some token =>
    match token.authorize crates (Platform.now s.platform) protocol message param permission rp_id with
    | .error e => ⟨.error e, s, []⟩
    | .ok token => ⟨.ok (), { s with token := some token }, []⟩

def authorize_with_token (param protocol : Option Value) (client_data_hash : Bytes)
    (permission : UInt8) (rp_id : String) : Command P Bool :=
  match param with
  | none => return false
  | some param => do
    let param ← Op.lift (Cbor.bytes param)
    if param.isEmpty then
      choose
      Op.fail .pinNotSet
    else
      let number ← Op.lift (protocol.elim (.error .missingParameter) Cbor.integer)
      let protocol ← Op.lift (Protocol.from_number number)
      authorize crates protocol client_data_hash param permission (some rp_id)
      return true

structure Approval where
  flags : UInt8
  account : Option ℕ
deriving DecidableEq, Repr

/-- The token that authorized the request gives up its presence. -/
def take_presence : Command P Bool := fun s ↦
  ⟨.ok (s.token.any fun token ↦ token.take_presence.1),
    { s with token := s.token.map fun token ↦ token.take_presence.2 }, []⟩

/-- Whether the token speaks for the person, so that nobody is asked. -/
def speaks : Bool → Bool → Command P Bool
  | true, true => take_presence
  | by_token, _ => pure by_token

def approve (by_token presence : Bool) (prompt : Prompt) : Command P Approval := do
  let presence_flag := if presence then USER_PRESENT else 0
  if ← speaks by_token presence then
    return { flags := USER_VERIFIED ||| presence_flag, account := none }
  else
    match ← ask prompt with
    | .verified account => return { flags := USER_VERIFIED ||| presence_flag, account := some account }
    | .confirmed => return { flags := USER_PRESENT, account := none }

def spend_token (by_token : Bool) : Command P Unit :=
  Op.onlyIf by_token (Op.change fun s ↦ { s with token := s.token.map Token.spend })

/-! ## Assertions -/

structure AssertionOptions where
  presence : Bool
  verification : Bool
deriving DecidableEq, Repr

def AssertionOptions.parse : Option Value → Result AssertionOptions
  | none => return { presence := true, verification := false }
  | some value => do
    let fields ← Fields.new value
    if (fields.get (.text "rk")).isSome then throw .unsupportedOption
    let presence ← fields.optional (.text "up") Cbor.boolean
    let verification ← fields.optional (.text "uv") Cbor.boolean
    return { presence := presence.getD true, verification := verification.getD false }

structure GetAssertion where
  rp_id : String
  client_data_hash : Bytes
  allowed : List Bytes
  hmac_secret : Option HmacSecret.Request
  options : AssertionOptions
  param : Option Value
  protocol : Option Value

def GetAssertion.parse (body : Bytes) : Result GetAssertion := do
  let fields ← Fields.new (← decode crates body)
  let rp_id ← Cbor.text (← fields.required (.integer 0x01))
  let client_data_hash ← Cbor.bytes (← fields.required (.integer 0x02))
  let allowed ← fields.optional (.integer 0x03) descriptor_ids
  let hmac_secret ← HmacSecret.requested fields (.integer 0x04)
  let options ← AssertionOptions.parse (fields.get (.integer 0x05))
  return {
    rp_id, client_data_hash, allowed := allowed.getD [], hmac_secret, options
    param := fields.get (.integer 0x06)
    protocol := fields.get (.integer 0x07) }

def hmac_secret (request : HmacSecret.Request) (id : Bytes) (verified : Bool) : Command P Value := do
  let s ← Op.state
  let shared ← Op.lift (shared_secret crates s.key_agreement request.protocol request.key_agreement)
  Op.require (shared.verify crates request.salt_enc request.salt_auth) .pinAuthInvalid
  let salts ← Op.lift (shared.decrypt crates request.salt_enc)
  Op.require (salts.length = 32 || salts.length = 64) .invalidLength
  let output ← call (Platform.hmac_secret id verified salts)
  let iv ← random_iv shared.protocol
  return .bytes (shared.encrypt crates iv output)

def extend (assertion : Assertion) : Command P (Option Value) :=
  match assertion.hmac_secret with
  | none => return none
  | some request =>
    if assertion.flags &&& USER_PRESENT = 0 then return none
    else do
      let output ← hmac_secret crates request assertion.credential.id
        (assertion.flags &&& USER_VERIFIED ≠ 0)
      return some (Cbor.map [(.text HmacSecret.NAME, output)])

def assert (assertion : Assertion) : Command P Reply := do
  let extensions ← extend crates assertion
  let counter ← call (Platform.next_count assertion.credential.id)
  let auth_data := AuthData.encode crates
    { rp_id := assertion.rp_id, flags := assertion.flags, counter, attested := none, extensions }
  let signature ← call
    (Platform.sign assertion.credential.id (auth_data ++ assertion.client_data_hash))
  return .assertion assertion auth_data signature

/-- Whether someone is asked, or a token speaks for them. -/
def GetAssertion.verifying (q : GetAssertion) (by_token : Bool) : Bool :=
  by_token || q.options.presence || q.options.verification

def GetAssertion.listed (q : GetAssertion) : Bool := !q.allowed.isEmpty

/-- Whether a credential can be asserted. -/
def GetAssertion.allows (q : GetAssertion) (by_token : Bool) (credential : Credential) : Bool :=
  (if q.listed then q.allowed.contains credential.id else credential.discoverable) &&
    credential.protection.allows (q.verifying by_token) q.listed

def GetAssertion.assertion (q : GetAssertion) (flags : UInt8) (credential : Credential)
    (total : Option ℕ) (selected : Bool) : Assertion :=
  { credential, rp_id := q.rp_id, client_data_hash := q.client_data_hash, flags,
    hmac_secret := q.hmac_secret, discoverable := !q.listed, total, selected }

/-- How a request is approved; nobody is asked where neither presence nor verification is wanted. -/
def GetAssertion.approved (q : GetAssertion) (by_token : Bool) (candidates : List Credential) :
    Command P Approval :=
  if q.verifying by_token then
    approve by_token q.options.presence
      { purpose := .signIn, rp_id := some q.rp_id, rp_name := candidates.head?.bind (·.rp.name),
        accounts := candidates.map (·.user) }
  else pure { flags := 0, account := none }

/-- The first of several credentials, with the others kept for later. -/
def assert_first (q : GetAssertion) (flags : UInt8) (first : Credential)
    (remaining : List Credential) : Command P Reply := do
  let total := if !q.listed && !remaining.isEmpty then some (remaining.length + 1) else none
  let reply ← assert crates (q.assertion flags first total false)
  Op.onlyIf total.isSome (Op.change fun s ↦ { s with
    pending := some
      { rp_id := q.rp_id, client_data_hash := q.client_data_hash, flags, hmac_secret := q.hmac_secret,
        remaining, started := Platform.now s.platform } })
  return reply

def get_assertion (body : Bytes) : Command P Reply := do
  let q ← Op.lift (GetAssertion.parse crates body)
  let by_token ← authorize_with_token crates q.param q.protocol q.client_data_hash
    Token.GET_ASSERTION q.rp_id
  Op.require (q.verifying by_token || q.listed) .noCredentials
  let credentials ← call (Platform.credentials q.rp_id)
  match credentials.filter (q.allows by_token) with
  | [] => Op.fail .noCredentials
  | first :: remaining =>
    let approval ← q.approved by_token (first :: remaining)
    spend_token by_token
    match approval.account with
    | some account =>
      match (first :: remaining)[account]? with
      | none => Op.fail .other
      | some credential =>
        assert crates
          (q.assertion approval.flags credential none (!q.listed && !remaining.isEmpty))
    | none => assert_first crates q approval.flags first remaining

/-- 30 seconds. -/
def NEXT_ASSERTION_WINDOW : ℕ := 30000000000

def PendingAssertions.assertion (pending : PendingAssertions) (credential : Credential) :
    Assertion :=
  { credential, rp_id := pending.rp_id, client_data_hash := pending.client_data_hash,
    flags := pending.flags, hmac_secret := pending.hmac_secret, discoverable := true, total := none,
    selected := false }

def get_next_assertion : Command P Reply := do
  let s ← Op.state
  Op.change fun s ↦ { s with pending := none }
  match s.pending with
  | none => Op.fail .notAllowed
  | some pending =>
    Op.require (Platform.now s.platform - pending.started ≤ NEXT_ASSERTION_WINDOW) .notAllowed
    match pending.remaining with
    | [] => Op.fail .notAllowed
    | credential :: remaining =>
      let reply ← assert crates (pending.assertion credential)
      Op.change fun s ↦ { s with pending := some { pending with remaining } }
      return reply

/-! ## New credentials -/

structure MakeExtensions where
  protection : Option Protection
  hmac_secret : Bool

def MakeExtensions.parse : Option Value → Result MakeExtensions
  | none => return { protection := none, hmac_secret := false }
  | some value => do
    let fields ← Fields.new value
    let protection ← fields.optional (.text "credProtect") fun level ↦ do
      Protection.from_level (← Cbor.integer level)
    let hmac_secret ← fields.optional (.text HmacSecret.NAME) Cbor.boolean
    return { protection, hmac_secret := hmac_secret.getD false }

/-- Whether the credential is to be discoverable. -/
def make_options : Option Value → Result Bool
  | none => return false
  | some value => do
    let fields ← Fields.new value
    let presence ← fields.optional (.text "up") Cbor.boolean
    if presence = some false then throw .invalidOption
    let _ ← fields.optional (.text "uv") Cbor.boolean
    let discoverable ← fields.optional (.text "rk") Cbor.boolean
    return discoverable.getD false

def is_es256 (parameter : Value) : Result Bool := do
  let fields ← Fields.new parameter
  let algorithm ← Cbor.integer (← fields.required (.text "alg"))
  let kind ← Cbor.text (← fields.required (.text "type"))
  return algorithm = ES256 && kind = "public-key"

def supports_es256 (parameters : Value) : Result Bool := do
  let supported ← (← Cbor.array parameters).mapM is_es256
  return supported.any id

structure MakeCredential where
  client_data_hash : Bytes
  rp : RelyingParty
  user : User
  excluded : List Bytes
  extensions : MakeExtensions
  discoverable : Bool
  param : Option Value
  protocol : Option Value

def MakeCredential.parse (body : Bytes) : Result MakeCredential := do
  let fields ← Fields.new (← decode crates body)
  let client_data_hash ← Cbor.bytes (← fields.required (.integer 0x01))
  let rp ← RelyingParty.parse (← fields.required (.integer 0x02))
  let user ← User.parse (← fields.required (.integer 0x03))
  let supported ← supports_es256 (← fields.required (.integer 0x04))
  if ¬ supported then throw .unsupportedAlgorithm
  let excluded ← fields.optional (.integer 0x05) descriptor_ids
  let extensions ← MakeExtensions.parse (fields.get (.integer 0x06))
  let discoverable ← make_options (fields.get (.integer 0x07))
  if (fields.get (.integer 0x0A)).isSome then throw .invalidParameter
  return {
    client_data_hash, rp, user, excluded := excluded.getD [], extensions, discoverable
    param := fields.get (.integer 0x08)
    protocol := fields.get (.integer 0x09) }

/-- The credential a request asks for. -/
def MakeCredential.wanted (q : MakeCredential) : NewCredential :=
  { rp := q.rp, user := q.user, discoverable := q.discoverable,
    protection := q.extensions.protection.getD .uvOptional }

/-- Whether the new credential takes the place of an old one. -/
def MakeCredential.replaces (q : MakeCredential) (old : Credential) : Bool :=
  old.discoverable && old.user.id = q.user.id

def MakeCredential.reply (q : MakeCredential) (flags : UInt8) (credential : Credential) : Reply :=
  let outputs :=
    (q.extensions.protection.toList.map fun protection ↦
      (Key.text "credProtect", Value.integer protection.level)) ++
    if q.extensions.hmac_secret then [(.text HmacSecret.NAME, .boolean true)] else []
  .registered (AuthData.encode crates
    { rp_id := q.rp.id, flags, counter := 0, attested := some (credential.id, credential.public_key),
      extensions := if outputs.isEmpty then none else some (Cbor.map outputs) })

def make_credential (body : Bytes) : Command P Reply := do
  let q ← Op.lift (MakeCredential.parse crates body)
  let by_token ← authorize_with_token crates q.param q.protocol q.client_data_hash
    Token.MAKE_CREDENTIAL q.rp.id
  let existing ← call (Platform.credentials q.rp.id)
  if existing.any fun credential ↦ q.excluded.contains credential.id then
    let _ ← ask
      { purpose := .alreadyRegistered, rp_id := some q.rp.id, rp_name := q.rp.name, accounts := [] }
    Op.fail .credentialExcluded
  else
    let approval ← approve by_token true
      { purpose := .register, rp_id := some q.rp.id, rp_name := q.rp.name, accounts := [q.user] }
    let credential ← call (Platform.create q.wanted)
    Op.emit (.created credential)
    Op.onlyIf q.discoverable (delete_all (existing.filter q.replaces))
    spend_token by_token
    return q.reply crates approval.flags credential

/-! ## Tokens -/

def purpose (permissions : UInt8) : Purpose :=
  if permissions &&& Token.MAKE_CREDENTIAL ≠ 0 then .register
  else if permissions &&& Token.GET_ASSERTION ≠ 0 then .signIn
  else .manage

structure TokenRequest where
  protocol : Protocol
  peer : PublicKey
  permissions : UInt8
  rp_id : Option String

def TokenRequest.parse (fields : Fields) : Result TokenRequest := do
  let protocol ← Protocol.from_number (← Cbor.integer (← fields.required (.integer 0x01)))
  let peer ← PublicKey.from_cose (← fields.required (.integer 0x03))
  let permissions ← Cbor.small .unauthorizedPermission (← fields.required (.integer 0x09))
  let rp_id ← fields.optional (.integer 0x0A) Cbor.text
  if permissions = 0 then throw .invalidParameter
  if permissions &&& ~~~ Token.SUPPORTED ≠ 0 then throw .unauthorizedPermission
  if permissions &&& (Token.MAKE_CREDENTIAL ||| Token.GET_ASSERTION) ≠ 0 ∧ rp_id.isNone then
    throw .missingParameter
  return { protocol, peer, permissions, rp_id }

def token_using_uv (fields : Fields) : Command P Reply := do
  let q ← Op.lift (TokenRequest.parse fields)
  let s ← Op.state
  let shared ← Op.lift (shared_secret crates s.key_agreement q.protocol q.peer)
  Op.change fun s ↦ { s with token := none }
  let prompt := { purpose := purpose q.permissions, rp_id := q.rp_id, rp_name := none, accounts := [] }
  match ← ask prompt with
  | .confirmed => Op.fail .operationDenied
  | .verified _ =>
    let key ← random 32
    let s ← Op.state
    let iv ← random_iv q.protocol
    Op.change fun t ↦ { t with
      token := some (.issue key (Platform.now s.platform) q.protocol q.permissions q.rp_id) }
    return .token (shared.encrypt crates iv key)

def GET_KEY_AGREEMENT : ℤ := 0x02
def GET_TOKEN_USING_UV : ℤ := 0x06
def GET_UV_RETRIES : ℤ := 0x07

def client_pin (body : Bytes) : Command P Reply := do
  let value ← Op.lift (decode crates body)
  let fields ← Op.lift (Fields.new value)
  let subcommand ← Op.lift (fields.required (.integer 0x02))
  let subcommand ← Op.lift (Cbor.integer subcommand)
  if subcommand = GET_KEY_AGREEMENT then
    let number ← Op.lift (fields.required (.integer 0x01))
    let number ← Op.lift (Cbor.integer number)
    let _ ← Op.lift (Protocol.from_number number)
    let s ← Op.state
    return .key_agreement (crates.public_key s.key_agreement)
  else if subcommand = GET_TOKEN_USING_UV then token_using_uv crates fields
  else if subcommand = GET_UV_RETRIES then return .uv_retries
  else Op.fail .invalidSubcommand

/-! ## Management -/

def GET_METADATA : UInt8 := 0x01
def ENUMERATE_RPS : UInt8 := 0x02
def NEXT_RP : UInt8 := 0x03
def ENUMERATE_CREDENTIALS : UInt8 := 0x04
def NEXT_CREDENTIAL : UInt8 := 0x05
def DELETE : UInt8 := 0x06
def UPDATE_USER : UInt8 := 0x07

def discoverable : Command P (List Credential) := do
  let credentials ← call Platform.all_credentials
  return (credentials.filter (·.discoverable)).insertionSort fun a b ↦ a.rp.id ≤ b.rp.id

def find (id : Bytes) : Command P Credential := do
  let credentials ← discoverable
  match credentials.find? fun credential ↦ credential.id = id with
  | some credential => return credential
  | none => Op.fail .noCredentials

def credential_id (parameters : Fields) : Result Bytes := do
  let descriptor ← parameters.required (.integer 0x02)
  match ← descriptor_id descriptor with
  | some id => return id
  | none => throw .invalidParameter

/-- What a request for management asks for. -/
structure Management where
  subcommand : UInt8
  parameters : Option Value
  fields : Fields

def Management.parse (body : Bytes) : Result Management := do
  let fields ← Fields.new (← decode crates body)
  let subcommand ← Cbor.small .invalidSubcommand (← fields.required (.integer 0x01))
  return { subcommand, parameters := fields.get (.integer 0x02), fields }

/-- The parameters, if there are any. -/
def Management.read (q : Management) : Result (Option Fields) :=
  match q.parameters with
  | none => .ok none
  | some value => (Fields.new value).map some

/-- Whether a request goes on with a listing. -/
def Management.follows (q : Management) : Bool :=
  q.subcommand = NEXT_RP || q.subcommand = NEXT_CREDENTIAL

/-- A new request for management forgets the listing and needs a token. -/
def authorize_management (q : Management) : Command P Unit := do
  Op.change fun s ↦ { s with listing := none }
  let number ← Op.lift (q.fields.required (.integer 0x03))
  let number ← Op.lift (Cbor.integer number)
  let protocol ← Op.lift (Protocol.from_number number)
  let param ← Op.lift (q.fields.required (.integer 0x04))
  let param ← Op.lift (Cbor.bytes param)
  authorize crates protocol (q.subcommand :: q.parameters.elim [] crates.encode) param
    Token.CREDENTIAL_MANAGEMENT none

def next_listed (subcommand : UInt8) : Command P Reply := do
  let s ← Op.state
  match s.listing with
  | some (.relyingParties (credential :: remaining)) =>
    Op.require (subcommand = NEXT_RP) .notAllowed
    Op.change fun s ↦ { s with listing := some (.relyingParties remaining) }
    return .rp credential none
  | some (.credentials (credential :: remaining)) =>
    Op.require (subcommand = NEXT_CREDENTIAL) .notAllowed
    Op.change fun s ↦ { s with listing := some (.credentials remaining) }
    return .credential credential none
  | _ => Op.fail .notAllowed

def enumerate_rps : Command P Reply := do
  let credentials ← discoverable
  match Adjacent.dedup_by (fun a b ↦ a.rp.id = b.rp.id) credentials with
  | [] => Op.fail .noCredentials
  | first :: rest =>
    Op.change fun s ↦ { s with listing := some (.relyingParties rest) }
    return .rp first (some (rest.length + 1))

def enumerate_credentials (hash : Bytes) : Command P Reply := do
  let credentials ← discoverable
  match credentials.filter fun credential ↦ crates.rp_id_hash credential.rp.id = hash with
  | [] => Op.fail .noCredentials
  | first :: rest =>
    Op.change fun s ↦ { s with listing := some (.credentials rest) }
    return .credential first (some (rest.length + 1))

def update_user (id : Bytes) (user : User) : Command P Unit := do
  let credential ← find id
  Op.require (credential.user.id = user.id) .invalidParameter
  call (Platform.update_user id user)
  Op.emit (.updated id user)

/-- What a subcommand does once it is authorized. -/
def manage (subcommand : UInt8) (parameters : Option Fields) : Command P (Option Reply) := do
  let required := parameters.elim (.error .missingParameter) .ok
  if subcommand = GET_METADATA then
    let credentials ← discoverable
    return some (.metadata credentials.length)
  else if subcommand = ENUMERATE_RPS then
    let reply ← enumerate_rps
    return some reply
  else if subcommand = ENUMERATE_CREDENTIALS then
    let hash ← Op.lift (do Cbor.bytes (← Fields.required (← required) (.integer 0x01)))
    let reply ← enumerate_credentials crates hash
    return some reply
  else if subcommand = NEXT_RP ∨ subcommand = NEXT_CREDENTIAL then
    let reply ← next_listed subcommand
    return some reply
  else if subcommand = DELETE then
    let id ← Op.lift (do credential_id (← required))
    let _ ← find id
    delete id
    return none
  else if subcommand = UPDATE_USER then
    let parameters ← Op.lift required
    let id ← Op.lift (credential_id parameters)
    let user ← Op.lift (do User.parse (← parameters.required (.integer 0x03)))
    update_user id user
    return none
  else Op.fail .invalidSubcommand

def credential_management (body : Bytes) : Command P (Option Reply) := do
  let q ← Op.lift (Management.parse crates body)
  Op.onlyIf (!q.follows) (authorize_management crates q)
  let parameters ← Op.lift q.read
  manage crates q.subcommand parameters

/-! ## The request -/

def MAKE_CREDENTIAL : UInt8 := 0x01
def GET_ASSERTION : UInt8 := 0x02
def GET_INFO : UInt8 := 0x04
def CLIENT_PIN : UInt8 := 0x06
def RESET : UInt8 := 0x07
def GET_NEXT_ASSERTION : UInt8 := 0x08
def CREDENTIAL_MANAGEMENT : UInt8 := 0x0A
def SELECTION : UInt8 := 0x0B

/-- A command with a reply. -/
def replied (x : Command P Reply) : Command P (Option Reply) := do
  let reply ← x
  return some reply

def run (command : UInt8) (body : Bytes) : Command P (Option Reply) :=
  if command = MAKE_CREDENTIAL then replied (make_credential crates body)
  else if command = GET_ASSERTION then replied (get_assertion crates body)
  else if command = GET_INFO then pure (some .info)
  else if command = CLIENT_PIN then replied (client_pin crates body)
  else if command = RESET then Op.fail .operationDenied
  else if command = GET_NEXT_ASSERTION then replied (get_next_assertion crates)
  else if command = CREDENTIAL_MANAGEMENT then credential_management crates body
  else if command = SELECTION then do
    choose
    return none
  else Op.fail .invalidCommand

/-- What is left of earlier requests when a command arrives. -/
def Authenticator.forget (command : UInt8) (s : Authenticator P) : Authenticator P :=
  { s with
    pending := if command = GET_NEXT_ASSERTION then s.pending else none
    listing := if command = CREDENTIAL_MANAGEMENT then s.listing else none }

def perform : Bytes → Command P (Option Reply)
  | [] => Op.fail .invalidLength
  | command :: body => do
    Op.change (Authenticator.forget command)
    run crates command body

/-- The bytes of an answer. -/
def answer : Result (Option Reply) → Bytes
  | .ok (some reply) => 0 :: crates.encode (reply.value crates)
  | .ok none => [0]
  | .error status => [status.code]

def handle (request : Bytes) (s : Authenticator P) : Bytes × Authenticator P :=
  (answer crates (perform crates request s).result, (perform crates request s).state)

end Passkeys.Ctap
