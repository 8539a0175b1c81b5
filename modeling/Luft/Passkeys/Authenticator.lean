import Luft.Lib.Op
import Luft.Passkeys.Token
import Mathlib.Data.List.Sort
import Mathlib.Data.String.Basic

/-!
# The authenticator

One request after the other: `handle` reads the command, forgets what the command is not a follow-up
of, and answers.  A request asserts a credential (`get_assertion`, `get_next_assertion`), makes one
(`make_credential`), issues a token (`client_pin`) or manages the credentials that can be discovered
(`credential_management`).

Commands are programs over the authenticator's state that may fail with a status and keep what they
changed until then; their log is what they asked of the person and did to the store.  A reply keeps
what it was made from, and `Reply.value` is the value that is sent.
-/

set_option autoImplicit false

namespace Passkeys.Ctap

/-! ## State -/

namespace HmacSecret

def NAME : String := "hmac-secret"

structure Request where
  key_agreement : PublicKey
  salt_enc : Bytes
  salt_auth : Bytes
  protocol : Protocol
deriving DecidableEq, Repr

def Request.parse (input : Value) : Result Request := do
  let fields ← Fields.new input
  let key_agreement ← PublicKey.from_cose (← fields.required (.integer 0x01))
  let salt_enc ← Cbor.bytes (← fields.required (.integer 0x02))
  let salt_auth ← Cbor.bytes (← fields.required (.integer 0x03))
  let protocol ← fields.optional (.integer 0x04) fun number ↦ do
    Protocol.from_number (← Cbor.integer number)
  return { key_agreement, salt_enc, salt_auth, protocol := protocol.getD .one }

def requested (fields : Fields) (key : Key) : Result (Option Request) := do
  match ← fields.optional key Fields.new with
  | none => return none
  | some extensions => extensions.optional (.text NAME) Request.parse

end HmacSecret

structure PendingAssertions where
  rp_id : String
  client_data_hash : Bytes
  flags : UInt8
  hmac_secret : Option HmacSecret.Request
  remaining : List Credential
  started : ℕ
deriving DecidableEq, Repr

inductive Listing where
  | relyingParties (remaining : List Credential)
  | credentials (remaining : List Credential)
deriving DecidableEq, Repr

structure Authenticator (P : Type) where
  platform : P
  /-- The scalar of the key agreement. -/
  key_agreement : Bytes
  token : Option Token
  pending : Option PendingAssertions
  listing : Option Listing
deriving DecidableEq, Repr

def Authenticator.new {P : Type} (platform : P) (key_agreement : Bytes) : Authenticator P :=
  { platform, key_agreement, token := none, pending := none, listing := none }

/-- What a command asked the person and did to the store. -/
inductive Done where
  | asked (prompt : Prompt) (consent : Consent)
  | created (credential : Credential)
  | deleted (id : Bytes)
  | updated (id : Bytes) (user : User)
deriving DecidableEq, Repr

abbrev Command (P α : Type) := Op (Authenticator P) Status Done α

/-! ## Replies -/

structure Assertion where
  credential : Credential
  rp_id : String
  client_data_hash : Bytes
  flags : UInt8
  hmac_secret : Option HmacSecret.Request
  discoverable : Bool
  total : Option ℕ
  selected : Bool
deriving DecidableEq, Repr

inductive Reply where
  | assertion (assertion : Assertion) (auth_data signature : Bytes)
  | registered (auth_data : Bytes)
  | metadata (count : ℕ)
  | rp (credential : Credential) (total : Option ℕ)
  | credential (credential : Credential) (total : Option ℕ)
  | key_agreement (key : PublicKey)
  | token (encrypted : Bytes)
  | uv_retries
  | info
deriving Repr

def response (entries : List (ℤ × Value)) : Value :=
  Cbor.map (entries.map fun entry ↦ (.integer entry.1, entry.2))

def Assertion.value (assertion : Assertion) (auth_data signature : Bytes) : Value :=
  response ([(0x01, descriptor assertion.credential.id), (0x02, .bytes auth_data),
      (0x03, .bytes signature)] ++
    (if assertion.discoverable then
      [(0x04, assertion.credential.user.to_cbor (assertion.flags &&& USER_VERIFIED ≠ 0))] else []) ++
    (assertion.total.toList.map fun total ↦ (0x05, Cbor.count total)) ++
    if assertion.selected then [(0x06, .boolean true)] else [])

def REMAINING_CAPACITY : ℤ := 10000

def rp_entry (crates : Crates) (credential : Credential) (total : Option ℕ) : Value :=
  response ([(0x03, credential.rp.to_cbor), (0x04, .bytes (crates.rp_id_hash credential.rp.id))] ++
    total.toList.map fun total ↦ (0x05, Cbor.count total))

def credential_entry (credential : Credential) (total : Option ℕ) : Value :=
  response ([(0x06, credential.user.to_cbor true), (0x07, descriptor credential.id),
      (0x08, credential.public_key.to_cose ES256)] ++
    (total.toList.map fun total ↦ (0x09, Cbor.count total)) ++
    [(0x0A, .integer credential.protection.level)])

def UV_RETRIES : ℤ := 8

def get_info : Value :=
  response [(0x01, .array [.text "FIDO_2_0", .text "FIDO_2_1"]),
    (0x02, .array [.text "credProtect", .text "hmac-secret"]), (0x03, .bytes AAGUID),
    (0x04, Cbor.map [(.text "rk", .boolean true), (.text "up", .boolean true),
      (.text "uv", .boolean true), (.text "plat", .boolean false),
      (.text "credMgmt", .boolean true), (.text "pinUvAuthToken", .boolean true)]),
    (0x05, .integer 7609), (0x06, .array [.integer 2, .integer 1]), (0x07, .integer 64),
    (0x08, .integer 64), (0x09, .array [.text "usb"]),
    (0x0A, .array [Cbor.map [(.text "alg", .integer ES256), (.text "type", .text "public-key")]]),
    (0x0E, .integer 1)]

def Reply.value (crates : Crates) : Reply → Value
  | .assertion a auth_data signature => a.value auth_data signature
  | .registered auth_data =>
    response [(0x01, .text "none"), (0x02, .bytes auth_data), (0x03, .map [])]
  | .metadata count => response [(0x01, Cbor.count count), (0x02, .integer REMAINING_CAPACITY)]
  | .rp c total => rp_entry crates c total
  | .credential c total => credential_entry c total
  | .key_agreement key => response [(0x01, key.to_cose ECDH_ES_HKDF_256)]
  | .token encrypted => response [(0x02, .bytes encrypted)]
  | .uv_retries => response [(0x05, .integer UV_RETRIES)]
  | .info => get_info

end Passkeys.Ctap
