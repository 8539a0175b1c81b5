import Luft.Lib.BigEndian
import Luft.Passkeys.Cbor

/-!
# Passkeys and the platform that keeps them

A credential belongs to a user of a relying party.  The authenticator itself keeps none: it asks a
`Platform` for them, to make them and to sign with them, and to ask the person.  The platform's state
is whatever it is; every call takes it and gives back the next one, so that between two calls anything
may have happened to it.
-/

set_option autoImplicit false

namespace Passkeys.Ctap

/-! ## The model -/

structure RelyingParty where
  id : String
  name : Option String
deriving DecidableEq, Repr

def RelyingParty.parse (value : Value) : Result RelyingParty := do
  let fields ← Fields.new value
  let id ← Cbor.text (← fields.required (.text "id"))
  let name ← fields.optional (.text "name") Cbor.text
  return { id, name }

def RelyingParty.to_cbor (rp : RelyingParty) : Value :=
  Cbor.map ([(.text "id", .text rp.id)] ++ rp.name.toList.map fun name ↦ (.text "name", .text name))

structure User where
  id : Bytes
  name : Option String
  display_name : Option String
deriving DecidableEq, Repr

def User.parse (value : Value) : Result User := do
  let fields ← Fields.new value
  let id ← Cbor.bytes (← fields.required (.text "id"))
  if id.length = 0 ∨ 64 < id.length then throw .invalidParameter
  let name ← fields.optional (.text "name") Cbor.text
  let display_name ← fields.optional (.text "displayName") Cbor.text
  return { id, name, display_name }

def User.to_cbor (user : User) (identifying : Bool) : Value :=
  Cbor.map ([(.text "id", .bytes user.id)] ++
    if identifying then
      (user.name.toList.map fun name ↦ (.text "name", .text name)) ++
        user.display_name.toList.map fun name ↦ (.text "displayName", .text name)
    else [])

/-- 32 bytes. -/
abbrev Coordinate := { b : Bytes // b.length = 32 }

def EC2 : ℤ := 2
def P256 : ℤ := 1
def ES256 : ℤ := -7
def ECDH_ES_HKDF_256 : ℤ := -25

structure PublicKey where
  x : Coordinate
  y : Coordinate
deriving DecidableEq, Repr

def PublicKey.to_cose (key : PublicKey) (algorithm : ℤ) : Value :=
  Cbor.map [(.integer 1, .integer EC2), (.integer 3, .integer algorithm),
    (.integer (-1), .integer P256), (.integer (-2), .bytes key.x), (.integer (-3), .bytes key.y)]

def coordinate (fields : Fields) (key : ℤ) : Result Coordinate := do
  let b ← Cbor.bytes (← fields.required (.integer key))
  if h : b.length = 32 then return ⟨b, h⟩ else throw .invalidParameter

def PublicKey.from_cose (value : Value) : Result PublicKey := do
  let fields ← Fields.new value
  let kind ← Cbor.integer (← fields.required (.integer 1))
  if kind ≠ EC2 then throw .invalidParameter
  let curve ← Cbor.integer (← fields.required (.integer (-1)))
  if curve ≠ P256 then throw .invalidParameter
  let x ← coordinate fields (-2)
  let y ← coordinate fields (-3)
  return { x, y }

inductive Protection where
  | uvOptional
  | uvOptionalWithCredentialIdList
  | uvRequired
deriving DecidableEq, Repr

def Protection.from_level (level : ℤ) : Result Protection :=
  if level = 1 then .ok .uvOptional
  else if level = 2 then .ok .uvOptionalWithCredentialIdList
  else if level = 3 then .ok .uvRequired
  else .error .invalidParameter

def Protection.level : Protection → ℤ
  | .uvOptional => 1
  | .uvOptionalWithCredentialIdList => 2
  | .uvRequired => 3

def Protection.allows (protection : Protection) (verified listed : Bool) : Bool :=
  verified || match protection with
    | .uvOptional => true
    | .uvOptionalWithCredentialIdList => listed
    | .uvRequired => false

structure Credential where
  id : Bytes
  rp : RelyingParty
  user : User
  public_key : PublicKey
  discoverable : Bool
  protection : Protection
deriving DecidableEq, Repr

structure NewCredential where
  rp : RelyingParty
  user : User
  discoverable : Bool
  protection : Protection
deriving DecidableEq, Repr

def descriptor (id : Bytes) : Value :=
  Cbor.map [(.text "id", .bytes id), (.text "type", .text "public-key")]

def descriptor_id (entry : Value) : Result (Option Bytes) := do
  let fields ← Fields.new entry
  let id ← Cbor.bytes (← fields.required (.text "id"))
  let kind ← Cbor.text (← fields.required (.text "type"))
  return if kind = "public-key" then some id else none

def descriptor_ids (value : Value) : Result (List Bytes) := do
  let ids ← (← Cbor.array value).mapM descriptor_id
  return ids.filterMap id

/-! ## The platform -/

inductive Purpose where
  | register
  | signIn
  | manage
  | alreadyRegistered
  | choose
deriving DecidableEq, Repr

structure Prompt where
  purpose : Purpose
  rp_id : Option String
  rp_name : Option String
  accounts : List User
deriving DecidableEq, Repr

inductive Consent where
  | verified (account : ℕ)
  | confirmed
deriving DecidableEq, Repr

/-- What the authenticator calls, with the clock and the random numbers of the system. -/
class Platform (P : Type) where
  ask : Prompt → P → Result Consent × P
  credentials : String → P → Result (List Credential) × P
  all_credentials : P → Result (List Credential) × P
  create : NewCredential → P → Result Credential × P
  next_count : Bytes → P → Result ℕ × P
  sign : Bytes → Bytes → P → Result Bytes × P
  hmac_secret : Bytes → Bool → Bytes → P → Result Bytes × P
  delete : Bytes → P → Result Unit × P
  update_user : Bytes → User → P → Result Unit × P
  /-- `Instant::now`, in nanoseconds. -/
  now : P → ℕ
  random : ℕ → P → Bytes × P

/-! ## What the authenticator signs -/

inductive Protocol where
  | one
  | two
deriving DecidableEq, Repr

/-- What is read, written and computed by crates. -/
structure Crates where
  /-- `ciborium::from_reader`. -/
  decode : Bytes → Option Value
  /-- `cbor::encode`, with the entries of maps in their canonical order. -/
  encode : Value → Bytes
  /-- SHA-256 of an id. -/
  rp_id_hash : String → Bytes
  hmac : Bytes → Bytes → Bytes
  /-- The public point of a secret scalar. -/
  public_key : Bytes → PublicKey
  /-- The keys for HMAC and AES that the two sides of a key agreement share. -/
  shared_keys : Bytes → Protocol → PublicKey → Option (Bytes × Bytes)
  /-- AES in CBC mode, with a key and an initialisation vector. -/
  aes_encrypt : Bytes → Bytes → Bytes → Bytes
  aes_decrypt : Bytes → Bytes → Bytes → Option Bytes

def AAGUID : Bytes :=
  [0xe8, 0xcc, 0xe9, 0x42, 0x0d, 0x97, 0x47, 0x3a, 0x85, 0x8a, 0x3e, 0x24, 0xfe, 0x68, 0x4b, 0x14]

def USER_PRESENT : UInt8 := 0x01
def USER_VERIFIED : UInt8 := 0x04
def ATTESTED : UInt8 := 0x40
def EXTENSIONS : UInt8 := 0x80

structure AuthData where
  rp_id : String
  flags : UInt8
  counter : ℕ
  attested : Option (Bytes × PublicKey)
  extensions : Option Value
deriving Repr

open BigEndian in
def AuthData.encode (crates : Crates) (data : AuthData) : Bytes :=
  let attested := data.attested.elim [] fun (id, key) ↦
    AAGUID ++ be 2 id.length ++ id ++ crates.encode (key.to_cose ES256)
  let extensions := data.extensions.elim [] crates.encode
  let flags := data.flags ||| (if data.attested.isSome then ATTESTED else 0) |||
    if data.extensions.isSome then EXTENSIONS else 0
  crates.rp_id_hash data.rp_id ++ [flags] ++ be 4 data.counter ++ attested ++ extensions

end Passkeys.Ctap
