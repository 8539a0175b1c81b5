import Luft.Passkeys.Credential

/-!
# Tokens

A token stands for one verification of the person.  Whoever has its key proves it by authenticating
the message of a request with it; the token says for which commands and which relying party, and runs
out when it is not used for a while.
-/

set_option autoImplicit false

namespace Passkeys.Ctap

/-! ## Protocols -/

def Protocol.from_number (number : ℤ) : Result Protocol :=
  if number = 1 then .ok .one else if number = 2 then .ok .two else .error .invalidParameter

/-- Whether a signature is the part of the tag that the protocol wants. -/
def Protocol.verify (crates : Crates) (protocol : Protocol) (key message signature : Bytes) : Bool :=
  let expected := match protocol with
    | .one => 16
    | .two => 32
  signature.length = expected && (crates.hmac key message).take signature.length = signature

structure SharedSecret where
  protocol : Protocol
  hmac_key : Bytes
  aes_key : Bytes

/-- The secret that an authenticator's scalar shares with a peer. -/
def shared_secret (crates : Crates) (key_agreement : Bytes) (protocol : Protocol)
    (peer : PublicKey) : Result SharedSecret :=
  match crates.shared_keys key_agreement protocol peer with
  | none => .error .invalidParameter
  | some (hmac_key, aes_key) => .ok { protocol, hmac_key, aes_key }

namespace SharedSecret

/-- Encrypt, with 16 random bytes for the second protocol. -/
def encrypt (crates : Crates) (secret : SharedSecret) (random plaintext : Bytes) : Bytes :=
  match secret.protocol with
  | .one => crates.aes_encrypt secret.aes_key (List.replicate 16 0) plaintext
  | .two => random ++ crates.aes_encrypt secret.aes_key random plaintext

def decrypt (crates : Crates) (secret : SharedSecret) (message : Bytes) : Result Bytes :=
  let plaintext := match secret.protocol with
    | .one => crates.aes_decrypt secret.aes_key (List.replicate 16 0) message
    | .two =>
      if message.length < 16 then none
      else crates.aes_decrypt secret.aes_key (message.take 16) (message.drop 16)
  plaintext.elim (.error .invalidLength) .ok

def verify (crates : Crates) (secret : SharedSecret) (message signature : Bytes) : Bool :=
  secret.protocol.verify crates secret.hmac_key message signature

end SharedSecret

/-! ## The token -/

namespace Token

def MAKE_CREDENTIAL : UInt8 := 0x01
def GET_ASSERTION : UInt8 := 0x02
def CREDENTIAL_MANAGEMENT : UInt8 := 0x04
def SUPPORTED : UInt8 := MAKE_CREDENTIAL ||| GET_ASSERTION ||| CREDENTIAL_MANAGEMENT

/-- 30 seconds. -/
def IDLE_LIMIT : ℕ := 30000000000

end Token

structure Token where
  key : Bytes
  protocol : Protocol
  permissions : UInt8
  rp_id : Option String
  user_present : Bool
  last_used : ℕ
deriving DecidableEq, Repr

namespace Token

def issue (key : Bytes) (now : ℕ) (protocol : Protocol) (permissions : UInt8)
    (rp_id : Option String) : Token :=
  { key, protocol, permissions, rp_id, user_present := true, last_used := now }

/-- The token once it has authorized a request. -/
def authorize (crates : Crates) (now : ℕ) (protocol : Protocol) (message param : Bytes)
    (permission : UInt8) (rp_id : Option String) (token : Token) : Result Token :=
  if ¬ now - token.last_used < IDLE_LIMIT ∨ protocol ≠ token.protocol ∨
      ¬ protocol.verify crates token.key message param then
    .error .pinAuthInvalid
  else if token.permissions &&& permission = 0 then .error .pinAuthInvalid
  else
    match token.rp_id, rp_id with
    | some bound, some requested =>
      if bound ≠ requested then .error .pinAuthInvalid else .ok { token with last_used := now }
    | none, some requested => .ok { token with rp_id := requested, last_used := now }
    | _, none => .ok { token with last_used := now }

def take_presence (token : Token) : Bool × Token :=
  (token.user_present, { token with user_present := false })

def spend (token : Token) : Token :=
  { token with
    permissions := token.permissions &&& ~~~(MAKE_CREDENTIAL ||| GET_ASSERTION)
    user_present := false }

end Token

end Passkeys.Ctap
