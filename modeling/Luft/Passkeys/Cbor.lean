import Mathlib.Data.Int.Notation
import Mathlib.Data.List.Basic

/-!
# The values of requests and replies

An authenticator is asked and answers in CBOR: the body of a request is one value, and so is that of a
reply.  Reading the bytes and writing them is the work of a crate; what is read of a value, and which
status a request is refused with where it cannot be read, is this file.
-/

set_option autoImplicit false

namespace Passkeys.Ctap

inductive Status where
  | invalidCommand
  | invalidParameter
  | invalidLength
  | cborUnexpectedType
  | invalidCbor
  | missingParameter
  | credentialExcluded
  | unsupportedAlgorithm
  | operationDenied
  | keyStoreFull
  | unsupportedOption
  | invalidOption
  | keepaliveCancel
  | noCredentials
  | userActionTimeout
  | notAllowed
  | pinAuthInvalid
  | pinNotSet
  | invalidSubcommand
  | unauthorizedPermission
  | other
deriving DecidableEq, Repr

def Status.code : Status → UInt8
  | .invalidCommand => 0x01
  | .invalidParameter => 0x02
  | .invalidLength => 0x03
  | .cborUnexpectedType => 0x11
  | .invalidCbor => 0x12
  | .missingParameter => 0x14
  | .credentialExcluded => 0x19
  | .unsupportedAlgorithm => 0x26
  | .operationDenied => 0x27
  | .keyStoreFull => 0x28
  | .unsupportedOption => 0x2B
  | .invalidOption => 0x2C
  | .keepaliveCancel => 0x2D
  | .noCredentials => 0x2E
  | .userActionTimeout => 0x2F
  | .notAllowed => 0x30
  | .pinAuthInvalid => 0x33
  | .pinNotSet => 0x35
  | .invalidSubcommand => 0x3E
  | .unauthorizedPermission => 0x40
  | .other => 0x7F

abbrev Result (α : Type) := Except Status α

abbrev Bytes := List UInt8

/-- A CBOR value; floating point numbers and tags are never looked at. -/
inductive Value where
  | integer (n : ℤ)
  | bytes (b : Bytes)
  | text (t : String)
  | boolean (b : Bool)
  | null
  | array (items : List Value)
  | map (entries : List (Value × Value))
  | other
deriving Repr

/-- What an entry of a map is looked up by. -/
inductive Key where
  | integer (n : ℤ)
  | text (t : String)
deriving DecidableEq, Repr

def Key.value : Key → Value
  | .integer n => .integer n
  | .text t => .text t

/-- Whether a value is the key. -/
def Key.is : Key → Value → Bool
  | .integer n, .integer m => n = m
  | .text t, .text u => t = u
  | _, _ => false

namespace Cbor

def map (entries : List (Key × Value)) : Value :=
  .map (entries.map fun entry ↦ (entry.1.value, entry.2))

def count (n : ℕ) : Value := .integer n

def bytes : Value → Result Bytes
  | .bytes b => .ok b
  | _ => .error .cborUnexpectedType

def text : Value → Result String
  | .text t => .ok t
  | _ => .error .cborUnexpectedType

def boolean : Value → Result Bool
  | .boolean b => .ok b
  | _ => .error .cborUnexpectedType

/-- An `i64`. -/
def integer : Value → Result ℤ
  | .integer n =>
    if -9223372036854775808 ≤ n ∧ n < 9223372036854775808 then .ok n
    else .error .cborUnexpectedType
  | _ => .error .cborUnexpectedType

def array : Value → Result (List Value)
  | .array items => .ok items
  | _ => .error .cborUnexpectedType

/-- A `u8`, or else the request is refused with the given status. -/
def small (e : Status) (v : Value) : Result UInt8 := do
  let n ← integer v
  if 0 ≤ n ∧ n < 256 then .ok (UInt8.ofNat n.toNat) else .error e

end Cbor

/-- The entries of a map. -/
abbrev Fields := List (Value × Value)

namespace Fields

def new : Value → Result Fields
  | .map entries => .ok entries
  | _ => .error .cborUnexpectedType

def get (fields : Fields) (key : Key) : Option Value :=
  (fields.find? fun entry ↦ key.is entry.1).map (·.2)

def required (fields : Fields) (key : Key) : Result Value :=
  match fields.get key with
  | some v => .ok v
  | none => .error .missingParameter

/-- An entry that may be missing. -/
def optional {α : Type} (fields : Fields) (key : Key) (read : Value → Result α) :
    Result (Option α) :=
  match fields.get key with
  | some v => (read v).map some
  | none => .ok none

end Fields

end Passkeys.Ctap
