import Mathlib.Data.List.Basic

/-!
# Text in bytes

`encode` is the UTF-8 of a text.  `lossy` reads any bytes as text, with the replacement character for what is no
text; of bytes that a text was encoded to it makes that text again (`lossy_encode`).
-/

set_option autoImplicit false

namespace Utf8

def encode (text : List Char) : List UInt8 := text.flatMap String.utf8EncodeChar

/-- The character that some bytes begin with. -/
def decodeChar? (bytes : List UInt8) : Option Char := bytes.toByteArray.utf8DecodeChar? 0

/-- How many bytes could have begun a character, where none does; one at least. -/
def broken (first : UInt8) (rest : List UInt8) : ℕ :=
  let second (low high : UInt8) : Bool := rest[0]?.any fun b ↦ low ≤ b && b ≤ high
  let goes : Bool :=
    if first = 0xe0 then second 0xa0 0xbf
    else if first = 0xed then second 0x80 0x9f
    else if 0xe1 ≤ first && first ≤ 0xef then second 0x80 0xbf
    else if first = 0xf0 then second 0x90 0xbf
    else if 0xf1 ≤ first && first ≤ 0xf3 then second 0x80 0xbf
    else if first = 0xf4 then second 0x80 0x8f
    else false
  if !goes then 1 else if 0xf0 ≤ first && rest[1]?.any fun b ↦ 0x80 ≤ b && b ≤ 0xbf then 3 else 2

/-- The text that bytes spell, some of which were taken already. -/
def lossyFrom : ℕ → List UInt8 → List Char
  | _, [] => []
  | 0, first :: rest =>
    match decodeChar? (first :: rest) with
    | some c => c :: lossyFrom (c.utf8Size - 1) rest
    | none => '\uFFFD' :: lossyFrom (broken first rest - 1) rest
  | taken + 1, _ :: rest => lossyFrom taken rest

/-- `String::from_utf8_lossy`. -/
def lossy (bytes : List UInt8) : List Char := lossyFrom 0 bytes

theorem decodeChar?_encode (c : Char) (rest : List UInt8) : decodeChar? (String.utf8EncodeChar c ++ rest) = some c := by
  rw [decodeChar?, List.toByteArray_append]
  exact ByteArray.utf8DecodeChar?_utf8EncodeChar_append

theorem lossyFrom_append (taken rest : List UInt8) : lossyFrom taken.length (taken ++ rest) = lossyFrom 0 rest := by
  induction taken with
  | nil => rfl
  | cons b taken ih => exact ih

theorem lossy_cons (c : Char) (rest : List UInt8) : lossy (String.utf8EncodeChar c ++ rest) = c :: lossy rest := by
  have hdecode := decodeChar?_encode c rest
  have hlength := String.length_utf8EncodeChar c
  have hpos := c.utf8Size_pos
  cases hbytes : String.utf8EncodeChar c with
  | nil =>
    rw [hbytes, List.length_nil] at hlength
    omega
  | cons first more =>
    rw [hbytes, List.cons_append] at hdecode
    rw [hbytes, List.length_cons] at hlength
    rw [lossy, List.cons_append, lossyFrom, hdecode]
    dsimp only
    rw [← hlength, Nat.add_sub_cancel, lossyFrom_append, lossy]

/-- **What was encoded** is read as it was. -/
theorem lossy_encode (text : List Char) : lossy (encode text) = text := by
  induction text with
  | nil => rfl
  | cons c text ih =>
    have hcons : encode (c :: text) = String.utf8EncodeChar c ++ encode text := List.flatMap_cons
    rw [hcons, lossy_cons, ih]

end Utf8
