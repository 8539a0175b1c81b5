import Luft.Lib.BigEndian
import Mathlib.Data.List.TakeWhile

/-!
# Text in 16-bit units

`encode` is the UTF-16 of a text, and `withNul` its bytes with a zero behind them.  `read` takes the units up to the
first zero from any bytes and reads them as text, with the replacement character for what is none; in front of what
`withNul` wrote it finds that text (`read_withNul`).
-/

set_option autoImplicit false

namespace Utf16

open LittleEndian

def encodeChar (c : Char) : List ℕ :=
  if c.toNat < 0x10000 then [c.toNat]
  else [0xD800 + (c.toNat - 0x10000) / 0x400, 0xDC00 + (c.toNat - 0x10000) % 0x400]

/-- `str::encode_utf16`. -/
def encode (text : List Char) : List ℕ := text.flatMap encodeChar

def isHigh (unit : ℕ) : Bool := 0xD800 ≤ unit && unit < 0xDC00

def isLow (unit : ℕ) : Bool := 0xDC00 ≤ unit && unit < 0xE000

/-- `String::from_utf16_lossy`: two surrogates in order are one character, and each other one is replaced. -/
def lossy : List ℕ → List Char
  | [] => []
  | [unit] => [if isHigh unit || isLow unit then '\uFFFD' else Char.ofNat unit]
  | unit :: next :: rest =>
    if isHigh unit && isLow next then
      Char.ofNat (0x10000 + (unit - 0xD800) * 0x400 + (next - 0xDC00)) :: lossy rest
    else (if isHigh unit || isLow unit then '\uFFFD' else Char.ofNat unit) :: lossy (next :: rest)

/-- The units that bytes are in pairs, without a last byte that is left. -/
def pairs : List UInt8 → List ℕ
  | low :: high :: rest => ofLe [low, high] :: pairs rest
  | _ => []

def toBytes (units : List ℕ) : List UInt8 := units.flatMap (le 2)

def withNul (text : List Char) : List UInt8 := toBytes (encode text ++ [0])

def read (bytes : List UInt8) : List Char := lossy ((pairs bytes).takeWhile (· ≠ 0))

/-! ## Characters -/

theorem toNat_valid (c : Char) : c.toNat < 0xD800 ∨ 0xDFFF < c.toNat ∧ c.toNat < 0x110000 := c.valid

theorem encodeChar_lt {c : Char} {unit : ℕ} (h : unit ∈ encodeChar c) : unit < 65536 := by
  rw [encodeChar] at h
  have hvalid := toNat_valid c
  split at h
  · rw [List.mem_singleton.1 h]
    assumption
  · rcases List.mem_cons.1 h with rfl | h
    · omega
    · rw [List.mem_singleton.1 h]
      omega

theorem encodeChar_ne_zero {c : Char} (hc : c ≠ '\x00') {unit : ℕ} (h : unit ∈ encodeChar c) : unit ≠ 0 := by
  rw [encodeChar] at h
  split at h
  · rw [List.mem_singleton.1 h]
    exact fun hzero ↦ hc (Char.toNat_inj.1 hzero)
  · rcases List.mem_cons.1 h with rfl | h
    · omega
    · rw [List.mem_singleton.1 h]
      omega

theorem encode_lt {text : List Char} {unit : ℕ} (h : unit ∈ encode text) : unit < 65536 := by
  obtain ⟨c, -, h⟩ := List.mem_flatMap.1 h
  exact encodeChar_lt h

theorem encode_ne_zero {text : List Char} (htext : '\x00' ∉ text) {unit : ℕ} (h : unit ∈ encode text) :
    unit ≠ 0 := by
  obtain ⟨c, hc, h⟩ := List.mem_flatMap.1 h
  exact encodeChar_ne_zero (fun heq ↦ htext (heq ▸ hc)) h

theorem lossy_single {unit : ℕ} (h : unit < 0xD800 ∨ 0xDFFF < unit) (rest : List ℕ) :
    lossy (unit :: rest) = Char.ofNat unit :: lossy rest := by
  have hhigh : isHigh unit = false := by
    rw [isHigh, Bool.and_eq_false_iff, decide_eq_false_iff_not, decide_eq_false_iff_not]
    omega
  have hlow : isLow unit = false := by
    rw [isLow, Bool.and_eq_false_iff, decide_eq_false_iff_not, decide_eq_false_iff_not]
    omega
  cases rest with
  | nil => simp [lossy, hhigh, hlow]
  | cons next rest => simp [lossy, hhigh, hlow]

theorem lossy_double {high low : ℕ} (hhigh : 0xD800 ≤ high ∧ high < 0xDC00) (hlow : 0xDC00 ≤ low ∧ low < 0xE000)
    (rest : List ℕ) : lossy (high :: low :: rest) =
      Char.ofNat (0x10000 + (high - 0xD800) * 0x400 + (low - 0xDC00)) :: lossy rest := by
  have h : isHigh high = true := by simp [isHigh, hhigh]
  have h' : isLow low = true := by simp [isLow, hlow]
  rw [lossy, h, h']
  rfl

theorem lossy_cons (c : Char) (rest : List ℕ) : lossy (encodeChar c ++ rest) = c :: lossy rest := by
  have hvalid := toNat_valid c
  rw [encodeChar]
  split
  · rw [List.singleton_append, lossy_single (by omega), Char.ofNat_toNat]
  · rw [List.cons_append, List.singleton_append, lossy_double (by omega) (by omega)]
    have hnumber : 0x10000 + (0xD800 + (c.toNat - 0x10000) / 0x400 - 0xD800) * 0x400 +
        (0xDC00 + (c.toNat - 0x10000) % 0x400 - 0xDC00) = c.toNat := by omega
    rw [hnumber, Char.ofNat_toNat]

theorem lossy_encode (text : List Char) : lossy (encode text) = text := by
  induction text with
  | nil => rfl
  | cons c text ih =>
    have hcons : encode (c :: text) = encodeChar c ++ encode text := List.flatMap_cons
    rw [hcons, lossy_cons, ih]

/-! ## Bytes -/

theorem le_two (unit : ℕ) : ∃ low high, le 2 unit = [low, high] := ⟨_, _, rfl⟩

theorem toBytes_cons (unit : ℕ) (units : List ℕ) : toBytes (unit :: units) = le 2 unit ++ toBytes units :=
  List.flatMap_cons

@[simp] theorem length_toBytes (units : List ℕ) : (toBytes units).length = 2 * units.length := by
  induction units with
  | nil => rfl
  | cons unit units ih =>
    rw [toBytes_cons, List.length_append, ih, length_le, List.length_cons]
    omega

theorem pairs_le {unit : ℕ} (h : unit < 65536) (rest : List UInt8) :
    pairs (le 2 unit ++ rest) = unit :: pairs rest := by
  obtain ⟨low, high, hle⟩ := le_two unit
  rw [hle, List.cons_append, List.singleton_append, pairs, ← hle, ofLe_le (by omega)]

theorem pairs_toBytes {units : List ℕ} (h : ∀ unit ∈ units, unit < 65536) (rest : List UInt8) :
    pairs (toBytes units ++ rest) = units ++ pairs rest := by
  induction units with
  | nil => rfl
  | cons unit units ih =>
    rw [List.forall_mem_cons] at h
    rw [toBytes_cons, List.append_assoc, pairs_le h.1, ih h.2, List.cons_append]

theorem pairs_withNul (text : List Char) (rest : List UInt8) :
    pairs (withNul text ++ rest) = encode text ++ 0 :: pairs rest := by
  rw [withNul, pairs_toBytes, List.append_assoc, List.singleton_append]
  intro unit hunit
  rcases List.mem_append.1 hunit with hunit | hunit
  · exact encode_lt hunit
  · rw [List.mem_singleton.1 hunit]
    decide

theorem withNul_append (text rest : List Char) :
    withNul (text ++ rest) = toBytes (encode text) ++ withNul rest := by
  rw [withNul, withNul, encode, encode, encode, List.flatMap_append, List.append_assoc, toBytes, List.flatMap_append]
  rfl

theorem withNul_eq (text : List Char) : withNul text = toBytes (encode text) ++ [0, 0] := by
  rw [withNul, toBytes, List.flatMap_append]
  rfl

/-- **What was written is read**, whatever stands behind it. -/
theorem read_withNul {text : List Char} (h : '\x00' ∉ text) (rest : List UInt8) :
    read (withNul text ++ rest) = text := by
  have hunits : ∀ unit ∈ encode text, decide (unit ≠ 0) = true := fun unit hunit ↦
    decide_eq_true (encode_ne_zero h hunit)
  rw [read, pairs_withNul, List.takeWhile_append_of_pos hunits, List.takeWhile_cons_of_neg (by simp), List.append_nil,
    lossy_encode]

/-- The same where the zero is cut off. -/
theorem read_toBytes {text : List Char} (h : '\x00' ∉ text) : read (toBytes (encode text)) = text := by
  have hunits : ∀ unit ∈ encode text, decide (unit ≠ 0) = true := fun unit hunit ↦
    decide_eq_true (encode_ne_zero h hunit)
  have hpairs : pairs (toBytes (encode text) ++ []) = encode text ++ [] :=
    pairs_toBytes (fun unit hunit ↦ encode_lt hunit) []
  rw [List.append_nil, List.append_nil] at hpairs
  rw [read, hpairs, List.takeWhile_eq_self_iff.2 hunits, lossy_encode]

end Utf16
