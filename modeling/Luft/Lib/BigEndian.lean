import Mathlib.Data.List.Basic
import Mathlib.Data.List.Induction
import Mathlib.Algebra.Order.Group.Nat
import Mathlib.Tactic.Ring

/-!
# Numbers in bytes

`be k n` writes the `k` low bytes of `n`, most significant first, and `ofBe` reads such bytes back;
`le` and `ofLe` have the bytes the other way round.  The round trips `ofBe_be` and `ofLe_le` need `n`
to fit; `be_ofBe` and `le_ofLe` hold of any bytes.
-/

set_option autoImplicit false

namespace BigEndian

/-- The `k` low bytes of `n`, most significant first. -/
def be : ℕ → ℕ → List UInt8
  | 0, _ => []
  | k + 1, n => be k (n / 256) ++ [UInt8.ofNat (n % 256)]

/-- The number some bytes spell, most significant first. -/
def ofBe (bytes : List UInt8) : ℕ := bytes.foldl (fun n b ↦ n * 256 + b.toNat) 0

@[simp] theorem length_be (k n : ℕ) : (be k n).length = k := by
  induction k generalizing n with
  | zero => rfl
  | succ k ih => rw [be, List.length_append, ih, List.length_singleton]

theorem ofBe_append_singleton (bytes : List UInt8) (b : UInt8) :
    ofBe (bytes ++ [b]) = ofBe bytes * 256 + b.toNat := by
  rw [ofBe, List.foldl_append, List.foldl_cons, List.foldl_nil, ofBe]

/-- **Reading back what was written** gives the number, as long as it fits. -/
theorem ofBe_be {k n : ℕ} (h : n < 256 ^ k) : ofBe (be k n) = n := by
  induction k generalizing n with
  | zero =>
    have hn : n = 0 := by rw [pow_zero] at h; omega
    rw [hn, be, ofBe, List.foldl_nil]
  | succ k ih =>
    have hq : n / 256 < 256 ^ k := by rw [pow_succ] at h; omega
    have hb : (UInt8.ofNat (n % 256)).toNat = n % 256 := by
      rw [UInt8.toNat_ofNat']
      omega
    rw [be, ofBe_append_singleton, ih hq, hb]
    omega

theorem ofBe_lt (bytes : List UInt8) : ofBe bytes < 256 ^ bytes.length := by
  induction bytes using List.reverseRecOn with
  | nil => exact Nat.one_pos
  | append_singleton bytes b ih =>
    have hb := b.toNat_lt
    rw [ofBe_append_singleton, List.length_append, List.length_singleton, pow_succ]
    omega

/-- Writing back what was read gives the bytes. -/
theorem be_ofBe (bytes : List UInt8) : be bytes.length (ofBe bytes) = bytes := by
  induction bytes using List.reverseRecOn with
  | nil => rfl
  | append_singleton bytes b ih =>
    have hb := b.toNat_lt
    have hq : (ofBe bytes * 256 + b.toNat) / 256 = ofBe bytes := by omega
    have hr : UInt8.ofNat ((ofBe bytes * 256 + b.toNat) % 256) = b := by
      rw [show (ofBe bytes * 256 + b.toNat) % 256 = b.toNat by omega, UInt8.ofNat_toNat]
    rw [ofBe_append_singleton, List.length_append, List.length_singleton, be, hq, hr, ih]

end BigEndian

namespace LittleEndian

open BigEndian

/-- The `k` low bytes of `n`, least significant first. -/
def le (k n : ℕ) : List UInt8 := (be k n).reverse

/-- The number some bytes spell, least significant first. -/
def ofLe (bytes : List UInt8) : ℕ := ofBe bytes.reverse

@[simp] theorem length_le (k n : ℕ) : (le k n).length = k := by
  rw [le, List.length_reverse, length_be]

theorem ofLe_le {k n : ℕ} (h : n < 256 ^ k) : ofLe (le k n) = n := by
  rw [ofLe, le, List.reverse_reverse, ofBe_be h]

theorem ofLe_lt (bytes : List UInt8) : ofLe bytes < 256 ^ bytes.length := by
  have h := ofBe_lt bytes.reverse
  rwa [List.length_reverse] at h

theorem le_ofLe (bytes : List UInt8) : le bytes.length (ofLe bytes) = bytes := by
  have h := be_ofBe bytes.reverse
  rw [List.length_reverse] at h
  rw [le, ofLe, h, List.reverse_reverse]

end LittleEndian
