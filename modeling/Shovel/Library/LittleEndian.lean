import Mathlib.Data.List.Basic
import Mathlib.Algebra.Group.Nat.Defs

/-!
# Little-endian numbers

`encode width n` is the low `width` bytes of `n`, least significant byte first,
and `decode` reads a byte string back. `decode_encode` is the round trip for
numbers that fit.
-/

namespace LittleEndian

/-- The low `width` bytes of a number, least significant first. -/
def encode : Nat → Nat → List UInt8
  | 0, _ => []
  | width + 1, n => UInt8.ofNat n :: encode width (n / 256)

/-- The number a byte string spells, least significant byte first. -/
def decode : List UInt8 → Nat
  | [] => 0
  | byte :: rest => byte.toNat + 256 * decode rest

@[simp] theorem length_encode (width n : Nat) : (encode width n).length = width := by
  induction width generalizing n with
  | zero => rfl
  | succ width ih => simp [encode, ih]

theorem drop_encode {width k : Nat} (n : Nat) (h : width ≤ k) : (encode width n).drop k = [] :=
  List.drop_eq_nil_of_le (by simpa using h)

/-- A byte string of `k` bytes spells a number below `256 ^ k`. -/
theorem decode_lt (bytes : List UInt8) : decode bytes < 256 ^ bytes.length := by
  induction bytes with
  | nil => simp [decode]
  | cons byte rest ih =>
      have hbyte := byte.toNat_lt
      simp only [decode, List.length_cons, Nat.pow_succ]
      omega

/-- Decoding recovers every number that fits into the width. -/
theorem decode_encode (width n : Nat) (h : n < 256 ^ width) :
    decode (encode width n) = n := by
  induction width generalizing n with
  | zero =>
      simp only [Nat.pow_zero] at h
      simp [encode, decode]
      omega
  | succ width ih =>
      have hrest : n / 256 < 256 ^ width := by
        rw [Nat.pow_succ] at h
        exact Nat.div_lt_of_lt_mul (by omega)
      simp only [encode, decode, ih _ hrest, UInt8.toNat_ofNat']
      omega

end LittleEndian
