import NanoChrono.Buffer.Fields

/-! # The bits of a byte string

Bit `k` of a byte string is bit `k % 8` of byte `k / 8`; past its end there is nothing. The little-endian
value of the string has the same bits (`testBit_leValue`). -/

namespace NanoChrono.Hash

open Buffer

/-- Bit `k` of a byte string, nothing past its end. -/
def bitOf (l : List UInt8) (k : Nat) : Bool := (l[k / 8]?.map fun b => b.toBitVec.getLsbD (k % 8)).getD false

@[simp] theorem bitOf_nil (k : Nat) : bitOf [] k = false := rfl

theorem bitOf_cons_low (b : UInt8) (l : List UInt8) {k : Nat} (h : k < 8) :
    bitOf (b :: l) k = b.toBitVec.getLsbD k := by
  rw [bitOf, Nat.div_eq_of_lt h, Nat.mod_eq_of_lt h]
  rfl

theorem bitOf_cons_high (b : UInt8) (l : List UInt8) {k : Nat} (h : 8 ≤ k) :
    bitOf (b :: l) k = bitOf l (k - 8) := by
  rw [bitOf, bitOf, show k / 8 = (k - 8) / 8 + 1 by omega, show (k - 8) % 8 = k % 8 by omega]
  rfl

/-- The bits of a part. -/
theorem bitOf_slice (l : List UInt8) (pos n : Nat) {k : Nat} (h : k < 8 * n) :
    bitOf (slice l pos n) k = bitOf l (8 * pos + k) := by
  rw [bitOf, bitOf, getElem?_slice, if_pos (by omega), show (8 * pos + k) / 8 = pos + k / 8 by omega,
    show (8 * pos + k) % 8 = k % 8 by omega]

/-- The little-endian value has the string's bits. -/
theorem testBit_leValue (l : List UInt8) (k : Nat) : (leValue l).testBit k = bitOf l k := by
  induction l generalizing k with
  | nil => simp [leValue]
  | cons b l ih =>
    have hb : b.toNat < 2 ^ 8 := b.toNat_lt
    rw [leValue, Nat.add_comm, show (256 : Nat) = 2 ^ 8 from rfl]
    by_cases h : k < 8
    · rw [Nat.testBit_two_pow_mul_add _ hb, if_pos h, bitOf_cons_low b l h]
      rfl
    · rw [Nat.testBit_two_pow_mul_add _ hb, if_neg h, ih, bitOf_cons_high b l (by omega)]

end NanoChrono.Hash
