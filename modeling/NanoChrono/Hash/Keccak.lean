import Mathlib.Tactic

/-! # Keccak-f[1600]

The permutation over 25 lanes of 64 bits, with the rotation of the lanes and their move fused in one
walk. FIPS 202 defines it on bits, as five step mappings (`Fips202`); on the bits of the lanes the two
are the same permutation (`bits_permute`). -/

namespace NanoChrono.Hash

namespace Keccak

/-- The state: lane `(x, y)` at `x + 5 y`. -/
abbrev Lanes := Fin 25 → UInt64

/-- Iota's round constants, one per round. -/
def ROUND_CONSTANTS : List UInt64 :=
  [ 0x0000000000000001, 0x0000000000008082, 0x800000000000808A, 0x8000000080008000,
    0x000000000000808B, 0x0000000080000001, 0x8000000080008081, 0x8000000000008009,
    0x000000000000008A, 0x0000000000000088, 0x0000000080008009, 0x000000008000000A,
    0x000000008000808B, 0x800000000000008B, 0x8000000000008089, 0x8000000000008003,
    0x8000000000008002, 0x8000000000000080, 0x000000000000800A, 0x800000008000000A,
    0x8000000080008081, 0x8000000000008080, 0x0000000080000001, 0x8000000080008008 ]

/-- Rho and pi fused: walking the lanes in `PI_LANES` order, lane `i` receives the previous lane rotated
by `RHO_OFFSETS[i]`. -/
def RHO_OFFSETS : List Nat :=
  [1, 3, 6, 10, 15, 21, 28, 36, 45, 55, 2, 14, 27, 41, 56, 8, 25, 43, 62, 18, 39, 61, 20, 44]

def PI_LANES : List (Fin 25) :=
  [10, 7, 11, 17, 18, 3, 5, 16, 8, 21, 24, 4, 15, 23, 19, 13, 12, 2, 20, 14, 22, 9, 6, 1]

def lane (x y : Fin 5) : Fin 25 := ⟨x.val + 5 * y.val, by omega⟩

/-- The column of a lane. -/
def col (i : Fin 25) : Fin 5 := ⟨i.val % 5, by omega⟩

/-- The row of a lane. -/
def row (i : Fin 25) : Fin 5 := ⟨i.val / 5, by omega⟩

def rotateLeft (v : UInt64) (n : Nat) : UInt64 := ⟨v.toBitVec.rotateLeft n⟩

/-- Theta: every lane absorbs the parity of two neighbouring columns. -/
def theta (a : Lanes) : Lanes :=
  let column (x : Fin 5) := a (lane x 0) ^^^ a (lane x 1) ^^^ a (lane x 2) ^^^ a (lane x 3) ^^^ a (lane x 4)
  fun i => a i ^^^ (column (col i + 4) ^^^ rotateLeft (column (col i + 1)) 1)

/-- The walk of rho and pi, with the lane carried along. -/
def rhoPiFrom : List (Fin 25 × Nat) → UInt64 → Lanes → Lanes
  | [], _, a => a
  | (i, r) :: walk, carried, a => rhoPiFrom walk (a i) (Function.update a i (rotateLeft carried r))

/-- Rho and pi: rotate each lane and move it to its new position. -/
def rhoPi (a : Lanes) : Lanes := rhoPiFrom (PI_LANES.zip RHO_OFFSETS) (a 1) a

/-- Chi: the only non-linear step, row by row. -/
def chi (a : Lanes) : Lanes :=
  fun i => a i ^^^ (~~~a (lane (col i + 1) (row i)) &&& a (lane (col i + 2) (row i)))

/-- Iota: break the symmetry between rounds. -/
def iota (rc : UInt64) (a : Lanes) : Lanes := Function.update a 0 (a 0 ^^^ rc)

/-- Keccak-f[1600]: 24 rounds over 25 lanes. -/
def permute (a : Lanes) : Lanes :=
  ROUND_CONSTANTS.foldl (fun a rc => iota rc (chi (rhoPi (theta a)))) a

/-- XORs a byte into the lanes at a byte offset. -/
def xorByte (a : Lanes) (pos : Nat) (byte : UInt8) : Lanes :=
  let i := Fin.ofNat 25 (pos / 8)
  Function.update a i (a i ^^^ byte.toUInt64 <<< UInt64.ofNat (8 * (pos % 8)))

/-- The byte of the lanes at a byte offset. -/
def byteAt (a : Lanes) (pos : Nat) : UInt8 :=
  (a (Fin.ofNat 25 (pos / 8)) >>> UInt64.ofNat (8 * (pos % 8))).toUInt8

end Keccak

/-! ## The standard -/

namespace Fips202

/-- The state array: the bits `A[x, y, z]`. -/
abbrev State := Fin 5 → Fin 5 → Fin 64 → Bool

/-- Bit `k` of the state's string, 64 bits a lane (3.1.2). -/
def bitAt (A : State) (k : Nat) : Bool :=
  A (Fin.ofNat 5 (k / 64)) (Fin.ofNat 5 (k / 64 / 5)) (Fin.ofNat 64 k)

/-- 3.2.1. -/
def theta (A : State) : State :=
  let C (x : Fin 5) (z : Fin 64) := A x 0 z ^^ A x 1 z ^^ A x 2 z ^^ A x 3 z ^^ A x 4 z
  let D (x : Fin 5) (z : Fin 64) := C (x - 1) z ^^ C (x + 1) (z - 1)
  fun x y z => A x y z ^^ D x z

/-- The lane that step `t` of rho treats. -/
@[grind =] def walk : Nat → Fin 5 × Fin 5
  | 0 => (1, 0)
  | t + 1 => ((walk t).2, 2 * (walk t).1 + 3 * (walk t).2)

/-- How far rho rotates a lane: `(t + 1) (t + 2) / 2` where step `t` treats it. -/
def offset (x y : Fin 5) : Nat :=
  ((List.range 24).find? fun t => walk t = (x, y)).elim 0 fun t => (t + 1) * (t + 2) / 2

/-- 3.2.2. -/
def rho (A : State) : State := fun x y z => A x y (z - Fin.ofNat 64 (offset x y))

/-- 3.2.3. -/
def pi (A : State) : State := fun x y z => A (x + 3 * y) x z

/-- 3.2.4. -/
def chi (A : State) : State := fun x y z => A x y z ^^ ((A (x + 1) y z ^^ true) && A (x + 2) y z)

/-- One step of the shift register behind the round constants. -/
def shift (R : List Bool) : List Bool :=
  let R := false :: R
  (List.range 8).map fun i => R.getD i false ^^ (R.getD 8 false && [0, 4, 5, 6].contains i)

/-- The bit `rc(t)` (3.2.5, algorithm 5). -/
def rc (t : Nat) : Bool :=
  (shift^[t % 255] [true, false, false, false, false, false, false, false]).getD 0 false

/-- The round constant's bit `z`. -/
def RC (ir : Nat) (z : Fin 64) : Bool := (List.range 7).any fun j => z.val = 2 ^ j - 1 && rc (j + 7 * ir)

/-- 3.2.5. -/
def iota (ir : Nat) (A : State) : State :=
  fun x y z => if x = 0 ∧ y = 0 then A x y z ^^ RC ir z else A x y z

/-- Keccak-f[1600]: 24 rounds of the five step mappings (3.3, 3.4). -/
def keccakF (A : State) : State :=
  (List.range 24).foldl (fun A ir => iota ir (chi (pi (rho (theta A))))) A

end Fips202

/-! ## The two are the same -/

namespace Keccak

/-- The bits of the lanes. -/
def bits (a : Lanes) : Fips202.State := fun x y z => (a (lane x y)).toBitVec.getLsbD z

@[simp] theorem col_lane (x y : Fin 5) : col (lane x y) = x := by
  apply Fin.ext
  simp only [col, lane]
  omega

@[simp] theorem row_lane (x y : Fin 5) : row (lane x y) = y := by
  apply Fin.ext
  simp only [row, lane]
  omega

/-- A rotated lane's bit is the bit as far below, cyclically. -/
theorem getLsbD_rotateLeft (v : UInt64) (n : Nat) (z : Fin 64) :
    (rotateLeft v n).toBitVec.getLsbD z = v.toBitVec.getLsbD (z - Fin.ofNat 64 n : Fin 64) := by
  have hval : (z - Fin.ofNat 64 n : Fin 64).val = (64 - n % 64 + z.val) % 64 := by
    rw [Fin.sub_def]
    rfl
  rw [hval]
  show (v.toBitVec.rotateLeft n).getLsbD z = _
  rw [BitVec.getLsbD_rotateLeft]
  by_cases h : z.val < n % 64
  · rw [decide_eq_true h, cond_true]
    congr 1
    omega
  · rw [decide_eq_false h, cond_false, decide_eq_true z.isLt, Bool.true_and]
    congr 1
    omega

theorem bits_theta (a : Lanes) : bits (theta a) = Fips202.theta (bits a) := by
  funext x y z
  have hfour : x + 4 = x - 1 := by revert x; decide
  simp only [bits, theta, Fips202.theta, col_lane, UInt64.toBitVec_xor, BitVec.getLsbD_xor,
    getLsbD_rotateLeft, hfour]
  rfl

theorem rotateLeft_zero (v : UInt64) : rotateLeft v 0 = v := by
  apply UInt64.toBitVec_inj.1
  apply BitVec.eq_of_getLsbD_eq
  intro i hi
  show (v.toBitVec.rotateLeft 0).getLsbD i = _
  rw [BitVec.getLsbD_rotateLeft]
  simp [hi]

/-- The walk brings every lane, rotated, to where pi puts it. -/
theorem rhoPi_lane (a : Lanes) (x y : Fin 5) :
    rhoPi a (lane x y) = rotateLeft (a (lane (x + 3 * y) x)) (Fips202.offset (x + 3 * y) x) := by
  by_cases h : x = 0 ∧ y = 0
  · obtain ⟨rfl, rfl⟩ := h
    exact (rotateLeft_zero (a 0)).symm
  · revert h
    fin_cases x <;> fin_cases y <;> intro h <;> first | rfl | exact absurd ⟨rfl, rfl⟩ h

theorem bits_rhoPi (a : Lanes) : bits (rhoPi a) = Fips202.pi (Fips202.rho (bits a)) := by
  funext x y z
  show (rhoPi a (lane x y)).toBitVec.getLsbD z = _
  rw [rhoPi_lane, getLsbD_rotateLeft]
  rfl

theorem bits_chi (a : Lanes) : bits (chi a) = Fips202.chi (bits a) := by
  funext x y z
  have hz : z.val < 64 := z.isLt
  simp only [bits, chi, Fips202.chi, col_lane, row_lane, UInt64.toBitVec_xor, UInt64.toBitVec_and,
    UInt64.toBitVec_not, BitVec.getLsbD_xor, BitVec.getLsbD_and, BitVec.getLsbD_not, decide_eq_true hz,
    Bool.true_and, Bool.xor_true]

theorem bits_iota (rc : UInt64) (ir : Nat) (hrc : ∀ z : Fin 64, rc.toBitVec.getLsbD z = Fips202.RC ir z)
    (a : Lanes) : bits (iota rc a) = Fips202.iota ir (bits a) := by
  funext x y z
  rw [Fips202.iota]
  by_cases h : x = 0 ∧ y = 0
  · obtain ⟨rfl, rfl⟩ := h
    rw [if_pos ⟨rfl, rfl⟩, ← hrc]
    show (Function.update a 0 (a 0 ^^^ rc) 0).toBitVec.getLsbD z = _
    rw [Function.update_self, UInt64.toBitVec_xor, BitVec.getLsbD_xor]
    rfl
  · rw [if_neg h]
    have hne : lane x y ≠ 0 := by
      intro h0
      have hval : x.val + 5 * y.val = 0 := congrArg Fin.val h0
      exact h ⟨Fin.ext (by simp; omega), Fin.ext (by simp; omega)⟩
    show (Function.update a 0 (a 0 ^^^ rc) (lane x y)).toBitVec.getLsbD z = _
    rw [Function.update_of_ne hne]
    rfl

/-- The bits that a round constant may have. -/
def constantMask : Nat := 0x800000008000808B

theorem constantMask_bits (z : Fin 64) : constantMask.testBit z = true → ∃ j < 7, z.val = 2 ^ j - 1 := by
  have hall : (List.range 64).all (fun z => !constantMask.testBit z ||
      (List.range 7).any fun j => Nat.beq z (2 ^ j - 1)) = true := by decide
  intro hz
  have hany := List.all_eq_true.1 hall z.val (List.mem_range.2 z.isLt)
  rw [hz, Bool.not_true, Bool.false_or, List.any_eq_true] at hany
  obtain ⟨j, hj, heq⟩ := hany
  exact ⟨j, List.mem_range.1 hj, Nat.eq_of_beq_eq_true heq⟩

/-- The round constants are the standard's, in those bits and in all others. -/
theorem round_constant_bits : ∀ ir < 24, (ROUND_CONSTANTS.getD ir 0).toNat &&& constantMask =
    (ROUND_CONSTANTS.getD ir 0).toNat ∧
      ∀ j < 7, (ROUND_CONSTANTS.getD ir 0).toNat.testBit (2 ^ j - 1) = Fips202.rc (j + 7 * ir) := by
  decide

theorem RC_eq {ir j : Nat} {z : Fin 64} (hj : j < 7) (hz : z.val = 2 ^ j - 1) :
    Fips202.RC ir z = Fips202.rc (j + 7 * ir) := by
  rw [Fips202.RC, Bool.eq_iff_iff, List.any_eq_true]
  constructor
  · rintro ⟨i, -, hi⟩
    rw [Bool.and_eq_true, decide_eq_true_iff] at hi
    obtain ⟨hi, hrc⟩ := hi
    have hpow : 2 ^ i = 2 ^ j := by
      have hi' := Nat.two_pow_pos i
      have hj' := Nat.two_pow_pos j
      omega
    rwa [Nat.pow_right_injective (Nat.le_refl 2) hpow] at hrc
  · exact fun hrc => ⟨j, List.mem_range.2 hj, by rw [hrc, decide_eq_true hz, Bool.and_self]⟩

/-- The round constants are the standard's. -/
theorem round_constants : ∀ ir < 24, ∀ z : Fin 64,
    (ROUND_CONSTANTS.getD ir 0).toBitVec.getLsbD z = Fips202.RC ir z := by
  intro ir hir z
  obtain ⟨hmask, hbits⟩ := round_constant_bits ir hir
  change (ROUND_CONSTANTS.getD ir 0).toNat.testBit z = _
  by_cases hposition : ∃ j < 7, z.val = 2 ^ j - 1
  · obtain ⟨j, hj, hz⟩ := hposition
    rw [RC_eq hj hz, ← hbits j hj, hz]
  · have hclear : constantMask.testBit z = false := by
      by_contra hset
      exact hposition (constantMask_bits z (by simpa using hset))
    have hnone : Fips202.RC ir z = false := by
      rw [Fips202.RC, List.any_eq_false]
      intro j hj
      rw [Bool.and_eq_true, decide_eq_true_iff]
      exact fun h => hposition ⟨j, List.mem_range.1 hj, h.1⟩
    rw [← hmask, Nat.testBit_and, hclear, Bool.and_false, hnone]

theorem ROUND_CONSTANTS_eq :
    ROUND_CONSTANTS = (List.range 24).map fun ir => ROUND_CONSTANTS.getD ir 0 := rfl

/-- The permutation is the standard's. -/
theorem bits_permute (a : Lanes) : bits (permute a) = Fips202.keccakF (bits a) := by
  have hrounds : ∀ (l : List Nat) (a : Lanes), (∀ ir ∈ l, ir < 24) →
      bits (l.foldl (fun a ir => iota (ROUND_CONSTANTS.getD ir 0) (chi (rhoPi (theta a)))) a) =
        l.foldl (fun A ir => Fips202.iota ir (Fips202.chi (Fips202.pi (Fips202.rho (Fips202.theta A)))))
          (bits a) := by
    intro l
    induction l with
    | nil => intro a _; rw [List.foldl_nil, List.foldl_nil]
    | cons ir l ih =>
      intro a hl
      rw [List.foldl_cons, List.foldl_cons, ih _ fun x hx => hl x (List.mem_cons_of_mem _ hx),
        bits_iota _ ir (round_constants ir (hl ir (List.mem_cons_self ..))), bits_chi, bits_rhoPi,
        bits_theta]
  rw [permute, ROUND_CONSTANTS_eq, List.foldl_map, Fips202.keccakF]
  exact hrounds (List.range 24) a fun ir hir => List.mem_range.1 hir

end Keccak

end NanoChrono.Hash
