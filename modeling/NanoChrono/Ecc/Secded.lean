import NanoChrono.Ecc.Weight

/-! # The Hamming code that corrects one flip and detects two

A 64-bit word is stored with eight check bits: seven Hamming parities and the parity of everything.
The codeword's positions are numbered from 1; powers of two hold the parities and the other 64
positions up to 71 the data bits in order, so the seven parities of a word with a flipped data bit
differ from the stored ones by just that bit's position. -/

namespace NanoChrono.Ecc

/-! ## Positions -/

/-- 71 positions: seven powers of two, and 64 for the data. -/
def CODEWORD_LEN : Nat := 71

/-- Whether a position is a power of two: it holds a parity. -/
def isParityPosition (position : Nat) : Bool := position != 0 && position &&& (position - 1) == 0

/-- The scan of `dataPosition`: `n` positions from `position` on, after `seen` data positions. -/
def dataPositionFrom (index : Nat) : Nat → Nat → Nat → Nat
  | 0, _, _ => 0
  | n + 1, position, seen =>
    if isParityPosition position then dataPositionFrom index n (position + 1) seen
    else if seen = index then position
    else dataPositionFrom index n (position + 1) (seen + 1)

/-- The codeword position of a data bit. -/
def dataPosition (index : Nat) : Nat := dataPositionFrom index CODEWORD_LEN 1 0

/-- The data bit at a codeword position, or `none` at a parity's. -/
def positionToDataIndex (position : Nat) : Option Nat :=
  if position = 0 ∨ position > CODEWORD_LEN ∨ isParityPosition position then none
  else some ((List.range' 1 (position - 1)).countP fun p => !isParityPosition p)

/-- The data bits that feed parity `k`. -/
def parityMask (k : Nat) : BitVec 64 :=
  (List.range 64).foldl
    (fun mask index => if dataPosition index &&& 1 <<< k ≠ 0 then mask ||| bit 64 index else mask) 0

/-! ## Encoding and decoding -/

/-- The seven Hamming parities, in bits 0 to 6. -/
def hammingParities (data : BitVec 64) : BitVec 8 :=
  (List.range 7).foldl
    (fun parity k => parity ||| BitVec.ofNat 8 (weight (data &&& parityMask k) % 2) <<< k) 0

/-- The seven parities and, in bit 7, the parity of the data and of them. -/
def checkBits (data : BitVec 64) : BitVec 8 :=
  let parity := hammingParities data
  let overall := (weight data + weight parity) % 2
  parity ||| BitVec.ofNat 8 overall <<< 7

/-- What a decode found. -/
inductive Decoded where
  | clean
  /-- Repaired: the corrected data and the position flipped. -/
  | corrected (data : BitVec 64) (bit : Nat)
  /-- Two or more bits flipped: detected, not correctable. -/
  | doubleError
deriving DecidableEq, Repr

/-- The parities of the data that differ from the stored ones. -/
def syndrome (data : BitVec 64) (stored : BitVec 8) : BitVec 8 :=
  hammingParities data ^^^ (stored &&& 0x7F)

/-- Whether the parity of the data and the stored parities is not the stored one. -/
def overallDiffers (data : BitVec 64) (stored : BitVec 8) : Bool :=
  BitVec.ofNat 8 ((weight data + weight (stored &&& 0x7F)) % 2) != stored >>> 7 &&& 1

def decode (data : BitVec 64) (stored : BitVec 8) : Decoded :=
  match (syndrome data stored).toNat, overallDiffers data stored with
  | 0, false => .clean
  | 0, true => .corrected data 72
  | position + 1, true =>
    match positionToDataIndex (position + 1) with
    | some index => .corrected (data ^^^ bit 64 index) index
    | none => .corrected data (64 + (position + 1))
  | _ + 1, false => .doubleError

/-! ## Facts about the positions -/

/-- Every data bit has a position of its own, which is no power of two. -/
theorem dataPosition_facts : ∀ i < 64, dataPosition i ≤ 71 ∧
    isParityPosition (dataPosition i) = false ∧
      positionToDataIndex (dataPosition i) = some i := by decide

theorem positionToDataIndex_some :
    ∀ p < 128, ∀ i ∈ positionToDataIndex p, i < 64 ∧ dataPosition i = p := by decide

/-- No data bit is at the parities' positions, and past the codeword's end. -/
theorem positionToDataIndex_none : ∀ p < 128, positionToDataIndex p = none →
    p = 0 ∨ 71 < p ∨ weight (BitVec.ofNat 8 p) = 1 := by decide

/-- A position past the codeword's end is no power of two. -/
theorem weight_past_end : ∀ p < 128, 71 < p → 2 ≤ weight (BitVec.ofNat 8 p) ∧
    positionToDataIndex p = none := by decide

theorem weight_parity_position : ∀ p < 128, isParityPosition p = false →
    weight (BitVec.ofNat 8 p) ≠ 1 := by decide

end NanoChrono.Ecc
