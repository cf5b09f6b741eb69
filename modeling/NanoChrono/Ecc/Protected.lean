import NanoChrono.Ecc.Decode

/-! # A word with two replicas

A protected word keeps its check byte and two replicas, each with a check byte of its own. A flip in
the word is repaired from its code; two are detected, and then the replicas vote, each with the value
its own code stands behind. Up to two flips in the word and one in each replica the stored value is
read back and, once repaired, the state is that of a word just stored (`survives`). -/

namespace NanoChrono.Ecc

/-! ## The container -/

/-- One replica: a value and its own code. -/
structure Replica where
  value : BitVec 64
  check : BitVec 8
deriving DecidableEq, Repr

/-- The outcome of an integrity check. -/
inductive Integrity where
  | clean
  /-- A flip repaired from the syndrome, at the position of the codeword. -/
  | correctedByEcc (bit : Nat)
  /-- The code could not repair it and a majority agreed; how many copies disagreed. -/
  | correctedByTmr (outvoted : Nat)
  | unrecoverable
deriving DecidableEq, Repr

namespace Integrity

/-- How bad an outcome is: by what it says about the hardware, not by whether the value survived. -/
def severity : Integrity → Nat
  | clean => 0
  | correctedByEcc _ => 1
  | correctedByTmr _ => 2
  | unrecoverable => 3

/-- The worse of two outcomes. -/
def max (self other : Integrity) : Integrity := if other.severity > self.severity then other else self

def isUsable : Integrity → Bool
  | unrecoverable => false
  | _ => true

def wasRepaired : Integrity → Bool
  | correctedByEcc _ => true
  | correctedByTmr _ => true
  | _ => false

end Integrity

namespace Replica

def new (value : BitVec 64) : Replica := ⟨value, checkBits value⟩

/-- The value the copy stands behind, or `none` when it is too damaged to speak for itself. -/
def candidate (r : Replica) : Option (BitVec 64) :=
  match decode r.value r.check with
  | .clean => some r.value
  | .corrected data _ => some data
  | .doubleError => none

end Replica

/-- A word with its code and two spare copies. -/
structure Protected where
  value : BitVec 64
  check : BitVec 8
  replicas : Replica × Replica
deriving DecidableEq, Repr

namespace Protected

def new (value : BitVec 64) : Protected :=
  ⟨value, checkBits value, (Replica.new value, Replica.new value)⟩

/-- The majority value of the copies that satisfy their own code; the word itself has no ballot. -/
def vote (p : Protected) : BitVec 64 × Integrity :=
  let ballots := [none, p.replicas.1.candidate, p.replicas.2.candidate]
  let agreeing := fun candidate => ballots.countP (· == some candidate)
  match (ballots.filterMap id).find? fun candidate => 2 ≤ agreeing candidate with
  | some candidate => (candidate, .correctedByTmr (3 - agreeing candidate))
  | none => (p.value, .unrecoverable)

/-- Reads with verification, without touching what is stored. -/
def getChecked (p : Protected) : BitVec 64 × Integrity :=
  match decode p.value p.check with
  | .clean => (p.value, .clean)
  | .corrected data bit => (data, .correctedByEcc bit)
  | .doubleError => p.vote

/-- Reads without checking. -/
def get (p : Protected) : BitVec 64 := p.value

/-- Replaces the value and regenerates the code and the replicas. -/
def set (_ : Protected) (value : BitVec 64) : Protected :=
  { value, check := checkBits value, replicas := (Replica.new value, Replica.new value) }

/-- Writes the winner of the vote back. -/
def repairByVote (p : Protected) : Protected × Integrity :=
  let (value, outcome) := p.vote
  if outcome.isUsable then
    ({ value, check := checkBits value, replicas := (Replica.new value, Replica.new value) }, outcome)
  else (p, outcome)

/-- Verifies, repairing in place if it can: the code first, then the replicas. -/
def verify (p : Protected) : Protected × Integrity :=
  match decode p.value p.check with
  | .clean => (p, .clean)
  | .corrected data bit =>
    ({ value := data, check := checkBits data, replicas := (Replica.new data, Replica.new data) },
      .correctedByEcc bit)
  | .doubleError => p.repairByVote

def getVerified (p : Protected) : BitVec 64 × Integrity :=
  let (p', integrity) := p.verify
  (p'.value, integrity)

@[simp] theorem set_eq (p : Protected) (value : BitVec 64) : p.set value = new value := rfl

end Protected

/-! ## Decoding a codeword with at most one flip -/

theorem decode_of_none {value data : BitVec 64} {stored : BitVec 8}
    (h : distance value data stored = 0) : data = value ∧ decode data stored = .clean := by
  rw [distance, Nat.add_eq_zero_iff] at h
  obtain rfl : data = value := BitVec.xor_eq_zero_iff.1 (eq_zero_of_weight h.1)
  obtain rfl : stored = checkBits data := BitVec.xor_eq_zero_iff.1 (eq_zero_of_weight h.2)
  exact ⟨rfl, decode_clean (syndrome_checkBits data) (overallDiffers_checkBits data)⟩

/-- A flip of a data bit is undone. -/
theorem decode_flipped_data {i : Nat} (hi : i < 64) (value : BitVec 64) :
    decode (value ^^^ bit 64 i) (checkBits value) = .corrected value i := by
  have hs := syndrome_xor value (bit 64 i) (checkBits value) 0#8
  have ho := overallDiffers_xor value (bit 64 i) (checkBits value) 0#8
  rw [BitVec.xor_zero, syndrome_checkBits, BitVec.zero_xor, BitVec.zero_and, BitVec.xor_zero,
    hammingParities_bit hi] at hs
  rw [BitVec.xor_zero, overallDiffers_checkBits, odd_bit hi] at ho
  obtain ⟨hle, -, hindex⟩ := dataPosition_facts i hi
  have hposition : (syndrome (value ^^^ bit 64 i) (checkBits value)).toNat = dataPosition i := by
    rw [hs, BitVec.toNat_ofNat, Nat.mod_eq_of_lt (by omega)]
  rw [decode_data ho (by rw [hposition]; exact hindex), BitVec.xor_assoc, BitVec.xor_self,
    BitVec.xor_zero]

/-- A flip of a check bit leaves the data. -/
theorem decode_flipped_check {j : Nat} (hj : j < 8) (value : BitVec 64) :
    ∃ b, decode value (checkBits value ^^^ bit 8 j) = .corrected value b := by
  have hs := syndrome_xor value 0#64 (checkBits value) (bit 8 j)
  have ho := overallDiffers_xor value 0#64 (checkBits value) (bit 8 j)
  rw [BitVec.xor_zero, syndrome_checkBits, BitVec.zero_xor,
    show hammingParities 0#64 = 0#8 by decide, BitVec.zero_xor, bit_and,
    getLsbD_parities j hj] at hs
  rw [BitVec.xor_zero, overallDiffers_checkBits, odd_bit hj] at ho
  by_cases h7 : j < 7
  · rw [decide_eq_true h7, if_pos rfl] at hs
    have hne : syndrome value (checkBits value ^^^ bit 8 j) ≠ 0#8 := by
      rw [hs]
      intro hzero
      have hone : weight (bit 8 j) = 1 := weight_bit hj
      rw [hzero, weight_zero] at hone
      omega
    have hlt := syndrome_lt value (checkBits value ^^^ bit 8 j)
    cases hindex : positionToDataIndex (syndrome value (checkBits value ^^^ bit 8 j)).toNat with
    | none => exact ⟨_, decode_parity hne ho hindex⟩
    | some index =>
      -- a data bit's position is no power of two
      obtain ⟨hi, hposition⟩ := positionToDataIndex_some _ hlt index hindex
      have hparity := (dataPosition_facts index hi).2.1
      rw [hposition] at hparity
      have hweight := weight_parity_position _ hlt hparity
      rw [BitVec.ofNat_toNat, BitVec.setWidth_eq, hs] at hweight
      exact absurd (weight_bit hj) hweight
  · rw [decide_eq_false h7, if_neg Bool.false_ne_true] at hs
    exact ⟨72, decode_overall hs ho⟩

/-- One flip is repaired, wherever it is. -/
theorem decode_of_one {value data : BitVec 64} {stored : BitVec 8}
    (h : distance value data stored = 1) : ∃ b, decode data stored = .corrected value b := by
  rw [distance] at h
  have hcases : (weight (data ^^^ value) = 1 ∧ weight (stored ^^^ checkBits value) = 0) ∨
      (weight (data ^^^ value) = 0 ∧ weight (stored ^^^ checkBits value) = 1) := by omega
  have hself : ∀ {w : Nat} (x y : BitVec w), x = y ^^^ (x ^^^ y) := fun x y => by
    rw [BitVec.xor_comm x, ← BitVec.xor_assoc, BitVec.xor_self, BitVec.zero_xor]
  rcases hcases with ⟨hdata, hcheck⟩ | ⟨hdata, hcheck⟩
  · obtain ⟨i, hi, hflip⟩ := eq_bit_of_weight hdata
    rw [hself data value, hflip, BitVec.xor_eq_zero_iff.1 (eq_zero_of_weight hcheck)]
    exact ⟨i, decode_flipped_data hi value⟩
  · obtain ⟨j, hj, hflip⟩ := eq_bit_of_weight hcheck
    rw [hself stored (checkBits value), hflip, BitVec.xor_eq_zero_iff.1 (eq_zero_of_weight hdata)]
    exact decode_flipped_check hj value

/-! ## The damage a protected word survives -/

/-- A replica with at most one flip stands behind its value. -/
theorem candidate_eq {value : BitVec 64} {r : Replica} (h : distance value r.value r.check ≤ 1) :
    r.candidate = some value := by
  rw [Replica.candidate]
  by_cases hzero : distance value r.value r.check = 0
  · obtain ⟨rfl, hdecode⟩ := decode_of_none hzero
    rw [hdecode]
  · obtain ⟨b, hdecode⟩ := decode_of_one (show distance value r.value r.check = 1 by omega)
    rw [hdecode]

namespace Protected

/-- At most two flips in the word and its check byte, and at most one in each replica. -/
structure Damaged (value : BitVec 64) (p : Protected) : Prop where
  primary : distance value p.value p.check ≤ 2
  first : distance value p.replicas.1.value p.replicas.1.check ≤ 1
  second : distance value p.replicas.2.value p.replicas.2.check ≤ 1

/-- Two replicas that agree outvote the word. -/
theorem vote_eq {value : BitVec 64} {p : Protected} (h : Damaged value p) :
    p.vote = (value, .correctedByTmr 1) := by
  rw [vote, candidate_eq h.first, candidate_eq h.second]
  simp

/-- The word itself has none, one or two flips. -/
theorem Damaged.flips {value : BitVec 64} {p : Protected} (h : Damaged value p) :
    distance value p.value p.check = 0 ∨ distance value p.value p.check = 1 ∨
      distance value p.value p.check = 2 := by
  have := h.primary
  omega

/-- A checked read of a damaged word gives its value. -/
theorem getChecked_of_damaged {value : BitVec 64} {p : Protected} (h : Damaged value p) :
    p.getChecked.1 = value ∧ p.getChecked.2.isUsable := by
  rw [getChecked]
  rcases h.flips with hflips | hflips | hflips
  · obtain ⟨hvalue, hdecode⟩ := decode_of_none hflips
    rw [hdecode]
    exact ⟨hvalue, rfl⟩
  · obtain ⟨b, hdecode⟩ := decode_of_one hflips
    rw [hdecode]
    exact ⟨rfl, rfl⟩
  · rw [decode_of_two hflips]
    simp [vote_eq h, Integrity.isUsable]

/-- A repair leaves a whole word as it is, and stores a flipped one anew. -/
theorem verify_of_damaged {value : BitVec 64} {p : Protected} (h : Damaged value p) :
    (distance value p.value p.check = 0 ∧ p.value = value ∧ p.verify = (p, .clean)) ∨
      (distance value p.value p.check ≠ 0 ∧
        ∃ i, p.verify = (new value, i) ∧ i.isUsable ∧ i.wasRepaired) := by
  rw [verify]
  rcases h.flips with hflips | hflips | hflips
  · obtain ⟨hvalue, hdecode⟩ := decode_of_none hflips
    rw [hdecode]
    exact .inl ⟨hflips, hvalue, rfl⟩
  · obtain ⟨b, hdecode⟩ := decode_of_one hflips
    rw [hdecode]
    exact .inr ⟨by omega, _, rfl, rfl, rfl⟩
  · rw [decode_of_two hflips]
    refine .inr ⟨by omega, .correctedByTmr 1, ?_, rfl, rfl⟩
    simp [repairByVote, vote_eq h, Integrity.isUsable, new]

/-- What is stored after a repair is the value. -/
theorem verify_value {value : BitVec 64} {p : Protected} (h : Damaged value p) : p.verify.1.value = value := by
  obtain ⟨-, hvalue, hverify⟩ | ⟨-, i, hverify, -⟩ := verify_of_damaged h
  · rw [hverify, hvalue]
  · rw [hverify, new]

/-- Up to two flips of the word and one of each replica, a checked read and a repair both give the
stored value; a repair leaves the state of a word just stored; and none is reported on a word that
has no flip. -/
theorem survives {value : BitVec 64} {p : Protected} (h : Damaged value p) :
    (p.getChecked.1 = value ∧ p.getChecked.2.isUsable) ∧
    (p.verify.1.value = value ∧ p.verify.2.isUsable) ∧ p.getVerified.1 = value ∧
    (p.verify.2.wasRepaired ↔ distance value p.value p.check ≠ 0) ∧
    (p.verify.2.wasRepaired → p.verify.1 = new value) := by
  refine ⟨getChecked_of_damaged h, ⟨verify_value h, ?_⟩, verify_value h, ?_, ?_⟩
  all_goals obtain ⟨hflips, -, hverify⟩ | ⟨hflips, i, hverify, husable, hrepaired⟩ := verify_of_damaged h
  all_goals rw [hverify]
  · rfl
  · exact husable
  · simp [hflips, Integrity.wasRepaired]
  · exact ⟨fun _ => hflips, fun _ => hrepaired⟩
  · exact fun h => nomatch h
  · exact fun _ => rfl

/-- A word just stored has no damage. -/
theorem damaged_new (value : BitVec 64) : Damaged value (new value) := by
  have hzero : distance value value (checkBits value) = 0 := by
    rw [distance, BitVec.xor_self, BitVec.xor_self, weight_zero, weight_zero]
  refine ⟨?_, ?_, ?_⟩
  · show distance value value (checkBits value) ≤ 2
    rw [hzero]
    exact Nat.zero_le 2
  · show distance value value (checkBits value) ≤ 1
    rw [hzero]
    exact Nat.zero_le 1
  · show distance value value (checkBits value) ≤ 1
    rw [hzero]
    exact Nat.zero_le 1

/-- A repair does no damage: it stores the word anew, or the word itself is whole and stays. -/
theorem damaged_verify {value : BitVec 64} {p : Protected} (h : Damaged value p) : Damaged value p.verify.1 := by
  obtain ⟨-, -, hverify⟩ | ⟨-, i, hverify, -⟩ := verify_of_damaged h
  · rw [hverify]
    exact h
  · rw [hverify]
    exact damaged_new value

/-- A damaged word is that of one value. -/
theorem damaged_unique {value value' : BitVec 64} {p : Protected} (h : Damaged value p) (h' : Damaged value' p) :
    value = value' :=
  (getChecked_of_damaged h).1.symm.trans (getChecked_of_damaged h').1

/-- Two flipped data bits, a flipped data bit in one replica and a flipped check bit in the other. -/
theorem survives_flips :
    (⟨5, checkBits 6, (⟨7, checkBits 6⟩, ⟨6, checkBits 6 ^^^ 1⟩)⟩ : Protected).getVerified.1 = 6 :=
  (survives ⟨by decide, by decide, by decide⟩).2.2.1

end Protected

end NanoChrono.Ecc
