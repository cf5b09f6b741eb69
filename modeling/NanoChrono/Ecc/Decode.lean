import Mathlib.Data.Nat.Bitwise
import NanoChrono.Ecc.Secded

/-! # What a decode may promise

The check bits are linear: flipping bits of the data flips the parities of their positions, and a
word's parities and its stored check bits differ by the flips of both. So a decode sees of the
received 72 bits only the parities' difference and the overall parity's, and the distance to the
codeword of the word it answers is read off these two (`weight_difference`). -/

namespace NanoChrono.Ecc

/-! ## Words assembled bit by bit -/

/-- A loop that sets the bits a condition names leaves just these. -/
theorem getLsbD_foldl_bits {w : Nat} (c : Nat → Bool) {i : Nat} (hi : i < w) (n : Nat) :
    ((List.range n).foldl (fun acc k => acc ||| if c k then bit w k else 0#w) 0#w).getLsbD i =
      (decide (i < n) && c i) := by
  induction n with
  | zero => simp
  | succ n ih =>
    rw [List.range_succ, List.foldl_append, List.foldl_cons, List.foldl_nil, BitVec.getLsbD_or, ih]
    by_cases hin : i = n
    · subst hin
      cases c i <;> simp [getLsbD_bit, hi]
    · have hother : (if c n then bit w n else 0#w).getLsbD i = false := by
        split <;> simp [getLsbD_bit, hin]
      have : i < n + 1 ↔ i < n := by omega
      simp only [hother, this, Bool.or_false]

/-- The mask of parity `k` has the data bits whose position has bit `k`. -/
theorem getLsbD_parityMask (k : Nat) {i : Nat} (hi : i < 64) :
    (parityMask k).getLsbD i = (dataPosition i).testBit k := by
  have hstep : ∀ (mask : BitVec 64) (index : Nat),
      (if dataPosition index &&& 1 <<< k ≠ 0 then mask ||| bit 64 index else mask) =
        mask ||| (if (dataPosition index).testBit k then bit 64 index else 0#64) := by
    intro mask index
    rw [Nat.one_shiftLeft, Nat.and_two_pow]
    cases (dataPosition index).testBit k <;> simp
  have hbits := getLsbD_foldl_bits (fun index => (dataPosition index).testBit k) hi 64
  rw [decide_eq_true hi, Bool.true_and] at hbits
  rw [parityMask, ← hbits]
  simp only [hstep]
  rfl

/-! ## The Hamming parities -/

theorem shiftLeft_weight {w : Nat} (x : BitVec w) (k : Nat) :
    BitVec.ofNat 8 (weight x % 2) <<< k = if odd x then bit 8 k else 0#8 := by
  rcases Nat.mod_two_eq_zero_or_one (weight x) with h | h <;> simp [odd, h, bit]

/-- Bit `k` of the parities is the parity of the data under the mask `k`; bit 7 is not set. -/
theorem getLsbD_hammingParities (data : BitVec 64) {i : Nat} (hi : i < 8) :
    (hammingParities data).getLsbD i = (decide (i < 7) && odd (data &&& parityMask i)) := by
  rw [hammingParities]
  simp only [shiftLeft_weight]
  exact getLsbD_foldl_bits (fun k => odd (data &&& parityMask k)) hi 7

theorem hammingParities_xor (x y : BitVec 64) :
    hammingParities (x ^^^ y) = hammingParities x ^^^ hammingParities y := by
  apply BitVec.eq_of_getLsbD_eq
  intro i hi
  rw [BitVec.getLsbD_xor, getLsbD_hammingParities _ hi, getLsbD_hammingParities _ hi,
    getLsbD_hammingParities _ hi, xor_and, odd_xor]
  cases decide (i < 7) <;> simp

theorem bit_and {w i : Nat} (x : BitVec w) :
    bit w i &&& x = if x.getLsbD i then bit w i else 0#w := by
  apply BitVec.eq_of_getLsbD_eq
  intro j hj
  rw [BitVec.getLsbD_and, getLsbD_bit]
  by_cases h : j = i
  · subst h
    split <;> simp_all [getLsbD_bit]
  · split <;> simp [getLsbD_bit, h]

/-- A single data bit feeds the parities of its position. -/
theorem hammingParities_bit {i : Nat} (hi : i < 64) :
    hammingParities (bit 64 i) = BitVec.ofNat 8 (dataPosition i) := by
  obtain ⟨hle, -⟩ := dataPosition_facts i hi
  apply BitVec.eq_of_getLsbD_eq
  intro k hk
  rw [getLsbD_hammingParities _ hk, bit_and, getLsbD_parityMask k hi, BitVec.getLsbD_ofNat]
  by_cases h7 : k < 7
  · cases h : (dataPosition i).testBit k <;> simp [h7, hk, odd_bit hi]
    simp [odd]
  · -- no position reaches the eighth bit
    have : k = 7 := by omega
    subst this
    rw [Nat.testBit_lt_two_pow (by omega)]
    simp

/-- The mask `0x7F` keeps the parities of a check byte. -/
theorem getLsbD_parities : ∀ i < 8, (0x7F : BitVec 8).getLsbD i = decide (i < 7) := by decide

theorem hammingParities_and (data : BitVec 64) :
    hammingParities data &&& 0x7F = hammingParities data := by
  apply BitVec.eq_of_getLsbD_eq
  intro i hi
  rw [BitVec.getLsbD_and, getLsbD_parities i hi, getLsbD_hammingParities _ hi]
  cases decide (i < 7) <;> simp

/-! ## The overall parity -/

theorem weight_xor_of_disjoint {w : Nat} {x y : BitVec w} (h : x &&& y = 0#w) :
    weight (x ^^^ y) = weight x + weight y := by
  have hdisjoint : support x ∩ support y = ∅ := by
    ext i
    have hi := congrArg (fun z => z.getLsbD i) h
    simp only [BitVec.getLsbD_and, BitVec.getLsbD_zero, Bool.and_eq_false_iff] at hi
    simp only [Finset.mem_inter, mem_support, Finset.notMem_empty, iff_false, not_and,
      Bool.not_eq_true]
    intro hx
    exact hi.resolve_left (by rw [hx]; exact Bool.noConfusion)
  have := weight_xor x y
  rw [hdisjoint, Finset.card_empty] at this
  omega

/-- A check byte is its parities and its overall bit. -/
theorem byte_split (s : BitVec 8) :
    s = (s &&& 0x7F) ^^^ (if s.getLsbD 7 then bit 8 7 else 0#8) := by
  apply BitVec.eq_of_getLsbD_eq
  intro i hi
  rw [BitVec.getLsbD_xor, BitVec.getLsbD_and, getLsbD_parities i hi]
  by_cases h7 : i < 7
  · have : ¬ i = 7 := by omega
    split <;> simp [getLsbD_bit, h7, this]
  · have : i = 7 := by omega
    subst this
    cases h : s.getLsbD 7 <;> simp [getLsbD_bit]

theorem weight_byte (s : BitVec 8) : weight s = weight (s &&& 0x7F) + (s.getLsbD 7).toNat := by
  have hdisjoint : (s &&& 0x7F) &&& (if s.getLsbD 7 then bit 8 7 else 0#8) = 0#8 := by
    apply BitVec.eq_of_getLsbD_eq
    intro i hi
    rw [BitVec.getLsbD_and, BitVec.getLsbD_and, getLsbD_parities i hi]
    split
    · rw [getLsbD_bit]
      by_cases h7 : i = 7 <;> simp [h7]
    · simp
  conv_lhs => rw [byte_split s]
  rw [weight_xor_of_disjoint hdisjoint]
  cases s.getLsbD 7 <;> simp [weight_bit]

theorem odd_byte (s : BitVec 8) : odd s = (odd (s &&& 0x7F) ^^ s.getLsbD 7) := by
  rw [odd, odd, weight_byte]
  generalize weight (s &&& 0x7F) = n
  cases s.getLsbD 7 <;> rcases Nat.mod_two_eq_zero_or_one n with h | h <;> simp [Nat.add_mod, h]

theorem ofNat_weights {v w : Nat} (x : BitVec v) (y : BitVec w) :
    BitVec.ofNat 8 ((weight x + weight y) % 2) = if odd x ^^ odd y then 1#8 else 0#8 := by
  rw [odd, odd, Nat.add_mod]
  rcases Nat.mod_two_eq_zero_or_one (weight x) with hx | hx <;>
    rcases Nat.mod_two_eq_zero_or_one (weight y) with hy | hy <;> rw [hx, hy] <;> rfl

theorem checkBits_eq (data : BitVec 64) : checkBits data =
    hammingParities data ^^^ (if odd data ^^ odd (hammingParities data) then bit 8 7 else 0#8) := by
  have hsum : BitVec.ofNat 8 ((weight data + weight (hammingParities data)) % 2) <<< 7 =
      if odd data ^^ odd (hammingParities data) then bit 8 7 else 0#8 := by
    rw [ofNat_weights]
    split <;> rfl
  rw [checkBits, hsum]
  apply BitVec.eq_of_getLsbD_eq
  intro i hi
  rw [BitVec.getLsbD_or, BitVec.getLsbD_xor, getLsbD_hammingParities _ hi]
  by_cases h7 : i < 7
  · have : ¬ i = 7 := by omega
    split <;> simp [getLsbD_bit, this]
  · simp [h7]

@[simp] theorem checkBits_and (data : BitVec 64) : checkBits data &&& 0x7F = hammingParities data := by
  rw [checkBits_eq, xor_and, hammingParities_and]
  split
  · rw [bit_and, getLsbD_parities 7 (by omega)]
    simp
  · simp

@[simp] theorem checkBits_top (data : BitVec 64) :
    (checkBits data).getLsbD 7 = (odd data ^^ odd (hammingParities data)) := by
  rw [checkBits_eq, BitVec.getLsbD_xor, getLsbD_hammingParities _ (by omega)]
  cases odd data ^^ odd (hammingParities data) <;> simp [getLsbD_bit]

theorem overallDiffers_eq (data : BitVec 64) (stored : BitVec 8) :
    overallDiffers data stored = (odd data ^^ odd (stored &&& 0x7F) ^^ stored.getLsbD 7) := by
  have htop : stored >>> 7 &&& 1 = if stored.getLsbD 7 then 1#8 else 0#8 := by
    apply BitVec.eq_of_getLsbD_eq
    intro i hi
    rw [BitVec.getLsbD_and, BitVec.getLsbD_ushiftRight]
    by_cases h : i = 0
    · subst h
      cases stored.getLsbD 7 <;> simp
    · have hone : (1 : BitVec 8).getLsbD i = false := by
        rw [show (1 : BitVec 8) = bit 8 0 from rfl, getLsbD_bit]
        simp [h]
      rw [hone, Bool.and_false]
      split
      · exact hone.symm
      · simp
  rw [overallDiffers, htop, ofNat_weights]
  cases odd data <;> cases odd (stored &&& 0x7F) <;> cases stored.getLsbD 7 <;> rfl

/-! ## The difference from a word's own check bits -/

/-- What a received pair differs in from the codeword of its data: the parities of the syndrome,
and the overall bit. -/
theorem weight_difference (data : BitVec 64) (stored : BitVec 8) :
    weight (stored ^^^ checkBits data) = weight (syndrome data stored) +
      (overallDiffers data stored ^^ odd (syndrome data stored)).toNat := by
  have hlow : (stored ^^^ checkBits data) &&& 0x7F = syndrome data stored := by
    rw [xor_and, checkBits_and, syndrome, BitVec.xor_comm]
  have htop : (stored ^^^ checkBits data).getLsbD 7 =
      (overallDiffers data stored ^^ odd (syndrome data stored)) := by
    rw [BitVec.getLsbD_xor, checkBits_top, overallDiffers_eq, syndrome, odd_xor]
    cases stored.getLsbD 7 <;> cases odd data <;> cases odd (hammingParities data) <;>
      cases odd (stored &&& 0x7F) <;> rfl
  rw [weight_byte, hlow, htop]

/-- Flipping data bits and check bits changes the syndrome by the parities of the former and by
the latter. -/
theorem syndrome_xor (data flips : BitVec 64) (stored checkFlips : BitVec 8) :
    syndrome (data ^^^ flips) (stored ^^^ checkFlips) =
      syndrome data stored ^^^ (hammingParities flips ^^^ (checkFlips &&& 0x7F)) := by
  rw [syndrome, syndrome, hammingParities_xor, xor_and]
  apply BitVec.eq_of_getLsbD_eq
  intro i _
  simp only [BitVec.getLsbD_xor]
  cases (hammingParities data).getLsbD i <;> cases (hammingParities flips).getLsbD i <;>
    cases (stored &&& 0x7F).getLsbD i <;> simp

theorem overallDiffers_xor (data flips : BitVec 64) (stored checkFlips : BitVec 8) :
    overallDiffers (data ^^^ flips) (stored ^^^ checkFlips) =
      (overallDiffers data stored ^^ odd flips ^^ odd checkFlips) := by
  rw [overallDiffers_eq, overallDiffers_eq, odd_byte checkFlips, odd_xor, xor_and, odd_xor,
    BitVec.getLsbD_xor]
  cases odd data <;> cases odd flips <;> cases odd (stored &&& 0x7F) <;>
    cases odd (checkFlips &&& 0x7F) <;> cases stored.getLsbD 7 <;> simp

@[simp] theorem syndrome_checkBits (data : BitVec 64) : syndrome data (checkBits data) = 0#8 := by
  rw [syndrome, checkBits_and, BitVec.xor_self]

@[simp] theorem overallDiffers_checkBits (data : BitVec 64) :
    overallDiffers data (checkBits data) = false := by
  rw [overallDiffers_eq, checkBits_and, checkBits_top]
  cases odd data <;> cases odd (hammingParities data) <;> rfl

/-! ## Single flips and pairs -/

theorem dataPosition_injective {i j : Nat} (hi : i < 64) (hj : j < 64)
    (h : dataPosition i = dataPosition j) : i = j := by
  have hi' := (dataPosition_facts i hi).2.2
  rw [h, (dataPosition_facts j hj).2.2] at hi'
  exact (Option.some.inj hi').symm

theorem hammingParities_bit_ne_zero {i : Nat} (hi : i < 64) : hammingParities (bit 64 i) ≠ 0#8 := by
  intro h
  rw [hammingParities_bit hi] at h
  obtain ⟨hle, -, hindex⟩ := dataPosition_facts i hi
  have hzero : dataPosition i = 0 := by
    have := congrArg BitVec.toNat h
    simpa [Nat.mod_eq_of_lt (show dataPosition i < 256 by omega)] using this
  rw [hzero] at hindex
  simp [positionToDataIndex] at hindex

/-- A data bit feeds two parities at least. -/
theorem weight_hammingParities_bit {i : Nat} (hi : i < 64) :
    2 ≤ weight (hammingParities (bit 64 i)) := by
  have hzero := hammingParities_bit_ne_zero hi
  obtain ⟨hle, hpos, -⟩ := dataPosition_facts i hi
  have hone := weight_parity_position (dataPosition i) (by omega) hpos
  rw [← hammingParities_bit hi] at hone
  by_contra h
  have : weight (hammingParities (bit 64 i)) = 0 := by omega
  exact hzero (eq_zero_of_weight this)

/-- Two flips are never the difference of two codewords: some parity tells them. -/
theorem parities_of_two {flips : BitVec 64} {checkFlips : BitVec 8}
    (h : weight flips + weight checkFlips = 2) :
    hammingParities flips ^^^ (checkFlips &&& 0x7F) ≠ 0#8 := by
  intro hzero
  have heq : hammingParities flips = checkFlips &&& 0x7F := BitVec.xor_eq_zero_iff.1 hzero
  have hbyte := weight_byte checkFlips
  have hcases : weight flips = 0 ∨ weight flips = 1 ∨ weight flips = 2 := by omega
  rcases hcases with h0 | h1 | h2
  · -- both flips are in the check byte, and one of them at least is a parity's
    rw [eq_zero_of_weight h0, show hammingParities 0#64 = 0#8 by decide] at heq
    rw [← heq, weight_zero] at hbyte
    have := Bool.toNat_le (checkFlips.getLsbD 7)
    omega
  · obtain ⟨i, hi, rfl⟩ := eq_bit_of_weight h1
    have := weight_hammingParities_bit hi
    rw [heq] at this
    omega
  · obtain ⟨i, hi, j, hj, hij, rfl⟩ := eq_bits_of_weight h2
    rw [eq_zero_of_weight (show weight checkFlips = 0 by omega)] at heq
    rw [hammingParities_xor, BitVec.zero_and, BitVec.xor_eq_zero_iff, hammingParities_bit hi,
      hammingParities_bit hj] at heq
    have hi' := (dataPosition_facts i hi).1
    have hj' := (dataPosition_facts j hj).1
    have := congrArg BitVec.toNat heq
    simp only [BitVec.toNat_ofNat] at this
    rw [Nat.mod_eq_of_lt (by omega), Nat.mod_eq_of_lt (by omega)] at this
    exact hij (dataPosition_injective hi hj this)

/-! ## The decoder's cases -/

theorem decode_clean {data : BitVec 64} {stored : BitVec 8} (hs : syndrome data stored = 0#8)
    (ho : overallDiffers data stored = false) : decode data stored = .clean := by
  rw [decode, hs, ho]
  rfl

theorem decode_overall {data : BitVec 64} {stored : BitVec 8} (hs : syndrome data stored = 0#8)
    (ho : overallDiffers data stored = true) : decode data stored = .corrected data 72 := by
  rw [decode, hs, ho]
  rfl

theorem decode_double {data : BitVec 64} {stored : BitVec 8} (hs : syndrome data stored ≠ 0#8)
    (ho : overallDiffers data stored = false) : decode data stored = .doubleError := by
  have hne : (syndrome data stored).toNat ≠ 0 := fun h => hs (BitVec.eq_of_toNat_eq h)
  obtain ⟨p, hp⟩ := Nat.exists_eq_succ_of_ne_zero hne
  rw [decode, hp, ho]

theorem decode_data {data : BitVec 64} {stored : BitVec 8} {index : Nat}
    (ho : overallDiffers data stored = true)
    (hindex : positionToDataIndex (syndrome data stored).toNat = some index) :
    decode data stored = .corrected (data ^^^ bit 64 index) index := by
  have hne : (syndrome data stored).toNat ≠ 0 := fun h => by
    rw [h] at hindex
    simp [positionToDataIndex] at hindex
  obtain ⟨p, hp⟩ := Nat.exists_eq_succ_of_ne_zero hne
  rw [hp] at hindex
  rw [decode, hp, ho]
  simp only [hindex]

theorem decode_parity {data : BitVec 64} {stored : BitVec 8} (hs : syndrome data stored ≠ 0#8)
    (ho : overallDiffers data stored = true)
    (hindex : positionToDataIndex (syndrome data stored).toNat = none) :
    decode data stored = .corrected data (64 + (syndrome data stored).toNat) := by
  have hne : (syndrome data stored).toNat ≠ 0 := fun h => hs (BitVec.eq_of_toNat_eq h)
  obtain ⟨p, hp⟩ := Nat.exists_eq_succ_of_ne_zero hne
  rw [hp] at hindex
  rw [decode, hp, ho]
  simp only [hindex]

/-! ## The promise -/

/-- The bits in which a received pair differs from the codeword of a word. -/
def distance (value data : BitVec 64) (stored : BitVec 8) : Nat :=
  weight (data ^^^ value) + weight (stored ^^^ checkBits value)

/-- What decoding a received pair promises: a corrected word is one whose codeword is one flip
away, a clean pair is a codeword, and a pair two flips away from a codeword is refused. -/
structure Sound (data : BitVec 64) (stored : BitVec 8) : Prop where
  corrected : ∀ value b, decode data stored = .corrected value b → distance value data stored = 1
  clean : decode data stored = .clean → stored = checkBits data
  double : ∀ value, distance value data stored = 2 → decode data stored = .doubleError

/-- The data's own codeword is away by what the syndrome and the overall parity say. -/
theorem distance_self (data : BitVec 64) (stored : BitVec 8) :
    distance data data stored = weight (syndrome data stored) +
      (overallDiffers data stored ^^ odd (syndrome data stored)).toNat := by
  rw [distance, BitVec.xor_self, weight_zero, weight_difference, Nat.zero_add]

theorem syndrome_lt (data : BitVec 64) (stored : BitVec 8) : (syndrome data stored).toNat < 128 := by
  have hlow : syndrome data stored &&& 0x7F = syndrome data stored := by
    have hidem : (0x7F : BitVec 8) &&& 0x7F = 0x7F := BitVec.and_self
    rw [syndrome, xor_and, hammingParities_and, BitVec.and_assoc, hidem]
  have := congrArg BitVec.toNat hlow
  rw [BitVec.toNat_and, show (0x7F : BitVec 8).toNat = 2 ^ 7 - 1 from rfl,
    Nat.and_two_pow_sub_one_eq_mod] at this
  omega

theorem stored_of_clean {data : BitVec 64} {stored : BitVec 8} (hs : syndrome data stored = 0#8)
    (ho : overallDiffers data stored = false) : stored = checkBits data := by
  have h := weight_difference data stored
  rw [hs, ho, weight_zero] at h
  exact BitVec.xor_eq_zero_iff.1 (eq_zero_of_weight h)

/-- A flip at a data bit's position: the repaired pair is a codeword. -/
theorem distance_repaired {data : BitVec 64} {stored : BitVec 8} {i : Nat} (hi : i < 64)
    (hs : syndrome data stored = hammingParities (bit 64 i))
    (ho : overallDiffers data stored = true) : distance (data ^^^ bit 64 i) data stored = 1 := by
  have hflip := syndrome_xor data (bit 64 i) stored 0#8
  have hover := overallDiffers_xor data (bit 64 i) stored 0#8
  rw [BitVec.xor_zero, hs, BitVec.zero_and, BitVec.xor_zero, BitVec.xor_self] at hflip
  rw [BitVec.xor_zero, ho, odd_bit hi] at hover
  rw [distance, ← stored_of_clean hflip hover, BitVec.xor_self, weight_zero, ← BitVec.xor_assoc,
    BitVec.xor_self, BitVec.zero_xor, weight_bit hi]

/-- Two flips of a codeword are refused. -/
theorem decode_of_two {value data : BitVec 64} {stored : BitVec 8}
    (h : distance value data stored = 2) : decode data stored = .doubleError := by
  have hflips := @parities_of_two (data ^^^ value) (stored ^^^ checkBits value) h
  have hdata : data = value ^^^ (data ^^^ value) := by
    rw [BitVec.xor_comm data, ← BitVec.xor_assoc, BitVec.xor_self, BitVec.zero_xor]
  have hstored : stored = checkBits value ^^^ (stored ^^^ checkBits value) := by
    rw [BitVec.xor_comm stored, ← BitVec.xor_assoc, BitVec.xor_self, BitVec.zero_xor]
  have hs := syndrome_xor value (data ^^^ value) (checkBits value) (stored ^^^ checkBits value)
  have ho := overallDiffers_xor value (data ^^^ value) (checkBits value) (stored ^^^ checkBits value)
  rw [← hdata, ← hstored] at hs ho
  rw [syndrome_checkBits, BitVec.zero_xor] at hs
  -- an even number of flips leaves the overall parity
  have heven : (odd (data ^^^ value) ^^ odd (stored ^^^ checkBits value)) = false := by
    rw [distance] at h
    rw [odd, odd]
    have : weight (data ^^^ value) % 2 = weight (stored ^^^ checkBits value) % 2 := by omega
    rw [this, Bool.xor_self]
  rw [overallDiffers_checkBits, Bool.false_xor, heven] at ho
  exact decode_double (hs ▸ hflips) ho

/-- A decode keeps its promise when the syndrome is a position of the codeword or the overall
parity agrees, and only then. -/
theorem sound_iff_syndrome (data : BitVec 64) (stored : BitVec 8) : Sound data stored ↔
    ((syndrome data stored).toNat ≤ CODEWORD_LEN ∨ overallDiffers data stored = false) := by
  have hlt := syndrome_lt data stored
  constructor
  · intro h
    by_contra hnot
    obtain ⟨hpast, ho⟩ := not_or.1 hnot
    rw [Bool.not_eq_false] at ho
    obtain ⟨hweight, hindex⟩ := weight_past_end _ hlt (by rw [CODEWORD_LEN] at hpast; omega)
    rw [BitVec.ofNat_toNat, BitVec.setWidth_eq] at hweight
    have hs : syndrome data stored ≠ 0#8 := fun hs => by simp [hs] at hweight
    have := h.corrected _ _ (decode_parity hs ho hindex)
    rw [distance_self] at this
    omega
  · intro h
    by_cases hs : syndrome data stored = 0#8
    · cases ho : overallDiffers data stored with
      | false =>
        have hdecode := decode_clean hs ho
        refine ⟨fun value b hc => ?_, fun _ => stored_of_clean hs ho, fun _ => decode_of_two⟩
        rw [hdecode] at hc
        exact Decoded.noConfusion hc
      | true =>
        -- only the overall bit differs
        have hdecode := decode_overall hs ho
        refine ⟨fun value b hc => ?_, fun hc => ?_, fun _ => decode_of_two⟩
        · rw [hdecode] at hc
          obtain ⟨rfl, -⟩ := Decoded.corrected.inj hc
          rw [distance_self, hs, ho, weight_zero]
          rfl
        · rw [hdecode] at hc
          exact Decoded.noConfusion hc
    · cases ho : overallDiffers data stored with
      | false =>
        have hdecode := decode_double hs ho
        refine ⟨fun value b hc => ?_, fun hc => ?_, fun _ => decode_of_two⟩ <;>
          exact Decoded.noConfusion (hdecode.symm.trans hc)
      | true =>
        have hle := h.resolve_right (by simp [ho])
        cases hindex : positionToDataIndex (syndrome data stored).toNat with
        | some index =>
          have hdecode := decode_data ho hindex
          refine ⟨fun value b hc => ?_, fun hc => ?_, fun _ => decode_of_two⟩
          · obtain ⟨rfl, -⟩ := Decoded.corrected.inj (hdecode.symm.trans hc)
            obtain ⟨hi, hposition⟩ := positionToDataIndex_some _ hlt index hindex
            refine distance_repaired hi ?_ ho
            rw [hammingParities_bit hi, hposition, BitVec.ofNat_toNat, BitVec.setWidth_eq]
          · exact Decoded.noConfusion (hdecode.symm.trans hc)
        | none =>
          have hdecode := decode_parity hs ho hindex
          refine ⟨fun value b hc => ?_, fun hc => ?_, fun _ => decode_of_two⟩
          · obtain ⟨rfl, -⟩ := Decoded.corrected.inj (hdecode.symm.trans hc)
            -- a power of two: the one parity bit that differs
            rcases positionToDataIndex_none _ hlt hindex with hzero | hpast | hone
            · exact absurd (BitVec.eq_of_toNat_eq hzero) hs
            · rw [CODEWORD_LEN] at hle
              omega
            · rw [BitVec.ofNat_toNat, BitVec.setWidth_eq] at hone
              rw [distance_self, hone, ho, odd, hone]
              rfl
          · exact Decoded.noConfusion (hdecode.symm.trans hc)

/-- A decode keeps its promise on just the received pairs with an even number of set bits and those
whose parities differ from the stored ones by a position of the codeword. Past the last position an
odd number of flips, three at least, is answered as the flip of a parity bit. -/
theorem decode_sound_iff (data : BitVec 64) (stored : BitVec 8) : Sound data stored ↔
    ((hammingParities data ^^^ (stored &&& 0x7F)).toNat ≤ CODEWORD_LEN ∨
      (weight data + weight stored) % 2 = 0) := by
  have hparity : overallDiffers data stored = false ↔ (weight data + weight stored) % 2 = 0 := by
    rw [overallDiffers_eq, Bool.xor_assoc, ← odd_byte, odd, odd, Nat.add_mod]
    rcases Nat.mod_two_eq_zero_or_one (weight data) with hx | hx <;>
      rcases Nat.mod_two_eq_zero_or_one (weight stored) with hy | hy <;> simp [hx, hy]
  rw [sound_iff_syndrome, hparity, syndrome]

/-- Three flipped parity bits whose positions add up past the codeword's end: the pair is answered
as corrected, with the data as received and a bit that no word has. -/
theorem past_end_corrected :
    decode 0 0x49 = .corrected 0 137 ∧ distance 0 0 0x49 = 3 ∧ ¬ Sound 0 0x49 := by
  have hdecode : decode 0 0x49 = .corrected 0 137 := by decide
  have hdistance : distance 0 0 0x49 = 3 := by decide
  refine ⟨hdecode, hdistance, fun h => ?_⟩
  have := h.corrected 0 137 hdecode
  omega

end NanoChrono.Ecc
