import Mathlib.Tactic.Linarith
import NanoChrono.Buffer.Fields

/-! # The checksums of a PNG

CRC-32 over each chunk and Adler-32 over the inflated data. The decoder divides a byte at a time by
a table, and reduces the sums of the other only once for many bytes; the standards divide a bit and
reduce at every byte. Both come to the same, and the sums stay in 32 bits meanwhile
(`checksums_as_specified`). Data that differ in at most 32 bits in a row do not have the same CRC
(`crcOf_burst`). -/

namespace NanoChrono.Png

abbrev Bytes := List UInt8

/-! ## CRC-32 -/

/-- One step of the division, by the polynomial of ISO 3309 with its bits reversed. -/
def crcBit (c : BitVec 32) : BitVec 32 :=
  if c.getLsbD 0 then 0xEDB88320#32 ^^^ (c >>> 1) else c >>> 1

/-- So many steps. -/
@[grind =] def crcBits : (n : Nat) → BitVec 32 → BitVec 32
  | 0, c => c
  | n + 1, c => crcBits n (crcBit c)

/-- What a byte divides to. -/
def CRC_TABLE : Vector (BitVec 32) 256 := Vector.ofFn fun n => crcBits 8 (BitVec.ofNat 32 n)

/-- A byte, as a word. -/
def word (b : UInt8) : BitVec 32 := b.toBitVec.setWidth 32

theorem low_lt (c : BitVec 32) : (c &&& 0xFF#32).toNat < 256 := by
  rw [BitVec.toNat_and]
  exact Nat.lt_of_le_of_lt Nat.and_le_right (by decide)

/-- One byte, by the table. -/
def crcByte (c : BitVec 32) (b : UInt8) : BitVec 32 :=
  CRC_TABLE.get ⟨((c ^^^ word b) &&& 0xFF#32).toNat, low_lt _⟩ ^^^ (c >>> 8)

/-- The CRC of several parts in a row. -/
def crc32 (parts : List Bytes) : BitVec 32 :=
  parts.foldl (fun c p => p.foldl crcByte c) 0xFFFFFFFF#32 ^^^ 0xFFFFFFFF#32

theorem crc_table_get (i : Fin 256) : CRC_TABLE.get i = crcBits 8 (BitVec.ofNat 32 i) :=
  Vector.getElem_ofFn i.isLt

/-! ## The CRC of a stream of bits -/

/-- The bits of some bytes, each byte's lowest first. -/
def bitsOf (data : Bytes) : List Bool :=
  data.flatMap fun b => (List.range 8).map b.toBitVec.getLsbD

/-- One bit as a word. -/
def bitWord (b : Bool) : BitVec 32 := (BitVec.ofBool b).setWidth 32

/-- The remainder after some bits, each divided in turn. -/
def remainder (c : BitVec 32) (bits : List Bool) : BitVec 32 :=
  bits.foldl (fun c b => crcBit (c ^^^ bitWord b)) c

/-- The CRC of ISO 3309. -/
def crcOf (bits : List Bool) : BitVec 32 := remainder 0xFFFFFFFF#32 bits ^^^ 0xFFFFFFFF#32

theorem crcBit_eq (c : BitVec 32) :
    crcBit c = (c >>> 1) ^^^ if c.getLsbD 0 then 0xEDB88320#32 else 0#32 := by
  rw [crcBit]
  split
  · rw [BitVec.xor_comm]
  · rw [BitVec.xor_zero]

theorem crcBit_xor (x y : BitVec 32) : crcBit (x ^^^ y) = crcBit x ^^^ crcBit y := by
  have hbits : (if (x.getLsbD 0 ^^ y.getLsbD 0) = true then 0xEDB88320#32 else 0#32) =
      (if x.getLsbD 0 then 0xEDB88320#32 else 0#32) ^^^ if y.getLsbD 0 then 0xEDB88320#32 else 0#32 := by
    cases x.getLsbD 0 <;> cases y.getLsbD 0 <;> rfl
  rw [crcBit_eq, crcBit_eq, crcBit_eq, BitVec.getLsbD_xor, BitVec.ushiftRight_xor_distrib, hbits]
  ac_rfl

theorem crcBits_xor (n : Nat) (x y : BitVec 32) : crcBits n (x ^^^ y) = crcBits n x ^^^ crcBits n y := by
  induction n generalizing x y with
  | zero => rfl
  | succ n ih => rw [crcBits, crcBits, crcBits, crcBit_xor, ih]

/-- A step loses nothing: the polynomial has the highest bit, which a shift leaves clear. -/
theorem crcBit_injective : Function.Injective crcBit := by
  have hzero : ∀ z, crcBit z = 0#32 → z = 0#32 := fun z hz => by
    rw [crcBit_eq] at hz
    have hhigh := congrArg (fun w : BitVec 32 => w.getLsbD 31) hz
    have hlow : z.getLsbD 0 = false := by
      cases hbit : z.getLsbD 0 with
      | false => rfl
      | true => simp [hbit] at hhigh
    rw [hlow, if_neg Bool.false_ne_true, BitVec.xor_zero] at hz
    apply BitVec.eq_of_getLsbD_eq
    intro i _
    rw [BitVec.getLsbD_zero]
    cases i with
    | zero => exact hlow
    | succ i =>
      have hi := congrArg (fun w : BitVec 32 => w.getLsbD i) hz
      simpa [Nat.add_comm] using hi
  intro x y hxy
  have hsum : crcBit (x ^^^ y) = 0#32 := by rw [crcBit_xor, hxy, BitVec.xor_self]
  exact BitVec.xor_eq_zero_iff.mp (hzero _ hsum)

theorem crcBits_injective (n : Nat) : Function.Injective (crcBits n) := by
  induction n with
  | zero => exact fun _ _ h => h
  | succ n ih => exact fun _ _ h => crcBit_injective (ih h)

/-- The word of at most 32 bits, the first one lowest. -/
def wordOf (bits : List Bool) : BitVec 32 := (BitVec.ofBoolListLE bits).setWidth 32

theorem getLsbD_wordOf (bits : List Bool) {i : Nat} (hi : i < 32) :
    (wordOf bits).getLsbD i = (bits[i]?).getD false := by
  rw [wordOf, BitVec.getLsbD_setWidth, decide_eq_true hi, Bool.true_and, BitVec.getLsbD_ofBoolListLE,
    List.getD_eq_getElem?_getD]

/-- Up to 32 bits that are divided in turn are divided at once. -/
theorem remainder_wordOf (c : BitVec 32) {bits : List Bool} (h : bits.length ≤ 32) :
    remainder c bits = crcBits bits.length (c ^^^ wordOf bits) := by
  induction bits generalizing c with
  | nil =>
    have hnone : wordOf [] = 0#32 := by
      apply BitVec.eq_of_getLsbD_eq
      intro i hi
      rw [getLsbD_wordOf _ hi, BitVec.getLsbD_zero]
      rfl
    rw [hnone, BitVec.xor_zero]
    rfl
  | cons b bits ih =>
    rw [List.length_cons] at h
    -- The bits behind the first one are a step away from their own word.
    have hrest : crcBit (wordOf (b :: bits) ^^^ bitWord b) = wordOf bits := by
      have hfirst : (wordOf (b :: bits) ^^^ bitWord b).getLsbD 0 = false := by
        rw [BitVec.getLsbD_xor, getLsbD_wordOf _ (by decide)]
        cases b <;> rfl
      rw [crcBit, hfirst, if_neg Bool.false_ne_true]
      apply BitVec.eq_of_getLsbD_eq
      intro i hi
      rw [BitVec.getLsbD_ushiftRight, BitVec.getLsbD_xor, getLsbD_wordOf _ hi]
      have hhigh : (bitWord b).getLsbD (1 + i) = false := by
        rw [bitWord, BitVec.getLsbD_setWidth, BitVec.getLsbD_of_ge _ _ (by omega), Bool.and_false]
      rw [hhigh, Bool.xor_false]
      by_cases hend : 1 + i < 32
      · rw [getLsbD_wordOf _ hend, Nat.add_comm, List.getElem?_cons_succ]
      · rw [BitVec.getLsbD_of_ge _ _ (by omega), List.getElem?_eq_none (by omega)]
        rfl
    have hsplit : crcBit (c ^^^ wordOf (b :: bits)) = crcBit (c ^^^ bitWord b) ^^^ wordOf bits := by
      rw [← hrest, ← crcBit_xor]
      congr 1
      rw [BitVec.xor_assoc c, BitVec.xor_comm (bitWord b), BitVec.xor_assoc, BitVec.xor_self, BitVec.xor_zero]
    rw [remainder, List.foldl_cons]
    exact (ih _ (by omega)).trans (by rw [List.length_cons, crcBits, hsplit])

theorem remainder_append (c : BitVec 32) (a b : List Bool) :
    remainder c (a ++ b) = remainder (remainder c a) b := List.foldl_append

/-- What differs before some bits differs behind them. -/
theorem remainder_injective (bits : List Bool) : Function.Injective fun c => remainder c bits := by
  induction bits with
  | nil => exact fun _ _ h => h
  | cons b bits ih =>
    intro c c' h
    have hstep := crcBit_injective (ih h)
    exact (BitVec.xor_left_inj _).mp hstep

/-- Streams that differ in at most 32 bits in a row. -/
def Burst (bits bits' : List Bool) : Prop :=
  ∃ a w w' z, bits = a ++ (w ++ z) ∧ bits' = a ++ (w' ++ z) ∧ w.length = w'.length ∧ w.length ≤ 32 ∧ w ≠ w'

theorem crcOf_burst {bits bits' : List Bool} (h : Burst bits bits') : crcOf bits ≠ crcOf bits' := by
  obtain ⟨a, w, w', z, rfl, rfl, hlen, hshort, hne⟩ := h
  intro heq
  have hrem := (BitVec.xor_left_inj _).mp heq
  simp only [remainder_append] at hrem
  have hwindow := remainder_injective z hrem
  rw [remainder_wordOf (remainder _ a) hshort, remainder_wordOf (remainder _ a) (hlen ▸ hshort : w'.length ≤ 32),
    hlen] at hwindow
  have hword := (BitVec.xor_right_inj _).mp (crcBits_injective _ hwindow)
  refine hne (List.ext_getElem? fun i => ?_)
  by_cases hi : i < w.length
  · have hbit := congrArg (fun v : BitVec 32 => v.getLsbD i) hword
    simp only [getLsbD_wordOf _ (show i < 32 by omega)] at hbit
    rw [List.getElem?_eq_getElem hi, List.getElem?_eq_getElem (hlen ▸ hi)] at hbit ⊢
    exact congrArg some hbit
  · rw [List.getElem?_eq_none (by omega), List.getElem?_eq_none (by omega)]

/-! ## The table -/

theorem bitsOf_cons (b : UInt8) (data : Bytes) :
    bitsOf (b :: data) = (List.range 8).map b.toBitVec.getLsbD ++ bitsOf data := List.flatMap_cons

/-- The eight bits of a byte are the byte. -/
theorem wordOf_byte (b : UInt8) : wordOf ((List.range 8).map b.toBitVec.getLsbD) = word b := by
  apply BitVec.eq_of_getLsbD_eq
  intro i hi
  rw [getLsbD_wordOf _ hi, word, BitVec.getLsbD_setWidth, decide_eq_true hi, Bool.true_and]
  by_cases h8 : i < 8
  · simp [h8]
  · rw [List.getElem?_eq_none (by simp; omega), BitVec.getLsbD_of_ge _ _ (by omega)]
    rfl

/-- Zeros at the low end are shifted out. -/
theorem crcBits_shift {n : Nat} {y : BitVec 32} (h : ∀ i < n, y.getLsbD i = false) : crcBits n y = y >>> n := by
  induction n generalizing y with
  | zero => rw [crcBits, BitVec.ushiftRight_zero]
  | succ n ih =>
    have hbit : crcBit y = y >>> 1 := by
      rw [crcBit, h 0 (Nat.succ_pos n), if_neg Bool.false_ne_true]
    rw [crcBits, hbit, ih fun i hi => by rw [BitVec.getLsbD_ushiftRight, h _ (by omega)],
      ← BitVec.shiftRight_add, Nat.add_comm]

theorem getLsbD_low (i : Nat) : (0xFF#32).getLsbD i = decide (i < 8) := by
  rw [show 0xFF#32 = BitVec.ofNat 32 (2 ^ 8 - 1) by rfl, BitVec.getLsbD_ofNat, Nat.testBit_two_pow_sub_one]
  by_cases h : i < 8
  · rw [decide_eq_true h, decide_eq_true (by omega : i < 32), Bool.true_and]
  · rw [decide_eq_false h, Bool.and_false]

/-- Eight steps: those of the low byte, and the rest moved down. -/
theorem crcBits_low (x : BitVec 32) : crcBits 8 x = crcBits 8 (x &&& 0xFF#32) ^^^ (x >>> 8) := by
  have hsplit : x = (x &&& 0xFF#32) ^^^ (x &&& ~~~(0xFF#32)) := by
    apply BitVec.eq_of_getLsbD_eq
    intro i hi
    rw [BitVec.getLsbD_xor, BitVec.getLsbD_and, BitVec.getLsbD_and, BitVec.getLsbD_not, decide_eq_true hi,
      Bool.true_and]
    cases x.getLsbD i <;> cases (0xFF#32).getLsbD i <;> rfl
  have hrest : crcBits 8 (x &&& ~~~(0xFF#32)) = x >>> 8 := by
    rw [crcBits_shift]
    · apply BitVec.eq_of_getLsbD_eq
      intro i hi
      rw [BitVec.getLsbD_ushiftRight, BitVec.getLsbD_ushiftRight, BitVec.getLsbD_and, BitVec.getLsbD_not,
        getLsbD_low, decide_eq_false (by omega : ¬ 8 + i < 8)]
      by_cases h : 8 + i < 32
      · rw [decide_eq_true h]
        cases x.getLsbD (8 + i) <;> rfl
      · rw [BitVec.getLsbD_of_ge x _ (by omega), Bool.false_and]
    · intro i hi
      rw [BitVec.getLsbD_and, BitVec.getLsbD_not, getLsbD_low, decide_eq_true hi, Bool.not_true, Bool.and_false,
        Bool.and_false]
  rw [← hrest, ← crcBits_xor, ← hsplit]

/-- A byte by the table is its eight bits. -/
theorem crcByte_eq (c : BitVec 32) (b : UInt8) :
    crcByte c b = remainder c ((List.range 8).map b.toBitVec.getLsbD) := by
  have hhigh : c >>> 8 = (c ^^^ word b) >>> 8 := by
    have hword : word b >>> 8 = 0#32 := by
      apply BitVec.eq_of_getLsbD_eq
      intro i _
      rw [BitVec.getLsbD_ushiftRight, word, BitVec.getLsbD_setWidth, BitVec.getLsbD_of_ge _ _ (by omega),
        Bool.and_false, BitVec.getLsbD_zero]
    rw [BitVec.ushiftRight_xor_distrib, hword, BitVec.xor_zero]
  rw [remainder_wordOf _ (by simp), wordOf_byte, List.length_map, List.length_range, crcBits_low, crcByte,
    crc_table_get, hhigh]
  simp only [BitVec.ofNat_toNat, BitVec.setWidth_eq]

theorem crc32_eq (parts : List Bytes) : crc32 parts = crcOf (bitsOf parts.flatten) := by
  have hbytes : ∀ (data : Bytes) (c : BitVec 32), data.foldl crcByte c = remainder c (bitsOf data) := by
    intro data
    induction data with
    | nil => exact fun _ => rfl
    | cons b data ih =>
      intro c
      rw [List.foldl_cons, ih, crcByte_eq, bitsOf_cons, remainder_append]
  rw [crc32, crcOf, ← List.foldl_flatten, hbytes]

/-! ## Adler-32 -/

/-- How many bytes are added up before the sums are reduced. -/
def NMAX : Nat := 5552

/-- The sums after some bytes. -/
def sums (s : Nat × Nat) (chunk : Bytes) : Nat × Nat :=
  chunk.foldl (fun s x => (s.1 + x.toNat, s.2 + (s.1 + x.toNat))) s

/-- The reduced sums, a chunk at a time. -/
def adlerFrom (s : Nat × Nat) (data : Bytes) : Nat × Nat :=
  if _h : data = [] then s
  else
    let r := sums s (data.take NMAX)
    adlerFrom (r.1 % 65521, r.2 % 65521) (data.drop NMAX)
termination_by data.length
decreasing_by
  have hpos := List.length_pos_of_ne_nil _h
  rw [List.length_drop, NMAX]
  omega

def adler32 (data : Bytes) : Nat :=
  let s := adlerFrom (1, 0) data
  s.2 <<< 16 ||| s.1

/-- The sums of the zlib format, reduced at every byte. -/
def adlerStep (s : Nat × Nat) (x : UInt8) : Nat × Nat :=
  ((s.1 + x.toNat) % 65521, (s.2 + (s.1 + x.toNat) % 65521) % 65521)

/-- The Adler-32 of the zlib format. -/
def adlerOf (data : Bytes) : Nat :=
  let s := data.foldl adlerStep (1, 0)
  s.2 * 65536 + s.1

theorem sums_cons (s : Nat × Nat) (x : UInt8) (chunk : Bytes) :
    sums s (x :: chunk) = sums (s.1 + x.toNat, s.2 + (s.1 + x.toNat)) chunk := rfl

/-- How far the sums of a chunk grow. -/
theorem sums_le (s : Nat × Nat) (chunk : Bytes) :
    (sums s chunk).1 ≤ s.1 + 255 * chunk.length ∧
      2 * (sums s chunk).2 ≤ 2 * s.2 + chunk.length * (2 * s.1 + 255 * (chunk.length + 1)) := by
  induction chunk generalizing s with
  | nil => exact ⟨le_rfl, by rw [List.length_nil, Nat.zero_mul]; exact le_rfl⟩
  | cons x chunk ih =>
    have hx : x.toNat ≤ 255 := Nat.le_of_lt_succ x.toNat_lt
    obtain ⟨hfirst, hsecond⟩ := ih (s.1 + x.toNat, s.2 + (s.1 + x.toNat))
    rw [sums_cons, List.length_cons]
    dsimp only at hfirst hsecond
    have hmul := Nat.mul_le_mul_left (2 * (chunk.length + 1)) hx
    refine ⟨by omega, hsecond.trans ?_⟩
    nlinarith

/-- No sum of a chunk leaves 32 bits. -/
theorem sums_lt {s : Nat × Nat} (h₁ : s.1 < 65521) (h₂ : s.2 < 65521) {chunk : Bytes}
    (hchunk : chunk.length ≤ NMAX) : (sums s chunk).1 < 2 ^ 32 ∧ (sums s chunk).2 < 2 ^ 32 := by
  obtain ⟨hfirst, hsecond⟩ := sums_le s chunk
  have hlen : chunk.length ≤ 5552 := hchunk
  have hmul : chunk.length * (2 * s.1 + 255 * (chunk.length + 1)) ≤ 5552 * (2 * 65520 + 255 * 5553) :=
    Nat.mul_le_mul hlen (by omega)
  omega

/-- Reducing late is reducing at once. -/
theorem sums_mod (data : Bytes) {s t : Nat × Nat} (h₁ : s.1 % 65521 = t.1) (h₂ : s.2 % 65521 = t.2) :
    ((sums s data).1 % 65521, (sums s data).2 % 65521) = data.foldl adlerStep t := by
  induction data generalizing s t with
  | nil => exact Prod.ext h₁ h₂
  | cons x data ih =>
    rw [sums_cons, List.foldl_cons]
    refine ih ?_ ?_
    · rw [adlerStep, ← h₁, Nat.mod_add_mod]
    · rw [adlerStep, ← h₁, ← h₂, Nat.mod_add_mod, Nat.mod_add_mod, Nat.add_mod_mod]

theorem adlerFrom_eq (data : Bytes) {s : Nat × Nat} (h₁ : s.1 < 65521) (h₂ : s.2 < 65521) :
    adlerFrom s data = data.foldl adlerStep s ∧ (adlerFrom s data).1 < 65521 := by
  fun_induction adlerFrom s data with
  | case1 s => exact ⟨rfl, h₁⟩
  | case2 s data hne r ih =>
    obtain ⟨heq, hlt⟩ := ih (Nat.mod_lt _ (by decide)) (Nat.mod_lt _ (by decide))
    refine ⟨?_, hlt⟩
    rw [heq, sums_mod (data.take NMAX) (Nat.mod_eq_of_lt h₁) (Nat.mod_eq_of_lt h₂), ← List.foldl_append,
      List.take_append_drop]

/-- What is computed over the parts of a chunk, or over the inflated data, is what the standards say, and
no sum leaves its 32 bits before it is reduced. -/
theorem checksums_as_specified (parts : List Bytes) (data : Bytes) :
    crc32 parts = crcOf (bitsOf parts.flatten) ∧ adler32 data = adlerOf data ∧
      ∀ s : Nat × Nat, s.1 < 65521 → s.2 < 65521 → ∀ chunk : Bytes, chunk.length ≤ NMAX →
        (sums s chunk).1 < 2 ^ 32 ∧ (sums s chunk).2 < 2 ^ 32 := by
  refine ⟨crc32_eq parts, ?_, fun s h₁ h₂ chunk hchunk => sums_lt h₁ h₂ hchunk⟩
  obtain ⟨heq, hlt⟩ := @adlerFrom_eq data (1, 0) (by decide) (by decide)
  rw [adler32, adlerOf, ← Nat.shiftLeft_add_eq_or_of_lt (hlt.trans (by decide)), Nat.shiftLeft_eq, heq]

end NanoChrono.Png
