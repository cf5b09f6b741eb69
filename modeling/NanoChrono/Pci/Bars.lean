import NanoChrono.Pci.Scan

/-! # Sizing base address registers

What a base address register decodes is found by writing ones to it and reading back which of them stay. A window's bits may
be in the upper register of a 64-bit pair alone; `Device::bar` looks for them in the lower one, and so finds a window of at
least 4 GiB to be no window at all, and an I/O window of 64 Ki ports as well (`Function.sizes_iff`). -/

namespace NanoChrono.Pci

/-! ## Registers -/

/-- A configuration register: its value, the bits that a write changes, and those that writing a one clears. -/
structure Register where
  value : UInt32
  writable : UInt32
  clearable : UInt32
  deriving DecidableEq

def Register.write (r : Register) (v : UInt32) : Register :=
  { r with value := (v &&& r.writable) ||| (r.value &&& ~~~r.writable &&& ~~~(v &&& r.clearable)) }

/-- The registers of a function that sizing touches. -/
structure Function where
  headerType : UInt8
  /-- The command register, with the status register above it. -/
  command : Register
  bars : List Register
  deriving DecidableEq

namespace Function

def read (f : Function) (offset : Nat) : UInt32 :=
  if offset = 0x04 then f.command.value else (f.bars[(offset - 0x10) / 4]?.map Register.value).getD 0

def write (f : Function) (offset : Nat) (v : UInt32) : Function :=
  if offset = 0x04 then { f with command := f.command.write v }
  else { f with bars := f.bars.modify ((offset - 0x10) / 4) (·.write v) }

/-- How many base address registers the header has. -/
def count (f : Function) : Nat :=
  if f.headerType = 0 then 6 else if f.headerType = HEADER_TYPE_BRIDGE then 2 else 0

end Function

/-! ## The source -/

/-- One base address register, sized. -/
structure Bar where
  /-- Where the window starts: a physical address, or an I/O port. -/
  base : UInt64
  /-- How many bytes (or ports) it decodes. -/
  size : UInt64
  io : Bool
  prefetchable : Bool
  deriving DecidableEq

/-- Ones are written to a register, what stays is read, and its value put back. -/
def Function.handshake (f : Function) (offset : Nat) (value : UInt32) : UInt32 × Function :=
  let f := f.write offset 0xFFFFFFFF
  (f.read offset, f.write offset value)

/-- What the values and the masks of a register, or of a pair, say. -/
def decodeBar (io : Bool) (lo loMask hi hiMask : UInt32) : Option Bar :=
  if io then
    let mask := loMask &&& 0xFFFFFFFC
    let size := (~~~mask + 1) &&& 0xFFFF
    if mask ≠ 0 ∧ size ≠ 0 then some ⟨(lo &&& 0xFFFFFFFC).toUInt64, size.toUInt64, true, false⟩ else none
  else
    let mask := hiMask.toUInt64 <<< 32 ||| (loMask &&& 0xFFFFFFF0).toUInt64
    if loMask &&& 0xFFFFFFF0 ≠ 0 then
      some ⟨hi.toUInt64 <<< 32 ||| (lo &&& 0xFFFFFFF0).toUInt64, ~~~mask + 1, false, lo &&& 0x8 != 0⟩
    else none

/-- Sizes the register at `reg`, with decoding off while the ones are in place. -/
def Function.sized (f : Function) (reg : Nat) (lo : UInt32) (io wide : Bool) : Option Bar × Function :=
  let command := f.read 0x04
  let f := f.write 0x04 (command &&& ~~~0b11)
  let (loMask, f) := f.handshake reg lo
  let (hi, hiMask, f) :=
    if wide then
      let hi := f.read (reg + 4)
      let (mask, f) := f.handshake (reg + 4) hi
      (hi, mask, f)
    else (0, 0xFFFFFFFF, f)
  let f := f.write 0x04 command
  (decodeBar io lo loMask hi hiMask, f)

/-- The walk from register `i`, of no more registers than `left`. -/
@[grind =] def Function.barFrom (f : Function) (index : Nat) : (left i : Nat) → Option Bar × Function
  | 0, _ => (none, f)
  | left + 1, i =>
    if i < f.count then
      let reg := 0x10 + 4 * i
      let lo := f.read reg
      let io := lo &&& 1 != 0
      let wide := !io && (lo >>> 1) &&& 0x3 == 0x2
      if i ≠ index then f.barFrom index left (i + if wide then 2 else 1)
      else if wide && f.count ≤ i + 1 then (none, f)
      else f.sized reg lo io wide
    else (none, f)

/-- BAR `index`, sized. -/
def Function.bar (f : Function) (index : Nat) : Option Bar × Function := f.barFrom index f.count 0

/-- How many bytes BAR0 decodes; 0 for an I/O or unimplemented BAR. -/
def Function.bar0Size (f : Function) : UInt64 :=
  match (f.bar 0).1 with
  | some bar => if bar.io then 0 else bar.size
  | none => 0

/-! ## Base address registers as PCI has them -/

/-- What the registers of a header declare, in their order: a window of `2 ^ log` bytes or ports at `base`, or nothing. -/
inductive Region where
  | unimplemented
  /-- Ports, of whose addresses a function decodes some of the lower bits. -/
  | io (decoded log base : Nat)
  | memory (prefetchable : Bool) (log base : Nat)
  /-- Memory with a 64-bit address, which takes two registers. -/
  | wide (prefetchable : Bool) (log base : Nat)
  deriving DecidableEq

namespace Region

/-- The flags of a memory register. -/
def flags (prefetchable wide : Bool) : UInt32 := (if prefetchable then 0x8 else 0) ||| (if wide then 0x4 else 0)

/-- The registers: the base over the flags, writable from the size on up. -/
def registers : Region → List Register
  | unimplemented => [⟨0, 0, 0⟩]
  | io decoded log base => [⟨.ofNat base ||| 1, .ofNat (2 ^ decoded - 2 ^ log), 0⟩]
  | memory p log base => [⟨.ofNat base ||| flags p false, .ofNat (2 ^ 64 - 2 ^ log), 0⟩]
  | wide p log base =>
    [⟨.ofNat base ||| flags p true, .ofNat (2 ^ 64 - 2 ^ log), 0⟩,
      ⟨.ofNat (base / 2 ^ 32), .ofNat ((2 ^ 64 - 2 ^ log) / 2 ^ 32), 0⟩]

/-- A size that the format has bits for, and a base aligned to it. -/
def Valid : Region → Prop
  | unimplemented => True
  | io decoded log base => 16 ≤ decoded ∧ decoded ≤ 32 ∧ 2 ≤ log ∧ log < decoded ∧ 2 ^ log ∣ base ∧ base < 2 ^ decoded
  | memory _ log base => 4 ≤ log ∧ log < 32 ∧ 2 ^ log ∣ base ∧ base < 2 ^ 32
  | wide _ log base => 4 ≤ log ∧ log < 64 ∧ 2 ^ log ∣ base ∧ base < 2 ^ 64

/-- What there is to be found at a region's first register. -/
def bar : Region → Option Bar
  | unimplemented => none
  | io _ log base => some ⟨.ofNat base, .ofNat (2 ^ log), true, false⟩
  | memory p log base => some ⟨.ofNat base, .ofNat (2 ^ log), false, p⟩
  | wide p log base => some ⟨.ofNat base, .ofNat (2 ^ log), false, p⟩

/-- The size has a bit in the lower register, and for ports in its lower half. -/
def Low : Region → Prop
  | unimplemented => True
  | io _ log _ => log < 16
  | memory .. => True
  | wide _ log _ => log < 32

instance : DecidablePred Low
  | unimplemented => .isTrue trivial
  | io _ log _ => inferInstanceAs (Decidable (log < 16))
  | memory .. => .isTrue trivial
  | wide _ log _ => inferInstanceAs (Decidable (log < 32))

end Region

/-- The region whose first register is `i`; nothing for the upper half of a pair and past the last. -/
@[grind =] def regionAt : List Region → Nat → Option Region
  | [], _ => none
  | r :: rest, i =>
    if i = 0 then some r else if i < r.registers.length then none else regionAt rest (i - r.registers.length)

/-- A function whose registers declare some regions, and whose command register is no other's. -/
structure Function.Declares (f : Function) (layout : List Region) : Prop where
  bars : f.bars = layout.flatMap Region.registers
  count : f.bars.length = f.count
  valid : ∀ r ∈ layout, r.Valid
  command : f.command.clearable &&& 0xFFFF = 0

/-! ## Bits -/

/-- A bit of a word. -/
def bitAt (x : UInt32) (i : Nat) : Bool := x.toNat.testBit i

theorem ext_bits {x y : UInt32} (h : ∀ i < 32, bitAt x i = bitAt y i) : x = y := by
  rw [← UInt32.toNat_inj]
  refine Nat.eq_of_testBit_eq fun i => ?_
  by_cases hi : i < 32
  · exact h i hi
  · have hpow : 2 ^ 32 ≤ 2 ^ i := Nat.pow_le_pow_right (by omega) (by omega)
    rw [Nat.testBit_lt_two_pow (Nat.lt_of_lt_of_le x.toNat_lt hpow),
      Nat.testBit_lt_two_pow (Nat.lt_of_lt_of_le y.toNat_lt hpow)]

@[simp] theorem bitAt_and (x y : UInt32) (i : Nat) : bitAt (x &&& y) i = (bitAt x i && bitAt y i) := by
  rw [bitAt, UInt32.toNat_and, Nat.testBit_and, bitAt, bitAt]

@[simp] theorem bitAt_or (x y : UInt32) (i : Nat) : bitAt (x ||| y) i = (bitAt x i || bitAt y i) := by
  rw [bitAt, UInt32.toNat_or, Nat.testBit_or, bitAt, bitAt]

theorem bitAt_not (x : UInt32) {i : Nat} (hi : i < 32) : bitAt (~~~x) i = !bitAt x i := by
  have hx := x.toNat_lt
  rw [bitAt, UInt32.toNat_not, show UInt32.size - 1 - x.toNat = 2 ^ 32 - (x.toNat + 1) by
    rw [UInt32.size]; omega, Nat.testBit_two_pow_sub_succ hx, decide_eq_true hi, Bool.true_and, bitAt]

theorem bitAt_ofNat (n : Nat) {i : Nat} (hi : i < 32) : bitAt (.ofNat n) i = n.testBit i := by
  rw [bitAt, UInt32.toNat_ofNat', Nat.testBit_mod_two_pow, decide_eq_true hi, Bool.true_and]

@[simp] theorem bitAt_zero (i : Nat) : bitAt 0 i = false := Nat.zero_testBit i

/-- A span of bits. -/
theorem testBit_span {n log : Nat} (h : log ≤ n) (i : Nat) :
    (2 ^ n - 2 ^ log).testBit i = (decide (log ≤ i) && decide (i < n)) := by
  have hpos := Nat.two_pow_pos log
  have hle := Nat.pow_le_pow_right (show 0 < 2 by omega) h
  rw [show 2 ^ n - 2 ^ log = 2 ^ n - ((2 ^ log - 1) + 1) by omega, Nat.testBit_two_pow_sub_succ (by omega),
    Nat.testBit_two_pow_sub_one, Bool.and_comm, ← decide_not]
  congr 1
  exact decide_eq_decide.2 (by omega)

/-- A base that is aligned has no bit below the alignment. -/
theorem le_of_testBit {log base i : Nat} (h : 2 ^ log ∣ base) (hbit : base.testBit i = true) : log ≤ i := by
  obtain ⟨k, rfl⟩ := h
  rw [Nat.testBit_two_pow_mul, Bool.and_eq_true, decide_eq_true_iff] at hbit
  exact hbit.1

/-- Two halves side by side. -/
theorem halves_toNat (hi lo : UInt32) : (hi.toUInt64 <<< 32 ||| lo.toUInt64).toNat = hi.toNat * 2 ^ 32 + lo.toNat := by
  have hhi := hi.toNat_lt
  have hlo := lo.toNat_lt
  rw [UInt64.toNat_or, UInt64.toNat_shiftLeft, UInt32.toNat_toUInt64, UInt32.toNat_toUInt64,
    show (32 : UInt64).toNat % 64 = 32 from rfl, Nat.mod_eq_of_lt (by rw [Nat.shiftLeft_eq]; omega),
    ← Nat.shiftLeft_add_eq_or_of_lt hlo, Nat.shiftLeft_eq]

/-! ## Writing and putting back -/

/-- What is read after ones were written: the bits that were, and those that stayed. -/
def Register.mask (r : Register) : UInt32 := r.writable ||| (r.value &&& ~~~r.writable)

theorem Register.write_ones {r : Register} (h : r.clearable = 0) : (r.write 0xFFFFFFFF).value = r.mask := by
  have hones : ∀ i < 32, bitAt 0xFFFFFFFF i = true := fun i hi => by
    rw [bitAt, show (0xFFFFFFFF : UInt32).toNat = 2 ^ 32 - 1 from rfl, Nat.testBit_two_pow_sub_one, decide_eq_true hi]
  rw [Register.write, Register.mask, h]
  refine ext_bits fun i hi => ?_
  simp [bitAt_not, hi, hones]

/-- A value put back is the value there was. -/
theorem Register.write_back {r : Register} (h : r.clearable = 0) (v : UInt32) : (r.write v).write r.value = r := by
  obtain ⟨value, writable, clearable⟩ := r
  obtain rfl : clearable = 0 := h
  refine congrArg (fun value => Register.mk value writable 0) (ext_bits fun i hi => ?_)
  dsimp only [Register.write]
  cases hv : bitAt value i <;> cases hw : bitAt writable i <;> simp [hv, hw, bitAt_not, hi]

/-- A register that is written and put back keeps its lower half, where nothing is cleared by a write. -/
theorem Register.write_back_low {r : Register} (h : r.clearable &&& 0xFFFF = 0) (v : UInt32) :
    ((r.write v).write r.value).value &&& 0xFFFF = r.value &&& 0xFFFF := by
  refine ext_bits fun i hi => ?_
  have hbit := congrArg (fun x => bitAt x i) h
  simp only [bitAt_and, bitAt_zero] at hbit
  dsimp only [Register.write]
  cases hlow : bitAt 0xFFFF i with
  | false => simp [hlow]
  | true =>
    have hclear : bitAt r.clearable i = false := by simpa [hlow] using hbit
    cases hv : bitAt r.value i <;> cases hw : bitAt r.writable i <;> simp [hlow, hclear, hv, hw, bitAt_not, hi]

namespace Function

@[simp] theorem read_base (f : Function) (i : Nat) :
    f.read (0x10 + 4 * i) = (f.bars[i]?.map Register.value).getD 0 := by
  rw [read, if_neg (by omega), Nat.add_sub_cancel_left, Nat.mul_div_cancel_left _ (by omega)]

@[simp] theorem write_base (f : Function) (i : Nat) (v : UInt32) :
    f.write (0x10 + 4 * i) v = { f with bars := f.bars.modify i (·.write v) } := by
  rw [write, if_neg (by omega), Nat.add_sub_cancel_left, Nat.mul_div_cancel_left _ (by omega)]

/-- The handshake reads the mask and leaves the function as it was. -/
theorem handshake_eq {f : Function} {i : Nat} {r : Register} (hr : f.bars[i]? = some r) (h : r.clearable = 0) :
    f.handshake (0x10 + 4 * i) r.value = (r.mask, f) := by
  have hbars : (f.bars.modify i (·.write 0xFFFFFFFF)).modify i (·.write r.value) = f.bars := by
    refine List.ext_getElem? fun j => ?_
    rw [List.getElem?_modify, List.getElem?_modify]
    by_cases hj : i = j
    · subst hj
      simp [hr, Register.write_back h]
    · simp [hj]
  rw [handshake, write_base, read_base, write_base]
  dsimp only
  rw [List.getElem?_modify_eq, hr, hbars]
  simp [Register.write_ones h]

/-- Sizing one register: its value and its mask are decoded, and the base registers are as they were. -/
theorem sized_narrow {f : Function} {i : Nat} {r : Register} (hr : f.bars[i]? = some r) (h : r.clearable = 0)
    (io : Bool) : f.sized (0x10 + 4 * i) r.value io false = (decodeBar io r.value r.mask 0 0xFFFFFFFF,
      { f with command := (f.command.write (f.command.value &&& ~~~0b11)).write f.command.value }) := by
  have hmask := @handshake_eq { f with command := f.command.write (f.command.value &&& ~~~0b11) } i r hr h
  rw [sized, show f.read 0x04 = f.command.value from rfl,
    show ∀ v, f.write 0x04 v = { f with command := f.command.write v } from fun _ => rfl]
  dsimp only
  rw [hmask]
  rfl

/-- Sizing a pair. -/
theorem sized_wide {f : Function} {i : Nat} {r s : Register} (hr : f.bars[i]? = some r) (h : r.clearable = 0)
    (hs : f.bars[i + 1]? = some s) (h' : s.clearable = 0) :
    f.sized (0x10 + 4 * i) r.value false true = (decodeBar false r.value r.mask s.value s.mask,
      { f with command := (f.command.write (f.command.value &&& ~~~0b11)).write f.command.value }) := by
  have hmask := @handshake_eq { f with command := f.command.write (f.command.value &&& ~~~0b11) } i r hr h
  have hmask' := @handshake_eq { f with command := f.command.write (f.command.value &&& ~~~0b11) } (i + 1) s hs h'
  have hhi : ({ f with command := f.command.write (f.command.value &&& ~~~0b11) } : Function).read
      (0x10 + 4 * (i + 1)) = s.value := by
    rw [read_base]
    simp [hs]
  rw [sized, show 0x10 + 4 * i + 4 = 0x10 + 4 * (i + 1) by omega, show f.read 0x04 = f.command.value from rfl,
    show ∀ v, f.write 0x04 v = { f with command := f.command.write v } from fun _ => rfl]
  dsimp only
  rw [hmask]
  dsimp only
  rw [if_pos rfl, hhi, hmask']
  rfl

end Function

/-! ## Masks -/

/-- The bits of a mask that is read, within those of a field, are the bits that were written. -/
theorem mask_and {v w c : UInt32} (hw : ∀ i < 32, bitAt w i = true → bitAt c i = true)
    (hv : ∀ i < 32, bitAt c i = true → bitAt v i = true → bitAt w i = true) : (w ||| (v &&& ~~~w)) &&& c = w := by
  refine ext_bits fun i hi => ?_
  have hw := hw i hi
  have hv := hv i hi
  simp only [bitAt_and, bitAt_or, bitAt_not _ hi]
  cases hwi : bitAt w i <;> cases hci : bitAt c i <;> cases hvi : bitAt v i <;> simp_all

/-- A register whose value is within its mask reads as its mask. -/
theorem mask_within {v w : UInt32} (hv : ∀ i < 32, bitAt v i = true → bitAt w i = true) : w ||| (v &&& ~~~w) = w := by
  refine ext_bits fun i hi => ?_
  have hv := hv i hi
  simp only [bitAt_and, bitAt_or, bitAt_not _ hi]
  cases hwi : bitAt w i <;> cases hvi : bitAt v i <;> simp_all

/-- The size is what a mask leaves out. -/
theorem size_of_mask {m : UInt64} {log : Nat} (hlog : log < 64) (h : m.toNat = 2 ^ 64 - 2 ^ log) :
    ~~~m + 1 = .ofNat (2 ^ log) := by
  have hlt : 2 ^ log < 2 ^ 64 := Nat.pow_lt_pow_right (by omega) hlog
  have hpos := Nat.two_pow_pos log
  rw [← UInt64.toNat_inj, UInt64.toNat_add, UInt64.toNat_not, h, UInt64.toNat_ofNat', UInt64.size,
    show (1 : UInt64).toNat = 1 from rfl, Nat.mod_eq_of_lt hlt, Nat.mod_eq_of_lt (by omega)]
  omega

section Memory

variable {p wide : Bool} {log base : Nat}

theorem bitAt_address {i : Nat} (hi : 4 ≤ i) (hi' : i < 32) : bitAt 0xFFFFFFF0 i = true := by
  rw [bitAt, show (0xFFFFFFF0 : UInt32).toNat = 2 ^ 32 - 2 ^ 4 from rfl, testBit_span (by omega), decide_eq_true hi,
    decide_eq_true hi', Bool.and_self]

theorem le_of_address {i : Nat} (h : bitAt 0xFFFFFFF0 i = true) : 4 ≤ i := by
  rw [bitAt, show (0xFFFFFFF0 : UInt32).toNat = 2 ^ 32 - 2 ^ 4 from rfl, testBit_span (by omega), Bool.and_eq_true,
    decide_eq_true_iff] at h
  exact h.1

theorem bitAt_flags {i : Nat} (hi : 4 ≤ i) : bitAt (Region.flags p wide) i = false := by
  have hlt : (Region.flags p wide).toNat < 2 ^ 4 := by cases p <;> cases wide <;> decide
  exact Nat.testBit_lt_two_pow (Nat.lt_of_lt_of_le hlt (Nat.pow_le_pow_right (by omega) hi))

theorem bitAt_writable (hlog : log ≤ 64) {i : Nat} (hi : i < 32) :
    bitAt (.ofNat (2 ^ 64 - 2 ^ log)) i = decide (log ≤ i) := by
  rw [bitAt_ofNat _ hi, testBit_span hlog, decide_eq_true (show i < 64 by omega), Bool.and_true]

/-- The lower register's mask has the bits that were written. -/
theorem memory_mask (h4 : 4 ≤ log) (hlog : log ≤ 64) (hbase : 2 ^ log ∣ base) :
    (Register.mask ⟨.ofNat base ||| Region.flags p wide, .ofNat (2 ^ 64 - 2 ^ log), 0⟩) &&& 0xFFFFFFF0 =
      .ofNat (2 ^ 64 - 2 ^ log) := by
  refine mask_and (fun i hi h => ?_) fun i hi hc hv => ?_
  · rw [bitAt_writable hlog hi, decide_eq_true_iff] at h
    exact bitAt_address (by omega) hi
  · rw [bitAt_or, bitAt_flags (le_of_address hc), Bool.or_false, bitAt_ofNat _ hi] at hv
    rw [bitAt_writable hlog hi, decide_eq_true (le_of_testBit hbase hv)]

/-- The address in the lower register. -/
theorem memory_base (h4 : 4 ≤ log) (hbase : 2 ^ log ∣ base) :
    (.ofNat base ||| Region.flags p wide) &&& 0xFFFFFFF0 = UInt32.ofNat base := by
  refine ext_bits fun i hi => ?_
  rw [bitAt_and, bitAt_or]
  by_cases h : 4 ≤ i
  · rw [bitAt_address h hi, bitAt_flags h, Bool.or_false, Bool.and_true]
  · have hclear : bitAt 0xFFFFFFF0 i = false := by
      by_contra hset
      exact h (le_of_address (by simpa using hset))
    rw [hclear, Bool.and_false, bitAt_ofNat _ hi]
    by_contra hset
    have hle := le_of_testBit (i := i) hbase (by simpa using Ne.symm hset)
    omega

/-- The flags are the lowest bits. -/
theorem memory_flags (h4 : 4 ≤ log) (hbase : 2 ^ log ∣ base) :
    (.ofNat base ||| Region.flags p wide) &&& 0xF = Region.flags p wide := by
  refine ext_bits fun i hi => ?_
  rw [bitAt_and, bitAt_or, bitAt_ofNat _ hi]
  by_cases h : 4 ≤ i
  · rw [bitAt_flags h, bitAt, show (0xF : UInt32).toNat = 2 ^ 4 - 1 from rfl, Nat.testBit_two_pow_sub_one,
      decide_eq_false (by omega), Bool.and_false]
  · have hclear : base.testBit i = false := by
      by_contra hset
      have hle := le_of_testBit (i := i) hbase (by simpa using hset)
      omega
    have hset : bitAt 0xF i = true := by
      rw [bitAt, show (0xF : UInt32).toNat = 2 ^ 4 - 1 from rfl, Nat.testBit_two_pow_sub_one, decide_eq_true (by omega)]
    rw [hclear, Bool.false_or, hset, Bool.and_true]

/-- The tests of the flags, by the lowest bits. -/
theorem tests_eq (v : UInt32) : v &&& 0x1 = (v &&& 0xF) &&& 0x1 ∧
    (v >>> 1) &&& (0x3 : UInt32) = ((v &&& 0xF) >>> 1) &&& (0x3 : UInt32) ∧ v &&& 0x8 = (v &&& 0xF) &&& 0x8 := by
  refine ⟨?_, ?_, ?_⟩
  · rw [UInt32.and_assoc]
    rfl
  · rw [UInt32.shiftRight_and, UInt32.and_assoc]
    rfl
  · rw [UInt32.and_assoc]
    rfl

theorem memory_tests (h4 : 4 ≤ log) (hbase : 2 ^ log ∣ base) :
    ((UInt32.ofNat base ||| Region.flags p wide) &&& 1 != 0) = false ∧
      (((UInt32.ofNat base ||| Region.flags p wide) >>> 1) &&& 0x3 == 0x2) = wide ∧
      ((UInt32.ofNat base ||| Region.flags p wide) &&& 0x8 != 0) = p := by
  obtain ⟨hio, hwide, hp⟩ := tests_eq (.ofNat base ||| Region.flags p wide)
  rw [hio, hwide, hp, memory_flags h4 hbase]
  cases p <;> cases wide <;> decide

/-- A 32-bit window is sized. -/
theorem decode_memory (h4 : 4 ≤ log) (hlog : log < 32) (hbase : 2 ^ log ∣ base) (hlt : base < 2 ^ 32) :
    decodeBar false (.ofNat base ||| Region.flags p false)
        (Register.mask ⟨.ofNat base ||| Region.flags p false, .ofNat (2 ^ 64 - 2 ^ log), 0⟩) 0 0xFFFFFFFF =
      some ⟨.ofNat base, .ofNat (2 ^ log), false, p⟩ := by
  have hpos := Nat.two_pow_pos log
  have hpow : 2 ^ log < 2 ^ 32 := Nat.pow_lt_pow_right (by omega) hlog
  have hw : (UInt32.ofNat (2 ^ 64 - 2 ^ log)).toNat = 2 ^ 32 - 2 ^ log := by
    rw [UInt32.toNat_ofNat']
    omega
  have hne : UInt32.ofNat (2 ^ 64 - 2 ^ log) ≠ 0 := by
    intro h
    rw [h, show (0 : UInt32).toNat = 0 from rfl] at hw
    omega
  rw [decodeBar, if_neg Bool.false_ne_true]
  dsimp only
  rw [memory_mask h4 (by omega) hbase, memory_base h4 hbase, if_pos hne, (memory_tests h4 hbase).2.2,
    size_of_mask (by omega : log < 64) (by rw [halves_toNat, hw, show (0xFFFFFFFF : UInt32).toNat = 2 ^ 32 - 1 from rfl]; omega)]
  congr 2
  rw [← UInt64.toNat_inj, halves_toNat, UInt32.toNat_ofNat', UInt64.toNat_ofNat', show (0 : UInt32).toNat = 0 from rfl]
  omega

/-- A 64-bit window is sized where its size has a bit in the lower register. -/
theorem decode_wide (h4 : 4 ≤ log) (hlog : log < 64) (hbase : 2 ^ log ∣ base) (hlt : base < 2 ^ 64) :
    decodeBar false (.ofNat base ||| Region.flags p true)
        (Register.mask ⟨.ofNat base ||| Region.flags p true, .ofNat (2 ^ 64 - 2 ^ log), 0⟩) (.ofNat (base / 2 ^ 32))
        (Register.mask ⟨.ofNat (base / 2 ^ 32), .ofNat ((2 ^ 64 - 2 ^ log) / 2 ^ 32), 0⟩) =
      if log < 32 then some ⟨.ofNat base, .ofNat (2 ^ log), false, p⟩ else none := by
  have hpos := Nat.two_pow_pos log
  have hpow : 2 ^ log < 2 ^ 64 := Nat.pow_lt_pow_right (by omega) hlog
  have hhi : Register.mask ⟨.ofNat (base / 2 ^ 32), .ofNat ((2 ^ 64 - 2 ^ log) / 2 ^ 32), 0⟩ =
      .ofNat ((2 ^ 64 - 2 ^ log) / 2 ^ 32) := by
    refine mask_within fun i hi hv => ?_
    rw [bitAt_ofNat _ hi, Nat.testBit_div_two_pow] at hv ⊢
    rw [testBit_span (by omega), decide_eq_true (le_of_testBit hbase hv), decide_eq_true (by omega), Bool.and_self]
  rw [decodeBar, if_neg Bool.false_ne_true]
  dsimp only
  rw [memory_mask h4 (by omega) hbase, memory_base h4 hbase, hhi, (memory_tests h4 hbase).2.2]
  by_cases hlow : log < 32
  · have hne : UInt32.ofNat (2 ^ 64 - 2 ^ log) ≠ 0 := by
      intro h
      have hbit : bitAt (UInt32.ofNat (2 ^ 64 - 2 ^ log)) 31 = bitAt 0 31 := by rw [h]
      rw [bitAt_writable (by omega) (by omega), bitAt_zero, decide_eq_false_iff_not] at hbit
      omega
    rw [if_pos hne, if_pos hlow, size_of_mask hlog (by
      rw [halves_toNat, UInt32.toNat_ofNat', UInt32.toNat_ofNat']
      omega)]
    congr 2
    rw [← UInt64.toNat_inj, halves_toNat, UInt32.toNat_ofNat', UInt32.toNat_ofNat', UInt64.toNat_ofNat']
    omega
  · have hzero : UInt32.ofNat (2 ^ 64 - 2 ^ log) = 0 := by
      refine ext_bits fun i hi => ?_
      rw [bitAt_writable (by omega) hi, bitAt_zero, decide_eq_false (by omega)]
    rw [if_neg (not_not.2 hzero), if_neg hlow]

end Memory

section Io

variable {decoded log base : Nat}

theorem io_tests (h2 : 2 ≤ log) (hbase : 2 ^ log ∣ base) : ((UInt32.ofNat base ||| 1) &&& 1 != 0) = true ∧
    (.ofNat base ||| 1) &&& 0xFFFFFFFC = UInt32.ofNat base := by
  constructor
  · have hbit : bitAt ((UInt32.ofNat base ||| 1) &&& 1) 0 = true := by
      rw [bitAt_and, bitAt_or]
      exact Bool.and_eq_true_iff.2 ⟨Bool.or_eq_true_iff.2 (.inr rfl), rfl⟩
    rw [bne_iff_ne]
    intro hzero
    rw [hzero, bitAt_zero] at hbit
    cases hbit
  · refine ext_bits fun i hi => ?_
    have haddress : bitAt 0xFFFFFFFC i = decide (2 ≤ i) := by
      rw [bitAt, show (0xFFFFFFFC : UInt32).toNat = 2 ^ 32 - 2 ^ 2 from rfl, testBit_span (by omega), decide_eq_true hi,
        Bool.and_true]
    have hone : bitAt 1 i = decide (i < 1) := Nat.testBit_two_pow_sub_one 1 i
    rw [bitAt_and, bitAt_or, haddress, hone, bitAt_ofNat _ hi]
    by_cases h : 2 ≤ i
    · rw [decide_eq_true h, decide_eq_false (by omega), Bool.or_false, Bool.and_true]
    · rw [decide_eq_false h, Bool.and_false]
      by_contra hset
      have hle := le_of_testBit (i := i) hbase (by simpa using Ne.symm hset)
      omega

/-- An I/O window is sized where its size is one of 16 bits. -/
theorem decode_io (hdec : 16 ≤ decoded) (hdec' : decoded ≤ 32) (h2 : 2 ≤ log) (hlog : log < decoded)
    (hbase : 2 ^ log ∣ base) (hlt : base < 2 ^ decoded) :
    decodeBar true (.ofNat base ||| 1) (Register.mask ⟨.ofNat base ||| 1, .ofNat (2 ^ decoded - 2 ^ log), 0⟩) 0
        0xFFFFFFFF = if log < 16 then some ⟨.ofNat base, .ofNat (2 ^ log), true, false⟩ else none := by
  have hpos := Nat.two_pow_pos log
  have hpow : 2 ^ log < 2 ^ decoded := Nat.pow_lt_pow_right (by omega) hlog
  have hpow' : 2 ^ decoded ≤ 2 ^ 32 := Nat.pow_le_pow_right (by omega) hdec'
  have hw : (UInt32.ofNat (2 ^ decoded - 2 ^ log)).toNat = 2 ^ decoded - 2 ^ log := by
    rw [UInt32.toNat_ofNat', Nat.mod_eq_of_lt (by omega)]
  have hmask : (Register.mask ⟨.ofNat base ||| 1, .ofNat (2 ^ decoded - 2 ^ log), 0⟩) &&& 0xFFFFFFFC =
      .ofNat (2 ^ decoded - 2 ^ log) := by
    have haddress : ∀ i < 32, bitAt 0xFFFFFFFC i = decide (2 ≤ i) := fun i hi => by
      rw [bitAt, show (0xFFFFFFFC : UInt32).toNat = 2 ^ 32 - 2 ^ 2 from rfl, testBit_span (by omega), decide_eq_true hi,
        Bool.and_true]
    refine mask_and (fun i hi h => ?_) fun i hi hc hv => ?_
    · rw [bitAt_ofNat _ hi, testBit_span (by omega), Bool.and_eq_true, decide_eq_true_iff] at h
      rw [haddress i hi, decide_eq_true (by omega)]
    · rw [haddress i hi, decide_eq_true_iff] at hc
      have hone : bitAt 1 i = decide (i < 1) := Nat.testBit_two_pow_sub_one 1 i
      rw [bitAt_or, hone, decide_eq_false (by omega), Bool.or_false, bitAt_ofNat _ hi] at hv
      have hi' : i < decoded := by
        by_contra hge
        rw [Nat.testBit_lt_two_pow (Nat.lt_of_lt_of_le hlt (Nat.pow_le_pow_right (by omega) (by omega)))] at hv
        cases hv
      rw [bitAt_ofNat _ hi, testBit_span (by omega), decide_eq_true (le_of_testBit hbase hv), decide_eq_true hi',
        Bool.and_self]
  -- Past the bits that are decoded the mask has none, and they are cut off.
  have hsize : ((~~~(UInt32.ofNat (2 ^ decoded - 2 ^ log)) + 1) &&& 0xFFFF).toNat = 2 ^ log % 2 ^ 16 := by
    obtain ⟨k, hk⟩ : 2 ^ 16 ∣ 2 ^ 32 - 2 ^ decoded :=
      Nat.dvd_sub (pow_dvd_pow 2 (by omega)) (pow_dvd_pow 2 hdec)
    rw [UInt32.toNat_and, UInt32.toNat_add, UInt32.toNat_not, hw, show (0xFFFF : UInt32).toNat = 2 ^ 16 - 1 from rfl,
      Nat.and_two_pow_sub_one_eq_mod, UInt32.size, show (1 : UInt32).toNat = 1 from rfl,
      Nat.mod_mod_of_dvd _ (by decide : 2 ^ 16 ∣ 2 ^ 32)]
    rw [show 4294967296 - 1 - (2 ^ decoded - 2 ^ log) + 1 = 2 ^ log + 2 ^ 16 * k by omega, Nat.add_mul_mod_self_left]
  have hne : UInt32.ofNat (2 ^ decoded - 2 ^ log) ≠ 0 := by
    intro h
    rw [h, show (0 : UInt32).toNat = 0 from rfl] at hw
    omega
  rw [decodeBar, if_pos rfl]
  dsimp only
  rw [hmask, (io_tests h2 hbase).2]
  by_cases hlow : log < 16
  · have hpow'' : 2 ^ log < 2 ^ 16 := Nat.pow_lt_pow_right (by omega) hlow
    rw [Nat.mod_eq_of_lt hpow''] at hsize
    rw [if_pos hlow, if_pos ⟨hne, fun h => by rw [h, show (0 : UInt32).toNat = 0 from rfl] at hsize; omega⟩]
    refine congrArg some ?_
    have hlt' : base < 2 ^ 32 := by omega
    rw [Bar.mk.injEq, ← UInt64.toNat_inj, ← UInt64.toNat_inj, UInt32.toNat_toUInt64, UInt32.toNat_toUInt64, hsize,
      UInt32.toNat_ofNat', UInt64.toNat_ofNat', UInt64.toNat_ofNat', Nat.mod_eq_of_lt hlt',
      Nat.mod_eq_of_lt (show base < 2 ^ 64 by omega), Nat.mod_eq_of_lt (show 2 ^ log < 2 ^ 64 by omega)]
    exact ⟨rfl, rfl, rfl, rfl⟩
  · rw [Nat.mod_eq_zero_of_dvd (pow_dvd_pow 2 (by omega))] at hsize
    rw [if_neg hlow, if_neg fun h => h.2 (UInt32.toNat_inj.1 hsize)]

end Io

/-! ## The walk of the registers -/

namespace Region

def isIo : Region → Bool
  | io .. => true
  | _ => false

def isWide : Region → Bool
  | wide .. => true
  | _ => false

/-- What sizing finds at a region. -/
def found (r : Region) : Option Bar := if r.Low then r.bar else none

/-- What sizing finds is what is there, unless the size has no bit where sizing looks. -/
theorem found_eq_bar (r : Region) : r.found = r.bar ↔ r.Low := by
  rw [found]
  by_cases h : r.Low
  · rw [if_pos h]
    exact iff_of_true rfl h
  · rw [if_neg h]
    refine iff_of_false ?_ h
    cases r with
    | unimplemented => exact absurd trivial h
    | io => nofun
    | memory => exact absurd trivial h
    | wide => nofun

/-- The first register of a region tells what it is. -/
theorem registers_first {r : Region} (h : r.Valid) : ∃ reg more, r.registers = reg :: more ∧
    (reg.value &&& 1 != 0) = r.isIo ∧
    (!(reg.value &&& 1 != 0) && (reg.value >>> 1) &&& 0x3 == 0x2) = r.isWide ∧
    r.registers.length = (if r.isWide then 2 else 1) ∧ reg.clearable = 0 := by
  cases r with
  | unimplemented => exact ⟨_, _, rfl, by decide, by decide, rfl, rfl⟩
  | io decoded log base =>
    have htest := (io_tests h.2.2.1 h.2.2.2.2.1).1
    exact ⟨_, _, rfl, htest, by rw [htest]; rfl, rfl, rfl⟩
  | memory p log base =>
    obtain ⟨hio, hwide, -⟩ := @memory_tests p false log base h.1 h.2.2.1
    exact ⟨_, _, rfl, hio, by rw [hio, hwide]; rfl, rfl, rfl⟩
  | wide p log base =>
    obtain ⟨hio, hwide, -⟩ := @memory_tests p true log base h.1 h.2.2.1
    exact ⟨_, _, rfl, hio, by rw [hio, hwide]; rfl, rfl, rfl⟩

end Region

namespace Function

/-- A function after sizing: the status bits that were set may have been cleared. -/
def restored (f : Function) : Function :=
  { f with command := (f.command.write (f.command.value &&& ~~~0b11)).write f.command.value }

/-- Sizing at a region's first register. -/
theorem sized_region {f : Function} {r : Region} (h : r.Valid) {i : Nat} {reg : Register} {more : List Register}
    (hreg : r.registers = reg :: more) (hat : f.bars[i]? = some reg) (hnext : f.bars[i + 1]? = more[0]? ∨ more = []) :
    f.sized (0x10 + 4 * i) reg.value r.isIo r.isWide = (r.found, f.restored) := by
  cases r with
  | unimplemented =>
    obtain ⟨rfl, rfl⟩ := List.cons.inj hreg
    change f.sized _ _ false false = _
    rw [sized_narrow hat rfl]
    rfl
  | io decoded log base =>
    obtain ⟨rfl, rfl⟩ := List.cons.inj hreg
    obtain ⟨hdec, hdec', h2, hlog, hbase, hlt⟩ := h
    change f.sized _ _ true false = _
    rw [sized_narrow hat rfl, decode_io hdec hdec' h2 hlog hbase hlt]
    rfl
  | memory p log base =>
    obtain ⟨rfl, rfl⟩ := List.cons.inj hreg
    obtain ⟨h4, hlog, hbase, hlt⟩ := h
    change f.sized _ _ false false = _
    rw [sized_narrow hat rfl, decode_memory h4 hlog hbase hlt]
    rfl
  | wide p log base =>
    obtain ⟨rfl, rfl⟩ := List.cons.inj hreg
    obtain ⟨h4, hlog, hbase, hlt⟩ := h
    have hs := hnext.resolve_right (List.cons_ne_nil _ _)
    change f.sized _ _ false true = _
    rw [sized_wide hat rfl hs rfl, decode_wide h4 hlog hbase hlt]
    rfl

/-- A register that the walk has gone past is not found. -/
theorem barFrom_past (f : Function) {index : Nat} (left : Nat) {i : Nat} (h : index < i) :
    f.barFrom index left i = (none, f) := by
  induction left generalizing i with
  | zero => rfl
  | succ left ih =>
    rw [barFrom]
    split
    · dsimp only
      rw [if_pos (by omega)]
      exact ih (by omega)
    · rfl

/-- The walk over the regions that are left. -/
theorem barFrom_eq {f : Function} (hcount : f.bars.length = f.count) (rest : List Region) :
    ∀ {pre : List Register} {left index : Nat}, f.bars = pre ++ rest.flatMap Region.registers →
      (∀ r ∈ rest, r.Valid) → f.count - pre.length ≤ left → pre.length ≤ index →
      f.barFrom index left pre.length = match regionAt rest (index - pre.length) with
        | some r => (r.found, f.restored)
        | none => (none, f) := by
  induction rest with
  | nil =>
    intro pre left index hbars _ _ _
    rw [List.flatMap_nil, List.append_nil] at hbars
    cases left with
    | zero => rfl
    | succ left =>
      rw [barFrom, if_neg (by rw [← hcount, hbars]; omega)]
      rfl
  | cons r rest ih =>
    intro pre left index hbars hvalid hleft hindex
    have hr := hvalid r List.mem_cons_self
    obtain ⟨reg, more, hreg, hio, hwide, hlen, -⟩ := Region.registers_first hr
    have hbars' : f.bars = pre ++ (reg :: more) ++ rest.flatMap Region.registers := by
      rw [hbars, List.flatMap_cons, hreg, List.append_assoc]
    have hat : f.bars[pre.length]? = some reg := by
      rw [hbars', List.append_assoc, List.getElem?_append_right (Nat.le_refl _), Nat.sub_self]
      rfl
    have hlength := congrArg List.length hbars'
    rw [List.length_append, List.length_append, ← hreg, hlen, hcount] at hlength
    have hinside : pre.length < f.count := by split at hlength <;> omega
    obtain ⟨left, rfl⟩ : ∃ n, left = n + 1 := ⟨left - 1, by omega⟩
    rw [barFrom, if_pos hinside]
    dsimp only
    rw [read_base, hat, Option.map_some, Option.getD_some, hwide, hio]
    by_cases hhere : pre.length = index
    · rw [if_neg (not_not.2 hhere), ← hhere, Nat.sub_self]
      have hfits : (r.isWide && decide (f.count ≤ pre.length + 1)) = false := by
        cases hw : r.isWide with
        | false => rfl
        | true =>
          rw [hw, if_pos rfl] at hlength
          rw [Bool.true_and, decide_eq_false (by omega)]
      rw [hfits, if_neg Bool.false_ne_true, sized_region hr hreg hat]
      · rfl
      · cases hmore : more with
        | nil => exact .inr rfl
        | cons s more =>
          refine .inl ?_
          rw [hbars', hmore, List.append_assoc, List.getElem?_append_right (Nat.le_succ _),
            show pre.length + 1 - pre.length = 1 by omega]
          rfl
    · have hpos : 0 < r.registers.length := by rw [hlen]; split <;> omega
      rw [if_pos hhere, ← hlen, regionAt, if_neg (by omega)]
      by_cases hskipped : index - pre.length < r.registers.length
      · rw [if_pos hskipped, barFrom_past f left (by omega)]
      · have hnext := @ih (pre ++ r.registers) left index (by rw [hbars', hreg])
          (fun r' hr' => hvalid r' (List.mem_cons_of_mem r hr'))
        rw [List.length_append] at hnext
        rw [if_neg hskipped, Nat.sub_sub]
        rw [← hlen] at hlength
        exact hnext (by omega) (by omega)

/-- What sizing finds at an index, and how it leaves the function. -/
theorem bar_eq {f : Function} {layout : List Region} (h : f.Declares layout) (index : Nat) :
    f.bar index = match regionAt layout index with
      | some r => (r.found, f.restored)
      | none => (none, f) :=
  @barFrom_eq f h.count layout [] f.count index h.bars h.valid (Nat.le_refl _) (Nat.zero_le _)

/-- BAR `index` is found as it is declared, and the function is left as it was. -/
structure Sizes (f : Function) (layout : List Region) (index : Nat) : Prop where
  found : (f.bar index).1 = (regionAt layout index).bind Region.bar
  bars : (f.bar index).2.bars = f.bars
  /-- The command register is the lower half of its word. -/
  command : (f.bar index).2.command.value &&& 0xFFFF = f.command.value &&& 0xFFFF

/-- Sizing is exact just where the size of the window has a bit in the lower register, and for ports in its lower half. -/
theorem sizes_iff {f : Function} {layout : List Region} (h : f.Declares layout) (index : Nat) :
    f.Sizes layout index ↔ ∀ r ∈ regionAt layout index, r.Low := by
  have hbar := bar_eq h index
  cases hat : regionAt layout index with
  | none =>
    rw [hat] at hbar
    refine iff_of_true ⟨?_, ?_, ?_⟩ nofun <;> rw [hbar]
    rw [hat]
    rfl
  | some r =>
    rw [hat] at hbar
    constructor
    · intro hsizes r' hr'
      have hfound := hsizes.found
      rw [hbar, hat] at hfound
      exact Option.some.inj hr' ▸ r.found_eq_bar.1 hfound
    · intro hlow
      refine ⟨?_, ?_, ?_⟩ <;> rw [hbar]
      · rw [hat]
        exact r.found_eq_bar.2 (hlow r rfl)
      · rfl
      · exact Register.write_back_low h.command _

/-- A function with one 64-bit window, of `2 ^ log` bytes from 8 GiB on. -/
def oneWindow (log : Nat) : Function where
  headerType := 0
  command := ⟨0x00100006, 0x0547, 0xF9000000⟩
  bars := (Region.wide true log (2 ^ 33) :: List.replicate 4 .unimplemented).flatMap Region.registers

theorem oneWindow_declares {log : Nat} (h4 : 4 ≤ log) (hlog : log ≤ 33) :
    (oneWindow log).Declares (.wide true log (2 ^ 33) :: List.replicate 4 .unimplemented) where
  bars := rfl
  count := rfl
  valid r hr := by
    rcases List.mem_cons.1 hr with rfl | hr
    · exact ⟨h4, by omega, pow_dvd_pow 2 hlog, by decide⟩
    · rw [List.eq_of_mem_replicate hr]
      trivial
  command := show (0xF9000000 : UInt32) &&& 0xFFFF = 0 by decide

/-- A window of 16 MiB is sized. -/
theorem oneWindow_sized :
    (oneWindow 24).Sizes (.wide true 24 (2 ^ 33) :: List.replicate 4 .unimplemented) 0 :=
  (sizes_iff (oneWindow_declares (by decide) (by decide)) 0).2 fun _ h => Option.some.inj h ▸ (by decide : 24 < 32)

/-- A window of 4 GiB is not found. -/
theorem oneWindow_missed :
    (oneWindow 32).Declares (.wide true 32 (2 ^ 33) :: List.replicate 4 .unimplemented) ∧
      ((oneWindow 32).bar 0).1 = none ∧
      ¬(oneWindow 32).Sizes (.wide true 32 (2 ^ 33) :: List.replicate 4 .unimplemented) 0 := by
  have hnone : ((oneWindow 32).bar 0).1 = none := by decide
  refine ⟨oneWindow_declares (by decide) (by decide), hnone, fun h => ?_⟩
  have hfound := h.found
  rw [hnone] at hfound
  exact absurd hfound (by decide)

end Function

end NanoChrono.Pci
