import Mathlib.Data.Nat.Bitwise
import Mathlib.Tactic

/-! # EDID blocks

What a monitor says of itself: a base block with four descriptors, and extension blocks, of which those of DisplayID
hold data blocks of their own. Blocks are vectors of their length, so that a fixed index lies inside; a slice at a place
that the data chose is `none` where it would lie outside, and no walk over a block takes one
(`DisplayIdTimings.collect_some`). -/

namespace NanoChrono.Display

/-! ## Blocks -/

/-- The base block's length. -/
def BLOCK_LEN : ℕ := 128

/-- A block, base or extension. -/
abbrev Block := Vector UInt8 BLOCK_LEN

/-- The slice of `n` bytes from `pos`, if it lies inside. -/
def part {m : ℕ} (v : Vector UInt8 m) (pos n : ℕ) : Option (Vector UInt8 n) :=
  if h : pos + n ≤ m then some (Vector.ofFn fun i => v[pos + i]) else none

/-- The bytes' sum, modulo 256. -/
def sum (b : Block) : UInt8 := b.toList.foldl (· + ·) 0

/-- Every EDID starts with these eight bytes. -/
def HEADER : Vector UInt8 8 := #v[0x00, 0xFF, 0xFF, 0xFF, 0xFF, 0xFF, 0xFF, 0x00]

/-- Why bytes are not an EDID this can read. -/
inductive Error where
  /-- Fewer than 128 bytes. -/
  | short
  /-- The fixed header is not there. -/
  | header
  /-- The block's bytes do not sum to zero. -/
  | checksum
  /-- Not EDID version 1. -/
  | version
deriving DecidableEq, Repr

/-- One detailed timing: a mode the monitor accepts. -/
structure Timing where
  width : ℕ
  height : ℕ
  pixel_clock_khz : ℕ
  /-- Refresh rate in millihertz. -/
  refresh_mhz : ℕ
  interlaced : Bool
  /-- The image size this mode shows, in millimetres. -/
  size_mm : ℕ × ℕ
  /-- Marked as the display's preferred mode. -/
  preferred : Bool
deriving DecidableEq, Repr

/-- A validated base block, and everything the caller passed after it. -/
structure Edid where
  block : Block
  rest : List UInt8
deriving DecidableEq

/-- The first block of some bytes. -/
def first (bytes : List UInt8) (h : BLOCK_LEN ≤ bytes.length) : Block := Vector.ofFn fun i => bytes[i]

/-- The whole blocks of some bytes, one after another. -/
def chunks_exact (bytes : List UInt8) : List Block :=
  if h : BLOCK_LEN ≤ bytes.length then first bytes h :: chunks_exact (bytes.drop BLOCK_LEN) else []
termination_by bytes.length
decreasing_by
  rw [List.length_drop]
  unfold BLOCK_LEN at *
  omega

/-- The four 18-byte descriptors' offsets. -/
def DESCRIPTORS : List (Fin 111) := [54, 72, 90, 108]

theorem descriptor_lt (pos : Fin 111) (i : Fin 18) : pos.val + i.val < BLOCK_LEN := by
  have hpos := pos.isLt
  have hi := i.isLt
  unfold BLOCK_LEN
  omega

/-- A descriptor. -/
def descriptor (b : Block) (pos : Fin 111) : Vector UInt8 18 :=
  Vector.ofFn fun i => b.get ⟨pos.val + i.val, descriptor_lt pos i⟩

/-- Extension block tags: DisplayID. -/
def EXT_DISPLAYID : UInt8 := 0x70

/-- DisplayID data blocks: 1.x type I detailed timings. -/
def DID_TYPE_I : UInt8 := 0x03

/-- 2.0 type VII detailed timings. -/
def DID_TYPE_VII : UInt8 := 0x22

def DID_TIMING_LEN : ℕ := 20

/-! ## Timings -/

/-- A number kept in 32 bits. -/
def u32 (n : ℕ) : ℕ := n % 2 ^ 32

/-- A number as 32 bits, if it fits. -/
def try_u32 (n : ℕ) : Option ℕ := if n < 2 ^ 32 then some n else none

/-- A 16-bit field, low byte first. -/
def le16 (low high : UInt8) : ℕ := low.toNat ||| high.toNat <<< 8

/-- An 18-byte detailed timing descriptor, or `none` for a display descriptor or a timing with no picture. -/
def timing (d : Vector UInt8 18) : Option Timing :=
  let clock := le16 d[0] d[1] * 10
  if clock = 0 then none
  else
    let width := d[2].toNat ||| (d[4].toNat &&& 0xF0) <<< 4
    let hblank := d[3].toNat ||| (d[4].toNat &&& 0x0F) <<< 8
    let height := d[5].toNat ||| (d[7].toNat &&& 0xF0) <<< 4
    let vblank := d[6].toNat ||| (d[7].toNat &&& 0x0F) <<< 8
    if width = 0 ∨ height = 0 then none
    else
      let interlaced : Bool := d[17] &&& 0x80 ≠ 0
      let total := (width + hblank) * (height + vblank)
      let refresh := clock * 1000000 / total
      let refresh := if interlaced then refresh / 2 else refresh
      let size_mm := (d[12].toNat ||| (d[14].toNat &&& 0xF0) <<< 4, d[13].toNat ||| (d[14].toNat &&& 0x0F) <<< 8)
      some ⟨width, height, clock, u32 refresh, interlaced, size_mm, false⟩

/-- A 20-byte DisplayID detailed timing: every field is stored as its value minus one, the clock in `unit_khz`. -/
def displayid_timing (d : Vector UInt8 20) (unit_khz : ℕ) : Option Timing :=
  let clock_khz := ((d[0].toNat ||| d[1].toNat <<< 8 ||| d[2].toNat <<< 16) + 1) * unit_khz
  let options := d[3]
  let width := le16 d[4] d[5] + 1
  let hblank := le16 d[6] d[7] + 1
  let height := le16 d[12] d[13] + 1
  let vblank := le16 d[14] d[15] + 1
  let interlaced : Bool := options &&& 0x10 ≠ 0
  let total := (width + hblank) * (height + vblank)
  let refresh := clock_khz * 1000000 / total
  let refresh := if interlaced then refresh / 2 else refresh
  match try_u32 clock_khz, try_u32 refresh with
  | some pixel_clock_khz, some refresh_mhz =>
    some ⟨width, height, pixel_clock_khz, refresh_mhz, interlaced, (0, 0), options &&& 0x80 ≠ 0⟩
  | _, _ => none

/-! ## A DisplayID extension block -/

/-- The timings in one DisplayID extension block: where the next data block starts and the section ends, and the data
block being read: its tag and what of it is left. -/
structure DisplayIdTimings where
  block : Block
  pos : ℕ
  stop : ℕ
  current : Option (UInt8 × ℕ × ℕ)

namespace DisplayIdTimings

/-- The section ends before its own checksum, inside the block whose last byte is the EDID's. -/
def new (block : Block) : DisplayIdTimings :=
  ⟨block, 5, min (5 + block[2].toNat) (BLOCK_LEN - 2), none⟩

/-- What one turn of the iterator's loop does. -/
inductive Turn where
  /-- The section is at its end. -/
  | done
  /-- The loop goes on. -/
  | again (next : DisplayIdTimings)
  /-- A timing is returned. -/
  | found (t : Timing) (next : DisplayIdTimings)

variable (s : DisplayIdTimings)

/-- The next data block; `none` where an index lies outside the block. -/
def advance : Option Turn :=
  if s.pos + 3 > s.stop then some .done
  else
    match s.block[s.pos]?, s.block[s.pos + 2]? with
    | some tag, some len =>
      let start := s.pos + 3
      let stop := start + len.toNat
      if stop > s.stop then some .done
      else if tag = DID_TYPE_I ∨ tag = DID_TYPE_VII then
        some (.again { s with pos := stop, current := some (tag, start, stop) })
      else some (.again { s with pos := stop, current := none })
    | _, _ => none

/-- One turn: the next timing of the data block being read, or the next data block. -/
def turn : Option Turn :=
  match s.current with
  | none => advance s
  | some (tag, pos, stop) =>
    if pos + DID_TIMING_LEN ≤ stop then
      let next := { s with current := some (tag, pos + DID_TIMING_LEN, stop) }
      let unit_khz := if tag = DID_TYPE_I then 10 else 1
      match part s.block pos DID_TIMING_LEN with
      | none => none
      | some d =>
        match displayid_timing d unit_khz with
        | some t => some (.found t next)
        | none => some (.again next)
    else advance { s with current := none }

/-- What is left to walk. -/
def left : ℕ := s.stop - s.pos + match s.current with
  | some (_, pos, stop) => stop - pos
  | none => 0

variable {s} {next : DisplayIdTimings} {t : Timing}

/-- The next data block, where there is one: it lies inside the section. -/
theorem advance_again (h : advance s = some (.again next)) :
    next.block = s.block ∧ next.stop = s.stop ∧ next.pos ≤ s.stop ∧
      ∃ tag len, s.block[s.pos]? = some tag ∧ s.block[s.pos + 2]? = some len ∧ next.pos = s.pos + 3 + len.toNat ∧
        (next.current = none ∨
          ((tag = DID_TYPE_I ∨ tag = DID_TYPE_VII) ∧ next.current = some (tag, s.pos + 3, next.pos))) := by
  unfold advance at h
  split_ifs at h with hend
  · simp at h
  split at h
  · rename_i tag len htag hlen
    dsimp only at h
    split_ifs at h with hstop hkind
    · simp at h
    · obtain rfl := (Turn.again.inj (Option.some.inj h)).symm
      exact ⟨rfl, rfl, not_lt.mp hstop, tag, len, htag, hlen, rfl, .inr ⟨hkind, rfl⟩⟩
    · obtain rfl := (Turn.again.inj (Option.some.inj h)).symm
      exact ⟨rfl, rfl, not_lt.mp hstop, tag, len, htag, hlen, rfl, .inl rfl⟩
  · simp at h

/-- Finding a data block returns no timing. -/
theorem advance_not_found : advance s ≠ some (.found t next) := by
  unfold advance
  split_ifs
  · simp
  · split
    · dsimp only
      split_ifs <;> simp
    · simp

/-- Every turn that goes on leaves less to walk. -/
theorem turn_left (h : turn s = some (.again next) ∨ turn s = some (.found t next)) : next.left < s.left := by
  have hadvance {s : DisplayIdTimings} (h : advance s = some (.again next)) : next.left < s.stop - s.pos := by
    obtain ⟨-, hstop, hpos, tag, len, -, -, hnext, hcurrent⟩ := advance_again h
    unfold left
    rcases hcurrent with hcurrent | ⟨-, hcurrent⟩ <;> simp only [hcurrent, hstop] <;> omega
  unfold turn at h
  cases hcurrent : s.current with
  | none =>
    simp only [hcurrent] at h
    have hlt := hadvance (h.resolve_right advance_not_found)
    unfold left at hlt ⊢
    omega
  | some c =>
    obtain ⟨tag, pos, stop⟩ := c
    simp only [hcurrent] at h
    by_cases hroom : pos + DID_TIMING_LEN ≤ stop
    · simp only [if_pos hroom] at h
      cases hpart : part s.block pos DID_TIMING_LEN with
      | none => simp [hpart] at h
      | some d =>
        have hnext : next = { s with current := some (tag, pos + DID_TIMING_LEN, stop) } := by
          simp only [hpart] at h
          split at h <;> simp_all
        unfold left DID_TIMING_LEN at *
        simp only [hnext, hcurrent]
        omega
    · simp only [if_neg hroom] at h
      have hlt := hadvance (h.resolve_right advance_not_found)
      unfold left at hlt ⊢
      simp only [hcurrent] at hlt ⊢
      omega

/-- The timings the iterator returns until it ends. -/
def collect (s : DisplayIdTimings) : Option (List Timing) :=
  match _h : turn s with
  | none => none
  | some .done => some []
  | some (.again next) => collect next
  | some (.found t next) => (collect next).map (t :: ·)
termination_by s.left
decreasing_by
  · exact turn_left (t := ⟨0, 0, 0, 0, false, (0, 0), false⟩) (.inl _h)
  · exact turn_left (.inr _h)

end DisplayIdTimings

/-! ## The EDID -/

/-- The larger of two keys, the second where they are equal. -/
def larger (key : Timing → ℕ × ℕ) (best t : Timing) : Timing :=
  if (key best).1 < (key t).1 ∨ ((key best).1 = (key t).1 ∧ (key best).2 ≤ (key t).2) then t else best

/-- `max_by_key`: the last of the largest. -/
def max_by_key (key : Timing → ℕ × ℕ) : List Timing → Option Timing
  | [] => none
  | t :: ts => some (ts.foldl (larger key) t)

namespace Edid

/-- Checks the header, the checksum and the version of the first block. -/
def parse (bytes : List UInt8) : Except Error Edid :=
  if h : BLOCK_LEN ≤ bytes.length then
    let block := first bytes h
    if block.toList.take 8 ≠ HEADER.toList then .error .header
    else if sum block ≠ 0 then .error .checksum
    else if block[18] ≠ 1 then .error .version
    else .ok ⟨block, bytes.drop BLOCK_LEN⟩
  else .error .short

variable (e : Edid)

/-- How many extension blocks follow this one. -/
def extensions : UInt8 := e.block[126]

/-- Whether the first descriptor is marked preferred: from EDID 1.3 on, before by a feature bit. -/
def first_preferred : Bool := e.block[24] &&& 0x02 ≠ 0 || e.block[19] ≥ 3

/-- The timing of the `i`th descriptor. -/
def timing_at (p : Fin 111 × ℕ) : Option Timing :=
  (timing (descriptor e.block p.1)).map fun t => { t with preferred := p.2 == 0 && e.first_preferred }

/-- The detailed timings in the base block, in order. -/
def timings : List Timing := DESCRIPTORS.zipIdx.filterMap e.timing_at

/-- The extension blocks that came with the base block, as many as it announces, each with a valid checksum. -/
def extension_blocks : List Block := ((chunks_exact e.rest).take e.extensions.toNat).filter (sum · = 0)

/-- The detailed timings of every DisplayID extension block. -/
def displayid_timings : Option (List Timing) :=
  ((e.extension_blocks.filter (·[0] = EXT_DISPLAYID)).mapM fun b => (DisplayIdTimings.new b).collect).map List.flatten

/-- The native mode: the largest timing marked preferred. -/
def preferred : Option (Option Timing) :=
  e.displayid_timings.map fun ts =>
    max_by_key (fun t => (t.width * t.height, t.refresh_mhz)) ((e.timings ++ ts).filter (·.preferred))

end Edid

end NanoChrono.Display

/-! # What a monitor's timings say

The format's fields as arithmetic on a descriptor's bytes (`Describes`, `DescribesId`), and where in a section data blocks
stand (`Walked`). What is read of a DisplayID section says what its bytes do; the base block's descriptors too, but for
the refresh rate, which 32 bits may not hold (`Edid.timings_exact_iff`). -/

namespace NanoChrono.Display

/-! ## The format -/

/-- A refresh rate in millihertz: the clock over the pixels of a frame, of which an interlaced timing describes half. -/
def rate (clock_khz total : ℕ) (interlaced : Bool) : ℕ := clock_khz * 1000000 / (total * if interlaced then 2 else 1)

/-- The fields of a detailed timing descriptor. -/
structure Fields where
  clock_khz : ℕ
  width : ℕ
  height : ℕ
  /-- The pixels of a frame, with the blanking. -/
  total : ℕ
  interlaced : Bool
  size_mm : ℕ × ℕ
deriving DecidableEq

/-- A 12-bit field: its low byte, and a nibble of another. -/
def high (b : UInt8) : ℕ := 256 * (b.toNat / 16)

/-- The other nibble. -/
def low (b : UInt8) : ℕ := 256 * (b.toNat % 16)

/-- The fields of an 18-byte descriptor. -/
def fields (d : Vector UInt8 18) : Fields where
  clock_khz := (d[0].toNat + 256 * d[1].toNat) * 10
  width := d[2].toNat + high d[4]
  height := d[5].toNat + high d[7]
  total := (d[2].toNat + high d[4] + (d[3].toNat + low d[4])) * (d[5].toNat + high d[7] + (d[6].toNat + low d[7]))
  interlaced := d[17].toNat.testBit 7
  size_mm := (d[12].toNat + high d[14], d[13].toNat + low d[14])

/-- The fields of a 20-byte DisplayID timing, each stored as its value minus one. -/
def fieldsId (d : Vector UInt8 20) (unit_khz : ℕ) : Fields where
  clock_khz := (d[0].toNat + 256 * d[1].toNat + 65536 * d[2].toNat + 1) * unit_khz
  width := d[4].toNat + 256 * d[5].toNat + 1
  height := d[12].toNat + 256 * d[13].toNat + 1
  total := (d[4].toNat + 256 * d[5].toNat + 1 + (d[6].toNat + 256 * d[7].toNat + 1)) *
    (d[12].toNat + 256 * d[13].toNat + 1 + (d[14].toNat + 256 * d[15].toNat + 1))
  interlaced := d[3].toNat.testBit 4
  size_mm := (0, 0)

/-- A timing says what the fields do, its rate the exact one. -/
structure Describes (f : Fields) (t : Timing) : Prop where
  width : t.width = f.width
  height : t.height = f.height
  clock : t.pixel_clock_khz = f.clock_khz
  refresh : t.refresh_mhz = rate f.clock_khz f.total f.interlaced
  interlaced : t.interlaced = f.interlaced
  size : t.size_mm = f.size_mm

/-! ## Fields in bits -/

theorem le16_eq (a b : UInt8) : le16 a b = a.toNat + 256 * b.toNat := by
  unfold le16
  rw [Nat.or_comm, ← Nat.shiftLeft_add_eq_or_of_lt a.toNat_lt, Nat.shiftLeft_eq]
  omega

/-- The upper nibble of one byte over another. -/
theorem high_eq (a b : UInt8) : a.toNat ||| (b.toNat &&& 0xF0) <<< 4 = a.toNat + high b := by
  have hnibble : ∀ n < 256, n &&& 0xF0 = n / 16 * 16 := by decide +kernel
  rw [hnibble _ b.toNat_lt, Nat.shiftLeft_eq, Nat.mul_assoc, ← Nat.shiftLeft_eq (b.toNat / 16) 8, Nat.or_comm,
    ← Nat.shiftLeft_add_eq_or_of_lt a.toNat_lt, Nat.shiftLeft_eq, high]
  omega

/-- The lower nibble. -/
theorem low_eq (a b : UInt8) : a.toNat ||| (b.toNat &&& 0x0F) <<< 8 = a.toNat + low b := by
  rw [show b.toNat &&& 0x0F = b.toNat % 16 from Nat.and_two_pow_sub_one_eq_mod _ 4, Nat.or_comm, ← Nat.shiftLeft_add_eq_or_of_lt a.toNat_lt, Nat.shiftLeft_eq, low]
  omega

/-- A 24-bit field. -/
theorem le24_eq (a b c : UInt8) :
    a.toNat ||| b.toNat <<< 8 ||| c.toNat <<< 16 = a.toNat + 256 * b.toNat + 65536 * c.toNat := by
  have hlow : a.toNat ||| b.toNat <<< 8 = a.toNat + 256 * b.toNat := le16_eq a b
  have ha := a.toNat_lt
  have hb := b.toNat_lt
  rw [hlow, Nat.or_comm, ← Nat.shiftLeft_add_eq_or_of_lt (by omega), Nat.shiftLeft_eq]
  omega

/-- A flag is its bit. -/
theorem flag_eq (b : UInt8) (i : ℕ) (hi : i < 8) : (b &&& UInt8.ofNat (2 ^ i) ≠ 0) ↔ b.toNat.testBit i = true := by
  have hsmall : 2 ^ i < 2 ^ 8 := Nat.pow_lt_pow_right (by norm_num) hi
  rw [ne_eq, ← UInt8.toNat_inj, UInt8.toNat_and, UInt8.toNat_ofNat', Nat.mod_eq_of_lt hsmall, Nat.and_two_pow]
  cases b.toNat.testBit i <;> simp

/-- Half of a rate, rounded down twice, is rounded down once. -/
theorem rate_eq (clock total : ℕ) (interlaced : Bool) :
    (if interlaced then clock * 1000000 / total / 2 else clock * 1000000 / total) = rate clock total interlaced := by
  unfold rate
  cases interlaced
  · simp
  · simp [Nat.div_div_eq_div_mul]

/-! ## One timing -/

/-- A descriptor is of no timing: its clock is zero or it has no picture. -/
def Fields.Blank (f : Fields) : Prop := f.clock_khz = 0 ∨ f.width = 0 ∨ f.height = 0

instance (f : Fields) : Decidable f.Blank := inferInstanceAs (Decidable (_ ∨ _ ∨ _))

/-- The exact rate of a timing. -/
def Fields.rate (f : Fields) : ℕ := Display.rate f.clock_khz f.total f.interlaced

/-- The timing of some fields, its rate as 32 bits keep it. -/
def Fields.kept (f : Fields) (preferred : Bool) : Timing :=
  ⟨f.width, f.height, f.clock_khz, u32 f.rate, f.interlaced, f.size_mm, preferred⟩

/-- What a descriptor gives: no timing where it is of none, else its fields, the rate as 32 bits keep it. -/
theorem timing_eq (d : Vector UInt8 18) : timing d = if (fields d).Blank then none else some ((fields d).kept false) := by
  have hflag : decide (d[17] &&& 0x80 ≠ 0) = d[17].toNat.testBit 7 := by
    rw [Bool.eq_iff_iff, decide_eq_true_iff]
    exact flag_eq _ 7 (by norm_num)
  have hread : timing d = if (fields d).clock_khz = 0 then none
      else if (fields d).width = 0 ∨ (fields d).height = 0 then none else some ((fields d).kept false) := by
    unfold timing
    simp only [le16_eq, high_eq, low_eq, hflag]
    rw [rate_eq]
    rfl
  rw [hread]
  by_cases hclock : (fields d).clock_khz = 0
  · rw [if_pos hclock, if_pos (show (fields d).Blank from .inl hclock)]
  by_cases hpicture : (fields d).width = 0 ∨ (fields d).height = 0
  · rw [if_neg hclock, if_pos hpicture, if_pos (show (fields d).Blank from .inr hpicture)]
  · have hsome : ¬ (fields d).Blank := fun h => h.elim hclock hpicture
    rw [if_neg hclock, if_neg hpicture, if_neg hsome]

/-- What a DisplayID timing gives: its fields, or no timing where the rate is too large. -/
theorem displayid_timing_eq (d : Vector UInt8 20) {unit_khz : ℕ} (hunit : unit_khz ≤ 10) :
    displayid_timing d unit_khz =
      if (fieldsId d unit_khz).rate < 2 ^ 32 then
        some ⟨(fieldsId d unit_khz).width, (fieldsId d unit_khz).height, (fieldsId d unit_khz).clock_khz,
          (fieldsId d unit_khz).rate, (fieldsId d unit_khz).interlaced, (0, 0), d[3].toNat.testBit 7⟩
      else none := by
  have hflag (i : ℕ) (hi : i < 8) : decide (d[3] &&& UInt8.ofNat (2 ^ i) ≠ 0) = d[3].toNat.testBit i := by
    rw [Bool.eq_iff_iff, decide_eq_true_iff]
    exact flag_eq _ i hi
  have hinterlaced : decide (d[3] &&& 0x10 ≠ 0) = d[3].toNat.testBit 4 := hflag 4 (by norm_num)
  have hpreferred : decide (d[3] &&& 0x80 ≠ 0) = d[3].toNat.testBit 7 := hflag 7 (by norm_num)
  have hclock : (d[0].toNat + 256 * d[1].toNat + 65536 * d[2].toNat + 1) * unit_khz < 2 ^ 32 := by
    have h0 := d[0].toNat_lt
    have h1 := d[1].toNat_lt
    have h2 := d[2].toNat_lt
    calc (d[0].toNat + 256 * d[1].toNat + 65536 * d[2].toNat + 1) * unit_khz ≤ 2 ^ 24 * 10 := by
          apply Nat.mul_le_mul _ hunit
          omega
      _ < 2 ^ 32 := by norm_num
  unfold displayid_timing Fields.rate fieldsId
  simp only [le16_eq, le24_eq, hinterlaced, hpreferred]
  rw [← rate_eq, try_u32, if_pos hclock, try_u32]
  split_ifs <;> rfl

/-! ## A section -/

/-- The places at which data blocks of a section start: the first, and after each that lies inside the section. -/
inductive Walked (b : Block) (stop : ℕ) : ℕ → Prop where
  | start : Walked b stop 5
  | next {p : ℕ} {len : UInt8} : Walked b stop p → b[p + 2]? = some len → p + 3 + len.toNat ≤ stop →
      Walked b stop (p + 3 + len.toNat)

/-- A data block of timings that lies wholly inside the section: where it starts, its tag and its length. -/
structure DataBlock (b : Block) (stop p : ℕ) (tag len : UInt8) : Prop where
  walked : Walked b stop p
  tagged : b[p]? = some tag
  measured : b[p + 2]? = some len
  kind : tag = DID_TYPE_I ∨ tag = DID_TYPE_VII
  inside : p + 3 + len.toNat ≤ stop

/-- Where the section of a block ends. -/
def sectionEnd (b : Block) : ℕ := min (5 + b[2].toNat) (BLOCK_LEN - 2)

/-- The clock's unit in a data block. -/
def unitOf (tag : UInt8) : ℕ := if tag = DID_TYPE_I then 10 else 1

/-- A timing that a section states: the fields of twenty bytes of one of its data blocks. -/
def States (b : Block) (t : Timing) : Prop :=
  ∃ p tag len i d, DataBlock b (sectionEnd b) p tag len ∧ (i + 1) * DID_TIMING_LEN ≤ len.toNat ∧
    part b (p + 3 + i * DID_TIMING_LEN) DID_TIMING_LEN = some d ∧ Describes (fieldsId d (unitOf tag)) t ∧
    (t.preferred ↔ d[3].toNat.testBit 7)

namespace DisplayIdTimings

/-- What holds of the iterator at every turn. -/
structure Inside (b : Block) (s : DisplayIdTimings) : Prop where
  block : s.block = b
  stop : s.stop = sectionEnd b
  walked : Walked b (sectionEnd b) s.pos
  current : ∀ tag pos stop, s.current = some (tag, pos, stop) →
    ∃ p len i, DataBlock b (sectionEnd b) p tag len ∧ pos = p + 3 + i * DID_TIMING_LEN ∧ stop = p + 3 + len.toNat

variable {b : Block} {s next : DisplayIdTimings} {t : Timing}

theorem sectionEnd_le (b : Block) : sectionEnd b ≤ 126 := min_le_right _ _

theorem inside_new (b : Block) : Inside b (new b) :=
  ⟨rfl, rfl, .start, fun _ _ _ h => by simp [new] at h⟩

/-- Finding the next data block takes no index outside. -/
theorem advance_ne_none (h : Inside b s) : advance s ≠ none := by
  have hend := sectionEnd_le b
  have hstop := h.stop
  unfold advance
  split_ifs with hpast
  · simp
  · have hlt0 : s.pos < BLOCK_LEN := by
      unfold BLOCK_LEN
      omega
    have hlt2 : s.pos + 2 < BLOCK_LEN := by
      unfold BLOCK_LEN
      omega
    have h0 : s.block[s.pos]? = some s.block[s.pos] := Vector.getElem?_eq_getElem hlt0
    have h2 : s.block[s.pos + 2]? = some s.block[s.pos + 2] := Vector.getElem?_eq_getElem hlt2
    rw [h0, h2]
    dsimp only
    split_ifs <;> simp

/-- The data block found lies inside the section. -/
theorem advance_inside (h : Inside b s) (ha : advance s = some (.again next)) : Inside b next := by
  obtain ⟨hblock, hstop, hle, tag, len, htag, hlen, hpos, hcurrent⟩ := advance_again ha
  rw [h.block] at htag hlen hblock
  rw [h.stop] at hstop hle
  have hwalked : Walked b (sectionEnd b) next.pos := by
    rw [hpos] at hle ⊢
    exact .next h.walked hlen hle
  refine ⟨hblock, hstop, hwalked, ?_⟩
  intro tag' pos stop hc
  rcases hcurrent with hnone | ⟨hkind, hsome⟩
  · rw [hnone] at hc
    cases hc
  · rw [hsome] at hc
    obtain ⟨rfl, rfl, rfl⟩ : tag = tag' ∧ s.pos + 3 = pos ∧ next.pos = stop := by simpa using hc
    exact ⟨s.pos, len, 0, ⟨h.walked, htag, hlen, hkind, hpos ▸ hle⟩, by simp, hpos⟩

/-- One turn: no index lies outside, and a timing returned is one the section states. -/
theorem turn_inside (h : Inside b s) :
    turn s ≠ none ∧ (∀ next, turn s = some (.again next) → Inside b next) ∧
      ∀ t next, turn s = some (.found t next) → Inside b next ∧ States b t := by
  unfold turn
  cases hcurrent : s.current with
  | none =>
    exact ⟨advance_ne_none h, fun next hn => advance_inside h hn, fun t next hf => absurd hf advance_not_found⟩
  | some c =>
    obtain ⟨tag, pos, stop⟩ := c
    obtain ⟨p, len, i, hdata, rfl, rfl⟩ := h.current tag pos stop hcurrent
    have hclear : Inside b { s with current := none } := ⟨h.block, h.stop, h.walked, fun _ _ _ hc => by cases hc⟩
    by_cases hroom : p + 3 + i * DID_TIMING_LEN + DID_TIMING_LEN ≤ p + 3 + len.toNat
    swap
    · simp only [if_neg hroom]
      exact ⟨advance_ne_none hclear, fun next hn => advance_inside hclear hn,
        fun t next hf => absurd hf advance_not_found⟩
    simp only [if_pos hroom]
    have hbound : p + 3 + i * DID_TIMING_LEN + DID_TIMING_LEN ≤ BLOCK_LEN := by
      have hend := sectionEnd_le b
      have hinside := hdata.inside
      unfold BLOCK_LEN
      omega
    obtain ⟨d, hd⟩ : ∃ d, part s.block (p + 3 + i * DID_TIMING_LEN) DID_TIMING_LEN = some d := by
      unfold part
      rw [dif_pos hbound]
      exact ⟨_, rfl⟩
    have hnext : Inside b
        { s with current := some (tag, p + 3 + i * DID_TIMING_LEN + DID_TIMING_LEN, p + 3 + len.toNat) } := by
      refine ⟨h.block, h.stop, h.walked, ?_⟩
      intro tag' pos' stop' hc
      obtain ⟨rfl, rfl, rfl⟩ : tag = tag' ∧ p + 3 + i * DID_TIMING_LEN + DID_TIMING_LEN = pos' ∧
          p + 3 + len.toNat = stop' := by simpa using hc
      exact ⟨p, len, i + 1, hdata, by ring, rfl⟩
    simp only [hd]
    have hunit : unitOf tag ≤ 10 := by
      unfold unitOf
      split_ifs <;> norm_num
    rw [show (if tag = DID_TYPE_I then 10 else 1) = unitOf tag from rfl, displayid_timing_eq d hunit]
    split_ifs with hfits
    · refine ⟨by simp, by simp, ?_⟩
      intro t next hf
      obtain ⟨rfl, rfl⟩ := Turn.found.inj (Option.some.inj hf)
      refine ⟨hnext, p, tag, len, i, d, hdata, ?_, h.block ▸ hd, ⟨rfl, rfl, rfl, rfl, rfl, rfl⟩, Iff.rfl⟩
      rw [Nat.succ_mul]
      omega
    · refine ⟨by simp, ?_, by simp⟩
      intro next hn
      obtain rfl := Turn.again.inj (Option.some.inj hn)
      exact hnext

/-- The whole walk ends and takes no index outside, and the section states every timing it returns. -/
theorem collect_inside (h : Inside b s) : ∃ ts, collect s = some ts ∧ ∀ t ∈ ts, States b t := by
  induction s using collect.induct with
  | case1 s hturn => exact absurd hturn (turn_inside h).1
  | case2 s hturn =>
    refine ⟨[], ?_, by simp⟩
    rw [collect]
    split <;> simp_all
  | case3 s next hturn ih =>
    obtain ⟨ts, hcollect, hall⟩ := ih ((turn_inside h).2.1 next hturn)
    refine ⟨ts, ?_, hall⟩
    rw [collect]
    split <;> simp_all
  | case4 s t next hturn ih =>
    obtain ⟨hinside, hstates⟩ := (turn_inside h).2.2 t next hturn
    obtain ⟨ts, hcollect, hall⟩ := ih hinside
    refine ⟨t :: ts, ?_, ?_⟩
    · rw [collect]
      split <;> simp_all
    · intro x hx
      rcases List.mem_cons.mp hx with rfl | hx
      · exact hstates
      · exact hall x hx

end DisplayIdTimings

/-! ## The largest -/

/-- The last of the largest is one of them, and no other is larger. -/
theorem max_by_key_spec (key : Timing → ℕ × ℕ) (ts : List Timing) :
    (max_by_key key ts = none → ts = []) ∧
      ∀ best, max_by_key key ts = some best → best ∈ ts ∧ ∀ t ∈ ts, (key t).1 ≤ (key best).1 := by
  -- The best of the first ones stays the best of them as larger ones replace it.
  have hfold (ts : List Timing) : ∀ t, ts.foldl (larger key) t ∈ t :: ts ∧
      ∀ u ∈ t :: ts, (key u).1 ≤ (key (ts.foldl (larger key) t)).1 := by
    induction ts with
    | nil => simp
    | cons a ts ih =>
      intro t
      obtain ⟨hmem, hall⟩ := ih (larger key t a)
      have hone : larger key t a = t ∨ larger key t a = a := by
        unfold larger
        split_ifs <;> simp
      have hlarger : (key t).1 ≤ (key (larger key t a)).1 ∧ (key a).1 ≤ (key (larger key t a)).1 := by
        unfold larger
        split_ifs with h <;> omega
      have hbest := hall _ List.mem_cons_self
      constructor
      · rcases List.mem_cons.mp hmem with heq | hmem
        · rw [List.foldl_cons, heq]
          rcases hone with h | h <;> simp [h]
        · exact List.mem_cons_of_mem _ (List.mem_cons_of_mem _ hmem)
      · intro u hu
        rw [List.foldl_cons]
        rcases List.mem_cons.mp hu with rfl | hu
        · exact hlarger.1.trans hbest
        · rcases List.mem_cons.mp hu with rfl | hu
          · exact hlarger.2.trans hbest
          · exact hall u (List.mem_cons_of_mem _ hu)
  cases ts with
  | nil => simp [max_by_key]
  | cons t ts =>
    refine ⟨by simp [max_by_key], ?_⟩
    rintro best hbest
    obtain rfl := Option.some.inj hbest
    exact hfold ts t

/-! ## The EDID -/

/-- The first block is the first bytes. -/
theorem toList_first (bytes : List UInt8) (h : BLOCK_LEN ≤ bytes.length) :
    (first bytes h).toList = bytes.take BLOCK_LEN := by
  apply List.ext_getElem
  · simpa using h
  · intro i hi hi'
    simp [first]

/-- The `k`th block is so many bytes from its place on. -/
theorem chunks_exact_getElem? {bytes : List UInt8} {k : ℕ} {b : Block} (h : (chunks_exact bytes)[k]? = some b) :
    b.toList = (bytes.drop (BLOCK_LEN * k)).take BLOCK_LEN := by
  induction k generalizing bytes with
  | zero =>
    rw [chunks_exact] at h
    split_ifs at h with hlen
    · obtain rfl : first bytes hlen = b := by simpa using h
      simpa using toList_first bytes hlen
    · simp at h
  | succ k ih =>
    rw [chunks_exact] at h
    split_ifs at h with hlen
    · have htail : (chunks_exact (bytes.drop BLOCK_LEN))[k]? = some b := by simpa using h
      have hrest := ih htail
      rwa [List.drop_drop, Nat.add_comm, ← Nat.mul_succ] at hrest
    · simp at h

/-- A walk over each of some blocks returns, if each does, what they return. -/
theorem mapM_collect {α β : Type} {f : α → Option β} (l : List α) (h : ∀ a ∈ l, ∃ b, f a = some b) :
    ∃ bs, l.mapM f = some bs ∧ ∀ b ∈ bs, ∃ a ∈ l, f a = some b := by
  induction l with
  | nil => exact ⟨[], rfl, by simp⟩
  | cons a l ih =>
    obtain ⟨b, hb⟩ := h a List.mem_cons_self
    obtain ⟨bs, hbs, hall⟩ := ih fun x hx => h x (List.mem_cons_of_mem _ hx)
    refine ⟨b :: bs, by simp [List.mapM_cons, hb, hbs], ?_⟩
    intro x hx
    rcases List.mem_cons.mp hx with rfl | hx
    · exact ⟨a, List.mem_cons_self, hb⟩
    · obtain ⟨a', ha', hfa⟩ := hall x hx
      exact ⟨a', List.mem_cons_of_mem _ ha', hfa⟩

namespace Edid

variable (e : Edid)

/-- A block that came with the base block: it is announced, its bytes follow, and they sum to zero. -/
def Announced (b : Block) : Prop :=
  ∃ k < e.extensions.toNat, b.toList = (e.rest.drop (BLOCK_LEN * k)).take BLOCK_LEN ∧ sum b = 0

/-- What is read says what the bytes do. -/
structure Exact : Prop where
  /-- A descriptor's timing has its fields and its exact rate; the first is preferred where the block says so. -/
  base : ∀ p ∈ DESCRIPTORS.zipIdx, ∀ t, e.timing_at p = some t →
    Describes (fields (descriptor e.block p.1)) t ∧
      (t.preferred ↔ p.2 = 0 ∧ (e.block[24].toNat.testBit 1 ∨ 3 ≤ e.block[19].toNat))
  /-- The extensions' timings are those stated by the sections of announced blocks. -/
  extended : ∃ ts, e.displayid_timings = some ts ∧
    ∀ t ∈ ts, ∃ b, e.Announced b ∧ b[0] = EXT_DISPLAYID ∧ States b t
  /-- The preferred timing is one of the largest that are marked so. -/
  chosen : ∃ ts best, e.displayid_timings = some ts ∧ e.preferred = some best ∧
    (best = none → ∀ t ∈ e.timings ++ ts, ¬ t.preferred) ∧
    ∀ t, best = some t → (t ∈ e.timings ++ ts ∧ t.preferred) ∧
      ∀ u ∈ e.timings ++ ts, u.preferred → u.width * u.height ≤ t.width * t.height

/-- The rate of every detailed timing of the base block fits 32 bits. -/
def RatesFit : Prop :=
  ∀ p ∈ DESCRIPTORS, ¬ (fields (descriptor e.block p)).Blank → (fields (descriptor e.block p)).rate < 2 ^ 32

instance : Decidable e.RatesFit := inferInstanceAs (Decidable (∀ p ∈ DESCRIPTORS, _ → _))

/-- The timing of a descriptor. -/
theorem timing_at_eq (p : Fin 111 × ℕ) : e.timing_at p =
    if (fields (descriptor e.block p.1)).Blank then none
    else some ((fields (descriptor e.block p.1)).kept (p.2 == 0 && e.first_preferred)) := by
  unfold timing_at
  rw [timing_eq]
  by_cases hblank : (fields (descriptor e.block p.1)).Blank
  · rw [if_pos hblank, if_pos hblank, Option.map_none]
  · rw [if_neg hblank, if_neg hblank, Option.map_some]
    rfl

/-- An extension's timings are always read exactly. -/
theorem displayid_timings_spec : ∃ ts, e.displayid_timings = some ts ∧
    ∀ t ∈ ts, ∃ b, e.Announced b ∧ b[0] = EXT_DISPLAYID ∧ States b t := by
  have hwalk (b : Block) := DisplayIdTimings.collect_inside (DisplayIdTimings.inside_new b)
  obtain ⟨tss, hmap, hall⟩ := mapM_collect (e.extension_blocks.filter (·[0] = EXT_DISPLAYID))
    (fun b _ => (hwalk b).imp fun _ h => h.1)
  refine ⟨tss.flatten, by rw [displayid_timings, hmap]; rfl, ?_⟩
  intro t ht
  obtain ⟨ts, hts, ht⟩ := List.mem_flatten.mp ht
  obtain ⟨b, hb, hcollect⟩ := hall ts hts
  obtain ⟨ts', hcollect', hstates⟩ := hwalk b
  rw [hcollect] at hcollect'
  obtain rfl := Option.some.inj hcollect'
  obtain ⟨hb, htag⟩ := List.mem_filter.mp hb
  obtain ⟨hb, hsum⟩ := List.mem_filter.mp hb
  obtain ⟨k, hk⟩ := List.getElem?_of_mem hb
  rw [List.getElem?_take] at hk
  split_ifs at hk with hlt
  exact ⟨b, ⟨k, hlt, chunks_exact_getElem? hk, by simpa using hsum⟩, by simpa using htag, hstates t ht⟩

/-- The preferred timing is one of the largest. -/
theorem preferred_spec : ∃ ts best, e.displayid_timings = some ts ∧ e.preferred = some best ∧
    (best = none → ∀ t ∈ e.timings ++ ts, ¬ t.preferred) ∧
    ∀ t, best = some t → (t ∈ e.timings ++ ts ∧ t.preferred) ∧
      ∀ u ∈ e.timings ++ ts, u.preferred → u.width * u.height ≤ t.width * t.height := by
  obtain ⟨ts, hts, -⟩ := e.displayid_timings_spec
  obtain ⟨hnone, hsome⟩ := max_by_key_spec (fun t => (t.width * t.height, t.refresh_mhz))
    ((e.timings ++ ts).filter (·.preferred))
  refine ⟨ts, _, hts, by rw [preferred, hts]; rfl, ?_, ?_⟩
  · intro hempty t ht hpreferred
    have hmem : t ∈ (e.timings ++ ts).filter (·.preferred) := List.mem_filter.mpr ⟨ht, hpreferred⟩
    rw [hnone hempty] at hmem
    exact List.not_mem_nil hmem
  · intro t ht
    obtain ⟨hmem, hall⟩ := hsome t ht
    exact ⟨by simpa using List.mem_filter.mp hmem, fun u hu hpreferred => hall u (List.mem_filter.mpr ⟨hu, hpreferred⟩)⟩

/-- **The timings.** Of every byte string that is accepted what is read says what the bytes do, just where every rate of
the base block's timings fits 32 bits. -/
theorem timings_exact_iff {bytes : List UInt8} {e : Edid} (h : parse bytes = .ok e) :
    (e.block.toList = bytes.take BLOCK_LEN ∧ e.rest = bytes.drop BLOCK_LEN) ∧ (e.Exact ↔ e.RatesFit) := by
  constructor
  · unfold parse at h
    split_ifs at h with hlen
    dsimp only at h
    split_ifs at h
    obtain rfl := (Except.ok.inj h).symm
    exact ⟨toList_first bytes hlen, rfl⟩
  have hmember (p : Fin 111) (hp : p ∈ DESCRIPTORS) : ∃ i, (p, i) ∈ DESCRIPTORS.zipIdx := by
    obtain ⟨i, hi, rfl⟩ := List.getElem_of_mem hp
    exact ⟨i, List.mem_zipIdx_iff_getElem?.mpr (List.getElem?_eq_getElem hi)⟩
  constructor
  · intro hexact p hp hsome
    obtain ⟨i, hi⟩ := hmember p hp
    have hat := e.timing_at_eq (p, i)
    rw [if_neg hsome] at hat
    -- A rate that 32 bits change is not the exact one.
    have hrefresh : u32 (fields (descriptor e.block p)).rate = (fields (descriptor e.block p)).rate :=
      (hexact.base (p, i) hi _ hat).1.refresh
    rw [← hrefresh]
    exact Nat.mod_lt _ (by norm_num)
  · intro hfit
    refine ⟨?_, e.displayid_timings_spec, e.preferred_spec⟩
    intro p hp t ht
    have hmem : p.1 ∈ DESCRIPTORS := (List.mem_zipIdx' hp).2 ▸ List.getElem_mem _
    rw [timing_at_eq] at ht
    split_ifs at ht with hblank
    obtain rfl := Option.some.inj ht
    refine ⟨⟨rfl, rfl, rfl, Nat.mod_eq_of_lt (hfit p.1 hmem hblank), rfl, rfl⟩, ?_⟩
    have hfeature : e.block[24] &&& 0x02 ≠ 0 ↔ e.block[24].toNat.testBit 1 = true := flag_eq _ 1 (by norm_num)
    have hrevision : e.block[19] ≥ 3 ↔ 3 ≤ e.block[19].toNat := UInt8.le_iff_toNat_le
    rw [← hrevision, ← hfeature]
    simp [Fields.kept, first_preferred]

/-- A block of revision 1.3 with one descriptor and its checksum. -/
def single (d : List UInt8) (checksum : UInt8) : List UInt8 :=
  HEADER.toList ++ List.replicate 10 0 ++ [1, 3] ++ List.replicate 34 0 ++ d ++ List.replicate 55 0 ++ [checksum]

/-- A block alone that has the header, the version and a checksum is accepted. -/
theorem parse_block {bytes : List UInt8} (h : BLOCK_LEN ≤ bytes.length) (hlen : bytes.length = BLOCK_LEN)
    (hheader : bytes.take 8 = HEADER.toList) (hsum : bytes.foldl (· + ·) 0 = 0) (hversion : bytes[18]? = some 1) :
    parse bytes = .ok ⟨first bytes h, []⟩ := by
  have hbytes : (first bytes h).toList = bytes := by
    rw [toList_first, ← hlen, List.take_length]
  have hone : (first bytes h)[18] = 1 := by
    have hget : bytes[18]? = some (first bytes h)[18] := by simp [first]
    exact Option.some.inj (hget.symm.trans hversion)
  rw [parse, dif_pos h]
  dsimp only
  rw [hbytes, sum, hbytes, if_neg (not_not.mpr hheader), if_neg (not_not.mpr hsum), if_neg (not_not.mpr hone),
    List.drop_of_length_le hlen.le]

/-- 640x480 at 25.18 MHz, of 800x525 pixels. -/
def vga : List UInt8 :=
  single [0xD6, 0x09, 0x80, 0xA0, 0x20, 0xE0, 0x2D, 0x10, 0, 0, 0, 0, 0, 0, 0, 0, 0, 0] 198

theorem length_vga : BLOCK_LEN ≤ vga.length := by
  simp [vga, single, HEADER, BLOCK_LEN]

/-- What is parsed of it. -/
def vgaEdid : Edid := ⟨first vga length_vga, []⟩

theorem parse_vga : parse vga = .ok vgaEdid :=
  parse_block length_vga (by decide +kernel) (by decide) (by decide +kernel) (by decide)

theorem vga_fits : vgaEdid.RatesFit := by
  decide +kernel

/-- Its timings are read exactly. -/
theorem timings_exact_vga : vgaEdid.Exact :=
  (timings_exact_iff parse_vga).2.mpr vga_fits

/-- One pixel at 655.35 MHz. -/
def pixel : List UInt8 := single [0xFF, 0xFF, 1, 0, 0, 1, 0, 0, 0, 0, 0, 0, 0, 0, 0, 0, 0, 0] 2

theorem length_pixel : BLOCK_LEN ≤ pixel.length := by
  simp [pixel, single, HEADER, BLOCK_LEN]

/-- What is parsed of it. -/
def pixelEdid : Edid := ⟨first pixel length_pixel, []⟩

/-- A run that goes wrong: a block is accepted whose one timing is returned, and preferred, with a rate cut to 32 bits. -/
theorem rate_truncated : parse pixel = .ok pixelEdid ∧
    pixelEdid.preferred = some (some ⟨1, 1, 655350, 2514971008, false, (0, 0), true⟩) ∧
    (fields (descriptor pixelEdid.block 54)).rate = 655350000000 ∧ ¬ pixelEdid.Exact := by
  have htiming : pixelEdid.timing_at (54, 0) = some ⟨1, 1, 655350, 2514971008, false, (0, 0), true⟩ := by
    decide
  have hrate : (fields (descriptor pixelEdid.block 54)).rate = 655350000000 := by
    decide
  refine ⟨parse_block length_pixel (by decide +kernel) (by decide) (by decide +kernel) (by decide), by decide, hrate, ?_⟩
  intro hexact
  have hrefresh : 2514971008 = (fields (descriptor pixelEdid.block 54)).rate :=
    (hexact.base (54, 0) (by decide) _ htiming).1.refresh
  rw [hrate] at hrefresh
  omega

end Edid

end NanoChrono.Display
