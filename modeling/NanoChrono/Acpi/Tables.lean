import NanoChrono.Buffer.Fields
import NanoChrono.Logs.Logged
import NanoChrono.Multiboot.Tags

/-! # The firmware's tables

The root table comes from the loader or from a scan of low memory, and names the others. Each reader notes what it reads
and of which table, which pointers it follows and which tables it hands out; `follow` has the address that the firmware
gave beside the one that is used, which a pointer of 32 bits cuts. -/

namespace NanoChrono.Acpi

open Buffer Logs Multiboot

/-! ## Memory -/

/-- The machine: its pointers' width, its memory, and what the loader said of the root table. -/
structure Firmware where
  w : Width
  mem : ℕ → UInt8
  loader_rsdp : BitVec 64
  loader_is_xsdt : Bool

/-- What a reader does. -/
inductive Event where
  /-- Reads a byte of the table at `base`. -/
  | read (base offset : ℕ)
  /-- Adds one to the sum of the table at `base`. -/
  | check (base offset : ℕ)
  /-- Uses the table at `used`, for which the firmware gave an address. -/
  | follow (given used : ℕ)
  /-- Hands out the bytes of the table at `base`. -/
  | offer (base length : ℕ)
deriving DecidableEq

/-- `RSD PTR `, the signature of the Root System Description Pointer. -/
def RSDP_SIGNATURE : List UInt8 := [0x52, 0x53, 0x44, 0x20, 0x50, 0x54, 0x52, 0x20]

/-- `FACP`. -/
def FACP : List UInt8 := [0x46, 0x41, 0x43, 0x50]

/-- `SSDT`. -/
def SSDT : List UInt8 := [0x53, 0x53, 0x44, 0x54]

/-- `_S5_`. -/
def S5 : List UInt8 := [0x5F, 0x53, 0x35, 0x5F]

/-- The BIOS read-only region. -/
def BIOS_AREA : ℕ × ℕ := (0x000E0000, 0x00100000)

def EBDA_POINTER : ℕ := 0x0000040E

/-- The subset of the FADT this needs. -/
structure PowerRegisters where
  pm1a_control : ℕ
  pm1b_control : ℕ
  /-- `SLP_TYPa` from `\\_S5`, if it was found. -/
  slp_typ_a : Option ℕ
  slp_typ_b : Option ℕ
  reset_port : Option ℕ
  reset_value : UInt8
  /-- The power-management timer's port, and whether it counts 32 bits. -/
  pm_timer : Option (ℕ × Bool)
deriving DecidableEq

/-- No register is known. -/
def PowerRegisters.default : PowerRegisters := ⟨0, 0, none, none, none, 0, none⟩

/-- A root table, how wide its entries are, and the address that was given for it. -/
structure Root where
  address : ℕ
  entry_bytes : ℕ
  given : ℕ
deriving DecidableEq

/-- Whether the entries are of eight bytes. -/
def Root.is_xsdt (root : Root) : Bool := root.entry_bytes = 8

namespace Firmware

variable (fw : Firmware)

/-- A number cast to a pointer. -/
def usize (x : ℕ) : ℕ := x % 2 ^ fw.w.bits

/-- The end of the identity map. -/
def MAPPED_LIMIT : ℕ :=
  match fw.w with
  | .w64 => 512 <<< 30
  | .w32 => 2 ^ 32 - 1

/-- Whether `length` bytes at `address` are inside the identity map. -/
def mapped (address length : ℕ) : Bool :=
  address ≠ 0 && address < fw.MAPPED_LIMIT && length ≤ fw.MAPPED_LIMIT - address

/-- The byte at a place of a table. -/
def byte (base offset : ℕ) : UInt8 := fw.mem (fw.usize (base + offset))

/-- The four bytes at a place of a table, as a number. -/
def word (base offset : ℕ) : ℕ :=
  leValue [fw.byte base offset, fw.byte base (offset + 1), fw.byte base (offset + 2), fw.byte base (offset + 3)]

/-- The bytes of a table from a place on. -/
def bytes (base offset n : ℕ) : List UInt8 := (List.range n).map fun k => fw.byte base (offset + k)

/-- Whether bytes sum to zero. -/
def sums (base length : ℕ) : Bool := (fw.bytes base 0 length).foldl (· + ·) 0 = 0

/-! ## The source's readers -/

def read_u8 (base offset : ℕ) : Logged Event UInt8 := .noted (fw.byte base offset) [.read base offset]

def read_u32 (base offset : ℕ) : Logged Event ℕ :=
  .noted (fw.word base offset) ((List.range 4).map fun k => .read base (offset + k))

def read_bytes (base offset n : ℕ) : Logged Event (List UInt8) :=
  .noted (fw.bytes base offset n) ((List.range n).map fun k => .read base (offset + k))

@[simp] theorem value_read_u8 (base offset : ℕ) : (fw.read_u8 base offset).value = fw.byte base offset := rfl

@[simp] theorem value_read_u32 (base offset : ℕ) : (fw.read_u32 base offset).value = fw.word base offset := rfl

@[simp] theorem value_read_bytes (base offset n : ℕ) :
    (fw.read_bytes base offset n).value = fw.bytes base offset n := rfl

/-- A 64-bit address, in two halves. -/
def read_wide (base offset : ℕ) : Logged Event ℕ := do
  let low ← fw.read_u32 base offset
  let high ← fw.read_u32 base (offset + 4)
  pure (high <<< 32 ||| low)

/-- Whether a structure's bytes sum to zero. -/
def checksum_ok (address length : ℕ) : Logged Event Bool :=
  if !fw.mapped address length || length = 0 then pure false
  else .noted (fw.sums address length) ((List.range length).map (.check address))

/-- The root table at an address that was given, if it can be reached. -/
def root_at (given entry_bytes : ℕ) : Logged Event (Option Root) :=
  if given ≠ 0 ∧ fw.mapped (fw.usize given) 36 then do
    .note (.follow given (fw.usize given))
    pure (some ⟨fw.usize given, entry_bytes, given⟩)
  else pure none

/-- Whether a candidate has the fields that come with revision 2, which a checksum of their own covers. -/
def rsdp_extended (address : ℕ) : Logged Event Bool := do
  let revision ← fw.read_u8 address 15
  if revision ≥ 2 then fw.checksum_ok address 36 else pure false

/-- What a candidate names whose checksum holds: from revision 2 the XSDT is authoritative. -/
def rsdp_root (address : ℕ) : Logged Event (Option Root) := do
  let extended ← fw.rsdp_extended address
  .first
    (if extended then do
      let xsdt ← fw.read_wide address 24
      fw.root_at xsdt 8
    else pure none)
    (do
      let rsdt ← fw.read_u32 address 16
      fw.root_at rsdt 4)

/-- The candidate at an address of the legacy scan. -/
def rsdp_at (address : ℕ) : Logged Event (Option Root) := do
  let signature ← fw.read_bytes address 0 8
  if signature ≠ RSDP_SIGNATURE then pure none
  else do
    let ok ← fw.checksum_ok address 20
    if ok then fw.rsdp_root address else pure none

/-- The first candidate that leads to a root table. -/
def rsdp_among : List ℕ → Logged Event (Option Root)
  | [] => pure none
  | address :: rest => .first (fw.rsdp_at address) (rsdp_among rest)

/-- An area, at every sixteenth byte. -/
def scan_area (start stop : ℕ) : Logged Event (Option Root) :=
  if start = 0 ∨ !fw.mapped start (stop - start) then pure none
  else fw.rsdp_among ((List.range ((stop - start + 15) / 16)).map fun i => start + 16 * i)

/-- The legacy scan: the first kilobyte of the Extended BIOS Data Area, then the BIOS read-only region. -/
def scan_for_rsdp : Logged Event (Option Root) := do
  let segment ← fw.read_bytes EBDA_POINTER 0 2
  let ebda := leValue segment <<< 4
  .first (fw.scan_area ebda (ebda + 1024)) (fw.scan_area BIOS_AREA.1 BIOS_AREA.2)

/-- The root table: what the loader passed, or a legacy scan. -/
def find_root : Logged Event (Option Root) :=
  .first (fw.root_at fw.loader_rsdp.toNat (if fw.loader_is_xsdt then 8 else 4)) fw.scan_for_rsdp

/-- How many entries a root table has, once its length and its checksum are checked. -/
def entries (root : Root) : Logged Event (Option ℕ) := do
  let length ← fw.read_u32 root.address 4
  if ¬ (36 ≤ length ∧ length ≤ 0x10000) ∨ !fw.mapped root.address length then pure none
  else do
    let ok ← fw.checksum_ok root.address length
    if ok then pure (some ((length - 36) / root.entry_bytes)) else pure none

/-- The address an entry gives. -/
def entry (root : Root) (i : ℕ) : Logged Event ℕ :=
  let pos := 36 + i * root.entry_bytes
  if root.is_xsdt then fw.read_wide root.address pos else fw.read_u32 root.address pos

/-- The first of some entries whose table has a signature. -/
@[grind =] def find_among (root : Root) (signature : List UInt8) : List ℕ → Logged Event (Option ℕ)
  | [] => pure none
  | i :: rest => do
    let given ← fw.entry root i
    let table := fw.usize given
    if !fw.mapped table 36 then find_among root signature rest
    else do
      .note (.follow given table)
      let found ← fw.read_bytes table 0 4
      if found ≠ signature then find_among root signature rest
      else do
        let table_length ← fw.read_u32 table 4
        if ¬ (36 ≤ table_length ∧ table_length ≤ 0x100000) then find_among root signature rest
        else do
          let ok ← fw.checksum_ok table table_length
          if ok then pure (some table) else find_among root signature rest

/-- Finds a table by signature. -/
def find_table (root : Root) (signature : List UInt8) : Logged Event (Option ℕ) := do
  match ← fw.entries root with
  | none => pure none
  | some n => fw.find_among root signature (List.range n)

/-- Visits the SSDTs among some entries. -/
@[grind =] def visit_among {σ : Type} (visit : List UInt8 → σ → Bool × σ) (root : Root) : List ℕ → σ → Logged Event σ
  | [], s => pure s
  | i :: rest, s => do
    let given ← fw.entry root i
    let table := fw.usize given
    if !fw.mapped table 36 then visit_among visit root rest s
    else do
      .note (.follow given table)
      let signature ← fw.read_bytes table 0 4
      if signature ≠ SSDT then visit_among visit root rest s
      else do
        let table_length ← fw.read_u32 table 4
        if ¬ (36 ≤ table_length ∧ table_length ≤ 0x400000) ∨ !fw.mapped table table_length then
          visit_among visit root rest s
        else do
          let ok ← fw.checksum_ok table table_length
          if ok then do
            .note (.offer table table_length)
            let seen := visit (fw.bytes table 0 table_length) s
            if seen.1 then visit_among visit root rest seen.2 else pure seen.2
          else visit_among visit root rest s

/-- Visits every SSDT the root table lists, in order. -/
def for_each_ssdt {σ : Type} (visit : List UInt8 → σ → Bool × σ) (s : σ) : Logged Event σ := do
  match ← fw.find_root with
  | none => pure s
  | some root =>
    match ← fw.entries root with
    | none => pure s
    | some n => fw.visit_among visit root (List.range n) s

/-- The 64-bit address of the DSDT, in a FADT that is long enough for it. -/
def read_wide_dsdt (fadt length : ℕ) : Logged Event ℕ := if length ≥ 148 then fw.read_wide fadt 140 else pure 0

/-- The DSDT's address: the wide field is preferred, the narrow one the fallback. -/
def read_dsdt (fadt : ℕ) : Logged Event ℕ := do
  let length ← fw.read_u32 fadt 4
  let wide ← fw.read_wide_dsdt fadt length
  if wide ≠ 0 then pure wide else fw.read_u32 fadt 40

/-- The DSDT that the FADT names: where it lies and its length. -/
def dsdt_of (fadt : ℕ) : Logged Event (Option (ℕ × ℕ)) := do
  let given ← fw.read_dsdt fadt
  let address := fw.usize given
  if !fw.mapped address 36 then pure none
  else do
    .note (.follow given address)
    let table_length ← fw.read_u32 address 4
    if ¬ (36 ≤ table_length ∧ table_length ≤ 0x400000) ∨ !fw.mapped address table_length then pure none
    else do
      let ok ← fw.checksum_ok address table_length
      if ok then do
        .note (.offer address table_length)
        pure (some (address, table_length))
      else pure none

/-- The FADT: the table of that signature that the root table names. -/
def find_fadt : Logged Event (Option ℕ) := do
  match ← fw.find_root with
  | none => pure none
  | some root => fw.find_table root FACP

/-- The DSDT: where it lies and its length. -/
def dsdt : Logged Event (Option (ℕ × ℕ)) := do
  match ← fw.find_fadt with
  | none => pure none
  | some fadt => fw.dsdt_of fadt

/-- One AML integer constant, and the place after it. -/
def read_constant (base p : ℕ) : Logged Event (Option ℕ × ℕ) := do
  let opcode ← fw.read_u8 base p
  if opcode = 0x00 then pure (some 0, p + 1)
  else if opcode = 0x01 then pure (some 1, p + 1)
  else if opcode = 0x0A then do
    let value ← fw.read_u8 base (p + 1)
    pure (some value.toNat, p + 2)
  else pure (none, p)

/-- The first two elements of a package, from its first. -/
def read_types (base p : ℕ) : Logged Event (Option ℕ × Option ℕ) := do
  let a ← fw.read_constant base p
  let b ← fw.read_constant base a.2
  pure (a.1, b.1)

/-- The scan for the name, from place `i` on. -/
def scan_s5 (base length i : ℕ) : Logged Event (Option ℕ × Option ℕ) :=
  if h : i + 8 < length then do
    let name ← fw.read_bytes base i 4
    if name ≠ S5 then scan_s5 base length (i + 1)
    else do
      let opcode ← fw.read_u8 base (i + 4)
      if opcode = 0x12 then do
        -- The length's first byte says how many follow; then comes the element count.
        let lead ← fw.read_u8 base (i + 5)
        let p := i + 4 + (2 + (lead >>> 6).toNat) + 1
        if p + 4 > length then pure (none, none) else fw.read_types base p
      else scan_s5 base length (i + 1)
  else pure (none, none)
termination_by length - i

/-- Scans the DSDT for `\\_S5` and reads the sleep types out of it. -/
def find_s5 (base : ℕ) : Logged Event (Option ℕ × Option ℕ) := do
  let length ← fw.read_u32 base 4
  if ¬ (36 ≤ length ∧ length ≤ 0x100000) ∨ !fw.mapped base length then pure (none, none)
  else fw.scan_s5 base length 36

/-- The timer the FADT names, if it is one of four bytes. -/
def read_timer (fadt : ℕ) : Logged Event (Option (ℕ × Bool)) := do
  let port ← fw.read_u32 fadt 76
  if port ≠ 0 ∧ port ≤ 0xFFFF then do
    let width ← fw.read_u8 fadt 91
    if width = 4 then do
      let flags ← fw.read_u32 fadt 112
      pure (some (port, flags.testBit 8))
    else pure none
  else pure none

/-- The reset register, where the FADT declares one in I/O space. -/
def read_reset (fadt length : ℕ) : Logged Event (Option ℕ × UInt8) :=
  if length > 128 then do
    let flags ← fw.read_u32 fadt 112
    if flags.testBit 10 then do
      let space ← fw.read_u8 fadt 116
      if space = 1 then do
        let port ← fw.read_u32 fadt 120
        let value ← fw.read_u8 fadt 128
        pure (some (port % 2 ^ 16), value)
      else pure (none, 0)
    else pure (none, 0)
  else pure (none, 0)

/-- The sleep types, from the table that the narrow field names. -/
def read_sleep (fadt : ℕ) : Logged Event (Option ℕ × Option ℕ) := do
  let dsdt ← fw.read_u32 fadt 40
  if fw.mapped dsdt 36 then do
    .note (.follow dsdt dsdt)
    fw.find_s5 dsdt
  else pure (none, none)

/-- The registers that a FADT names. A shorter one than ACPI 1.0's names none. -/
def registers_of (fadt : ℕ) : Logged Event PowerRegisters := do
  let declared ← fw.read_u32 fadt 4
  if declared < 116 then pure .default
  else do
    let pm1a ← fw.read_u32 fadt 64
    let pm1b ← fw.read_u32 fadt 68
    let pm_timer ← fw.read_timer fadt
    let length ← fw.read_u32 fadt 4
    let reset ← fw.read_reset fadt length
    let types ← fw.read_sleep fadt
    pure ⟨pm1a % 2 ^ 16, pm1b % 2 ^ 16, types.1, types.2, reset.1, reset.2, pm_timer⟩

/-- Reads the firmware tables. -/
def power_registers : Logged Event (Option PowerRegisters) := do
  match ← fw.find_fadt with
  | none => pure none
  | some fadt => some <$> fw.registers_of fadt

end Firmware

end NanoChrono.Acpi
