import NanoChrono.Framebuffer.Surface

/-! # The tags that the loader left behind

The loader hands over a structure that declares its size and holds tags, one after the other. Six functions walk over
them, each with a copy of the same loop: an offset is advanced by a size that the loader supplies, and both the sum
with which the size is checked and the sum that advances the offset are of the width of an address. A read past the
declared size is an error here, and so is a loop that is still running when the rounds that it is given are over. -/

namespace NanoChrono.Multiboot

open Framebuffer

/-! ## Addresses -/

/-- What the kernel is built for. -/
inductive Width where
  | w32 | w64
deriving DecidableEq

def Width.bits : Width → Nat
  | .w32 => 32
  | .w64 => 64

/-- How far a physical address can reach. -/
def Width.addressable : Width → Nat
  | .w32 => 1 <<< 32
  | .w64 => 512 <<< 30

/-- A sum of the width of an address. -/
def Width.add (w : Width) (a b : Nat) : Nat := (a + b) % 2 ^ w.bits

/-- A size padded to eight bytes: `div_ceil(8) * 8`. -/
def Width.padded (w : Width) (size : Nat) : Nat := (size + 7) / 8 * 8 % 2 ^ w.bits

/-- A size padded to eight bytes: `(size + 7) & !7`. -/
def Width.masked (w : Width) (size : Nat) : Nat := (size + 7) % 2 ^ w.bits / 8 * 8

/-! ## The structure -/

/-- What the loader handed over: an address, and the bytes from there on. -/
structure Info where
  address : UInt64
  bytes : Nat → UInt8

/-- What goes wrong: a read outside the structure, or a loop that has not ended yet. -/
inductive Fault where
  | outside | running
deriving DecidableEq

/-- A number of `k` bytes. -/
def littleEndian (bytes : Nat → UInt8) (o k : Nat) : Nat :=
  (List.range k).foldr (fun j n => (bytes (o + j)).toNat + 256 * n) 0

variable (w : Width) (i : Info)

/-- The size that the structure declares. -/
def Info.total : Nat := littleEndian i.bytes 0 4

def Info.read (o k : Nat) : Except Fault Nat :=
  if o + k ≤ i.total then .ok (littleEndian i.bytes o k) else .error .outside

structure Tag where
  offset : Nat
  kind : Nat
  size : Nat
deriving DecidableEq

/-- The end of the list. -/
def TAG_END : Nat := 0

/-- The walk over the tags: what is kept, and whether to go on, is decided at each. -/
@[grind =]
def walk {α : Type} (pad : Nat → Nat) (visit : Tag → α → Except Fault (α × Bool)) : Nat → Nat → α → Except Fault α
  | 0, _, _ => .error .running
  | rounds + 1, offset, a =>
    if w.add offset 8 ≤ i.total then do
      let kind ← i.read offset 4
      let size ← i.read (w.add offset 4) 4
      if kind = TAG_END ∨ size < 8 ∨ w.add offset size > i.total then pure a
      else
        let (a, more) ← visit ⟨offset, kind, size⟩ a
        if more then walk pad visit rounds (w.add offset (pad size)) a else pure a
    else pure a

/-- What a function does with the structure: nothing without one that is aligned and of a sane size. -/
def withTags {α : Type} (pad : Nat → Nat) (visit : Tag → α → Except Fault (α × Bool)) (rounds : Nat) (a : α) :
    Except Fault α :=
  if i.address = 0 ∨ i.address % 8 ≠ 0 then pure a
  else if i.total < 16 ∨ 0x100000 ≤ i.total then pure a
  else walk w i pad visit rounds 8 a

/-! ## The framebuffer -/

def TAG_FRAMEBUFFER : Nat := 8

/-- A linear surface. -/
def FRAMEBUFFER_TYPE_RGB : Nat := 1

def framebufferTag (t : Tag) (fb : Option Surface) : Except Fault (Option Surface × Bool) :=
  if t.kind = TAG_FRAMEBUFFER ∧ t.size ≥ 32 then do
    let address ← i.read (w.add t.offset 8) 8
    let pitch ← i.read (w.add t.offset 16) 4
    let width ← i.read (w.add t.offset 20) 4
    let height ← i.read (w.add t.offset 24) 4
    let bpp ← i.read (w.add t.offset 28) 1
    let kind ← i.read (w.add t.offset 29) 1
    let fb := Surface.new (UInt64.ofNat address) (UInt32.ofNat width) (UInt32.ofNat height) (UInt32.ofNat pitch)
      (UInt8.ofNat bpp)
    if kind ≠ FRAMEBUFFER_TYPE_RGB ∨ address = 0 ∨ address ≥ w.addressable then pure (none, false)
    else pure (if fb.Usable ∧ address + fb.sizeBytes ≤ w.addressable then some fb else none, false)
  else pure (fb, true)

def framebuffer (rounds : Nat) : Except Fault (Option Surface) := withTags w i w.padded (framebufferTag w i) rounds none

/-! ## The memory map -/

def TAG_MEMORY_MAP : Nat := 6

def TAG_BASIC_MEMORY : Nat := 4

/-- Ordinary RAM. -/
def MEMORY_AVAILABLE : Nat := 1

def U64_MAX : Nat := 2 ^ 64 - 1

/-- What the firmware says is installed. -/
structure RamTotal where
  total : Nat
  regions : Nat
deriving DecidableEq

/-- The entries of a memory map, from where one may start to where the tag stops. -/
@[grind =]
def entries {α : Type} (visit : Nat → Nat → Nat → α → α) (entrySize stop : Nat) : Nat → Nat → α → Except Fault α
  | 0, _, _ => .error .running
  | rounds + 1, start, a =>
    if w.add start entrySize ≤ stop then do
      let base ← i.read start 8
      let length ← i.read (w.add start 8) 8
      let region ← i.read (w.add start 16) 4
      entries visit entrySize stop rounds (w.add start entrySize) (visit base length region a)
    else pure a

/-- The entries of a tag, unless they are too short to hold what is read of them. -/
def mapEntries {α : Type} (visit : Nat → Nat → Nat → α → α) (rounds : Nat) (t : Tag) (a : α) : Except Fault α := do
  let entrySize ← i.read (w.add t.offset 8) 4
  if entrySize ≥ 24 then entries w i visit entrySize (w.add t.offset t.size) rounds (w.add t.offset 16) a else pure a

/-- RAM that is available is summed. -/
def countRam (_base length region : Nat) (m : RamTotal) : RamTotal :=
  if region = MEMORY_AVAILABLE then ⟨min (m.total + length) U64_MAX, (m.regions + 1) % 2 ^ 32⟩ else m

def memoryTag (rounds : Nat) (t : Tag) (m : RamTotal) : Except Fault (RamTotal × Bool) :=
  if t.kind = TAG_MEMORY_MAP ∧ t.size ≥ 16 then do
    let _version ← i.read (w.add t.offset 12) 4
    let m ← mapEntries w i countRam rounds t m
    pure (m, true)
  else if t.kind = TAG_BASIC_MEMORY ∧ t.size ≥ 16 ∧ m.total = 0 then do
    let lower ← i.read (w.add t.offset 8) 4
    let upper ← i.read (w.add t.offset 12) 4
    pure (⟨(lower + upper) * 1024, m.regions⟩, true)
  else pure (m, true)

/-- Sums the usable RAM that the loader described. -/
def memory (rounds : Nat) : Except Fault RamTotal := withTags w i w.padded (memoryTag w i rounds) rounds ⟨0, 0⟩

/-- A range of RAM that is available and not empty is found. -/
def foundRam (base length region : Nat) (found : List (Nat × Nat)) : List (Nat × Nat) :=
  if region = MEMORY_AVAILABLE ∧ length > 0 then found ++ [(base, length)] else found

def usableTag (rounds : Nat) (t : Tag) (found : List (Nat × Nat)) : Except Fault (List (Nat × Nat) × Bool) :=
  if t.kind = TAG_MEMORY_MAP ∧ t.size ≥ 16 then do
    let found ← mapEntries w i foundRam rounds t found
    pure (found, false)
  else pure (found, true)

/-- The ranges of usable RAM that the loader reported. -/
def usableRam (rounds : Nat) : Except Fault (List (Nat × Nat)) :=
  withTags w i w.padded (usableTag w i rounds) rounds []

/-! ## Strings -/

/-- The longest string read. -/
def COMMAND_LINE_MAX : Nat := 512

/-- The bytes of a string up to its NUL, or `max` of them. -/
@[grind =] def stringBytes : Nat → Nat → Except Fault (List UInt8)
  | 0, _ => pure []
  | max + 1, start => do
    let b ← i.read start 1
    if b = 0 then pure []
    else
      let rest ← stringBytes max (w.add start 1)
      pure (UInt8.ofNat b :: rest)

def cStr (start max : Nat) : Except Fault (Option String) := do
  let bytes ← stringBytes w i (min max COMMAND_LINE_MAX) start
  pure (String.fromUTF8? ⟨bytes.toArray⟩)

def TAG_COMMAND_LINE : Nat := 1

def commandLineTag (t : Tag) (line : Option String) : Except Fault (Option String × Bool) :=
  if t.kind = TAG_COMMAND_LINE then do
    let line ← cStr w i (w.add t.offset 8) (t.size - 8)
    pure (line, false)
  else pure (line, true)

def commandLine (rounds : Nat) : Except Fault (Option String) :=
  withTags w i w.masked (commandLineTag w i) rounds none

def TAG_MODULE : Nat := 3

/-- One module: where its bytes are, and the string that the loader gave it. -/
structure Module where
  start : Nat
  stop : Nat
  name : String
deriving DecidableEq

def moduleTag (t : Tag) (found : List Module) : Except Fault (List Module × Bool) :=
  if t.kind = TAG_MODULE ∧ t.size ≥ 16 then do
    let start ← i.read (w.add t.offset 8) 4
    let stop ← i.read (w.add t.offset 12) 4
    let name ← cStr w i (w.add t.offset 16) (t.size - 16)
    pure (if stop > start then found ++ [⟨start, stop, name.getD ""⟩] else found, true)
  else pure (found, true)

def modules (rounds : Nat) : Except Fault (List Module) := withTags w i w.masked (moduleTag w i) rounds []

/-! ## The ACPI root -/

def TAG_ACPI_OLD : Nat := 14

def TAG_ACPI_NEW : Nat := 15

/-- Where the ACPI root tables are. -/
structure Rsdp where
  rsdt : Nat
  xsdt : Nat
  revision : Nat
deriving DecidableEq

/-- `RSD PTR `, as a number. -/
def RSDP_SIGNATURE : Nat := 0x2052545020445352

/-- The sum of bytes, as a byte. -/
@[grind =] def byteSum (start : Nat) : Nat → Except Fault Nat
  | 0 => pure 0
  | count + 1 => do
    let total ← byteSum start count
    let b ← i.read (w.add start count) 1
    pure ((total + b) % 256)

/-- Validates a copy of the root's pointer and takes the addresses of its tables. -/
def parseRsdp (start length : Nat) : Except Fault (Option Rsdp) :=
  if length < 20 then pure none
  else do
    let signature ← i.read start 8
    if signature ≠ RSDP_SIGNATURE then pure none
    else
      let sum ← byteSum w i start 20
      if sum ≠ 0 then pure none
      else
        let revision ← i.read (w.add start 15) 1
        let rsdt ← i.read (w.add start 16) 4
        if revision ≥ 2 ∧ length ≥ 36 then
          let sum ← byteSum w i start 36
          if sum = 0 then
            let xsdt ← i.read (w.add start 24) 8
            pure (if rsdt ≠ 0 ∨ xsdt ≠ 0 then some ⟨rsdt, xsdt, revision⟩ else none)
          else pure (if rsdt ≠ 0 then some ⟨rsdt, 0, revision⟩ else none)
        else pure (if rsdt ≠ 0 then some ⟨rsdt, 0, revision⟩ else none)

def acpiTag (t : Tag) (best : Option Rsdp) : Except Fault (Option Rsdp × Bool) :=
  if t.kind = TAG_ACPI_OLD ∨ t.kind = TAG_ACPI_NEW then do
    let rsdp ← parseRsdp w i (w.add t.offset 8) (t.size - 8)
    match rsdp with
    | some rsdp => pure (if t.kind = TAG_ACPI_NEW ∨ best = none then some rsdp else best, true)
    | none => pure (best, true)
  else pure (best, true)

/-- The root that the loader copied; the form of ACPI 2.0 wins. -/
def acpiRsdp (rounds : Nat) : Except Fault (Option Rsdp) := withTags w i w.padded (acpiTag w i) rounds none

end NanoChrono.Multiboot
