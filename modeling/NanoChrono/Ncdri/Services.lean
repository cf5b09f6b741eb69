import NanoChrono.Framebuffer.Surface
import NanoChrono.Memory.Palloc
import NanoChrono.Pools.Slots

/-! # The services of a driver

A driver does what it can through the kernel's table of services. Every handle that it holds is the address of an
entry of one of the kernel's pools, and every call looks its handle up. What a call reads of the hardware or of the
driver's memory stands in the call. -/

namespace NanoChrono.Ncdri

open Framebuffer Memory Pools

/-- A handle: the address of an entry of a pool. -/
abbrev Handle := Nat

/-- What the services return. -/
inductive Errno where
  | ok | enoent | enxio | enomem | efault | ebusy | einval | enospc | enotsup
deriving DecidableEq

/-! ## Devices on the bus -/

/-- One device on the bus. -/
structure PciDevice where
  bus : UInt8
  slot : UInt8
  function : UInt8
  vendor : UInt16
  device : UInt16
  headerType : UInt8

/-- The configuration registers of a device: what each reads, and what it reads back with all ones written to it. -/
structure Registers where
  value : Nat → UInt32
  mask : Nat → UInt32

/-- One base address register, sized: a window of memory, or of I/O ports. -/
structure Bar where
  base : UInt64
  size : UInt64
  io : Bool
deriving DecidableEq

/-- The window of a base address register, from what it reads and reads back. -/
def Bar.sized (hw : Registers) (reg : Nat) (io wide : Bool) : Option Bar :=
  let lo := hw.value reg
  let loMask := hw.mask reg
  let hi := if wide then hw.value (reg + 4) else 0
  let hiMask := if wide then hw.mask (reg + 4) else 0xFFFFFFFF
  if io then
    let mask := loMask &&& 0xFFFFFFFC
    let size := (~~~mask + 1) &&& 0xFFFF
    if mask ≠ 0 ∧ size ≠ 0 then some ⟨(lo &&& 0xFFFFFFFC).toUInt64, size.toUInt64, true⟩ else none
  else
    let mask := hiMask.toUInt64 <<< 32 ||| (loMask &&& 0xFFFFFFF0).toUInt64
    if loMask &&& 0xFFFFFFF0 ≠ 0 then some ⟨hi.toUInt64 <<< 32 ||| (lo &&& 0xFFFFFFF0).toUInt64, ~~~mask + 1, false⟩
    else none

/-- The walk over the base address registers: a wide one takes two. -/
@[grind =] def barFrom (hw : Registers) (count index : Nat) : Nat → Nat → Option Bar
  | 0, _ => none
  | rounds + 1, i =>
    if i < count then
      let io := hw.value (0x10 + 4 * i) &&& 1 != 0
      let wide := !io && (hw.value (0x10 + 4 * i) >>> 1) &&& 0x3 == 0x2
      if i ≠ index then barFrom hw count index rounds (i + if wide then 2 else 1)
      else if wide ∧ i + 1 ≥ count then none
      else Bar.sized hw (0x10 + 4 * i) io wide
    else none

/-- Base address registers of a header type. -/
def barCount (headerType : UInt8) : Nat := if headerType = 0 then 6 else if headerType = 1 then 2 else 0

def PciDevice.bar (p : PciDevice) (hw : Registers) (index : Nat) : Option Bar :=
  barFrom hw (barCount p.headerType) index (barCount p.headerType) 0

/-! ## The pools -/

/-- A module that was placed in memory. -/
structure Module where
  base : UInt64
  len : UInt64

/-- A driver's description of itself; the methods are addresses. -/
structure DriverDesc where
  apiMajor : UInt16
  name : UInt64
  softcSize : UInt64
  probe : UInt64
  attach : UInt64
  detach : UInt64
  suspend : UInt64
  resume : UInt64
  shutdown : UInt64

def DriverDesc.methods (d : DriverDesc) : List UInt64 := [d.probe, d.attach, d.detach, d.suspend, d.resume, d.shutdown]

/-- A driver that is registered: its first two methods are there. -/
structure DriverSlot where
  module : Fin 16
  descAddr : UInt64
  desc : DriverDesc
  name : List UInt8
  units : UInt32
  probes : desc.probe ≠ 0
  attaches : desc.attach ≠ 0

structure Device where
  attached : Bool
  pci : Option PciDevice
  driver : Nat
  softc : UInt64
  softcLen : UInt64
  name : List UInt8

/-- A register window. -/
structure Resource where
  device : Fin 32
  io : Bool
  base : UInt64
  len : UInt64
deriving DecidableEq

/-- A run of memory for a device. -/
structure Dma where
  device : Fin 32
  addr : UInt64
  len : UInt64
deriving DecidableEq

structure Mtx where
  held : Bool

/-- The monitor a display driver named. -/
structure Monitor where
  maker : List UInt8
  name : List UInt8
  native : Option (UInt32 × UInt32 × UInt32)
deriving DecidableEq

/-- The scanout a display driver handed over. -/
structure Pending where
  fb : Surface
  device : List UInt8
  monitor : Option Monitor
deriving DecidableEq

/-- What the kernel keeps of drivers, and the memory it gives them. -/
structure State where
  modules : Pool Module 16
  drivers : Pool DriverSlot 16
  devices : Pool Device 32
  resources : Pool Resource 64
  dmas : Pool Dma 64
  mtxs : Pool Mtx 64
  memory : Palloc
  pending : Option Pending

/-- Before any driver is loaded. -/
def State.boot (memory : Palloc) : State :=
  ⟨.empty _ _, .empty _ _, .empty _ _, .empty _ _, .empty _ _, .empty _ _, memory, none⟩

/-- The pools whose entries handles name. -/
inductive Kind where
  | module | device | resource | dma | mtx
deriving DecidableEq

/-- Where the pools lie. -/
abbrev Layout := Kind → Place

/-- The slots of a pool that are in use. -/
def inUse : Kind → State → Nat → Bool
  | .module, s => used s.modules
  | .device, s => used s.devices
  | .resource, s => used s.resources
  | .dma, s => used s.dmas
  | .mtx, s => used s.mtxs

/-- Whether a handle names an entry of a pool that is in use. -/
def follows (lay : Layout) (k : Kind) (s : State) (h : Handle) : Bool :=
  match k with
  | .module => (indexOf (lay k) s.modules h).isSome
  | .device => (indexOf (lay k) s.devices h).isSome
  | .resource => (indexOf (lay k) s.resources h).isSome
  | .dma => (indexOf (lay k) s.dmas h).isSome
  | .mtx => (indexOf (lay k) s.mtxs h).isSome

/-! ## Memory -/

/-- A number of the width of an address, for the page allocator. -/
def usize (n : UInt64) : x86_64.Usize := ⟨n.toNat, n.toNat_lt⟩

def allocZeroed (m : Palloc) (len align : UInt64) : Palloc × Option UInt64 :=
  ((m.alloc (usize len) (usize align)).1, (m.alloc (usize len) (usize align)).2.map UInt64.ofNat)

def free (m : Palloc) (addr len : UInt64) : Palloc := (Palloc.free m (usize addr) (usize len)).1

/-- What memory holds. -/
abbrev Contents := UInt64 → UInt8

/-- A little-endian field of a structure that is copied out of memory: its bytes past the copied ones are zero. -/
def field (mem : Contents) (start : UInt64) (take offset width : Nat) : Nat :=
  (List.range width).foldr (fun k n =>
    (if offset + k < take then (mem (start + UInt64.ofNat (offset + k))).toNat else 0) + 256 * n) 0

def IsPowerOfTwo (n : UInt64) : Prop := n ≠ 0 ∧ n &&& (n - 1) = 0

instance (n : UInt64) : Decidable (IsPowerOfTwo n) := inferInstanceAs (Decidable (_ ∧ _))

def memAlloc (s : State) (size align out : UInt64) : State × Errno × Option UInt64 :=
  if out = 0 ∨ size = 0 ∨ align ≠ 0 ∧ ¬IsPowerOfTwo align then (s, .einval, none)
  else
    match allocZeroed s.memory size (max align 4096) with
    | (memory, some p) => ({ s with memory := memory }, .ok, some p)
    | (memory, none) => ({ s with memory := memory }, .enomem, none)

def memFree (s : State) (p size : UInt64) : State := if p = 0 then s else { s with memory := free s.memory p size }

/-! ## Drivers -/

/-- Whether bytes lie inside a module. -/
def Module.Inside (m : Module) (a n : UInt64) : Prop :=
  m.base ≤ a ∧ a.toNat + n.toNat < 2 ^ 64 ∧ a + n ≤ m.base + m.len

instance (m : Module) (a n : UInt64) : Decidable (m.Inside a n) := inferInstanceAs (Decidable (_ ∧ _ ∧ _))

/-- Bytes of a description, and those up to the first method that may be missing. -/
def DESC_SIZE : Nat := 136

def DESC_MIN : Nat := 40

def readDesc (mem : Contents) (desc : UInt64) (take : Nat) : DriverDesc where
  apiMajor := UInt16.ofNat (field mem desc take 4 2)
  name := UInt64.ofNat (field mem desc take 8 8)
  softcSize := UInt64.ofNat (field mem desc take 16 8)
  probe := UInt64.ofNat (field mem desc take 24 8)
  attach := UInt64.ofNat (field mem desc take 32 8)
  detach := UInt64.ofNat (field mem desc take 40 8)
  suspend := UInt64.ofNat (field mem desc take 48 8)
  resume := UInt64.ofNat (field mem desc take 56 8)
  shutdown := UInt64.ofNat (field mem desc take 64 8)

/-- A byte of a driver's name: an ASCII letter or digit, or an underscore. -/
def nameByte (b : UInt8) : Bool :=
  (48 ≤ b && b ≤ 57) || (65 ≤ b && b ≤ 90) || (97 ≤ b && b ≤ 122) || b == 95

def driverName (m : Module) (mem : Contents) (name : UInt64) : List UInt8 :=
  let read := ((List.range 11).takeWhile fun n =>
    decide (m.Inside (name + UInt64.ofNat n) 1) && nameByte (mem (name + UInt64.ofNat n))).map fun n =>
      mem (name + UInt64.ofNat n)
  if read = [] then [100, 114, 118] else read

/-- Whether a description has no method outside its module, both that it needs, and a softc of a sane size. -/
def DriverDesc.Sane (d : DriverDesc) (m : Module) : Prop :=
  d.probe ≠ 0 ∧ d.attach ≠ 0 ∧ (d.methods.all fun f => f = 0 ∨ m.Inside f 1) ∧ d.softcSize.toNat ≤ 16 <<< 20

instance (d : DriverDesc) (m : Module) : Decidable (d.Sane m) := inferInstanceAs (Decidable (_ ∧ _ ∧ _ ∧ _))

variable (lay : Layout) (s : State)

@[grind =] def driverRegister (module : Handle) (desc : UInt64) (mem : Contents) : State × Errno :=
  match lookup (lay .module) s.modules module with
  | none => (s, .einval)
  | some (i, m) =>
    let size := field mem desc 4 0 4
    let take := min size DESC_SIZE
    let d := readDesc mem desc take
    if ¬m.Inside desc 8 then (s, .efault)
    else if size < DESC_MIN ∨ ¬m.Inside desc (UInt64.ofNat take) then (s, .einval)
    else if d.apiMajor ≠ 1 then (s, .enotsup)
    else if h : d.Sane m then
      match freeSlot s.drivers with
      | none => (s, .enospc)
      | some k =>
        ({ s with drivers := s.drivers.set k (some ⟨i, desc, d, driverName m mem d.name, 0, h.1, h.2.1⟩) }, .ok)
    else (s, .einval)

@[grind =] def driverUnregister (module : Handle) (desc : UInt64) : State × Errno :=
  match lookup (lay .module) s.modules module with
  | none => (s, .einval)
  | some (i, _) =>
    match (List.finRange 16).find? fun k => s.drivers[k].any fun d => d.module = i ∧ d.descAddr = desc with
    | none => (s, .enoent)
    | some k =>
      if s.devices.any fun slot => slot.any fun d => d.driver = k.val then (s, .ebusy)
      else ({ s with drivers := s.drivers.set k none }, .ok)

/-! ## Register windows -/

/-- How far a physical address can reach. -/
def ADDRESSABLE : Nat := 512 <<< 30

/-- The device and the window that a mapping is for. -/
def window (dev : Handle) (kind index : UInt32) (out : UInt64) (hw : Registers) : Except Errno (Fin 32 × Bar) :=
  if out = 0 ∨ index > 5 then .error .einval
  else
    match lookup (lay .device) s.devices dev with
    | none => .error .einval
    | some (di, d) =>
      match d.pci.bind fun p => p.bar hw index.toNat with
      | none => .error .enxio
      | some bar =>
        if kind = 1 ∧ bar.io = false then
          if bar.base = 0 ∨ bar.base.toNat + bar.size.toNat > ADDRESSABLE then .error .enxio else .ok (di, bar)
        else if kind = 2 ∧ bar.io = true then .ok (di, bar)
        else .error .einval

def resourceMap (dev : Handle) (kind index : UInt32) (out len : UInt64) (hw : Registers) :
    State × Errno × Option (Handle × Option UInt64) :=
  match window lay s dev kind index out hw with
  | .error e => (s, e, none)
  | .ok (di, bar) =>
    match freeSlot s.resources with
    | none => (s, .enospc, none)
    | some i =>
      ({ s with resources := s.resources.set i (some ⟨di, bar.io, bar.base, bar.size⟩) }, .ok,
        some (handleOf (lay .resource) i, if len = 0 then none else some bar.size))

def resourceUnmap (res : Handle) : State :=
  match indexOf (lay .resource) s.resources res with
  | none => s
  | some i => { s with resources := s.resources.set i none }

/-- The widths of an access. -/
inductive Width where
  | one | two | four | eight
deriving DecidableEq

def Width.bytes : Width → UInt64
  | .one => 1
  | .two => 2
  | .four => 4
  | .eight => 8

/-- Where an access lands: inside the window and aligned to its width, or nowhere. -/
def target (r : Resource) (off width : UInt64) : Option UInt64 :=
  if off % width = 0 ∧ off.toNat + width.toNat < 2 ^ 64 ∧ off + width ≤ r.len then some (r.base + off) else none

/-- The port or the address that an access through a handle is made at. There is no port of 64 bits. -/
@[grind =] def access (res : Handle) (off : UInt64) (w : Width) : Option (Bool × UInt64) :=
  match lookup (lay .resource) s.resources res with
  | none => none
  | some (_, r) =>
    if w = .eight ∧ r.io = true then none
    else (target r off w.bytes).map fun a => (r.io, if r.io then a.toUInt16.toUInt64 else a)

/-! ## Configuration space -/

/-- Whether a register of configuration space can be reached at an offset and a width. -/
def ConfigFits (off width : UInt32) : Prop := (width = 1 ∨ width = 2 ∨ width = 4) ∧ off < 256 ∧ off % width = 0

instance (off width : UInt32) : Decidable (ConfigFits off width) := inferInstanceAs (Decidable (_ ∧ _ ∧ _))

def configRead (hw : Registers) (off width : UInt32) : Option UInt32 :=
  let shifted := hw.value (off &&& ~~~3).toNat >>> ((off &&& 3) * 8)
  if ConfigFits off width then
    some (if width = 1 then shifted &&& 0xFF else if width = 2 then shifted &&& 0xFFFF else shifted)
  else none

def pciCfgRead (dev : Handle) (off width : UInt32) (out : UInt64) (hw : Registers) : Errno × Option UInt32 :=
  if out = 0 ∨ off > 0xFFFF ∨ width > 4 then (.einval, none)
  else
    match lookup (lay .device) s.devices dev with
    | none => (.einval, none)
    | some (_, d) =>
      if d.pci.isNone then (.enxio, none)
      else
        match configRead hw off width with
        | none => (.einval, none)
        | some v => (.ok, some v)

def pciCfgWrite (dev : Handle) (off width : UInt32) : Errno :=
  if off > 0xFFFF ∨ width > 4 then .einval
  else
    match lookup (lay .device) s.devices dev with
    | none => .einval
    | some (_, d) => if d.pci.isNone then .enxio else if ConfigFits off width then .ok else .einval

def pciEnableBusmaster (dev : Handle) : Errno :=
  match lookup (lay .device) s.devices dev with
  | none => .einval
  | some (_, d) => if d.pci.isNone then .enxio else .ok

/-! ## Memory for a device -/

def dmaAlloc (dev : Handle) (size align boundary out : UInt64) : State × Errno × Option Handle :=
  if out = 0 ∨ size = 0 ∨ align ≠ 0 ∧ ¬IsPowerOfTwo align then (s, .einval, none)
  else if boundary ≠ 0 ∧ (¬IsPowerOfTwo boundary ∨ size > boundary) then (s, .einval, none)
  else
    match lookup (lay .device) s.devices dev with
    | none => (s, .einval, none)
    | some (di, _) =>
      match freeSlot s.dmas with
      | none => (s, .enospc, none)
      | some i =>
        match allocZeroed s.memory size (max (max align 4096) boundary) with
        | (memory, none) => ({ s with memory := memory }, .enomem, none)
        | (memory, some addr) =>
          ({ s with memory := memory, dmas := s.dmas.set i (some ⟨di, addr, size⟩) }, .ok,
            some (handleOf (lay .dma) i))

@[grind =] def dmaFree (dma : Handle) : State :=
  match lookup (lay .dma) s.dmas dma with
  | none => s
  | some (i, d) => { s with memory := free s.memory d.addr d.len, dmas := s.dmas.set i none }

@[grind =] def dmaKva (dma : Handle) : UInt64 :=
  match lookup (lay .dma) s.dmas dma with
  | none => 0
  | some (_, d) => d.addr

/-! ## Locks -/

def mtxInit (out : UInt64) (kind : UInt32) : State × Errno × Option Handle :=
  if out = 0 ∨ kind ≠ 1 ∧ kind ≠ 2 then (s, .einval, none)
  else
    match freeSlot s.mtxs with
    | none => (s, .enospc, none)
    | some i => ({ s with mtxs := s.mtxs.set i (some ⟨false⟩) }, .ok, some (handleOf (lay .mtx) i))

/-- Sets a lock. -/
def mtxSet (m : Handle) (held : Bool) : State :=
  match indexOf (lay .mtx) s.mtxs m with
  | none => s
  | some i => { s with mtxs := s.mtxs.set i (some ⟨held⟩) }

def mtxEnter (m : Handle) : State := mtxSet lay s m true

def mtxExit (m : Handle) : State := mtxSet lay s m false

@[grind =] def mtxTryenter (m : Handle) : State × Bool :=
  match lookup (lay .mtx) s.mtxs m with
  | none => (s, false)
  | some (i, x) => if x.held then (s, false) else ({ s with mtxs := s.mtxs.set i (some ⟨true⟩) }, true)

@[grind =] def mtxDestroy (m : Handle) : State :=
  match indexOf (lay .mtx) s.mtxs m with
  | none => s
  | some i => { s with mtxs := s.mtxs.set i none }

/-! ## The display -/

/-- The fields a scanout must carry, and all that it may. -/
def SCANOUT_MIN : Nat := 32

def SCANOUT_SIZE : Nat := 56

/-- 32 bits a pixel, the format the drawing code writes. -/
def FORMAT_XRGB8888 : Nat := 0x34325258

/-- Hands a scanout to the kernel: what the monitor's data block says of it stands in the call. -/
def displayScanout (dev : Handle) (sc : UInt64) (mem : Contents) (monitor : Option Monitor) (hw : Registers) :
    State × Errno :=
  if sc = 0 then (s, .einval)
  else
    match lookup (lay .device) s.devices dev with
    | none => (s, .einval)
    | some (_, d) =>
      match d.pci with
      | none => (s, .enxio)
      | some p =>
        let size := field mem sc 4 0 4
        let take := min size SCANOUT_SIZE
        let index := field mem sc take 4 4
        let offset := field mem sc take 8 8
        let width := field mem sc take 16 4
        let height := field mem sc take 20 4
        let pitch := field mem sc take 24 4
        if size < SCANOUT_MIN then (s, .einval)
        else if field mem sc take 28 4 ≠ FORMAT_XRGB8888 ∨ index > 5 then (s, .einval)
        else if width < 320 ∨ 16384 < width ∨ height < 200 ∨ 16384 < height then (s, .einval)
        else if pitch < width * 4 ∨ pitch % 4 ≠ 0 ∨ pitch * height ≥ 2 ^ 32 then (s, .einval)
        else
          match p.bar hw index with
          | none => (s, .enxio)
          | some bar =>
            if bar.io = true ∨ bar.base = 0 ∨ offset + pitch * height > bar.size.toNat ∨
                bar.base.toNat + bar.size.toNat > ADDRESSABLE then (s, .efault)
            else
              let fb := Surface.new (bar.base + UInt64.ofNat offset) (UInt32.ofNat width) (UInt32.ofNat height)
                (UInt32.ofNat pitch) 32
              if fb.Usable then ({ s with pending := some ⟨fb, d.name, monitor⟩ }, .ok) else (s, .einval)

/-! ## Calls -/

/-- A call of a service. -/
inductive Call where
  | driverRegister (module : Handle) (desc : UInt64) (mem : Contents)
  | driverUnregister (module : Handle) (desc : UInt64)
  | deviceName (dev : Handle)
  | deviceSoftc (dev : Handle)
  | memAlloc (size align out : UInt64)
  | memFree (p size : UInt64)
  | resourceMap (dev : Handle) (kind index : UInt32) (out len : UInt64) (hw : Registers)
  | resourceUnmap (res : Handle)
  | read (res : Handle) (off : UInt64) (w : Width)
  | write (res : Handle) (off : UInt64) (w : Width) (v : UInt64)
  | pciCfgRead (dev : Handle) (off width : UInt32) (out : UInt64) (hw : Registers)
  | pciCfgWrite (dev : Handle) (off width v : UInt32)
  | pciEnableBusmaster (dev : Handle) (on : Bool)
  | dmaAlloc (dev : Handle) (size align boundary out : UInt64)
  | dmaFree (dma : Handle)
  | dmaKva (dma : Handle)
  | mtxInit (out : UInt64) (kind : UInt32)
  | mtxEnter (m : Handle)
  | mtxTryenter (m : Handle)
  | mtxExit (m : Handle)
  | mtxDestroy (m : Handle)
  | displayScanout (dev : Handle) (sc : UInt64) (mem : Contents) (monitor : Option Monitor) (hw : Registers)

/-- What a call gives back to the driver. -/
inductive Answer where
  | nothing
  | errno (rc : Errno)
  | address (rc : Errno) (p : Option UInt64)
  | handle (rc : Errno) (h : Option Handle)
  | window (rc : Errno) (w : Option (Handle × Option UInt64))
  | config (rc : Errno) (v : Option UInt32)
  | lands (place : Option (Bool × UInt64))
  | pointer (p : UInt64)
  | name (n : Option (List UInt8))
  | taken (b : Bool)
deriving DecidableEq

def serve : Call → State × Answer
  | .driverRegister module desc mem =>
    ((driverRegister lay s module desc mem).1, .errno (driverRegister lay s module desc mem).2)
  | .driverUnregister module desc =>
    ((driverUnregister lay s module desc).1, .errno (driverUnregister lay s module desc).2)
  | .deviceName dev => (s, .name ((lookup (lay .device) s.devices dev).map fun d => d.2.name))
  | .deviceSoftc dev => (s, .pointer (((lookup (lay .device) s.devices dev).map fun d => d.2.softc).getD 0))
  | .memAlloc size align out =>
    ((memAlloc s size align out).1, .address (memAlloc s size align out).2.1 (memAlloc s size align out).2.2)
  | .memFree p size => (memFree s p size, .nothing)
  | .resourceMap dev kind index out len hw =>
    ((resourceMap lay s dev kind index out len hw).1,
      .window (resourceMap lay s dev kind index out len hw).2.1 (resourceMap lay s dev kind index out len hw).2.2)
  | .resourceUnmap res => (resourceUnmap lay s res, .nothing)
  | .read res off w => (s, .lands (access lay s res off w))
  | .write res off w _ => (s, .lands (access lay s res off w))
  | .pciCfgRead dev off width out hw =>
    (s, .config (pciCfgRead lay s dev off width out hw).1 (pciCfgRead lay s dev off width out hw).2)
  | .pciCfgWrite dev off width _ => (s, .errno (pciCfgWrite lay s dev off width))
  | .pciEnableBusmaster dev _ => (s, .errno (pciEnableBusmaster lay s dev))
  | .dmaAlloc dev size align boundary out =>
    ((dmaAlloc lay s dev size align boundary out).1,
      .handle (dmaAlloc lay s dev size align boundary out).2.1 (dmaAlloc lay s dev size align boundary out).2.2)
  | .dmaFree dma => (dmaFree lay s dma, .nothing)
  | .dmaKva dma => (s, .pointer (dmaKva lay s dma))
  | .mtxInit out kind => ((mtxInit lay s out kind).1, .handle (mtxInit lay s out kind).2.1 (mtxInit lay s out kind).2.2)
  | .mtxEnter m => (mtxEnter lay s m, .nothing)
  | .mtxTryenter m => ((mtxTryenter lay s m).1, .taken (mtxTryenter lay s m).2)
  | .mtxExit m => (mtxExit lay s m, .nothing)
  | .mtxDestroy m => (mtxDestroy lay s m, .nothing)
  | .displayScanout dev sc mem monitor hw =>
    ((displayScanout lay s dev sc mem monitor hw).1, .errno (displayScanout lay s dev sc mem monitor hw).2)

/-- The handle that a call looks up. -/
def Call.names : Call → Option (Kind × Handle)
  | .driverRegister module _ _ => some (.module, module)
  | .driverUnregister module _ => some (.module, module)
  | .deviceName dev => some (.device, dev)
  | .deviceSoftc dev => some (.device, dev)
  | .memAlloc .. => none
  | .memFree .. => none
  | .resourceMap dev .. => some (.device, dev)
  | .resourceUnmap res => some (.resource, res)
  | .read res .. => some (.resource, res)
  | .write res .. => some (.resource, res)
  | .pciCfgRead dev .. => some (.device, dev)
  | .pciCfgWrite dev .. => some (.device, dev)
  | .pciEnableBusmaster dev _ => some (.device, dev)
  | .dmaAlloc dev .. => some (.device, dev)
  | .dmaFree dma => some (.dma, dma)
  | .dmaKva dma => some (.dma, dma)
  | .mtxInit .. => none
  | .mtxEnter m => some (.mtx, m)
  | .mtxTryenter m => some (.mtx, m)
  | .mtxExit m => some (.mtx, m)
  | .mtxDestroy m => some (.mtx, m)
  | .displayScanout dev .. => some (.device, dev)

/-- What a call answers when its handle names nothing. -/
@[grind =] def Call.refusal : Call → Answer
  | .deviceName _ => .name none
  | .deviceSoftc _ => .pointer 0
  | .read .. => .lands none
  | .write .. => .lands none
  | .dmaKva _ => .pointer 0
  | .mtxTryenter _ => .taken false
  | .resourceMap .. => .window .einval none
  | .pciCfgRead .. => .config .einval none
  | .dmaAlloc .. => .handle .einval none
  | .resourceUnmap _ => .nothing
  | .dmaFree _ => .nothing
  | .mtxEnter _ => .nothing
  | .mtxExit _ => .nothing
  | .mtxDestroy _ => .nothing
  | _ => .errno .einval

/-! ## The kernel's own steps -/

/-- An entry for a device that is offered. -/
def enter (p : PciDevice) : State :=
  match freeSlot s.devices with
  | none => s
  | some di => { s with devices := s.devices.set di (some ⟨false, some p, 0, 0, 0, []⟩) }

/-- The entry is filled in for the driver that attaches. -/
def fillIn (di : Fin 32) (d : Device) : State := { s with devices := s.devices.set di (s.devices[di].map fun _ => d) }

/-- The driver attached. -/
def attached (di : Fin 32) : State :=
  { s with devices := s.devices.set di (s.devices[di].map fun d => { d with attached := true }) }

/-- The entry is emptied, and nothing else. -/
def leave (di : Fin 32) : State := { s with devices := s.devices.set di none }

/-- The runs of memory that a device holds. -/
def runsOf (di : Fin 32) (dmas : Pool Dma 64) : List (UInt64 × UInt64) :=
  (dmas.toList.filterMap id).filterMap fun d => if d.device = di then some (d.addr, d.len) else none

/-- Gives runs back, one after the other. -/
def giveBack (m : Palloc) (runs : List (UInt64 × UInt64)) : Palloc := runs.foldl (fun m r => free m r.1 r.2) m

/-- The memory of a device's entry. -/
def softcOf (di : Fin 32) : List (UInt64 × UInt64) :=
  match s.devices[di] with
  | some d => if d.softc ≠ 0 then [(d.softc, d.softcLen)] else []
  | none => []

/-- Takes back what a device holds: its windows, its runs, its softc and its entry. -/
def release (di : Fin 32) : State :=
  { s with
    resources := clear (fun r => decide (r.device = di)) s.resources
    dmas := clear (fun d => decide (d.device = di)) s.dmas
    memory := giveBack s.memory (runsOf di s.dmas ++ softcOf s di)
    devices := s.devices.set di none }

/-- A module is placed in memory. -/
def load (len : UInt64) : State :=
  match freeSlot s.modules with
  | none => s
  | some m =>
    match allocZeroed s.memory len 4096 with
    | (memory, none) => { s with memory := memory }
    | (memory, some base) => { s with memory := memory, modules := s.modules.set m (some ⟨base, len⟩) }

/-- A module that failed goes, with its drivers. -/
def unload (m : Fin 16) : State :=
  match s.modules[m] with
  | none => s
  | some x =>
    { s with
      drivers := clear (fun d => decide (d.module = m)) s.drivers
      modules := s.modules.set m none
      memory := free s.memory x.base x.len }

/-- A step of the system: a call, or a step of the kernel. -/
inductive Step where
  | call (c : Call)
  | enter (p : PciDevice)
  | fillIn (di : Fin 32) (d : Device)
  | attached (di : Fin 32)
  | leave (di : Fin 32)
  | release (di : Fin 32)
  | load (len : UInt64)
  | unload (m : Fin 16)

def step : Step → State
  | .call c => (serve lay s c).1
  | .enter p => enter s p
  | .fillIn di d => fillIn s di d
  | .attached di => attached s di
  | .leave di => leave s di
  | .release di => release s di
  | .load len => load s len
  | .unload m => unload s m

end NanoChrono.Ncdri

/-! # Stale handles

A handle is the address of an entry, and an entry that was given back is taken again by the next object of its pool.
A handle whose object was given back is refused by every call in exactly the runs that take nothing from a pool after
something was given back to it; and every access through a live handle lands in the window that the handle was mapped
for in exactly the runs that map no window of I/O ports past the last port. -/

namespace NanoChrono.Ncdri

open Memory Pools

variable {lay : Layout} {s : State}

/-! ## What is asked -/

/-- A call with a handle that was given back changes nothing and answers that the handle names nothing. -/
def StaleRefused (lay : Layout) (back : Kind → Set Nat) (s : State) : Prop :=
  ∀ k, ∀ i ∈ back k, follows lay k s (handleOf (lay k) i) = false ∧
    ∀ c : Call, c.names = some (k, handleOf (lay k) i) → serve lay s c = (s, c.refusal)

/-- An access lands in the window of the live handle that it is made through. -/
def Lands (lay : Layout) (s : State) : Prop :=
  ∀ res off w io a, access lay s res off w = some (io, a) → ∃ i r, lookup (lay .resource) s.resources res = some (i, r) ∧
    io = r.io ∧ r.base.toNat ≤ a.toNat ∧ a.toNat + w.bytes.toNat ≤ r.base.toNat + r.len.toNat

def Safe (lay : Layout) (back : Kind → Set Nat) (s : State) : Prop := StaleRefused lay back s ∧ Lands lay s

/-- A window of I/O ports that is mapped ends with the last port, or before it. -/
def PortsFit (lay : Layout) (s : State) : Step → Prop
  | .call (.resourceMap dev kind index out _ hw) => freeSlot s.resources ≠ none → ∀ di bar,
      window lay s dev kind index out hw = .ok (di, bar) → bar.io = true → bar.base.toNat + bar.size.toNat ≤ 2 ^ 16
  | _ => True

/-! ## Steps and slots -/

/-- What a call of a service can do to the state. -/
inductive Serves (lay : Layout) (s : State) : Call → State → Prop
  | others {c : Call} (drivers : Pool DriverSlot 16) (memory : Palloc) (pending : Option Pending) :
      Serves lay s c { s with drivers := drivers, memory := memory, pending := pending }
  | dmas {c : Call} (memory : Palloc) {dmas : Pool Dma 64} (h : Effect (used s.dmas) (used dmas)) :
      Serves lay s c { s with memory := memory, dmas := dmas }
  | mtxs {c : Call} {mtxs : Pool Mtx 64} (h : Effect (used s.mtxs) (used mtxs)) :
      Serves lay s c { s with mtxs := mtxs }
  | maps {dev : Handle} {kind index : UInt32} {out len : UInt64} {hw : Registers} {di : Fin 32} {bar : Bar} {i : Fin 64}
      (hwindow : window lay s dev kind index out hw = .ok (di, bar)) (hfree : freeSlot s.resources = some i) :
      Serves lay s (.resourceMap dev kind index out len hw)
        { s with resources := s.resources.set i (some ⟨di, bar.io, bar.base, bar.size⟩) }
  | unmaps {c : Call} (i : Fin 64) : Serves lay s c { s with resources := s.resources.set i none }

theorem Serves.same {c : Call} : Serves lay s c s := .others s.drivers s.memory s.pending

variable {c : Call}

theorem driverRegister_serves (module : Handle) (desc : UInt64) (mem : Contents) :
    Serves lay s c (driverRegister lay s module desc mem).1 := by
  unfold driverRegister
  split
  · exact .same
  · dsimp only
    repeat' split
    all_goals first | exact .same | exact .others _ s.memory s.pending

theorem driverUnregister_serves (module : Handle) (desc : UInt64) :
    Serves lay s c (driverUnregister lay s module desc).1 := by
  unfold driverUnregister
  repeat' split
  all_goals first | exact .same | exact .others _ s.memory s.pending

theorem memAlloc_serves (size align out : UInt64) : Serves lay s c (memAlloc s size align out).1 := by
  unfold memAlloc
  repeat' split
  all_goals first | exact .same | exact .others s.drivers _ s.pending

theorem memFree_serves (p size : UInt64) : Serves lay s c (memFree s p size) := by
  unfold memFree
  split
  · exact .same
  · exact .others s.drivers _ s.pending

theorem displayScanout_serves (dev : Handle) (sc : UInt64) (mem : Contents) (monitor : Option Monitor)
    (hw : Registers) : Serves lay s c (displayScanout lay s dev sc mem monitor hw).1 := by
  unfold displayScanout
  split
  · exact .same
  · split
    · exact .same
    · split
      · exact .same
      · dsimp only
        repeat' split
        all_goals first | exact .same | exact .others s.drivers s.memory _

/-- A mapping takes a slot for the window that it is for. -/
theorem resourceMap_serves (dev : Handle) (kind index : UInt32) (out len : UInt64) (hw : Registers) :
    Serves lay s (.resourceMap dev kind index out len hw) (resourceMap lay s dev kind index out len hw).1 := by
  unfold resourceMap
  split
  · exact .same
  next hwindow =>
    split
    · exact .same
    next hfree => exact .maps hwindow hfree

theorem resourceUnmap_serves (res : Handle) : Serves lay s c (resourceUnmap lay s res) := by
  unfold resourceUnmap
  split
  · exact .same
  · exact .unmaps _

theorem dmaAlloc_serves (dev : Handle) (size align boundary out : UInt64) :
    Serves lay s c (dmaAlloc lay s dev size align boundary out).1 := by
  unfold dmaAlloc
  split_ifs
  · exact .same
  · exact .same
  · split
    · exact .same
    · split
      · exact .same
      next hfree =>
        split
        · exact .others s.drivers _ s.pending
        · exact .dmas _ (.take hfree _)

theorem dmaFree_serves (dma : Handle) : Serves lay s c (dmaFree lay s dma) := by
  unfold dmaFree
  split
  · exact .same
  · exact .dmas _ (.give _)

theorem mtxInit_serves (out : UInt64) (kind : UInt32) : Serves lay s c (mtxInit lay s out kind).1 := by
  unfold mtxInit
  split
  · exact .same
  · split
    · exact .same
    next hfree => exact .mtxs (.take hfree _)

theorem mtxSet_serves (m : Handle) (held : Bool) : Serves lay s c (mtxSet lay s m held) := by
  unfold mtxSet
  split
  · exact .same
  next hindex => exact .mtxs (.change (indexOf_some hindex).2 _)

theorem mtxTryenter_serves (m : Handle) : Serves lay s c (mtxTryenter lay s m).1 := by
  unfold mtxTryenter
  split
  · exact .same
  next hlookup =>
    split
    · exact .same
    · exact .mtxs (.change (lookup_used hlookup) _)

theorem mtxDestroy_serves (m : Handle) : Serves lay s c (mtxDestroy lay s m) := by
  unfold mtxDestroy
  split
  · exact .same
  · exact .mtxs (.give _)

theorem serves (lay : Layout) (s : State) (c : Call) : Serves lay s c (serve lay s c).1 := by
  cases c with
  | driverRegister module desc mem => exact driverRegister_serves module desc mem
  | driverUnregister module desc => exact driverUnregister_serves module desc
  | deviceName dev => exact .same
  | deviceSoftc dev => exact .same
  | memAlloc size align out => exact memAlloc_serves size align out
  | memFree p size => exact memFree_serves p size
  | resourceMap dev kind index out len hw => exact resourceMap_serves dev kind index out len hw
  | resourceUnmap res => exact resourceUnmap_serves res
  | read res off w => exact .same
  | write res off w v => exact .same
  | pciCfgRead dev off width out hw => exact .same
  | pciCfgWrite dev off width v => exact .same
  | pciEnableBusmaster dev on => exact .same
  | dmaAlloc dev size align boundary out => exact dmaAlloc_serves dev size align boundary out
  | dmaFree dma => exact dmaFree_serves dma
  | dmaKva dma => exact .same
  | mtxInit out kind => exact mtxInit_serves out kind
  | mtxEnter m => exact mtxSet_serves m true
  | mtxTryenter m => exact mtxTryenter_serves m
  | mtxExit m => exact mtxSet_serves m false
  | mtxDestroy m => exact mtxDestroy_serves m
  | displayScanout dev sc mem monitor hw => exact displayScanout_serves dev sc mem monitor hw

/-! ## Steps and slots -/

theorem effects {s' : State} (hmodule : Effect (used s.modules) (used s'.modules))
    (hdevice : Effect (used s.devices) (used s'.devices)) (hresource : Effect (used s.resources) (used s'.resources))
    (hdma : Effect (used s.dmas) (used s'.dmas)) (hmtx : Effect (used s.mtxs) (used s'.mtxs)) (k : Kind) :
    Effect (inUse k s) (inUse k s') := by
  cases k with
  | module => exact hmodule
  | device => exact hdevice
  | resource => exact hresource
  | dma => exact hdma
  | mtx => exact hmtx

theorem Serves.effect {s' : State} (h : Serves lay s c s') : ∀ k, Effect (inUse k s) (inUse k s') := by
  cases h with
  | others => exact effects (.refl _) (.refl _) (.refl _) (.refl _) (.refl _)
  | dmas _ h => exact effects (.refl _) (.refl _) (.refl _) h (.refl _)
  | mtxs h => exact effects (.refl _) (.refl _) (.refl _) (.refl _) h
  | maps _ hfree => exact effects (.refl _) (.refl _) (.take hfree _) (.refl _) (.refl _)
  | unmaps i => exact effects (.refl _) (.refl _) (.give i) (.refl _) (.refl _)

theorem load_effect (len : UInt64) : ∀ k, Effect (inUse k s) (inUse k (load s len)) := by
  unfold load
  split
  · exact fun k => .refl _
  next hfree =>
    split
    · exact effects (.refl _) (.refl _) (.refl _) (.refl _) (.refl _)
    · exact effects (.take hfree _) (.refl _) (.refl _) (.refl _) (.refl _)

theorem step_effect (lay : Layout) (s : State) (x : Step) : ∀ k, Effect (inUse k s) (inUse k (step lay s x)) := by
  cases x with
  | call c => exact (serves lay s c).effect
  | enter p =>
    change ∀ k, Effect (inUse k s) (inUse k (enter s p))
    unfold enter
    split
    · exact fun k => .refl _
    next hfree => exact effects (.refl _) (.take hfree _) (.refl _) (.refl _) (.refl _)
  | fillIn di d => exact effects (.refl _) (effect_map di _) (.refl _) (.refl _) (.refl _)
  | attached di => exact effects (.refl _) (effect_map di _) (.refl _) (.refl _) (.refl _)
  | leave di => exact effects (.refl _) (.give di) (.refl _) (.refl _) (.refl _)
  | release di => exact effects (.refl _) (.give di) (.clear _) (.clear _) (.refl _)
  | load len => exact load_effect len
  | unload m =>
    change ∀ k, Effect (inUse k s) (inUse k (unload s m))
    unfold unload
    split
    · exact fun k => .refl _
    · exact effects (.give m) (.refl _) (.refl _) (.refl _) (.refl _)

/-! ## Refused calls -/

/-- A handle is refused exactly while its slot is empty. -/
theorem follows_handleOf (k : Kind) (i : Nat) : follows lay k s (handleOf (lay k) i) = false ↔ inUse k s i = false := by
  cases k with
  | module => exact Iff.trans (by simp [follows]) (indexOf_handleOf (lay .module) i)
  | device => exact Iff.trans (by simp [follows]) (indexOf_handleOf (lay .device) i)
  | resource => exact Iff.trans (by simp [follows]) (indexOf_handleOf (lay .resource) i)
  | dma => exact Iff.trans (by simp [follows]) (indexOf_handleOf (lay .dma) i)
  | mtx => exact Iff.trans (by simp [follows]) (indexOf_handleOf (lay .mtx) i)

theorem module_refused {h : Handle} (hnone : indexOf (lay .module) s.modules h = none)
    (hnames : c.names = some (.module, h)) : serve lay s c = (s, c.refusal) := by
  have hlookup := lookup_none hnone
  cases c with
  | driverRegister module desc mem =>
    obtain ⟨⟩ := hnames
    simp [serve, driverRegister, hlookup, Call.refusal]
  | driverUnregister module desc =>
    obtain ⟨⟩ := hnames
    simp [serve, driverUnregister, hlookup, Call.refusal]
  | _ => simp [Call.names] at hnames

theorem device_refused {h : Handle} (hnone : indexOf (lay .device) s.devices h = none)
    (hnames : c.names = some (.device, h)) : serve lay s c = (s, c.refusal) := by
  have hlookup := lookup_none hnone
  cases c with
  | deviceName dev =>
    obtain ⟨⟩ := hnames
    simp [serve, hlookup, Call.refusal]
  | deviceSoftc dev =>
    obtain ⟨⟩ := hnames
    simp [serve, hlookup, Call.refusal]
  | resourceMap dev kind index out len hw =>
    obtain ⟨⟩ := hnames
    simp [serve, resourceMap, window, hlookup, Call.refusal]
  | pciCfgRead dev off width out hw =>
    obtain ⟨⟩ := hnames
    simp [serve, pciCfgRead, hlookup, Call.refusal]
  | pciCfgWrite dev off width v =>
    obtain ⟨⟩ := hnames
    simp [serve, pciCfgWrite, hlookup, Call.refusal]
  | pciEnableBusmaster dev on =>
    obtain ⟨⟩ := hnames
    simp [serve, pciEnableBusmaster, hlookup, Call.refusal]
  | dmaAlloc dev size align boundary out =>
    obtain ⟨⟩ := hnames
    simp [serve, dmaAlloc, hlookup, Call.refusal]
  | displayScanout dev sc mem monitor hw =>
    obtain ⟨⟩ := hnames
    simp [serve, displayScanout, hlookup, Call.refusal]
  | _ => simp [Call.names] at hnames

theorem resource_refused {h : Handle} (hnone : indexOf (lay .resource) s.resources h = none)
    (hnames : c.names = some (.resource, h)) : serve lay s c = (s, c.refusal) := by
  have hlookup := lookup_none hnone
  cases c with
  | resourceUnmap res =>
    obtain ⟨⟩ := hnames
    simp [serve, resourceUnmap, hnone, Call.refusal]
  | read res off w =>
    obtain ⟨⟩ := hnames
    simp [serve, access, hlookup, Call.refusal]
  | write res off w v =>
    obtain ⟨⟩ := hnames
    simp [serve, access, hlookup, Call.refusal]
  | _ => simp [Call.names] at hnames

theorem dma_refused {h : Handle} (hnone : indexOf (lay .dma) s.dmas h = none) (hnames : c.names = some (.dma, h)) :
    serve lay s c = (s, c.refusal) := by
  have hlookup := lookup_none hnone
  cases c with
  | dmaFree dma =>
    obtain ⟨⟩ := hnames
    simp [serve, dmaFree, hlookup, Call.refusal]
  | dmaKva dma =>
    obtain ⟨⟩ := hnames
    simp [serve, dmaKva, hlookup, Call.refusal]
  | _ => simp [Call.names] at hnames

theorem mtx_refused {h : Handle} (hnone : indexOf (lay .mtx) s.mtxs h = none) (hnames : c.names = some (.mtx, h)) :
    serve lay s c = (s, c.refusal) := by
  have hlookup := lookup_none hnone
  cases c with
  | mtxEnter m =>
    obtain ⟨⟩ := hnames
    simp [serve, mtxEnter, mtxSet, hnone, Call.refusal]
  | mtxTryenter m =>
    obtain ⟨⟩ := hnames
    simp [serve, mtxTryenter, hlookup, Call.refusal]
  | mtxExit m =>
    obtain ⟨⟩ := hnames
    simp [serve, mtxExit, mtxSet, hnone, Call.refusal]
  | mtxDestroy m =>
    obtain ⟨⟩ := hnames
    simp [serve, mtxDestroy, hnone, Call.refusal]
  | _ => simp [Call.names] at hnames

/-- A call whose handle names nothing changes nothing and says so. -/
theorem refused_call {k : Kind} {h : Handle} (hnone : follows lay k s h = false) (hnames : c.names = some (k, h)) :
    serve lay s c = (s, c.refusal) := by
  cases k with
  | module => exact module_refused (by simpa [follows] using hnone) hnames
  | device => exact device_refused (by simpa [follows] using hnone) hnames
  | resource => exact resource_refused (by simpa [follows] using hnone) hnames
  | dma => exact dma_refused (by simpa [follows] using hnone) hnames
  | mtx => exact mtx_refused (by simpa [follows] using hnone) hnames

theorem staleRefused_iff {back : Kind → Set Nat} : StaleRefused lay back s ↔ Refused inUse back s := by
  constructor
  · intro h k i hi
    exact (follows_handleOf k i).mp (h k i hi).1
  · intro h k i hi
    have hnone : follows lay k s (handleOf (lay k) i) = false := (follows_handleOf k i).mpr (h k i hi)
    exact ⟨hnone, fun c hnames => refused_call hnone hnames⟩

/-! ## Windows -/

/-- The ports of a window are numbers of 16 bits, and its addresses can be reached. -/
def Resource.Fits (r : Resource) : Prop :=
  r.base.toNat + r.len.toNat ≤ if r.io = true then 2 ^ 16 else ADDRESSABLE

/-- A window of I/O ports has at least one port, and fewer than there are. -/
theorem sized_io {hw : Registers} {reg : Nat} {io wide : Bool} {bar : Bar} (h : Bar.sized hw reg io wide = some bar)
    (hio : bar.io = true) : 0 < bar.size.toNat ∧ bar.size.toNat < 2 ^ 16 := by
  unfold Bar.sized at h
  dsimp only at h
  split at h
  · split at h
    next hsome =>
      obtain rfl := Option.some.inj h
      have hpos := Nat.pos_of_ne_zero fun hz => hsome.2 (UInt32.toNat_inj.mp hz)
      have hle : ((~~~(hw.mask reg &&& 0xFFFFFFFC) + 1) &&& 0xFFFF : UInt32).toNat ≤ 0xFFFF := by
        rw [UInt32.toNat_and]
        exact Nat.and_le_right
      refine ⟨hpos, ?_⟩
      exact Nat.lt_of_le_of_lt hle (by decide)
    · cases h
  · split at h
    · obtain rfl := Option.some.inj h
      cases hio
    · cases h

theorem barFrom_io {hw : Registers} {count index : Nat} {bar : Bar} : ∀ {rounds i : Nat},
    barFrom hw count index rounds i = some bar → bar.io = true → 0 < bar.size.toNat ∧ bar.size.toNat < 2 ^ 16
  | 0, _, h, _ => by cases h
  | rounds + 1, i, h, hio => by
    rw [barFrom] at h
    dsimp only at h
    split_ifs at h
    · exact barFrom_io h hio
    · exact barFrom_io h hio
    · exact sized_io h hio

/-- What a window that can be mapped is. -/
theorem window_ok {dev : Handle} {kind index : UInt32} {out : UInt64} {hw : Registers} {di : Fin 32} {bar : Bar}
    (h : window lay s dev kind index out hw = .ok (di, bar)) :
    (bar.io = true → 0 < bar.size.toNat ∧ bar.size.toNat < 2 ^ 16) ∧
      (bar.io = false → bar.base.toNat + bar.size.toNat ≤ ADDRESSABLE) := by
  unfold window at h
  split at h
  · cases h
  · split at h
    · cases h
    · split at h
      · cases h
      next d hbar =>
        obtain ⟨p, -, hp⟩ := Option.bind_eq_some_iff.mp hbar
        split_ifs at h with hmem hout hio
        · obtain ⟨-, rfl⟩ := Prod.mk.inj (Except.ok.inj h)
          refine ⟨fun hio => ?_, fun _ => ?_⟩
          · rw [hmem.2] at hio
            cases hio
          · exact Nat.le_of_not_lt fun hlt => hout (.inr hlt)
        · obtain ⟨-, rfl⟩ := Prod.mk.inj (Except.ok.inj h)
          refine ⟨fun _ => barFrom_io hp hio.2, fun hmem => ?_⟩
          rw [hio.2] at hmem
          cases hmem

/-- The windows that are mapped after a call were mapped before it, or the call maps them. -/
theorem Serves.windows {s' : State} (h : Serves lay s c s') {j : Fin 64} {r : Resource}
    (hr : s'.resources[j] = some r) : s.resources[j] = some r ∨
      ∃ dev kind index out len hw di bar, c = .resourceMap dev kind index out len hw ∧
        window lay s dev kind index out hw = .ok (di, bar) ∧ freeSlot s.resources = some j ∧
        r = ⟨di, bar.io, bar.base, bar.size⟩ := by
  cases h with
  | others => exact .inl hr
  | dmas => exact .inl hr
  | mtxs => exact .inl hr
  | @maps dev kind index out len hw di bar i hwindow hfree =>
    by_cases hij : i = j
    · subst hij
      have hset : (s.resources.set i.val (some ⟨di, bar.io, bar.base, bar.size⟩))[i] =
          some (⟨di, bar.io, bar.base, bar.size⟩ : Resource) := Vector.getElem_set_self ..
      exact .inr ⟨dev, kind, index, out, len, hw, di, bar, rfl, hwindow, hfree, Option.some.inj (hr.symm.trans hset)⟩
    · refine .inl (Eq.trans ?_ hr)
      exact (Vector.getElem_set_ne i.isLt j.isLt fun hval => hij (Fin.ext hval)).symm
  | unmaps i =>
    by_cases hij : i = j
    · subst hij
      have hset : (s.resources.set i.val none)[i] = none := Vector.getElem_set_self ..
      cases hr.symm.trans hset
    · refine .inl (Eq.trans ?_ hr)
      exact (Vector.getElem_set_ne i.isLt j.isLt fun hval => hij (Fin.ext hval)).symm

/-- An access through a window that fits lands in it. -/
theorem fits_lands {r : Resource} (hfits : r.Fits) {off a : UInt64} {w : Width} (htarget : target r off w.bytes = some a) :
    r.base.toNat ≤ (if r.io then a.toUInt16.toUInt64 else a).toNat ∧
      (if r.io then a.toUInt16.toUInt64 else a).toNat + w.bytes.toNat ≤ r.base.toNat + r.len.toNat := by
  unfold target at htarget
  split at htarget
  next hin =>
    obtain rfl := Option.some.inj htarget
    obtain ⟨-, hno, hle⟩ := hin
    have hend : off.toNat + w.bytes.toNat ≤ r.len.toNat := by
      have hle' := UInt64.le_iff_toNat_le.mp hle
      rw [UInt64.toNat_add, Nat.mod_eq_of_lt hno] at hle'
      exact hle'
    have hwide : 0 < w.bytes.toNat := by cases w <;> decide
    unfold Resource.Fits at hfits
    split at hfits
    next hio =>
      rw [if_pos hio]
      have hlt : (r.base + off).toNat = r.base.toNat + off.toNat := by
        rw [UInt64.toNat_add, Nat.mod_eq_of_lt (by omega)]
      have hport : ((r.base + off).toUInt16.toUInt64).toNat = r.base.toNat + off.toNat := by
        rw [UInt16.toNat_toUInt64, UInt64.toNat_toUInt16, hlt, Nat.mod_eq_of_lt (by omega)]
      rw [hport]
      omega
    next hio =>
      rw [if_neg hio]
      have hlt : (r.base + off).toNat = r.base.toNat + off.toNat := by
        unfold ADDRESSABLE at hfits
        rw [UInt64.toNat_add, Nat.mod_eq_of_lt (by omega)]
      rw [hlt]
      omega
  · cases htarget

theorem lands_of_fits (hfits : ∀ (i : Fin 64) (r : Resource), s.resources[i] = some r → r.Fits) : Lands lay s := by
  intro res off w io a haccess
  unfold access at haccess
  split at haccess
  · cases haccess
  next i r hlookup =>
    split at haccess
    · cases haccess
    · obtain ⟨b, htarget, hpair⟩ := Option.map_eq_some_iff.mp haccess
      obtain ⟨rfl, rfl⟩ := Prod.mk.inj hpair
      exact ⟨i, r, hlookup, rfl, fits_lands (hfits i r (lookup_some hlookup).2) htarget⟩

/-- A window of ports that goes past the last port has an access that lands outside it. -/
theorem lands_ports (hlands : Lands lay s) {i : Fin 64} {r : Resource} (hr : s.resources[i] = some r) (hio : r.io = true)
    (hpos : 0 < r.len.toNat) (hlen : r.len.toNat < 2 ^ 16) : r.base.toNat + r.len.toNat ≤ 2 ^ 16 := by
  by_contra hout
  have hlookup := lookup_handleOf (lay .resource) hr
  -- the first port of the window that is no number of 16 bits
  obtain ⟨off, hoff, hpast⟩ : ∃ off : UInt64, off.toNat < r.len.toNat ∧
      (r.base.toNat + off.toNat) % 2 ^ 16 < r.base.toNat ∧ off.toNat = 2 ^ 16 - r.base.toNat := by
    have hbase := r.base.toNat_lt
    refine ⟨UInt64.ofNat (2 ^ 16 - r.base.toNat), ?_⟩
    rw [UInt64.toNat_ofNat_of_lt' (Nat.lt_of_le_of_lt (Nat.sub_le ..) (by decide))]
    omega
  have hbase := r.base.toNat_lt
  have hone : Width.one.bytes.toNat = 1 := rfl
  have hnowrap : off.toNat + Width.one.bytes.toNat < 2 ^ 64 := by
    rw [hone]
    omega
  have htarget : target r off Width.one.bytes = some (r.base + off) := by
    refine if_pos ⟨?_, hnowrap, ?_⟩
    · refine UInt64.toNat_inj.mp ?_
      rw [UInt64.toNat_mod]
      exact Nat.mod_one _
    · rw [UInt64.le_iff_toNat_le, UInt64.toNat_add, Nat.mod_eq_of_lt hnowrap, hone]
      omega
  have haccess : access lay s (handleOf (lay .resource) i) off .one = some (r.io, (r.base + off).toUInt16.toUInt64) := by
    unfold access
    rw [hlookup]
    dsimp only
    rw [if_neg (fun h => by cases h.1), htarget, Option.map_some, if_pos hio]
  obtain ⟨j, q, hq, -, hle, -⟩ := hlands _ _ _ _ _ haccess
  obtain ⟨rfl, rfl⟩ := Prod.mk.inj (Option.some.inj (hlookup.symm.trans hq))
  rw [UInt16.toNat_toUInt64, UInt64.toNat_toUInt16, UInt64.toNat_add] at hle
  omega

/-! ## Runs -/

/-- Nothing is taken from a pool to which something was given back, and no window of ports goes past the last port. -/
def Orderly (lay : Layout) (back : Kind → Set Nat) (s : State) (x : Step) : Prop :=
  NoReuse (step lay) inUse back s x ∧ PortsFit lay s x

/-- The entries that were ever in use are the first ones of their pools, and the windows fit. -/
def Settled (back : Kind → Set Nat) (s : State) : Prop :=
  (∀ k, Fresh (inUse k s) (back k)) ∧ ∀ (i : Fin 64) (r : Resource), s.resources[i] = some r → r.Fits

/-- The windows that are mapped after a step were mapped before it, or a call maps them. -/
theorem step_windows {x : Step} {j : Fin 64} {r : Resource} (hr : (step lay s x).resources[j] = some r) :
    s.resources[j] = some r ∨ ∃ dev kind index out len hw di bar, x = .call (.resourceMap dev kind index out len hw) ∧
        window lay s dev kind index out hw = .ok (di, bar) ∧ freeSlot s.resources = some j ∧
        r = ⟨di, bar.io, bar.base, bar.size⟩ := by
  cases x with
  | call c =>
    rcases (serves lay s c).windows hr with h | ⟨dev, kind, index, out, len, hw, di, bar, rfl, h⟩
    · exact .inl h
    · exact .inr ⟨dev, kind, index, out, len, hw, di, bar, rfl, h⟩
  | enter p =>
    refine .inl ?_
    change (enter s p).resources[j] = some r at hr
    unfold enter at hr
    split at hr
    · exact hr
    · exact hr
  | fillIn di d => exact .inl hr
  | attached di => exact .inl hr
  | leave di => exact .inl hr
  | release di => exact .inl (clear_some hr)
  | load len =>
    refine .inl ?_
    change (load s len).resources[j] = some r at hr
    unfold load at hr
    split at hr
    · exact hr
    · split at hr
      · exact hr
      · exact hr
  | unload m =>
    refine .inl ?_
    change (unload s m).resources[j] = some r at hr
    unfold unload at hr
    split at hr
    · exact hr
    · exact hr

theorem settled_step {back : Kind → Set Nat} {x : Step} (h : Settled back s) (hok : Orderly lay back s x) :
    Settled (stale inUse back s (step lay s x)) (step lay s x) := by
  obtain ⟨hfresh, hfits⟩ := h
  obtain ⟨hnew, hports⟩ := hok
  refine ⟨hnew.fresh (step_effect lay s x) hfresh, fun j r hr => ?_⟩
  rcases step_windows hr with hold | ⟨dev, kind, index, out, len, hw, di, bar, rfl, hwindow, hfree, rfl⟩
  · exact hfits j r hold
  · have hslot : freeSlot s.resources ≠ none := by
      rw [hfree]
      exact Option.some_ne_none j
    unfold Resource.Fits
    split
    next hio => exact hports hslot di bar hwindow hio
    next hio => exact (window_ok hwindow).2 (Bool.eq_false_iff.mpr hio)

theorem orderly_of_safe {back : Kind → Set Nat} {x : Step} (h : Settled back s)
    (hsafe : Safe lay (stale inUse back s (step lay s x)) (step lay s x)) : Orderly lay back s x := by
  obtain ⟨hrefused, hlands⟩ := hsafe
  refine ⟨(staleRefused_iff.mp hrefused).noReuse (step_effect lay s x) h.1, ?_⟩
  unfold PortsFit
  split
  next dev kind index out len hw =>
    intro hslot di bar hwindow hio
    obtain ⟨i, hfree⟩ := Option.ne_none_iff_exists'.mp hslot
    have hafter : (step lay s (.call (.resourceMap dev kind index out len hw))).resources[i] =
        some ⟨di, bar.io, bar.base, bar.size⟩ := by
      change (resourceMap lay s dev kind index out len hw).1.resources[i] = _
      rw [resourceMap, hwindow]
      dsimp only
      rw [hfree]
      exact Vector.getElem_set_self ..
    obtain ⟨hpos, hlen⟩ := (window_ok hwindow).1 hio
    exact lands_ports hlands hafter hio hpos hlen
  · trivial

theorem boot_settled (memory : Palloc) : Settled (fun _ => ∅) (State.boot memory) := by
  refine ⟨fun k => ?_, fun i r hr => ?_⟩
  · cases k with
    | module => exact .none used_empty
    | device => exact .none used_empty
    | resource => exact .none used_empty
    | dma => exact .none used_empty
    | mtx => exact .none used_empty
  · have hempty : (Pool.empty Resource 64)[i] = none := Vector.getElem_replicate ..
    cases hr.symm.trans hempty

/-- In every state of a run the stale handles are refused and the accesses land, exactly if every step takes nothing
from a pool to which something was given back, and maps no window of ports past the last one. -/
theorem handles_safe_iff (lay : Layout) (memory : Palloc) (steps : List Step) :
    Always (step lay) inUse (Safe lay) (fun _ => ∅) (State.boot memory) steps ↔
      Each (step lay) inUse (Orderly lay) (fun _ => ∅) (State.boot memory) steps := by
  refine always_iff_each (fun back s (h : Settled back s) => ?_)
    (fun back s x h (hok : Orderly lay back s x) => settled_step h hok)
    (fun back s x h hsafe => orderly_of_safe h hsafe) steps (boot_settled memory)
  exact ⟨staleRefused_iff.mpr fun k => (h.1 k).refused, lands_of_fits h.2⟩

theorem entry_wide : 0 < 64 := by decide

/-- Pools one after the other, with entries of 64 bytes. -/
def sampleLayout : Layout
  | .module => ⟨0x200000, 64, entry_wide⟩
  | .device => ⟨0x201000, 64, entry_wide⟩
  | .resource => ⟨0x202000, 64, entry_wide⟩
  | .dma => ⟨0x203000, 64, entry_wide⟩
  | .mtx => ⟨0x204000, 64, entry_wide⟩

/-- A lock is made, given back, and the next one takes its entry. -/
def lockAgain : List Step := [.call (.mtxInit 1 1), .call (.mtxDestroy 0x204000), .call (.mtxInit 1 1)]

/-- The handle of the first lock then names the second. -/
theorem lock_reused : ¬Always (step sampleLayout) inUse (Safe sampleLayout) (fun _ => ∅)
    (State.boot (initMultiboot x86_64 smallBoot)) lockAgain := by
  rintro ⟨-, -, -, hrefused, -⟩
  have hback := (hrefused .mtx 0 (.inl (.inr ⟨by decide, by decide⟩))).1
  have hlive : follows sampleLayout .mtx (step sampleLayout (step sampleLayout (step sampleLayout
      (State.boot (initMultiboot x86_64 smallBoot)) (.call (.mtxInit 1 1))) (.call (.mtxDestroy 0x204000)))
      (.call (.mtxInit 1 1))) (handleOf (sampleLayout .mtx) 0) = true := by decide
  rw [hlive] at hback
  cases hback

end NanoChrono.Ncdri

/-! # Offers

A device is offered to every registered driver, and the one that bids highest attaches. The drivers' methods run
between the kernel's own steps, and make what calls they like. Of the four ways in which no driver attaches only the
last one takes anything back: the windows and the runs of the device, its softc and its entry. The first two exits
after the probes empty the entry and nothing else, none gives back memory that a method allocated or a scanout that it
handed over, and the attach method is read from the table after all probes have run. -/

namespace NanoChrono.Ncdri

open Memory Pools

/-! ## The code -/

/-- What the drivers' methods do: the calls that the `n`-th method called makes, from its address and from what the
kernel keeps, and what it returns. -/
abbrev Methods := Nat → UInt64 → State → List Call × Int

/-- The service calls of a method, one after the other. -/
def serveAll (lay : Layout) (s : State) (calls : List Call) : State := calls.foldl (fun s c => (serve lay s c).1) s

/-- The probes so far: the state they left, the best bid, and the methods called with the states they were called in. -/
structure Bidding where
  state : State
  best : Option (Fin 16 × Int)
  called : List (UInt64 × State)

/-- What an offer came to. -/
structure Offered where
  state : State
  attached : Bool
  called : List (UInt64 × State)

section

variable (lay : Layout) (does : Methods)

def invoke (n : Nat) (method : UInt64) (s : State) : State × Int :=
  (serveAll lay s (does n method s).1, (does n method s).2)

/-- One driver of the table is asked. A copy of its entry is taken, so that its own code may change the table. -/
@[grind =] def probe (b : Bidding) (i : Fin 16) : Bidding :=
  match b.state.drivers[i] with
  | none => b
  | some d =>
    let r := invoke lay does b.called.length d.desc.probe b.state
    { state := r.1
      best := if r.2 ≤ 0 ∧ (b.best.all fun bid => r.2 > bid.2) then some (i, r.2) else b.best
      called := b.called ++ [(d.desc.probe, b.state)] }

def probes (s : State) : Bidding := (List.finRange 16).foldl (probe lay does) ⟨s, none, []⟩

/-- A field of a driver's entry; those of an empty one are zero. -/
def softcSize (s : State) (i : Fin 16) : UInt64 := (s.drivers[i].map fun d => d.desc.softcSize).getD 0

def attachOf (s : State) (i : Fin 16) : UInt64 := (s.drivers[i].map fun d => d.desc.attach).getD 0

/-- The memory of a driver for its device. -/
def allocSoftc (m : Palloc) (size : UInt64) : Palloc × Option UInt64 :=
  if size > 0 then allocZeroed m size 4096 else (m, some 0)

/-- The name of a device: its driver's, and a number. -/
def deviceNameOf (s : State) (i : Fin 16) : List UInt8 :=
  let base := (s.drivers[i].map fun d => d.name).getD []
  let unit := (s.drivers[i].map fun d => d.units).getD 0
  (base ++ (Nat.toDigits 10 unit.toNat).map fun c => UInt8.ofNat c.toNat).take 15

/-- The entry is filled in, and the driver counts one more unit. -/
def prepare (s : State) (di : Fin 32) (p : PciDevice) (i : Fin 16) (memory : Palloc) (softc : UInt64) : State :=
  fillIn { s with memory := memory, drivers := s.drivers.set i (s.drivers[i].map fun d => { d with units := d.units + 1 }) }
    di ⟨false, some p, i.val, softc, softcSize s i, deviceNameOf s i⟩

/-- Offers one device. -/
def offer (p : PciDevice) (s : State) : Offered :=
  match freeSlot s.devices with
  | none => ⟨s, false, []⟩
  | some di =>
    let b := probes lay does (enter s p)
    match b.best with
    | none => ⟨leave b.state di, false, b.called⟩
    | some (i, _) =>
      match allocSoftc b.state.memory (softcSize b.state i) with
      | (memory, none) => ⟨leave { b.state with memory := memory } di, false, b.called⟩
      | (memory, some softc) =>
        let ready := prepare b.state di p i memory softc
        let r := invoke lay does b.called.length (attachOf b.state i) ready
        let called := b.called ++ [(attachOf b.state i, ready)]
        if r.2 ≠ 0 then ⟨release r.1 di, false, called⟩ else ⟨attached r.1 di, true, called⟩

end

/-! ## What is asked -/

/-- The pages that are free. -/
def State.freeMemory (s : State) : Finset Nat := cells s.memory.frames.ranges

/-- Windows, runs, free memory and the scanout are the same. -/
structure AsFound (s s' : State) : Prop where
  resources : s'.resources = s.resources
  dmas : s'.dmas = s.dmas
  memory : s'.freeMemory = s.freeMemory
  pending : s'.pending = s.pending

/-- The address is a method of a driver that is registered. -/
def Registered (s : State) (method : UInt64) : Prop :=
  ∃ (i : Fin 16) (d : DriverSlot), s.drivers[i] = some d ∧ (method = d.desc.probe ∨ method = d.desc.attach)

/-- An offer that no driver took leaves nothing behind, and every method called is a registered driver's. -/
def LeavesNothing (s : State) (o : Offered) : Prop :=
  (o.attached = false → o.state.devices = s.devices ∧ AsFound s o.state) ∧ ∀ call ∈ o.called, Registered call.2 call.1

/-- What the methods left is the device's own: windows, runs of memory, and no scanout. -/
structure OwnOnly (di : Fin 32) (s s' : State) : Prop where
  resources : Adds (fun r => decide (r.device = di)) s.resources s'.resources
  dmas : Adds (fun d => decide (d.device = di)) s.dmas s'.dmas
  memory : cells (giveBack s'.memory (runsOf di s'.dmas ++ softcOf s' di)).frames.ranges = s.freeMemory
  pending : s'.pending = s.pending

/-- The drivers undo what the kernel does not: everything in their probes if none attaches for want of a bid or of
memory, and what is not the device's own if the attach method fails. The best bidder stays registered. -/
def Undone (lay : Layout) (does : Methods) (p : PciDevice) (s : State) : Prop :=
  ∀ di, freeSlot s.devices = some di →
    let b := probes lay does (enter s p)
    (b.best = none → AsFound s b.state) ∧
      ∀ i bid, b.best = some (i, bid) →
        ((allocSoftc b.state.memory (softcSize b.state i)).2 = none → AsFound s b.state) ∧
        ∀ softc, (allocSoftc b.state.memory (softcSize b.state i)).2 = some softc →
          b.state.drivers[i] ≠ none ∧
          let ready := prepare b.state di p i (allocSoftc b.state.memory (softcSize b.state i)).1 softc
          let r := invoke lay does b.called.length (attachOf b.state i) ready
          r.2 ≠ 0 → OwnOnly di s r.1

/-! ## The entry -/

section

variable {lay : Layout} {does : Methods} {s : State} {p : PciDevice} {di : Fin 32}

theorem serveAll_devices (calls : List Call) : (serveAll lay s calls).devices = s.devices := by
  induction calls generalizing s with
  | nil => rfl
  | cons c calls ih =>
    refine (ih (s := (serve lay s c).1)).trans ?_
    generalize (serve lay s c).1 = s', serves lay s c = h
    cases h with
    | others => rfl
    | dmas => rfl
    | mtxs => rfl
    | maps => rfl
    | unmaps => rfl

theorem enter_eq (hfree : freeSlot s.devices = some di) :
    enter s p = { s with devices := s.devices.set di (some ⟨false, some p, 0, 0, 0, []⟩) } := by
  unfold enter
  rw [hfree]

theorem enter_others (hfree : freeSlot s.devices = some di) (j : Fin 32) (hj : j ≠ di) :
    (enter s p).devices[j] = s.devices[j] := by
  rw [enter_eq hfree]
  exact Vector.getElem_set_ne di.isLt j.isLt fun h => hj (Fin.ext h.symm)

/-! ## The probes -/

/-- What the probes keep: the entries of the devices, and that every method called is a registered driver's. -/
structure Asked (devices : Pool Device 32) (b : Bidding) : Prop where
  devices : b.state.devices = devices
  called : ∀ call ∈ b.called, Registered call.2 call.1

theorem probe_asked {devices : Pool Device 32} {b : Bidding} (h : Asked devices b) (i : Fin 16) :
    Asked devices (probe lay does b i) := by
  unfold probe
  split
  · exact h
  next d hd =>
    refine ⟨(serveAll_devices _).trans h.devices, fun call hcall => ?_⟩
    rcases List.mem_append.mp hcall with hold | hnew
    · exact h.called call hold
    · obtain rfl := List.mem_singleton.mp hnew
      exact ⟨i, d, hd, .inl rfl⟩

theorem probes_asked (s : State) : Asked s.devices (probes lay does s) := by
  unfold probes
  have hrun : ∀ (l : List (Fin 16)) {b : Bidding}, Asked s.devices b → Asked s.devices (l.foldl (probe lay does) b) := by
    intro l
    induction l with
    | nil => exact fun h => h
    | cons i l ih => exact fun h => ih (probe_asked h i)
  exact hrun _ ⟨rfl, fun call hcall => (by cases hcall)⟩

/-! ## The softc -/

theorem findRun_le {len align ceiling a : Nat} : ∀ {rs : List Range}, Frames.findRun len align ceiling rs = some a → a ≤ ceiling
  | [], h => by cases h
  | r :: rs, h => by
    rw [Frames.findRun] at h
    split at h
    · exact findRun_le h
    · dsimp only at h
      split at h
      · obtain rfl := Option.some.inj h
        refine Nat.and_le_left.trans ?_
        omega
      · exact findRun_le h

/-- An allocation that fails leaves what is free as it is. -/
theorem allocSoftc_none {m : Palloc} {size : UInt64} (h : (allocSoftc m size).2 = none) :
    (allocSoftc m size).1.frames.ranges = m.frames.ranges := by
  unfold allocSoftc at h ⊢
  split at h
  next hpos =>
    rw [if_pos hpos]
    unfold allocZeroed at h ⊢
    have hnone := Option.map_eq_none_iff.mp h
    unfold Palloc.alloc at hnone ⊢
    split
    · rfl
    · rename_i hready
      rw [if_neg hready] at hnone
      unfold Frames.alloc at hnone ⊢
      cases hrun : m.frames.allocRun (usize size).val (usize 4096).val x86_64.ceiling with
      | none => rfl
      | some r =>
        rw [hrun] at hnone
        dsimp only at hnone
        split at hnone
        · cases hnone
        next hout =>
          -- the run starts at or below the ceiling
          refine absurd ?_ hout
          unfold Frames.allocRun at hrun
          split at hrun
          · cases hrun
          · split at hrun
            · cases hrun
            · obtain ⟨a, ha, rfl⟩ := Option.map_eq_some_iff.mp hrun
              exact Nat.lt_of_le_of_lt ((findRun_le ha).trans Nat.and_le_left) x86_64.below
  · cases h

/-! ## What the device adds -/

/-- Without the device's own objects a pool is as it was exactly if they came on top of what was there. -/
theorem clear_iff_adds {α : Type} {N : Nat} {own : α → Bool} {before after : Pool α N} :
    clear own after = before ↔ Adds own before after := by
  have hslot : ∀ i : Fin N, (clear own after)[i] = before[i] ↔
      (after[i] = before[i] ∧ ∀ x, after[i] = some x → own x = false) ∨
        (before[i] = none ∧ ∃ x, after[i] = some x ∧ own x = true) := by
    intro i
    have hclear : (clear own after)[i] = after[i].filter fun x => !own x := Vector.getElem_map ..
    rw [hclear]
    generalize after[i] = slot, before[i] = old
    rcases slot with _ | x
    · constructor
      · exact fun h => .inl ⟨h, fun x hx => (by cases hx)⟩
      · rintro (⟨h, -⟩ | ⟨-, x, hx, -⟩)
        · exact h
        · cases hx
    · rw [Option.filter_some]
      cases hown : own x with
      | true =>
        constructor
        · exact fun h => .inr ⟨h.symm, x, rfl, hown⟩
        · rintro (⟨-, h⟩ | ⟨h, -⟩)
          · have := h x rfl
            rw [hown] at this
            cases this
          · exact h.symm
      | false =>
        constructor
        · exact fun h => .inl ⟨h, fun y hy => Option.some.inj hy ▸ hown⟩
        · rintro (⟨h, -⟩ | ⟨-, y, hy, hnot⟩)
          · exact h
          · rw [← Option.some.inj hy, hown] at hnot
            cases hnot
  constructor
  · rintro rfl i
    exact (hslot i).mp rfl
  · intro h
    exact Vector.ext fun j hj => (hslot ⟨j, hj⟩).mpr (h ⟨j, hj⟩)

variable {b : Bidding}

/-- What the methods leave when the entry is emptied again. -/
theorem asked_devices {s' : State} (hasked : Asked (enter s p).devices b) (hfree : freeSlot s.devices = some di)
    (hsame : ∀ j : Fin 32, j ≠ di → s'.devices[j] = b.state.devices[j]) : s'.devices.set di none = s.devices := by
  refine set_back hfree fun j hj => (hsame j hj).trans ?_
  rw [hasked.devices]
  exact enter_others hfree j hj

theorem release_asFound {s' : State} : AsFound s (release s' di) ↔ OwnOnly di s s' := by
  constructor
  · rintro ⟨hresources, hdmas, hmemory, hpending⟩
    exact ⟨clear_iff_adds.mp hresources, clear_iff_adds.mp hdmas, hmemory, hpending⟩
  · rintro ⟨hresources, hdmas, hmemory, hpending⟩
    exact ⟨clear_iff_adds.mpr hresources, clear_iff_adds.mpr hdmas, hmemory, hpending⟩

/-- The attach method that is called is a registered driver's exactly if the best bidder still is one. -/
theorem attach_registered {s' : State} {i : Fin 16} {memory : Palloc} {softc : UInt64} :
    Registered (prepare s' di p i memory softc) (attachOf s' i) ↔ s'.drivers[i] ≠ none := by
  constructor
  · rintro ⟨k, d, hd, hmethod⟩ hnone
    have hzero : attachOf s' i = 0 := by
      unfold attachOf
      rw [hnone]
      rfl
    rw [hzero] at hmethod
    rcases hmethod with hprobe | hattach
    · exact d.probes hprobe.symm
    · exact d.attaches hattach.symm
  · intro hsome
    obtain ⟨d, hd⟩ := Option.ne_none_iff_exists'.mp hsome
    refine ⟨i, { d with units := d.units + 1 }, ?_, .inr ?_⟩
    · refine Eq.trans (Vector.getElem_set_self ..) ?_
      rw [hd]
      rfl
    · unfold attachOf
      rw [hd]
      rfl

/-! ## The exits -/

/-- After an exit that empties the entry and nothing else. -/
theorem leave_leaves {memory : Palloc} (hasked : Asked (enter s p).devices b) (hfree : freeSlot s.devices = some di)
    (hmemory : memory.frames.ranges = b.state.memory.frames.ranges) :
    LeavesNothing s ⟨leave { b.state with memory := memory } di, false, b.called⟩ ↔ AsFound s b.state := by
  have hcells : cells memory.frames.ranges = b.state.freeMemory := congrArg cells hmemory
  constructor
  · rintro ⟨hfound, -⟩
    obtain ⟨-, hresources, hdmas, hfreed, hpending⟩ := hfound rfl
    exact ⟨hresources, hdmas, hcells.symm.trans hfreed, hpending⟩
  · rintro ⟨hresources, hdmas, hfreed, hpending⟩
    have hdevices : b.state.devices.set di none = s.devices := asked_devices hasked hfree fun j hj => rfl
    exact ⟨fun _ => ⟨hdevices, hresources, hdmas, hcells.trans hfreed, hpending⟩, hasked.called⟩

/-- What an offer comes to once the attach method has run. -/
def finish (di : Fin 32) (called : List (UInt64 × State)) (r : State × Int) : Offered :=
  if r.2 ≠ 0 then ⟨release r.1 di, false, called⟩ else ⟨attached r.1 di, true, called⟩

theorem finish_called (called : List (UInt64 × State)) (r : State × Int) : (finish di called r).called = called := by
  unfold finish
  split
  · rfl
  · rfl

/-- After the attach method has run. -/
theorem attach_leaves {i : Fin 16} {memory : Palloc} {softc : UInt64} {ready : State} {r : State × Int}
    (hasked : Asked (enter s p).devices b) (hfree : freeSlot s.devices = some di)
    (hready : ready = prepare b.state di p i memory softc) (hdevices : r.1.devices = ready.devices) :
    LeavesNothing s (finish di (b.called ++ [(attachOf b.state i, ready)]) r) ↔
      b.state.drivers[i] ≠ none ∧ (r.2 ≠ 0 → OwnOnly di s r.1) := by
  have hcalled : (∀ call ∈ b.called ++ [(attachOf b.state i, ready)], Registered call.2 call.1) ↔
      b.state.drivers[i] ≠ none := by
    have hregistered : Registered ready (attachOf b.state i) ↔ b.state.drivers[i] ≠ none := by
      rw [hready]
      exact attach_registered
    rw [← hregistered]
    constructor
    · exact fun h => h _ (List.mem_append_right _ (List.mem_singleton_self _))
    · intro h call hcall
      rcases List.mem_append.mp hcall with hold | hnew
      · exact hasked.called call hold
      · obtain rfl := List.mem_singleton.mp hnew
        exact h
  unfold LeavesNothing
  rw [finish_called, hcalled, and_comm]
  refine and_congr_right fun _ => ?_
  unfold finish
  split
  next hfails =>
    constructor
    · exact fun hfound _ => release_asFound.mp (hfound rfl).2
    · refine fun hown _ => ⟨?_, release_asFound.mpr (hown hfails)⟩
      refine asked_devices hasked hfree fun j hj => ?_
      rw [hdevices, hready]
      exact Vector.getElem_set_ne di.isLt j.isLt fun h => hj (Fin.ext h.symm)
  next hworks =>
    exact ⟨fun _ hfails => absurd hfails hworks, fun _ h => (by cases h)⟩

/-- An offer leaves nothing behind, and calls methods of registered drivers only, exactly if the drivers' methods undo
what the kernel does not and the best bidder stays registered. -/
theorem offer_leaves_nothing_iff (lay : Layout) (does : Methods) (p : PciDevice) (s : State) :
    LeavesNothing s (offer lay does p s) ↔ Undone lay does p s := by
  have hasked : Asked (enter s p).devices (probes lay does (enter s p)) := probes_asked _
  unfold offer Undone
  generalize probes lay does (enter s p) = b at hasked
  cases hfree : freeSlot s.devices with
  | none =>
    refine iff_of_true ⟨fun _ => ⟨rfl, rfl, rfl, rfl, rfl⟩, fun call hcall => (by cases hcall)⟩ ?_
    intro di hdi
    cases hdi
  | some di =>
    have hone : ∀ {q : Fin 32 → Prop}, (∀ k, some di = some k → q k) ↔ q di :=
      fun {q} => ⟨fun h => h di rfl, fun h k hk => Option.some.inj hk ▸ h⟩
    rw [hone]
    dsimp only
    cases hbest : b.best with
    | none =>
      refine (leave_leaves hasked hfree rfl).trans ⟨fun h => ⟨fun _ => h, fun i bid hi => (by cases hi)⟩, fun h => h.1 rfl⟩
    | some best =>
      obtain ⟨i, bid⟩ := best
      have hbid : ∀ {q : Fin 16 → Prop}, ((some (i, bid) = none → AsFound s b.state) ∧
          ∀ k bid', some (i, bid) = some (k, bid') → q k) ↔ q i :=
        fun {q} => ⟨fun h => h.2 i bid rfl, fun h => ⟨fun hnone => (by cases hnone), fun k bid' hk =>
          (Prod.mk.inj (Option.some.inj hk)).1 ▸ h⟩⟩
      rw [hbid]
      dsimp only
      have hnone := @allocSoftc_none b.state.memory (softcSize b.state i)
      generalize allocSoftc b.state.memory (softcSize b.state i) = softc at hnone
      obtain ⟨memory, _ | addr⟩ := softc
      · refine (leave_leaves hasked hfree (hnone rfl)).trans ?_
        exact ⟨fun h => ⟨fun _ => h, fun addr haddr => (by cases haddr)⟩, fun h => h.1 rfl⟩
      · refine (attach_leaves hasked hfree rfl (serveAll_devices _)).trans ?_
        constructor
        · intro h
          refine ⟨fun hnone => (by cases hnone), fun addr' haddr => ?_⟩
          obtain rfl := Option.some.inj haddr
          exact h
        · exact fun h => h.2 addr rfl

end

/-! ## A window that stays -/

/-- A description at `0x1FF800`, with its probe at `0x1FF100` and its attach method at `0x1FF200`. -/
def sampleMemory (a : UInt64) : UInt8 :=
  if a = 0x1FF800 then 136
  else if a = 0x1FF804 then 1
  else if a = 0x1FF819 then 0xF1
  else if a = 0x1FF821 then 0xF2
  else if a = 0x1FF81A ∨ a = 0x1FF822 then 0x1F
  else 0

/-- One module is loaded, and registers its driver. -/
def oneDriver : State :=
  [Step.load 0x1000, .call (.driverRegister 0x200000 0x1FF800 sampleMemory)].foldl (step sampleLayout)
    (State.boot (initMultiboot x86_64 smallBoot))

/-- A device with one window of 4 KiB. -/
def sampleRegisters : Registers :=
  ⟨fun reg => if reg = 0x10 then 0xFEB00000 else 0, fun reg => if reg = 0x10 then 0xFFFFF000 else 0⟩

/-- The probe maps the window, and declines the device with `ENXIO`. -/
def mapsAndDeclines : Methods := fun _ _ _ => ([.resourceMap 0x201000 1 0 1 0 sampleRegisters], 6)

theorem window_left_behind :
    ¬LeavesNothing oneDriver (offer sampleLayout mapsAndDeclines ⟨0, 2, 0, 0x1234, 0x1111, 0⟩ oneDriver) := by
  intro h
  have hsame := (h.1 (by decide)).2.resources
  have hbefore : used oneDriver.resources 0 = false := by decide
  have hafter : used (offer sampleLayout mapsAndDeclines ⟨0, 2, 0, 0x1234, 0x1111, 0⟩ oneDriver).state.resources 0 =
      true := by decide
  rw [hsame, hbefore] at hafter
  cases hafter

end NanoChrono.Ncdri
