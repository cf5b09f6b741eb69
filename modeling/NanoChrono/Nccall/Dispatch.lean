import Mathlib.Data.BitVec
import NanoChrono.Memory.Bitmap
import NanoChrono.Trace.Act

/-! # The `nccall` dispatcher

What a call means, for any caller. The caller is whoever trapped: the capability groups it was
granted, the memory it owns, and the ways its services, console and generator are reached. Its
methods are the fields of `Caller`, over a state `σ` that holds whatever they change, the caller's
memory included; machine words are `w` bits wide.

The dispatcher is a `Trace.Act`: it logs each thing it does on the caller's behalf. -/

/-! ## Call numbers

A call number is 32 bits: a class above bit 16 and an index below. Class 0 holds the instrument's
own services, class 1 the POSIX surface at its FreeBSD indices, class 2 the self-check. -/

namespace NanoChrono.Nccall

def CLASS_SHIFT : Nat := 16
def INDEX_MASK : BitVec 32 := 0xFFFF
def CLASS_NC : BitVec 32 := 0
def CLASS_POSIX : BitVec 32 := 1
def CLASS_DIAG : BitVec 32 := 2

/-- The class of a call number. -/
def classOf (nr : BitVec 32) : BitVec 32 := nr >>> CLASS_SHIFT

/-- Builds a number from a class and an index. -/
def make (cls index : BitVec 32) : BitVec 32 := (cls <<< CLASS_SHIFT) ||| (index &&& INDEX_MASK)

/-! ## Class 0: the services -/

namespace Nc

def EXIT : BitVec 32 := 0
def FILL_RECT : BitVec 32 := 1
def CLEAR : BitVec 32 := 2
def PRESENT : BitVec 32 := 3
def POLL_EVENT : BitVec 32 := 4
def TICKS : BitVec 32 := 5
def LOG : BitVec 32 := 6
def TIMER_NOW : BitVec 32 := 7
def TIMER_NOW_END : BitVec 32 := 8
def TIMER_HZ : BitVec 32 := 9
def TIMER_SOURCE : BitVec 32 := 10
def TIMER_TICKS_TO_NS : BitVec 32 := 11
def PMU_CAPS : BitVec 32 := 12
def PMU_OPEN : BitVec 32 := 13
def PMU_READ : BitVec 32 := 14
def PMU_CLOSE : BitVec 32 := 15
def RNG_FILL : BitVec 32 := 16
def RNG_STATUS : BitVec 32 := 17
def RNG_STIR : BitVec 32 := 18
def RNG_SELFTEST : BitVec 32 := 19
/-- The caller's stack canary changed: end it. -/
def STACK_CHK_FAIL : BitVec 32 := 20

end Nc

/-! ## Class 1: POSIX -/

/-- A FreeBSD index as a class-1 number. -/
def freebsd (index : BitVec 32) : BitVec 32 := make CLASS_POSIX index

namespace Posix

def EXIT : BitVec 32 := freebsd 1
def WRITE : BitVec 32 := freebsd 4
def GETPID : BitVec 32 := freebsd 20
def MUNMAP : BitVec 32 := freebsd 73
def CLOCK_GETTIME : BitVec 32 := freebsd 232
def MMAP : BitVec 32 := freebsd 477
def GETRANDOM : BitVec 32 := freebsd 563

end Posix

/-! ## Class 2: the self-check -/

namespace Diag

def ECHO : BitVec 32 := make CLASS_DIAG 0

end Diag

/-! ## Flags and errors -/

def PROT_READ : BitVec 32 := 0x01
def PROT_WRITE : BitVec 32 := 0x02
def PROT_EXEC : BitVec 32 := 0x04

def MAP_SHARED : BitVec 32 := 0x0001
def MAP_PRIVATE : BitVec 32 := 0x0002
def MAP_FIXED : BitVec 32 := 0x0010
def MAP_ANON : BitVec 32 := 0x1000

def CLOCK_MONOTONIC : BitVec 32 := 4
def CLOCK_UPTIME : BitVec 32 := 5

def GRND_NONBLOCK : BitVec 32 := 0x1
def GRND_RANDOM : BitVec 32 := 0x2
def GRND_INSECURE : BitVec 32 := 0x4

/-- A system error number. -/
abbrev Errno := BitVec 32

def EIO : Errno := 5
def EBADF : Errno := 9
def ENOMEM : Errno := 12
def EACCES : Errno := 13
def EFAULT : Errno := 14
def EINVAL : Errno := 22
def EAGAIN : Errno := 35
def ENOTSUP : Errno := 45
def ENOSYS : Errno := 78
def ENOTCAPABLE : Errno := 93

/-! ## Capability groups -/

def CAP_SCREEN : BitVec 32 := 1 <<< 0
def CAP_INPUT : BitVec 32 := 1 <<< 1
def CAP_LOG : BitVec 32 := 1 <<< 2
def CAP_TIMER : BitVec 32 := 1 <<< 3
def CAP_PMU : BitVec 32 := 1 <<< 4
def CAP_RNG : BitVec 32 := 1 <<< 5

/-- Whether `caps` grants the whole group `cap`. -/
def Grants (caps cap : BitVec 32) : Prop := caps &&& cap = cap

instance (caps cap : BitVec 32) : Decidable (Grants caps cap) :=
  inferInstanceAs (Decidable (_ = _))

/-- The capability a class-0 call needs, or 0 for one always allowed. -/
def capability (nr : BitVec 32) : BitVec 32 :=
  if nr ∈ [Nc.FILL_RECT, Nc.CLEAR, Nc.PRESENT] then CAP_SCREEN
  else if nr = Nc.POLL_EVENT then CAP_INPUT
  else if nr = Nc.LOG then CAP_LOG
  else if nr ∈ [Nc.TICKS, Nc.TIMER_NOW, Nc.TIMER_NOW_END, Nc.TIMER_HZ, Nc.TIMER_SOURCE,
      Nc.TIMER_TICKS_TO_NS] then CAP_TIMER
  else if nr ∈ [Nc.PMU_CAPS, Nc.PMU_OPEN, Nc.PMU_READ, Nc.PMU_CLOSE] then CAP_PMU
  else if nr ∈ [Nc.RNG_FILL, Nc.RNG_STATUS, Nc.RNG_STIR, Nc.RNG_SELFTEST] then CAP_RNG
  else 0

/-- Nothing is needed for a number of no group. -/
@[simp] theorem grants_zero (caps : BitVec 32) : Grants caps 0 := BitVec.and_zero

open Trace

/-- The generator's mode: output on a reseeding schedule, or a fresh seed per block. -/
inductive Mode where
  | fast
  | true
deriving DecidableEq, Repr

/-- From a flags word: bit 0 selects the TRUE mode. -/
def Mode.fromFlags (flags : BitVec 32) : Mode := if flags &&& 1 ≠ 0 then .true else .fast

/-- A rule of the boundary a caller broke. -/
inductive Violation where
  /-- The stack pointer was outside the caller's stack. -/
  | stackPointer
  /-- A service call from a site the kernel does not vouch for. -/
  | unpinnedSite
  /-- A return address the exit path cannot take. -/
  | returnAddress
deriving DecidableEq, Repr

variable {w : Nat}

/-- Why a caller is ended rather than answered. -/
inductive Ending (w : Nat) where
  | exit (status : BitVec 64)
  | stackSmashed
  | denied (nr : BitVec 32)
  | violation (v : Violation)
  | unknown (nr : BitVec w)
deriving DecidableEq, Repr

/-- What goes back to the caller: two words, an error number, or nothing any more. -/
inductive Reply (w : Nat) where
  | ok (value value2 : BitVec w)
  | err (e : Errno)
  | ended (why : Ending w)
deriving DecidableEq, Repr

/-- One call, as it was read from the trap. -/
structure Call (w : Nat) where
  nr : BitVec w
  args : Vector (BitVec w) 6
  site : BitVec w
  sp : BitVec w

/-- `[ptr, ptr + len)`: a slice of the caller's memory. -/
structure Slice (w : Nat) where
  ptr : BitVec w
  len : BitVec w
deriving DecidableEq, Repr

/-- Seconds and nanoseconds, 64 bits each. -/
structure Timespec where
  tvSec : BitVec 64
  tvNsec : BitVec 64
deriving DecidableEq, Repr

/-- Who is calling, and what the kernel may do on its behalf. -/
structure Caller (w : Nat) (σ : Type) where
  /-- The capability groups granted. -/
  caps : σ → BitVec 32
  /-- Whether a slice is the caller's own memory. -/
  owns : Slice w → σ → Bool
  /-- The caller's stack, `[base, base + len]`; `none` is not checked. -/
  stack : σ → Option (BitVec w × BitVec w)
  /-- Whether the kernel vouches for code at this address. -/
  pinned : BitVec w → σ → Bool
  /-- A class-0 service; `none` when there is no such service for this caller. -/
  service : BitVec 32 → Vector (BitVec w) 6 → σ → Option (BitVec w) × σ
  /-- Monotonic time in nanoseconds. -/
  nowNs : σ → Option (BitVec 64)
  /-- Fresh, zeroed, read-write memory. -/
  mapAnon : BitVec w → σ → Except Errno (BitVec w) × σ
  /-- Gives a mapped range back. -/
  unmap : BitVec w → BitVec w → σ → Except Errno Unit × σ
  /-- The bytes of the slice to the console. -/
  console : Slice w → σ → Except Errno Unit × σ
  /-- The slice filled from the generator; the bytes written, or `none` when it cannot be done. -/
  random : Slice w → Mode → σ → Option (BitVec w) × σ
  /-- Told why it is ended. -/
  ended : Ending w → σ → σ
  /-- The store of a `Timespec` through the caller's pointer: the machine's, not the caller's. -/
  store : BitVec w → Timespec → σ → σ

/-- What the dispatcher does on a caller's behalf. -/
inductive Action (w : Nat) where
  /-- Asks whether the slice is the caller's, and is told. -/
  | owns (s : Slice w) (yes : Bool)
  | service (nr : BitVec 32) (args : Vector (BitVec w) 6)
  | mapAnon (len : BitVec w)
  | unmap (addr len : BitVec w)
  | console (s : Slice w)
  | random (s : Slice w) (mode : Mode)
  | store (ptr : BitVec w) (ts : Timespec)
  | ended (why : Ending w)
deriving DecidableEq

variable {σ : Type} (c : Caller w σ)

/-- A step of the dispatcher for a caller with states `σ`. -/
abbrev Step (w : Nat) (σ α : Type) : Type := Act σ (Action w) α

def usizeMin (a b : BitVec w) : BitVec w := if a ≤ b then a else b

/-- `a + b`, or the largest word when that does not fit. -/
def saturatingAdd (a b : BitVec w) : BitVec w :=
  if a.toNat + b.toNat < 2 ^ w then a + b else BitVec.allOnes w

/-- `(base..=base.saturating_add(len)).contains(&sp)`, when the stack is checked at all. -/
def OnStack (stack : Option (BitVec w × BitVec w)) (sp : BitVec w) : Prop :=
  match stack with
  | none => True
  | some (base, len) => base ≤ sp ∧ sp ≤ saturatingAdd base len

instance (stack : Option (BitVec w × BitVec w)) (sp : BitVec w) : Decidable (OnStack stack sp) :=
  match stack with
  | none => inferInstanceAs (Decidable True)
  | some (base, len) => inferInstanceAs (Decidable (base ≤ sp ∧ sp ≤ saturatingAdd base len))

/-! ## Class 0 -/

/-- A class-0 call: one service, for a caller that was granted it, from a site the kernel vouches
for. -/
@[grind =] def service (n : BitVec 32) (call : Call w) : Step w σ (Reply w) := do
  if ¬ (← Act.ask (c.pinned call.site)) then
    return .ended (.violation .unpinnedSite)
  if n = Nc.STACK_CHK_FAIL then
    return .ended .stackSmashed
  let cap := capability n
  let caps ← Act.ask c.caps
  if cap ≠ 0 ∧ ¬ Grants caps cap then
    return .ended (.denied n)
  if n = Nc.EXIT then
    return .ended (.exit (call.args[0].setWidth 64))
  match ← Act.act (.service n call.args) (c.service n call.args) with
  | some value => return .ok value 0
  | none => return .ended (.unknown call.nr)

/-! ## Class 1 -/

/-- What a class-1 call answers: two words or an error number. -/
abbrev Answer (w : Nat) : Type := Except Errno (BitVec w × BitVec w)

/-- The descriptor of a `write`. -/
def fdArg (a : Vector (BitVec w) 6) : BitVec 32 := a[0].setWidth 32

/-- The protection bits of an `mmap`. -/
def protArg (a : Vector (BitVec w) 6) : BitVec 32 := a[2].setWidth 32

/-- `write`: the slice to the console, for file descriptors 1 and 2. -/
def posixWrite (a : Vector (BitVec w) 6) : Step w σ (Answer w) := do
  let fd := fdArg a
  if fd ≠ 1 ∧ fd ≠ 2 then
    return .error EBADF
  if ¬ Grants (← Act.ask c.caps) CAP_LOG then
    return .error ENOTCAPABLE
  if a[2] = 0 then
    return .ok (0, 0)
  -- A short write: at most 4 KiB a call.
  let s : Slice w := ⟨a[1], usizeMin a[2] (.ofNat w 4096)⟩
  if ¬ (← Act.inquire (.owns s) (c.owns s)) then
    return .error EFAULT
  match ← Act.act (.console s) (c.console s) with
  | .ok () => return .ok (s.len, 0)
  | .error e => return .error e

/-- `mmap`: fresh anonymous memory, never executable. -/
def posixMmap (a : Vector (BitVec w) 6) : Step w σ (Answer w) := do
  let len := a[1]
  let protBits := protArg a
  let flags := a[3].setWidth 32
  let fd := a[4].setWidth 32
  if len = 0 ∨ flags &&& MAP_FIXED ≠ 0 then
    return .error EINVAL
  -- No file can be mapped: there is no file descriptor table.
  if flags &&& MAP_ANON = 0 ∨ fd ≠ -1 ∨ a[5] ≠ 0 then
    return .error ENOTSUP
  if flags &&& (MAP_SHARED ||| MAP_PRIVATE) = 0 then
    return .error EINVAL
  if protBits &&& PROT_EXEC ≠ 0 then
    return .error EACCES
  if protBits &&& ~~~(PROT_READ ||| PROT_WRITE) ≠ 0 then
    return .error EINVAL
  match ← Act.act (.mapAnon len) (c.mapAnon len) with
  | .ok p => return .ok (p, 0)
  | .error e => return .error e

/-- `munmap`. -/
def posixMunmap (a : Vector (BitVec w) 6) : Step w σ (Answer w) := do
  match ← Act.act (.unmap a[0] a[1]) (c.unmap a[0] a[1]) with
  | .ok () => return .ok (0, 0)
  | .error e => return .error e

/-- `size_of::<Timespec>()`. -/
def TIMESPEC_SIZE : Nat := 16

/-- `clock_gettime`, for the two monotonic clocks. -/
def posixClockGettime (a : Vector (BitVec w) 6) : Step w σ (Answer w) := do
  if ¬ Grants (← Act.ask c.caps) CAP_TIMER then
    return .error ENOTCAPABLE
  let clock := a[0].setWidth 32
  if clock ≠ CLOCK_MONOTONIC ∧ clock ≠ CLOCK_UPTIME then
    return .error EINVAL
  let s : Slice w := ⟨a[1], .ofNat w TIMESPEC_SIZE⟩
  if ¬ (← Act.inquire (.owns s) (c.owns s)) then
    return .error EFAULT
  match ← Act.ask c.nowNs with
  | none => return .error ENOSYS
  | some ns =>
    let ts : Timespec := ⟨ns / 1000000000, ns % 1000000000⟩
    Act.act (.store a[1] ts) fun t => ((), c.store a[1] ts t)
    return .ok (0, 0)

/-- The most `getrandom` fills in one call. -/
def MAX_RANDOM : Nat := 1 <<< 20

/-- `getrandom`: the slice filled by the generator. -/
def posixGetrandom (a : Vector (BitVec w) 6) : Step w σ (Answer w) := do
  if ¬ Grants (← Act.ask c.caps) CAP_RNG then
    return .error ENOTCAPABLE
  let flags := a[2].setWidth 32
  if flags &&& ~~~(GRND_NONBLOCK ||| GRND_RANDOM ||| GRND_INSECURE) ≠ 0 then
    return .error EINVAL
  let s : Slice w := ⟨a[0], usizeMin a[1] (.ofNat w MAX_RANDOM)⟩
  if s.len = 0 then
    return .ok (0, 0)
  if ¬ (← Act.inquire (.owns s) (c.owns s)) then
    return .error EFAULT
  let mode := Mode.fromFlags (if flags &&& GRND_RANDOM ≠ 0 then 1 else 0)
  match ← Act.act (.random s mode) (c.random s mode) with
  | some n => return .ok (n, 0)
  | none => return .error (if flags &&& GRND_NONBLOCK ≠ 0 then EAGAIN else EIO)

/-- A class-1 call other than `exit`: what exists is served, the rest is `ENOSYS`. -/
def posixCall (n : BitVec 32) (a : Vector (BitVec w) 6) : Step w σ (Answer w) :=
  if n = Posix.GETPID then pure (.ok (1, 0))
  else if n = Posix.WRITE then posixWrite c a
  else if n = Posix.MMAP then posixMmap c a
  else if n = Posix.MUNMAP then posixMunmap c a
  else if n = Posix.CLOCK_GETTIME then posixClockGettime c a
  else if n = Posix.GETRANDOM then posixGetrandom c a
  else pure (.error ENOSYS)

/-! ## All classes -/

/-- The weighted sum of the six words, and the last of them. -/
def echo (a : Vector (BitVec w) 6) : BitVec w × BitVec w :=
  ((List.finRange 6).foldl (fun sum i => sum + a[i] * .ofNat w (i.val + 1)) 0, a[5])

/-- Answers one call, short of telling the caller that it is ended. -/
def route (call : Call w) : Step w σ (Reply w) := do
  if ¬ OnStack (← Act.ask c.stack) call.sp then
    return .ended (.violation .stackPointer)
  if call.nr.toNat > 2 ^ 32 - 1 then
    return .ended (.unknown call.nr)
  let n := call.nr.setWidth 32
  if classOf n = CLASS_NC then
    service c n call
  else if classOf n = CLASS_POSIX then
    -- The status is an `int`: sign-extended.
    if n = Posix.EXIT then
      return .ended (.exit ((call.args[0].setWidth 32).signExtend 64))
    match ← posixCall c n call.args with
    | .ok (value, value2) => return .ok value value2
    | .error e => return .err e
  else if classOf n = CLASS_DIAG then
    if n = Diag.ECHO then
      return .ok (echo call.args).1 (echo call.args).2
    return .err ENOSYS
  else
    return .ended (.unknown call.nr)

/-- Answers one call for the caller; one that gets no answer is told why. -/
def dispatch (call : Call w) : Step w σ (Reply w) := do
  let reply ← route c call
  match reply with
  | .ended why =>
    Act.act (.ended why) fun t => ((), c.ended why t)
    return reply
  | _ => return reply

end NanoChrono.Nccall

/-! # The heap of a ring-3 run

A program maps memory from a pool of 2 MiB, in pages of 4 KiB: a bitmap records the pages that are handed out, an `mmap`
takes the first free run of pages that is long enough and clears it, and an `munmap` gives pages back, whatever they were
mapped with. Over any run of calls the bitmap is a set of pages (`heap_refines`): what is mapped was free, is zero and is
long enough, a call fails only where no free run is long enough, and what is unmapped is free again. -/

namespace NanoChrono.Nccall

open Memory Trace

/-! ## The pool -/

def HEAP_PAGE : Nat := 4096

def HEAP_BYTES : Nat := 0x200000

def HEAP_PAGES : Nat := HEAP_BYTES / HEAP_PAGE

/-- Where the pool lies: a page of 2 MiB in the first gigabyte. -/
structure UserHeap where
  base : Nat
  aligned : base % HEAP_BYTES = 0
  low : base + HEAP_BYTES ≤ 2 ^ 30

/-- The map of the pages that are handed out, and the memory. -/
structure Heap where
  map : Bitmap 64 8
  memory : BitVec 64 → BitVec 8

/-- How many pages hold so many bytes. -/
def pagesOf (len : Nat) : Nat := (len + (HEAP_PAGE - 1)) / HEAP_PAGE

/-- Memory with so many bytes cleared. -/
def zeroed (memory : BitVec 64 → BitVec 8) (addr len : Nat) : BitVec 64 → BitVec 8 := fun q =>
  if addr ≤ q.toNat ∧ q.toNat < addr + len then 0 else memory q

variable (pool : UserHeap)

/-- The memory of an `mmap`, once the dispatcher has checked the request. -/
def heapAlloc (h : Heap) (len : BitVec 64) : Except Errno (BitVec 64) × Heap :=
  let pages := pagesOf len.toNat
  if pages > HEAP_PAGES then (.error ENOMEM, h)
  else
    match runEnd h.map.test pages (List.range' 0 HEAP_PAGES) 0 with
    | none => (.error ENOMEM, h)
    | some page =>
      let first := page + 1 - pages
      let addr := pool.base + first * HEAP_PAGE
      (.ok (.ofNat 64 addr), ⟨h.map.putAll (List.range' first (page + 1 - first)) true,
        zeroed h.memory addr (pages * HEAP_PAGE)⟩)

/-- Gives the pages of a range back. A page that was not mapped is no error. -/
def heapMunmap (h : Heap) (addr len : BitVec 64) : Except Errno Unit × Heap :=
  if addr.toNat % HEAP_PAGE ≠ 0 ∨ len = 0 then (.error EINVAL, h)
  -- The end of the range is checked for overflow.
  else if addr.toNat + len.toNat ≥ 2 ^ 64 then (.error EINVAL, h)
  else
    let stop := addr.toNat + len.toNat
    if addr.toNat < pool.base ∨ stop > pool.base + HEAP_BYTES then (.error EINVAL, h)
    else
      let first := (addr.toNat - pool.base) / HEAP_PAGE
      let last := pagesOf (stop - pool.base)
      (.ok (), { h with map := h.map.putAll (List.range' first (last - first)) false })

/-- The map at the start of a run. -/
def heapReset (memory : BitVec 64 → BitVec 8) : Heap := ⟨Vector.replicate 8 0, memory⟩

/-- A ring-3 program as a caller, whatever its services are. -/
def ring3 (c : Caller 64 Heap) : Caller 64 Heap :=
  { c with mapAnon := fun len h => heapAlloc pool h len, unmap := fun addr len h => heapMunmap pool h addr len }

/-! ## Calls -/

/-- What the program does: it calls, with any words, or stores to its memory. -/
inductive HeapCall where
  | mmap (words : Vector (BitVec 64) 6)
  | munmap (words : Vector (BitVec 64) 6)
  | store (memory : BitVec 64 → BitVec 8)

variable (c : Caller 64 Heap)

/-- What it is answered, and the heap after. -/
def HeapCall.serve (h : Heap) : HeapCall → Answer 64 × Heap
  | .mmap words => ((posixMmap (ring3 pool c) words h).value, (posixMmap (ring3 pool c) words h).state)
  | .munmap words => ((posixMunmap (ring3 pool c) words h).value, (posixMunmap (ring3 pool c) words h).state)
  | .store memory => (.ok (0, 0), { h with memory := memory })

/-- The words of an `mmap` that pass the dispatcher's checks: some bytes, anonymous and private or shared, at no fixed
place, neither executable nor anything but readable and writable. -/
structure Checked (a : Vector (BitVec 64) 6) : Prop where
  place : ¬(a[1] = 0 ∨ a[3].setWidth 32 &&& MAP_FIXED ≠ 0)
  file : ¬(a[3].setWidth 32 &&& MAP_ANON = 0 ∨ a[4].setWidth 32 ≠ -1 ∨ a[5] ≠ 0)
  share : ¬a[3].setWidth 32 &&& (MAP_SHARED ||| MAP_PRIVATE) = 0
  exec : ¬protArg a &&& PROT_EXEC ≠ 0
  prot : ¬protArg a &&& ~~~(PROT_READ ||| PROT_WRITE) ≠ 0

/-! ## A set of pages -/

/-- A run of pages of the pool, none of which is handed out, with room for so many bytes. -/
structure Room (handed : Set Nat) (len first n : Nat) : Prop where
  inside : first + n ≤ HEAP_PAGES
  free : ∀ page, first ≤ page → page < first + n → page ∉ handed
  long : len ≤ n * HEAP_PAGE

/-- The pages that bytes of a range lie in. -/
def touched (addr len : Nat) : Set Nat :=
  {page | addr < pool.base + (page + 1) * HEAP_PAGE ∧ pool.base + page * HEAP_PAGE < addr + len}

/-- A range that can be unmapped: some bytes of the pool, from a page's start on. -/
structure Unmappable (addr len : Nat) : Prop where
  aligned : addr % HEAP_PAGE = 0
  some : len ≠ 0
  first : pool.base ≤ addr
  last : addr + len ≤ pool.base + HEAP_BYTES

/-- A mapping: a run of pages that were not handed out, long enough and zero, or a refusal where there is none. -/
inductive Maps (handed : Set Nat) (h : Heap) (len : Nat) : Answer 64 → Set Nat → Heap → Prop where
  | mapped (first n : Nat) (map : Bitmap 64 8) (memory : BitVec 64 → BitVec 8) (room : Room handed len first n)
      (zero : ∀ k < n * HEAP_PAGE, memory (.ofNat 64 (pool.base + first * HEAP_PAGE + k)) = 0)
      (others : ∀ q : BitVec 64, ¬(pool.base + first * HEAP_PAGE ≤ q.toNat ∧
        q.toNat < pool.base + first * HEAP_PAGE + n * HEAP_PAGE) → memory q = h.memory q) :
      Maps handed h len (.ok (.ofNat 64 (pool.base + first * HEAP_PAGE), 0))
        (handed ∪ {page | first ≤ page ∧ page < first + n}) ⟨map, memory⟩
  | full (none : ¬∃ first n, Room handed len first n) : Maps handed h len (.error ENOMEM) handed h

/-- An unmapping: the pages the range touches are not handed out any more, or a refusal that changes nothing. -/
inductive Unmaps (handed : Set Nat) (h : Heap) (addr len : Nat) : Answer 64 → Set Nat → Heap → Prop where
  | unmapped (map : Bitmap 64 8) (range : Unmappable pool addr len) :
      Unmaps handed h addr len (.ok (0, 0)) (handed \ touched pool addr len) ⟨map, h.memory⟩
  | refused (range : ¬Unmappable pool addr len) : Unmaps handed h addr len (.error EINVAL) handed h

/-- What a call does to the set of pages that are handed out. -/
inductive Serves (handed : Set Nat) (h : Heap) : HeapCall → Answer 64 → Set Nat → Heap → Prop where
  | mmap {a : Vector (BitVec 64) 6} {answer : Answer 64} {handed' : Set Nat} {h' : Heap} (checked : Checked a)
      (maps : Maps pool handed h a[1].toNat answer handed' h') : Serves handed h (.mmap a) answer handed' h'
  | bad {a : Vector (BitVec 64) 6} (e : Errno) (unchecked : ¬Checked a) : Serves handed h (.mmap a) (.error e) handed h
  | munmap {a : Vector (BitVec 64) 6} {answer : Answer 64} {handed' : Set Nat} {h' : Heap}
      (unmaps : Unmaps pool handed h a[0].toNat a[1].toNat answer handed' h') : Serves handed h (.munmap a) answer handed' h'
  | store (memory : BitVec 64 → BitVec 8) : Serves handed h (.store memory) (.ok (0, 0)) handed { h with memory := memory }

/-- In a run of calls each does to the set of pages what it should. -/
@[grind =] def Refines : Heap → Set Nat → List HeapCall → Prop
  | _, _, [] => True
  | h, handed, call :: calls => ∃ handed', Serves pool handed h call (call.serve pool c h).1 handed' (call.serve pool c h).2 ∧
    Refines (call.serve pool c h).2 handed' calls

/-! ## One call -/

variable {pool c} {h : Heap} {handed : Set Nat}

/-- The map and the set of pages agree. -/
structure Agrees (h : Heap) (handed : Set Nat) : Prop where
  inside : ∀ page ∈ handed, page < HEAP_PAGES
  same : ∀ page < HEAP_PAGES, h.map.test page = true ↔ page ∈ handed

theorem heapReset_agrees (memory : BitVec 64 → BitVec 8) : Agrees (heapReset memory) ∅ := by
  refine ⟨fun page h => absurd h (Set.notMem_empty page), fun page hpage => ?_⟩
  have hclear : (heapReset memory).map.test page = false := Bitmap.test_clear (by decide) page
  rw [hclear]
  exact iff_of_false Bool.false_ne_true (Set.notMem_empty page)

theorem pagesOf_le {len n : Nat} : pagesOf len ≤ n ↔ len ≤ n * HEAP_PAGE := by
  unfold pagesOf HEAP_PAGE
  omega

/-- A run of clear bits is a run of pages that are not handed out. -/
theorem Agrees.freeRun (hagrees : Agrees h handed) {first n : Nat} (hinside : first + n ≤ HEAP_PAGES) :
    FreeRun h.map.test first n ↔ ∀ page, first ≤ page → page < first + n → page ∉ handed := by
  refine forall_congr' fun page => forall_congr' fun _ => forall_congr' fun hlast => ?_
  rw [← hagrees.same page (by omega), Bool.not_eq_true]

/-- A mapping takes a free run exactly if there is one. -/
theorem heapAlloc_maps (hagrees : Agrees h handed) {len : BitVec 64} (hlen : len ≠ 0) :
    ∃ handed', Maps pool handed h len.toNat ((heapAlloc pool h len).1.map fun p => (p, 0)) handed'
      (heapAlloc pool h len).2 ∧ Agrees (heapAlloc pool h len).2 handed' := by
  have hpos : 0 < len.toNat := by
    apply Nat.pos_of_ne_zero
    exact fun hzero => hlen (BitVec.eq_of_toNat_eq hzero)
  have hpages : 0 < pagesOf len.toNat := by
    unfold pagesOf HEAP_PAGE
    omega
  have hlong := pagesOf_le.1 (Nat.le_refl (pagesOf len.toNat))
  obtain ⟨hsome, hnone⟩ := @runEnd_range h.map.test (pagesOf len.toNat) HEAP_PAGES hpages
  unfold heapAlloc
  dsimp only
  split
  next hmany =>
    -- More pages than there are.
    refine ⟨handed, .full ?_, hagrees⟩
    rintro ⟨first, n, hroom⟩
    have hle := pagesOf_le.2 hroom.long
    have hinside := hroom.inside
    omega
  next hfew =>
    split
    next hend =>
      refine ⟨handed, .full ?_, hagrees⟩
      rintro ⟨first, n, hroom⟩
      have hle := pagesOf_le.2 hroom.long
      have hinside := hroom.inside
      refine hnone.1 hend ⟨first, by omega, ?_⟩
      exact (hagrees.freeRun (by omega)).2 fun page hfirst hlast => hroom.free page hfirst (by omega)
    next page hend =>
      obtain ⟨hlast, hle, hrun⟩ := hsome page hend
      have hinside : page + 1 - pagesOf len.toNat + pagesOf len.toNat ≤ HEAP_PAGES := by omega
      have hcount : page + 1 - (page + 1 - pagesOf len.toNat) = pagesOf len.toNat := by omega
      rw [hcount]
      generalize page + 1 - pagesOf len.toNat = first at hrun hinside
      have hlow := pool.low
      have hbytes : HEAP_PAGES * HEAP_PAGE = HEAP_BYTES := rfl
      have hfits : (first + pagesOf len.toNat) * HEAP_PAGE ≤ HEAP_BYTES := hbytes ▸ Nat.mul_le_mul_right _ hinside
      rw [Nat.add_mul] at hfits
      refine ⟨_, .mapped first (pagesOf len.toNat) _ _ ⟨hinside, (hagrees.freeRun hinside).1 hrun, hlong⟩
        (fun k hk => ?_) (fun q hq => if_neg hq), ?_⟩
      · have hnat : (BitVec.ofNat 64 (pool.base + first * HEAP_PAGE + k)).toNat = pool.base + first * HEAP_PAGE + k := by
          rw [BitVec.toNat_ofNat]
          exact Nat.mod_eq_of_lt (by omega)
        rw [zeroed, hnat]
        exact if_pos ⟨Nat.le_add_right _ _, by omega⟩
      · have hbits : ∀ i ∈ List.range' first (pagesOf len.toNat), i < 64 * 8 := by
          intro i hi
          have hmem := List.mem_range'_1.1 hi
          have hall : HEAP_PAGES = 64 * 8 := rfl
          omega
        refine ⟨?_, fun q hq => ?_⟩
        · rintro q (hq | hq)
          · exact hagrees.inside q hq
          · have hq' : first ≤ q ∧ q < first + pagesOf len.toNat := hq
            omega
        · change (h.map.putAll _ true).test q = true ↔ _
          rw [Bitmap.test_putAll _ _ hbits, Set.mem_union, ← hagrees.same q hq, Set.mem_ofPred_eq]
          by_cases hmem : q ∈ List.range' first (pagesOf len.toNat)
          · exact iff_of_true (if_pos hmem) (.inr (List.mem_range'_1.1 hmem))
          · rw [if_neg hmem]
            exact (or_iff_left fun hin => hmem (List.mem_range'_1.2 hin)).symm

/-- An unmapping gives exactly the pages back that its range touches. -/
theorem heapMunmap_unmaps (hagrees : Agrees h handed) (addr len : BitVec 64) :
    ∃ handed', Unmaps pool handed h addr.toNat len.toNat ((heapMunmap pool h addr len).1.map fun _ => (0, 0)) handed'
      (heapMunmap pool h addr len).2 ∧ Agrees (heapMunmap pool h addr len).2 handed' := by
  have hlow := pool.low
  unfold heapMunmap
  dsimp only
  split_ifs with hbad hover hout
  · refine ⟨handed, .refused fun hrange => ?_, hagrees⟩
    rcases hbad with hbad | hbad
    · exact hbad hrange.aligned
    · exact hrange.some (by rw [hbad]; rfl)
  · refine ⟨handed, .refused fun hrange => ?_, hagrees⟩
    have hlast := hrange.last
    omega
  · refine ⟨handed, .refused fun hrange => ?_, hagrees⟩
    have hfirst := hrange.first
    have hlast := hrange.last
    omega
  · rw [not_or, not_not] at hbad
    rw [not_or, Nat.not_lt, Nat.not_lt] at hout
    have hsome : len.toNat ≠ 0 := fun hzero => hbad.2 (BitVec.eq_of_toNat_eq hzero)
    have hbase : pool.base % HEAP_PAGE = 0 := by
      have haligned := pool.aligned
      unfold HEAP_BYTES at haligned
      unfold HEAP_PAGE
      omega
    obtain ⟨haddr, -⟩ := hbad
    obtain ⟨hfirst, hlast⟩ := hout
    refine ⟨_, .unmapped _ ⟨haddr, hsome, hfirst, hlast⟩, fun q hq => hagrees.inside q hq.1, fun q hq => ?_⟩
    -- The pages from the first to the last are those that the range touches.
    have htouched : q ∈ List.range' ((addr.toNat - pool.base) / HEAP_PAGE)
        (pagesOf (addr.toNat + len.toNat - pool.base) - (addr.toNat - pool.base) / HEAP_PAGE) ↔
          q ∈ touched pool addr.toNat len.toNat := by
      rw [List.mem_range'_1, touched, Set.mem_ofPred_eq]
      unfold pagesOf HEAP_PAGE at *
      omega
    have hbits : ∀ i ∈ List.range' ((addr.toNat - pool.base) / HEAP_PAGE)
        (pagesOf (addr.toNat + len.toNat - pool.base) - (addr.toNat - pool.base) / HEAP_PAGE), i < 64 * 8 := by
      intro i hi
      have hmem := List.mem_range'_1.1 hi
      unfold pagesOf HEAP_PAGE at hmem
      unfold HEAP_BYTES at hlast
      omega
    change (h.map.putAll _ false).test q = true ↔ _
    rw [Bitmap.test_putAll _ _ hbits, Set.mem_sdiff, ← hagrees.same q hq, ← htouched]
    by_cases hmem : q ∈ List.range' ((addr.toNat - pool.base) / HEAP_PAGE)
        (pagesOf (addr.toNat + len.toNat - pool.base) - (addr.toNat - pool.base) / HEAP_PAGE)
    · rw [if_pos hmem]
      exact iff_of_false Bool.false_ne_true fun hand => hand.2 hmem
    · rw [if_neg hmem]
      exact (and_iff_left hmem).symm

/-- The dispatcher asks for memory for the words that pass its checks, and for no others. -/
theorem posixMmap_checked {a : Vector (BitVec 64) 6} (hchecked : Checked a) :
    (posixMmap (ring3 pool c) a h).value = (heapAlloc pool h a[1]).1.map (fun p => (p, 0)) ∧
      (posixMmap (ring3 pool c) a h).state = (heapAlloc pool h a[1]).2 := by
  unfold posixMmap
  rw [if_neg hchecked.place, if_neg hchecked.file, if_neg hchecked.share, if_neg hchecked.exec, if_neg hchecked.prot,
    Act.bind_apply]
  change (_ = (((ring3 pool c).mapAnon a[1] h).1.map fun p => (p, 0)) ∧ _ = ((ring3 pool c).mapAnon a[1] h).2)
  rw [Act.act_apply]
  cases ((ring3 pool c).mapAnon a[1] h).1 with
  | ok p => exact ⟨rfl, rfl⟩
  | error e => exact ⟨rfl, rfl⟩

theorem posixMmap_unchecked {a : Vector (BitVec 64) 6} (hbad : ¬Checked a) :
    (∃ e, (posixMmap (ring3 pool c) a h).value = .error e) ∧ (posixMmap (ring3 pool c) a h).state = h := by
  unfold posixMmap
  by_cases hplace : a[1] = 0 ∨ a[3].setWidth 32 &&& MAP_FIXED ≠ 0
  · rw [if_pos hplace]
    exact ⟨⟨EINVAL, rfl⟩, rfl⟩
  rw [if_neg hplace]
  by_cases hfile : a[3].setWidth 32 &&& MAP_ANON = 0 ∨ a[4].setWidth 32 ≠ -1 ∨ a[5] ≠ 0
  · rw [if_pos hfile]
    exact ⟨⟨ENOTSUP, rfl⟩, rfl⟩
  rw [if_neg hfile]
  by_cases hshare : a[3].setWidth 32 &&& (MAP_SHARED ||| MAP_PRIVATE) = 0
  · rw [if_pos hshare]
    exact ⟨⟨EINVAL, rfl⟩, rfl⟩
  rw [if_neg hshare]
  by_cases hexec : protArg a &&& PROT_EXEC ≠ 0
  · rw [if_pos hexec]
    exact ⟨⟨EACCES, rfl⟩, rfl⟩
  rw [if_neg hexec]
  by_cases hprot : protArg a &&& ~~~(PROT_READ ||| PROT_WRITE) ≠ 0
  · rw [if_pos hprot]
    exact ⟨⟨EINVAL, rfl⟩, rfl⟩
  · exact absurd ⟨hplace, hfile, hshare, hexec, hprot⟩ hbad

theorem posixMunmap_eq (a : Vector (BitVec 64) 6) :
    (posixMunmap (ring3 pool c) a h).value = (heapMunmap pool h a[0] a[1]).1.map (fun _ => (0, 0)) ∧
      (posixMunmap (ring3 pool c) a h).state = (heapMunmap pool h a[0] a[1]).2 := by
  unfold posixMunmap
  rw [Act.bind_apply]
  change (_ = (((ring3 pool c).unmap a[0] a[1] h).1.map fun _ => (0, 0)) ∧ _ = ((ring3 pool c).unmap a[0] a[1] h).2)
  rw [Act.act_apply]
  cases ((ring3 pool c).unmap a[0] a[1] h).1 with
  | ok u => exact ⟨rfl, rfl⟩
  | error e => exact ⟨rfl, rfl⟩

theorem serve_serves (hagrees : Agrees h handed) (call : HeapCall) :
    ∃ handed', Serves pool handed h call (call.serve pool c h).1 handed' (call.serve pool c h).2 ∧
      Agrees (call.serve pool c h).2 handed' := by
  cases call with
  | mmap a =>
    by_cases hchecked : Checked a
    · obtain ⟨hvalue, hstate⟩ := @posixMmap_checked pool c h a hchecked
      have hlen : a[1] ≠ 0 := fun hzero => hchecked.place (.inl hzero)
      obtain ⟨handed', hmaps, hnext⟩ := @heapAlloc_maps pool h handed hagrees a[1] hlen
      unfold HeapCall.serve
      dsimp only
      rw [hvalue, hstate]
      exact ⟨handed', .mmap hchecked hmaps, hnext⟩
    · obtain ⟨⟨e, hvalue⟩, hstate⟩ := @posixMmap_unchecked pool c h a hchecked
      unfold HeapCall.serve
      dsimp only
      rw [hvalue, hstate]
      exact ⟨handed, .bad e hchecked, hagrees⟩
  | munmap a =>
    obtain ⟨hvalue, hstate⟩ := @posixMunmap_eq pool c h a
    obtain ⟨handed', hunmaps, hnext⟩ := @heapMunmap_unmaps pool h handed hagrees a[0] a[1]
    unfold HeapCall.serve
    dsimp only
    rw [hvalue, hstate]
    exact ⟨handed', .munmap hunmaps, hnext⟩
  | store memory => exact ⟨handed, .store memory, hagrees.inside, hagrees.same⟩

/-! ## A run -/

theorem Agrees.refines (hagrees : Agrees h handed) (calls : List HeapCall) : Refines pool c h handed calls := by
  induction calls generalizing h handed with
  | nil => trivial
  | cons call calls ih =>
    obtain ⟨handed', hserves, hnext⟩ := @serve_serves pool c h handed hagrees call
    exact ⟨handed', hserves, ih hnext⟩

/-- Over any run the heap is a set of pages, none of which is handed out at its start. -/
theorem heap_refines (pool : UserHeap) (c : Caller 64 Heap) (memory : BitVec 64 → BitVec 8) (calls : List HeapCall) :
    Refines pool c (heapReset memory) ∅ calls :=
  (heapReset_agrees memory).refines calls

end NanoChrono.Nccall
