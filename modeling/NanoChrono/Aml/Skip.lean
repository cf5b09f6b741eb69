import NanoChrono.Aml.Cursor

/-! # Stepping over objects

The walkers do not parse what they do not need: they step over it by its shape. A data object, a term argument, an
object of a term list and a statement each have a function for that, which consumes the opcode's operands. A method
call has no syntax of its own, so its arity is looked up in the table. -/

/-! ## Readings that read on

A reading that needs readings of its own kind further on is given by its body: what it does, with another reading in
place of itself. Bodies that use it only past where they begin have a reading that is their fixed point
(`fixed_eq`): as many rounds as the table has bytes are enough, however many more are made (`rounds_eq`). -/

namespace NanoChrono.Aml

variable {α β : Type}

/-- Two readings that do the same from a position on. -/
def AgreeFrom (p : Nat) (x y : Read α) : Prop := ∀ q, p ≤ q → x.from q = y.from q

theorem AgreeFrom.refl (p : Nat) (x : Read α) : AgreeFrom p x x := fun _ _ => rfl

theorem AgreeFrom.bind {p : Nat} {x y : Read α} {f g : α → Read β} (hxy : AgreeFrom p x y) (hx : Forward x)
    (hfg : ∀ a, AgreeFrom p (f a) (g a)) : AgreeFrom p (x >>= f) (y >>= g) := by
  intro q hq
  rw [from_bind, from_bind, ← hxy q hq]
  rcases hrun : x.from q with ⟨_ | a, next⟩
  · rfl
  · exact hfg a next (Nat.le_trans hq (hx.le hrun))

theorem AgreeFrom.ite {p : Nat} {c : Prop} [Decidable c] {x y x' y' : Read α} (hx : AgreeFrom p x x')
    (hy : AgreeFrom p y y') : AgreeFrom p (if c then x else y) (if c then x' else y') := by
  split
  · exact hx
  · exact hy

/-- A body uses the reading it is given only past its own beginning, and not at the end of the table. -/
structure ReadsOn (len : Nat) (body : Read α → Read α) : Prop where
  past : ∀ {x y : Read α} {pos : Nat}, Forward x → Forward y → AgreeFrom (pos + 1) x y →
    (body x).from pos = (body y).from pos
  atEnd : ∀ {x y : Read α} {pos : Nat}, len ≤ pos → (body x).from pos = (body y).from pos
  forward : ∀ {x : Read α}, Forward x → Forward (body x)

/-- So many rounds of a body. -/
def rounds (body : Read α → Read α) : Nat → Read α
  | 0 => failure
  | n + 1 => body (rounds body n)

variable {len : Nat} {body : Read α → Read α}

theorem rounds_forward (h : ReadsOn len body) (n : Nat) : Forward (rounds body n) := by
  induction n with
  | zero => exact Forward.failure
  | succ n ih => exact h.forward ih

/-- Rounds past the bytes that are left change nothing. -/
theorem rounds_eq (h : ReadsOn len body) (left : Nat) : ∀ {m n pos : Nat}, len ≤ pos + left → left < m → left < n →
    (rounds body m).from pos = (rounds body n).from pos := by
  induction left with
  | zero =>
    intro m n pos hleft hm hn
    obtain ⟨m, rfl⟩ := Nat.exists_eq_succ_of_ne_zero (Nat.ne_of_gt hm)
    obtain ⟨n, rfl⟩ := Nat.exists_eq_succ_of_ne_zero (Nat.ne_of_gt hn)
    exact h.atEnd hleft
  | succ left ih =>
    intro m n pos hleft hm hn
    obtain ⟨m, rfl⟩ := Nat.exists_eq_succ_of_ne_zero (Nat.ne_of_gt (Nat.zero_lt_of_lt hm))
    obtain ⟨n, rfl⟩ := Nat.exists_eq_succ_of_ne_zero (Nat.ne_of_gt (Nat.zero_lt_of_lt hn))
    refine h.past (rounds_forward h m) (rounds_forward h n) fun q hq => ih ?_ ?_ ?_
    · omega
    · exact Nat.lt_of_succ_lt_succ hm
    · exact Nat.lt_of_succ_lt_succ hn

/-- The reading that a body describes, on a table of `len` bytes. -/
def fixed (len : Nat) (body : Read α → Read α) : Read α := rounds body (len + 1)

theorem fixed_forward (h : ReadsOn len body) : Forward (fixed len body) := rounds_forward h _

/-- It is what its body does with it. -/
theorem fixed_eq (h : ReadsOn len body) (pos : Nat) : (fixed len body).from pos = (body (fixed len body)).from pos := by
  show (rounds body (len + 1)).from pos = (rounds body (len + 2)).from pos
  exact rounds_eq h len (Nat.le_add_left len pos) (Nat.lt_succ_self len) (Nat.lt_succ_of_lt (Nat.lt_succ_self len))

end NanoChrono.Aml

namespace NanoChrono.Aml

/-! ## Opcodes -/

namespace Op

def ZERO : UInt8 := 0x00
def ONE : UInt8 := 0x01
def ALIAS : UInt8 := 0x06
def NAME : UInt8 := 0x08
def BYTE_PREFIX : UInt8 := 0x0A
def WORD_PREFIX : UInt8 := 0x0B
def DWORD_PREFIX : UInt8 := 0x0C
def STRING_PREFIX : UInt8 := 0x0D
def QWORD_PREFIX : UInt8 := 0x0E
def SCOPE : UInt8 := 0x10
def BUFFER : UInt8 := 0x11
def PACKAGE : UInt8 := 0x12
def VAR_PACKAGE : UInt8 := 0x13
def METHOD : UInt8 := 0x14
def EXTERNAL : UInt8 := 0x15
def EXT_PREFIX : UInt8 := 0x5B
def LOCAL0 : UInt8 := 0x60
def LOCAL7 : UInt8 := 0x67
def ARG0 : UInt8 := 0x68
def ARG6 : UInt8 := 0x6E
def STORE : UInt8 := 0x70
def REF_OF : UInt8 := 0x71
def ADD : UInt8 := 0x72
def CONCAT : UInt8 := 0x73
def SUBTRACT : UInt8 := 0x74
def INCREMENT : UInt8 := 0x75
def DECREMENT : UInt8 := 0x76
def MULTIPLY : UInt8 := 0x77
def SHIFT_LEFT : UInt8 := 0x79
def SHIFT_RIGHT : UInt8 := 0x7A
def AND : UInt8 := 0x7B
def NAND : UInt8 := 0x7C
def OR : UInt8 := 0x7D
def NOR : UInt8 := 0x7E
def XOR : UInt8 := 0x7F
def FIND_SET_LEFT_BIT : UInt8 := 0x81
def FIND_SET_RIGHT_BIT : UInt8 := 0x82
def DEREF_OF : UInt8 := 0x83
def NOTIFY : UInt8 := 0x86
def SIZE_OF : UInt8 := 0x87
def INDEX : UInt8 := 0x88
def CREATE_DWORD_FIELD : UInt8 := 0x8A
def CREATE_WORD_FIELD : UInt8 := 0x8B
def CREATE_BYTE_FIELD : UInt8 := 0x8C
def CREATE_BIT_FIELD : UInt8 := 0x8D
def CREATE_QWORD_FIELD : UInt8 := 0x8F
def LAND : UInt8 := 0x90
def LOR : UInt8 := 0x91
def LNOT : UInt8 := 0x92
def LEQUAL : UInt8 := 0x93
def LGREATER : UInt8 := 0x94
def LLESS : UInt8 := 0x95
def TO_BUFFER : UInt8 := 0x96
def TO_DECIMAL_STRING : UInt8 := 0x97
def TO_HEX_STRING : UInt8 := 0x98
def TO_INTEGER : UInt8 := 0x99
def CONTINUE : UInt8 := 0x9F
def IF : UInt8 := 0xA0
def ELSE : UInt8 := 0xA1
def WHILE : UInt8 := 0xA2
def NOOP : UInt8 := 0xA3
def RETURN : UInt8 := 0xA4
def BREAK : UInt8 := 0xA5
def ONES : UInt8 := 0xFF

/-! Extended, following `EXT_PREFIX`. -/

def EXT_MUTEX : UInt8 := 0x01
def EXT_EVENT : UInt8 := 0x02
def EXT_COND_REF_OF : UInt8 := 0x12
def EXT_CREATE_FIELD : UInt8 := 0x13
def EXT_LOAD_TABLE : UInt8 := 0x1F
def EXT_LOAD : UInt8 := 0x20
def EXT_STALL : UInt8 := 0x21
def EXT_SLEEP : UInt8 := 0x22
def EXT_ACQUIRE : UInt8 := 0x23
def EXT_SIGNAL : UInt8 := 0x24
def EXT_WAIT : UInt8 := 0x25
def EXT_RESET : UInt8 := 0x26
def EXT_RELEASE : UInt8 := 0x27
def EXT_FROM_BCD : UInt8 := 0x28
def EXT_TO_BCD : UInt8 := 0x29
def EXT_UNLOAD : UInt8 := 0x2A
def EXT_REVISION : UInt8 := 0x30
def EXT_DEBUG : UInt8 := 0x31
def EXT_FATAL : UInt8 := 0x32
def EXT_TIMER : UInt8 := 0x33
def EXT_OP_REGION : UInt8 := 0x80
def EXT_FIELD : UInt8 := 0x81
def EXT_DEVICE : UInt8 := 0x82
def EXT_PROCESSOR : UInt8 := 0x83
def EXT_POWER_RES : UInt8 := 0x84
def EXT_THERMAL_ZONE : UInt8 := 0x85
def EXT_INDEX_FIELD : UInt8 := 0x86
def EXT_BANK_FIELD : UInt8 := 0x87

end Op

/-- The fixed header every table starts with. -/
def TABLE_HEADER : Nat := 36

/-! ## Shapes -/

/-- How many term arguments an expression takes, and whether a target follows them. -/
def arity (opcode : UInt8) : Option (Nat × Bool) :=
  if opcode ∈ [Op.ADD, Op.SUBTRACT, Op.MULTIPLY, Op.SHIFT_LEFT, Op.SHIFT_RIGHT, Op.AND, Op.NAND, Op.OR, Op.NOR,
      Op.XOR, Op.CONCAT, Op.INDEX] then some (2, true)
  else if opcode ∈ [Op.LAND, Op.LOR, Op.LEQUAL, Op.LGREATER, Op.LLESS] then some (2, false)
  else if opcode ∈ [Op.TO_BUFFER, Op.TO_INTEGER, Op.TO_HEX_STRING, Op.TO_DECIMAL_STRING, Op.FIND_SET_LEFT_BIT,
      Op.FIND_SET_RIGHT_BIT, Op.STORE] then some (1, true)
  else if opcode ∈ [Op.LNOT, Op.SIZE_OF, Op.DEREF_OF, Op.REF_OF, Op.INCREMENT, Op.DECREMENT] then some (1, false)
  else none

/-- The same for the two-byte opcodes. -/
def extendedArity (extended : UInt8) : Option (Nat × Bool) :=
  if extended = Op.EXT_COND_REF_OF then some (1, true)
  else if extended = Op.EXT_FROM_BCD ∨ extended = Op.EXT_TO_BCD then some (1, true)
  -- The timeout is two raw bytes, which the caller steps over.
  else if extended = Op.EXT_ACQUIRE then some (1, false)
  else if extended = Op.EXT_WAIT then some (2, false)
  else if extended = Op.EXT_LOAD_TABLE then some (6, true)
  else if extended = Op.EXT_REVISION ∨ extended = Op.EXT_DEBUG ∨ extended = Op.EXT_TIMER then some (0, false)
  else none

/-- A local or an argument. -/
def isLocalOrArg (opcode : UInt8) : Bool :=
  (Op.LOCAL0 ≤ opcode && opcode ≤ Op.LOCAL7) || (Op.ARG0 ≤ opcode && opcode ≤ Op.ARG6)

/-- The first byte of a name. -/
def isNameLead (b : UInt8) : Bool :=
  b = 0x5C || b = 0x5E || (0x41 ≤ b && b ≤ 0x5A) || b = 0x5F || b = 0x2E || b = 0x2F

def isCreateField (opcode : UInt8) : Bool :=
  opcode ∈ [Op.CREATE_DWORD_FIELD, Op.CREATE_WORD_FIELD, Op.CREATE_BYTE_FIELD, Op.CREATE_BIT_FIELD,
    Op.CREATE_QWORD_FIELD]

/-! ## Data -/

/-- What an evaluation produced; buffers and strings are ranges of the table. -/
inductive Value where
  | uninitialised
  | integer (value : UInt64)
  | buffer (span : Span)
  | text (span : Span)
  | package (span : Span)
deriving DecidableEq, Repr

section

variable (code : Bytes)

/-- Reads to the end of a null-terminated string, past the null. -/
def textEnd : Read Unit := OptionT.mk fun pos =>
  let n := ((code.drop pos).takeWhile (· ≠ 0)).length
  if pos + n < code.length then (some (), pos + n + 1) else (none, max pos code.length)

/-- The data object that an opcode begins, with `inner` to read a buffer's declared size. -/
def dataOf (inner : Read Value) (opcode : UInt8) : Read Value :=
  if opcode = Op.ZERO then pure (.integer 0)
  else if opcode = Op.ONE then pure (.integer 1)
  else if opcode = Op.ONES then pure (.integer 0xFFFFFFFFFFFFFFFF)
  else if opcode = Op.BYTE_PREFIX then do let n ← integer code 1; pure (.integer (.ofNat n))
  else if opcode = Op.WORD_PREFIX then do let n ← integer code 2; pure (.integer (.ofNat n))
  else if opcode = Op.DWORD_PREFIX then do let n ← integer code 4; pure (.integer (.ofNat n))
  else if opcode = Op.QWORD_PREFIX then do let n ← integer code 8; pure (.integer (.ofNat n))
  else if opcode = Op.STRING_PREFIX then do
    let start ← position
    textEnd code
    let stop ← position
    pure (.text ⟨start, stop - 1⟩)
  else if opcode = Op.BUFFER then do
    let package ← package code
    let _ ← inner
    let start ← position
    goto package.stop
    pure (.buffer ⟨start, package.stop⟩)
  else if opcode = Op.PACKAGE ∨ opcode = Op.VAR_PACKAGE then do
    let package ← package code
    goto package.stop
    pure (.package package)
  else failure

def dataBody (inner : Read Value) : Read Value := do
  let opcode ← byte code
  dataOf code inner opcode

/-- Reads one data object: a constant, a buffer, a string or a package. -/
def parseData : Read Value := fixed code.length (dataBody code)

def skipData : Read Unit := do
  let _ ← parseData code
  pure ()

/-! ## The arity of a method -/

/-- The argument count that a method declared at a position gives for a name, if there is one. -/
def declaredArity (leaf : NameSeg) : Read Nat := do
  let package ← package code
  if package.stop ≤ package.start then failure
  else do
    let named ← name code
    let flags ← byte code
    let pos ← position
    if pos > package.stop ∨ named.1.leaf ≠ some leaf then failure else pure (flags.toNat % 8)

/-- The arity found so far, and that of a declaration at `pos`; two that differ give none. -/
def arityAt (leaf : NameSeg) (found : Option Nat) (pos : Nat) : Option (Option Nat) :=
  if code[pos]? = some Op.METHOD then
    match ((declaredArity code leaf).from (pos + 1)).1 with
    | none => some found
    | some args =>
      match found with
      | none => some (some args)
      | some seen => if seen = args then some found else none
  else some found

/-- How many arguments the method with this leaf name declares, if the table declares one. -/
def methodArity (leaf : NameSeg) : Option Nat :=
  ((List.range' TABLE_HEADER (code.length - TABLE_HEADER)).foldlM (arityAt code leaf) none).join

/-! ## Term arguments -/

/-- A reading made so often. -/
def times (x : Read Unit) : Nat → Read Unit
  | 0 => pure ()
  | n + 1 => do x; times x n

/-- Steps over a target, with `arg` for a name. -/
def targetWith (arg : Read Unit) : Read Unit := do
  let opcode ← peek code
  if opcode = Op.ZERO then advance 1
  else if isLocalOrArg opcode then advance 1
  else arg

/-- The operands of a shape. -/
def operands (arg : Read Unit) (shape : Nat × Bool) : Read Unit := do
  times arg shape.1
  if shape.2 then targetWith code arg else pure ()

/-- The operands of a two-byte expression; that of `Acquire` ends in a timeout. -/
def extendedOperands (arg : Read Unit) (extended : UInt8) (shape : Nat × Bool) : Read Unit := do
  times arg shape.1
  if extended = Op.EXT_ACQUIRE then do
    let _ ← byte code
    let _ ← byte code
    pure ()
  else if shape.2 then targetWith code arg else pure ()

/-- One term argument, with `arg` for those inside it. -/
def termArgBody (arg : Read Unit) : Read Unit := do
  let opcode ← peek code
  if isLocalOrArg opcode then advance 1
  else if opcode = Op.EXT_PREFIX then do
    let extended ← peekNext code
    match extendedArity extended with
    | none => failure
    | some shape => do
      advance 2
      extendedOperands code arg extended shape
  else
    match arity opcode with
    | some shape => do
      advance 1
      operands code arg shape
    | none =>
      if isNameLead opcode then do
        -- A name that names a method is followed by that method's arguments.
        let named ← name code
        times arg ((named.1.leaf.bind (methodArity code)).getD 0)
      else skipData code

def skipTermArg : Read Unit := fixed code.length (termArgBody code)

def skipTarget : Read Unit := targetWith code (skipTermArg code)

/-- Steps over an `OpRegion`'s region space, offset and length. -/
def skipRegion : Read Unit := do
  let _ ← byte code
  skipTermArg code
  skipTermArg code

/-! ## Objects and statements -/

/-- Steps over a package. -/
def skipPackage : Read Unit := do
  let package ← package code
  goto package.stop

def skipName : Read Unit := do
  let _ ← name code
  pure ()

def skipByte : Read Unit := do
  let _ ← byte code
  pure ()

/-- Steps over one object in a term list, whose opcode has been read; a `Name` is the caller's. -/
def skipObject (opcode : UInt8) : Read Unit :=
  if opcode ∈ [Op.METHOD, Op.SCOPE, Op.IF, Op.ELSE, Op.WHILE] then skipPackage code
  else if opcode = Op.ALIAS then do skipName code; skipName code
  else if opcode = Op.EXTERNAL then do skipName code; skipByte code; skipByte code
  else if isCreateField opcode then do skipTermArg code; skipTermArg code; skipName code
  else if opcode = Op.NOOP then pure ()
  else if opcode = Op.EXT_PREFIX then do
    let extended ← byte code
    if extended ∈ [Op.EXT_DEVICE, Op.EXT_POWER_RES, Op.EXT_THERMAL_ZONE, Op.EXT_PROCESSOR, Op.EXT_FIELD,
        Op.EXT_INDEX_FIELD, Op.EXT_BANK_FIELD] then skipPackage code
    else if extended = Op.EXT_OP_REGION then do skipName code; skipRegion code
    else if extended = Op.EXT_MUTEX then do skipName code; skipByte code
    else if extended = Op.EXT_EVENT then skipName code
    else if extended = Op.EXT_CREATE_FIELD then do
      skipTermArg code
      skipTermArg code
      skipTermArg code
      skipName code
    else failure
  else failure

/-- Steps over a statement, whose opcode has been read. -/
def skipStatement (opcode : UInt8) : Read Unit :=
  if opcode = Op.BREAK ∨ opcode = Op.NOOP ∨ opcode = Op.CONTINUE then pure ()
  else if opcode = Op.RETURN then skipTermArg code
  else if opcode = Op.NOTIFY then do skipTermArg code; skipTermArg code
  else if opcode = Op.EXT_PREFIX then do
    let extended ← byte code
    if extended ∈ [Op.EXT_STALL, Op.EXT_SLEEP, Op.EXT_SIGNAL, Op.EXT_RESET, Op.EXT_RELEASE, Op.EXT_UNLOAD] then
      skipTermArg code
    else if extended = Op.EXT_LOAD then do skipTermArg code; skipTermArg code
    else if extended = Op.EXT_FATAL then do
      times (skipByte code) 5
      skipTermArg code
    else failure
  else
    match arity opcode with
    | none => failure
    | some shape => operands code (skipTermArg code) shape

end

end NanoChrono.Aml
