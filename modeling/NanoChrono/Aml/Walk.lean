import NanoChrono.Aml.Progress

/-! # The namespace walk

A table's term lists are walked from its header on. Scopes, devices and conditionals are gone into, everything else
is stepped over, and a term whose shape is not known ends its list. Each device is described by its own names and
shown to a visitor, who may stop the walk. -/

namespace NanoChrono.Aml

/-! ## Identifiers -/

/-- A hardware identifier, in its text form. -/
structure HardwareId where
  text : Bytes
  fits : text.length ≤ 16
deriving DecidableEq

namespace HardwareId

/-- The bytes up to the null, as many as there is room for. -/
def fromText (bytes : Bytes) : HardwareId := ⟨(bytes.takeWhile (· ≠ 0)).take 16, List.length_take_le _ _⟩

/-- A word with its bytes in the other order. -/
def swapBytes (w : UInt32) : UInt32 :=
  (w <<< 24) ||| ((w &&& (0xFF00 : UInt32)) <<< 8) ||| ((w >>> 8) &&& (0xFF00 : UInt32)) ||| (w >>> 24)

def letter (swapped shift : UInt32) : UInt8 := 0x40 + ((swapped >>> shift) &&& (0x1F : UInt32)).toUInt8

def hex (swapped shift : UInt32) : UInt8 :=
  let nibble := ((swapped >>> shift) &&& (0xF : UInt32)).toUInt8
  if nibble < 10 then 0x30 + nibble else 0x41 + nibble - 10

/-- Decodes the compressed form: three five-bit letters and four hex digits. -/
def fromEisa (compressed : UInt32) : HardwareId :=
  let swapped := swapBytes compressed
  fromText [letter swapped 26, letter swapped 21, letter swapped 16, hex swapped 12, hex swapped 8, hex swapped 4,
    hex swapped 0]

end HardwareId

/-- A device found in the walk. -/
structure AcpiDevice where
  path : Path
  hid : Option HardwareId
  cid : Option HardwareId
  body : Span
deriving DecidableEq

/-- A table, without what is behind its declared length. -/
structure Namespace where
  code : Bytes
deriving DecidableEq

/-- Wraps a table whose declared length holds a header and fits. -/
def Namespace.new (table : Bytes) : Option Namespace :=
  if table.length < TABLE_HEADER then none
  else
    let declared := leValue ((table.drop 4).take 4)
    if declared < TABLE_HEADER ∨ declared > table.length then none else some ⟨table.take declared⟩

/-! ## What a device says of itself -/

def _HID : NameSeg := #v[0x5F, 0x48, 0x49, 0x44]

def _CID : NameSeg := #v[0x5F, 0x43, 0x49, 0x44]

section

variable (code : Bytes)

/-- One term of the search for a name's value in an object list, with the search of the rest. -/
def nameValueBody (body : Span) (want : NameSeg) (rest : Read Value) : Read Value := do
  let pos ← position
  if pos < body.stop then do
    let opcode ← byte code
    if opcode = Op.NAME then do
      let named ← name code
      let value ← parseData code
      if named.1.leaf = some want then pure value else rest
    else do
      skipObject code opcode
      rest
  else failure

/-- Finds a name directly inside an object list. -/
def nameValue (body : Span) (want : NameSeg) : Option Value :=
  ((fixed code.length (nameValueBody code body want)).from body.start).1

/-- An identifier that a value gives. -/
def identifierOf : Value → Option HardwareId
  | .integer compressed => some (.fromEisa compressed.toUInt32)
  | .text span => (span.of code).map .fromText
  | _ => none

/-- Reads one identifier from an object list; of a package it is the first. -/
def identifier (body : Span) (want : NameSeg) : Option HardwareId := do
  let value ← nameValue code body want
  match value with
  | .package span =>
    let first ← (Read.from (do let _ ← byte code; parseData code) span.start).1
    identifierOf code first
  | value => identifierOf code value

def describe (path : Path) (body : Span) : AcpiDevice :=
  ⟨path, identifier code body _HID, identifier code body _CID, body⟩

/-! ## One term -/

/-- What a term of a list is to the walk. -/
inductive Found where
  /-- Nothing to go into. -/
  | passed
  /-- A conditional, with the list after its predicate. -/
  | block (inner : Span)
  /-- A named object with a list of its own. -/
  | object (named : Path × Bool) (isDevice : Bool) (inner : Span)

def passing (x : Read Unit) : Read Found := do
  x
  pure .passed

/-- Where a reading would end, without making it. -/
def probe (x : Read Unit) : Read (Option Nat) := OptionT.mk fun pos =>
  match x.from pos with
  | (some _, next) => (some (some next), pos)
  | (none, _) => (some none, pos)

theorem from_probe (x : Read Unit) (pos : Nat) : (probe x).from pos = match x.from pos with
    | (some _, next) => (some (some next), pos)
    | (none, _) => (some none, pos) := rfl

/-- A conditional is gone into behind its predicate, and over where that cannot be stepped over in it. -/
def conditional (opcode : UInt8) : Read Found := do
  let package ← package code
  if opcode = Op.ELSE then do
    goto package.stop
    pure (.block package)
  else do
    let start ← probe (skipTermArg code)
    goto package.stop
    match start with
    | none => pure .passed
    | some start => if start > package.stop then pure .passed else pure (.block ⟨start, package.stop⟩)

/-- The fixed fields between an object's name and its list. -/
def fixedFields (extended : UInt8) : Nat :=
  if extended = Op.EXT_POWER_RES then 3 else if extended = Op.EXT_PROCESSOR then 6 else 0

/-- A term with a two-byte opcode, whose second byte has been read. -/
def extendedAt (extended : UInt8) : Read Found :=
  if extended ∈ [Op.EXT_DEVICE, Op.EXT_POWER_RES, Op.EXT_THERMAL_ZONE, Op.EXT_PROCESSOR] then do
    let body ← package code
    let named ← name code
    let pos ← position
    if pos + fixedFields extended > body.stop then failure
    else do
      goto body.stop
      pure (.object named (extended = Op.EXT_DEVICE) ⟨pos + fixedFields extended, body.stop⟩)
  else if extended = Op.EXT_OP_REGION then passing do skipName code; skipRegion code
  else if extended ∈ [Op.EXT_FIELD, Op.EXT_INDEX_FIELD, Op.EXT_BANK_FIELD] then passing (skipPackage code)
  else if extended = Op.EXT_MUTEX then passing do skipName code; skipByte code
  else if extended = Op.EXT_EVENT then passing (skipName code)
  else if extended = Op.EXT_CREATE_FIELD then
    passing do skipTermArg code; skipTermArg code; skipTermArg code; skipName code
  -- No length to step over: the list ends.
  else failure

/-- The term that an opcode begins. -/
def termOf (opcode : UInt8) : Read Found :=
  if opcode = Op.SCOPE then do
    let body ← package code
    let named ← name code
    let pos ← position
    goto body.stop
    pure (.object named false ⟨pos, body.stop⟩)
  else if opcode = Op.EXT_PREFIX then do
    let extended ← byte code
    extendedAt code extended
  else if opcode = Op.METHOD then passing (skipPackage code)
  else if opcode = Op.NAME then passing do skipName code; skipData code
  else if opcode = Op.ALIAS then passing do skipName code; skipName code
  else if opcode = Op.EXTERNAL then passing do skipName code; skipByte code; skipByte code
  else if isCreateField opcode then passing do skipTermArg code; skipTermArg code; skipName code
  else if opcode ∈ [Op.IF, Op.ELSE, Op.WHILE] then conditional code opcode
  else if opcode = Op.NOOP then pure .passed
  else passing (skipStatement code opcode)

/-- The term at the cursor, which is put behind it. -/
def termAt : Read Found := do
  let opcode ← byte code
  termOf code opcode

/-! ## The walk -/

/-- What the walk does: it goes into a list from a term of another, or shows a device. -/
inductive Step where
  | entered (list : Span) (offset : Nat) (inner : Span)
  | visited (list : Span) (offset : Nat) (device : AcpiDevice)

/-- A walk's end: whether it is to go on, the scope and the visitor as it left them, and what it did. -/
structure Outcome (σ : Type) where
  go : Bool
  scope : Path
  state : σ
  steps : List Step

/-- The scope inside an object, and whether the object could be named. -/
def enter (scope : Path) (named : Path × Bool) : Path × Bool :=
  (if named.2 then Path.root else scope).pushAll named.1.segments

/-- Drops segments from the end until so many are left. -/
def Path.popTo (p : Path) (depth : Nat) : Path := ⟨p.segments.take depth, Nat.le_trans (List.length_take_le' depth p.segments) p.fits⟩

/-- The scope behind an object, from that in front of it and that the walk of its list left. -/
def leave (scope : Path) (named : Path × Bool) (left : Path) : Path :=
  if named.2 then scope else left.popTo scope.segments.length

/-- A visitor: what it makes of a device, and whether the walk is to go on. -/
abbrev Visitor (σ : Type) := σ → AcpiDevice → σ × Bool

variable {σ : Type} (visit : Visitor σ)

/-- The visit of an object that is a device with a name. -/
def shown (list : Span) (offset : Nat) (isDevice : Bool) (entered : Path × Bool) (inner : Span) (state : σ) :
    Outcome σ :=
  if isDevice ∧ entered.2 then
    let device := describe code entered.1 inner
    let seen := visit state device
    ⟨seen.2, entered.1, seen.1, [.visited list offset device]⟩
  else ⟨true, entered.1, state, []⟩

/-- Goes on where an outcome lets it, and keeps what was done before. -/
def Outcome.andThen (first : Outcome σ) (rest : Path → σ → Option (Outcome σ)) : Option (Outcome σ) :=
  if first.go then (rest first.scope first.state).map fun out => { out with steps := first.steps ++ out.steps }
  else some first

/-- Walks one term list from a position on; nothing if the fuel runs out. -/
@[grind =] def walk : Nat → Span → Nat → Path → σ → Option (Outcome σ)
  | 0, _, _, _, _ => none
  | fuel + 1, list, pos, scope, state =>
    if list.stop ≤ pos then some ⟨true, scope, state, []⟩
    else
      match (termAt code).from pos with
      -- What cannot be stepped over ends this list.
      | (none, _) => some ⟨true, scope, state, []⟩
      | (some .passed, next) => walk fuel list next scope state
      | (some (.block inner), next) => do
        let inside ← walk fuel inner inner.start scope state
        let entered := { inside with steps := .entered list pos inner :: inside.steps }
        entered.andThen fun left state => walk fuel list next left state
      | (some (.object named isDevice inner), next) => do
        let seen := shown code visit list pos isDevice (enter scope named) inner state
        let inside ← seen.andThen fun entered state => do
          let inside ← walk fuel inner inner.start entered state
          some { inside with steps := .entered list pos inner :: inside.steps }
        inside.andThen fun left state => walk fuel list next (leave scope named left) state

end

/-- The list of a table's terms. -/
def Namespace.list (ns : Namespace) : Span := ⟨TABLE_HEADER, ns.code.length⟩

/-- Visits every device, until the visitor stops the walk. -/
def Namespace.forEachDevice {σ : Type} (ns : Namespace) (fuel : Nat) (visit : Visitor σ) (state : σ) :
    Option (Outcome σ) :=
  walk ns.code visit fuel ns.list TABLE_HEADER .root state

end NanoChrono.Aml
