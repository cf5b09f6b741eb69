import Mathlib.Tactic

/-! # HID report descriptors

A device without a boot protocol says in a descriptor where the values of its reports are. The descriptor is a
sequence of items: global ones, whose values stay, local ones, which the next main item uses up, and main ones, of
which the inputs declare the fields of a report. The fields that make a pointer or a keyboard are found for one
candidate per report ID. -/

namespace NanoChrono.Hid

abbrev Bytes := List UInt8

/-! ## Usages -/

namespace Page

def GENERIC_DESKTOP : Nat := 0x01

/-- Keyboard and keypad. Its usages are the keycodes. -/
def KEYBOARD : Nat := 0x07

def BUTTON : Nat := 0x09

def DIGITIZER : Nat := 0x0D

end Page

/-- The eight modifier usages, `LeftControl` through `RightGUI`. -/
def MODIFIER_FIRST : Nat := 0xE0
def MODIFIER_LAST : Nat := 0xE7

/-! Usages within the generic desktop page. -/

namespace Usage

def X : Nat := 0x0030

def Y : Nat := 0x0031

def WHEEL : Nat := 0x0038

end Usage

/-- How many usages one main item may have queued. -/
def MAX_USAGES : Nat := 16

/-- How many distinct report IDs a descriptor may define. -/
def MAX_REPORTS : Nat := 16

/-! ## Layouts -/

/-- Where one value sits inside a report. -/
structure Field where
  /-- Bits from the start of the report body, after the report ID where there is one. -/
  bitOffset : Nat
  bitSize : Nat
  /-- How many consecutive values of this size the field holds. -/
  count : Nat
  /-- Whether the value is two's complement. -/
  signed : Bool
  /-- Whether it reports a delta rather than a position. -/
  relative : Bool
deriving DecidableEq, Repr

/-- The report that carries a cursor, and where its values are. -/
structure PointerLayout where
  reportId : Option UInt8
  bodyBytes : Nat
  x : Field
  y : Field
  buttons : Option Field
  wheel : Option Field
deriving DecidableEq, Repr

/-- The report that carries keystrokes, and where they are. -/
structure KeyboardLayout where
  reportId : Option UInt8
  bodyBytes : Nat
  modifiers : Option Field
  keys : Field
deriving DecidableEq, Repr

/-! ## State -/

/-- Global item state, which persists across main items until changed. -/
structure Globals where
  usagePage : Nat
  logicalMinimum : Int
  reportSize : Nat
  reportCount : Nat
  reportId : Option UInt8
deriving DecidableEq, Repr

/-- Local item state, which is cleared after every main item. -/
structure Locals where
  usages : List Nat
  minimum : Option Nat
  maximum : Option Nat
deriving DecidableEq, Repr

namespace Locals

def none : Locals := ⟨[], .none, .none⟩

/-- Queues a usage, while there is room. -/
def push (l : Locals) (usage : Nat) : Locals :=
  if l.usages.length < MAX_USAGES then { l with usages := l.usages ++ [usage] } else l

end Locals

/-- What is known about one candidate report so far. -/
structure Candidate where
  reportId : Option UInt8
  bits : Nat
  x : Option Field
  y : Option Field
  buttons : Option Field
  wheel : Option Field
  modifiers : Option Field
  keys : Option Field
  /-- Whether the enclosing collection is a digitizer, whose X and Y are positions on a surface. -/
  digitizer : Bool
deriving DecidableEq, Repr

/-- What an input item says, with the state it is met in. -/
structure Input where
  globals : Globals
  locals : Locals
  /-- Whether it is inside a digitizer collection. -/
  digitizer : Bool
  /-- Padding, with no usage. -/
  isConstant : Bool
  /-- A value for each control, rather than an array. -/
  isVariable : Bool
  isRelative : Bool
deriving DecidableEq, Repr

/-! ## Recording an input -/

def USIZE_MAX : Nat := 2 ^ 64 - 1

def saturatingAdd (a b : Nat) : Nat := min (a + b) USIZE_MAX

def saturatingMul (a b : Nat) : Nat := min (a * b) USIZE_MAX

namespace Candidate

def new (reportId : Option UInt8) : Candidate :=
  ⟨reportId, 0, none, none, none, none, none, none, false⟩

def complete (c : Candidate) : Bool := c.x.isSome && c.y.isSome && !c.digitizer

def isKeyboard (c : Candidate) : Bool := c.keys.isSome

/-- Gives a generic desktop usage its field, if it is the first one for it. -/
def place (c : Candidate) (usage : Nat) (field : Field) : Candidate :=
  if usage = Usage.X ∧ c.x.isNone then { c with x := some field }
  else if usage = Usage.Y ∧ c.y.isNone then { c with y := some field }
  else if usage = Usage.WHEEL ∧ c.wheel.isNone then { c with wheel := some field }
  else c

/-- Assigns the usages queued for a main item to bit positions. -/
def record (c : Candidate) (i : Input) : Candidate :=
  let field (index : Nat) : Field :=
    ⟨saturatingAdd c.bits (saturatingMul index i.globals.reportSize), i.globals.reportSize, 1,
      i.globals.logicalMinimum < 0, i.isRelative⟩
  let run (count : Nat) : Field := ⟨c.bits, i.globals.reportSize, count, false, i.isRelative⟩
  if i.globals.usagePage = Page.KEYBOARD then
    if i.isVariable then
      -- The modifiers, declared as a usage range.
      if (i.locals.minimum = some MODIFIER_FIRST ∧ i.locals.maximum = some MODIFIER_LAST) ∧ c.modifiers.isNone then
        { c with modifiers := some (run i.globals.reportCount) }
      else c
    else if c.keys.isNone then { c with keys := some (run i.globals.reportCount) }
    else c
  else if i.globals.usagePage = Page.BUTTON ∧ i.isVariable then
    -- Buttons come as a usage range rather than one usage each.
    let count := match i.locals.minimum, i.locals.maximum with
      | some low, some high => if low ≤ high then saturatingAdd (high - low) 1 else i.locals.usages.length
      | _, _ => i.locals.usages.length
    if count = 0 then c
    else if c.buttons.isNone then { c with buttons := some (run (min count i.globals.reportCount)) }
    else c
  else if i.globals.usagePage = Page.GENERIC_DESKTOP ∧ i.isVariable then
    i.locals.usages.zipIdx.foldl (fun c u => c.place u.1 (field u.2)) c
  else c

/-- Notes that an input is inside a digitizer. -/
def mark (c : Candidate) (digitizer : Bool) : Candidate := if digitizer then { c with digitizer := true } else c

/-- An input item of the candidate's report. -/
def input (c : Candidate) (i : Input) : Candidate :=
  let c := c.mark i.digitizer
  let fieldBits := saturatingMul i.globals.reportSize i.globals.reportCount
  let c := if i.isConstant then c else c.record i
  { c with bits := saturatingAdd c.bits fieldBits }

end Candidate

/-- Finds or creates the candidate for a report ID. -/
def slotFor (candidates : List Candidate) (reportId : Option UInt8) : Option (List Candidate × Nat) :=
  match candidates.findIdx? (·.reportId = reportId) with
  | some index => some (candidates, index)
  | none =>
    if candidates.length = MAX_REPORTS then none
    else some (candidates ++ [.new reportId], candidates.length)

/-- An input item, for the candidate of its report. -/
def addInput (candidates : List Candidate) (i : Input) : Option (List Candidate) :=
  (slotFor candidates i.globals.reportId).map fun slot => slot.1.modify slot.2 (·.input i)

/-! ## Items -/

/-- A short item. -/
structure Item where
  kind : Nat
  tag : Nat
  size : Nat
  data : Bytes
deriving DecidableEq, Repr

namespace Item

/-- The item's value, unsigned. -/
def unsigned (i : Item) : Nat := i.data.foldr (fun b value => b.toNat + 256 * value) 0

/-- The item's value, whose width is the sign width. -/
def signed (i : Item) : Int :=
  if 0 < i.size ∧ 2 ^ (8 * i.size - 1) ≤ i.unsigned then i.unsigned - 2 ^ (8 * i.size) else i.unsigned

def flag (i : Item) (bit : Nat) : Bool := i.unsigned / 2 ^ bit % 2 = 1

/-- Whether it is the main item that declares an input. -/
def isInput (i : Item) : Bool := i.kind = 0 ∧ i.tag = 0x8

end Item

/-- How the next item is read. -/
inductive Next where
  | truncated
  /-- A long item, which is stepped over. -/
  | long (rest : Bytes)
  | short (item : Item) (rest : Bytes)

/-- The bytes of data that a short item's first byte announces. -/
def dataSize (p : UInt8) : Nat := if p.toNat % 4 = 3 then 4 else p.toNat % 4

/-- Reads an item whose first byte is `p`. -/
def next (p : UInt8) (rest : Bytes) : Next :=
  if p = 0xFE then
    match rest with
    | [] => .truncated
    | length :: rest => .long (rest.drop (1 + length.toNat))
  else
    if rest.length < dataSize p then .truncated
    else .short ⟨p.toNat / 4 % 4, p.toNat / 16, dataSize p, rest.take (dataSize p)⟩ (rest.drop (dataSize p))

/-- The parser between two items. -/
structure Reader where
  globals : Globals
  locals : Locals
  /-- How many of the open collections count as digitizers. -/
  digitizerDepth : Nat
deriving DecidableEq, Repr

namespace Reader

def new : Reader := ⟨⟨0, 0, 0, 0, none⟩, .none, 0⟩

/-- The input that an item declares here. -/
def inputOf (r : Reader) (i : Item) : Input :=
  ⟨r.globals, r.locals, 0 < r.digitizerDepth, i.flag 0, i.flag 1, i.flag 2⟩

/-- A main item clears the local state. Collections inside of a digitizer are part of it. -/
def main (r : Reader) (i : Item) : Reader :=
  let r := { r with locals := .none }
  match i.tag with
  | 0xA =>
    if r.globals.usagePage = Page.DIGITIZER ∨ 0 < r.digitizerDepth then
      { r with digitizerDepth := r.digitizerDepth + 1 }
    else r
  | 0xC => { r with digitizerDepth := r.digitizerDepth - 1 }
  | _ => r

/-- A global item. Push and pop are not followed: the parser stops. -/
def global (r : Reader) (i : Item) : Option Reader :=
  match i.tag with
  | 0x0 => some { r with globals := { r.globals with usagePage := i.unsigned % 2 ^ 16 } }
  | 0x1 => some { r with globals := { r.globals with logicalMinimum := i.signed } }
  | 0x7 => some { r with globals := { r.globals with reportSize := i.unsigned } }
  | 0x8 => some { r with globals := { r.globals with reportId := some (.ofNat i.unsigned) } }
  | 0x9 => some { r with globals := { r.globals with reportCount := i.unsigned } }
  | 0xA | 0xB => none
  | _ => some r

/-- A local item. A usage of four bytes has its page in front. -/
def localItem (r : Reader) (i : Item) : Reader :=
  match i.tag with
  | 0x0 =>
    if i.size = 4 then
      { r with
        globals := { r.globals with usagePage := i.unsigned / 2 ^ 16 % 2 ^ 16 }
        locals := r.locals.push (i.unsigned % 2 ^ 16) }
    else { r with locals := r.locals.push i.unsigned }
  | 0x1 => { r with locals := { r.locals with minimum := some i.unsigned } }
  | 0x2 => { r with locals := { r.locals with maximum := some i.unsigned } }
  | _ => r

/-- The parser after an item, unless it stops there. -/
def after (r : Reader) (i : Item) : Option Reader :=
  match i.kind with
  | 0 => some (r.main i)
  | 1 => r.global i
  | 2 => some (r.localItem i)
  | _ => some r

end Reader

/-- Every item that is read leaves less to read. -/
theorem next_long {p : UInt8} {rest rest' : Bytes} (h : next p rest = .long rest') : rest'.length < (p :: rest).length := by
  unfold next at h
  split at h
  · split at h
    · cases h
    · cases h
      simp only [List.length_drop, List.length_cons]
      omega
  · split at h <;> cases h

theorem next_short {p : UInt8} {rest rest' : Bytes} {i : Item} (h : next p rest = .short i rest') :
    rest'.length < (p :: rest).length := by
  unfold next at h
  split at h
  · split at h <;> cases h
  · split at h
    · cases h
    · cases h
      simp only [List.length_drop, List.length_cons]
      omega

/-- Walks what is left of a descriptor. -/
def parseFrom (r : Reader) (candidates : List Candidate) : Bytes → Option (List Candidate)
  | [] => some candidates
  | p :: rest =>
    match _h : next p rest with
    | .truncated => none
    | .long rest' => parseFrom r candidates rest'
    | .short i rest' =>
      match if i.isInput then addInput candidates (r.inputOf i) else some candidates with
      | none => none
      | some candidates =>
        match r.after i with
        | none => none
        | some r => parseFrom r candidates rest'
termination_by bytes => bytes.length
decreasing_by
  · exact next_long _h
  · exact next_short _h

/-- Walks a report descriptor into one candidate per report ID. -/
def parse (descriptor : Bytes) : Option (List Candidate) := parseFrom .new [] descriptor

/-- Finds the input report carrying a relative pointer. -/
def findPointer (descriptor : Bytes) : Option PointerLayout := do
  let candidates ← parse descriptor
  let found ← candidates.find? (·.complete)
  let x ← found.x
  let y ← found.y
  return ⟨found.reportId, (found.bits + 7) / 8, x, y, found.buttons, found.wheel⟩

/-- Finds the input report carrying keystrokes. -/
def findKeyboard (descriptor : Bytes) : Option KeyboardLayout := do
  let candidates ← parse descriptor
  let found ← candidates.find? (·.isKeyboard)
  let keys ← found.keys
  return ⟨found.reportId, (found.bits + 7) / 8, found.modifiers, keys⟩

end NanoChrono.Hid
