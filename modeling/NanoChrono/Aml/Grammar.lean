import NanoChrono.Aml.Walk

/-! # The grammar of AML

Names, term arguments and the terms of a list as trees, with the bytes that each is written as. A length may be
written in more bytes than it needs; a tree is well formed where its lengths fit the bytes they are written in. -/

namespace NanoChrono.Aml

/-! ## Names -/

/-- The first character of a segment: a letter or an underscore. -/
def isLead (b : UInt8) : Bool := (0x41 ≤ b && b ≤ 0x5A) || b = 0x5F

/-- A segment as it is written. -/
structure Seg where
  chars : NameSeg
  lead : isLead chars[0] = true
deriving DecidableEq

/-- What a name is given from: the root, or so many scopes up. -/
inductive Root where
  | absolute
  | parents (n : Nat)
deriving DecidableEq

inductive NamePath where
  | null
  | seg (s : Seg)
  | dual (s t : Seg)
  | multi (segs : List Seg) (h : segs.length < 256)
deriving DecidableEq

structure NameString where
  root : Root
  path : NamePath
deriving DecidableEq

def Root.encode : Root → Bytes
  | .absolute => [0x5C]
  | .parents n => List.replicate n 0x5E

def Seg.encode (s : Seg) : Bytes := s.chars.toList

@[grind =] def NamePath.encode : NamePath → Bytes
  | .null => [0x00]
  | .seg s => s.encode
  | .dual s t => 0x2E :: (s.encode ++ t.encode)
  | .multi segs _ => 0x2F :: .ofNat segs.length :: segs.flatMap Seg.encode

def NameString.encode (n : NameString) : Bytes := n.root.encode ++ n.path.encode

@[grind =] def NamePath.segs : NamePath → List NameSeg
  | .null => []
  | .seg s => [s.chars]
  | .dual s t => [s.chars, t.chars]
  | .multi segs _ => segs.map Seg.chars

def NameString.segs (n : NameString) : List NameSeg := n.path.segs

/-- The bare null name, which as a term argument is the constant zero. -/
def NameString.isNull (n : NameString) : Bool := n.root = .parents 0 && n.path = .null

/-- Whether a path can be held that has the name's segments. -/
def NameString.fits (n : NameString) : Bool := n.segs.length ≤ MAX_PATH

/-! ## Package lengths -/

/-- So many bytes of a number, the lowest first. -/
@[grind =] def leBytes : Nat → Nat → Bytes
  | 0, _ => []
  | n + 1, value => .ofNat (value % 256) :: leBytes n (value / 256)

/-- A package length with so many bytes after its first. -/
def pkgLength (width total : Nat) : Bytes :=
  if width = 0 then [.ofNat total] else .ofNat (64 * width + total % 16) :: leBytes width (total / 16)

/-- Whether a length can be written so. -/
def PkgFits (width total : Nat) : Prop :=
  if width = 0 then total < 64 else width ≤ 3 ∧ total < 16 * 256 ^ width

instance (width total : Nat) : Decidable (PkgFits width total) := by unfold PkgFits; infer_instance

/-- A package: its length counts itself. -/
def pack (width : Nat) (body : Bytes) : Bytes := pkgLength width (width + 1 + body.length) ++ body

def PackFits (width : Nat) (body : Bytes) : Prop := PkgFits width (width + 1 + body.length)

instance (width : Nat) (body : Bytes) : Decidable (PackFits width body) := by unfold PackFits; infer_instance

/-! ## Operators -/

/-- Operators of two arguments and a target. -/
inductive Binary where
  | add | subtract | multiply | shiftLeft | shiftRight | and | nand | or | nor | xor | concat | index
deriving DecidableEq

/-- Operators of two arguments. -/
inductive Compare where
  | lAnd | lOr | lEqual | lGreater | lLess | wait
deriving DecidableEq

/-- Operators of an argument and a target. -/
inductive Convert where
  | store | toBuffer | toInteger | toHexString | toDecimalString | findSetLeftBit | findSetRightBit | condRefOf
  | fromBcd | toBcd
deriving DecidableEq

/-- Operators of an argument. -/
inductive Unary where
  | lNot | sizeOf | derefOf | refOf | increment | decrement
deriving DecidableEq

inductive Nullary where
  | revision | debug | timer
deriving DecidableEq

def Binary.code : Binary → Bytes
  | .add => [0x72]
  | .subtract => [0x74]
  | .multiply => [0x77]
  | .shiftLeft => [0x79]
  | .shiftRight => [0x7A]
  | .and => [0x7B]
  | .nand => [0x7C]
  | .or => [0x7D]
  | .nor => [0x7E]
  | .xor => [0x7F]
  | .concat => [0x73]
  | .index => [0x88]

def Compare.code : Compare → Bytes
  | .lAnd => [0x90]
  | .lOr => [0x91]
  | .lEqual => [0x93]
  | .lGreater => [0x94]
  | .lLess => [0x95]
  | .wait => [0x5B, 0x25]

def Convert.code : Convert → Bytes
  | .store => [0x70]
  | .toBuffer => [0x96]
  | .toInteger => [0x99]
  | .toHexString => [0x98]
  | .toDecimalString => [0x97]
  | .findSetLeftBit => [0x81]
  | .findSetRightBit => [0x82]
  | .condRefOf => [0x5B, 0x12]
  | .fromBcd => [0x5B, 0x28]
  | .toBcd => [0x5B, 0x29]

def Unary.code : Unary → Bytes
  | .lNot => [0x92]
  | .sizeOf => [0x87]
  | .derefOf => [0x83]
  | .refOf => [0x71]
  | .increment => [0x75]
  | .decrement => [0x76]

def Nullary.code : Nullary → Bytes
  | .revision => [0x5B, 0x30]
  | .debug => [0x5B, 0x31]
  | .timer => [0x5B, 0x33]

/-! ## Term arguments -/

/-- A term argument. A target that discards the result is written as the constant zero, and is that here. -/
inductive Arg where
  | zero
  | one
  | ones
  | byte (v : UInt8)
  | word (v : UInt16)
  | dword (v : UInt32)
  | qword (v : UInt64)
  | string (text : Bytes)
  | buffer (width : Nat) (size : Arg) (contents : Bytes)
  /-- A package, its elements as they are written; their count may be a term argument. -/
  | package (width : Nat) (varies : Bool) (contents : Bytes)
  | localVar (i : Fin 8)
  | argVar (i : Fin 7)
  | nullary (o : Nullary)
  | unary (o : Unary) (a : Arg)
  | compare (o : Compare) (a b : Arg)
  | convert (o : Convert) (a target : Arg)
  | binary (o : Binary) (a b target : Arg)
  | acquire (mutex : Arg) (timeout : UInt16)
  | loadTable (signature oemId oemTable root parameter value target : Arg)
  /-- A name, with the arguments that it is called with. -/
  | name (n : NameString) (args : List Arg)

mutual

def Arg.encode : Arg → Bytes
  | .zero => [0x00]
  | .one => [0x01]
  | .ones => [0xFF]
  | .byte v => 0x0A :: leBytes 1 v.toNat
  | .word v => 0x0B :: leBytes 2 v.toNat
  | .dword v => 0x0C :: leBytes 4 v.toNat
  | .qword v => 0x0E :: leBytes 8 v.toNat
  | .string text => 0x0D :: (text ++ [0x00])
  | .buffer width size contents => 0x11 :: pack width (size.encode ++ contents)
  | .package width varies contents => (if varies then 0x13 else 0x12) :: pack width contents
  | .localVar i => [0x60 + .ofNat i.val]
  | .argVar i => [0x68 + .ofNat i.val]
  | .nullary o => o.code
  | .unary o a => o.code ++ a.encode
  | .compare o a b => o.code ++ (a.encode ++ b.encode)
  | .convert o a target => o.code ++ (a.encode ++ target.encode)
  | .binary o a b target => o.code ++ (a.encode ++ (b.encode ++ target.encode))
  | .acquire mutex timeout => [0x5B, 0x23] ++ (mutex.encode ++ leBytes 2 timeout.toNat)
  | .loadTable a b c d e f target =>
    [0x5B, 0x1F] ++ (a.encode ++ (b.encode ++ (c.encode ++ (d.encode ++ (e.encode ++ (f.encode ++ target.encode))))))
  | .name n args => n.encode ++ encodeArgs args

def encodeArgs : List Arg → Bytes
  | [] => []
  | a :: args => a.encode ++ encodeArgs args

end

mutual

/-- Lengths fit the bytes they are written in, strings hold no null, and names name something. -/
def Arg.WellFormed : Arg → Prop
  | .string text => 0 ∉ text
  | .buffer width size contents => PackFits width (size.encode ++ contents) ∧ size.WellFormed
  | .package width _ contents => PackFits width contents
  | .unary _ a => a.WellFormed
  | .compare _ a b => a.WellFormed ∧ b.WellFormed
  | .convert _ a target => a.WellFormed ∧ target.WellFormed
  | .binary _ a b target => a.WellFormed ∧ b.WellFormed ∧ target.WellFormed
  | .acquire mutex _ => mutex.WellFormed
  | .loadTable a b c d e f target =>
    a.WellFormed ∧ b.WellFormed ∧ c.WellFormed ∧ d.WellFormed ∧ e.WellFormed ∧ f.WellFormed ∧ target.WellFormed
  | .name n args => n.isNull = false ∧ WellFormedArgs args
  | _ => True

def WellFormedArgs : List Arg → Prop
  | [] => True
  | a :: args => a.WellFormed ∧ WellFormedArgs args

end

/-- A data object. -/
def Arg.isData : Arg → Bool
  | .zero | .one | .ones | .byte _ | .word _ | .dword _ | .qword _ | .string _ | .buffer .. | .package .. => true
  | _ => false

/-- What may stand as a statement: an operator, or a name that is called. -/
def Arg.isEffect : Arg → Bool
  | .nullary _ | .unary .. | .compare .. | .convert .. | .binary .. | .acquire .. | .loadTable .. | .name .. => true
  | _ => false

/-! ## Terms -/

/-- Named objects with a list of their own. -/
inductive Kind where
  | device | powerRes | processor | thermalZone
deriving DecidableEq

def Kind.code : Kind → UInt8
  | .device => 0x82
  | .powerRes => 0x84
  | .processor => 0x83
  | .thermalZone => 0x85

/-- The bytes between an object's name and its list. -/
def Kind.fields : Kind → Nat
  | .powerRes => 3
  | .processor => 6
  | _ => 0

/-- Fields of a region, which are stepped over by their length. -/
inductive FieldKind where
  | field | indexField | bankField
deriving DecidableEq

def FieldKind.code : FieldKind → UInt8
  | .field => 0x81
  | .indexField => 0x86
  | .bankField => 0x87

/-- Fields of a buffer. -/
inductive CreateField where
  | dword | word | byte | bit | qword
deriving DecidableEq

def CreateField.code : CreateField → UInt8
  | .dword => 0x8A
  | .word => 0x8B
  | .byte => 0x8C
  | .bit => 0x8D
  | .qword => 0x8F

/-- Statements of one operand whose opcode takes two bytes. -/
inductive Action where
  | stall | sleep | signal | reset | release | unload
deriving DecidableEq

def Action.code : Action → UInt8
  | .stall => 0x21
  | .sleep => 0x22
  | .signal => 0x24
  | .reset => 0x26
  | .release => 0x27
  | .unload => 0x2A

/-- A term of a list. -/
inductive Term where
  | name (n : NameString) (value : Arg)
  | aliased (source n : NameString)
  | declared (n : NameString) (type count : UInt8)
  | scope (width : Nat) (n : NameString) (list : List Term)
  | object (kind : Kind) (width : Nat) (n : NameString) (fixed : Bytes) (list : List Term)
  | method (width : Nat) (n : NameString) (flags : UInt8) (list : List Term)
  | createField (o : CreateField) (source index : Arg) (n : NameString)
  | createBits (source index count : Arg) (n : NameString)
  | opRegion (n : NameString) (space : UInt8) (offset length : Arg)
  | fields (kind : FieldKind) (width : Nat) (contents : Bytes)
  | mutex (n : NameString) (flags : UInt8)
  | event (n : NameString)
  | ifThen (width : Nat) (predicate : Arg) (list : List Term)
  | otherwise (width : Nat) (list : List Term)
  | whileDo (width : Nat) (predicate : Arg) (list : List Term)
  | noop
  | breakLoop
  | continueLoop
  | ret (value : Arg)
  | notify (target value : Arg)
  | action (o : Action) (a : Arg)
  | load (a b : Arg)
  | fatal (type : UInt8) (code : UInt32) (a : Arg)
  /-- An operator or a call for its effect. -/
  | effect (a : Arg)

mutual

def Term.encode : Term → Bytes
  | .name n value => 0x08 :: (n.encode ++ value.encode)
  | .aliased source n => 0x06 :: (source.encode ++ n.encode)
  | .declared n type count => 0x15 :: (n.encode ++ ([type] ++ [count]))
  | .scope width n list => 0x10 :: pack width (n.encode ++ encodeTerms list)
  | .object kind width n fixed list => 0x5B :: kind.code :: pack width (n.encode ++ (fixed ++ encodeTerms list))
  | .method width n flags list => 0x14 :: pack width (n.encode ++ (flags :: encodeTerms list))
  | .createField o source index n => o.code :: (source.encode ++ (index.encode ++ n.encode))
  | .createBits source index count n =>
    0x5B :: 0x13 :: (source.encode ++ (index.encode ++ (count.encode ++ n.encode)))
  | .opRegion n space offset length => 0x5B :: 0x80 :: (n.encode ++ ([space] ++ (offset.encode ++ length.encode)))
  | .fields kind width contents => 0x5B :: kind.code :: pack width contents
  | .mutex n flags => 0x5B :: 0x01 :: (n.encode ++ [flags])
  | .event n => 0x5B :: 0x02 :: n.encode
  | .ifThen width predicate list => 0xA0 :: pack width (predicate.encode ++ encodeTerms list)
  | .otherwise width list => 0xA1 :: pack width (encodeTerms list)
  | .whileDo width predicate list => 0xA2 :: pack width (predicate.encode ++ encodeTerms list)
  | .noop => [0xA3]
  | .breakLoop => [0xA5]
  | .continueLoop => [0x9F]
  | .ret value => 0xA4 :: value.encode
  | .notify target value => 0x86 :: (target.encode ++ value.encode)
  | .action o a => 0x5B :: o.code :: a.encode
  | .load a b => 0x5B :: 0x20 :: (a.encode ++ b.encode)
  | .fatal type code a => 0x5B :: 0x32 :: ((type :: leBytes 4 code.toNat) ++ a.encode)
  | .effect a => a.encode

def encodeTerms : List Term → Bytes
  | [] => []
  | t :: ts => t.encode ++ encodeTerms ts

end

mutual

/-- Lengths fit the bytes they are written in, objects have a name and their fixed fields, names are given data, and
only what has an effect stands as a statement. -/
def Term.WellFormed : Term → Prop
  | .name _ value => value.WellFormed ∧ value.isData = true
  | .scope width n list => PackFits width (n.encode ++ encodeTerms list) ∧ WellFormedTerms list
  | .object kind width n fixed list =>
    PackFits width (n.encode ++ (fixed ++ encodeTerms list)) ∧ fixed.length = kind.fields ∧ n.segs ≠ [] ∧
      WellFormedTerms list
  | .method width n flags list => PackFits width (n.encode ++ (flags :: encodeTerms list)) ∧ WellFormedTerms list
  | .createField _ source index _ => source.WellFormed ∧ index.WellFormed
  | .createBits source index count _ => source.WellFormed ∧ index.WellFormed ∧ count.WellFormed
  | .opRegion _ _ offset length => offset.WellFormed ∧ length.WellFormed
  | .fields _ width contents => PackFits width contents
  | .ifThen width predicate list =>
    PackFits width (predicate.encode ++ encodeTerms list) ∧ predicate.WellFormed ∧ WellFormedTerms list
  | .otherwise width list => PackFits width (encodeTerms list) ∧ WellFormedTerms list
  | .whileDo width predicate list =>
    PackFits width (predicate.encode ++ encodeTerms list) ∧ predicate.WellFormed ∧ WellFormedTerms list
  | .ret value => value.WellFormed
  | .notify target value => target.WellFormed ∧ value.WellFormed
  | .action _ a => a.WellFormed
  | .load a b => a.WellFormed ∧ b.WellFormed
  | .fatal _ _ a => a.WellFormed
  | .effect a => a.WellFormed ∧ a.isEffect = true
  | _ => True

def WellFormedTerms : List Term → Prop
  | [] => True
  | t :: ts => t.WellFormed ∧ WellFormedTerms ts

end

end NanoChrono.Aml
