import NanoChrono.Ncfs.Format
import NanoChrono.Check
import Mathlib.Data.Prod.Lex
import Mathlib.Order.Lattice

/-! # Tree nodes

A node is one block: a header, then the items of a leaf or the children of an internal node. A leaf's
data is packed from the block's end in item order. A block is checked against the pointer that led to
it before a byte of it is believed. -/

namespace NanoChrono.Ncfs

open Buffer

/-- A node's magic. -/
def NODE_MAGIC : Bytes := [0x4E, 0x43, 0x4E, 0x44]

/-- The node header's length. -/
def NODE_HEADER : Nat := 64

def KEY_LEN : Nat := 17

/-- A leaf's item header: a key, then the data's offset and length. -/
def ITEM_HEADER : Nat := KEY_LEN + 4

/-- An internal node's entry: a key, then a child pointer without its level. -/
def CHILD_ENTRY : Nat := KEY_LEN + 8 + 8 + 32

/-- The most children an internal node holds. -/
def MAX_CHILDREN : Nat := (BLOCK - NODE_HEADER) / CHILD_ENTRY

/-- The largest item: one that fills an empty leaf. -/
def MAX_ITEM : Nat := BLOCK - NODE_HEADER - ITEM_HEADER

/-! ## Keys -/

/-- A key: object, kind, offset, ordered in that order. -/
@[ext] structure Key where
  obj : UInt64
  kind : UInt8
  off : UInt64
deriving DecidableEq, Repr

namespace Key

def rank (k : Key) : Nat ×ₗ Nat ×ₗ Nat := toLex (k.obj.toNat, toLex (k.kind.toNat, k.off.toNat))

theorem rank_injective : Function.Injective rank := by
  intro k l h
  have hobj := congrArg (fun x => (ofLex x).1) h
  have hrest := congrArg (fun x => (ofLex x).2) h
  have hkind := congrArg (fun x => (ofLex x).1) hrest
  have hoff := congrArg (fun x => (ofLex x).2) hrest
  exact Key.ext (UInt64.toNat_inj.1 hobj) (UInt8.toNat_inj.1 hkind) (UInt64.toNat_inj.1 hoff)

instance : LinearOrder Key := LinearOrder.lift' rank rank_injective

def read (b : Bytes) (pos : Nat) : Key :=
  { obj := rd64 b pos, kind := rd8 b (pos + 8), off := rd64 b (pos + 9) }

/-- What writing a key puts down. -/
def bytes (k : Key) : Bytes := le64 k.obj ++ ([k.kind] ++ le64 k.off)

@[simp] theorem length_bytes (k : Key) : k.bytes.length = KEY_LEN := by
  simp [bytes, KEY_LEN]

end Key

/-! ## Nodes in memory -/

/-- A child: on disk, or in the writer's arena. -/
inductive NodeRef where
  | disk (p : Ptr)
  | mem (i : Nat)
deriving DecidableEq, Repr

/-- A node in memory. -/
inductive Mem where
  | leaf (items : List (Key × Bytes))
  | node (level : UInt8) (ch : List (Key × NodeRef))
deriving DecidableEq, Repr

namespace Mem

def level : Mem → UInt8
  | leaf _ => 0
  | node l _ => l

/-- The bytes a node takes. -/
def size : Mem → Nat
  | leaf items => NODE_HEADER + (items.map fun i => ITEM_HEADER + i.2.length).sum
  | node _ ch => NODE_HEADER + ch.length * CHILD_ENTRY

def len : Mem → Nat
  | leaf items => items.length
  | node _ ch => ch.length

end Mem

/-- A node's header. -/
structure NodeHeader where
  level : UInt8
  count : UInt16
  block : UInt64
  gen : UInt64
  owner : UInt64
  fsid : Vector UInt8 16
deriving DecidableEq, Repr

namespace NodeHeader

def read (b : Bytes) : Option NodeHeader :=
  if b.length ≠ BLOCK ∨ slice b 0 4 ≠ NODE_MAGIC ∨ rd8 b 5 ≠ 0 ∨ (slice b 48 16).any (· ≠ 0) then none
  else some
    { level := rd8 b 4, count := rd16 b 6, block := rd64 b 8, gen := rd64 b 16, owner := rd64 b 24,
      fsid := rdArray 16 b 32 }

/-- What writing a header puts down. -/
def bytes (h : NodeHeader) : Bytes :=
  NODE_MAGIC ++ ([h.level] ++ ([0] ++ (le16 h.count ++ (le64 h.block ++ (le64 h.gen ++
    (le64 h.owner ++ (h.fsid.toList ++ List.replicate 16 0)))))))

@[simp] theorem length_bytes (h : NodeHeader) : h.bytes.length = NODE_HEADER := by
  simp [bytes, NODE_MAGIC, NODE_HEADER]

end NodeHeader

/-! ## Encoding -/

/-- An item's header: its key, and where its data is. -/
def itemHeader (k : Key) (off len : Nat) : Bytes :=
  k.bytes ++ (le16 (UInt16.ofNat off) ++ le16 (UInt16.ofNat len))

/-- A child's entry: its key and its pointer without the level. -/
def childEntry (k : Key) (p : Ptr) : Bytes :=
  k.bytes ++ (le64 p.block ++ (le64 p.gen ++ p.hash.toList))

/-- What the items of a leaf put where, from item `i` on, their data ending at `stop`. -/
@[grind =] def leafPieces : Nat → Nat → List (Key × Bytes) → List (Piece UInt8)
  | _, _, [] => []
  | i, stop, (k, v) :: items =>
    (NODE_HEADER + i * ITEM_HEADER, itemHeader k (stop - v.length) v.length) ::
      (stop - v.length, v) :: leafPieces (i + 1) (stop - v.length) items

/-- What the children of an internal node put where, from child `i` on; one in memory nothing. -/
@[grind =] def childPieces : Nat → List (Key × NodeRef) → List (Piece UInt8)
  | _, [] => []
  | i, (k, .disk p) :: ch => (NODE_HEADER + i * CHILD_ENTRY, childEntry k p) :: childPieces (i + 1) ch
  | i, (_, .mem _) :: ch => childPieces (i + 1) ch

def Mem.pieces : Mem → List (Piece UInt8)
  | .leaf items => leafPieces 0 BLOCK items
  | .node _ ch => childPieces 0 ch

def encodeMem (m : Mem) (h : NodeHeader) : Bytes :=
  writeAll (List.replicate BLOCK 0) ((0, h.bytes) :: m.pieces)

/-! ## Decoding -/

/-- Item `i` of a checked leaf. -/
def leafItem (b : Bytes) (i : Nat) : Key × Bytes :=
  let pos := NODE_HEADER + i * ITEM_HEADER
  let off := (rd16 b (pos + KEY_LEN)).toNat
  let len := (rd16 b (pos + KEY_LEN + 2)).toNat
  (Key.read b pos, slice b off len)

/-- Child `i` of a checked internal node at `level`. -/
def child (b : Bytes) (i : Nat) (level : UInt8) : Key × Ptr :=
  let pos := NODE_HEADER + i * CHILD_ENTRY
  (Key.read b pos,
    { block := rd64 b (pos + KEY_LEN), gen := rd64 b (pos + KEY_LEN + 8),
      hash := rdArray 32 b (pos + KEY_LEN + 16), level := level - 1 })

def decodeNode (b : Bytes) (h : NodeHeader) : Mem :=
  if h.level = 0 then .leaf ((List.range h.count.toNat).map (leafItem b))
  else .node h.level
    ((List.range h.count.toNat).map fun i => ((child b i h.level).1, .disk (child b i h.level).2))

/-! ## Checking -/

/-- Checks the items `i` to `i + left` of a leaf of `n`, whose data ends at `stop`, after `prev`: where
the last one's data begins. -/
@[grind =] def checkItems (b : Bytes) (n : Nat) : Nat → Nat → Nat → Option Key → Option Nat
  | 0, _, stop, _ => some stop
  | left + 1, i, stop, prev =>
    let pos := NODE_HEADER + i * ITEM_HEADER
    let k := Key.read b pos
    let off := (rd16 b (pos + KEY_LEN)).toNat
    let len := (rd16 b (pos + KEY_LEN + 2)).toNat
    if off + len ≠ stop ∨ off < NODE_HEADER + n * ITEM_HEADER ∨ prev.any (· ≥ k) then none
    else checkItems b n left (i + 1) off (some k)

/-- Checks the keys of the children `i` to `i + left`, after `prev`. -/
@[grind =] def checkChildren (b : Bytes) : Nat → Nat → Option Key → Bool
  | 0, _, _ => true
  | left + 1, i, prev =>
    let k := Key.read b (NODE_HEADER + i * CHILD_ENTRY)
    if prev.any (· ≥ k) then false else checkChildren b left (i + 1) (some k)

/-- The rules for a leaf: its data is packed from the end in item order, without gaps, and there is
nothing but zeros between the items' headers and it. -/
def checkLeaf (b : Bytes) (ptr : Ptr) (h : NodeHeader) : Except Error NodeHeader :=
  let n := h.count.toNat
  if NODE_HEADER + n * ITEM_HEADER > BLOCK then .error (.corrupt ptr.block)
  else
    match checkItems b n n 0 BLOCK none with
    | none => .error (.corrupt ptr.block)
    | some stop =>
      if (slice b (NODE_HEADER + n * ITEM_HEADER) (stop - (NODE_HEADER + n * ITEM_HEADER))).any
          (· ≠ 0) then .error (.corrupt ptr.block)
      else .ok h

/-- The rules for an internal node. -/
def checkInternal (b : Bytes) (ptr : Ptr) (h : NodeHeader) : Except Error NodeHeader :=
  let n := h.count.toNat
  if n = 0 ∨ n > MAX_CHILDREN then .error (.corrupt ptr.block)
  else if checkChildren b n 0 none = false then .error (.corrupt ptr.block)
  else if (b.drop (NODE_HEADER + n * CHILD_ENTRY)).any (· ≠ 0) then .error (.corrupt ptr.block)
  else .ok h

/-- Checks a node block against the pointer that led to it and by the format's rules. -/
def checkNode (hash : Bytes → Hash) (b : Bytes) (ptr : Ptr) (fsid : Vector UInt8 16)
    (owner : UInt64) : Except Error NodeHeader :=
  if hash b ≠ ptr.hash then .error (.checksum ptr.block)
  else
    match NodeHeader.read b with
    | none => .error (.corrupt ptr.block)
    | some h =>
      let classOk := (h.owner == 0) == (owner == 0)
      if h.block ≠ ptr.block ∨ h.gen ≠ ptr.gen ∨ h.level ≠ ptr.level ∨ h.fsid ≠ fsid ∨
          ¬ classOk ∨ h.level.toNat ≥ MAX_LEVEL then .error (.corrupt ptr.block)
      else if h.level = 0 then checkLeaf b ptr h
      else checkInternal b ptr h

end NanoChrono.Ncfs
