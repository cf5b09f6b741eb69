import NanoChrono.Ncfs.Format
import NanoChrono.Ncfs.NodeCodec
import NanoChrono.Ncfs.Superblock

/-! # Reading a volume

A tree is walked from its root through one block buffer, each node checked against the pointer that
led to it. A file's bytes are read window by window: a window's extent is decoded into a buffer of the
caller's scratch, which remembers what it holds, so that a window read twice is decoded once. -/

namespace NanoChrono.Ncfs

open Buffer

/-- What a volume is read from: `n` consecutive blocks at a time. -/
structure BlockDev where
  read : UInt64 → Nat → Except Error Bytes
  length_read : ∀ {block n b}, read block n = .ok b → b.length = n * BLOCK

/-- The decoders of compressed extents, over the buffer decoded into: what they answer, and what the
buffer holds then. What decodes is the same whatever the buffer and the workspace held before. -/
structure Decoders (Workspace : Type) where
  lz4 : Bytes → Bytes → Except Lz4Error Unit × Bytes
  zstd : Workspace → Bytes → Bytes → Except ZstdError Nat × Bytes × Workspace
  /-- A new workspace. -/
  workspace : Workspace
  length_lz4 : ∀ stored out, (lz4 stored out).2.length = out.length
  length_zstd : ∀ ws stored out, (zstd ws stored out).2.1.length = out.length
  lz4_fresh : ∀ stored {out out'}, out.length = out'.length →
    (lz4 stored out).1 = (lz4 stored out').1 ∧
      ((lz4 stored out).1 = .ok () → (lz4 stored out).2 = (lz4 stored out').2)
  zstd_fresh : ∀ ws ws' stored {out out'}, out.length = out'.length →
    (zstd ws stored out).1 = (zstd ws' stored out').1 ∧
      ∀ n, (zstd ws stored out).1 = .ok n →
        (zstd ws stored out).2.1.take n = (zstd ws' stored out').2.1.take n

/-! ## Walking a tree -/

section Walk

variable (hash : Bytes → Hash) (dev : BlockDev) (sb : Superblock)

/-- Reads the node a pointer names into the buffer and checks it. -/
def readNode (ptr : Ptr) (owner : UInt64) (buf : Bytes) : Except Error NodeHeader × Bytes :=
  if ptr.block.toNat < FIRST_FREE ∨ ptr.block ≥ sb.totalBlocks then (.error (.corrupt ptr.block), buf)
  else
    match dev.read ptr.block 1 with
    | .error e => (.error e, buf)
    | .ok b => (checkNode hash b ptr sb.fsid owner, b)

/-- Where a search landed: an item of the leaf in the buffer, and the first key of the next leaf. -/
structure Cursor where
  index : Nat
  count : Nat
  next : Option Key
deriving DecidableEq, Repr

/-- The child to descend into for a key: the last whose key is not above it, or the first. -/
def childIndex (keys : List Key) (k : Key) : Nat := (keys.takeWhile (· ≤ k)).length - 1

variable {hash dev sb}

/-- A node that was read is of its pointer's level. -/
theorem level_of_readNode {ptr : Ptr} {owner : UInt64} {buf buf' : Bytes} {h : NodeHeader}
    (hread : readNode hash dev sb ptr owner buf = (.ok h, buf')) : h.level = ptr.level := by
  rw [readNode] at hread
  split at hread
  · cases hread
  split at hread
  · cases hread
  exact (encoded_of_check (congrArg Prod.fst hread)).2.1.ptrLevel

variable (hash dev sb)

/-- Where a search goes on from an internal node: the child that may hold the key, and the first key
of the leaf after that child's. -/
def descend (h : NodeHeader) (key : Key) (next : Option Key) (buf : Bytes) : Ptr × Option Key :=
  let n := h.count.toNat
  let i := childIndex ((List.range n).map fun i => (child buf i h.level).1) key
  let next :=
    if i + 1 < n then
      let k := (child buf (i + 1) h.level).1
      some (next.elim k (min · k))
    else next
  ((child buf i h.level).2, next)

/-- Finds the first item not below a key in a tree, from the node at `ptr` on, and leaves its leaf in
the buffer. -/
def seek (owner : UInt64) (key : Key) (ptr : Ptr) (next : Option Key) (buf : Bytes) :
    Except Error Cursor × Bytes :=
  match hread : readNode hash dev sb ptr owner buf with
  | (.error e, buf) => (.error e, buf)
  | (.ok h, buf) =>
    let n := h.count.toNat
    if hleaf : h.level = 0 then
      (.ok { index := (List.range n).findIdx fun i => key ≤ (leafItem buf i).1, count := n, next }, buf)
    else
      let d := descend h key next buf
      if d.1.level + 1 ≠ h.level then (.error (.corrupt ptr.block), buf)
      else seek owner key d.1 d.2 buf
termination_by ptr.level.toNat
decreasing_by
  have hlevel := level_of_readNode hread
  show (h.level - 1).toNat < ptr.level.toNat
  rw [← hlevel]
  have hpos : h.level.toNat ≠ 0 := fun h0 => hleaf (UInt8.toNat_inj.1 h0)
  rw [UInt8.toNat_sub_of_le _ _ (UInt8.le_iff_toNat_le.2 (by simp; omega))]
  simp
  omega

end Walk

/-! ## The scratch -/

/-- The buffer with its first cells overwritten. -/
def overwrite {n : Nat} (v : Vector UInt8 n) (b : Bytes) : Vector UInt8 n :=
  Vector.ofFn fun i => b[i.val]?.getD (v.get i)

/-- The buffers file reads need: a node, a window's stored bytes and its decoded bytes. -/
structure Scratch (Workspace : Type) where
  node : Bytes
  stored : Vector UInt8 WINDOW
  window : Vector UInt8 WINDOW
  zstd : Workspace
  /-- What `window` holds: subvolume, inode, window start, length. -/
  cached : Option (UInt64 × UInt64 × UInt64 × Nat)

section Scratch

variable {Workspace : Type} (D : Decoders Workspace)

def Scratch.new : Scratch Workspace where
  node := List.replicate BLOCK 0
  stored := Vector.replicate WINDOW 0
  window := Vector.replicate WINDOW 0
  zstd := D.workspace
  cached := none

/-- Decodes stored extent bytes over a buffer, which they must fill: the answer, the buffer and the
workspace. -/
def decodeExtent (compression : Compression) (stored out : Bytes) (zws : Workspace) :
    Except Error Unit × Bytes × Workspace :=
  match compression with
  | .none =>
    if stored.length ≠ out.length then (.error (.corrupt 0), out, zws) else (.ok (), stored, zws)
  | .lz4 =>
    let (answer, out) := D.lz4 stored out
    (answer.mapError .lz4, out, zws)
  | .zstd =>
    match D.zstd zws stored out with
    | (.ok n, out', zws) =>
      if n = out.length then (.ok (), out', zws) else (.error (.zstd .short), out', zws)
    | (.error e, out', zws) => (.error (.zstd e), out', zws)

/-- Decodes the first `n` stored bytes of a scratch over the first `len` of its window. -/
def Scratch.decode (compression : Compression) (n len : Nat) (s : Scratch Workspace) :
    Except Error Unit × Scratch Workspace :=
  let d := decodeExtent D compression (s.stored.toList.take n) (s.window.toList.take len) s.zstd
  (d.1, { s with window := overwrite s.window d.2.1, zstd := d.2.2 })

end Scratch

/-! ## Reading files -/

/-- An open volume, reading one subvolume. -/
structure Volume where
  dev : BlockDev
  sb : Superblock
  subvolId : UInt64
  /-- The subvolume's root. -/
  root : Ptr

/-- The kind of an extent's key. -/
def KIND_EXTENT : UInt8 := 4

namespace Volume

variable (hash : Bytes → Hash) {Workspace : Type} (D : Decoders Workspace)

/-- Decodes a window of a file, wherever its extent is stored: its length, none for a hole. -/
def load (v : Volume) (ino w : UInt64) (s : Scratch Workspace) :
    Except Error Nat × Scratch Workspace :=
  let key : Key := ⟨ino, KIND_EXTENT, w⟩
  match seek hash v.dev v.sb v.subvolId key v.root none s.node with
  | (.error e, node) => (.error e, { s with node })
  | (.ok c, node) =>
    let s := { s with node }
    if c.index = c.count ∨ (leafItem node c.index).1 ≠ key then (.ok 0, s)
    else
      match Extent.decode (leafItem node c.index).2 with
      | none => (.error (.corrupt v.root.block), s)
      | some (.inline compression len data) =>
        let s := { s with stored := overwrite s.stored data }
        match s.decode D compression data.length len.toNat with
        | (.error e, s) => (.error e, s)
        | (.ok (), s) => (.ok len.toNat, { s with cached := some (v.subvolId, ino, w, len.toNat) })
      | some (.regular r) =>
        if r.block.toNat < FIRST_FREE ∨ r.block.toNat + r.blocks.toNat > v.sb.totalBlocks.toNat then
          (.error (.corrupt r.block), s)
        else
          match v.dev.read r.block r.blocks.toNat with
          | .error e => (.error e, s)
          | .ok b =>
            let s := { s with stored := overwrite s.stored b }
            if hash (s.stored.toList.take r.stored.toNat) ≠ r.hash then (.error (.checksum r.block), s)
            else
              match s.decode D r.compression r.stored.toNat r.len.toNat with
              | (.error e, s) => (.error e, s)
              | (.ok (), s) =>
                (.ok r.len.toNat, { s with cached := some (v.subvolId, ino, w, r.len.toNat) })

/-- Has a window of a file in the scratch, decoded unless the scratch holds it: its length. -/
def window (v : Volume) (ino w : UInt64) (s : Scratch Workspace) :
    Except Error Nat × Scratch Workspace :=
  match s.cached with
  | none => v.load hash D ino w s
  | some (sv, i, ww, len) =>
    if sv = v.subvolId ∧ i = ino ∧ ww = w then (.ok len, s)
    else v.load hash D ino w { s with cached := none }

/-- The start of the window of a position. -/
def windowAt (pos : Nat) : UInt64 := UInt64.ofNat (pos - pos % WINDOW)

/-- Reads the file's bytes from `pos` to `stop` to where they go in a buffer for those from `offset`
on. -/
def readWindows (v : Volume) (ino : UInt64) (offset stop pos : Nat) (out : Bytes)
    (s : Scratch Workspace) : Except Error Unit × Bytes × Scratch Workspace :=
  if _h : pos < stop then
    let inW := pos % WINDOW
    let len := min (stop - pos) (WINDOW - inW)
    match v.window hash D ino (windowAt pos) s with
    | (.error e, s) => (.error e, out, s)
    | (.ok size, s) =>
      -- bytes past the extent are zeros
      let low := min inW size
      let high := min (inW + len) size
      let dst := slice s.window.toList low (high - low) ++ List.replicate (len - (high - low)) 0
      v.readWindows ino offset stop (pos + len) (splice out (pos - offset) dst) s
  else (.ok (), out, s)
termination_by stop - pos
decreasing_by
  have hin : pos % WINDOW < WINDOW := Nat.mod_lt _ (by decide)
  omega

/-- Reads file bytes from `offset` on into a buffer: how many, fewer only at the end of the file. -/
def read (v : Volume) (ino size offset : UInt64) (out : Bytes) (s : Scratch Workspace) :
    Except Error Nat × Bytes × Scratch Workspace :=
  if offset ≥ size then (.ok 0, out, s)
  else
    let stop := min size.toNat (offset.toNat + out.length)
    match v.readWindows hash D ino offset.toNat stop offset.toNat out s with
    | (.error e, out, s) => (.error e, out, s)
    | (.ok (), out, s) => (.ok (stop - offset.toNat), out, s)

/-- Where a file's bytes lie on the device when they need no decoding: the first block and the
length of the one raw extent that holds the file. -/
def contiguous (v : Volume) (ino size : UInt64) (s : Scratch Workspace) :
    Except Error (Option (UInt64 × Nat)) × Scratch Workspace :=
  if size = 0 ∨ size.toNat > WINDOW then (.ok none, s)
  else
    let key : Key := ⟨ino, KIND_EXTENT, 0⟩
    match seek hash v.dev v.sb v.subvolId key v.root none s.node with
    | (.error e, node) => (.error e, { s with node })
    | (.ok c, node) =>
      let s := { s with node }
      if c.index = c.count ∨ (leafItem node c.index).1 ≠ key then (.ok none, s)
      else
        match Extent.decode (leafItem node c.index).2 with
        | none => (.error (.corrupt v.root.block), s)
        | some (.inline _ _ _) => (.ok none, s)
        | some (.regular r) =>
          if r.compression ≠ .none ∨ r.len.toNat ≠ size.toNat then (.ok none, s)
          else if r.block.toNat < FIRST_FREE ∨
              r.block.toNat + r.blocks.toNat > v.sb.totalBlocks.toNat then
            (.error (.corrupt r.block), s)
          else
            match v.dev.read r.block r.blocks.toNat with
            | .error e => (.error e, s)
            | .ok b =>
              let s := { s with stored := overwrite s.stored b }
              if hash (s.stored.toList.take r.stored.toNat) ≠ r.hash then
                (.error (.checksum r.block), s)
              else (.ok (some (r.block, r.len.toNat)), s)

end Volume

end NanoChrono.Ncfs
