import Mathlib.Data.Prod.Lex
import Mathlib.Order.Basic
import NanoChrono.Buffer.Layout

/-! # The on-disk format

Blocks, keys, pointers and the superblock of a volume. Everything is little-endian and of a fixed
layout, and every structure is checked field by field when it is decoded. The hash that pointers and
superblocks carry is a parameter. -/

namespace NanoChrono.Ncfs

open Buffer

abbrev Bytes := List UInt8

/-- A BLAKE3 digest. -/
abbrev Hash := Vector UInt8 32

/-- The block size. -/
def BLOCK : Nat := 4096

/-- A superblock's magic. -/
def MAGIC : Bytes := [0x4E, 0x43, 0x46, 0x53, 0x1B, 0x00, 0x01, 0x00]

def VERSION : UInt32 := 1

/-- The signature area of a sealed volume. -/
def SIG_FIRST : Nat := 3

def SIG_BLOCKS : Nat := 16

/-- The first block the allocator may hand out. -/
def FIRST_FREE : Nat := SIG_FIRST + SIG_BLOCKS

/-- The smallest volume: 1 MiB. -/
def MIN_BLOCKS : Nat := 256

/-- Tree levels stay below this. -/
def MAX_LEVEL : Nat := 8

/-- The superblock's flag for a sealed, read-only image. -/
def FLAG_SEED : UInt64 := 1

def INCOMPAT_LZ4 : UInt64 := 1

def INCOMPAT_ZSTD : UInt64 := 2

/-- The incompatible features this code knows. -/
def INCOMPAT_KNOWN : UInt64 := INCOMPAT_LZ4 ||| INCOMPAT_ZSTD

/-- Why an LZ4 block does not decode. -/
inductive Lz4Error where
  | truncated | badDistance | overflow | short
deriving DecidableEq, Repr

/-- Why a Zstandard frame does not decode. -/
inductive ZstdError where
  | truncated | badMagic | reserved | dictionary | badBlock | badLiterals | badHuffman | badFse
  | badSequences | badOffset | overflow | short | checksum
deriving DecidableEq, Repr

/-- Why an operation failed. -/
inductive Error where
  | io
  | noSuperblock
  | unsupported
  /-- A block whose hash does not match the pointer to it. -/
  | checksum (block : UInt64)
  /-- A block or item that breaks the format. -/
  | corrupt (block : UInt64)
  | notFound
  | alreadyExists
  | notADirectory
  | isADirectory
  | notASymlink
  | notEmpty
  | invalidName
  | loop
  | noSpace
  | readOnly
  | tooBig
  | busy
  | lz4 (e : Lz4Error)
  | zstd (e : ZstdError)
deriving DecidableEq, Repr

/-! ## Integers -/

def rd16 (b : Bytes) (pos : Nat) : UInt16 := UInt16.ofNat (leValue (slice b pos 2))

def rd32 (b : Bytes) (pos : Nat) : UInt32 := UInt32.ofNat (leValue (slice b pos 4))

def rd64 (b : Bytes) (pos : Nat) : UInt64 := UInt64.ofNat (leValue (slice b pos 8))

/-- The byte at a position; past the end, where the code would stop, a zero. -/
def rd8 (b : Bytes) (pos : Nat) : UInt8 := b[pos]?.getD 0

def le16 (v : UInt16) : Bytes := leBytes 2 v.toNat

def le32 (v : UInt32) : Bytes := leBytes 4 v.toNat

def le64 (v : UInt64) : Bytes := leBytes 8 v.toNat

def wr16 (b : Bytes) (pos : Nat) (v : UInt16) : Bytes := splice b pos (le16 v)

def wr32 (b : Bytes) (pos : Nat) (v : UInt32) : Bytes := splice b pos (le32 v)

def wr64 (b : Bytes) (pos : Nat) (v : UInt64) : Bytes := splice b pos (le64 v)

def wr8 (b : Bytes) (pos : Nat) (v : UInt8) : Bytes := splice b pos [v]

/-- The `n` bytes at a position, as an array. -/
def rdArray (n : Nat) (b : Bytes) (pos : Nat) : Vector UInt8 n := Vector.ofFn fun i => rd8 b (pos + i)

@[simp] theorem length_le16 (v : UInt16) : (le16 v).length = 2 := length_leBytes 2 _

@[simp] theorem length_le32 (v : UInt32) : (le32 v).length = 4 := length_leBytes 4 _

@[simp] theorem length_le64 (v : UInt64) : (le64 v).length = 8 := length_leBytes 8 _

/-- A field read from its own bytes is the value. -/
theorem rd16_of_slice {b : Bytes} {pos : Nat} {v : UInt16} (h : slice b pos 2 = le16 v) :
    rd16 b pos = v := by
  have hv := v.toNat_lt
  rw [rd16, h, le16, leValue_leBytes_of_lt (by omega), UInt16.ofNat_toNat]

theorem rd32_of_slice {b : Bytes} {pos : Nat} {v : UInt32} (h : slice b pos 4 = le32 v) :
    rd32 b pos = v := by
  have hv := v.toNat_lt
  rw [rd32, h, le32, leValue_leBytes_of_lt (by omega), UInt32.ofNat_toNat]

theorem rd64_of_slice {b : Bytes} {pos : Nat} {v : UInt64} (h : slice b pos 8 = le64 v) :
    rd64 b pos = v := by
  have hv := v.toNat_lt
  rw [rd64, h, le64, leValue_leBytes_of_lt (by omega), UInt64.ofNat_toNat]

/-- The bytes of a field are those of the value read. -/
theorem slice_of_rd16 {b : Bytes} {pos : Nat} (h : pos + 2 ≤ b.length) :
    slice b pos 2 = le16 (rd16 b pos) := by
  have hlen : (slice b pos 2).length = 2 := by rw [length_slice]; omega
  have hlt := leValue_lt (slice b pos 2)
  rw [hlen] at hlt
  rw [le16, rd16, UInt16.toNat_ofNat_of_lt' (by simpa using hlt), leBytes_leValue hlen]

theorem slice_of_rd32 {b : Bytes} {pos : Nat} (h : pos + 4 ≤ b.length) :
    slice b pos 4 = le32 (rd32 b pos) := by
  have hlen : (slice b pos 4).length = 4 := by rw [length_slice]; omega
  have hlt := leValue_lt (slice b pos 4)
  rw [hlen] at hlt
  rw [le32, rd32, UInt32.toNat_ofNat_of_lt' (by simpa using hlt), leBytes_leValue hlen]

theorem slice_of_rd64 {b : Bytes} {pos : Nat} (h : pos + 8 ≤ b.length) :
    slice b pos 8 = le64 (rd64 b pos) := by
  have hlen : (slice b pos 8).length = 8 := by rw [length_slice]; omega
  have hlt := leValue_lt (slice b pos 8)
  rw [hlen] at hlt
  rw [le64, rd64, UInt64.toNat_ofNat_of_lt' (by simpa using hlt), leBytes_leValue hlen]

theorem rd8_of_slice {b : Bytes} {pos : Nat} {v : UInt8} (h : slice b pos 1 = [v]) :
    rd8 b pos = v := by
  have := congrArg (fun l => l[0]?) h
  rw [rd8]
  simpa [getElem?_slice] using congrArg (fun o => o.getD 0) this

theorem slice_of_rd8 {b : Bytes} {pos : Nat} (h : pos + 1 ≤ b.length) :
    slice b pos 1 = [rd8 b pos] := by
  apply List.ext_getElem?
  intro i
  rw [getElem?_slice, rd8]
  cases i with
  | zero => simp [List.getElem?_eq_getElem (show pos < b.length by omega)]
  | succ i => simp

theorem toList_rdArray {n : Nat} {b : Bytes} {pos : Nat} (h : pos + n ≤ b.length) :
    (rdArray n b pos).toList = slice b pos n := by
  apply List.ext_getElem?
  intro i
  rw [getElem?_slice]
  by_cases hi : i < n
  · simp [rdArray, rd8, hi, List.getElem?_eq_getElem (show pos + i < b.length by omega)]
  · simp [rdArray, hi]

theorem rdArray_of_slice {n : Nat} {b : Bytes} {pos : Nat} {v : Vector UInt8 n}
    (h : slice b pos n = v.toList) : rdArray n b pos = v := by
  apply Vector.ext
  intro i hi
  have := congrArg (fun l => l[i]?) h
  simp only [getElem?_slice, if_pos hi] at this
  simp [rdArray, rd8, this, hi]

/-- Bytes that pass the check for zeros are zeros. -/
theorem eq_replicate_zero {b : Bytes} (h : ¬ b.any (· ≠ 0) = true) :
    b = List.replicate b.length 0 := by
  apply List.eq_replicate_of_mem
  intro x hx
  by_contra hne
  exact h (List.any_eq_true.2 ⟨x, hx, decide_eq_true hne⟩)

/-! ## Pointers -/

/-- A pointer to a tree node: where it is, when it was written, its hash and its level. -/
structure Ptr where
  block : UInt64
  gen : UInt64
  hash : Hash
  level : UInt8
deriving DecidableEq, Repr

namespace Ptr

def read (b : Bytes) (pos : Nat) : Ptr :=
  { block := rd64 b pos, gen := rd64 b (pos + 8), hash := rdArray 32 b (pos + 16),
    level := rd8 b (pos + 48) }

/-- What writing a pointer at a position puts where. -/
def fields (p : Ptr) (pos : Nat) : List (Piece UInt8) :=
  [(pos, le64 p.block), (pos + 8, le64 p.gen), (pos + 16, p.hash.toList), (pos + 48, [p.level])]

/-- A pointer is read from its own fields. -/
theorem read_of_fields {b : Bytes} {p : Ptr} {pos : Nat}
    (h : ∀ f ∈ p.fields pos, slice b f.1 f.2.length = f.2) : read b pos = p := by
  have hblock : rd64 b pos = p.block := by
    apply rd64_of_slice
    simpa using h (pos, le64 p.block) (by simp [fields])
  have hgen : rd64 b (pos + 8) = p.gen := by
    apply rd64_of_slice
    simpa using h (pos + 8, le64 p.gen) (by simp [fields])
  have hhash : rdArray 32 b (pos + 16) = p.hash := by
    apply rdArray_of_slice
    simpa using h (pos + 16, p.hash.toList) (by simp [fields])
  have hlevel : rd8 b (pos + 48) = p.level := by
    apply rd8_of_slice
    simpa using h (pos + 48, [p.level]) (by simp [fields])
  rw [read, hblock, hgen, hhash, hlevel]

end Ptr

/-! ## Extents

An extent is one window of a file: its bytes, maybe compressed, in the item itself or in blocks of
their own. What an item decodes to stays within the window and the blocks it names. -/

/-- File bytes are kept in windows of this size. -/
def WINDOW : Nat := 128 * 1024

def WINDOW_BLOCKS : Nat := WINDOW / BLOCK

/-- The most bytes an extent keeps in its item. -/
def INLINE_MAX : Nat := 2048

def EXTENT_HEADER : Nat := 8

def REGION_LEN : Nat := EXTENT_HEADER + 56

/-- How an extent's bytes are stored. -/
inductive Compression where
  | none | lz4 | zstd
deriving DecidableEq, Repr

def Compression.fromU8 (v : UInt8) : Option Compression :=
  if v = 0 then some .none else if v = 1 then some .lz4 else if v = 2 then some .zstd else .none

/-- Where a regular extent's bytes are, and what they must hash to. -/
structure Region where
  compression : Compression
  /-- Bytes of file content. -/
  len : UInt32
  block : UInt64
  blocks : UInt32
  /-- Bytes stored in the blocks. -/
  stored : UInt32
  birth : UInt64
  hash : Hash
deriving DecidableEq, Repr

/-- An extent: stored in the item itself, or in blocks of its own. -/
inductive Extent where
  | inline (compression : Compression) (len : UInt32) (data : Bytes)
  | regular (r : Region)
deriving DecidableEq, Repr

namespace Extent

/-- The extent of a file's window that an item holds. -/
def decode (b : Bytes) : Option Extent :=
  if b.length < EXTENT_HEADER ∨ rd16 b 2 ≠ 0 then none
  else
    match Compression.fromU8 (rd8 b 1) with
    | none => none
    | some compression =>
      let len := rd32 b 4
      if len = 0 ∨ len.toNat > WINDOW then none
      else if rd8 b 0 = 0 then
        let data := b.drop EXTENT_HEADER
        if data.length > INLINE_MAX ∨ (compression = .none ∧ data.length ≠ len.toNat) then none
        else some (.inline compression len data)
      else if rd8 b 0 = 1 then
        if b.length ≠ REGION_LEN then none
        else
          let r : Region :=
            { compression, len, block := rd64 b 8, blocks := rd32 b 16, stored := rd32 b 20,
              birth := rd64 b 24, hash := rdArray 32 b 32 }
          if r.blocks = 0 ∨ r.blocks.toNat > WINDOW_BLOCKS then none
          else
            -- exactly as many blocks as the stored bytes need
            let fits := r.stored.toNat ≤ r.blocks.toNat * BLOCK ∧
              r.stored.toNat > (r.blocks.toNat - 1) * BLOCK
            if ¬ fits ∨ (compression = .none ∧ r.stored ≠ len) then none
            else some (.regular r)
      else none

/-- The bytes of file content an extent holds. -/
@[grind =] def len : Extent → UInt32
  | inline _ len _ => len
  | regular r => r.len

/-- What an extent keeps within the reader's buffers. -/
def Fits : Extent → Prop
  | inline _ len data => len.toNat ≤ WINDOW ∧ data.length ≤ WINDOW
  | regular r => r.len.toNat ≤ WINDOW ∧ r.stored.toNat ≤ r.blocks.toNat * BLOCK ∧
      r.blocks.toNat * BLOCK ≤ WINDOW

/-- A decoded extent fits the reader's buffers. -/
theorem fits_of_decode {b : Bytes} {e : Extent} (h : decode b = some e) : e.Fits := by
  have hinline : INLINE_MAX ≤ WINDOW := by decide
  rw [decode] at h
  split at h
  · cases h
  split at h
  · cases h
  dsimp only at h
  split at h
  · cases h
  rename_i hlen
  obtain ⟨-, hlen⟩ := not_or.1 hlen
  split at h
  · split at h
    · cases h
    rename_i hdata
    obtain rfl := Option.some.inj h
    exact ⟨by omega, by omega⟩
  · split at h
    · split at h
      · cases h
      split at h
      · cases h
      rename_i hblocks
      obtain ⟨-, hblocks⟩ := not_or.1 hblocks
      split at h
      · cases h
      rename_i hfits
      obtain ⟨hfits, -⟩ := not_or.1 hfits
      obtain rfl := Option.some.inj h
      obtain ⟨hstored, -⟩ := not_not.1 hfits
      refine ⟨Nat.le_of_not_lt hlen, hstored, ?_⟩
      calc _ ≤ WINDOW_BLOCKS * BLOCK := Nat.mul_le_mul_right _ (Nat.le_of_not_lt hblocks)
        _ ≤ WINDOW := by decide
    · cases h

end Extent

/-! ## Inodes and names

What a subvolume's tree holds of a file: its inode, and the names of directories, filed under their
hashes. -/

/-- The longest name. -/
def NAME_MAX : Nat := 255

/-- The root directory's inode. -/
def ROOT_INO : UInt64 := 1

/-! ## Kinds of items and of files -/

def KIND_INODE : UInt8 := 1

def KIND_DIRENT : UInt8 := 2

def DT_DIR : UInt8 := 4

def DT_LNK : UInt8 := 10

/-- The bits of a mode that say what a file is. -/
def S_IFMT : UInt32 := 0o170000

def S_IFLNK : UInt32 := 0o120000

def S_IFDIR : UInt32 := 0o040000

/-! ## Inodes -/

structure Inode where
  mode : UInt32
  uid : UInt32
  gid : UInt32
  nlink : UInt32
  size : UInt64
  atime : Int64
  mtime : Int64
  ctime : Int64
  btime : Int64
  flags : UInt64
  generation : UInt64
  /-- A directory's parent. -/
  parent : UInt64
  /-- A directory's next index sequence number. -/
  nextIndex : UInt64
  rdev : UInt64
  /-- Bytes its extents occupy on disk. -/
  diskBytes : UInt64
deriving DecidableEq, Repr

def INODE_LEN : Nat := 112

namespace Inode

/-- The inode an item holds. -/
def decode (b : Bytes) : Option Inode :=
  if b.length ≠ INODE_LEN ∨ (b.drop 104).any (· ≠ 0) then none
  else
    some
      { mode := rd32 b 0, uid := rd32 b 4, gid := rd32 b 8, nlink := rd32 b 12, size := rd64 b 16,
        atime := (rd64 b 24).toInt64, mtime := (rd64 b 32).toInt64, ctime := (rd64 b 40).toInt64,
        btime := (rd64 b 48).toInt64, flags := rd64 b 56, generation := rd64 b 64,
        parent := rd64 b 72, nextIndex := rd64 b 80, rdev := rd64 b 88, diskBytes := rd64 b 96 }

def isDir (i : Inode) : Bool := i.mode &&& S_IFMT == S_IFDIR

def isSymlink (i : Inode) : Bool := i.mode &&& S_IFMT == S_IFLNK

end Inode

/-! ## Directory entries -/

def SLASH : UInt8 := 0x2F

/-- The name of a directory in itself. -/
def DOT : Bytes := [0x2E]

/-- The name of a directory's parent in it. -/
def DOT_DOT : Bytes := [0x2E, 0x2E]

/-- Whether a directory may hold a name. -/
def validName (name : Bytes) : Bool :=
  name ≠ [] && name.length ≤ NAME_MAX && name ≠ DOT && name ≠ DOT_DOT &&
    !name.any fun c => c == SLASH || c == 0

/-- One of the names filed under one hash. -/
structure Dirent where
  child : UInt64
  /-- Its sequence number in the directory's index. -/
  seq : UInt64
  dtype : UInt8
  name : Bytes
deriving DecidableEq, Repr

def DIRENT_FIXED : Nat := 18

/-- The records of a directory-entry item, up to the first that is broken. -/
def dirents (b : Bytes) : List (Option Dirent) :=
  if b = [] then []
  else if b.length < DIRENT_FIXED then [none]
  else
    let n := (rd8 b 17).toNat
    if b.length < DIRENT_FIXED + n then [none]
    else
      let d : Dirent :=
        { child := rd64 b 0, seq := rd64 b 8, dtype := rd8 b 16, name := slice b DIRENT_FIXED n }
      if validName d.name then some d :: dirents (b.drop (DIRENT_FIXED + n)) else [none]
termination_by b.length
decreasing_by
  have hfixed : 0 < DIRENT_FIXED := by decide
  rw [List.length_drop]
  omega

/-- Looks for a name among records; a broken one ends the search. -/
def findName (name : Bytes) : List (Option Dirent) → Option (Option Dirent)
  | [] => some none
  | none :: _ => none
  | some d :: ds => if d.name = name then some (some d) else findName name ds

end NanoChrono.Ncfs
