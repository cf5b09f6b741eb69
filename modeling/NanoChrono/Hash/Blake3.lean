import Mathlib.Tactic
import NanoChrono.Hash.Bits
import NanoChrono.Hash.Blocks
import NanoChrono.Hash.Merge

/-! # BLAKE3

Seven rounds over a 64-byte block, 1 KiB chunks, chunks joined as a binary tree, hashed incrementally:
a block or a chunk that is full waits until there is more, since the last one is treated apart, and
complete subtrees wait on a stack for their right siblings. `Spec` is BLAKE3 as its paper defines it, over
the whole input. -/

namespace NanoChrono.Hash

namespace Blake3

open Buffer

abbrev Bytes := List UInt8

def OUT_LEN : Nat := 32

def KEY_LEN : Nat := 32

def BLOCK_LEN : Nat := 64

/-- Chunk length in bytes: the leaves of the tree. -/
def CHUNK_LEN : Nat := 1024

def CHUNK_START : UInt32 := (1 : UInt32) <<< 0

def CHUNK_END : UInt32 := (1 : UInt32) <<< 1

def PARENT : UInt32 := (1 : UInt32) <<< 2

def ROOT : UInt32 := (1 : UInt32) <<< 3

def KEYED_HASH : UInt32 := (1 : UInt32) <<< 4

def DERIVE_KEY_CONTEXT : UInt32 := (1 : UInt32) <<< 5

def DERIVE_KEY_MATERIAL : UInt32 := (1 : UInt32) <<< 6

/-- A chaining value or a key. -/
abbrev Cv := Fin 8 → UInt32

/-- A key as it is given. -/
abbrev Key := { key : Bytes // key.length = KEY_LEN }

/-- The state of the compression function, or a message block. -/
abbrev Words := Fin 16 → UInt32

/-- SHA-256's initial hash value, which BLAKE3 takes as its IV. -/
def IV : Cv := fun i =>
  [0x6A09E667, 0xBB67AE85, 0x3C6EF372, 0xA54FF53A, 0x510E527F, 0x9B05688C, 0x1F83D9AB, 0x5BE0CD19].getD
    i.val 0

/-- How the message words are reordered between rounds. -/
def PERMUTATION (i : Fin 16) : Fin 16 := [2, 6, 3, 10, 7, 0, 4, 13, 1, 11, 12, 5, 9, 14, 15, 8].getD i.val 0

def rotateRight (x n : UInt32) : UInt32 := x >>> n ||| x <<< (32 - n)

/-- The quarter-round: mixes column or diagonal `a b c d` with two message words. -/
def g (s : Words) (a b c d : Fin 16) (x y : UInt32) : Words :=
  let s := Function.update s a (s a + s b + x)
  let s := Function.update s d (rotateRight (s d ^^^ s a) 16)
  let s := Function.update s c (s c + s d)
  let s := Function.update s b (rotateRight (s b ^^^ s c) 12)
  let s := Function.update s a (s a + s b + y)
  let s := Function.update s d (rotateRight (s d ^^^ s a) 8)
  let s := Function.update s c (s c + s d)
  Function.update s b (rotateRight (s b ^^^ s c) 7)

def round (s m : Words) : Words :=
  -- the columns
  let s := g s 0 4 8 12 (m 0) (m 1)
  let s := g s 1 5 9 13 (m 2) (m 3)
  let s := g s 2 6 10 14 (m 4) (m 5)
  let s := g s 3 7 11 15 (m 6) (m 7)
  -- the diagonals
  let s := g s 0 5 10 15 (m 8) (m 9)
  let s := g s 1 6 11 12 (m 10) (m 11)
  let s := g s 2 7 8 13 (m 12) (m 13)
  g s 3 4 9 14 (m 14) (m 15)

/-- The state before the first round. -/
def start (cv : Cv) (counter : Nat) (blockLen flags : UInt32) : Words := fun i =>
  if h : i.val < 8 then cv ⟨i.val, h⟩
  else if h : i.val < 12 then IV ⟨i.val - 8, by omega⟩
  else if i = 12 then UInt32.ofNat counter
  else if i = 13 then UInt32.ofNat (counter / 2 ^ 32)
  else if i = 14 then blockLen
  else flags

/-- The compression function: a chaining value and one block in, sixteen words out. -/
def compress (cv : Cv) (block : Words) (counter : Nat) (blockLen flags : UInt32) : Words :=
  let s := ((List.range 7).foldl (fun (s : Words × Words) r =>
    (round s.1 s.2, if r < 6 then fun i => s.2 (PERMUTATION i) else s.2))
    (start cv counter blockLen flags, block)).1
  fun i => if h : i.val < 8 then s i ^^^ s ⟨i.val + 8, by omega⟩ else s i ^^^ cv ⟨i.val - 8, by omega⟩

def first8 (w : Words) : Cv := fun i => w ⟨i.val, by omega⟩

/-- Puts bytes into words from a byte offset on. -/
@[grind =] def fillWords (w : Words) (pos : Nat) : Bytes → Words
  | [] => w
  | b :: bytes =>
    let i := Fin.ofNat 16 (pos / 4)
    fillWords (Function.update w i (w i ||| b.toUInt32 <<< UInt32.ofNat (8 * (pos % 4)))) (pos + 1) bytes

/-- Little-endian words from up to 64 bytes; the rest of the block is zero. -/
def words (bytes : Bytes) : Words := fillWords (fun _ => 0) 0 (bytes.take BLOCK_LEN)

def keyWords (key : Bytes) : Cv := first8 (words key)

/-- What one more compression would produce: kept unevaluated so the last node can still become the
root. -/
structure Output where
  cv : Cv
  block : Words
  counter : Nat
  blockLen : UInt32
  flags : UInt32

namespace Output

def chainingValue (o : Output) : Cv := first8 (compress o.cv o.block o.counter o.blockLen o.flags)

/-- The bytes of a root's output block. -/
def rootBlock (o : Output) (counter : Nat) : Bytes :=
  (List.finRange 16).flatMap fun i =>
    leBytes 4 (compress o.cv o.block counter o.blockLen (o.flags ||| ROOT) i).toNat

/-- The next `n` bytes of output, `skip` bytes into an output block. -/
def rootBlocks (o : Output) (n counter : Nat) (skip : Fin 64) : Bytes :=
  if _h : n = 0 then []
  else
    let take := min (2 * OUT_LEN - skip.val) n
    ((o.rootBlock counter).drop skip.val).take take ++ rootBlocks o (n - take) (counter + 1) 0
termination_by n
decreasing_by
  have hout : OUT_LEN = 32 := rfl
  omega

/-- The root's output: 64 bytes per output block, counted from `seek / 64`. -/
def rootBytes (o : Output) (seek n : Nat) : Bytes :=
  o.rootBlocks n (seek / (2 * OUT_LEN)) (Fin.ofNat 64 (seek % (2 * OUT_LEN)))

end Output

/-- The chunk being filled: up to sixteen blocks. -/
structure Chunk where
  cv : Cv
  counter : Nat
  /-- The bytes of the block being filled. -/
  block : Bytes
  block_le : block.length ≤ BLOCK_LEN
  blocksDone : Nat
  flags : UInt32

namespace Chunk

def new (key : Cv) (counter : Nat) (flags : UInt32) : Chunk :=
  { cv := key, counter, block := [], block_le := Nat.zero_le _, blocksDone := 0, flags }

def len (c : Chunk) : Nat := BLOCK_LEN * c.blocksDone + c.block.length

@[simp] theorem len_new (key : Cv) (counter : Nat) (flags : UInt32) :
    (new key counter flags).len = 0 := rfl

def startFlag (c : Chunk) : UInt32 := if c.blocksDone = 0 then CHUNK_START else 0

/-- Compresses the block being filled if it is full: there is more, so it is not the chunk's end. -/
def flush (c : Chunk) : Chunk :=
  if c.block.length = BLOCK_LEN then
    { c with
      cv := first8 (compress c.cv (words c.block) c.counter (UInt32.ofNat BLOCK_LEN)
        (c.flags ||| c.startFlag))
      block := []
      block_le := Nat.zero_le _
      blocksDone := c.blocksDone + 1 }
  else c

theorem flush_lt (c : Chunk) : c.flush.block.length < BLOCK_LEN := by
  rw [flush]
  split
  · show 0 < BLOCK_LEN
    decide
  · exact lt_of_le_of_ne c.block_le ‹_›

def update (c : Chunk) (input : Bytes) : Chunk :=
  if _h : input = [] then c
  else
    let f := c.flush
    let take := min (BLOCK_LEN - f.block.length) input.length
    update
      { f with
        block := f.block ++ input.take take
        block_le := by
          have hlt : f.block.length < BLOCK_LEN := c.flush_lt
          rw [List.length_append, List.length_take]
          omega }
      (input.drop take)
termination_by input.length
decreasing_by
  have hlt := c.flush_lt
  have hpos := List.length_pos_of_ne_nil _h
  rw [List.length_drop]
  omega

def output (c : Chunk) : Output :=
  { cv := c.cv, block := words c.block, counter := c.counter, blockLen := UInt32.ofNat c.block.length,
    flags := c.flags ||| c.startFlag ||| CHUNK_END }

theorem len_flush (c : Chunk) : c.flush.len = c.len := by
  rw [flush]
  split
  case isTrue h =>
    simp only [len, List.length_nil, h]
    rw [Nat.mul_succ, Nat.add_zero]
  case isFalse => rfl

/-- A chunk's length counts what came in. -/
theorem len_update (c : Chunk) (input : Bytes) : (c.update input).len = c.len + input.length := by
  fun_induction update c input with
  | case1 c => simp
  | case2 c input hne f take ih =>
    have hflush : f.len = c.len := len_flush c
    have htake : (input.take take).length = take := by
      rw [List.length_take]
      exact min_eq_left (min_le_right _ _)
    have hle : take ≤ input.length := min_le_right _ _
    rw [ih, List.length_drop]
    simp only [len] at hflush ⊢
    rw [List.length_append, htake]
    omega

end Chunk

def parent (left right key : Cv) (flags : UInt32) : Output :=
  { cv := key
    block := fun i => if h : i.val < 8 then left ⟨i.val, h⟩ else right ⟨i.val - 8, by omega⟩
    counter := 0
    blockLen := UInt32.ofNat BLOCK_LEN
    flags := PARENT ||| flags }

/-- An incremental BLAKE3: plain, keyed or deriving a key. -/
structure Hasher where
  chunk : Chunk
  key : Cv
  /-- The chaining values of the completed subtrees on the tree's left edge, the last one first. -/
  stack : List Cv
  flags : UInt32
  chunk_le : chunk.len ≤ CHUNK_LEN

/-- The slots of the stack. -/
def SLOTS : Nat := 54

namespace Hasher

/-- A hasher with a key and the flags of its mode. -/
def make (key : Cv) (flags : UInt32) : Hasher :=
  { chunk := Chunk.new key 0 flags, key, stack := [], flags, chunk_le := by simp }

/-- The stack after one more chunk, `none` where it would run empty or past its slots. -/
def addChunkCv (h : Hasher) (cv : Cv) (total : Nat) : Option (List Cv) := do
  let stack ← pushed Output.chainingValue (fun left right => parent left right h.key h.flags) total cv
    h.stack
  if stack.length ≤ SLOTS then some stack else none

/-- Finishes the chunk if it is full: there is more, so it is not the root. -/
def flush (h : Hasher) : Option { f : Hasher // f.chunk.len < CHUNK_LEN } :=
  if hfull : h.chunk.len = CHUNK_LEN then do
    let total := h.chunk.counter + 1
    let stack ← h.addChunkCv h.chunk.output.chainingValue total
    some ⟨{ h with stack, chunk := Chunk.new h.key total h.flags, chunk_le := by simp },
      by simp [CHUNK_LEN]⟩
  else some ⟨h, lt_of_le_of_ne h.chunk_le hfull⟩

/-- Takes more input, `none` where the stack's bounds would be left. -/
def update (h : Hasher) (input : Bytes) : Option Hasher :=
  if _h : input = [] then some h
  else
    h.flush.bind fun f =>
      let take := min (CHUNK_LEN - f.1.chunk.len) input.length
      update
        { f.1 with
          chunk := f.1.chunk.update (input.take take)
          chunk_le := by
            have hlt : f.1.chunk.len < CHUNK_LEN := f.2
            rw [Chunk.len_update, List.length_take]
            omega }
        (input.drop take)
termination_by input.length
decreasing_by
  have hlt := f.2
  have hpos := List.length_pos_of_ne_nil _h
  rw [List.length_drop]
  omega

def root (h : Hasher) : Output :=
  h.stack.foldl (fun out left => parent left out.chainingValue h.key h.flags) h.chunk.output

/-- Output of any length, from byte `seek` of the output stream on. -/
def finalizeXof (h : Hasher) (seek n : Nat) : Bytes := h.root.rootBytes seek n

/-- The 32-byte digest. -/
def finalize (h : Hasher) : Bytes := h.root.rootBytes 0 OUT_LEN

/-- Plain hashing. -/
def new : Hasher := make IV 0

/-- Keyed hashing. -/
def newKeyed (key : Key) : Hasher := make (keyWords key.1) KEYED_HASH

/-- Key derivation, for a context. -/
def newDeriveKey (context : Bytes) : Option Hasher := do
  let h ← (make IV DERIVE_KEY_CONTEXT).update context
  some (make (keyWords (h.finalizeXof 0 KEY_LEN)) DERIVE_KEY_MATERIAL)

end Hasher

/-! ## The definition

`G` on the columns of a four by four matrix of words and then on its diagonals, a chunk's chaining value
block by block, the tree over the chunks, the root compressed once for each block of output. -/

namespace Spec

/-- `G` on four words. -/
def G (a b c d x y : UInt32) : Fin 4 → UInt32 :=
  let a₁ := a + b + x
  let d₁ := rotateRight (d ^^^ a₁) 16
  let c₁ := c + d₁
  let b₁ := rotateRight (b ^^^ c₁) 12
  let a₂ := a₁ + b₁ + y
  let d₂ := rotateRight (d₁ ^^^ a₂) 8
  let c₂ := c₁ + d₂
  let b₂ := rotateRight (b₁ ^^^ c₂) 7
  ![a₂, b₂, c₂, d₂]

/-- Row `r` and column `c` of the matrix. -/
def entry (r c : Nat) : Fin 16 := Fin.ofNat 16 (4 * (r % 4) + c % 4)

/-- `G` on each column. -/
def columns (v m : Words) : Words := fun i =>
  let k := i.val % 4
  G (v (entry 0 k)) (v (entry 1 k)) (v (entry 2 k)) (v (entry 3 k)) (m (Fin.ofNat 16 (2 * k)))
    (m (Fin.ofNat 16 (2 * k + 1))) (Fin.ofNat 4 (i.val / 4))

/-- `G` on each diagonal: the one that starts in column `k` goes right as it goes down. -/
def diagonals (v m : Words) : Words := fun i =>
  let k := (i.val % 4 + 4 - i.val / 4) % 4
  G (v (entry 0 k)) (v (entry 1 (k + 1))) (v (entry 2 (k + 2))) (v (entry 3 (k + 3)))
    (m (Fin.ofNat 16 (8 + 2 * k))) (m (Fin.ofNat 16 (8 + 2 * k + 1))) (Fin.ofNat 4 (i.val / 4))

/-- The compression function: round `r` takes the message words permuted `r` times. -/
def compress (h : Cv) (m : Words) (t : Nat) (b d : UInt32) : Words :=
  let v := (List.range 7).foldl
    (fun v r =>
      let mr : Words := fun i => m (PERMUTATION^[r] i)
      diagonals (columns v mr) mr)
    ![h 0, h 1, h 2, h 3, h 4, h 5, h 6, h 7, IV 0, IV 1, IV 2, IV 3,
      UInt32.ofNat t, UInt32.ofNat (t / 2 ^ 32), b, d]
  fun i => if i.val < 8 then v i ^^^ v (i + 8) else v i ^^^ h (Fin.ofNat 8 (i.val - 8))

/-- The words of a block, little-endian, zero where it has ended. -/
def blockWords (b : Bytes) : Words := fun i => UInt32.ofNat (leValue (slice b (4 * i.val) 4))

/-- A node before it is compressed: as an inner node for its chaining value, as the root for output. -/
structure Node where
  h : Cv
  m : Words
  t : Nat
  b : UInt32
  d : UInt32

def Node.cv (n : Node) : Cv := fun i => compress n.h n.m n.t n.b n.d (Fin.ofNat 16 i.val)

/-- The number of parts of `size` bytes a message has, one if it is empty. -/
def parts (size len : Nat) : Nat := max 1 ((len + size - 1) / size)

/-- The flag of a chunk's first block. -/
def startFlag (j : Nat) : UInt32 := if j = 0 then CHUNK_START else 0

/-- The chaining value that block `j` of chunk `t` takes. -/
@[grind =] def chunkCv (key : Cv) (flags : UInt32) (t : Nat) (data : Bytes) : Nat → Cv
  | 0 => key
  | j + 1 =>
    Node.cv
      { h := chunkCv key flags t data j
        m := blockWords (slice data (BLOCK_LEN * j) BLOCK_LEN)
        t
        b := UInt32.ofNat BLOCK_LEN
        d := flags ||| startFlag j }

/-- Chunk `t`: its last block. -/
def chunk (key : Cv) (flags : UInt32) (t : Nat) (data : Bytes) : Node :=
  let j := parts BLOCK_LEN data.length - 1
  let block := slice data (BLOCK_LEN * j) BLOCK_LEN
  { h := chunkCv key flags t data j
    m := blockWords block
    t
    b := UInt32.ofNat block.length
    d := flags ||| startFlag j ||| CHUNK_END }

/-- The parent of two subtrees. -/
def parent (key : Cv) (flags : UInt32) (left right : Cv) : Node :=
  { h := key
    m := fun i => if i.val < 8 then left (Fin.ofNat 8 i.val) else right (Fin.ofNat 8 (i.val - 8))
    t := 0
    b := UInt32.ofNat BLOCK_LEN
    d := PARENT ||| flags }

/-- Chunk `t` of a message. -/
def leaf (key : Cv) (flags : UInt32) (message : Bytes) (t : Nat) : Node :=
  chunk key flags t (slice message (CHUNK_LEN * t) CHUNK_LEN)

/-- The root over a message's chunks. -/
def root (key : Cv) (flags : UInt32) (message : Bytes) : Node :=
  tree (leaf key flags message) Node.cv (parent key flags) 0 (parts CHUNK_LEN message.length)

/-- Byte `p` of the output: the root is compressed once for each 64 bytes. -/
def outputByte (n : Node) (p : Nat) : UInt8 :=
  let w := compress n.h n.m (p / 64) n.b (n.d ||| ROOT) (Fin.ofNat 16 (p % 64 / 4))
  UInt8.ofNat (w.toNat / 256 ^ (p % 4))

/-- `n` bytes of output from byte `seek` on. -/
def hash (key : Cv) (flags : UInt32) (message : Bytes) (seek n : Nat) : Bytes :=
  (List.range n).map fun i => outputByte (root key flags message) (seek + i)

/-- A key's words. -/
def key (k : Bytes) : Cv := fun i => UInt32.ofNat (leValue (slice k (4 * i.val) 4))

end Spec

/-- What a hasher is for. -/
inductive Mode where
  | plain
  | keyed (key : Key)
  | deriveKey (context : Bytes)

namespace Spec

/-- A mode's key: a derived key is the hash of its context. -/
def modeKey : Mode → Cv
  | .plain => IV
  | .keyed k => key k.1
  | .deriveKey context => key (hash IV DERIVE_KEY_CONTEXT context 0 KEY_LEN)

def modeFlags : Mode → UInt32
  | .plain => 0
  | .keyed _ => KEYED_HASH
  | .deriveKey _ => DERIVE_KEY_MATERIAL

/-- BLAKE3: `n` bytes of extended output from byte `seek` on. -/
def blake3 (mode : Mode) (message : Bytes) (seek n : Nat) : Bytes :=
  hash (modeKey mode) (modeFlags mode) message seek n

end Spec

end Blake3

end NanoChrono.Hash
