import Mathlib.Tactic
import NanoChrono.Lz4.Copies

/-! # LZ4 blocks

The compressor and the decoder of one block, as the code runs them. A buffer lent for output is a list of
its length whose first bytes have been written; an index is taken with the proof that it is in range. The
compressor gives `none` when the block does not fit, the decoder the reason it refuses one. -/

namespace NanoChrono.Lz4

open Buffer Lz

/-- The shortest match a block can encode. -/
def minMatch : Nat := 4

/-- The farthest back a match may reach. -/
def maxDistance : Nat := 65535

/-- The last five bytes of a block are always literals. -/
def lastLiterals : Nat := 5

/-- How far before the end the last match starts. -/
def mfLimit : Nat := 12

/-- Entries in the compressor's table. -/
def tableLen : Nat := 2 ^ 12

/-- What `usize` holds. -/
def usizeBound : Nat := 2 ^ 64

/-- The largest block `n` input bytes can compress to. -/
def bound (n : Nat) : Nat := n + n / 255 + 16

/-- Why a block was refused. -/
inductive Error where
  /-- The block ends inside a sequence. -/
  | truncated
  /-- A distance of zero, or one reaching before the start of the output. -/
  | badDistance
  /-- More output than the buffer holds. -/
  | overflow
  /-- Less output than the extent declared. -/
  | short
  deriving DecidableEq, Repr

/-! ## Compressing -/

/-- Positions of recent four-byte sequences, by their hash. -/
abbrev Table := Vector UInt32 tableLen

/-- The four bytes at `i`, which are in range. -/
def read32 (b : List UInt8) (i : Nat) (_h : i + 4 ≤ b.length) : Nat := leValue (slice b i 4)

/-- The slot of four bytes. -/
def hash (v : Nat) : Nat := v * 2654435761 % 2 ^ 32 / 2 ^ 20

theorem hash_lt (v : Nat) : hash v < tableLen := by
  rw [hash, tableLen]
  omega

/-- A buffer lent for output and how much of it is written. -/
structure Writer where
  out : List UInt8
  pos : Nat
  deriving Repr

namespace Writer

def byte (w : Writer) (b : UInt8) : Option Writer :=
  if w.pos < w.out.length then some ⟨w.out.set w.pos b, w.pos + 1⟩ else none

def bytes (w : Writer) (b : List UInt8) : Option Writer :=
  if w.pos + b.length ≤ w.out.length then
    some ⟨splice w.out w.pos b, w.pos + b.length⟩
  else none

/-- The bytes past a nibble's 15: 255s, then the remainder. -/
def length (w : Writer) (n : Nat) : Option Writer :=
  if h : 255 ≤ n then (w.byte 255).bind fun w => w.length (n - 255) else w.byte (UInt8.ofNat n)
termination_by n

/-- Token, literals and, unless this is the last sequence, the match. -/
def sequence (w : Writer) (literals : List UInt8) (distance : Nat) (matched : Option Nat) :
    Option Writer :=
  let lit := literals.length
  let ml := matched.elim 0 (· - minMatch)
  (w.byte (UInt8.ofNat (16 * min lit 15 + min ml 15))).bind fun w =>
  (if 15 ≤ lit then w.length (lit - 15) else some w).bind fun w =>
  (w.bytes literals).bind fun w =>
  if matched.isSome then
    (w.bytes (leBytes 2 distance)).bind fun w => if 15 ≤ ml then w.length (ml - 15) else some w
  else some w

end Writer

/-- Whether the candidate's four bytes are those at `ip`, and near enough. -/
def found (input : List UInt8) (ip cand : Nat) (h : ip + 4 ≤ input.length) : Bool :=
  if hc : cand < ip then
    decide (ip - cand ≤ maxDistance) && read32 input cand (by omega) == read32 input ip h
  else false

theorem found_lt {input : List UInt8} {ip cand : Nat} {h : ip + 4 ≤ input.length}
    (hf : found input ip cand h = true) : cand < ip := by
  rw [found] at hf
  split at hf
  · assumption
  · cases hf

/-- Back over literals not yet written. -/
@[grind =] def back (input : List UInt8) (anchor : Nat) :
    (s c : Nat) → s ≤ input.length → c ≤ input.length → Nat × Nat
  | s + 1, c + 1, hs, hc =>
    if anchor < s + 1 ∧ input[s] = input[c] then back input anchor s c (by omega) (by omega)
    else (s + 1, c + 1)
  | s, c, _, _ => (s, c)

/-- Forward up to the last literals: where the match ends. -/
def forward (input : List UInt8) (limit : Nat) (e ce : Nat) (hlimit : limit ≤ input.length)
    (hce : ce < e) : Nat :=
  if h : e < limit then
    if input[e] = input[ce] then forward input limit (e + 1) (ce + 1) hlimit (by omega) else e
  else e
termination_by limit - e

theorem le_forward (input : List UInt8) (limit : Nat) (e ce : Nat) (hlimit : limit ≤ input.length)
    (hce : ce < e) : e ≤ forward input limit e ce hlimit hce := by
  fun_induction forward input limit e ce hlimit hce with
  | case1 e ce hce h heq ih => omega
  | case2 => exact le_rfl
  | case3 => exact le_rfl

theorem forward_le (input : List UInt8) (limit : Nat) (e ce : Nat) (hlimit : limit ≤ input.length)
    (hce : ce < e) (h : e ≤ limit) : forward input limit e ce hlimit hce ≤ limit := by
  fun_induction forward input limit e ce hlimit hce with
  | case1 e ce hce hlt heq ih => exact ih hlt
  | case2 => exact h
  | case3 => exact h

/-- The compressor's loop from `ip`, with the literals from `anchor` not yet written: the writer after
the last match, and the literals left. -/
def scan (input : List UInt8) (hn : mfLimit < input.length) (ip anchor misses : Nat) (table : Table)
    (w : Writer) : Option (Writer × Nat × Table) :=
  if h : ip ≤ input.length - mfLimit then
    have hin : ip + 12 ≤ input.length := by
      rw [mfLimit] at hn h
      omega
    let v := read32 input ip (by omega)
    let cand := (table.get ⟨hash v, hash_lt v⟩).toNat
    let table := table.set (hash v) (UInt32.ofNat ip) (hash_lt v)
    if hf : found input ip cand (by omega) = true then
      have hcand := found_lt hf
      let start := back input anchor ip cand (by omega) (by omega)
      have hlimit : input.length - lastLiterals ≤ input.length := Nat.sub_le _ _
      let e := forward input (input.length - lastLiterals) (ip + minMatch) (cand + minMatch) hlimit (by omega)
      have hge : ip + 4 ≤ e := le_forward _ _ _ _ _ _
      have hle : e ≤ input.length - 5 := forward_le _ _ _ _ _ _ (by rw [lastLiterals, minMatch]; omega)
      (w.sequence (slice input anchor (start.1 - anchor)) (start.1 - start.2) (some (e - start.1))).bind
        fun w =>
          -- A position near the match's end: runs that repeat are found again sooner.
          let p := e - 2
          let v := read32 input p (by omega)
          scan input hn e e 0 (table.set (hash v) (UInt32.ofNat p) (hash_lt v)) w
    else scan input hn (ip + (1 + (misses + 1) / 2 ^ 6)) anchor (misses + 1) table w
  else some (w, anchor, table)
termination_by input.length - ip
decreasing_by
  · exact Nat.sub_lt_sub_left (by omega) (Nat.lt_of_lt_of_le (by omega) hge)
  · omega

/-- Compresses `input` into `out`: the writer after the block and the table, or `none` when the block
does not fit or the input is past the format's 32 bits. -/
def compress (input out : List UInt8) (table : Table) : Option (Writer × Table) :=
  if 2 ^ 32 ≤ input.length then none
  else if hn : mfLimit < input.length then do
    let (w, anchor, table) ← scan input hn 0 0 0 (Vector.replicate tableLen 0) ⟨out, 0⟩
    let w ← w.sequence (input.drop anchor) 0 none
    return (w, table)
  else do
    let w ← (Writer.mk out 0).sequence input 0 none
    return (w, table)

/-! ## Decoding -/

/-- The bytes past a nibble's 15, and what follows them. -/
@[grind =] def readLength : Nat → List UInt8 → Except Error (Nat × List UInt8)
  | _, [] => .error .truncated
  | n, b :: rest =>
    if usizeBound ≤ n + b.toNat then .error .overflow
    else if b = 255 then readLength (n + b.toNat) rest
    else .ok (n + b.toNat, rest)

/-- A nibble and, if it is 15, the bytes past it. -/
def extended (nibble : Nat) (block : List UInt8) : Except Error (Nat × List UInt8) :=
  if nibble = 15 then (readLength 0 block).map fun r => ((nibble + r.1) % usizeBound, r.2)
  else .ok (nibble, block)

/-- What one sequence leads to. -/
inductive Progress where
  /-- The block is over, with this much written. -/
  | done (op : Nat) (out : List UInt8)
  /-- There is more of the block. -/
  | more (block : List UInt8) (op : Nat) (out : List UInt8)

/-- The match of a sequence whose token's low nibble is `nibble`. -/
def matched (nibble : Nat) (block : List UInt8) (op : Nat) (out : List UInt8) : Except Error Progress :=
  match block with
  | lo :: hi :: block =>
    let distance := leValue [lo, hi]
    if distance = 0 ∨ op < distance then .error .badDistance
    else do
      let (ml, block) ← extended nibble block
      let ml := (ml + minMatch) % usizeBound
      if out.length < op + ml then .error .overflow
      else .ok (.more block (op + ml) (copyMatch distance op ml out))
  | _ => .error .truncated

/-- One sequence of a block. -/
def step (block : List UInt8) (op : Nat) (out : List UInt8) : Except Error Progress :=
  match block with
  | [] => .error .truncated
  | token :: block => do
    let (lit, block) ← extended (token.toNat / 16) block
    if block.length < lit then .error .truncated
    else if out.length < op + lit then .error .overflow
    else
      let out := splice out op (block.take lit)
      if block.drop lit = [] then .ok (.done (op + lit) out)
      else matched (token.toNat % 16) (block.drop lit) (op + lit) out

theorem readLength_shorter {n : Nat} {block : List UInt8} {r : Nat × List UInt8}
    (h : readLength n block = .ok r) : r.2.length < block.length := by
  induction block generalizing n with
  | nil => cases h
  | cons b block ih =>
    rw [readLength] at h
    split at h
    · cases h
    · split at h
      · exact Nat.lt_succ_of_lt (ih h)
      · cases h
        exact Nat.lt_succ_self _

theorem extended_shorter {nibble : Nat} {block : List UInt8} {r : Nat × List UInt8}
    (h : extended nibble block = .ok r) : r.2.length ≤ block.length := by
  rw [extended] at h
  split at h
  · cases hr : readLength 0 block with
    | error e =>
      rw [hr] at h
      cases h
    | ok r' =>
      rw [hr] at h
      cases h
      exact (readLength_shorter hr).le
  · cases h
    exact le_rfl

theorem matched_shorter {nibble op op' : Nat} {block block' out out' : List UInt8}
    (h : matched nibble block op out = .ok (.more block' op' out')) : block'.length < block.length := by
  rcases block with _ | ⟨lo, _ | ⟨hi, block⟩⟩
  · cases h
  · cases h
  · rw [matched] at h
    dsimp only at h
    split at h
    · cases h
    cases hr : extended nibble block with
    | error e =>
      rw [hr] at h
      cases h
    | ok r =>
      rw [hr] at h
      have hlen := extended_shorter hr
      dsimp only [bind, Except.bind] at h
      split at h
      · cases h
      · cases h
        exact Nat.lt_succ_of_lt (Nat.lt_succ_of_le hlen)

/-- A sequence takes something of the block. -/
theorem step_shorter {op op' : Nat} {block block' out out' : List UInt8}
    (h : step block op out = .ok (.more block' op' out')) : block'.length < block.length := by
  cases block with
  | nil => cases h
  | cons token block =>
    rw [step] at h
    cases hr : extended (token.toNat / 16) block with
    | error e =>
      rw [hr] at h
      cases h
    | ok r =>
      rw [hr] at h
      have hlen := extended_shorter hr
      dsimp only [bind, Except.bind] at h
      split at h
      · cases h
      split at h
      · cases h
      split at h
      · cases h
      · have hmore := matched_shorter h
        rw [List.length_drop] at hmore
        rw [List.length_cons]
        omega

/-- Decodes a block into `out` from `op` on: how much is written, and the buffer. -/
def decode (block : List UInt8) (op : Nat) (out : List UInt8) : Except Error (Nat × List UInt8) :=
  match _h : step block op out with
  | .error e => .error e
  | .ok (.done op out) => .ok (op, out)
  | .ok (.more block op out) => decode block op out
termination_by block.length
decreasing_by exact step_shorter _h

/-- Decompresses one block into `out`. -/
def decompress (block out : List UInt8) : Except Error (Nat × List UInt8) :=
  decode block 0 out

/-- Decompresses a block that must fill `out` exactly. -/
def decompressExact (block out : List UInt8) : Except Error (List UInt8) :=
  match decompress block out with
  | .error e => .error e
  | .ok (n, out') => if n = out.length then .ok out' else .error .short

end NanoChrono.Lz4
