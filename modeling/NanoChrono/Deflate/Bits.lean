import Mathlib.Tactic
import NanoChrono.Buffer.Fields

/-! # Bits and codes of a DEFLATE stream

The input as a stream of bits, lowest first, read through a 64-bit buffer, and the Huffman codes that are
decoded from it through a table of ten bits or, where a code is longer, bit by bit. Whatever the input,
reading only goes forward (`decode_shorter`): the table's entries are of codes of at least one bit. -/

namespace NanoChrono.Deflate

/-- Why a stream was refused. -/
inductive Error where
  /-- The input ended inside the stream. -/
  | truncated
  /-- Block type 3, or a stored block whose length check fails. -/
  | badBlock
  /-- A code table that cannot be used. -/
  | badCode
  /-- Bits that decode to no symbol, or a length or distance symbol out of range. -/
  | badSymbol
  /-- A distance reaching back before the start of the output. -/
  | tooFar
  /-- More output than the caller allowed. -/
  | overflow
  /-- The sink refused the output. -/
  | sink
  /-- Input after the end of the final block. -/
  | trailing
  deriving DecidableEq, Repr

/-- What is shown for a refused stream. -/
def Error.message : Error → String
  | .truncated => "compressed data ends early"
  | .badBlock => "bad DEFLATE block"
  | .badCode => "bad Huffman code table"
  | .badSymbol => "bad Huffman symbol"
  | .tooFar => "a back-reference reaches before the start"
  | .overflow => "decompresses to more than declared"
  | .sink => "the output was refused"
  | .trailing => "data after the end of the compressed stream"

/-! ## Bits -/

/-- The input, with `count` bits of it read ahead. -/
structure Bits where
  input : List UInt8
  /-- The next byte not yet in `buf`. -/
  pos : Nat
  buf : Nat
  count : Nat
  behind : count ≤ 8 * pos
  inside : pos ≤ input.length

namespace Bits

def new (input : List UInt8) : Bits := ⟨input, 0, 0, 0, Nat.zero_le _, Nat.zero_le _⟩

/-- The bits not yet consumed. -/
def left (b : Bits) : Nat := 8 * (b.input.length - b.pos) + b.count

/-- Tops the buffer up to more than 56 bits, or with all remaining input. -/
def refill (b : Bits) : Bits :=
  if h : b.count ≤ 56 ∧ b.pos < b.input.length then
    refill ⟨b.input, b.pos + 1, b.buf ||| b.input[b.pos].toNat <<< b.count, b.count + 8,
      Nat.add_le_add_right b.behind 8, h.2⟩
  else b
termination_by 57 - b.count

/-- Refills a buffer of fewer than `n` bits. -/
def topUp (b : Bits) (n : Nat) : Bits := if b.count < n then b.refill else b

/-- Drops `n` bits that are in the buffer. -/
def consume (b : Bits) (n : Nat) : Bits :=
  ⟨b.input, b.pos, b.buf >>> n, b.count - n, (Nat.sub_le _ _).trans b.behind, b.inside⟩

/-- The next `n` bits. -/
def bits (b : Bits) (n : Nat) : Except Error (Nat × Bits) :=
  if n = 0 then .ok (0, b)
  else
    let b := b.topUp n
    if b.count < n then .error .truncated
    else .ok (b.buf &&& (1 <<< n - 1), b.consume n)

/-- Up to 15 bits without consuming them, and how many are real. -/
def peek15 (b : Bits) : Nat × Nat × Bits :=
  let b := b.topUp 15
  (b.buf &&& 0x7FFF, min b.count 15, b)

/-- Drops the rest of the current byte and hands back the whole bytes read ahead. -/
def align (b : Bits) : Bits :=
  ⟨b.input, b.pos - b.count / 8, 0, 0, Nat.zero_le _, (Nat.sub_le _ _).trans b.inside⟩

@[simp] theorem consume_input (b : Bits) (n : Nat) : (b.consume n).input = b.input := rfl

@[simp] theorem align_input (b : Bits) : b.align.input = b.input := rfl

@[simp] theorem refill_input (b : Bits) : b.refill.input = b.input := by
  fun_induction refill b with
  | case1 b h ih => exact ih
  | case2 => rfl

@[simp] theorem left_refill (b : Bits) : b.refill.left = b.left := by
  fun_induction refill b with
  | case1 b h ih =>
    rw [ih, left, left]
    dsimp only
    omega
  | case2 => rfl

@[simp] theorem topUp_input (b : Bits) (n : Nat) : (b.topUp n).input = b.input := by
  rw [topUp]
  split <;> simp

@[simp] theorem left_topUp (b : Bits) (n : Nat) : (b.topUp n).left = b.left := by
  rw [topUp]
  split <;> simp

theorem left_consume {b : Bits} {n : Nat} (h : n ≤ b.count) : (b.consume n).left + n = b.left := by
  rw [left, left, consume]
  dsimp only
  omega

theorem left_align (b : Bits) : b.align.left ≤ b.left := by
  have hbehind := b.behind
  have hinside := b.inside
  rw [left, left, align]
  dsimp only
  omega

/-- What is read is within its bits, and is consumed. -/
theorem bits_spec {b b' : Bits} {n v : Nat} (h : b.bits n = .ok (v, b')) :
    b'.input = b.input ∧ b'.left + n = b.left ∧ v < 2 ^ n := by
  rw [bits] at h
  split at h
  next hn =>
    cases h
    exact ⟨rfl, by rw [hn, Nat.add_zero], Nat.two_pow_pos n⟩
  next hn =>
    dsimp only at h
    split at h
    · cases h
    next hcount =>
      cases h
      refine ⟨topUp_input b n, ?_, ?_⟩
      · rw [left_consume (Nat.le_of_not_lt hcount), left_topUp]
      · rw [Nat.one_shiftLeft, Nat.and_two_pow_sub_one_eq_mod]
        exact Nat.mod_lt _ (Nat.two_pow_pos n)

theorem peek15_spec (b : Bits) : b.peek15.2.2.input = b.input ∧ b.peek15.2.2.left = b.left ∧
    b.peek15.2.1 ≤ b.peek15.2.2.count :=
  ⟨topUp_input b 15, left_topUp b 15, Nat.min_le_left _ _⟩

end Bits

/-! ## Codes -/

/-- The longest code. -/
def maxBits : Nat := 15

/-- The bits the lookup table is indexed by. -/
def fastBits : Nat := 10

/-- The most symbols of a code. -/
def maxLit : Nat := 288

/-- A lookup table: for the next bits of the stream a code's length and symbol, `length << 9 | symbol`, or
zero for a longer code. -/
abbrev Fast := {table : List Nat // ∀ e ∈ table, e = 0 ∨ 2 ^ 9 ≤ e}

/-- A canonical code: how many codes there are of each length, and the symbols in the codes' order. -/
structure Huffman where
  count : List Nat
  symbol : List Nat
  fast : Fast

/-- How a code table turned out. -/
inductive Fill where
  | complete
  /-- Some codes are unused. -/
  | incomplete
  | overSubscribed
  deriving DecidableEq, Repr

namespace Fast

def zero : Fast := ⟨List.replicate (1 <<< fastBits) 0, fun _ he => .inl (List.eq_of_mem_replicate he)⟩

/-- An entry from `i` on, at every `step`. -/
def fill (f : Fast) (entry : Nat) (h : 2 ^ 9 ≤ entry) (i step : Nat) (hstep : 0 < step) : Fast :=
  if _hi : i < f.1.length then
    fill ⟨f.1.set i entry, fun e he => (List.mem_or_eq_of_mem_set he).elim (f.2 e) fun heq => .inr (heq ▸ h)⟩
      entry h (i + step) step hstep
  else f
termination_by f.1.length - i
decreasing_by
  rw [List.length_set]
  omega

/-- The entries of the codes of length `len`, of which `n` are left, from `code` and `index` on. -/
@[grind =] def fillLength (symbol : List Nat) (len : Nat) (hlen : 0 < len) :
    (n code index : Nat) → Fast → Fast × Nat × Nat
  | 0, code, index, f => (f, code, index)
  | n + 1, code, index, f =>
    let f :=
      if len ≤ fastBits then
        -- Codes are sent highest bit first, the stream is read lowest first.
        let rev := ((BitVec.ofNat 32 code).reverse >>> (32 - len)).toNat
        have hentry : 2 ^ 9 ≤ len <<< 9 ||| symbol.getD index 0 :=
          (by rw [Nat.shiftLeft_eq]; omega : 2 ^ 9 ≤ len <<< 9).trans Nat.left_le_or
        f.fill (len <<< 9 ||| symbol.getD index 0) hentry rev (1 <<< len)
          (by rw [Nat.one_shiftLeft]; exact Nat.two_pow_pos len)
      else f
    fillLength symbol len hlen n (code + 1) (index + 1) f

/-- The entries of all codes of lengths `len` on, with the counts of these lengths. -/
@[grind =] def fillLengths (symbol : List Nat) :
    (counts : List Nat) → (len : Nat) → 0 < len → (code index : Nat) → Fast → Fast
  | [], _, _, _, _, f => f
  | n :: counts, len, hlen, code, index, f =>
    let r := fillLength symbol len hlen n code index f
    fillLengths symbol counts (len + 1) (Nat.succ_pos len) (r.2.1 <<< 1) r.2.2 r.1

end Fast

namespace Huffman

def new : Huffman := ⟨List.replicate (maxBits + 1) 0, List.replicate maxLit 0, .zero⟩

/-- How many codes of each length `lengths` has. -/
def counts (lengths : List Nat) : List Nat :=
  lengths.foldl (fun count l => count.set l (count.getD l 0 + 1)) (List.replicate (maxBits + 1) 0)

/-- The codes of one more bit that are left, `none` when there are too few. -/
def leftover (count : List Nat) : Option Nat :=
  (count.drop 1).foldlM (fun left n => if 2 * left < n then none else some (2 * left - n)) 1

/-- Where the symbols of each length start. -/
def offsets (count : List Nat) : List Nat :=
  (List.range maxBits).foldl (fun offs i => offs.set (i + 2) (offs.getD (i + 1) 0 + count.getD (i + 1) 0))
    (List.replicate (maxBits + 2) 0)

/-- The symbols in the order of their codes. -/
def symbols (lengths offs symbol : List Nat) : List Nat :=
  (lengths.zipIdx.foldl (fun (s : List Nat × List Nat) l =>
    if l.1 = 0 then s
    else (s.1.set (s.2.getD l.1 0) l.2, s.2.set l.1 (s.2.getD l.1 0 + 1))) (symbol, offs)).1

/-- The canonical code for `lengths`, one for each symbol, zero for one not used. -/
def build (h : Huffman) (lengths : List Nat) : Huffman × Fill :=
  let count := counts lengths
  if count.getD 0 0 = lengths.length then (⟨count, h.symbol, .zero⟩, .complete)
  else match leftover count with
    | none => (⟨count, h.symbol, .zero⟩, .overSubscribed)
    | some left =>
      let symbol := symbols lengths (offsets count) h.symbol
      (⟨count, symbol, Fast.fillLengths symbol (count.drop 1) 1 Nat.one_pos 0 0 .zero⟩,
        if 0 < left then .incomplete else .complete)

/-- The canonical walk, one bit at a time, with `k` lengths from `len` on to try. -/
@[grind =] def walk (h : Huffman) (peek avail : Nat) (bits : Bits) :
    (k len code first index : Nat) → Except Error (Nat × Bits)
  | 0, _, _, _, _ => .error .badSymbol
  | k + 1, len, code, first, index =>
    if avail < len then .error .truncated
    else
      let code := code ||| ((peek >>> (len - 1)) &&& 1)
      let count := h.count.getD len 0
      if (code : Int) - first < count then
        let place := (index : Int) + code - first
        if place < 0 then .error .badSymbol
        else match h.symbol[place.toNat]? with
          | some sym => .ok (sym, bits.consume len)
          | none => .error .badSymbol
      else walk h peek avail bits k (len + 1) (code <<< 1) ((first + count) <<< 1) (index + count)

/-- The next symbol. -/
def decode (h : Huffman) (bits : Bits) : Except Error (Nat × Bits) :=
  let (peek, avail, bits) := bits.peek15
  let entry := h.fast.1.getD (peek &&& (1 <<< fastBits - 1)) 0
  if entry ≠ 0 then
    let len := entry >>> 9
    if avail < len then .error .truncated else .ok (entry &&& 0x1FF, bits.consume len)
  else h.walk peek avail bits maxBits 1 0 0 0

theorem walk_shorter {h : Huffman} {peek avail : Nat} {bits : Bits} {k len code first index : Nat}
    {r : Nat × Bits} (havail : avail ≤ bits.count) (hlen : 0 < len)
    (hr : h.walk peek avail bits k len code first index = .ok r) :
    r.2.input = bits.input ∧ r.2.left < bits.left := by
  induction k generalizing len code first index with
  | zero => cases hr
  | succ k ih =>
    rw [walk] at hr
    dsimp only at hr
    split at hr
    · cases hr
    next hle =>
      have hleft := Bits.left_consume ((Nat.le_of_not_lt hle).trans havail)
      split at hr
      · split at hr
        · cases hr
        · split at hr
          · cases hr
            exact ⟨rfl, show (bits.consume len).left < bits.left by omega⟩
          · cases hr
      · exact ih (Nat.succ_pos len) hr

/-- A symbol takes at least a bit. -/
theorem decode_shorter {h : Huffman} {bits : Bits} {r : Nat × Bits} (hr : h.decode bits = .ok r) :
    r.2.input = bits.input ∧ r.2.left < bits.left := by
  obtain ⟨hinput, hleft, havail⟩ := bits.peek15_spec
  rw [decode] at hr
  rcases hpeek : bits.peek15 with ⟨peek, avail, bits'⟩
  rw [hpeek] at hr hinput hleft havail
  dsimp only at hr hinput hleft havail
  split at hr
  next hentry =>
    split at hr
    · cases hr
    next hle =>
      cases hr
      have hlong : 2 ^ 9 ≤ h.fast.1.getD (peek &&& (1 <<< fastBits - 1)) 0 := by
        rw [List.getD_eq_getElem?_getD] at hentry ⊢
        cases hget : h.fast.1[peek &&& (1 <<< fastBits - 1)]? with
        | none =>
          rw [hget] at hentry
          exact absurd rfl hentry
        | some e =>
          rw [hget] at hentry
          exact (h.fast.2 e (List.mem_of_getElem? hget)).resolve_left hentry
      have hcons := Bits.left_consume ((Nat.le_of_not_lt hle).trans havail)
      have hpos : 0 < h.fast.1.getD (peek &&& (1 <<< fastBits - 1)) 0 >>> 9 := by
        rw [Nat.shiftRight_eq_div_pow]
        exact Nat.div_pos hlong (Nat.two_pow_pos 9)
      refine ⟨hinput, show (bits'.consume _).left < bits.left from ?_⟩
      omega
  next =>
    have hwalk := walk_shorter havail Nat.one_pos hr
    exact ⟨hwalk.1.trans hinput, hleft ▸ hwalk.2⟩

end Huffman

end NanoChrono.Deflate
