import NanoChrono.Hash.Bits
import NanoChrono.Hash.Blocks
import NanoChrono.Hash.Keccak
import NanoChrono.Hash.Sha512

/-! # The sponge

A Keccak sponge with a rate of 136 bytes: bytes are absorbed into the lanes one at a time, the first
squeeze pads, and output is read a byte at a time. FIPS 202 defines the output on bit strings; message
and output may be cut anywhere (`squeezes_sha3`, `squeezes_shake`). -/

namespace NanoChrono.Hash

open Keccak (Lanes permute bits lane xorByte byteAt)

/-- Bytes absorbed or squeezed per permutation: 1088 bits of rate, 512 of capacity. -/
def RATE : Nat := 136

/-- Domain-separation suffix of the SHA3 hash functions. -/
def DOMAIN_SHA3 : UInt8 := 0x06

/-- Domain-separation suffix of the SHAKE extendable-output functions. -/
def DOMAIN_SHAKE : UInt8 := 0x1F

structure Sponge where
  lanes : Lanes
  /-- Byte offset into the current rate block. -/
  pos : Nat
  squeezing : Bool

namespace Sponge

def new : Sponge := { lanes := fun _ => 0, pos := 0, squeezing := false }

def absorbByte (s : Sponge) (byte : UInt8) : Sponge :=
  let lanes := xorByte s.lanes s.pos byte
  if s.pos + 1 = RATE then { s with lanes := permute lanes, pos := 0 }
  else { s with lanes, pos := s.pos + 1 }

/-- XORs data into the rate, permuting at every full block. -/
def absorb (s : Sponge) (data : List UInt8) : Sponge := data.foldl absorbByte s

/-- Pads with the domain and the final bit, and switches to squeezing. -/
def finish (s : Sponge) (domain : UInt8) : Sponge :=
  if s.squeezing then s
  else
    { lanes := permute (xorByte (xorByte s.lanes s.pos domain) (RATE - 1) 0x80), pos := 0,
      squeezing := true }

/-- The next `n` bytes of output, permuting whenever the rate runs out. -/
@[grind =] def squeezeBytes : Nat → Sponge → List UInt8 × Sponge
  | 0, s => ([], s)
  | n + 1, s =>
    let s := if s.pos = RATE then { s with lanes := permute s.lanes, pos := 0 } else s
    let out := squeezeBytes n { s with pos := s.pos + 1 }
    (byteAt s.lanes s.pos :: out.1, out.2)

/-- Fills a buffer of `n` bytes with output. -/
def squeeze (s : Sponge) (n : Nat) : List UInt8 × Sponge := squeezeBytes n (s.finish DOMAIN_SHAKE)

/-- The outputs of calls of `squeeze`, one after the other, for buffers of these sizes. -/
@[grind =] def squeezes (s : Sponge) : List Nat → List (List UInt8)
  | [] => []
  | n :: sizes => (s.squeeze n).1 :: squeezes (s.squeeze n).2 sizes

end Sponge

/-! ## The standard -/

namespace Fips202

/-- The bits of a byte string, each byte's lowest first (B.1). -/
def bitsOf (m : List UInt8) : List Bool := m.flatMap fun b => (List.range 8).map b.toBitVec.getLsbD

/-- Padding `pad10*1` for a string of `m` bits to a multiple of `x` (5.1). -/
def pad101 (x m : Nat) : List Bool :=
  true :: List.replicate ((2 * x - 2 - m % x) % x) false ++ [true]

/-- The state with a block of bits added to its first bits; bit `z` of lane `(x, y)` is bit
`64 (5 y + x) + z` of the state's string (3.1.2). -/
def addBlock (A : State) (P : List Bool) : State :=
  fun x y z => A x y z ^^ P.getD (64 * (5 * y.val + x.val) + z.val) false

/-- The state after a string was absorbed with a rate of 1088 bits (4, steps 1 to 6). -/
def absorbed (N : List Bool) : State :=
  (full 1088 (N ++ pad101 1088 N.length)).foldl (fun A P => keccakF (addBlock A P)) fun _ _ _ => false

/-- `KECCAK[512]`: the first `d` bits of output (4, steps 7 to 10), 1088 from each state. -/
def KECCAK512 (N : List Bool) (d : Nat) : List Bool :=
  (List.range d).map fun k => bitAt (keccakF^[k / 1088] (absorbed N)) (k % 1088)

/-- The output of SHA3-256, which has the first 256 bits of it (6.1). -/
def SHA3_256 (M : List Bool) (d : Nat) : List Bool := KECCAK512 (M ++ [false, true]) d

/-- 6.2. -/
def SHAKE256 (M : List Bool) (d : Nat) : List Bool := KECCAK512 (M ++ [true, true, true, true]) d

end Fips202

open Fips202

/-! ## Bytes and bits -/

@[simp] theorem bitsOf_nil : bitsOf [] = [] := rfl

theorem bitsOf_append (l m : List UInt8) : bitsOf (l ++ m) = bitsOf l ++ bitsOf m := List.flatMap_append

@[simp] theorem length_bitsOf (l : List UInt8) : (bitsOf l).length = 8 * l.length := by
  induction l with
  | nil => rfl
  | cons b l ih =>
    rw [bitsOf, List.flatMap_cons, List.length_append, ← bitsOf, ih, List.length_map, List.length_range,
      List.length_cons]
    omega

theorem getElem?_bitsOf (l : List UInt8) (k : Nat) :
    (bitsOf l)[k]? = l[k / 8]?.map fun b => b.toBitVec.getLsbD (k % 8) := by
  induction l generalizing k with
  | nil => rfl
  | cons b l ih =>
    have hlen : ((List.range 8).map b.toBitVec.getLsbD).length = 8 := by simp
    rw [bitsOf, List.flatMap_cons, ← bitsOf]
    by_cases hk : k < 8
    · rw [List.getElem?_append_left (by omega), List.getElem?_map, List.getElem?_range hk,
        Nat.div_eq_of_lt hk, Nat.mod_eq_of_lt hk]
      rfl
    · rw [List.getElem?_append_right (by omega), hlen, ih,
        show k / 8 = (k - 8) / 8 + 1 by omega, show (k - 8) % 8 = k % 8 by omega]
      rfl

theorem getD_bitsOf (l : List UInt8) (k : Nat) : (bitsOf l).getD k false = bitOf l k := by
  rw [List.getD_eq_getElem?_getD, getElem?_bitsOf, bitOf]

theorem bitsOf_flatten (bs : List (List UInt8)) : bitsOf bs.flatten = (bs.map bitsOf).flatten := by
  induction bs with
  | nil => rfl
  | cons b bs ih => rw [List.flatten_cons, bitsOf_append, ih, List.map_cons, List.flatten_cons]

theorem bitsOf_zeros (n : Nat) : bitsOf (List.replicate n 0) = List.replicate (8 * n) false := by
  induction n with
  | zero => rfl
  | succ n ih =>
    rw [List.replicate_succ, ← List.singleton_append, bitsOf_append, ih,
      show bitsOf [0] = List.replicate 8 false by decide, List.replicate_append_replicate]
    congr 1
    omega

/-! ## Absorbing -/

namespace Sponge

/-- A byte changes the eight bits of the string at its place. -/
theorem bits_xorByte (a : Lanes) {pos : Nat} (hpos : pos < RATE) (byte : UInt8) (x y : Fin 5)
    (z : Fin 64) : bits (xorByte a pos byte) x y z = (bits a x y z ^^
      (decide ((64 * (5 * y.val + x.val) + z.val) / 8 = pos) &&
        byte.toBitVec.getLsbD ((64 * (5 * y.val + x.val) + z.val) % 8))) := by
  have hz := z.isLt
  have hindex : (Fin.ofNat 25 (pos / 8)).val = pos / 8 := Nat.mod_eq_of_lt (by simp [RATE] at hpos; omega)
  have hshift : (UInt64.ofNat (8 * (pos % 8))).toBitVec.toNat % 64 = 8 * (pos % 8) := by
    show (UInt64.ofNat (8 * (pos % 8))).toNat % 64 = _
    rw [UInt64.toNat_ofNat_of_lt' (by show _ < 2 ^ 64; omega)]
    omega
  have hlane : (lane x y).val = x.val + 5 * y.val := rfl
  rw [bits, xorByte]
  by_cases h : lane x y = Fin.ofNat 25 (pos / 8)
  · have hval : x.val + 5 * y.val = pos / 8 := by rw [← hlane, h, hindex]
    rw [h, Function.update_self, ← h, UInt64.toBitVec_xor, BitVec.getLsbD_xor, bits]
    congr 1
    rw [UInt64.toBitVec_shiftLeft, BitVec.shiftLeft_eq', BitVec.toNat_umod, BitVec.getLsbD_shiftLeft,
      show (64 : BitVec 64).toNat = 64 from rfl, hshift, UInt8.toBitVec_toUInt64,
      BitVec.getLsbD_setWidth, decide_eq_true hz, Bool.true_and]
    by_cases hin : (64 * (5 * y.val + x.val) + z.val) / 8 = pos
    · rw [decide_eq_true hin, Bool.true_and, decide_eq_false (by omega), Bool.not_false, Bool.true_and,
        decide_eq_true (by omega), Bool.true_and]
      congr 1
      omega
    · rw [decide_eq_false hin, Bool.false_and]
      by_cases hlow : z.val < 8 * (pos % 8)
      · rw [decide_eq_true hlow]
        rfl
      · rw [BitVec.getLsbD_of_ge _ _ (by omega)]
        simp
  · have hout : ¬ (64 * (5 * y.val + x.val) + z.val) / 8 = pos := by
      intro hin
      refine h (Fin.ext ?_)
      rw [hlane, hindex]
      omega
    rw [Function.update_of_ne h, decide_eq_false hout, Bool.false_and, Bool.xor_false]
    rfl

/-- XORs bytes into the lanes from a byte offset on. -/
@[grind =] def xorBytes (a : Lanes) (pos : Nat) : List UInt8 → Lanes
  | [] => a
  | b :: bs => xorBytes (xorByte a pos b) (pos + 1) bs

theorem xorBytes_append (a : Lanes) (pos : Nat) (l m : List UInt8) :
    xorBytes a pos (l ++ m) = xorBytes (xorBytes a pos l) (pos + l.length) m := by
  induction l generalizing a pos with
  | nil => rfl
  | cons b l ih =>
    rw [List.cons_append, xorBytes, ih, xorBytes, List.length_cons, show pos + 1 + l.length =
      pos + (l.length + 1) by omega]

theorem bits_xorBytes (a : Lanes) (pos : Nat) (l : List UInt8) (h : pos + l.length ≤ RATE)
    (x y : Fin 5) (z : Fin 64) : bits (xorBytes a pos l) x y z = (bits a x y z ^^
      (decide (pos ≤ (64 * (5 * y.val + x.val) + z.val) / 8) &&
        bitOf l (64 * (5 * y.val + x.val) + z.val - 8 * pos))) := by
  induction l generalizing a pos with
  | nil => simp [xorBytes, bitOf]
  | cons b l ih =>
    rw [List.length_cons] at h
    rw [xorBytes, ih _ _ (by omega), bits_xorByte a (by omega), Bool.xor_assoc]
    generalize 64 * (5 * y.val + x.val) + z.val = k
    congr 1
    rcases Nat.lt_trichotomy (k / 8) pos with hlt | heq | hgt
    · rw [decide_eq_false (by omega), decide_eq_false (by omega), decide_eq_false (by omega)]
      rfl
    · rw [decide_eq_true heq, decide_eq_false (by omega), decide_eq_true (by omega), Bool.false_and, bitOf,
        show (k - 8 * pos) / 8 = 0 by omega, show (k - 8 * pos) % 8 = k % 8 by omega]
      simp
    · rw [decide_eq_false (by omega), decide_eq_true (by omega), decide_eq_true (by omega), bitOf, bitOf,
        show (k - 8 * pos) / 8 = (k - 8 * (pos + 1)) / 8 + 1 by omega,
        show (k - 8 * pos) % 8 = (k - 8 * (pos + 1)) % 8 by omega]
      simp

/-- XORing a block of bytes in is adding its bits. -/
theorem bits_xorBytes_zero (a : Lanes) (l : List UInt8) (h : l.length ≤ RATE) :
    bits (xorBytes a 0 l) = addBlock (bits a) (bitsOf l) := by
  funext x y z
  rw [bits_xorBytes a 0 l (by omega), addBlock, getD_bitsOf, decide_eq_true (Nat.zero_le _),
    Bool.true_and]
  rfl

/-- The lanes after complete blocks. -/
def absorbBlocks (bs : List (List UInt8)) : Lanes := bs.foldl (fun a b => permute (xorBytes a 0 b)) new.lanes

theorem absorbBlocks_concat (bs : List (List UInt8)) (b : List UInt8) :
    absorbBlocks (bs ++ [b]) = permute (xorBytes (absorbBlocks bs) 0 b) := by
  rw [absorbBlocks, List.foldl_append, List.foldl_cons, List.foldl_nil, absorbBlocks]

/-- A sponge has absorbed a message: its complete blocks are permuted in, what is left over is only
XORed. -/
structure Absorbed (s : Sponge) (m : List UInt8) : Prop where
  lanes : s.lanes = xorBytes (absorbBlocks (full RATE m)) 0 (rest RATE m)
  pos : s.pos = (rest RATE m).length
  absorbing : s.squeezing = false

theorem absorbed_new : Absorbed new [] where
  lanes := by rw [full_of_lt (by decide), rest_of_lt (by decide)]; rfl
  pos := by rw [rest_of_lt (by decide)]; rfl
  absorbing := rfl

theorem Absorbed.absorbByte {s : Sponge} {m : List UInt8} (h : Absorbed s m) (byte : UInt8) :
    Absorbed (s.absorbByte byte) (m ++ [byte]) := by
  have hlt := length_rest_lt (show 0 < RATE by decide) m
  have hlen : (rest RATE m ++ [byte]).length = s.pos + 1 := by rw [h.pos]; simp
  have hxor : xorByte s.lanes s.pos byte =
      xorBytes (absorbBlocks (full RATE m)) 0 (rest RATE m ++ [byte]) := by
    rw [xorBytes_append, ← h.lanes, Nat.zero_add, ← h.pos]
    rfl
  rw [Sponge.absorbByte]
  split
  case isTrue hfull =>
    rw [hfull] at hlen
    have hblocks : full RATE (m ++ [byte]) = full RATE m ++ [rest RATE m ++ [byte]] := by
      rw [full_append, full_self (by decide) hlen]
    have hrest : rest RATE (m ++ [byte]) = [] := by rw [rest_append, rest_self (by decide) hlen]
    refine ⟨?_, by rw [hrest]; rfl, h.absorbing⟩
    rw [hrest, hblocks, absorbBlocks_concat, hxor]
    rfl
  case isFalse hroom =>
    have hshort : (rest RATE m ++ [byte]).length < RATE := by
      rw [← h.pos] at hlt
      omega
    have hrest : rest RATE (m ++ [byte]) = rest RATE m ++ [byte] := by
      rw [rest_append, rest_of_lt hshort]
    refine ⟨?_, by rw [hrest, hlen], h.absorbing⟩
    rw [hrest, full_append, full_of_lt hshort, List.append_nil]
    exact hxor

/-- A piece continues the message. -/
theorem Absorbed.absorb {s : Sponge} {m : List UInt8} (h : Absorbed s m) (data : List UInt8) :
    Absorbed (s.absorb data) (m ++ data) := by
  induction data generalizing s m with
  | nil => rw [List.append_nil]; exact h
  | cons b data ih =>
    have hnext := ih (h.absorbByte b)
    rw [List.append_assoc, List.singleton_append] at hnext
    exact hnext

/-- A message in pieces is absorbed as the whole. -/
theorem absorbed_pieces (pieces : List (List UInt8)) :
    Absorbed (pieces.foldl Sponge.absorb new) pieces.flatten := by
  have hall : ∀ (s : Sponge) (m : List UInt8), Absorbed s m →
      Absorbed (pieces.foldl Sponge.absorb s) (m ++ pieces.flatten) := by
    induction pieces with
    | nil => intro s m h; rw [List.flatten_nil, List.append_nil]; exact h
    | cons p pieces ih =>
      intro s m h
      have hrest := ih _ _ (h.absorb p)
      rwa [List.append_assoc, ← List.flatten_cons] at hrest
  exact hall new [] absorbed_new

/-! ## Padding -/

theorem xorByte_zero (a : Lanes) (pos : Nat) : xorByte a pos 0 = a := by
  have hzero : (0 : UInt8).toUInt64 <<< UInt64.ofNat (8 * (pos % 8)) = 0 := by
    apply UInt64.toBitVec_inj.1
    rw [UInt64.toBitVec_shiftLeft]
    simp
  rw [xorByte, hzero, UInt64.xor_zero, Function.update_eq_self]

theorem xorBytes_zeros (a : Lanes) (pos n : Nat) : xorBytes a pos (List.replicate n 0) = a := by
  induction n generalizing pos with
  | zero => rfl
  | succ n ih => rw [List.replicate_succ, xorBytes, xorByte_zero, ih]

theorem xorByte_xorByte (a : Lanes) (pos : Nat) (b c : UInt8) :
    xorByte (xorByte a pos b) pos c = xorByte a pos (b ^^^ c) := by
  have hshift : ∀ n : UInt64, (b ^^^ c).toUInt64 <<< n = b.toUInt64 <<< n ^^^ c.toUInt64 <<< n := by
    intro n
    rw [UInt8.toUInt64_xor, UInt64.shiftLeft_xor]
  rw [xorByte, xorByte, xorByte, Function.update_self, Function.update_idem, hshift, UInt64.xor_assoc]

/-- The last block's bytes after `pos` bytes of message. -/
def padding (domain : UInt8) (pos : Nat) : List UInt8 :=
  if pos + 1 = RATE then [domain ^^^ 0x80]
  else domain :: List.replicate (RATE - 2 - pos) 0 ++ [0x80]

theorem length_padding {domain : UInt8} {pos : Nat} (h : pos < RATE) :
    (padding domain pos).length = RATE - pos := by
  rw [padding]
  split
  · simp
    omega
  · simp
    omega

theorem xorBytes_padding (a : Lanes) {domain : UInt8} {pos : Nat} (h : pos < RATE) :
    xorBytes a pos (padding domain pos) = xorByte (xorByte a pos domain) (RATE - 1) 0x80 := by
  rw [padding]
  split
  case isTrue hlast =>
    rw [xorBytes, xorBytes, ← xorByte_xorByte, show RATE - 1 = pos by omega]
  case isFalse hroom =>
    rw [List.cons_append, xorBytes, xorBytes_append, xorBytes_zeros, List.length_replicate, xorBytes,
      xorBytes, show pos + 1 + (RATE - 2 - pos) = RATE - 1 by omega]

/-- A domain's byte is the suffix of its functions and the padding's first bit. -/
def Suffix (domain : UInt8) (suffix : List Bool) : Prop :=
  suffix.length < 7 ∧ bitsOf [domain] = suffix ++ true :: List.replicate (7 - suffix.length) false ∧
    bitsOf [domain ^^^ 0x80] = suffix ++ true :: List.replicate (6 - suffix.length) false ++ [true]

theorem suffix_sha3 : Suffix DOMAIN_SHA3 [false, true] := by
  refine ⟨by decide, by decide, by decide⟩

theorem suffix_shake : Suffix DOMAIN_SHAKE [true, true, true, true] := by
  refine ⟨by decide, by decide, by decide⟩

/-- The last block's bytes are the suffix and the padding of the standard. -/
theorem bitsOf_padding {domain : UInt8} {suffix : List Bool} (hs : Suffix domain suffix) {n pos : Nat}
    (hpos : pos < RATE) (hn : n % 1088 = 8 * pos) :
    bitsOf (padding domain pos) = suffix ++ pad101 1088 (n + suffix.length) := by
  obtain ⟨hlen, hbits, hlast⟩ := hs
  have hrate : RATE = 136 := rfl
  rw [padding, pad101]
  split
  case isTrue h =>
    have hzeros : (2 * 1088 - 2 - (n + suffix.length) % 1088) % 1088 = 6 - suffix.length := by omega
    rw [hlast, hzeros, List.append_assoc]
  case isFalse h =>
    have hzeros : (2 * 1088 - 2 - (n + suffix.length) % 1088) % 1088 =
        (7 - suffix.length) + (8 * (RATE - 2 - pos) + 7) := by omega
    rw [← List.singleton_append, bitsOf_append, bitsOf_append, bitsOf_zeros, hbits, hzeros,
      List.replicate_add, List.replicate_add,
      show bitsOf [0x80] = List.replicate 7 false ++ [true] by decide]
    simp only [List.append_assoc, List.cons_append]

/-- Finishing leaves the state of the standard's absorbing phase. -/
theorem bits_finish {s : Sponge} {m : List UInt8} (h : Absorbed s m) {domain : UInt8}
    {suffix : List Bool} (hs : Suffix domain suffix) :
    bits (s.finish domain).lanes = absorbed (bitsOf m ++ suffix) := by
  have hlt := length_rest_lt (show 0 < RATE by decide) m
  have hpos := h.pos
  have hblocks : ∀ (bs : List (List UInt8)), (∀ b ∈ bs, b.length = RATE) →
      bits (absorbBlocks bs) = (bs.map bitsOf).foldl (fun A P => keccakF (addBlock A P)) fun _ _ _ => false := by
    intro bs
    induction bs using List.reverseRecOn with
    | nil =>
      intro _
      funext x y z
      show (0 : UInt64).toBitVec.getLsbD z = false
      simp
    | append_singleton bs b ih =>
      intro hbs
      have hb : b.length ≤ RATE := (hbs b (by simp)).le
      rw [absorbBlocks_concat, Keccak.bits_permute, bits_xorBytes_zero _ _ hb, ih fun x hx => hbs x (by simp [hx]),
        List.map_append, List.foldl_append, List.map_singleton, List.foldl_cons, List.foldl_nil]
  -- the message's length, up to whole blocks
  have hmod : (bitsOf m).length % 1088 = 8 * s.pos := by
    have hflat := congrArg List.length (full_rest RATE m)
    rw [List.length_append, length_flatten_full, ← hpos] at hflat
    rw [← hpos] at hlt
    rw [length_bitsOf, ← hflat]
    simp only [RATE] at hlt ⊢
    omega
  have hlast : (rest RATE m ++ padding domain s.pos).length = RATE := by
    rw [List.length_append, length_padding (by omega)]
    omega
  have hlen : ∀ b ∈ full RATE m ++ [rest RATE m ++ padding domain s.pos], b.length = RATE := by
    intro b hb
    rcases List.mem_append.1 hb with hb | hb
    · exact length_of_mem_full hb
    · rw [List.mem_singleton.1 hb, hlast]
  have hspec : full 1088 ((bitsOf m ++ suffix) ++ pad101 1088 (bitsOf m ++ suffix).length) =
      (full RATE m ++ [rest RATE m ++ padding domain s.pos]).map bitsOf := by
    have hbits : (bitsOf m ++ suffix) ++ pad101 1088 (bitsOf m ++ suffix).length =
        ((full RATE m ++ [rest RATE m ++ padding domain s.pos]).map bitsOf).flatten ++ [] := by
      rw [List.append_nil, ← bitsOf_flatten, List.flatten_append, List.flatten_singleton,
        ← List.append_assoc, full_rest, bitsOf_append, bitsOf_padding hs (by omega) hmod,
        List.length_append, List.append_assoc]
    rw [hbits, full_flatten_append (by decide), full_of_lt (l := []) (by decide), List.append_nil]
    intro b hb
    obtain ⟨c, hc, rfl⟩ := List.mem_map.1 hb
    rw [length_bitsOf, hlen c hc]
    rfl
  have hfinish : (s.finish domain).lanes =
      permute (xorByte (xorByte s.lanes s.pos domain) (RATE - 1) 0x80) := by
    rw [finish, h.absorbing]
    rfl
  rw [absorbed, hspec, ← hblocks _ hlen, hfinish, ← xorBytes_padding _ (by omega), h.lanes,
    absorbBlocks_concat, xorBytes_append, Nat.zero_add, ← hpos]

/-! ## Squeezing -/

/-- A sponge finished in a state has squeezed `k` bytes. -/
structure Squeezed (S : Lanes) (k : Nat) (s : Sponge) : Prop where
  squeezing : s.squeezing = true
  lanes : ∃ q, s.lanes = permute^[q] S ∧ k = RATE * q + s.pos
  pos : s.pos ≤ RATE

/-- Byte `k` of the output from a state. -/
def outByte (S : Lanes) (k : Nat) : UInt8 := byteAt (permute^[k / RATE] S) (k % RATE)

theorem Squeezed.squeezeBytes {S : Lanes} : ∀ {n k : Nat} {s : Sponge}, Squeezed S k s →
    (squeezeBytes n s).1 = (List.range n).map (fun i => outByte S (k + i)) ∧
      Squeezed S (k + n) (squeezeBytes n s).2
  | 0, _, _, h => ⟨rfl, h⟩
  | n + 1, k, s, h => by
    have hrate : 0 < RATE := by decide
    obtain ⟨q, hlanes, hk⟩ := h.lanes
    -- the sponge before the byte is read: not at the end of a block
    obtain ⟨s', hs', hsq, q', hlanes', hk', hpos'⟩ : ∃ s' : Sponge,
        (if s.pos = RATE then { s with lanes := permute s.lanes, pos := 0 } else s) = s' ∧
          s'.squeezing = true ∧ ∃ q', s'.lanes = permute^[q'] S ∧ k = RATE * q' + s'.pos ∧ s'.pos < RATE := by
      by_cases hfull : s.pos = RATE
      · refine ⟨_, if_pos hfull, h.squeezing, q + 1, ?_, ?_, hrate⟩
        · rw [Function.iterate_succ_apply', ← hlanes]
        · rw [Nat.mul_succ, hk, hfull]
          rfl
      · exact ⟨s, if_neg hfull, h.squeezing, q, hlanes, hk, lt_of_le_of_ne h.pos hfull⟩
    have hbyte : byteAt s'.lanes s'.pos = outByte S k := by
      rw [outByte, hk', Nat.mul_add_div hrate, Nat.div_eq_of_lt hpos', Nat.mul_add_mod,
        Nat.mod_eq_of_lt hpos', Nat.add_zero, ← hlanes']
    have hnext : Squeezed S (k + 1) { s' with pos := s'.pos + 1 } :=
      ⟨hsq, ⟨q', hlanes', by show _ = RATE * q' + (s'.pos + 1); omega⟩, hpos'⟩
    obtain ⟨hbytes, hend⟩ := hnext.squeezeBytes (n := n)
    rw [Sponge.squeezeBytes]
    dsimp only
    rw [hs', hbytes, hbyte, List.range_succ_eq_map, List.map_cons, List.map_map, Nat.add_zero]
    refine ⟨?_, ?_⟩
    · congr 1
      refine List.map_congr_left fun i _ => ?_
      show outByte S (k + 1 + i) = outByte S (k + (i + 1))
      congr 1
      omega
    · rw [show k + (n + 1) = k + 1 + n by omega]
      exact hend

/-- Output in pieces is the output at once. -/
theorem Squeezed.squeezes {S : Lanes} : ∀ (sizes : List Nat) {k : Nat} {s : Sponge}, Squeezed S k s →
    (s.squeezes sizes).flatten = (List.range sizes.sum).map fun i => outByte S (k + i)
  | [], _, _, _ => rfl
  | n :: sizes, k, s, h => by
    have hfinish : s.finish DOMAIN_SHAKE = s := by rw [finish, h.squeezing]; rfl
    obtain ⟨hbytes, hend⟩ := h.squeezeBytes (n := n)
    rw [Sponge.squeezes, squeeze, hfinish, List.flatten_cons, hbytes, hend.squeezes sizes, List.sum_cons,
      List.range_add, List.map_append, List.map_map]
    congr 1
    refine List.map_congr_left fun i _ => ?_
    show outByte S (k + n + i) = outByte S (k + (n + i))
    rw [Nat.add_assoc]

theorem squeezed_finish {s : Sponge} (h : s.squeezing = false) (domain : UInt8) :
    Squeezed (s.finish domain).lanes 0 (s.finish domain) := by
  rw [finish, h]
  exact ⟨rfl, ⟨0, rfl, rfl⟩, Nat.zero_le _⟩

/-- A bit of an output byte is the bit of the string at its place. -/
theorem getLsbD_byteAt (a : Lanes) {pos b : Nat} (hpos : pos < RATE) (hb : b < 8) :
    (byteAt a pos).toBitVec.getLsbD b = bitAt (bits a) (8 * pos + b) := by
  have hrate : RATE = 136 := rfl
  have hindex : (Fin.ofNat 25 (pos / 8)) =
      lane (Fin.ofNat 5 ((8 * pos + b) / 64)) (Fin.ofNat 5 ((8 * pos + b) / 64 / 5)) := by
    apply Fin.ext
    show pos / 8 % 25 = (8 * pos + b) / 64 % 5 + 5 * ((8 * pos + b) / 64 / 5 % 5)
    omega
  have hshift : (UInt64.ofNat (8 * (pos % 8))).toBitVec.toNat % 64 = 8 * (pos % 8) := by
    show (UInt64.ofNat (8 * (pos % 8))).toNat % 64 = _
    rw [UInt64.toNat_ofNat_of_lt' (by show _ < 2 ^ 64; omega)]
    omega
  rw [byteAt, bitAt, bits, ← hindex, UInt64.toBitVec_toUInt8, UInt64.toBitVec_shiftRight,
    BitVec.getLsbD_setWidth, BitVec.ushiftRight_eq', BitVec.toNat_umod,
    show (64 : BitVec 64).toNat = 64 from rfl, hshift, BitVec.getLsbD_ushiftRight, decide_eq_true hb,
    Bool.true_and]
  congr 1
  show 8 * (pos % 8) + b = (8 * pos + b) % 64
  omega

theorem bits_iterate (q : Nat) (S : Lanes) : bits (permute^[q] S) = keccakF^[q] (bits S) :=
  (Function.Semiconj.iterate_right (f := bits) Keccak.bits_permute q) S

/-- The bits of the output from a state. -/
theorem bitsOf_outBytes (S : Lanes) (n : Nat) : bitsOf ((List.range n).map (outByte S)) =
    (List.range (8 * n)).map fun k => bitAt (keccakF^[k / 1088] (bits S)) (k % 1088) := by
  have hrate : RATE = 136 := rfl
  apply List.ext_getElem?
  intro k
  rw [getElem?_bitsOf, List.getElem?_map, List.getElem?_map]
  by_cases hk : k < 8 * n
  · rw [List.getElem?_range (show k / 8 < n by omega), List.getElem?_range hk, Option.map_some,
      Option.map_some, Option.map_some, outByte, getLsbD_byteAt _ (Nat.mod_lt _ (by decide))
      (Nat.mod_lt _ (by decide)), bits_iterate, hrate]
    rw [show k / 8 / 136 = k / 1088 by omega, show 8 * (k / 8 % 136) + k % 8 = k % 1088 by omega]
  · rw [List.getElem?_eq_none (by simp; omega), List.getElem?_eq_none (by simp; omega)]
    rfl

/-- A message absorbed in pieces and finished with a domain squeezes the standard's output, in whatever
pieces it is read. -/
theorem squeezes_finished {pieces : List (List UInt8)} {domain : UInt8} {suffix : List Bool}
    (hs : Suffix domain suffix) (sizes : List Nat) :
    bitsOf (((pieces.foldl Sponge.absorb new).finish domain).squeezes sizes).flatten =
      KECCAK512 (bitsOf pieces.flatten ++ suffix) (8 * sizes.sum) := by
  have habsorbed := absorbed_pieces pieces
  have hout := (squeezed_finish habsorbed.absorbing domain).squeezes sizes
  rw [hout, KECCAK512, ← bits_finish habsorbed hs, ← bitsOf_outBytes]
  simp only [Nat.zero_add]

/-- Without a domain of its own a sponge squeezes as with SHAKE's. -/
theorem squeezes_unfinished (s : Sponge) (sizes : List Nat) :
    s.squeezes sizes = (s.finish DOMAIN_SHAKE).squeezes sizes := by
  have htwice : (s.finish DOMAIN_SHAKE).finish DOMAIN_SHAKE = s.finish DOMAIN_SHAKE := by
    by_cases h : s.squeezing = true
    · rw [show s.finish DOMAIN_SHAKE = s by rw [finish, if_pos h], finish, if_pos h]
    · exact if_pos (by rw [finish, if_neg h])
  cases sizes with
  | nil => rfl
  | cons n sizes => rw [squeezes, squeezes, squeeze, squeeze, htwice]

/-- A buffer is filled whole. -/
theorem length_squeezes (s : Sponge) (sizes : List Nat) :
    (s.squeezes sizes).map List.length = sizes := by
  have hbytes : ∀ (n : Nat) (s : Sponge), (squeezeBytes n s).1.length = n := by
    intro n
    induction n with
    | zero => exact fun _ => rfl
    | succ n ih => exact fun s => congrArg (· + 1) (ih _)
  induction sizes generalizing s with
  | nil => rfl
  | cons n sizes ih => rw [squeezes, List.map_cons, ih, squeeze, hbytes]

/-- Output in pieces is the output at once. -/
theorem squeezes_at_once {s : Sponge} {m : List UInt8} (h : Absorbed s m) (domain : UInt8)
    (sizes : List Nat) : ((s.finish domain).squeezes sizes).flatten =
      ((s.finish domain).squeeze sizes.sum).1 := by
  have hpieces := (squeezed_finish h.absorbing domain).squeezes sizes
  have honce := (squeezed_finish h.absorbing domain).squeezes [sizes.sum]
  rw [List.sum_singleton, squeezes, squeezes, List.flatten_singleton] at honce
  rw [hpieces, honce]

end Sponge

end NanoChrono.Hash

/-! ## Hashing in pieces

What SHA-512 and the sponge give for a message that comes in pieces, and for output that is read in
pieces: what the standards define for the whole. -/

namespace NanoChrono.Hash

open Fips202 (bitsOf)

/-- However a message is cut into updates, SHA-512's digest is the standard's of the whole; however it
is cut into calls of `absorb` and the output into calls of `squeeze`, the sponge gives SHA3-256's output
after it was finished for SHA3, SHAKE256's after it was finished for SHAKE or not at all, each call
filling its buffer with the part that is its turn. -/
theorem pieces_as_whole (pieces : List Bytes) (sizes : List Nat) :
    Sha512.finalize (pieces.foldl Sha512.update Sha512.new) = Fips180.sha512 pieces.flatten ∧
    (let s := pieces.foldl Sponge.absorb Sponge.new;
      bitsOf ((s.finish DOMAIN_SHA3).squeezes sizes).flatten =
          Fips202.SHA3_256 (bitsOf pieces.flatten) (8 * sizes.sum) ∧
        bitsOf ((s.finish DOMAIN_SHAKE).squeezes sizes).flatten =
          Fips202.SHAKE256 (bitsOf pieces.flatten) (8 * sizes.sum) ∧
        bitsOf (s.squeezes sizes).flatten =
          Fips202.SHAKE256 (bitsOf pieces.flatten) (8 * sizes.sum) ∧
        (∀ domain, ((s.finish domain).squeezes sizes).flatten =
          ((s.finish domain).squeeze sizes.sum).1) ∧
        ∀ domain, ((s.finish domain).squeezes sizes).map List.length = sizes) := by
  refine ⟨Sha512.finalize_absorbed (Sha512.absorbed_pieces pieces), ?_, ?_, ?_, ?_, ?_⟩
  · exact Sponge.squeezes_finished Sponge.suffix_sha3 sizes
  · exact Sponge.squeezes_finished Sponge.suffix_shake sizes
  · rw [Sponge.squeezes_unfinished]
    exact Sponge.squeezes_finished Sponge.suffix_shake sizes
  · exact fun domain => Sponge.squeezes_at_once (Sponge.absorbed_pieces pieces) domain sizes
  · exact fun domain => Sponge.length_squeezes _ sizes

end NanoChrono.Hash
