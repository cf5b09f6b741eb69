import Mathlib.Data.List.Induction
import Mathlib.Order.Basic
import NanoChrono.Hash.Blocks

/-! # SHA-512

The hash of packages, fed in pieces: a block that is not full waits for the next piece. FIPS 180-4's
definition of the hash of a whole message (`Fips180`) is stated apart from it, with its constants as
the standard describes them, and a message cut anywhere gives the digest of the whole
(`finalize_absorbed`). -/

namespace NanoChrono.Hash

open Buffer

abbrev Bytes := List UInt8

namespace Sha512

/-- Digest length in bytes. -/
def DIGEST_LEN : Nat := 64

/-- Block length in bytes. -/
def BLOCK_LEN : Nat := 128

/-- Eight words: a chaining value, or the working variables. -/
structure Words where
  a : UInt64
  b : UInt64
  c : UInt64
  d : UInt64
  e : UInt64
  f : UInt64
  g : UInt64
  h : UInt64
deriving DecidableEq, Repr

namespace Words

def toList (s : Words) : List UInt64 := [s.a, s.b, s.c, s.d, s.e, s.f, s.g, s.h]

def add (s v : Words) : Words :=
  ⟨s.a + v.a, s.b + v.b, s.c + v.c, s.d + v.d, s.e + v.e, s.f + v.f, s.g + v.g, s.h + v.h⟩

end Words

/-- The first 64 bits of the fractional parts of the square roots of the first eight primes. -/
def H0 : Words :=
  ⟨0x6a09e667f3bcc908, 0xbb67ae8584caa73b, 0x3c6ef372fe94f82b, 0xa54ff53a5f1d36f1,
    0x510e527fade682d1, 0x9b05688c2b3e6c1f, 0x1f83d9abfb41bd6b, 0x5be0cd19137e2179⟩

/-- The first 64 bits of the fractional parts of the cube roots of the first eighty primes. -/
def K : List UInt64 :=
  [ 0x428a2f98d728ae22, 0x7137449123ef65cd, 0xb5c0fbcfec4d3b2f, 0xe9b5dba58189dbbc,
    0x3956c25bf348b538, 0x59f111f1b605d019, 0x923f82a4af194f9b, 0xab1c5ed5da6d8118,
    0xd807aa98a3030242, 0x12835b0145706fbe, 0x243185be4ee4b28c, 0x550c7dc3d5ffb4e2,
    0x72be5d74f27b896f, 0x80deb1fe3b1696b1, 0x9bdc06a725c71235, 0xc19bf174cf692694,
    0xe49b69c19ef14ad2, 0xefbe4786384f25e3, 0x0fc19dc68b8cd5b5, 0x240ca1cc77ac9c65,
    0x2de92c6f592b0275, 0x4a7484aa6ea6e483, 0x5cb0a9dcbd41fbd4, 0x76f988da831153b5,
    0x983e5152ee66dfab, 0xa831c66d2db43210, 0xb00327c898fb213f, 0xbf597fc7beef0ee4,
    0xc6e00bf33da88fc2, 0xd5a79147930aa725, 0x06ca6351e003826f, 0x142929670a0e6e70,
    0x27b70a8546d22ffc, 0x2e1b21385c26c926, 0x4d2c6dfc5ac42aed, 0x53380d139d95b3df,
    0x650a73548baf63de, 0x766a0abb3c77b2a8, 0x81c2c92e47edaee6, 0x92722c851482353b,
    0xa2bfe8a14cf10364, 0xa81a664bbc423001, 0xc24b8b70d0f89791, 0xc76c51a30654be30,
    0xd192e819d6ef5218, 0xd69906245565a910, 0xf40e35855771202a, 0x106aa07032bbd1b8,
    0x19a4c116b8d2d0c8, 0x1e376c085141ab53, 0x2748774cdf8eeb99, 0x34b0bcb5e19b48a8,
    0x391c0cb3c5c95a63, 0x4ed8aa4ae3418acb, 0x5b9cca4f7763e373, 0x682e6ff3d6b2b8a3,
    0x748f82ee5defb2fc, 0x78a5636f43172f60, 0x84c87814a1f0ab72, 0x8cc702081a6439ec,
    0x90befffa23631e28, 0xa4506cebde82bde9, 0xbef9a3f7b2c67915, 0xc67178f2e372532b,
    0xca273eceea26619c, 0xd186b8c721c0c207, 0xeada7dd6cde0eb1e, 0xf57d4f7fee6ed178,
    0x06f067aa72176fba, 0x0a637dc5a2c898a6, 0x113f9804bef90dae, 0x1b710b35131c471b,
    0x28db77f523047d84, 0x32caab7b40c72493, 0x3c9ebe0a15c9bebc, 0x431d67c49c100d4c,
    0x4cc5d4becb3e42b6, 0x597f299cfc657e2a, 0x5fcb6fab3ad6faec, 0x6c44198c4a475817 ]

def rotateRight (x : UInt64) (n : UInt64) : UInt64 := x >>> n ||| x <<< (64 - n)

/-- Word `i` of a block, read big-endian by shifting. -/
def loadWord (block : Bytes) (i : Nat) : UInt64 :=
  (slice block (i * 8) 8).foldl (fun v b => v <<< 8 ||| b.toUInt64) 0

/-- Fills the message schedule up to eighty words. -/
@[grind =] def expand : Nat → List UInt64 → List UInt64
  | 0, w => w
  | n + 1, w =>
    let i := w.length
    let s0 := rotateRight (w.getD (i - 15) 0) 1 ^^^ rotateRight (w.getD (i - 15) 0) 8 ^^^
      (w.getD (i - 15) 0 >>> 7)
    let s1 := rotateRight (w.getD (i - 2) 0) 19 ^^^ rotateRight (w.getD (i - 2) 0) 61 ^^^
      (w.getD (i - 2) 0 >>> 6)
    expand n (w ++ [w.getD (i - 16) 0 + s0 + w.getD (i - 7) 0 + s1])

/-- One of the eighty rounds. -/
def round (k w : UInt64) (v : Words) : Words :=
  let bigS1 := rotateRight v.e 14 ^^^ rotateRight v.e 18 ^^^ rotateRight v.e 41
  let ch := (v.e &&& v.f) ^^^ (~~~v.e &&& v.g)
  let t1 := v.h + bigS1 + ch + k + w
  let bigS0 := rotateRight v.a 28 ^^^ rotateRight v.a 34 ^^^ rotateRight v.a 39
  let maj := (v.a &&& v.b) ^^^ (v.a &&& v.c) ^^^ (v.b &&& v.c)
  let t2 := bigS0 + maj
  ⟨t1 + t2, v.a, v.b, v.c, v.d + t1, v.e, v.f, v.g⟩

def compress (state : Words) (block : Bytes) : Words :=
  let w := expand 64 ((List.range 16).map (loadWord block))
  state.add ((List.range 80).foldl (fun v i => round (K.getD i 0) (w.getD i 0) v) state)

/-- A hash under way: the chaining value, the block being filled and the length so far. -/
structure Hasher where
  state : Words
  block : Bytes
  /-- Bytes waiting in `block`. -/
  fill : Nat
  /-- Message length so far, in bytes. -/
  len : BitVec 128

def new : Hasher := { state := H0, block := List.replicate BLOCK_LEN 0, fill := 0, len := 0 }

/-- Takes the complete blocks of a piece; what is left over waits. -/
def takeBlocks (h : Hasher) (data : Bytes) : Hasher :=
  let left := rest BLOCK_LEN data
  { h with
    state := (full BLOCK_LEN data).foldl compress h.state
    block := splice h.block 0 left
    fill := left.length }

def update (h : Hasher) (data : Bytes) : Hasher :=
  let h := { h with len := h.len + BitVec.ofNat 128 data.length }
  if h.fill > 0 then
    let take := min (BLOCK_LEN - h.fill) data.length
    let block := splice h.block h.fill (data.take take)
    let fill := h.fill + take
    if fill < BLOCK_LEN then { h with block, fill }
    else takeBlocks { h with state := compress h.state block, block, fill := 0 } (data.drop take)
  else takeBlocks h data

/-- The bytes of a word, the highest first. -/
def storeWord (word : UInt64) : Bytes :=
  (List.range 8).map fun j => (word >>> UInt64.ofNat (56 - 8 * j)).toUInt8

/-- The length field: the sixteen bytes of a number of bits, the highest first. -/
def lengthField (bits : BitVec 128) : Bytes :=
  (List.range 16).map fun j => ⟨(bits >>> (8 * (15 - j))).setWidth 8⟩

def finalize (h : Hasher) : Bytes :=
  let bits := h.len <<< 3
  let block := splice h.block h.fill (0x80 :: List.replicate (BLOCK_LEN - (h.fill + 1)) 0)
  -- no room for the 16-byte length after the 0x80: one more block
  let h :=
    if h.fill + 1 > BLOCK_LEN - 16 then
      { h with state := compress h.state block, block := List.replicate BLOCK_LEN 0 }
    else { h with block }
  let state := compress h.state (splice h.block (BLOCK_LEN - 16) (lengthField bits))
  state.toList.flatMap storeWord

end Sha512

/-! ## The standard -/

namespace Fips180

open Sha512 (Words)

/-- The primes in order, those below 410. -/
def primes : List Nat := (List.range 410).filter fun n => 2 ≤ n ∧ ∀ d ∈ List.range n, 2 ≤ d → n % d ≠ 0

/-- The `e`-th root of a number rounded down, from its bit `k - 1` on; `r` is what is above. -/
@[grind =] def floorRoot (e x : Nat) : Nat → Nat → Nat
  | 0, r => r
  | k + 1, r => if (r + 2 ^ k) ^ e ≤ x then floorRoot e x k (r + 2 ^ k) else floorRoot e x k r

theorem floorRoot_spec (e x : Nat) : ∀ (k r : Nat), r ^ e ≤ x → x < (r + 2 ^ k) ^ e →
    floorRoot e x k r ^ e ≤ x ∧ x < (floorRoot e x k r + 1) ^ e
  | 0, _, hlow, hhigh => ⟨hlow, hhigh⟩
  | k + 1, r, hlow, hhigh => by
    rw [floorRoot]
    split
    case isTrue h =>
      refine floorRoot_spec e x k _ h ?_
      rwa [Nat.add_assoc, ← Nat.two_mul, ← Nat.pow_succ']
    case isFalse h => exact floorRoot_spec e x k r hlow (Nat.lt_of_not_le h)

/-- The first 64 bits of the fractional part of the `e`-th root of `p`, a root below 32. -/
def fractionOfRoot (e p : Nat) : UInt64 := UInt64.ofNat (floorRoot e (p * 2 ^ (64 * e)) 69 0)

/-- The constants of the rounds (4.2.3). -/
def constant (t : Nat) : UInt64 := fractionOfRoot 3 (primes.getD t 0)

/-- The initial hash value (5.3.5). -/
def initial : Words :=
  ⟨fractionOfRoot 2 2, fractionOfRoot 2 3, fractionOfRoot 2 5, fractionOfRoot 2 7,
    fractionOfRoot 2 11, fractionOfRoot 2 13, fractionOfRoot 2 17, fractionOfRoot 2 19⟩

def ROTR (n x : UInt64) : UInt64 := (x >>> n) ||| (x <<< (64 - n))

def SHR (n x : UInt64) : UInt64 := x >>> n

def Ch (x y z : UInt64) : UInt64 := (x &&& y) ^^^ (~~~x &&& z)

def Maj (x y z : UInt64) : UInt64 := (x &&& y) ^^^ (x &&& z) ^^^ (y &&& z)

def Sigma0 (x : UInt64) : UInt64 := ROTR 28 x ^^^ ROTR 34 x ^^^ ROTR 39 x

def Sigma1 (x : UInt64) : UInt64 := ROTR 14 x ^^^ ROTR 18 x ^^^ ROTR 41 x

def sigma0 (x : UInt64) : UInt64 := ROTR 1 x ^^^ ROTR 8 x ^^^ SHR 7 x

def sigma1 (x : UInt64) : UInt64 := ROTR 19 x ^^^ ROTR 61 x ^^^ SHR 6 x

/-- A number written in bytes, the highest first. -/
def bigEndian (b : Bytes) : Nat := leValue b.reverse

/-- The bytes of a number, the highest first. -/
def bigBytes (w n : Nat) : Bytes := (leBytes w n).reverse

/-- Word `t` of a message block. -/
def word (block : Bytes) (t : Nat) : UInt64 := UInt64.ofNat (bigEndian (slice block (8 * t) 8))

/-- The message schedule (6.4.2, step 1). -/
def W (block : Bytes) (t : Nat) : UInt64 :=
  if t < 16 then word block t
  else sigma1 (W block (t - 2)) + W block (t - 7) + sigma0 (W block (t - 15)) + W block (t - 16)
termination_by t

/-- A round of the computation (6.4.2, step 3). -/
def round (block : Bytes) (v : Words) (t : Nat) : Words :=
  let T1 := v.h + Sigma1 v.e + Ch v.e v.f v.g + constant t + W block t
  let T2 := Sigma0 v.a + Maj v.a v.b v.c
  ⟨T1 + T2, v.a, v.b, v.c, v.d + T1, v.e, v.f, v.g⟩

/-- The hash value after one more block (6.4.2). -/
def step (H : Words) (block : Bytes) : Words :=
  let v := (List.range 80).foldl (round block) H
  ⟨v.a + H.a, v.b + H.b, v.c + H.c, v.d + H.d, v.e + H.e, v.f + H.f, v.g + H.g, v.h + H.h⟩

/-- A message of bytes padded (5.1.2): a one bit and the fewest zeros that leave room for its length in
bits at the end of a block of 1024 bits. -/
def pad (m : Bytes) : Bytes :=
  m ++ 0x80 :: List.replicate ((111 + 128 - m.length % 128) % 128) 0 ++ bigBytes 16 (8 * m.length)

/-- The digest of a message (6.4). -/
def sha512 (m : Bytes) : Bytes :=
  ((full 128 (pad m)).foldl step initial).toList.flatMap fun H => bigBytes 8 H.toNat

end Fips180

/-! ## Words and bytes -/

namespace Sha512

open Fips180

theorem bigEndian_concat (l : Bytes) (b : UInt8) :
    bigEndian (l ++ [b]) = bigEndian l * 256 + b.toNat := by
  rw [bigEndian, List.reverse_append, List.reverse_singleton, List.singleton_append, leValue, bigEndian]
  omega

theorem bigEndian_lt (l : Bytes) : bigEndian l < 256 ^ l.length := by
  have h := leValue_lt l.reverse
  rwa [List.length_reverse] at h

/-- Shifting bytes in is reading them big-endian. -/
theorem toNat_shiftIn : ∀ (l : Bytes), l.length ≤ 8 →
    (l.foldl (fun (v : UInt64) b => v <<< 8 ||| b.toUInt64) 0).toNat = bigEndian l := by
  intro l
  induction l using List.reverseRecOn with
  | nil => exact fun _ => rfl
  | append_singleton l b ih =>
    intro hlen
    rw [List.length_append, List.length_singleton] at hlen
    have hvalue := ih (by omega)
    have hlt : bigEndian l < 2 ^ 56 := by
      refine (bigEndian_lt l).trans_le ?_
      rw [show (2 : Nat) ^ 56 = 256 ^ 7 by rfl]
      exact Nat.pow_le_pow_right (by decide) (by omega)
    have hb : b.toNat < 2 ^ 8 := b.toNat_lt
    rw [List.foldl_append, List.foldl_cons, List.foldl_nil, UInt64.toNat_or, UInt64.toNat_shiftLeft,
      hvalue, UInt8.toNat_toUInt64, bigEndian_concat]
    rw [show (8 : UInt64).toNat % 64 = 8 from rfl, Nat.shiftLeft_eq, Nat.mod_eq_of_lt (by omega),
      ← Nat.shiftLeft_eq, ← Nat.shiftLeft_add_eq_or_of_lt hb, Nat.shiftLeft_eq]

theorem loadWord_eq (block : Bytes) (i : Nat) : loadWord block i = word block i := by
  have hlen : (slice block (i * 8) 8).length ≤ 8 := by
    rw [length_slice]
    omega
  rw [word, Nat.mul_comm 8 i, ← toNat_shiftIn _ hlen, UInt64.ofNat_toNat, loadWord]

theorem getElem?_leBytes (w n i : Nat) :
    (leBytes w n)[i]? = if i < w then some (UInt8.ofNat (n / 256 ^ i)) else none := by
  induction w generalizing n i with
  | zero => simp [leBytes]
  | succ w ih =>
    cases i with
    | zero => simp [leBytes]
    | succ i =>
      rw [leBytes, List.getElem?_cons_succ, ih, Nat.div_div_eq_div_mul, ← Nat.pow_succ']
      simp

theorem getElem?_bigBytes (w n i : Nat) :
    (bigBytes w n)[i]? = if i < w then some (UInt8.ofNat (n / 256 ^ (w - 1 - i))) else none := by
  by_cases h : i < w
  · rw [bigBytes, List.getElem?_reverse (by simpa using h), length_leBytes, getElem?_leBytes,
      if_pos (by omega), if_pos h]
  · rw [if_neg h, List.getElem?_eq_none (by simpa [bigBytes] using h)]

theorem storeWord_eq (v : UInt64) : storeWord v = bigBytes 8 v.toNat := by
  apply List.ext_getElem?
  intro i
  rw [getElem?_bigBytes, storeWord, List.getElem?_map]
  by_cases h : i < 8
  · rw [List.getElem?_range h, if_pos h, Option.map_some]
    congr 1
    apply UInt8.toNat_inj.1
    have hshift : (UInt64.ofNat (56 - 8 * i)).toNat % 64 = 56 - 8 * i := by
      rw [UInt64.toNat_ofNat_of_lt' (by show _ < 2 ^ 64; omega)]
      omega
    rw [UInt64.toNat_toUInt8, UInt64.toNat_shiftRight, hshift, Nat.shiftRight_eq_div_pow,
      UInt8.toNat_ofNat', show (256 : Nat) = 2 ^ 8 from rfl, ← Nat.pow_mul,
      show 8 * (8 - 1 - i) = 56 - 8 * i by omega]
  · rw [List.getElem?_eq_none (by simpa using h), if_neg h, Option.map_none]

theorem lengthField_eq (n : Nat) :
    lengthField (BitVec.ofNat 128 n <<< 3) = bigBytes 16 (8 * n) := by
  apply List.ext_getElem?
  intro i
  rw [getElem?_bigBytes, lengthField, List.getElem?_map]
  by_cases h : i < 16
  · rw [List.getElem?_range h, if_pos h, Option.map_some]
    congr 1
    apply UInt8.toNat_inj.1
    show (((BitVec.ofNat 128 n <<< 3) >>> (8 * (15 - i))).setWidth 8).toNat = _
    rw [BitVec.toNat_setWidth, BitVec.toNat_ushiftRight, BitVec.toNat_shiftLeft, BitVec.toNat_ofNat,
      Nat.shiftRight_eq_div_pow, Nat.shiftLeft_eq, UInt8.toNat_ofNat',
      show (256 : Nat) = 2 ^ 8 from rfl, ← Nat.pow_mul, show 16 - 1 - i = 15 - i by omega]
    -- the length field is cut at 128 bits either way
    have hbits : n % 2 ^ 128 * 2 ^ 3 % 2 ^ 128 = 8 * n % 2 ^ 128 := by
      rw [Nat.mod_mul_mod, Nat.mul_comm, show (2 : Nat) ^ 3 = 8 from rfl]
    rw [hbits]
    have hsplit : (2 : Nat) ^ 128 = 2 ^ (8 * (15 - i)) * 2 ^ (128 - 8 * (15 - i)) := by
      rw [← Nat.pow_add]
      congr 1
      omega
    rw [hsplit, Nat.mod_mul_right_div_self]
    exact Nat.mod_mod_of_dvd _ (Nat.pow_dvd_pow 2 (by omega))
  · rw [List.getElem?_eq_none (by simpa using h), if_neg h, Option.map_none]

/-! ## The compression function -/

/-- A divisor below the root tells whether a number below `21 ^ 2` is a prime. -/
theorem primes_sieved : primes = (List.range 410).filter fun n =>
    Nat.ble 2 n && (List.range 21).all fun d => Nat.ble d 1 || Nat.ble n d || Nat.ble 1 (n % d) := by
  refine List.filter_congr fun n hn => ?_
  have hlt := List.mem_range.1 hn
  rw [Bool.eq_iff_iff, decide_eq_true_iff, Bool.and_eq_true, List.all_eq_true, Nat.ble_eq]
  refine and_congr_right fun h2 => ⟨fun h d hd => ?_, fun h d hd h2d hdvd => ?_⟩
  · by_cases h1 : d ≤ 1
    · simp [h1]
    · by_cases hle : n ≤ d
      · simp [hle]
      · have hmod := h d (List.mem_range.2 (by omega)) (by omega)
        simp [Nat.one_le_iff_ne_zero.2 hmod]
  · -- A divisor or its cofactor is not above the root.
    have hcofactor : n / d * d = n := Nat.div_mul_cancel (Nat.dvd_of_mod_eq_zero hdvd)
    have hd := List.mem_range.1 hd
    have htwo : 2 ≤ n / d := by
      by_contra hone
      have hle : n / d * d ≤ 1 * d := Nat.mul_le_mul_right d (by omega)
      omega
    by_cases hsmall : d < 21
    · have hd' := h d (List.mem_range.2 hsmall)
      simp [hdvd] at hd'
      omega
    · have hquot : n / d * 21 ≤ n / d * d := Nat.mul_le_mul_left _ (by omega)
      have hd' := h (n / d) (List.mem_range.2 (by omega))
      simp [Nat.mod_eq_zero_of_dvd (Dvd.intro d hcofactor)] at hd'
      omega

theorem primes_eq : primes =
    [ 2, 3, 5, 7, 11, 13, 17, 19, 23, 29, 31, 37, 41, 43, 47, 53, 59, 61, 67, 71,
      73, 79, 83, 89, 97, 101, 103, 107, 109, 113, 127, 131, 137, 139, 149, 151, 157, 163, 167, 173,
      179, 181, 191, 193, 197, 199, 211, 223, 227, 229, 233, 239, 241, 251, 257, 263, 269, 271, 277, 281,
      283, 293, 307, 311, 313, 317, 331, 337, 347, 349, 353, 359, 367, 373, 379, 383, 389, 397, 401, 409 ] := by
  rw [primes_sieved]
  decide

theorem length_primes : primes.length = 80 := by
  rw [primes_eq]
  decide

theorem K_eq : K = (List.range 80).map constant := by
  have hprimes : (List.range 80).map constant = primes.map (fractionOfRoot 3) := by
    apply List.ext_getElem?
    intro i
    rw [List.getElem?_map, List.getElem?_map]
    by_cases h : i < 80
    · rw [List.getElem?_range h, Option.map_some, constant, List.getD_eq_getElem?_getD,
        List.getElem?_eq_getElem (by rw [length_primes]; exact h)]
      rfl
    · rw [List.getElem?_eq_none (by simpa using h),
        List.getElem?_eq_none (by rw [length_primes]; exact Nat.le_of_not_lt h), Option.map_none,
        Option.map_none]
  rw [hprimes, primes_eq]
  decide

theorem H0_eq : H0 = initial := by decide

theorem W_of_le {block : Bytes} {t : Nat} (h : ¬ t < 16) :
    W block t = W block (t - 16) + sigma0 (W block (t - 15)) + W block (t - 7) +
      sigma1 (W block (t - 2)) := by
  rw [W, if_neg h]
  ac_rfl

/-- The schedule is filled in with the standard's words. -/
theorem expand_eq (block : Bytes) : ∀ (n m : Nat), 16 ≤ m →
    expand n ((List.range m).map (W block)) = (List.range (m + n)).map (W block)
  | 0, _, _ => rfl
  | n + 1, m, hm => by
    have hget (j : Nat) (hj : j < m) : ((List.range m).map (W block)).getD j 0 = W block j := by
      rw [List.getD_eq_getElem?_getD, List.getElem?_map, List.getElem?_range hj]
      rfl
    rw [expand]
    simp only [List.length_map, List.length_range]
    rw [hget (m - 15) (by omega), hget (m - 2) (by omega), hget (m - 16) (by omega),
      hget (m - 7) (by omega)]
    have hnext : (List.range m).map (W block) ++ [W block m] = (List.range (m + 1)).map (W block) := by
      rw [List.range_succ, List.map_append, List.map_singleton]
    rw [W_of_le (show ¬ m < 16 by omega)] at hnext
    have hrest := expand_eq block n (m + 1) (by omega)
    rw [← hnext] at hrest
    rw [show m + (n + 1) = m + 1 + n by omega]
    exact hrest

theorem step_eq (H : Words) (block : Bytes) :
    step H block = H.add ((List.range 80).foldl (Fips180.round block) H) := by
  rw [step, Words.add]
  generalize (List.range 80).foldl (Fips180.round block) H = v
  simp only [UInt64.add_comm]

theorem getD_map_range {f : Nat → UInt64} {n i : Nat} (h : i < n) :
    ((List.range n).map f).getD i 0 = f i := by
  rw [List.getD_eq_getElem?_getD, List.getElem?_map, List.getElem?_range h]
  rfl

theorem round_eq (block : Bytes) (v : Words) (t : Nat) :
    Sha512.round (constant t) (W block t) v = Fips180.round block v t := by
  rw [Sha512.round, Fips180.round]
  generalize constant t = k
  generalize W block t = w
  rfl

/-- The rounds are the standard's, on its constants and its words. -/
theorem rounds_eq (block : Bytes) (n : Nat) : ∀ (l : List Nat) (v : Words), (∀ i ∈ l, i < n) →
    l.foldl (fun v i => Sha512.round (((List.range n).map constant).getD i 0)
      (((List.range n).map (W block)).getD i 0) v) v = l.foldl (Fips180.round block) v
  | [], v, _ => by rw [List.foldl_nil, List.foldl_nil]
  | i :: l, v, h => by
    have hi : i < n := h i (List.mem_cons_self ..)
    rw [List.foldl_cons, List.foldl_cons, getD_map_range hi, getD_map_range hi, round_eq,
      rounds_eq block n l _ fun x hx => h x (List.mem_cons_of_mem _ hx)]

theorem compress_eq (state : Words) (block : Bytes) : compress state block = step state block := by
  have hload : (List.range 16).map (loadWord block) = (List.range 16).map (W block) := by
    refine List.map_congr_left fun i hi => ?_
    rw [loadWord_eq, W, if_pos (List.mem_range.1 hi)]
  have hw : expand 64 ((List.range 16).map (loadWord block)) = (List.range 80).map (W block) := by
    rw [hload]
    exact expand_eq block 64 16 le_rfl
  have hrounds := rounds_eq block 80 (List.range 80) state fun i hi => List.mem_range.1 hi
  rw [step_eq, ← hrounds, compress, hw, K_eq]

/-! ## A message in pieces -/

/-- A hash under way has taken in a message: its complete blocks are in the chaining value, what is left
over waits in the block. -/
structure Absorbed (h : Hasher) (m : Bytes) : Prop where
  state : h.state = (full BLOCK_LEN m).foldl compress H0
  length : h.block.length = BLOCK_LEN
  fill : h.fill = (rest BLOCK_LEN m).length
  waiting : h.block.take h.fill = rest BLOCK_LEN m
  len : h.len = BitVec.ofNat 128 m.length

theorem absorbed_new : Absorbed new [] where
  state := by rw [full_of_lt (by decide)]; rfl
  length := List.length_replicate ..
  fill := by rw [rest_of_lt (by decide)]; rfl
  waiting := by rw [rest_of_lt (by decide)]; rfl
  len := rfl

/-- Taking complete blocks when nothing waits. -/
theorem absorbed_takeBlocks {h : Hasher} {m data : Bytes}
    (hstate : h.state = (full BLOCK_LEN m).foldl compress H0) (hlength : h.block.length = BLOCK_LEN)
    (hrest : rest BLOCK_LEN m = []) (hlen : h.len = BitVec.ofNat 128 (m ++ data).length) :
    Absorbed (takeBlocks h data) (m ++ data) := by
  have hfull : full BLOCK_LEN (m ++ data) = full BLOCK_LEN m ++ full BLOCK_LEN data := by
    rw [full_append, hrest, List.nil_append]
  have hleft : rest BLOCK_LEN (m ++ data) = rest BLOCK_LEN data := by
    rw [rest_append, hrest, List.nil_append]
  have hlt := length_rest_lt (show 0 < BLOCK_LEN by decide) data
  refine ⟨?_, ?_, ?_, ?_, hlen⟩
  · rw [hfull, List.foldl_append, ← hstate]
    rfl
  · show (splice h.block 0 (rest BLOCK_LEN data)).length = _
    rw [length_splice (by omega), hlength]
  · rw [hleft]
    rfl
  · show (splice h.block 0 (rest BLOCK_LEN data)).take (rest BLOCK_LEN data).length = _
    rw [hleft, splice, List.take_zero, List.nil_append]
    exact List.take_left

/-- A piece continues the message. -/
theorem Absorbed.update {h : Hasher} {m : Bytes} (hm : Absorbed h m) (data : Bytes) :
    Absorbed (update h data) (m ++ data) := by
  have hlen : h.len + BitVec.ofNat 128 data.length = BitVec.ofNat 128 (m ++ data).length := by
    rw [hm.len, List.length_append, BitVec.ofNat_add]
  have hlt := length_rest_lt (show 0 < BLOCK_LEN by decide) m
  have hlength := hm.length
  have hfill := hm.fill
  rw [Sha512.update]
  dsimp only
  split
  case isFalse hempty =>
    refine absorbed_takeBlocks hm.state hm.length ?_ hlen
    exact List.eq_nil_of_length_eq_zero (by omega)
  case isTrue =>
    have hsplice : splice h.block h.fill (data.take (min (BLOCK_LEN - h.fill) data.length)) =
        rest BLOCK_LEN m ++ data.take (min (BLOCK_LEN - h.fill) data.length) ++
          h.block.drop (h.fill + (data.take (min (BLOCK_LEN - h.fill) data.length)).length) := by
      rw [splice, hm.waiting, List.append_assoc]
    split
    case isTrue hroom =>
      -- the piece fits into the block that is being filled
      have htake : min (BLOCK_LEN - h.fill) data.length = data.length := by omega
      have hshort : (rest BLOCK_LEN m ++ data).length < BLOCK_LEN := by
        rw [List.length_append]
        omega
      rw [htake, List.take_length] at hsplice
      rw [htake, List.take_length]
      have hleft : rest BLOCK_LEN (m ++ data) = rest BLOCK_LEN m ++ data := by
        rw [rest_append, rest_of_lt hshort]
      refine ⟨?_, ?_, ?_, ?_, hlen⟩
      · rw [full_append, full_of_lt hshort, List.append_nil]
        exact hm.state
      · show (splice h.block h.fill data).length = _
        rw [length_splice (by omega), hlength]
      · rw [hleft, List.length_append, ← hfill]
      · show (splice h.block h.fill data).take (h.fill + data.length) = _
        rw [hsplice, hleft, hfill, ← List.length_append]
        exact List.take_left
    case isFalse hfull =>
      -- the block that is being filled is complete
      have htake : min (BLOCK_LEN - h.fill) data.length = BLOCK_LEN - h.fill := by omega
      rw [htake] at hsplice ⊢
      have hpiece : (data.take (BLOCK_LEN - h.fill)).length = BLOCK_LEN - h.fill := by
        rw [List.length_take]
        omega
      rw [hpiece, List.drop_eq_nil_of_le (by omega), List.append_nil] at hsplice
      have hblock : (rest BLOCK_LEN m ++ data.take (BLOCK_LEN - h.fill)).length = BLOCK_LEN := by
        rw [List.length_append, hpiece]
        omega
      have hsplit : m ++ data = (m ++ data.take (BLOCK_LEN - h.fill)) ++ data.drop (BLOCK_LEN - h.fill) := by
        rw [List.append_assoc, List.take_append_drop]
      have hone := full_self (show 0 < BLOCK_LEN by decide) hblock
      have hnone := rest_self (show 0 < BLOCK_LEN by decide) hblock
      rw [hsplit, hsplice]
      refine absorbed_takeBlocks ?_ hblock ?_ (by rw [← hsplit]; exact hlen)
      · show compress h.state _ = _
        rw [full_append, hone, List.foldl_append, ← hm.state]
        rfl
      · rw [rest_append, hnone]

/-- A message in pieces is taken in as the whole. -/
theorem absorbed_pieces (pieces : List Bytes) :
    Absorbed (pieces.foldl Sha512.update new) pieces.flatten := by
  induction pieces using List.reverseRecOn with
  | nil => exact absorbed_new
  | append_singleton pieces piece ih =>
    rw [List.foldl_append, List.flatten_append, List.flatten_singleton]
    exact ih.update piece

/-! ## The digest -/

theorem splice_end {b : Bytes} {n : Nat} {src : Bytes} (h : n + src.length = b.length) :
    splice b n src = b.take n ++ src := by
  rw [splice, h, List.drop_length, List.append_nil]

/-- The digest of what was taken in is the standard's. -/
theorem finalize_absorbed {h : Hasher} {m : Bytes} (hm : Absorbed h m) :
    finalize h = Fips180.sha512 m := by
  have hlt := length_rest_lt (show 0 < BLOCK_LEN by decide) m
  have hlength : h.block.length = 128 := hm.length
  have hfill : h.fill = (rest 128 m).length := hm.fill
  have hbits := lengthField_eq m.length
  rw [← hm.len] at hbits
  have hfield : (bigBytes 16 (8 * m.length)).length = 16 := by simp [bigBytes]
  -- what is left over has the message's length, up to whole blocks
  have hmod : m.length % 128 = h.fill := by
    have hflat := congrArg List.length (full_rest BLOCK_LEN m)
    rw [List.length_append, length_flatten_full, show (rest BLOCK_LEN m).length = h.fill from hfill.symm]
      at hflat
    rw [← hflat, BLOCK_LEN, Nat.mul_add_mod, Nat.mod_eq_of_lt (by rw [hfill]; exact hlt)]
  have hpad : full 128 (pad m) = full 128 m ++ full 128 (rest 128 m ++
      (0x80 :: List.replicate ((111 + 128 - m.length % 128) % 128) 0 ++ bigBytes 16 (8 * m.length))) := by
    rw [pad, List.append_assoc, full_append]
  have hblock : splice h.block h.fill (0x80 :: List.replicate (BLOCK_LEN - (h.fill + 1)) 0) =
      rest 128 m ++ 0x80 :: List.replicate (BLOCK_LEN - (h.fill + 1)) 0 := by
    rw [splice_end (by simp [BLOCK_LEN] at hlt ⊢; omega), hm.waiting]
    rfl
  have hfold : ∀ bs : List Bytes, bs.foldl step initial = bs.foldl compress H0 := by
    intro bs
    rw [H0_eq, show step = compress from funext fun s => funext fun b => (compress_eq s b).symm]
  have hwords : ∀ s : Words, s.toList.flatMap storeWord = s.toList.flatMap fun H => bigBytes 8 H.toNat := by
    intro s
    rw [show storeWord = fun H => bigBytes 8 H.toNat from funext storeWord_eq]
  have hstate : h.state = (full 128 m).foldl compress H0 := hm.state
  rw [sha512, hfold, hpad, List.foldl_append, ← hstate, ← hwords, hmod, finalize]
  rw [hblock, hbits]
  by_cases hfar : h.fill + 1 > BLOCK_LEN - 16
  · -- the length goes into a block of its own
    rw [if_pos hfar]
    simp only [BLOCK_LEN] at hlt hfar ⊢
    have hzeros : (111 + 128 - h.fill) % 128 = 127 - h.fill + 112 := by omega
    have hfirst : (rest 128 m ++ 0x80 :: List.replicate (128 - (h.fill + 1)) 0).length = 128 := by
      simp
      omega
    have hsecond : (List.replicate 112 (0 : UInt8) ++ bigBytes 16 (8 * m.length)).length = 128 := by
      rw [List.length_append, hfield, List.length_replicate]
    have hjoin : rest 128 m ++ (0x80 :: List.replicate ((111 + 128 - h.fill) % 128) 0 ++
        bigBytes 16 (8 * m.length)) =
        (rest 128 m ++ 0x80 :: List.replicate (128 - (h.fill + 1)) 0) ++
          (List.replicate 112 0 ++ bigBytes 16 (8 * m.length)) := by
      rw [hzeros, ← List.replicate_append_replicate, show 127 - h.fill = 128 - (h.fill + 1) by omega]
      simp
    rw [hjoin, full_cons (by decide) hfirst, full_self (by decide) hsecond, splice_end (by rw [hfield, List.length_replicate]), List.take_replicate]
    rfl
  · rw [if_neg hfar]
    simp only [BLOCK_LEN] at hlt hfar ⊢
    have hzeros : (111 + 128 - h.fill) % 128 = 111 - h.fill := by omega
    have hone : (rest 128 m ++ (0x80 :: List.replicate (111 - h.fill) 0 ++
        bigBytes 16 (8 * m.length))).length = 128 := by
      simp [bigBytes]
      omega
    rw [hzeros, full_self (by decide) hone, splice_end (by rw [hfield]; simp; omega)]
    have htake : (rest 128 m ++ 0x80 :: List.replicate (128 - (h.fill + 1)) 0).take (128 - 16) =
        rest 128 m ++ 0x80 :: List.replicate (111 - h.fill) 0 := by
      have hsplit : 128 - (h.fill + 1) = (111 - h.fill) + 16 := by omega
      rw [hsplit, ← List.replicate_append_replicate, ← List.cons_append, ← List.append_assoc]
      exact List.take_left' (by simp; omega)
    rw [htake, List.append_assoc]
    rfl

end Sha512

end NanoChrono.Hash
