import NanoChrono.Deflate.Canonical
import NanoChrono.Deflate.Decode

/-! # The DEFLATE format, read a bit at a time

What a stream means: its bits are taken one after another (`number`), a symbol is the first thing they spell
in its code (`symbol`), and nothing is read ahead, looked up or kept from one block to the next. Incomplete
codes are used as zlib uses them (`Usable`). -/

namespace NanoChrono.Deflate

/-- The bits of the input, the lowest of each byte first. -/
def bitsOf (input : List UInt8) : List Bool :=
  input.flatMap fun b => (List.range 8).map b.toNat.testBit

namespace Reference

/-! ## Numbers and symbols -/

/-- A number of `n` bits, the lowest first. -/
@[grind =] def number : (n : Nat) → List Bool → Except Error (Nat × List Bool)
  | 0, s => .ok (0, s)
  | _ + 1, [] => .error .truncated
  | n + 1, b :: s => (number n s).map fun r => (b.toNat + 2 * r.1, r.2)

/-- Whole bytes. -/
@[grind =] def bytes : (n : Nat) → List Bool → Except Error (List UInt8 × List Bool)
  | 0, s => .ok ([], s)
  | n + 1, s =>
    (number 8 s).bind fun b => (bytes n b.2).map fun r => (UInt8.ofNat b.1 :: r.1, r.2)

/-- The symbol whose code goes on after the `len` bits `c`, with at most `k` bits more. -/
@[grind =] def symbolFrom (lengths : List Nat) : (k len c : Nat) → List Bool → Except Error (Nat × List Bool)
  | 0, _, _, _ => .error .badSymbol
  | _ + 1, _, _, [] => .error .truncated
  | k + 1, len, c, b :: s =>
    match Canonical.symbolOf lengths (len + 1) (2 * c + b.toNat) with
    | some sym => .ok (sym, s)
    | none => symbolFrom lengths k (len + 1) (2 * c + b.toNat) s

/-- The next symbol in the code of these lengths, its highest bit first. -/
def symbol (lengths : List Nat) (s : List Bool) : Except Error (Nat × List Bool) :=
  symbolFrom lengths maxBits 0 0 s

/-! ## Code lengths -/

/-- A code that leaves nothing over, or that has no symbols. -/
def Complete (lengths : List Nat) : Prop :=
  Canonical.kraft lengths maxBits = 2 ^ maxBits ∨ ∀ l ∈ lengths, l = 0

/-- A complete code, or a single code of one bit. -/
def Usable (lengths : List Nat) : Prop :=
  Complete lengths ∨ (lengths.count 1 = 1 ∧ ∀ l ∈ lengths, l ≤ 1)

instance (lengths : List Nat) : Decidable (Complete lengths) :=
  inferInstanceAs (Decidable (_ ∨ _))

instance (lengths : List Nat) : Decidable (Usable lengths) :=
  inferInstanceAs (Decidable (_ ∨ _))

/-- The lengths of the code-length code's symbols, as they are sent. -/
@[grind =] def clens : (slots lengths : List Nat) → List Bool → Except Error (List Nat × List Bool)
  | [], lengths, s => .ok (lengths, s)
  | slot :: slots, lengths, s => (number 3 s).bind fun r => clens slots (lengths.set slot r.1) r.2

/-- The length a code-length symbol stands for, and how often. -/
def run (lengths : List Nat) (sym : Nat) (s : List Bool) :
    Except Error (Nat × {n : Nat // 0 < n} × List Bool) :=
  if sym < 16 then .ok (sym, ⟨1, Nat.one_pos⟩, s)
  else if sym = 16 then
    match lengths.getLast? with
    | none => .error .badCode
    | some l => (number 2 s).map fun r => (l, ⟨3 + r.1, Nat.add_pos_left (Nat.succ_pos 2) _⟩, r.2)
  else if sym = 17 then (number 3 s).map fun r => (0, ⟨3 + r.1, Nat.add_pos_left (Nat.succ_pos 2) _⟩, r.2)
  else if sym = 18 then (number 7 s).map fun r => (0, ⟨11 + r.1, Nat.add_pos_left (Nat.succ_pos 10) _⟩, r.2)
  else .error .badSymbol

/-- Code lengths up to `total` of them. -/
def lengthsFrom (clen : List Nat) (total : Nat) (lengths : List Nat) (s : List Bool) :
    Except Error (List Nat × List Bool) :=
  if _h : lengths.length < total then
    (symbol clen s).bind fun r =>
    (run lengths r.1 r.2).bind fun v =>
    if total < lengths.length + v.2.1 then .error .badCode
    else lengthsFrom clen total (lengths ++ List.replicate v.2.1 v.1) v.2.2
  else .ok (lengths, s)
termination_by total - lengths.length
decreasing_by
  have := v.2.1.2
  rw [List.length_append, List.length_replicate]
  omega

/-- The lengths of a dynamic block's two codes. -/
def dynamic (s : List Bool) : Except Error (List Nat × List Nat × List Bool) :=
  (number 5 s).bind fun hlit =>
  (number 5 hlit.2).bind fun hdist =>
  (number 4 hdist.2).bind fun hclen =>
  let nlen := hlit.1 + 257
  let ndist := hdist.1 + 1
  if 286 < nlen ∨ 30 < ndist then .error .badCode
  else
    (clens (clenOrder.take (hclen.1 + 4)) (List.replicate 19 0) hclen.2).bind fun clen =>
    if Complete clen.1 then
      (lengthsFrom clen.1 (nlen + ndist) [] clen.2).bind fun lengths =>
      let lit := lengths.1.take nlen
      let dist := lengths.1.drop nlen
      if lit.getD 256 0 ≠ 0 ∧ Usable lit ∧ Usable dist then .ok (lit, dist, lengths.2) else .error .badCode
    else .error .badCode

/-- The lengths of the literal and length code of fixed blocks. -/
def fixedLit : List Nat :=
  List.replicate 144 8 ++ List.replicate 112 9 ++ List.replicate 24 7 ++ List.replicate 8 8

/-- The lengths of their distance code. -/
def fixedDist : List Nat := List.replicate 30 5

/-! ## Blocks -/

/-- A length or a distance. -/
def based (base extra : List Nat) (sym : Nat) (s : List Bool) : Except Error (Nat × List Bool) :=
  match base[sym]? with
  | none => .error .badSymbol
  | some b => (number (extra.getD sym 0) s).map fun r => (b + r.1, r.2)

section Decode

variable {σ : Type} (o : Output σ)

/-- A stored block, from the next byte on. -/
def stored (s : List Bool) (out : σ) : Except Error (List Bool × σ) :=
  (number 16 (s.drop (s.length % 8))).bind fun len =>
  (number 16 len.2).bind fun nlen =>
  if len.1 ≠ 0xFFFF - nlen.1 then .error .badBlock
  else
    (bytes len.1 nlen.2).bind fun body => (o.putSlice out body.1).map fun out => (body.2, out)

/-- One symbol of a block, and whether it ends the block. -/
def codesStep (lit dist : List Nat) (s : List Bool) (out : σ) : Except Error (Bool × List Bool × σ) :=
  (symbol lit s).bind fun sym =>
  if sym.1 < 256 then (o.put out (UInt8.ofNat sym.1)).map fun out => (false, sym.2, out)
  else if sym.1 = 256 then .ok (true, sym.2, out)
  else
    (based lenBase lenExtra (sym.1 - 257) sym.2).bind fun len =>
    (symbol dist len.2).bind fun d =>
    (based distBase distExtra d.1 d.2).bind fun distance =>
    (o.copy out distance.1 len.1).map fun out => (false, distance.2, out)

/-- The symbols of a block up to its end. Each takes a bit, so with `k` bits left there are no more than `k`
of them. -/
@[grind =] def codes (lit dist : List Nat) : (k : Nat) → List Bool → σ → Except Error (List Bool × σ)
  | 0, _, _ => .error .truncated
  | k + 1, s, out =>
    (codesStep o lit dist s out).bind fun r => if r.1 then .ok r.2 else codes lit dist k r.2.1 r.2.2

/-- One block, and whether it was the last. -/
def block (s : List Bool) (out : σ) : Except Error (Bool × List Bool × σ) :=
  (number 1 s).bind fun last =>
  (number 2 last.2).bind fun kind =>
  match kind.1 with
  | 0 => (stored o kind.2 out).map fun r => (last.1 == 1, r)
  | 1 => (codes o fixedLit fixedDist kind.2.length kind.2 out).map fun r => (last.1 == 1, r)
  | 2 =>
    (dynamic kind.2).bind fun tables =>
    (codes o tables.1 tables.2.1 tables.2.2.length tables.2.2 out).map fun r => (last.1 == 1, r)
  | _ => .error .badBlock

/-- The blocks up to the last. -/
@[grind =] def blocks : (k : Nat) → List Bool → σ → Except Error (List Bool × σ)
  | 0, _, _ => .error .truncated
  | k + 1, s, out =>
    (block o s out).bind fun r => if r.1 then .ok r.2 else blocks k r.2.1 r.2.2

/-- Decodes the stream that the input begins with: how many of its bytes the stream has, the last one's
padding included, and the output. -/
def decodePrefix (input : List UInt8) (out : σ) : Except Error (Nat × σ) :=
  (blocks o (bitsOf input).length (bitsOf input) out).map fun r => (input.length - r.1.length / 8, r.2)

/-- Decodes a stream that is all of the input. -/
def decode (input : List UInt8) (out : σ) : Except Error σ :=
  (decodePrefix o input out).bind fun r => if r.1 ≠ input.length then .error .trailing else .ok r.2

end Decode

end Reference

end NanoChrono.Deflate
