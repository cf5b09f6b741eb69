import NanoChrono.Deflate.Reference

/-! # The reader and the tables read what the format says

The bit reader keeps up to 64 bits of the stream in its buffer: it stands at the bits of the input that it has
not handed out (`Reads`), and a number it reads is the one those bits spell (`bits_alike`). The tables of a
code hold its symbols in the order of their codes and, for the codes of at most ten bits, what every pattern
of the next ten bits begins with (`Implements`); so decoding a symbol by table or by the canonical walk is
decoding it a bit at a time (`decode_symbol`). -/

namespace NanoChrono.Deflate

open Buffer

/-! ## The bits of the input -/

theorem length_bitsOf (input : List UInt8) : (bitsOf input).length = 8 * input.length := by
  induction input with
  | nil => rfl
  | cons b input ih =>
    rw [bitsOf, List.flatMap_cons, List.length_append, ← bitsOf, ih, List.length_map, List.length_range,
      List.length_cons]
    omega

/-- The bits of a byte of the input. -/
theorem getElem?_bitsOf {input : List UInt8} {p i : Nat} (hp : p < input.length) (hi : i < 8) :
    (bitsOf input)[8 * p + i]? = some (input[p].toNat.testBit i) := by
  induction input generalizing p with
  | nil => cases hp
  | cons b input ih =>
    have hbyte : ((List.range 8).map b.toNat.testBit).length = 8 := by
      rw [List.length_map, List.length_range]
    rw [bitsOf, List.flatMap_cons, ← bitsOf]
    cases p with
    | zero =>
      rw [List.getElem?_append_left (by omega), List.getElem?_map, List.getElem?_range (by omega),
        Nat.mul_zero, Nat.zero_add]
      rfl
    | succ p =>
      rw [List.getElem?_append_right (by omega), hbyte,
        show 8 * (p + 1) + i - 8 = 8 * p + i by omega]
      exact ih (Nat.lt_of_succ_lt_succ hp)

theorem testBit_byte (b : UInt8) {i : Nat} (h : 8 ≤ i) : b.toNat.testBit i = false :=
  Nat.testBit_lt_two_pow (b.toNat_lt.trans_le (Nat.pow_le_pow_right (by decide) h))

/-! ## The reader -/

/-- The bits the reader has not handed out are `s`, and its buffer holds the first of them. -/
structure Reads (b : Bits) (s : List Bool) : Prop where
  rest : s = (bitsOf b.input).drop (8 * b.pos - b.count)
  buf : ∀ i, b.buf.testBit i = (decide (i < b.count) && s.getD i false)

theorem reads_new (input : List UInt8) : Reads (.new input) (bitsOf input) :=
  ⟨rfl, fun i => by rw [Bits.new, Nat.zero_testBit]; rfl⟩

namespace Reads

variable {b : Bits} {s : List Bool}

theorem length (h : Reads b s) : s.length = b.left := by
  have hbehind := b.behind
  have hinside := b.inside
  rw [h.rest, List.length_drop, length_bitsOf, Bits.left]
  omega

/-- A bit that is not in the buffer yet. -/
theorem ahead (h : Reads b s) {i : Nat} (hpos : b.pos < b.input.length) (hi : i < 8) :
    s.getD (b.count + i) false = b.input[b.pos].toNat.testBit i := by
  have hbehind := b.behind
  rw [List.getD_eq_getElem?_getD, h.rest, List.getElem?_drop,
    show 8 * b.pos - b.count + (b.count + i) = 8 * b.pos + i by omega, getElem?_bitsOf hpos hi]
  rfl

theorem refill (h : Reads b s) : Reads b.refill s := by
  fun_induction Bits.refill b with
  | case1 b hlt ih =>
    apply ih
    have hbehind := b.behind
    refine ⟨?_, fun i => ?_⟩
    · rw [h.rest]
      dsimp only
      congr 1
      omega
    · dsimp only
      rw [Nat.testBit_or, Nat.testBit_shiftLeft, h.buf]
      rcases Nat.lt_or_ge i b.count with hi | hi
      · rw [decide_eq_true hi, decide_eq_true (by omega : i < b.count + 8),
          decide_eq_false (by omega : ¬ i ≥ b.count), Bool.false_and, Bool.or_false]
      · rw [decide_eq_false (by omega : ¬ i < b.count), decide_eq_true hi, Bool.false_and, Bool.false_or,
          Bool.true_and]
        rcases Nat.lt_or_ge i (b.count + 8) with hi8 | hi8
        · rw [decide_eq_true hi8, Bool.true_and, ← h.ahead hlt.2 (by omega : i - b.count < 8),
            Nat.add_sub_cancel' hi]
        · rw [decide_eq_false (by omega : ¬ i < b.count + 8), Bool.false_and, testBit_byte _ (by omega)]
  | case2 => exact h

end Reads

/-- A refilled buffer has more than 56 bits, or all of the input. -/
theorem refill_full (b : Bits) : 56 < b.refill.count ∨ b.refill.pos = b.refill.input.length := by
  fun_induction Bits.refill b with
  | case1 b h ih => exact ih
  | case2 b h =>
    have hinside := b.inside
    omega

namespace Reads

variable {b : Bits} {s : List Bool}

theorem topUp (h : Reads b s) (n : Nat) : Reads (b.topUp n) s := by
  rw [Bits.topUp]
  split
  · exact h.refill
  · exact h

/-- What a reader that wants `n` bits has in its buffer. -/
theorem min_count (h : Reads b s) {n : Nat} (hn : n ≤ 57) : min (b.topUp n).count n = min s.length n := by
  have hlen := (h.topUp n).length
  rw [hlen, Bits.left]
  rw [Bits.topUp]
  split
  · rcases refill_full b with hfull | hfull <;> omega
  · omega

theorem consume (h : Reads b s) {n : Nat} (hn : n ≤ b.count) : Reads (b.consume n) (s.drop n) := by
  have hbehind := b.behind
  refine ⟨?_, fun i => ?_⟩
  · rw [h.rest, List.drop_drop, Bits.consume]
    dsimp only
    congr 1
    omega
  · rw [Bits.consume]
    dsimp only
    rw [Nat.testBit_shiftRight, h.buf, List.getD_eq_getElem?_getD, List.getD_eq_getElem?_getD,
      List.getElem?_drop]
    congr 1
    exact decide_eq_decide.2 (by omega)

theorem align (h : Reads b s) : Reads b.align (s.drop (s.length % 8)) := by
  have hbehind := b.behind
  have hinside := b.inside
  refine ⟨?_, fun i => ?_⟩
  · rw [h.length, h.rest, List.drop_drop, Bits.left, Bits.align]
    dsimp only
    congr 1
    omega
  · rw [Bits.align]
    dsimp only
    rw [Nat.zero_testBit, decide_eq_false (Nat.not_lt_zero i), Bool.false_and]

/-- The next byte of the stream, where the reader stands at a byte. -/
theorem align_pos (h : Reads b s) : b.align.pos = b.input.length - s.length / 8 := by
  have hbehind := b.behind
  have hinside := b.inside
  rw [h.length, Bits.left, Bits.align]
  dsimp only
  omega

end Reads

/-! ## Numbers -/

theorem number_short {n : Nat} {s : List Bool} (h : s.length < n) :
    Reference.number n s = .error .truncated := by
  induction n generalizing s with
  | zero => cases h
  | succ n ih =>
    cases s with
    | nil => rfl
    | cons b s =>
      rw [Reference.number, ih (Nat.lt_of_succ_lt_succ h)]
      rfl

/-- A number has the bits that were read. -/
theorem number_ok {n : Nat} {s : List Bool} (h : n ≤ s.length) :
    ∃ v, Reference.number n s = .ok (v, s.drop n) ∧
      ∀ i, v.testBit i = (decide (i < n) && s.getD i false) := by
  induction n generalizing s with
  | zero => exact ⟨0, rfl, fun i => Nat.zero_testBit i⟩
  | succ n ih =>
    cases s with
    | nil => cases h
    | cons b s =>
      obtain ⟨v, hv, hbits⟩ := ih (Nat.le_of_succ_le_succ h)
      refine ⟨b.toNat + 2 * v, by rw [Reference.number, hv]; rfl, fun i => ?_⟩
      have hb := Bool.toNat_lt b
      cases i with
      | zero =>
        rw [Nat.testBit_zero, decide_eq_true (Nat.succ_pos n), Bool.true_and, List.getD_cons_zero,
          Nat.add_mul_mod_self_left]
        cases b <;> rfl
      | succ i =>
        rw [Nat.testBit_succ, show (b.toNat + 2 * v) / 2 = v by omega, hbits, List.getD_cons_succ]
        congr 1
        exact decide_eq_decide.2 (by omega)

/-- A value read by the reader and off the bits: both are now at the same place. -/
def Read {α : Type} (r : α × Bits) (q : α × List Bool) : Prop := r.1 = q.1 ∧ Reads r.2 q.2

/-- The reader reads the numbers the bits spell. -/
theorem bits_alike {b : Bits} {s : List Bool} (h : Reads b s) {n : Nat} (hn : n ≤ 57) :
    Alike Read (b.bits n) (Reference.number n s) := by
  rw [Bits.bits]
  split
  next hzero =>
    subst hzero
    exact .ok ⟨rfl, h⟩
  next hzero =>
    have hcount := h.min_count hn
    have htop := h.topUp n
    dsimp only
    split
    next hshort =>
      rw [number_short (by omega)]
      exact .error _
    next hlong =>
      obtain ⟨v, hv, hbits⟩ := number_ok (by omega : n ≤ s.length)
      rw [hv]
      refine .ok ⟨Nat.eq_of_testBit_eq fun i => ?_, htop.consume (Nat.le_of_not_lt hlong)⟩
      dsimp only
      rw [Nat.one_shiftLeft, Nat.and_two_pow_sub_one_eq_mod, Nat.testBit_mod_two_pow, htop.buf, hbits]
      rcases Nat.lt_or_ge i n with hi | hi
      · rw [decide_eq_true hi, decide_eq_true (by omega : i < (b.topUp n).count), Bool.true_and]
      · rw [decide_eq_false (by omega : ¬ i < n), Bool.false_and, Bool.false_and]

theorem peek15_reads {b : Bits} {s : List Bool} (h : Reads b s) :
    Reads b.peek15.2.2 s ∧ b.peek15.2.1 = min s.length 15 ∧
      ∀ i, b.peek15.1.testBit i = (decide (i < b.peek15.2.1) && s.getD i false) := by
  have hcount := h.min_count (by omega : 15 ≤ 57)
  have htop := h.topUp 15
  refine ⟨htop, hcount, fun i => ?_⟩
  rw [Bits.peek15]
  dsimp only
  rw [show 0x7FFF = 2 ^ 15 - 1 by rfl, Nat.and_two_pow_sub_one_eq_mod, Nat.testBit_mod_two_pow, htop.buf,
    ← Bool.and_assoc, ← Bool.decide_and]
  congr 1
  exact decide_eq_decide.2 (by omega)

/-! ## Symbols, a bit at a time -/

/-- Along a code the format reads its symbol, or runs out of bits: no shorter code is in the way. -/
theorem symbol_of_code {lengths : List Nat} {len c sym : Nat} {s : List Bool} (hpos : 0 < len)
    (hmax : len ≤ maxBits) (hfirst : Canonical.first lengths len ≤ c) (hlt : c < 2 ^ len)
    (hsym : Canonical.symbolOf lengths len c = some sym)
    (hbits : ∀ i < len, i < s.length → c.testBit (len - 1 - i) = s.getD i false) :
    Reference.symbol lengths s = if len ≤ s.length then .ok (sym, s.drop len) else .error .truncated := by
  have hfrom : ∀ d m, d + m = len → 0 < d → m ≤ s.length →
      Reference.symbolFrom lengths (maxBits - m) m (c >>> d) (s.drop m) =
        if len ≤ s.length then .ok (sym, s.drop len) else .error .truncated := by
    intro d
    induction d with
    | zero => intro m _ h0; cases h0
    | succ d ih =>
      intro m hm _ hle
      rw [show maxBits - m = (maxBits - m - 1) + 1 by omega]
      rcases Nat.eq_or_lt_of_le hle with heq | hm_lt
      · rw [heq, List.drop_length, if_neg (by omega)]
        rfl
      · have hbit := hbits m (by omega) hm_lt
        rw [List.getD_eq_getElem?_getD, List.getElem?_eq_getElem hm_lt, Option.getD_some,
          show len - 1 - m = d by omega] at hbit
        have hnext : 2 * c >>> (d + 1) + s[m].toNat = c >>> d := by
          rw [← hbit, Nat.shiftRight_succ, Nat.toNat_testBit, ← Nat.shiftRight_eq_div_pow]
          omega
        rw [List.drop_eq_getElem_cons hm_lt, Reference.symbolFrom, hnext]
        rcases Nat.eq_zero_or_pos d with rfl | hd
        · rw [Nat.shiftRight_zero, show m + 1 = len by omega, hsym, if_pos (by omega)]
        · have hnone := Canonical.none_of_longer lengths (Nat.succ_pos m) (by omega : m + 1 < len) hfirst
          rw [show len - (m + 1) = d by omega, ← Nat.shiftRight_eq_div_pow] at hnone
          rw [hnone]
          exact ih (m + 1) (by omega) hd hm_lt
  have hstart := hfrom len 0 rfl hpos (Nat.zero_le _)
  rw [Nat.shiftRight_eq_div_pow, Nat.div_eq_of_lt hlt] at hstart
  exact hstart

/-! ## Symbols, by table -/

/-- What a table entry says: the next bits `p` of the stream begin with the code of a symbol. -/
def Entry (lengths : List Nat) (p e : Nat) : Prop :=
  ∃ len c sym, 0 < len ∧ len ≤ fastBits ∧ Canonical.first lengths len ≤ c ∧ c < 2 ^ len ∧
    Canonical.symbolOf lengths len c = some sym ∧ sym < 2 ^ 9 ∧ e = len <<< 9 ||| sym ∧
    ∀ i < len, c.testBit (len - 1 - i) = p.testBit i

/-- The tables are those of the canonical code of these lengths. -/
structure Implements (h : Huffman) (lengths : List Nat) : Prop where
  fits : ∀ len ≤ maxBits, Canonical.first lengths len + Canonical.count lengths len ≤ 2 ^ len
  count : ∀ len, 0 < len → len ≤ maxBits → h.count.getD len 0 = Canonical.count lengths len
  symbol : ∀ len, 0 < len → len ≤ maxBits → ∀ j < Canonical.count lengths len,
    h.symbol[Canonical.start lengths len + j]? = (Canonical.ofLength lengths len)[j]?
  fast : ∀ p, h.fast.1.getD p 0 = 0 ∨ Entry lengths p (h.fast.1.getD p 0)

/-- The walk through the lengths finds the symbol whose code the bits spell. -/
theorem walk_alike {h : Huffman} {lengths : List Nat} (himp : Implements h lengths) {peek avail : Nat}
    {bits : Bits} {s : List Bool} (hreads : Reads bits s) (havail : avail = min s.length 15)
    (hcount : avail ≤ bits.count)
    (hpeek : ∀ i, peek.testBit i = (decide (i < avail) && s.getD i false)) {k m c : Nat}
    (hk : k + m = maxBits) (hfirst : Canonical.first lengths (m + 1) ≤ 2 * c) :
    Alike Read
      (h.walk peek avail bits k (m + 1) (2 * c) (Canonical.first lengths (m + 1))
        (Canonical.start lengths (m + 1)))
      (Reference.symbolFrom lengths k m c (s.drop m)) := by
  induction k generalizing m c with
  | zero => exact .error _
  | succ k ih =>
    have hsucc : 0 < m + 1 := Nat.succ_pos m
    have hmax : m + 1 ≤ maxBits := by omega
    have hmax15 : m + 1 ≤ 15 := hmax
    rw [Huffman.walk]
    split
    next hshort =>
      rw [List.drop_eq_nil_of_le (by omega)]
      exact .error _
    next hlong =>
      have hm : m < s.length := by omega
      have hbit : (peek >>> m) &&& 1 = s[m].toNat := by
        have hget := hpeek m
        rw [decide_eq_true (by omega : m < avail), Bool.true_and, List.getD_eq_getElem?_getD,
          List.getElem?_eq_getElem hm, Option.getD_some] at hget
        rw [← hget, Nat.toNat_testBit, Nat.and_one_is_mod, Nat.shiftRight_eq_div_pow]
      have hcode : 2 * c ||| s[m].toNat = 2 * c + s[m].toNat := by
        have hlt := Bool.toNat_lt s[m]
        have hor := Nat.two_pow_add_eq_or_of_lt (i := 1) (by omega : s[m].toNat < 2 ^ 1) c
        rw [Nat.pow_one] at hor
        exact hor.symm
      rw [List.drop_eq_getElem_cons hm, Reference.symbolFrom]
      dsimp only
      rw [Nat.add_sub_cancel, hbit, hcode, himp.count _ hsucc hmax]
      generalize hc : 2 * c + s[m].toNat = c'
      have hle : Canonical.first lengths (m + 1) ≤ c' := by omega
      by_cases hlt : c' < Canonical.first lengths (m + 1) + Canonical.count lengths (m + 1)
      · -- A code of this length: its place among them is the place in the table.
        have hj : c' - Canonical.first lengths (m + 1) < Canonical.count lengths (m + 1) := by omega
        have hsym := himp.symbol _ hsucc hmax _ hj
        rw [if_pos (by omega), if_neg (by omega), Canonical.symbolOf_eq, if_pos hle,
          show ((Canonical.start lengths (m + 1) : Int) + c' - Canonical.first lengths (m + 1)).toNat =
            Canonical.start lengths (m + 1) + (c' - Canonical.first lengths (m + 1)) by omega, hsym,
          List.getElem?_eq_getElem (by rwa [Canonical.length_ofLength_pos lengths hsucc])]
        exact .ok ⟨rfl, hreads.consume (by omega)⟩
      · rw [if_neg (by omega), Canonical.symbolOf_eq_none lengths hsucc (by omega)]
        have hrest := @ih (m + 1) c' (by omega) (by rw [Canonical.first]; omega)
        rw [Canonical.first, Canonical.start] at hrest
        rw [Nat.shiftLeft_eq, Nat.shiftLeft_eq, Nat.pow_one, Nat.mul_comm c', Nat.mul_comm (_ + _) 2]
        exact hrest

/-- A symbol decoded by the tables is the one the bits spell. -/
theorem decode_symbol {h : Huffman} {lengths : List Nat} (himp : Implements h lengths) {b : Bits}
    {s : List Bool} (hreads : Reads b s) : Alike Read (h.decode b) (Reference.symbol lengths s) := by
  obtain ⟨hreads', havail, hpeek⟩ := peek15_reads hreads
  obtain ⟨-, -, hcount⟩ := b.peek15_spec
  rw [Huffman.decode]
  generalize b.peek15 = r at hreads' havail hpeek hcount
  obtain ⟨peek, avail, b'⟩ := r
  dsimp only at hreads' havail hpeek hcount ⊢
  split
  next hne =>
    obtain ⟨len, c, sym, hpos, hfast, hfirst, hlt, hsym, hsym9, he, hbits⟩ :=
      (himp.fast (peek &&& (1 <<< fastBits - 1))).resolve_left hne
    have hten : len ≤ 10 := hfast
    have hlen : (len <<< 9 ||| sym) >>> 9 = len := by
      rw [← Nat.shiftLeft_add_eq_or_of_lt hsym9, Nat.shiftRight_eq_div_pow, Nat.shiftLeft_eq]
      omega
    have hlow : (len <<< 9 ||| sym) &&& 0x1FF = sym := by
      rw [← Nat.shiftLeft_add_eq_or_of_lt hsym9, show 0x1FF = 2 ^ 9 - 1 by rfl,
        Nat.and_two_pow_sub_one_eq_mod, Nat.shiftLeft_eq]
      omega
    have hspell : ∀ i < len, i < s.length → c.testBit (len - 1 - i) = s.getD i false := by
      intro i hi his
      rw [hbits i hi, Nat.one_shiftLeft, Nat.and_two_pow_sub_one_eq_mod, Nat.testBit_mod_two_pow,
        decide_eq_true (by omega : i < fastBits), Bool.true_and, hpeek,
        decide_eq_true (by omega : i < avail), Bool.true_and]
    rw [he, hlen, hlow, symbol_of_code hpos (hfast.trans (by decide)) hfirst hlt hsym hspell]
    split
    next hshort =>
      rw [if_neg (by omega)]
      exact .error _
    next hlong =>
      rw [if_pos (by omega)]
      exact .ok ⟨rfl, hreads'.consume (by omega)⟩
  next =>
    have hwalk := @walk_alike h lengths himp peek avail b' s hreads' havail hcount hpeek maxBits 0 0 rfl
      (Nat.zero_le _)
    exact hwalk

end NanoChrono.Deflate
