import NanoChrono.Deflate.Build
import NanoChrono.Deflate.Outputs

/-! # Inflate decodes exactly DEFLATE

The decoder, with its buffer, its tables and what they keep from block to block, does what the format says a
bit at a time, whatever the input and whatever it is decoded into (`decodePrefix_reference`). For a buffer that
is: the same bytes or the same refusal, and what lies behind them in the buffer untouched
(`inflateInto_reference`). -/

namespace NanoChrono.Deflate

open Buffer

/-! ## Which codes are used -/

theorem count_zero_add_count_one (lengths : List Nat) :
    lengths.count 0 + lengths.count 1 = lengths.countP (fun l => decide (l ≤ 1)) := by
  induction lengths with
  | nil => rfl
  | cons l lengths ih =>
    rw [List.count_cons, List.count_cons, List.countP_cons, ← ih]
    simp only [beq_iff_eq, decide_eq_true_eq]
    split_ifs <;> omega

/-- Codes of at most one bit. -/
theorem short_iff (lengths : List Nat) :
    lengths.count 0 + lengths.count 1 = lengths.length ↔ ∀ l ∈ lengths, l ≤ 1 := by
  rw [count_zero_add_count_one, List.countP_eq_length]
  simp only [decide_eq_true_eq]

theorem kraft_short {lengths : List Nat} (h : ∀ l ∈ lengths, l ≤ 1) :
    Canonical.kraft lengths maxBits = lengths.count 1 * 2 ^ 14 := by
  induction lengths with
  | nil => rfl
  | cons l lengths ih =>
    rw [Canonical.kraft_cons, ih fun k hk => h k (List.mem_cons_of_mem l hk), List.count_cons]
    rcases Nat.le_one_iff_eq_zero_or_eq_one.1 (h l List.mem_cons_self) with rfl | rfl
    · rw [if_neg (fun h => absurd h.1 (Nat.lt_irrefl 0)), if_neg (by decide), Nat.zero_add, Nat.add_zero]
    · rw [if_pos (by decide), if_pos (by decide), show maxBits - 1 = 14 by rfl, Nat.succ_mul, Nat.add_comm]

theorem count_build (h : Huffman) (lengths : List Nat) :
    (h.build lengths).1.count = Huffman.counts lengths := by
  rw [Huffman.build]
  dsimp only
  split
  · rfl
  · split <;> rfl

theorem fits_of_usable {lengths : List Nat} (h : Reference.Usable lengths) :
    Canonical.kraft lengths maxBits ≤ 2 ^ maxBits := by
  rcases h with (hfull | hunused) | ⟨hone, hshort⟩
  · exact hfull.le
  · rw [kraft_unused hunused]
    exact Nat.zero_le _
  · rw [kraft_short hshort, hone]
    decide

/-- A code is used exactly when the format uses it. -/
theorem usable_iff {lengths : List Nat} (hl : Lengths lengths) (h : Huffman) :
    usable (h.build lengths).1 lengths.length (h.build lengths).2 = true ↔ Reference.Usable lengths := by
  rw [build_fill hl]
  by_cases hcomplete : Reference.Complete lengths
  · rw [if_pos hcomplete]
    exact ⟨fun _ => .inl hcomplete, fun _ => rfl⟩
  rw [if_neg hcomplete]
  by_cases hfit : Canonical.kraft lengths maxBits ≤ 2 ^ maxBits
  · rw [if_pos hfit, usable, count_build, counts_getD hl, counts_getD hl, beq_iff_eq, short_iff]
    constructor
    · intro hshort
      -- Two codes of one bit would be complete, and so would none.
      have hkraft := kraft_short hshort
      have hpow : (2 : Nat) ^ maxBits = 2 * 2 ^ 14 := rfl
      have hne : Canonical.kraft lengths maxBits ≠ 2 ^ maxBits := fun hfull => hcomplete (.inl hfull)
      have hused : lengths.count 1 ≠ 0 := by
        intro hzero
        refine hcomplete (.inr ((unused_iff lengths).1 ?_))
        have hall := (short_iff lengths).2 hshort
        omega
      exact .inr ⟨by omega, hshort⟩
    · intro husable
      exact (husable.resolve_left hcomplete).2
  · rw [if_neg hfit]
    exact ⟨fun hfalse => absurd hfalse Bool.false_ne_true, fun husable => absurd (fits_of_usable husable) hfit⟩

/-! ## Code lengths -/

/-- What is known of the result on one side. -/
theorem Alike.and {α β : Type} {R : α → β → Prop} {P : α → Prop} {x : Except Error α}
    {y : Except Error β} (h : Alike R x y) (hP : ∀ a, x = .ok a → P a) : Alike (fun a b => R a b ∧ P a) x y := by
  cases h with
  | error e => exact .error e
  | ok hab => exact .ok ⟨hab, hP _ rfl⟩

/-- Lengths the format has in `done`, in a buffer of zeros. -/
def padded (done : List Nat) : List Nat := done ++ List.replicate (286 + 30 - done.length) 0

theorem set_padded {done : List Nat} (h : done.length < 286 + 30) (l : Nat) :
    (padded done).set done.length l = padded (done ++ [l]) := by
  rw [padded, padded, List.set_append_right _ _ le_rfl, Nat.sub_self, List.length_append, List.length_singleton,
    List.append_assoc, show 286 + 30 - done.length = (286 + 30 - (done.length + 1)) + 1 by omega,
    List.replicate_succ]
  rfl

theorem splice_padded (done : List Nat) (n l : Nat) :
    splice (padded done) done.length (List.replicate n l) = padded (done ++ List.replicate n l) := by
  rw [splice, padded, padded, List.take_left, List.length_replicate, List.length_append, List.length_replicate,
    ← List.drop_drop, List.drop_left, List.drop_replicate, List.append_assoc]
  congr 3
  omega

theorem getD_padded {done : List Nat} (h : done ≠ []) :
    (padded done).getD (done.length - 1) 0 = done.getLast h := by
  have hpos := List.length_pos_of_ne_nil h
  rw [padded, List.getD_eq_getElem?_getD, List.getElem?_append_left (by omega), List.getLast_eq_getElem,
    List.getElem?_eq_getElem (by omega)]
  rfl

/-- The next length and how often it comes, read by the decoder or off the bits. -/
theorem repeated_alike {done : List Nat} (hdone : ∀ l ∈ done, l ≤ maxBits) {b : Bits} {s : List Bool}
    (hreads : Reads b s) {sym : Nat} (hsym : 16 ≤ sym) :
    Alike (fun r q => r.1 = q.1 ∧ r.2.1 = q.2.1 ∧ q.1 ≤ maxBits ∧ Reads r.2.2 q.2.2)
      (repeated sym done.length (padded done) b) (Reference.run done sym s) := by
  rw [repeated, Reference.run, if_neg (by omega : ¬ sym < 16)]
  split
  · by_cases h : done = []
    · subst h
      exact .error _
    · rw [if_neg (mt List.length_eq_zero_iff.1 h), List.getLast?_eq_some_getLast h, getD_padded h]
      exact (bits_alike hreads (by omega)).map fun r q hrq =>
        ⟨rfl, Subtype.ext (congrArg (3 + ·) hrq.1), hdone _ (List.getLast_mem h), hrq.2⟩
  split
  · exact (bits_alike hreads (by omega)).map fun r q hrq =>
      ⟨rfl, Subtype.ext (congrArg (3 + ·) hrq.1), Nat.zero_le _, hrq.2⟩
  split
  · exact (bits_alike hreads (by omega)).map fun r q hrq =>
      ⟨rfl, Subtype.ext (congrArg (11 + ·) hrq.1), Nat.zero_le _, hrq.2⟩
  · exact .error _

theorem append_le {done : List Nat} (hdone : ∀ l ∈ done, l ≤ maxBits) {v : Nat} (hv : v ≤ maxBits)
    (n : Nat) :
    ∀ l ∈ done ++ List.replicate n v, l ≤ maxBits := by
  intro l hl
  rcases List.mem_append.1 hl with hl | hl
  · exact hdone l hl
  · exact List.eq_of_mem_replicate hl ▸ hv

/-- The code lengths of a dynamic block. -/
theorem readLengths_alike {clen : Huffman} {lengths : List Nat} (himp : Implements clen lengths) {total : Nat}
    (htotal : total ≤ 286 + 30) {done : List Nat} {b : Bits} {s : List Bool} (hreads : Reads b s)
    (hdone : ∀ l ∈ done, l ≤ maxBits) (hle : done.length ≤ total) :
    Alike (fun r q => r.1 = padded q.1 ∧ q.1.length = total ∧ (∀ l ∈ q.1, l ≤ maxBits) ∧ Reads r.2 q.2)
      (readLengths clen total done.length (padded done) b) (Reference.lengthsFrom lengths total done s) := by
  induction hk : total - done.length using Nat.strong_induction_on generalizing done b s with
  | _ k ih =>
    have hlen : ∀ n v, (done ++ List.replicate n v).length = done.length + n := fun n v => by
      rw [List.length_append, List.length_replicate]
    rw [readLengths, Reference.lengthsFrom]
    split
    next hlt =>
      refine (decode_symbol himp hreads).bind fun r q hrq => ?_
      rw [← hrq.1]
      split
      next hsym =>
        have hrun : Reference.run done r.1 q.2 = .ok (r.1, ⟨1, Nat.one_pos⟩, q.2) := by
          rw [Reference.run, if_pos hsym]
        rw [hrun]
        simp only [Except.bind]
        rw [if_neg (by omega), set_padded (by omega)]
        have hrest := @ih (total - (done.length + 1)) (by omega) (done ++ List.replicate 1 r.1) r.2 q.2 hrq.2
          (append_le hdone (Nat.le_of_lt_succ hsym) 1) (by rw [hlen]; omega) (by rw [hlen])
        rw [hlen] at hrest
        exact hrest
      next hsym =>
        refine (repeated_alike hdone hrq.2 (Nat.le_of_not_lt hsym)).bind fun v w hvw => ?_
        obtain ⟨hvalue, htimes, hshort, hreads'⟩ := hvw
        have hpos := w.2.1.2
        rw [hvalue, htimes]
        split
        · exact .error _
        next hfit =>
          rw [splice_padded]
          have hrest := @ih (total - (done.length + w.2.1.1)) (by omega) (done ++ List.replicate w.2.1 w.1)
            v.2.2 w.2.2 hreads' (append_le hdone hshort _) (by rw [hlen]; omega) (by rw [hlen])
          rw [hlen] at hrest
          exact hrest
    next hge => exact .ok ⟨rfl, Nat.le_antisymm hle (Nat.le_of_not_lt hge), hdone, hreads⟩

/-- The lengths of the code-length code. -/
theorem readClen_alike {slots : List Nat} {lengths done : List Nat} {b : Bits} {s : List Bool}
    (hreads : Reads b s) (htake : lengths.take 19 = done) (hdone : ∀ l ∈ done, l ≤ maxBits) :
    Alike (fun r q => r.1.take 19 = q.1 ∧ (∀ l ∈ q.1, l ≤ maxBits) ∧ q.1.length = done.length ∧
        Reads r.2 q.2)
      (readClen slots lengths b) (Reference.clens slots done s) := by
  induction slots generalizing lengths done b s with
  | nil => exact .ok ⟨htake, hdone, rfl, hreads⟩
  | cons slot slots ih =>
    rw [readClen, Reference.clens]
    refine ((bits_alike hreads (by omega)).and fun r hr => (Bits.bits_spec hr).2.2).bind fun r q hrq => ?_
    obtain ⟨⟨hvalue, hreads'⟩, hlt⟩ := hrq
    rw [← hvalue]
    have hshort : ∀ l ∈ done.set slot r.1, l ≤ maxBits := by
      intro l hl
      rcases List.mem_or_eq_of_mem_set hl with hl | rfl
      · exact hdone l hl
      · exact (Nat.le_of_lt hlt).trans (by decide)
    have hrest := @ih (lengths.set slot r.1) _ _ _ hreads' (by rw [List.take_set, htake]) hshort
    rw [List.length_set] at hrest
    exact hrest

/-- Tables that hold the two codes of a block. -/
structure Holds (lit dist : List Nat) (l d : Huffman) : Prop where
  lit : Implements l lit
  dist : Implements d dist
  litRoom : Roomy l
  distRoom : Roomy d

/-- The codes of a dynamic block. -/
theorem dynamicTables_alike {b : Bits} {s : List Bool} (hreads : Reads b s) {l d : Huffman} (hl : Roomy l)
    (hd : Roomy d) :
    Alike (fun r q => Holds q.1 q.2.1 r.2.1 r.2.2 ∧ Reads r.1 q.2.2)
      (dynamicTables b l d) (Reference.dynamic s) := by
  rw [dynamicTables, Reference.dynamic]
  refine (bits_alike hreads (by omega)).bind fun hlit hlit' h₁ => ?_
  refine (bits_alike h₁.2 (by omega)).bind fun hdist hdist' h₂ => ?_
  refine (bits_alike h₂.2 (by omega)).bind fun hclen hclen' h₃ => ?_
  dsimp only
  rw [h₁.1, h₂.1, h₃.1]
  split
  · exact .error _
  next hsize =>
    refine (readClen_alike h₃.2 (by rw [List.take_replicate]; rfl)
      fun l hl => by rw [List.eq_of_mem_replicate hl]; exact Nat.zero_le _).bind fun r q hrq => ?_
    obtain ⟨htake, hshort, hlen, hreads'⟩ := hrq
    have hclens : Lengths q.1 := ⟨hshort, by rw [hlen, List.length_replicate]; decide⟩
    rw [htake, build_fill hclens]
    by_cases hcomplete : Reference.Complete q.1
    · rw [if_pos hcomplete, if_neg (fun h => h rfl), if_pos hcomplete]
      have himp := build_implements hclens (fits_of_usable (.inl hcomplete)) roomy_new
      have hlengths := @readLengths_alike _ _ himp (hlit'.1 + 257 + (hdist'.1 + 1)) (by omega) [] _ _ hreads'
        (fun l hl => absurd hl List.not_mem_nil) (Nat.zero_le _)
      refine hlengths.bind fun r q hrq => ?_
      obtain ⟨hpadded, hlen, hshort, hreads''⟩ := hrq
      have htakeLit : r.1.take (hlit'.1 + 257) = q.1.take (hlit'.1 + 257) := by
        rw [hpadded, padded, List.take_append_of_le_length (by omega)]
      have hslice : slice r.1 (hlit'.1 + 257) (hdist'.1 + 1) = q.1.drop (hlit'.1 + 257) := by
        rw [hpadded, padded, slice, List.drop_append_of_le_length (by omega),
          List.take_append_of_le_length (by rw [List.length_drop]; omega),
          List.take_of_length_le (by rw [List.length_drop]; omega)]
      have hend : r.1.getD 256 0 = (q.1.take (hlit'.1 + 257)).getD 256 0 := by
        rw [← htakeLit, List.getD_eq_getElem?_getD, List.getD_eq_getElem?_getD, List.getElem?_take,
          if_pos (by omega)]
      have hlitLen : (q.1.take (hlit'.1 + 257)).length = hlit'.1 + 257 := by
        rw [List.length_take]
        omega
      have hdistLen : (q.1.drop (hlit'.1 + 257)).length = hdist'.1 + 1 := by
        rw [List.length_drop]
        omega
      have hmax : 286 ≤ maxLit := by decide
      have hlitLengths : Lengths (q.1.take (hlit'.1 + 257)) :=
        ⟨fun l hl => hshort l (List.mem_of_mem_take hl), by omega⟩
      have hdistLengths : Lengths (q.1.drop (hlit'.1 + 257)) :=
        ⟨fun l hl => hshort l (List.mem_of_mem_drop hl), by omega⟩
      have husableLit := usable_iff hlitLengths l
      have husableDist := usable_iff hdistLengths d
      rw [hlitLen] at husableLit
      rw [hdistLen] at husableDist
      rw [htakeLit, hslice, hend]
      by_cases hzero : (q.1.take (hlit'.1 + 257)).getD 256 0 = 0
      · rw [if_pos hzero, if_neg (fun h => h.1 hzero)]
        exact .error _
      rw [if_neg hzero]
      by_cases hlitOk : Reference.Usable (q.1.take (hlit'.1 + 257))
      · rw [if_pos (husableLit.2 hlitOk)]
        by_cases hdistOk : Reference.Usable (q.1.drop (hlit'.1 + 257))
        · rw [if_pos (husableDist.2 hdistOk), if_pos ⟨hzero, hlitOk, hdistOk⟩]
          exact .ok ⟨⟨build_implements hlitLengths (fits_of_usable hlitOk) hl,
            build_implements hdistLengths (fits_of_usable hdistOk) hd, roomy_build hl _, roomy_build hd _⟩,
            hreads''⟩
        · rw [if_neg (mt husableDist.1 hdistOk), if_neg (fun h => hdistOk h.2.2)]
          exact .error _
      · rw [if_neg (mt husableLit.1 hlitOk), if_neg (fun h => hlitOk h.2.1)]
        exact .error _
    · rw [if_neg hcomplete, if_neg hcomplete, if_pos (by split <;> exact Fill.noConfusion)]
      exact .error _

/-! ## Stored blocks -/

theorem drop_bitsOf (input : List UInt8) (n : Nat) :
    (bitsOf input).drop (8 * n) = bitsOf (input.drop n) := by
  induction n generalizing input with
  | zero => rfl
  | succ n ih =>
    cases input with
    | nil => rfl
    | cons b input =>
      rw [List.drop_succ_cons, ← ih, Nat.mul_succ, Nat.add_comm, ← List.drop_drop]
      rfl

theorem number_add (m n : Nat) (s : List Bool) :
    Reference.number (m + n) s = (Reference.number m s).bind fun r =>
      (Reference.number n r.2).map fun q => (r.1 + 2 ^ m * q.1, q.2) := by
  induction m generalizing s with
  | zero =>
    rw [Nat.zero_add, Reference.number]
    simp only [Except.bind]
    cases Reference.number n s with
    | error e => rfl
    | ok q => simp only [Except.map, Nat.zero_add, Nat.pow_zero, Nat.one_mul]
  | succ m ih =>
    rw [Nat.succ_add]
    cases s with
    | nil => rfl
    | cons b s =>
      rw [Reference.number, Reference.number, ih]
      cases Reference.number m s with
      | error e => rfl
      | ok r =>
        simp only [Except.bind, Except.map]
        cases Reference.number n r.2 with
        | error e => rfl
        | ok q =>
          simp only [Nat.pow_succ]
          congr 2
          rw [Nat.mul_add, ← Nat.mul_assoc, Nat.mul_comm 2 (2 ^ m)]
          omega

theorem number_byte (b : UInt8) (input : List UInt8) :
    Reference.number 8 (bitsOf (b :: input)) = .ok (b.toNat, bitsOf input) := by
  have hbyte : ((List.range 8).map b.toNat.testBit).length = 8 := by rw [List.length_map, List.length_range]
  obtain ⟨v, hv, hbits⟩ := @number_ok 8 (bitsOf (b :: input)) (by rw [length_bitsOf, List.length_cons]; omega)
  rw [hv]
  have hdrop : (bitsOf (b :: input)).drop 8 = bitsOf input := drop_bitsOf (b :: input) 1
  have hvalue : v = b.toNat := by
    refine Nat.eq_of_testBit_eq fun i => ?_
    rw [hbits]
    rcases Nat.lt_or_ge i 8 with hi | hi
    · have hget := @getElem?_bitsOf (b :: input) 0 i (Nat.succ_pos _) hi
      rw [Nat.mul_zero, Nat.zero_add] at hget
      rw [decide_eq_true hi, Bool.true_and, List.getD_eq_getElem?_getD, hget]
      rfl
    · rw [decide_eq_false (Nat.not_lt.2 hi), Bool.false_and, testBit_byte b hi]
  rw [hdrop, hvalue]

/-- Numbers of whole bytes are little-endian. -/
theorem number_whole {n : Nat} {input : List UInt8} (h : n ≤ input.length) :
    Reference.number (8 * n) (bitsOf input) = .ok (leValue (input.take n), bitsOf (input.drop n)) := by
  induction n generalizing input with
  | zero => rfl
  | succ n ih =>
    cases input with
    | nil => cases h
    | cons b input =>
      rw [Nat.mul_succ, Nat.add_comm, number_add, number_byte]
      simp only [Except.bind]
      rw [ih (Nat.le_of_succ_le_succ h)]
      rfl

theorem bytes_whole (n : Nat) (input : List UInt8) :
    Reference.bytes n (bitsOf input) =
      if n ≤ input.length then .ok (input.take n, bitsOf (input.drop n)) else .error .truncated := by
  induction n generalizing input with
  | zero => rfl
  | succ n ih =>
    rw [Reference.bytes]
    cases input with
    | nil => rfl
    | cons b input =>
      rw [number_byte]
      simp only [Except.bind]
      rw [ih, List.length_cons]
      by_cases h : n ≤ input.length
      · rw [if_pos h, if_pos (Nat.succ_le_succ h), UInt8.ofNat_toNat]
        rfl
      · rw [if_neg h, if_neg (fun hle => h (Nat.le_of_succ_le_succ hle))]
        rfl

theorem reads_at (input : List UInt8) (p : Nat) (hp : p ≤ input.length) :
    Reads ⟨input, p, 0, 0, Nat.zero_le _, hp⟩ (bitsOf (input.drop p)) :=
  ⟨(drop_bitsOf input p).symm, fun i => by rw [Nat.zero_testBit]; rfl⟩

section Decode

variable {σ : Type} (o : Output σ)

/-- A value read into the output, by the decoder and off the bits. -/
def Both (r : Bits × σ) (q : List Bool × σ) : Prop := Reads r.1 q.1 ∧ r.2 = q.2

theorem stored_alike_reference {b : Bits} {s : List Bool} (hreads : Reads b s) (out : σ) :
    Alike Both (stored o b out) (Reference.stored o s out) := by
  have hrest : s.drop (s.length % 8) = bitsOf (b.input.drop b.align.pos) := by
    rw [hreads.align.rest, ← drop_bitsOf]
    rfl
  have hinside : b.align.pos ≤ b.input.length := b.align.inside
  rw [stored, Reference.stored, hrest]
  dsimp only
  split
  next hshort =>
    -- Too short for both of the lengths, or for the second.
    by_cases hfirst : 2 ≤ b.input.length - b.align.pos
    · rw [@number_whole 2 _ (by rw [List.length_drop]; exact hfirst)]
      simp only [Except.bind]
      rw [number_short (by rw [length_bitsOf, List.length_drop, List.length_drop]; omega)]
      exact .error _
    · rw [number_short (by rw [length_bitsOf, List.length_drop]; omega)]
      exact .error _
  next hlong =>
    rw [@number_whole 2 _ (by rw [List.length_drop]; omega)]
    simp only [Except.bind]
    rw [@number_whole 2 _ (by rw [List.length_drop, List.length_drop]; omega)]
    dsimp only
    rw [List.drop_drop, List.drop_drop, bytes_whole, List.length_drop, List.drop_drop, ← slice, ← slice,
      ← slice]
    split
    · exact .error _
    next =>
      split
      next hfit =>
        rw [if_pos (by omega)]
        dsimp only
        cases o.putSlice out (slice b.input (b.align.pos + 2 + 2) (leValue (slice b.input b.align.pos 2))) with
        | error e => exact .error e
        | ok out => exact .ok ⟨reads_at b.input _ hfit, rfl⟩
      next hfit =>
        rw [if_neg (by omega)]
        exact .error _

/-! ## Blocks -/

theorem based_alike {base extra : List Nat} (hextra : ∀ e ∈ extra, e ≤ 57) {b : Bits} {s : List Bool}
    (hreads : Reads b s) (sym : Nat) :
    Alike Read (based base extra sym b) (Reference.based base extra sym s) := by
  rw [based, Reference.based]
  cases base[sym]? with
  | none => exact .error _
  | some v =>
    have hbits : extra.getD sym 0 ≤ 57 := by
      rw [List.getD_eq_getElem?_getD]
      cases hget : extra[sym]? with
      | none => exact Nat.zero_le _
      | some e => exact hextra e (List.mem_of_getElem? hget)
    exact (bits_alike hreads hbits).map fun r q hrq => ⟨congrArg (v + ·) hrq.1, hrq.2⟩

/-- One symbol of a block, decoded by tables or off the bits. -/
theorem codesStep_alike_reference {lit dist : List Nat} {l d : Huffman} (hl : Implements l lit)
    (hd : Implements d dist) {b : Bits} {s : List Bool} (hreads : Reads b s) (out : σ) :
    Alike (fun r q => r.1 = q.1 ∧ Both r.2 q.2) (codesStep o l d b out)
      (Reference.codesStep o lit dist s out) := by
  rw [codesStep, Reference.codesStep]
  refine (decode_symbol hl hreads).bind fun sym sym' hsym => ?_
  rw [hsym.1]
  split
  · cases o.put out (UInt8.ofNat sym'.1) with
    | error e => exact .error e
    | ok out => exact .ok ⟨rfl, hsym.2, rfl⟩
  split
  · exact .ok ⟨rfl, hsym.2, rfl⟩
  refine (based_alike (by decide) hsym.2 _).bind fun len len' hlen => ?_
  refine (decode_symbol hd hlen.2).bind fun place place' hplace => ?_
  rw [hplace.1]
  refine (based_alike (by decide) hplace.2 _).bind fun distance distance' hdistance => ?_
  rw [hdistance.1, hlen.1]
  cases o.copy out distance'.1 len'.1 with
  | error e => exact .error e
  | ok out => exact .ok ⟨rfl, hdistance.2, rfl⟩

/-- With no bits left no symbol is read. -/
theorem codesStep_nil (lit dist : List Nat) (out : σ) :
    Reference.codesStep o lit dist [] out = .error .truncated := rfl

theorem codes_alike_reference {lit dist : List Nat} {l d : Huffman} (hl : Implements l lit)
    (hd : Implements d dist) {k : Nat} {b : Bits} {s : List Bool} (hreads : Reads b s) (hk : s.length ≤ k)
    (out : σ) : Alike Both (codes o l d b out) (Reference.codes o lit dist k s out) := by
  induction k generalizing b s out with
  | zero =>
    have hstep := codesStep_alike_reference o hl hd hreads out
    rw [List.eq_nil_of_length_eq_zero (Nat.le_zero.1 hk), codesStep_nil] at hstep
    generalize hr : codesStep o l d b out = r at hstep
    rw [codes, hr, Reference.codes]
    cases hstep
    exact .error _
  | succ k ih =>
    have hstep := codesStep_alike_reference o hl hd hreads out
    generalize hr : codesStep o l d b out = r at hstep
    rw [codes, hr, Reference.codes]
    generalize Reference.codesStep o lit dist s out = q at hstep ⊢
    cases hstep with
    | error e => exact .error _
    | @ok r q hrq =>
      obtain ⟨last, b', out'⟩ := r
      obtain ⟨last', s', out''⟩ := q
      obtain ⟨rfl, hreads', rfl⟩ := hrq
      cases last with
      | true => exact .ok ⟨hreads', rfl⟩
      | false =>
        have hleft := (codesStep_shorter o hr).2
        have hlen := hreads.length
        have hlen' := hreads'.length
        dsimp only at hleft hlen'
        have hk' : s'.length ≤ k := by omega
        exact ih hreads' hk' out'

theorem fixed_holds {l d : Huffman} (hl : Roomy l) (hd : Roomy d) :
    Holds Reference.fixedLit Reference.fixedDist (fixedTables l d).1 (fixedTables l d).2 := by
  have hlit : Lengths Reference.fixedLit := ⟨by decide +kernel, by decide +kernel⟩
  have hdist : Lengths Reference.fixedDist := ⟨by decide, by decide⟩
  have htables : fixedTables l d =
      ((l.build Reference.fixedLit).1, (d.build Reference.fixedDist).1) := rfl
  rw [htables]
  dsimp only
  exact ⟨build_implements hlit (by decide +kernel) hl, build_implements hdist (by decide) hd,
    roomy_build hl _, roomy_build hd _⟩

/-- The decoder between blocks: what is left of earlier codes is room for the next. -/
structure Between (s : State σ) (q : List Bool × σ) : Prop where
  reads : Reads s.bits q.1
  lit : Roomy s.lit
  dist : Roomy s.dist
  out : s.out = q.2

theorem block_alike_reference {s : State σ} {q : List Bool × σ} (h : Between s q) :
    Alike (fun r p => r.1 = p.1 ∧ Between r.2 p.2) (block o s) (Reference.block o q.1 q.2) := by
  obtain ⟨bits, l, d, out⟩ := s
  obtain ⟨s, out'⟩ := q
  obtain ⟨hreads, hl, hd, rfl⟩ := h
  rw [block, Reference.block]
  refine (bits_alike hreads (by omega)).bind fun last last' h₁ => ?_
  refine (bits_alike h₁.2 (by omega)).bind fun kind kind' h₂ => ?_
  obtain ⟨n, b'⟩ := kind
  obtain ⟨n', s'⟩ := kind'
  obtain ⟨rfl, hreads'⟩ := h₂
  rw [h₁.1]
  dsimp only at hreads' ⊢
  rcases n with _ | _ | _ | n
  · exact (stored_alike_reference o hreads' out).map fun r p hrp => ⟨rfl, hrp.1, hl, hd, hrp.2⟩
  · have hfixed := fixed_holds hl hd
    generalize fixedTables l d = tables at hfixed ⊢
    exact (codes_alike_reference o hfixed.lit hfixed.dist hreads' le_rfl out).map fun r p hrp =>
      ⟨rfl, hrp.1, hfixed.litRoom, hfixed.distRoom, hrp.2⟩
  · refine (dynamicTables_alike hreads' hl hd).bind fun tables tables' htables => ?_
    exact (codes_alike_reference o htables.1.lit htables.1.dist htables.2 le_rfl out).map fun r p hrp =>
      ⟨rfl, hrp.1, htables.1.litRoom, htables.1.distRoom, hrp.2⟩
  · exact .error _

theorem block_nil (out : σ) : Reference.block o [] out = .error .truncated := rfl

theorem blocks_alike_reference {k : Nat} {s : State σ} {q : List Bool × σ} (h : Between s q)
    (hk : q.1.length ≤ k) : Alike Between (blocks o s) (Reference.blocks o k q.1 q.2) := by
  induction k generalizing s q with
  | zero =>
    have hstep := block_alike_reference o h
    rw [List.eq_nil_of_length_eq_zero (Nat.le_zero.1 hk), block_nil] at hstep
    generalize hr : block o s = r at hstep
    rw [blocks, hr, Reference.blocks]
    cases hstep
    exact .error _
  | succ k ih =>
    have hstep := block_alike_reference o h
    generalize hr : block o s = r at hstep
    rw [blocks, hr, Reference.blocks]
    generalize Reference.block o q.1 q.2 = p at hstep ⊢
    cases hstep with
    | error e => exact .error _
    | @ok r p hrp =>
      obtain ⟨last, s'⟩ := r
      obtain ⟨last', q'⟩ := p
      obtain ⟨rfl, hbetween⟩ := hrp
      cases last with
      | true => exact .ok hbetween
      | false =>
        have hleft := block_shorter o hr
        have hlen := h.reads.length
        have hlen' := hbetween.reads.length
        dsimp only at hleft hlen'
        have hk' : q'.1.length ≤ k := by omega
        exact ih hbetween hk'

theorem block_input {s : State σ} {r : Bool × State σ} (h : block o s = .ok r) :
    r.2.bits.input = s.bits.input := by
  obtain ⟨last, hlast, h⟩ := Check.bind_ok.1 h
  obtain ⟨kind, hkind, h⟩ := Check.bind_ok.1 h
  have hfirst := (forward_bits hlast).trans (forward_bits hkind)
  split at h
  · obtain ⟨v, hv, rfl⟩ := map_ok h
    exact (stored_left o hv).1.trans hfirst.1
  · obtain ⟨v, hv, rfl⟩ := map_ok h
    exact (codes_left o _ _ hv).1.trans hfirst.1
  · obtain ⟨tables, htables, h⟩ := Check.bind_ok.1 h
    obtain ⟨v, hv, rfl⟩ := map_ok h
    exact (codes_left o _ _ hv).1.trans ((forward_dynamicTables htables).1.trans hfirst.1)
  · cases h

theorem blocks_input {s s' : State σ} (h : blocks o s = .ok s') : s'.bits.input = s.bits.input := by
  induction hk : s.bits.left using Nat.strong_induction_on generalizing s with
  | _ k ih =>
    rw [blocks] at h
    split at h
    · cases h
    next hblock =>
      cases h
      exact block_input o hblock
    next hblock =>
      have hrest := ih _ (hk ▸ block_shorter o hblock) h rfl
      exact hrest.trans (block_input o hblock)

/-- The decoder decodes what the stream means, and knows where the stream ends. -/
theorem decodePrefix_reference (input : List UInt8) (out : σ) :
    decodePrefix o input out = Reference.decodePrefix o input out := by
  have hstart : Between (⟨.new input, .new, .new, out⟩ : State σ) (bitsOf input, out) :=
    ⟨reads_new input, roomy_new, roomy_new, rfl⟩
  have hblocks := blocks_alike_reference o hstart le_rfl
  rw [decodePrefix, Reference.decodePrefix]
  generalize hr : blocks o ⟨.new input, .new, .new, out⟩ = r at hblocks ⊢
  generalize Reference.blocks o (bitsOf input).length (bitsOf input) out = q at hblocks ⊢
  cases hblocks with
  | error e => rfl
  | @ok r q hrq =>
    have hinput := blocks_input o hr
    have hpos := hrq.reads.align_pos
    rw [hinput] at hpos
    simp only [Except.map]
    rw [hpos, hrq.out]
    rfl

/-- So it does of a stream that is all of the input. -/
theorem decode_reference (input : List UInt8) (out : σ) : decode o input out = Reference.decode o input out := by
  rw [decode, Reference.decode, decodePrefix_reference]

end Decode

/-! ## The buffer -/

/-- What lies behind the bytes written is as it was in `out`. -/
def Kept (out : List UInt8) (f : Flat) : Prop := f.buf.drop f.n = out.drop f.n

theorem Kept.mono {out : List UInt8} {f : Flat} (h : Kept out f) {n : Nat} (hn : f.n ≤ n) :
    f.buf.drop n = out.drop n := by
  obtain ⟨k, rfl⟩ := Nat.exists_eq_add_of_le hn
  rw [← List.drop_drop, ← List.drop_drop, h]

theorem drop_splice {buf src : List UInt8} {pos : Nat} (h : pos + src.length ≤ buf.length) :
    (splice buf pos src).drop (pos + src.length) = buf.drop (pos + src.length) := by
  rw [splice, ← List.append_assoc,
    List.drop_left' (by rw [List.length_append, List.length_take_of_le (by omega)])]

theorem drop_repeatFrom (d : Nat) {i k : Nat} (out : List UInt8) :
    (Lz.repeatFrom d i k out).drop (i + k) = out.drop (i + k) := by
  induction k generalizing i out with
  | zero => rfl
  | succ k ih =>
    rw [Lz.repeatFrom, ← Nat.succ_add_eq_add_succ, ih, List.drop_set_of_lt (by omega)]

/-- A copy writes its own bytes only. -/
theorem drop_copyMatch {d op ml : Nat} {out : List UInt8} (hop : d ≤ op) (h : op + ml ≤ out.length) :
    (Lz.copyMatch d op ml out).drop (op + ml) = out.drop (op + ml) := by
  rw [Lz.copyMatch]
  split
  next hle =>
    have hslice : (slice out (op - d) ml).length = ml := by
      rw [length_slice]
      omega
    have hdrop := @drop_splice out (slice out (op - d) ml) op (by omega)
    rwa [hslice] at hdrop
  next => exact drop_repeatFrom d out

theorem Kept.put {out : List UInt8} {f f' : Flat} (h : Kept out f) {b : UInt8} (hput : f.put b = .ok f') :
    Kept out f' := by
  rw [Flat.put] at hput
  split at hput
  · cases hput
    rw [Kept, List.drop_set_of_lt (Nat.lt_succ_self _)]
    exact h.mono (Nat.le_succ _)
  · cases hput

theorem Kept.putSlice {out : List UInt8} {f f' : Flat} (h : Kept out f) {s : List UInt8}
    (hput : f.putSlice s = .ok f') : Kept out f' := by
  rw [Flat.putSlice] at hput
  split at hput
  next hfit =>
    cases hput
    rw [Kept, drop_splice hfit]
    exact h.mono (Nat.le_add_right _ _)
  next => cases hput

theorem Kept.copy {out : List UInt8} {f f' : Flat} (h : Kept out f) {dist len : Nat}
    (hcopy : f.copy dist len = .ok f') : Kept out f' := by
  rw [Flat.copy] at hcopy
  split at hcopy
  · cases hcopy
  next hdist =>
    split at hcopy
    · cases hcopy
    next hfit =>
      cases hcopy
      rw [Kept, drop_copyMatch (by omega) (by omega)]
      exact h.mono (Nat.le_add_right _ _)

/-- The buffer was given `t`, and has in front of what `out` had there the bytes of `t`. -/
def Written (out : List UInt8) (f : Flat) (t : List UInt8) : Prop := Filled out.length f t ∧ Kept out f

/-- A buffer takes everything as the text does, and keeps what is behind it. -/
theorem flat_simulates_written (out : List UInt8) :
    Simulates Flat.output (text out.length) (Written out) where
  put h b := ((flat_simulates out.length).put h.1 b).and fun _ hput => h.2.put hput
  putSlice h s := ((flat_simulates out.length).putSlice h.1 s).and fun _ hput => h.2.putSlice hput
  copy h _ hdist len := ((flat_simulates out.length).copy h.1 hdist len).and fun _ hcopy => h.2.copy hcopy

theorem Written.buf {out : List UInt8} {f : Flat} {t : List UInt8} (h : Written out f t) :
    f.n = t.length ∧ f.buf = t ++ out.drop t.length := by
  obtain ⟨hfilled, hkept⟩ := h
  rw [Kept] at hkept
  refine ⟨hfilled.n, ?_⟩
  rw [← hfilled.n, ← hkept]
  conv_lhs => rw [← List.take_append_drop f.n f.buf, hfilled.take]

/-- Inflating the stream that the input begins with. -/
theorem inflateIntoPrefix_reference (input out : List UInt8) :
    Alike (fun r t => r = (t.2.length, t.1, t.2 ++ out.drop t.2.length)) (inflateIntoPrefix input out)
      (Reference.decodePrefix (text out.length) input []) := by
  have hstart : Written out ⟨out, 0⟩ [] := ⟨filled_start out, rfl⟩
  have hflat := decodePrefix_alike (flat_simulates_written out) input hstart
  rw [decodePrefix_reference (text out.length)] at hflat
  rw [inflateIntoPrefix]
  generalize decodePrefix Flat.output input ⟨out, 0⟩ = r at hflat ⊢
  generalize Reference.decodePrefix (text out.length) input [] = t at hflat ⊢
  cases hflat with
  | error e => exact .error e
  | @ok r t hrt =>
    obtain ⟨hn, hbuf⟩ := hrt.2.buf
    exact .ok (by dsimp only; rw [hn, hbuf, hrt.1])

/-- Inflating a stream that is all of the input. -/
theorem inflateInto_reference (input out : List UInt8) :
    Alike (fun r t => r = (t.length, t ++ out.drop t.length)) (inflateInto input out)
      (Reference.decode (text out.length) input []) := by
  refine (inflateIntoPrefix_reference input out).bind fun r t hrt => ?_
  rw [hrt]
  dsimp only
  split
  · exact .error _
  · exact .ok rfl

/-- Inflating is decoding DEFLATE: into any buffer any input gives the bytes that a bit at a time gives, in front
of what the buffer had behind them, or the same refusal. And the tables of any code that can be built, in
whatever was in them, give at any place of a stream the symbol that the canonical walk gives and the bits
spell. -/
theorem inflate_exact :
    (∀ input out : List UInt8,
      Alike (fun r t => r = (t.length, t ++ out.drop t.length)) (inflateInto input out)
        (Reference.decode (text out.length) input [])) ∧
    ∀ (lengths : List Nat) (h : Huffman) (b : Bits) (s : List Bool), Lengths lengths →
      Canonical.kraft lengths maxBits ≤ 2 ^ maxBits → Roomy h → Reads b s →
      let code := (h.build lengths).1
      Alike Read (code.decode b) (Reference.symbol lengths s) ∧
        Alike Read (code.walk b.peek15.1 b.peek15.2.1 b.peek15.2.2 maxBits 1 0 0 0)
          (Reference.symbol lengths s) := by
  refine ⟨inflateInto_reference, fun lengths h b s hl hfit hroom hreads => ?_⟩
  have himp := build_implements hl hfit hroom
  obtain ⟨hreads', havail, hpeek⟩ := peek15_reads hreads
  exact ⟨decode_symbol himp hreads,
    @walk_alike _ lengths himp _ _ _ s hreads' havail b.peek15_spec.2.2 hpeek maxBits 0 0 rfl (Nat.zero_le _)⟩

/-- A code of two symbols, where a stream begins. -/
theorem inflate_exact_two :
    Alike Read ((Huffman.new.build [1, 1]).1.decode (.new [0x03])) (Reference.symbol [1, 1] (bitsOf [0x03])) :=
  (inflate_exact.2 [1, 1] .new (.new [0x03]) (bitsOf [0x03]) ⟨by decide, by decide⟩ (by decide) roomy_new
    (reads_new [0x03])).1

end NanoChrono.Deflate
