import NanoChrono.Deflate.Tables

/-! # Building the tables of a code

From the lengths of the codes the tables are built in four passes: how many codes there are of each length,
where the symbols of each length start, the symbols in that order, and what each pattern of ten bits begins
with. Every pass computes what the canonical code has there (`build_implements`), whatever an earlier code
has left in the table of symbols, and the code is refused or taken as its Kraft sum says (`build_fill`). -/

namespace NanoChrono.Deflate

/-! ## Counts -/

theorem length_counts_from (lengths count : List Nat) :
    (lengths.foldl (fun count l => count.set l (count.getD l 0 + 1)) count).length = count.length := by
  induction lengths generalizing count with
  | nil => rfl
  | cons l lengths ih => rw [List.foldl_cons, ih, List.length_set]

theorem counts_from {lengths count : List Nat} (hmax : ∀ l ∈ lengths, l < count.length) (len : Nat) :
    (lengths.foldl (fun count l => count.set l (count.getD l 0 + 1)) count).getD len 0 =
      count.getD len 0 + lengths.count len := by
  induction lengths generalizing count with
  | nil => rfl
  | cons l lengths ih =>
    have hl := hmax l List.mem_cons_self
    rw [List.foldl_cons, ih fun k hk => by rw [List.length_set]; exact hmax k (List.mem_cons_of_mem l hk),
      List.count_cons, List.getD_eq_getElem?_getD, List.getD_eq_getElem?_getD, List.getD_eq_getElem?_getD]
    by_cases h : l = len
    · rw [h, List.getElem?_set_self (h ▸ hl), if_pos (beq_self_eq_true len), Option.getD_some]
      omega
    · rw [List.getElem?_set_ne h, if_neg (mt beq_iff_eq.1 h), Nat.add_zero]

/-- Lengths that the tables are made for. -/
structure Lengths (lengths : List Nat) : Prop where
  short : ∀ l ∈ lengths, l ≤ maxBits
  few : lengths.length ≤ maxLit

section Build

variable {lengths : List Nat}

theorem length_counts (lengths : List Nat) : (Huffman.counts lengths).length = maxBits + 1 := by
  rw [Huffman.counts, length_counts_from, List.length_replicate]

theorem counts_getD (hl : Lengths lengths) (len : Nat) :
    (Huffman.counts lengths).getD len 0 = lengths.count len := by
  rw [Huffman.counts, counts_from fun l h => by rw [List.length_replicate]; exact Nat.lt_succ_of_le (hl.short l h)]
  have hzero : (List.replicate (maxBits + 1) 0).getD len 0 = 0 := by
    rw [List.getD_eq_getElem?_getD, List.getElem?_replicate]
    split <;> rfl
  rw [hzero, Nat.zero_add]

/-- The counts of the lengths from one on. -/
theorem counts_drop (hl : Lengths lengths) :
    (Huffman.counts lengths).drop 1 = (List.range' 1 maxBits).map (Canonical.count lengths) := by
  apply List.ext_getElem?
  intro i
  rw [List.getElem?_drop, List.getElem?_map]
  rcases Nat.lt_or_ge i maxBits with hi | hi
  · have hlen : 1 + i < (Huffman.counts lengths).length := by rw [length_counts]; omega
    have hget := counts_getD hl (1 + i)
    rw [List.getD_eq_getElem?_getD, List.getElem?_eq_getElem hlen, Option.getD_some] at hget
    rw [List.getElem?_range' hi, List.getElem?_eq_getElem hlen, hget, Nat.one_mul, Option.map_some,
      Canonical.count_pos lengths (by omega : 0 < 1 + i)]
  · rw [List.getElem?_eq_none (by rw [length_counts]; omega),
      List.getElem?_eq_none (by rw [List.length_range']; exact hi), Option.map_none]

/-- What the codes of `len` and the next `n` lengths leave over. -/
theorem leftover_from (lengths : List Nat) {len : Nat} (n : Nat)
    (hfit : Canonical.kraft lengths len ≤ 2 ^ len) :
    ((List.range' (len + 1) n).map (Canonical.count lengths)).foldlM
        (fun left n => if 2 * left < n then none else some (2 * left - n))
        (2 ^ len - Canonical.kraft lengths len) =
      if Canonical.kraft lengths (len + n) ≤ 2 ^ (len + n) then
        some (2 ^ (len + n) - Canonical.kraft lengths (len + n)) else none := by
  induction n generalizing len with
  | zero => exact (if_pos hfit).symm
  | succ n ih =>
    have hkraft := Canonical.kraft_succ lengths len
    have hpow : 2 ^ (len + 1) = 2 * 2 ^ len := by rw [Nat.pow_succ, Nat.mul_comm]
    rw [List.range'_succ, List.map_cons, List.foldlM_cons]
    by_cases hnext : Canonical.kraft lengths (len + 1) ≤ 2 ^ (len + 1)
    · have hrest := ih hnext
      rw [if_neg (by omega), show 2 * (2 ^ len - Canonical.kraft lengths len) -
        Canonical.count lengths (len + 1) = 2 ^ (len + 1) - Canonical.kraft lengths (len + 1) by omega,
        show len + (n + 1) = len + 1 + n by omega]
      exact hrest
    · -- Too many codes by now are too many in the end.
      have hover : ¬ Canonical.kraft lengths (len + (n + 1)) ≤ 2 ^ (len + (n + 1)) :=
        fun h => hnext (Canonical.fits_of_kraft lengths (by omega) h)
      rw [if_pos (by omega), if_neg hover]
      rfl

theorem kraft_zero (lengths : List Nat) : Canonical.kraft lengths 0 = 0 := by
  rw [← Canonical.first_add_count]
  rfl

theorem leftover_eq (hl : Lengths lengths) :
    Huffman.leftover (Huffman.counts lengths) =
      if Canonical.kraft lengths maxBits ≤ 2 ^ maxBits then
        some (2 ^ maxBits - Canonical.kraft lengths maxBits) else none := by
  have hfrom := @leftover_from lengths 0 maxBits (by rw [kraft_zero]; exact Nat.zero_le _)
  rw [kraft_zero, Nat.zero_add, Nat.zero_add] at hfrom
  rw [Huffman.leftover, counts_drop hl]
  exact hfrom

/-! ## Symbols -/

theorem offsets_from (lengths : List Nat) {count : List Nat}
    (hcount : ∀ len, 0 < len → len ≤ maxBits → count.getD len 0 = Canonical.count lengths len) {n : Nat}
    (hn : n ≤ maxBits) :
    let offs := (List.range n).foldl
      (fun offs i => offs.set (i + 2) (offs.getD (i + 1) 0 + count.getD (i + 1) 0))
      (List.replicate (maxBits + 2) 0)
    offs.length = maxBits + 2 ∧ ∀ len ≤ n + 1, offs.getD len 0 = Canonical.start lengths len := by
  induction n with
  | zero =>
    refine ⟨List.length_replicate, fun len hlen => ?_⟩
    rcases Nat.le_one_iff_eq_zero_or_eq_one.1 hlen with rfl | rfl <;> rfl
  | succ n ih =>
    obtain ⟨hlength, hget⟩ := ih (Nat.le_of_succ_le hn)
    rw [List.range_succ, List.foldl_append, List.foldl_cons, List.foldl_nil]
    refine ⟨by rw [List.length_set, hlength], fun len hlen => ?_⟩
    rw [List.getD_eq_getElem?_getD]
    rcases Nat.eq_or_lt_of_le hlen with rfl | hlt
    · rw [List.getElem?_set_self (by rw [hlength]; omega), Option.getD_some, hget _ le_rfl,
        hcount _ (Nat.succ_pos n) hn]
      rfl
    · rw [List.getElem?_set_ne (by omega), ← List.getD_eq_getElem?_getD]
      exact hget len (by omega)

/-- The symbols of the first lengths `done` are in their places, and the next of each length has its own. -/
structure Placed (lengths done : List Nat) (s : List Nat × List Nat) : Prop where
  room : lengths.length ≤ s.1.length
  size : s.2.length = maxBits + 2
  offs : ∀ len, 0 < len → len ≤ maxBits → s.2.getD len 0 = Canonical.start lengths len + done.count len
  symbol : ∀ len, 0 < len → len ≤ maxBits → ∀ j < done.count len,
    s.1[Canonical.start lengths len + j]? = (Canonical.ofLength done len)[j]?

/-- A place for a symbol of length `len` is not one for a symbol of another length. -/
theorem place_ne {len len' i j : Nat} (hne : len ≠ len') (hpos : 0 < len) (hpos' : 0 < len')
    (hi : i < lengths.count len) (hj : j < lengths.count len') :
    Canonical.start lengths len + i ≠ Canonical.start lengths len' + j := by
  have hnext : Canonical.start lengths (len + 1) = Canonical.start lengths len + lengths.count len := by
    rw [Canonical.start, Canonical.count_pos lengths hpos]
  have hnext' : Canonical.start lengths (len' + 1) = Canonical.start lengths len' + lengths.count len' := by
    rw [Canonical.start, Canonical.count_pos lengths hpos']
  rcases Nat.lt_or_gt_of_ne hne with hlt | hgt
  · have hle := @Canonical.start_mono lengths (len + 1) len' hlt
    omega
  · have hle := @Canonical.start_mono lengths (len' + 1) len hgt
    omega

theorem Placed.step {done : List Nat} {s : List Nat × List Nat} {l : Nat} (hs : Placed lengths done s)
    (hinit : done ++ [l] <+: lengths) (hl : l ≤ maxBits) :
    Placed lengths (done ++ [l])
      (if l = 0 then s
        else (s.1.set (s.2.getD l 0) done.length, s.2.set l (s.2.getD l 0 + 1))) := by
  have hcount : ∀ len, (done ++ [l]).count len = done.count len + if l = len then 1 else 0 := by
    intro len
    rw [List.count_append, List.count_singleton]
    simp only [beq_iff_eq]
  split
  next hzero =>
    refine ⟨hs.room, hs.size, fun len hpos hmax => ?_, fun len hpos hmax j hj => ?_⟩
    · rw [hcount, if_neg (by omega), Nat.add_zero]
      exact hs.offs len hpos hmax
    · rw [hcount, if_neg (by omega), Nat.add_zero] at hj
      rw [Canonical.ofLength_concat, if_neg (by omega), List.append_nil]
      exact hs.symbol len hpos hmax j hj
  next hpos =>
    have hfresh : done.count l < lengths.count l := by
      have hle := hinit.sublist.count_le l
      rw [hcount, if_pos rfl] at hle
      omega
    have hplace : s.2.getD l 0 = Canonical.start lengths l + done.count l :=
      hs.offs l (Nat.pos_of_ne_zero hpos) hl
    have hin : Canonical.start lengths l + done.count l < s.1.length := by
      have hle := Canonical.start_le lengths (l + 1)
      rw [Canonical.start, Canonical.count_pos lengths (Nat.pos_of_ne_zero hpos)] at hle
      have hroom := hs.room
      omega
    refine ⟨by rw [List.length_set]; exact hs.room, by rw [List.length_set]; exact hs.size,
      fun len hpos' hmax => ?_, fun len hpos' hmax j hj => ?_⟩
    · have hold := hs.offs len hpos' hmax
      rw [List.getD_eq_getElem?_getD] at hold ⊢
      rw [hcount]
      by_cases h : l = len
      · rw [← h, List.getElem?_set_self (by rw [hs.size]; omega), if_pos rfl, Option.getD_some, hplace]
        omega
      · rw [List.getElem?_set_ne h, if_neg h, hold]
        omega
    · rw [hcount] at hj
      rw [hplace, Canonical.ofLength_concat]
      by_cases h : l = len
      · subst h
        rw [if_pos rfl] at hj ⊢
        rcases Nat.lt_succ_iff_lt_or_eq.1 hj with hlt | rfl
        · rw [List.getElem?_set_ne (by omega),
            List.getElem?_append_left (by rw [Canonical.length_ofLength]; exact hlt)]
          exact hs.symbol l hpos' hmax j hlt
        · rw [List.getElem?_set_self hin, ← Canonical.length_ofLength, List.getElem?_concat_length]
      · rw [if_neg h] at hj ⊢
        have hle := (List.prefix_append done [l]).trans hinit |>.sublist.count_le len
        rw [List.append_nil, List.getElem?_set_ne (place_ne h (Nat.pos_of_ne_zero hpos) hpos' hfresh (by omega))]
        exact hs.symbol len hpos' hmax j hj

/-- All symbols in their places. -/
theorem symbols_placed (hl : Lengths lengths) {offs symbol : List Nat}
    (hstart : Placed lengths [] (symbol, offs)) :
    ∃ offs', Placed lengths lengths (Huffman.symbols lengths offs symbol, offs') := by
  have hfrom : ∀ done, done <+: lengths → Placed lengths done
      (done.zipIdx.foldl (fun (s : List Nat × List Nat) l =>
        if l.1 = 0 then s
        else (s.1.set (s.2.getD l.1 0) l.2, s.2.set l.1 (s.2.getD l.1 0 + 1))) (symbol, offs)) := by
    intro done
    induction done using List.reverseRecOn with
    | nil => exact fun _ => hstart
    | append_singleton done l ih =>
      intro hinit
      have hstep := (ih ((List.prefix_append done [l]).trans hinit)).step hinit
        (hl.short l (hinit.subset (List.mem_append_right done List.mem_cons_self)))
      rw [List.zipIdx_append, List.foldl_append, Nat.zero_add]
      exact hstep
  exact ⟨_, hfrom lengths (List.prefix_rfl)⟩

/-! ## The lookup table -/

/-- Every entry of a table says what is so. -/
def Sound (lengths : List Nat) (f : Fast) : Prop :=
  ∀ p, f.1.getD p 0 = 0 ∨ Entry lengths p (f.1.getD p 0)

theorem sound_zero (lengths : List Nat) : Sound lengths .zero := by
  intro p
  refine .inl ?_
  rw [Fast.zero, List.getD_eq_getElem?_getD, List.getElem?_replicate]
  split <;> rfl

/-- A filled table has the new entry at places that are `step` apart. -/
theorem fill_getD (f : Fast) (entry : Nat) (h : 2 ^ 9 ≤ entry) (i step : Nat) (hstep : 0 < step) (p : Nat) :
    (f.fill entry h i step hstep).1.getD p 0 = f.1.getD p 0 ∨
      ((f.fill entry h i step hstep).1.getD p 0 = entry ∧ ∃ k, p = i + k * step) := by
  fun_induction Fast.fill f entry h i step hstep with
  | case1 f i hi ih =>
    rcases ih with ih | ⟨ih, k, hk⟩
    · rw [ih]
      dsimp only
      rw [List.getD_eq_getElem?_getD, List.getD_eq_getElem?_getD]
      by_cases hp : i = p
      · exact .inr ⟨by rw [← hp, List.getElem?_set_self hi, Option.getD_some], 0, by omega⟩
      · exact .inl (by rw [List.getElem?_set_ne hp])
    · exact .inr ⟨ih, k + 1, by rw [hk, Nat.succ_mul]; omega⟩
  | case2 f i hi => exact .inl rfl

/-- The bits of a code in the order of the stream. -/
theorem testBit_rev {len c i : Nat} (hlen : len ≤ 32) (hi : i < len) :
    ((BitVec.ofNat 32 c).reverse >>> (32 - len)).toNat.testBit i = c.testBit (len - 1 - i) := by
  rw [← BitVec.getLsbD, BitVec.getLsbD_ushiftRight, BitVec.getLsbD_reverse, BitVec.getMsbD_eq_getLsbD,
    decide_eq_true (by omega : 32 - len + i < 32), Bool.true_and, BitVec.getLsbD_ofNat,
    decide_eq_true (by omega : 32 - 1 - (32 - len + i) < 32), Bool.true_and]
  congr 1
  omega

theorem rev_lt (c : Nat) {len : Nat} (hlen : len ≤ 32) :
    ((BitVec.ofNat 32 c).reverse >>> (32 - len)).toNat < 2 ^ len := by
  rw [BitVec.toNat_ushiftRight, Nat.shiftRight_eq_div_pow, Nat.div_lt_iff_lt_mul (Nat.two_pow_pos _),
    ← Nat.pow_add, Nat.add_sub_cancel' hlen]
  exact BitVec.isLt _

/-- The codes of one length go into the table. -/
theorem fillLength_sound {symbol : List Nat} {len : Nat} (hlen : 0 < len) (hfew : lengths.length ≤ maxLit)
    (hfits : Canonical.first lengths len + Canonical.count lengths len ≤ 2 ^ len)
    (hsymbol : ∀ j < Canonical.count lengths len,
      symbol[Canonical.start lengths len + j]? = (Canonical.ofLength lengths len)[j]?)
    {n j : Nat} (hn : j + n = Canonical.count lengths len) {f : Fast} (hf : Sound lengths f) :
    let r := Fast.fillLength symbol len hlen n (Canonical.first lengths len + j)
      (Canonical.start lengths len + j) f
    Sound lengths r.1 ∧ r.2.1 = Canonical.first lengths len + Canonical.count lengths len ∧
      r.2.2 = Canonical.start lengths (len + 1) := by
  induction n generalizing j f with
  | zero =>
    rw [Nat.add_zero] at hn
    rw [hn]
    exact ⟨hf, rfl, rfl⟩
  | succ n ih =>
    have hj : j < Canonical.count lengths len := by omega
    have hplace : j < (Canonical.ofLength lengths len).length := by
      rwa [Canonical.length_ofLength_pos lengths hlen]
    obtain ⟨sym, hsym⟩ : ∃ sym, (Canonical.ofLength lengths len)[j]? = some sym :=
      ⟨_, List.getElem?_eq_getElem hplace⟩
    have hcode : Canonical.symbolOf lengths len (Canonical.first lengths len + j) = some sym := by
      rw [Canonical.symbolOf_eq, if_pos (Nat.le_add_right _ _), Nat.add_sub_cancel_left, hsym]
    have hget : symbol.getD (Canonical.start lengths len + j) 0 = sym := by
      rw [List.getD_eq_getElem?_getD, hsymbol j hj, hsym, Option.getD_some]
    have hsym9 : sym < 2 ^ 9 := by
      have hlt := (List.getElem?_eq_some_iff.1 (Canonical.getElem?_ofLength.1 hsym).1).1
      have hlit : maxLit ≤ 2 ^ 9 := by decide
      omega
    rw [Fast.fillLength]
    dsimp only
    refine @ih (j + 1) (by omega) _ ?_
    split
    next hfast =>
      have hten : len ≤ 10 := hfast
      intro p
      rcases fill_getD f _ _ _ (1 <<< len) _ p with hold | ⟨hnew, k, hk⟩
      · rw [hold]
        exact hf p
      · refine .inr ?_
        rw [hnew]
        refine ⟨len, Canonical.first lengths len + j, sym, hlen, hfast, Nat.le_add_right _ _, by omega, hcode,
          hsym9, by rw [hget], fun i hi => ?_⟩
        have hmod : p % 2 ^ len =
            ((BitVec.ofNat 32 (Canonical.first lengths len + j)).reverse >>> (32 - len)).toNat := by
          rw [hk, Nat.one_shiftLeft, Nat.add_mul_mod_self_right,
            Nat.mod_eq_of_lt (rev_lt _ (by omega))]
        have hbit := Nat.testBit_mod_two_pow p len i
        rw [decide_eq_true hi, Bool.true_and, hmod, testBit_rev (by omega) hi] at hbit
        exact hbit
    next => exact hf

/-- The codes of all lengths from `len` on go into the table. -/
theorem fillLengths_sound {symbol : List Nat} (hfew : lengths.length ≤ maxLit)
    (hfits : ∀ len ≤ maxBits, Canonical.first lengths len + Canonical.count lengths len ≤ 2 ^ len)
    (hsymbol : ∀ len, 0 < len → len ≤ maxBits → ∀ j < Canonical.count lengths len,
      symbol[Canonical.start lengths len + j]? = (Canonical.ofLength lengths len)[j]?)
    {n len : Nat} (hlen : 0 < len) (hn : len + n ≤ maxBits + 1) {f : Fast} (hf : Sound lengths f) :
    Sound lengths (Fast.fillLengths symbol ((List.range' len n).map (Canonical.count lengths)) len hlen
      (Canonical.first lengths len) (Canonical.start lengths len) f) := by
  induction n generalizing len f with
  | zero => exact hf
  | succ n ih =>
    have hmax : len ≤ maxBits := by omega
    obtain ⟨hsound, hcode, hindex⟩ := @fillLength_sound lengths symbol len hlen hfew (hfits len hmax)
      (hsymbol len hlen hmax) (Canonical.count lengths len) 0 (Nat.zero_add _) f hf
    rw [Nat.add_zero, Nat.add_zero] at hsound hcode hindex
    rw [List.range'_succ, List.map_cons, Fast.fillLengths, hcode, hindex, Nat.shiftLeft_eq, Nat.pow_one,
      Nat.mul_comm]
    exact ih (Nat.succ_pos len) (by omega) hsound

/-! ## The whole build -/

/-- A table of symbols has a place for each. -/
def Roomy (h : Huffman) : Prop := h.symbol.length = maxLit

theorem roomy_new : Roomy .new := List.length_replicate

theorem unused_iff (lengths : List Nat) : lengths.count 0 = lengths.length ↔ ∀ l ∈ lengths, l = 0 := by
  rw [List.count_eq_length]
  exact ⟨fun h l hl => (h l hl).symm, fun h l hl => (h l hl).symm⟩

/-- Codes that are not used take no room. -/
theorem kraft_unused (h : ∀ l ∈ lengths, l = 0) (len : Nat) : Canonical.kraft lengths len = 0 := by
  refine List.sum_eq_zero fun x hx => ?_
  obtain ⟨l, hl, rfl⟩ := List.mem_map.1 hx
  rw [h l hl]
  exact if_neg (by omega)

theorem length_symbols (lengths offs symbol : List Nat) :
    (Huffman.symbols lengths offs symbol).length = symbol.length := by
  rw [Huffman.symbols]
  generalize lengths.zipIdx = pairs
  induction pairs generalizing symbol offs with
  | nil => rfl
  | cons l pairs ih =>
    rw [List.foldl_cons]
    split
    · exact ih offs symbol
    · rw [ih, List.length_set]

theorem roomy_build {h : Huffman} (hroom : Roomy h) (lengths : List Nat) : Roomy (h.build lengths).1 := by
  rw [Huffman.build]
  dsimp only
  split
  · exact hroom
  · split
    · exact hroom
    · rw [Roomy, length_symbols]
      exact hroom

theorem count_eq (hl : Lengths lengths) {len : Nat} (hpos : 0 < len) :
    (Huffman.counts lengths).getD len 0 = Canonical.count lengths len := by
  rw [counts_getD hl, Canonical.count_pos lengths hpos]

theorem fits_of_not_over (h : Canonical.kraft lengths maxBits ≤ 2 ^ maxBits) {len : Nat}
    (hlen : len ≤ maxBits) : Canonical.first lengths len + Canonical.count lengths len ≤ 2 ^ len := by
  rw [Canonical.first_add_count]
  exact Canonical.fits_of_kraft lengths hlen h

/-- Codes that fit are built into their tables, in whatever the tables held. -/
theorem build_implements (hl : Lengths lengths) (hfit : Canonical.kraft lengths maxBits ≤ 2 ^ maxBits)
    {h : Huffman} (hroom : Roomy h) : Implements (h.build lengths).1 lengths := by
  rw [Huffman.build]
  dsimp only
  split
  next hnone =>
    have hunused := (unused_iff lengths).1 (by rw [← counts_getD hl]; exact hnone)
    have hzero : ∀ len, Canonical.count lengths len = 0 := by
      intro len
      have hsum := Canonical.first_add_count lengths len
      rw [kraft_unused hunused] at hsum
      omega
    exact ⟨fun len hlen => fits_of_not_over hfit hlen, fun len hpos _ => count_eq hl hpos,
      fun len _ _ j hj => absurd hj (by rw [hzero]; exact Nat.not_lt_zero j), sound_zero lengths⟩
  next =>
    rw [leftover_eq hl, if_pos hfit]
    dsimp only
    have hoffs := @offsets_from lengths (Huffman.counts lengths) (fun len hpos _ => count_eq hl hpos) maxBits
      le_rfl
    have hstart : Placed lengths [] (h.symbol, Huffman.offsets (Huffman.counts lengths)) := by
      refine ⟨?_, hoffs.1, fun len hpos hmax => ?_, fun len _ _ j hj => absurd hj (Nat.not_lt_zero j)⟩
      · rw [show h.symbol.length = maxLit from hroom]
        exact hl.few
      · exact hoffs.2 len (by omega)
    obtain ⟨offs', hplaced⟩ := symbols_placed hl hstart
    have hsymbol : ∀ len, 0 < len → len ≤ maxBits → ∀ j < Canonical.count lengths len,
        (Huffman.symbols lengths (Huffman.offsets (Huffman.counts lengths)) h.symbol)[
          Canonical.start lengths len + j]? = (Canonical.ofLength lengths len)[j]? := by
      intro len hpos hmax j hj
      rw [Canonical.count_pos lengths hpos] at hj
      exact hplaced.symbol len hpos hmax j hj
    refine ⟨fun len hlen => fits_of_not_over hfit hlen, fun len hpos _ => count_eq hl hpos, hsymbol, ?_⟩
    have hfast := @fillLengths_sound lengths _ hl.few (fun len hlen => fits_of_not_over hfit hlen) hsymbol
      maxBits 1 Nat.one_pos (by omega) .zero (sound_zero lengths)
    rw [counts_drop hl]
    exact hfast

/-- How a code turns out. -/
theorem build_fill (hl : Lengths lengths) (h : Huffman) :
    (h.build lengths).2 =
      if Reference.Complete lengths then .complete
      else if Canonical.kraft lengths maxBits ≤ 2 ^ maxBits then .incomplete else .overSubscribed := by
  rw [Huffman.build, leftover_eq hl]
  dsimp only
  by_cases hnone : (Huffman.counts lengths).getD 0 0 = lengths.length
  · rw [if_pos hnone]
    rw [counts_getD hl] at hnone
    rw [if_pos (.inr ((unused_iff lengths).1 hnone))]
  · rw [if_neg hnone]
    rw [counts_getD hl] at hnone
    by_cases hfit : Canonical.kraft lengths maxBits ≤ 2 ^ maxBits
    · rw [if_pos hfit]
      dsimp only
      by_cases hfull : Canonical.kraft lengths maxBits = 2 ^ maxBits
      · rw [if_neg (by omega), if_pos (.inl hfull)]
      · rw [if_pos (by omega), if_neg (fun hc => hc.elim hfull fun hu => hnone ((unused_iff lengths).2 hu)),
          if_pos hfit]
    · rw [if_neg hfit]
      dsimp only
      rw [if_neg (fun hc => hc.elim (fun hfull => hfit hfull.le) fun hu => hnone ((unused_iff lengths).2 hu)),
        if_neg hfit]

end Build

end NanoChrono.Deflate
