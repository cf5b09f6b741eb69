import NanoChrono.Hash.Blake3

/-! # BLAKE3's parts

The compression function, the words of a block, a node of the tree and the bytes of the output are those
of the definition (`compress_eq`, `words_eq`, `node_parent`, `rootBytes_eq`). -/

namespace NanoChrono.Hash

namespace Blake3

open Buffer

/-! ## The compression function -/

theorem mk_eq_ofNat {n k : Nat} [NeZero n] (h : k < n) : (⟨k, h⟩ : Fin n) = Fin.ofNat n k :=
  Fin.ext (Nat.mod_eq_of_lt h).symm

theorem g_eq (s : Words) {a b c d : Fin 16} (x y : UInt32) (hab : a ≠ b) (hac : a ≠ c) (had : a ≠ d)
    (hbc : b ≠ c) (hbd : b ≠ d) (hcd : c ≠ d) (i : Fin 16) :
    g s a b c d x y i =
      if i = a then Spec.G (s a) (s b) (s c) (s d) x y 0
      else if i = b then Spec.G (s a) (s b) (s c) (s d) x y 1
      else if i = c then Spec.G (s a) (s b) (s c) (s d) x y 2
      else if i = d then Spec.G (s a) (s b) (s c) (s d) x y 3
      else s i := by
  simp only [g, Spec.G]
  -- what an update leaves alone is read through it
  have hne := And.intro hab.symm (And.intro hac.symm (And.intro had.symm (And.intro hbc.symm
    (And.intro hbd.symm hcd.symm))))
  rcases eq_or_ne i a with rfl | ha
  · simp [*]
  rcases eq_or_ne i b with rfl | hb
  · simp [*]
  rcases eq_or_ne i c with rfl | hc
  · simp [*]
  rcases eq_or_ne i d with rfl | hd
  · simp [*]
  · simp [ha, hb, hc, hd]

/-- A round is `G` on the columns and then on the diagonals. -/
theorem round_eq (s m : Words) : round s m = Spec.diagonals (Spec.columns s m) m := by
  funext i
  fin_cases i <;> simp [round, g_eq, Spec.diagonals, Spec.columns, Spec.entry] <;> rfl

theorem start_eq (h : Cv) (t : Nat) (b d : UInt32) :
    start h t b d = ![h 0, h 1, h 2, h 3, h 4, h 5, h 6, h 7, IV 0, IV 1, IV 2, IV 3,
      UInt32.ofNat t, UInt32.ofNat (t / 2 ^ 32), b, d] := by
  funext i
  fin_cases i <;> rfl

/-- The rounds with the message reordered on the way are those with the permutation iterated. -/
theorem rounds_eq (v m : Words) {n : Nat} (hn : n ≤ 6) :
    ((List.range n).foldl (fun (s : Words × Words) r =>
      (round s.1 s.2, if r < 6 then fun i => s.2 (PERMUTATION i) else s.2)) (v, m)) =
      ((List.range n).foldl
        (fun v r =>
          let mr : Words := fun i => m (PERMUTATION^[r] i)
          Spec.diagonals (Spec.columns v mr) mr) v, fun i => m (PERMUTATION^[n] i)) := by
  induction n with
  | zero => rfl
  | succ n ih =>
    rw [List.range_succ, List.foldl_append, List.foldl_append, ih (by omega), List.foldl_cons,
      List.foldl_nil, List.foldl_cons, List.foldl_nil, if_pos (by omega), round_eq]
    simp only [← Function.iterate_succ_apply]

/-- The compression function is the paper's: the last round leaves the message alone. -/
theorem compress_eq (h : Cv) (m : Words) (t : Nat) (b d : UInt32) :
    compress h m t b d = Spec.compress h m t b d := by
  have hlast : ((List.range 7).foldl (fun (s : Words × Words) r =>
      (round s.1 s.2, if r < 6 then fun i => s.2 (PERMUTATION i) else s.2)) (start h t b d, m)).1 =
      ((List.range 7).foldl
        (fun v r =>
          let mr : Words := fun i => m (PERMUTATION^[r] i)
          Spec.diagonals (Spec.columns v mr) mr) (start h t b d)) := by
    rw [List.range_succ, List.foldl_append, List.foldl_append, rounds_eq _ _ le_rfl, List.foldl_cons,
      List.foldl_nil, List.foldl_cons, List.foldl_nil, round_eq]
  rw [compress, Spec.compress, hlast, ← start_eq]
  funext i
  generalize List.foldl _ _ _ = v
  by_cases hi : i.val < 8
  · rw [dif_pos hi, if_pos hi, mk_eq_ofNat]
    rfl
  · rw [dif_neg hi, if_neg hi, mk_eq_ofNat]

/-! ## Words -/

/-- A byte goes into the bits of its word. -/
theorem getLsbD_put (w : UInt32) (b : UInt8) {r k : Nat} (hr : r < 4) (hk : k < 32) :
    (w ||| b.toUInt32 <<< UInt32.ofNat (8 * r)).toBitVec.getLsbD k =
      (w.toBitVec.getLsbD k || (decide (8 * r ≤ k) && b.toBitVec.getLsbD (k - 8 * r))) := by
  have hshift : (UInt32.ofNat (8 * r)).toBitVec.toNat % 32 = 8 * r := by
    show (UInt32.ofNat (8 * r)).toNat % 32 = _
    rw [UInt32.toNat_ofNat_of_lt' (by show _ < 2 ^ 32; omega)]
    omega
  rw [UInt32.toBitVec_or, BitVec.getLsbD_or, UInt32.toBitVec_shiftLeft, BitVec.shiftLeft_eq',
    BitVec.toNat_umod, BitVec.getLsbD_shiftLeft, show (32 : BitVec 32).toNat = 32 from rfl, hshift,
    UInt8.toBitVec_toUInt32, BitVec.getLsbD_setWidth, decide_eq_true hk, Bool.true_and,
    decide_eq_true (show k - 8 * r < 32 by omega), Bool.true_and]
  simp only [← decide_not, Nat.not_lt]

/-- Bytes go into the words they are put in, bit by bit. -/
theorem getLsbD_fillWords (bytes : Bytes) (w : Words) {pos : Nat} (hpos : pos + bytes.length ≤ 64)
    (i : Fin 16) {k : Nat} (hk : k < 32) :
    (fillWords w pos bytes i).toBitVec.getLsbD k =
      ((w i).toBitVec.getLsbD k ||
        (decide (8 * pos ≤ 32 * i.val + k) && bitOf bytes (32 * i.val + k - 8 * pos))) := by
  induction bytes generalizing w pos with
  | nil => simp [fillWords]
  | cons b bytes ih =>
    have hi := i.isLt
    rw [List.length_cons] at hpos
    have hword : (Fin.ofNat 16 (pos / 4)).val = pos / 4 := Nat.mod_eq_of_lt (by omega)
    rw [fillWords, ih _ (by omega)]
    by_cases heq : i = Fin.ofNat 16 (pos / 4)
    · -- this byte goes into this word
      have hval : i.val = pos / 4 := by rw [heq, hword]
      rw [← heq, Function.update_self, getLsbD_put _ _ (by omega) hk, Bool.or_assoc]
      congr 1
      by_cases hlow : 8 * pos ≤ 32 * i.val + k
      · rw [decide_eq_true hlow, decide_eq_true (show 8 * (pos % 4) ≤ k by omega), Bool.true_and,
          Bool.true_and]
        by_cases hbyte : 32 * i.val + k - 8 * pos < 8
        · rw [bitOf_cons_low b bytes hbyte, decide_eq_false (by omega), Bool.false_and, Bool.or_false]
          congr 1
          omega
        · rw [bitOf_cons_high b bytes (by omega), decide_eq_true (by omega), Bool.true_and,
            BitVec.getLsbD_of_ge _ _ (by omega), Bool.false_or]
          rfl
      · rw [decide_eq_false hlow, decide_eq_false (by omega), decide_eq_false (by omega)]
        rfl
    · have hval : i.val ≠ pos / 4 := fun h => heq (Fin.ext (by rw [h, hword]))
      rw [Function.update_of_ne heq]
      congr 1
      by_cases hlow : 8 * pos ≤ 32 * i.val + k
      · rw [decide_eq_true hlow, decide_eq_true (by omega), bitOf_cons_high b bytes (by omega)]
        rfl
      · rw [decide_eq_false hlow, decide_eq_false (by omega)]
        rfl

/-- The words of a block are its bytes' little-endian values. -/
theorem words_eq {b : Bytes} (h : b.length ≤ BLOCK_LEN) : words b = Spec.blockWords b := by
  funext i
  have hb : BLOCK_LEN = 64 := rfl
  apply UInt32.toBitVec_inj.1
  apply BitVec.eq_of_getLsbD_eq
  intro k hk
  rw [words, List.take_of_length_le h, getLsbD_fillWords _ _ (by omega) i hk, Spec.blockWords]
  simp only [UInt32.toBitVec_ofNat']
  rw [BitVec.getLsbD_ofNat, testBit_leValue, bitOf_slice _ _ _ (by omega)]
  simp [hk, show 8 * (4 * i.val) = 32 * i.val by omega]

theorem keyWords_eq {k : Bytes} (h : k.length ≤ BLOCK_LEN) : keyWords k = Spec.key k := by
  rw [keyWords, words_eq h]
  rfl

/-! ## Nodes -/

/-- What an `Output` is of the tree. -/
def Output.node (o : Output) : Spec.Node :=
  { h := o.cv, m := o.block, t := o.counter, b := o.blockLen, d := o.flags }

theorem Output.chainingValue_eq (o : Output) : o.chainingValue = o.node.cv := by
  funext i
  rw [chainingValue, first8, compress_eq, mk_eq_ofNat]
  rfl

theorem node_parent (left right key : Cv) (flags : UInt32) :
    (parent left right key flags).node = Spec.parent key flags left right := by
  rw [Output.node, Spec.parent, parent]
  congr 1
  funext i
  show (if h : i.val < 8 then left ⟨i.val, h⟩ else right ⟨i.val - 8, by omega⟩) = _
  by_cases hi : i.val < 8
  · rw [dif_pos hi, if_pos hi, mk_eq_ofNat]
  · rw [dif_neg hi, if_neg hi, mk_eq_ofNat]

theorem leBytes_eq_map (w n : Nat) :
    leBytes w n = (List.range w).map fun k => UInt8.ofNat (n / 256 ^ k) := by
  induction w generalizing n with
  | zero => rfl
  | succ w ih =>
    rw [leBytes, ih, List.range_succ_eq_map, List.map_cons, List.map_map, pow_zero, Nat.div_one]
    congr 1
    refine List.map_congr_left fun k _ => ?_
    rw [Function.comp_apply, Nat.div_div_eq_div_mul, Nat.pow_succ']

/-- An output block, byte by byte. -/
theorem rootBlock_eq (o : Output) (counter : Nat) :
    o.rootBlock counter = (List.range 64).map fun p => Spec.outputByte o.node (64 * counter + p) := by
  have hbyte : ∀ p ∈ List.range 64, Spec.outputByte o.node (64 * counter + p) =
      UInt8.ofNat ((compress o.cv o.block counter o.blockLen (o.flags ||| ROOT)
        (Fin.ofNat 16 (p / 4))).toNat / 256 ^ (p % 4)) := by
    intro p hp
    have hlt := List.mem_range.1 hp
    rw [Spec.outputByte, show (64 * counter + p) / 64 = counter by omega,
      show (64 * counter + p) % 64 = p by omega, show (64 * counter + p) % 4 = p % 4 by omega, compress_eq]
    rfl
  rw [List.map_congr_left hbyte, Output.rootBlock]
  generalize compress o.cv o.block counter o.blockLen (o.flags ||| ROOT) = w
  simp only [leBytes_eq_map]
  rfl

/-- Output from somewhere in a block on. -/
theorem rootBlocks_eq (o : Output) (n counter : Nat) (skip : Fin 64) :
    o.rootBlocks n counter skip =
      (List.range n).map fun i => Spec.outputByte o.node (64 * counter + skip.val + i) := by
  fun_induction Output.rootBlocks o n counter skip with
  | case1 => rfl
  | case2 n counter skip hn take ih =>
    have hskip := skip.isLt
    have htake : take = min (64 - skip.val) n := rfl
    have hfirst : ((o.rootBlock counter).drop skip.val).take take =
        (List.range take).map fun i => Spec.outputByte o.node (64 * counter + skip.val + i) := by
      rw [rootBlock_eq, ← List.map_drop, ← List.map_take]
      apply List.ext_getElem?
      intro i
      by_cases hi : i < take
      · simp [List.getElem?_drop, hi, show skip.val + i < 64 by omega, Nat.add_assoc]
      · simp [hi]
    have hsplit : List.range n = List.range take ++ (List.range (n - take)).map (take + ·) := by
      rw [← List.range_add, show take + (n - take) = n by omega]
    rw [ih, hfirst, hsplit, List.map_append, List.map_map]
    congr 1
    refine List.map_congr_left fun i hi => ?_
    -- there is more only after the end of a block
    have hmore := List.mem_range.1 hi
    rw [Function.comp_apply]
    congr 1
    show 64 * (counter + 1) + 0 + i = _
    omega

theorem rootBytes_eq (o : Output) (seek n : Nat) :
    o.rootBytes seek n = (List.range n).map fun i => Spec.outputByte o.node (seek + i) := by
  have hsize : 2 * OUT_LEN = 64 := rfl
  have hskip : (Fin.ofNat 64 (seek % (2 * OUT_LEN))).val = seek % 64 := by
    rw [hsize]
    exact Nat.mod_eq_of_lt (Nat.mod_lt _ (by decide))
  rw [Output.rootBytes, rootBlocks_eq, hskip, hsize, Nat.div_add_mod]


end Blake3

end NanoChrono.Hash
