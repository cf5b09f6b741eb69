import Mathlib.Tactic

/-! # Canonical prefix codes

A prefix code given by nothing but the length of each symbol's code: the codes of one length follow one
another in the order of the symbols, and the codes of the next length go on where they end, with one bit
more (`code`). A code is found by the place it has among those of its length (`symbolOf_eq`), no code begins
another (`none_of_longer`), and there is room for the codes of all lengths where the Kraft sum leaves it
(`fits_of_kraft`). -/

namespace NanoChrono.Deflate.Canonical

/-! ## Symbols by the length of their codes -/

/-- The symbols whose codes have `len` bits. -/
def ofLength (lengths : List Nat) (len : Nat) : List Nat :=
  (lengths.zipIdx.filter fun l => l.1 == len).map (·.2)

theorem ofLength_concat (lengths : List Nat) (l len : Nat) :
    ofLength (lengths ++ [l]) len = ofLength lengths len ++ if l = len then [lengths.length] else [] := by
  rw [ofLength, List.zipIdx_append, List.filter_append, List.map_append, ofLength]
  congr 1
  by_cases h : l = len
  · simp [h]
  · simp [h]

theorem length_ofLength (lengths : List Nat) (len : Nat) :
    (ofLength lengths len).length = lengths.count len := by
  induction lengths using List.reverseRecOn with
  | nil => rfl
  | append_singleton lengths l ih =>
    rw [ofLength_concat, List.length_append, ih, List.count_append, List.count_singleton]
    congr 1
    by_cases h : l = len
    · rw [if_pos h, if_pos (beq_iff_eq.2 h), List.length_singleton]
    · rw [if_neg h, if_neg (mt beq_iff_eq.1 h), List.length_nil]

/-- Symbols that are added at the end come after the others. -/
theorem ofLength_prefix (lengths more : List Nat) (len : Nat) :
    ofLength lengths len <+: ofLength (lengths ++ more) len := by
  induction more using List.reverseRecOn with
  | nil => rw [List.append_nil]
  | append_singleton more l ih =>
    rw [← List.append_assoc, ofLength_concat]
    exact ih.trans (List.prefix_append _ _)

theorem nodup_ofLength (lengths : List Nat) (len : Nat) : (ofLength lengths len).Nodup := by
  have hsub : (ofLength lengths len).Sublist (lengths.zipIdx.map (·.2)) := List.filter_sublist.map _
  refine hsub.nodup ?_
  rw [List.zipIdx_map_snd]
  exact List.nodup_range'

theorem mem_ofLength {lengths : List Nat} {len sym : Nat} :
    sym ∈ ofLength lengths len ↔ lengths[sym]? = some len := by
  rw [ofLength, List.mem_map]
  constructor
  · rintro ⟨⟨l, i⟩, hmem, rfl⟩
    obtain ⟨hmem, hl⟩ := List.mem_filter.1 hmem
    rw [List.mem_zipIdx_iff_getElem?] at hmem
    rw [← beq_iff_eq.1 hl]
    exact hmem
  · intro h
    exact ⟨(len, sym), List.mem_filter.2 ⟨List.mem_zipIdx_iff_getElem?.2 h, beq_self_eq_true len⟩, rfl⟩

/-- A symbol's place among those of its length. -/
theorem getElem?_ofLength {lengths : List Nat} {len j sym : Nat} :
    (ofLength lengths len)[j]? = some sym ↔
      lengths[sym]? = some len ∧ (lengths.take sym).count len = j := by
  have place : lengths[sym]? = some len →
      (ofLength lengths len)[(lengths.take sym).count len]? = some sym := by
    intro h
    obtain ⟨hlt, hget⟩ := List.getElem?_eq_some_iff.1 h
    obtain ⟨more, hmore⟩ := ofLength_prefix (lengths.take (sym + 1)) (lengths.drop (sym + 1)) len
    rw [List.take_append_drop, List.take_succ_eq_append_getElem hlt, hget, ofLength_concat, if_pos rfl,
      List.length_take, Nat.min_eq_left hlt.le] at hmore
    rw [← hmore, List.append_assoc, ← length_ofLength, List.getElem?_append_right le_rfl, Nat.sub_self]
    rfl
  constructor
  · intro h
    have hlen := mem_ofLength.1 (List.mem_of_getElem? h)
    have hj := (List.getElem?_eq_some_iff.1 h).1
    exact ⟨hlen, ((List.getElem?_inj hj (nodup_ofLength lengths len)).1 (h.trans (place hlen).symm)).symm⟩
  · rintro ⟨h, rfl⟩
    exact place h

/-! ## Codes -/

section Codes

variable (lengths : List Nat)

/-- How many codes of `len` bits there are. -/
def count (len : Nat) : Nat := if len = 0 then 0 else lengths.count len

/-- The first code of each length. -/
@[grind =] def first : Nat → Nat
  | 0 => 0
  | len + 1 => 2 * (first len + count lengths len)

/-- How many codes are shorter than `len` bits. -/
@[grind =] def start : Nat → Nat
  | 0 => 0
  | len + 1 => start len + count lengths len

/-- A symbol's code, as a number of as many bits as its length. -/
def code (sym : Nat) : Nat :=
  first lengths (lengths.getD sym 0) + (lengths.take sym).count (lengths.getD sym 0)

/-- The symbol that has the code `c` of `len` bits. -/
def symbolOf (len c : Nat) : Option Nat :=
  (List.range lengths.length).find? fun sym => lengths.getD sym 0 == len && code lengths sym == c

@[simp] theorem count_zero : count lengths 0 = 0 := rfl

theorem count_pos {len : Nat} (h : 0 < len) : count lengths len = lengths.count len :=
  if_neg (Nat.ne_of_gt h)

theorem length_ofLength_pos {len : Nat} (h : 0 < len) :
    (ofLength lengths len).length = count lengths len := by
  rw [length_ofLength, count_pos lengths h]

/-- The symbol of a code is found by its place among those of its length. -/
theorem symbolOf_eq (len c : Nat) :
    symbolOf lengths len c =
      if first lengths len ≤ c then (ofLength lengths len)[c - first lengths len]? else none := by
  have hcode : ∀ sym, (sym < lengths.length ∧ lengths.getD sym 0 = len ∧ code lengths sym = c) ↔
      first lengths len ≤ c ∧ (ofLength lengths len)[c - first lengths len]? = some sym := by
    intro sym
    rw [getElem?_ofLength, List.getD_eq_getElem?_getD]
    constructor
    · rintro ⟨hlt, hl, hc⟩
      rw [code, List.getD_eq_getElem?_getD, hl] at hc
      rw [List.getElem?_eq_getElem hlt, Option.getD_some] at hl
      exact ⟨by omega, by rw [List.getElem?_eq_getElem hlt, hl], by omega⟩
    · rintro ⟨hle, hget, hplace⟩
      have hl : lengths[sym]?.getD 0 = len := by rw [hget, Option.getD_some]
      refine ⟨(List.getElem?_eq_some_iff.1 hget).1, hl, ?_⟩
      rw [code, List.getD_eq_getElem?_getD, hl]
      omega
  have hfind : ∀ sym, symbolOf lengths len c = some sym →
      first lengths len ≤ c ∧ (ofLength lengths len)[c - first lengths len]? = some sym := by
    intro sym h
    have hp := List.find?_some h
    rw [Bool.and_eq_true, beq_iff_eq, beq_iff_eq] at hp
    exact (hcode sym).1 ⟨List.mem_range.1 (List.mem_of_find?_eq_some h), hp⟩
  cases h : symbolOf lengths len c with
  | some sym =>
    obtain ⟨hle, hget⟩ := hfind sym h
    rw [if_pos hle, hget]
  | none =>
    split
    next hle =>
      cases hget : (ofLength lengths len)[c - first lengths len]? with
      | none => rfl
      | some sym =>
        obtain ⟨hlt, hl, hc⟩ := (hcode sym).2 ⟨hle, hget⟩
        have hnone := List.find?_eq_none.1 h sym (List.mem_range.2 hlt)
        rw [Bool.and_eq_true, beq_iff_eq, beq_iff_eq] at hnone
        exact absurd ⟨hl, hc⟩ hnone
    next => rfl

theorem symbolOf_eq_none {len c : Nat} (hlen : 0 < len)
    (hc : first lengths len + count lengths len ≤ c) : symbolOf lengths len c = none := by
  rw [symbolOf_eq, if_pos (by omega),
    List.getElem?_eq_none (by rw [length_ofLength_pos lengths hlen]; omega)]

/-- Longer codes begin where the shorter ones end. -/
theorem first_le {l len : Nat} (h : l < len) :
    (first lengths l + count lengths l) * 2 ^ (len - l) ≤ first lengths len := by
  induction len with
  | zero => omega
  | succ len ih =>
    rw [first]
    rcases Nat.lt_succ_iff_lt_or_eq.1 h with hlt | rfl
    · have hle := ih hlt
      rw [Nat.succ_sub hlt.le, Nat.pow_succ, ← Nat.mul_assoc]
      omega
    · rw [Nat.succ_sub le_rfl, Nat.sub_self]
      omega

/-- No code begins a longer one. -/
theorem none_of_longer {l len c : Nat} (hl : 0 < l) (h : l < len) (hc : first lengths len ≤ c) :
    symbolOf lengths l (c / 2 ^ (len - l)) = none := by
  refine symbolOf_eq_none lengths hl ?_
  rw [Nat.le_div_iff_mul_le (Nat.two_pow_pos _)]
  exact (first_le lengths h).trans hc

theorem start_mono {l len : Nat} (h : l ≤ len) : start lengths l ≤ start lengths len := by
  induction h with
  | refl => exact le_rfl
  | step _ ih => exact ih.trans (Nat.le_add_right _ _)

theorem start_cons (l : Nat) (lengths : List Nat) (len : Nat) :
    start (l :: lengths) len = start lengths len + if 0 < l ∧ l < len then 1 else 0 := by
  induction len with
  | zero => rw [if_neg (by omega)]; rfl
  | succ len ih =>
    rw [start, start, ih, count, count, List.count_cons]
    simp only [beq_iff_eq]
    split_ifs <;> omega

/-- There are no more codes than symbols. -/
theorem start_le (lengths : List Nat) (len : Nat) : start lengths len ≤ lengths.length := by
  induction lengths with
  | nil =>
    induction len with
    | zero => exact le_rfl
    | succ len ih =>
      rw [start, count]
      split <;> exact ih
  | cons l lengths ih =>
    rw [start_cons, List.length_cons]
    split <;> omega

/-! ## The Kraft sum -/

/-- The Kraft sum of the codes of at most `max` bits, in units of the longest. -/
def kraft (max : Nat) : Nat :=
  (lengths.map fun l => if 0 < l ∧ l ≤ max then 2 ^ (max - l) else 0).sum

theorem kraft_cons (l max : Nat) (lengths : List Nat) :
    kraft (l :: lengths) max = (if 0 < l ∧ l ≤ max then 2 ^ (max - l) else 0) + kraft lengths max := rfl

theorem kraft_succ (max : Nat) : kraft lengths (max + 1) = 2 * kraft lengths max + count lengths (max + 1) := by
  rw [count_pos lengths (by omega : 0 < max + 1)]
  induction lengths with
  | nil => rfl
  | cons l lengths ih =>
    have hcost : (if 0 < l ∧ l ≤ max + 1 then 2 ^ (max + 1 - l) else 0) =
        2 * (if 0 < l ∧ l ≤ max then 2 ^ (max - l) else 0) + if l == max + 1 then 1 else 0 := by
      rcases Nat.lt_trichotomy l (max + 1) with hl | rfl | hl
      · rw [@if_neg ((l == max + 1) = true) _ (by rw [beq_iff_eq]; omega)]
        by_cases hpos : 0 < l
        · rw [if_pos ⟨hpos, hl.le⟩, if_pos ⟨hpos, by omega⟩, Nat.succ_sub (by omega), Nat.pow_succ]
          omega
        · rw [if_neg (fun h => hpos h.1), if_neg (fun h => hpos h.1)]
      · rw [if_pos ⟨Nat.succ_pos _, le_rfl⟩, if_neg (by omega), if_pos (beq_self_eq_true _), Nat.sub_self]
        rfl
      · rw [if_neg (by omega), if_neg (by omega), if_neg (by rw [beq_iff_eq]; omega)]
    rw [kraft_cons, kraft_cons, ih, List.count_cons, hcost]
    omega

/-- The codes of at most `len` bits take what the Kraft sum says. -/
theorem first_add_count (len : Nat) : first lengths len + count lengths len = kraft lengths len := by
  induction len with
  | zero =>
    rw [first, count_zero, kraft]
    symm
    refine List.sum_eq_zero fun x hx => ?_
    obtain ⟨l, -, rfl⟩ := List.mem_map.1 hx
    exact if_neg (by omega)
  | succ len ih => rw [first, ih, kraft_succ]

theorem kraft_mul_le {len max : Nat} (h : len ≤ max) :
    kraft lengths len * 2 ^ (max - len) ≤ kraft lengths max := by
  rcases Nat.eq_or_lt_of_le h with rfl | hlt
  · rw [Nat.sub_self, Nat.pow_zero, Nat.mul_one]
  · rw [← first_add_count, ← first_add_count lengths max]
    exact (first_le lengths hlt).trans (Nat.le_add_right _ _)

/-- Codes that fit together fit at each length. -/
theorem fits_of_kraft {len max : Nat} (h : len ≤ max) (hfit : kraft lengths max ≤ 2 ^ max) :
    kraft lengths len ≤ 2 ^ len := by
  have hle := (kraft_mul_le lengths h).trans hfit
  have hmax : 2 ^ max = 2 ^ len * 2 ^ (max - len) := by rw [← Nat.pow_add, Nat.add_sub_cancel' h]
  rw [hmax] at hle
  exact Nat.le_of_mul_le_mul_right hle (Nat.two_pow_pos _)

end Codes

end NanoChrono.Deflate.Canonical
