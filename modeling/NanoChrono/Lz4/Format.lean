import NanoChrono.Lz4.Block

/-! # The LZ4 block format

A block is the bytes of its sequences and of the literals it ends with (`blockBytes`), and stands for their
expansion. The compressor's writer writes exactly these bytes or, if they do not fit, nothing more
(`sequence_match`, `sequence_last`); the decoder takes them one sequence after the other (`step_sequence`)
and writes the expansion (`decode_blockBytes`). -/

namespace NanoChrono.Lz4

open Buffer Lz

/-! ## Bytes -/

/-- A length past a nibble's 15: 255s, then the remainder. -/
def lengthBytes (n : Nat) : List UInt8 := List.replicate (n / 255) 255 ++ [UInt8.ofNat (n % 255)]

/-- What a nibble does not hold of a length. -/
def extra (n : Nat) : List UInt8 := if 15 ≤ n then lengthBytes (n - 15) else []

/-- A sequence: token, literals, distance, match. -/
def sequenceBytes (s : Sequence UInt8) : List UInt8 :=
  UInt8.ofNat (16 * min s.literals.length 15 + min (s.length - minMatch) 15) ::
    (extra s.literals.length ++ (s.literals ++ (leBytes 2 s.distance ++ extra (s.length - minMatch))))

/-- The literals a block ends with. -/
def lastBytes (literals : List UInt8) : List UInt8 :=
  UInt8.ofNat (16 * min literals.length 15) :: (extra literals.length ++ literals)

/-- A block. -/
def blockBytes (seqs : List (Sequence UInt8)) (last : List UInt8) : List UInt8 :=
  seqs.flatMap sequenceBytes ++ lastBytes last

@[simp] theorem length_lengthBytes (n : Nat) : (lengthBytes n).length = n / 255 + 1 := by
  rw [lengthBytes, List.length_append, List.length_replicate, List.length_singleton]

theorem lengthBytes_of_le {n : Nat} (h : 255 ≤ n) : lengthBytes n = 255 :: lengthBytes (n - 255) := by
  obtain ⟨m, rfl⟩ := Nat.exists_eq_add_of_le' h
  rw [lengthBytes, Nat.add_div_right m (by decide), Nat.add_mod_right, List.replicate_succ,
    Nat.add_sub_cancel]
  rfl

theorem lengthBytes_of_lt {n : Nat} (h : n < 255) : lengthBytes n = [UInt8.ofNat n] := by
  rw [lengthBytes, Nat.div_eq_of_lt h, Nat.mod_eq_of_lt h]
  rfl

theorem length_extra (n : Nat) : (extra n).length = if 15 ≤ n then (n - 15) / 255 + 1 else 0 := by
  rw [extra]
  split <;> simp

/-! ## Writing -/

namespace Writer

theorem byte_eq (w : Writer) (b : UInt8) : w.byte b = w.bytes [b] := by
  rw [byte, bytes]
  by_cases h : w.pos < w.out.length
  · rw [if_pos h, if_pos (by rw [List.length_singleton]; omega), splice,
      List.set_eq_take_append_cons_drop, if_pos h]
    rfl
  · rw [if_neg h, if_neg (by rw [List.length_singleton]; omega)]

@[simp] theorem bytes_nil {w : Writer} (h : w.pos ≤ w.out.length) : w.bytes [] = some w := by
  rw [bytes, if_pos (by simpa using h), splice]
  simp

/-- Bytes one after the other are bytes together. -/
theorem bytes_append (w : Writer) (a b : List UInt8) :
    (w.bytes a).bind (·.bytes b) = w.bytes (a ++ b) := by
  rw [bytes, bytes, List.length_append]
  split
  next ha =>
    rw [Option.bind_some, bytes]
    dsimp only
    rw [length_splice ha, ← Nat.add_assoc]
    split
    next hb => rw [splice_splice hb]
    next => rfl
  next ha =>
    rw [if_neg (by omega)]
    rfl

theorem length_eq (w : Writer) (n : Nat) : w.length n = w.bytes (lengthBytes n) := by
  fun_induction length w n with
  | case1 w n h ih =>
    rw [lengthBytes_of_le h, byte_eq, funext ih]
    exact bytes_append w [255] (lengthBytes (n - 255))
  | case2 w n h => rw [lengthBytes_of_lt (Nat.lt_of_not_le h), byte_eq]

/-- What is written stays written. -/
theorem pos_le_of_bytes {w w' : Writer} {b : List UInt8} (h : w.bytes b = some w') :
    w'.pos = w.pos + b.length ∧ w'.out.length = w.out.length ∧ w'.pos ≤ w'.out.length ∧
      w'.out.take w'.pos = w.out.take w.pos ++ b := by
  rw [bytes] at h
  split at h
  next hfit =>
    cases h
    exact ⟨rfl, length_splice hfit, by rwa [length_splice hfit], take_splice hfit⟩
  next => cases h

/-- Bytes and then more of them. -/
theorem bind_bytes {w : Writer} {a b : List UInt8} {f : Writer → Option Writer}
    (h : ∀ w' : Writer, w'.pos ≤ w'.out.length → f w' = w'.bytes b) :
    (w.bytes a).bind f = w.bytes (a ++ b) := by
  rw [← bytes_append]
  cases hw : w.bytes a with
  | none => rfl
  | some w' => exact h w' (pos_le_of_bytes hw).2.2.1

theorem extra_eq {w : Writer} (hw : w.pos ≤ w.out.length) (n : Nat) :
    (if 15 ≤ n then w.length (n - 15) else some w) = w.bytes (extra n) := by
  rw [extra]
  split
  · exact length_eq w (n - 15)
  · exact (bytes_nil hw).symm

/-- A sequence with a match is written as its bytes. -/
theorem sequence_match (w : Writer) (literals : List UInt8) (distance length : Nat) :
    w.sequence literals distance (some length) = w.bytes (sequenceBytes ⟨literals, distance, length⟩) := by
  rw [sequence, byte_eq]
  refine bind_bytes fun w hw => ?_
  rw [extra_eq hw]
  refine bind_bytes fun w _ => bind_bytes fun w _ => ?_
  exact bind_bytes fun w hw => extra_eq hw _

/-- The last sequence is written as its literals. -/
theorem sequence_last (w : Writer) (literals : List UInt8) (distance : Nat) :
    w.sequence literals distance none = w.bytes (lastBytes literals) := by
  rw [sequence, byte_eq]
  refine bind_bytes fun w hw => ?_
  rw [extra_eq hw]
  exact bind_bytes fun w _ => Option.bind_fun_some _

end Writer

/-! ## Reading -/

theorem readLength_lengthBytes {v n : Nat} (rest : List UInt8) (h : v + n < usizeBound) :
    readLength v (lengthBytes n ++ rest) = .ok (v + n, rest) := by
  induction n using Nat.strong_induction_on generalizing v with
  | _ n ih =>
    by_cases hn : 255 ≤ n
    · have h255 : (255 : UInt8).toNat = 255 := rfl
      have hsum : v + 255 + (n - 255) = v + n := by omega
      rw [lengthBytes_of_le hn, List.cons_append, readLength, h255, if_neg (by omega), if_pos rfl,
        ih (n - 255) (by omega) (by omega), hsum]
    · have hb : (UInt8.ofNat n).toNat = n := UInt8.toNat_ofNat_of_lt' (show n < 256 by omega)
      have hne : UInt8.ofNat n ≠ 255 := fun h255 => by
        have hn255 : n = 255 := hb.symm.trans (congrArg UInt8.toNat h255)
        omega
      rw [lengthBytes_of_lt (Nat.lt_of_not_le hn), List.singleton_append, readLength, hb,
        if_neg (by omega), if_neg hne]

theorem extended_extra {n : Nat} (rest : List UInt8) (h : n < usizeBound) :
    extended (min n 15) (extra n ++ rest) = .ok (n, rest) := by
  rw [extended, extra]
  by_cases hn : 15 ≤ n
  · rw [Nat.min_eq_right hn, if_pos rfl, if_pos hn, readLength_lengthBytes rest (by omega), Except.map]
    dsimp only
    rw [Nat.zero_add, Nat.add_sub_cancel' hn, Nat.mod_eq_of_lt h]
  · rw [Nat.min_eq_left (by omega), if_neg (by omega), if_neg hn, List.nil_append]

theorem token_div {a b : Nat} (ha : a ≤ 15) (hb : b ≤ 15) : (UInt8.ofNat (16 * a + b)).toNat / 16 = a := by
  rw [UInt8.toNat_ofNat_of_lt' (show 16 * a + b < 256 by omega)]
  omega

theorem token_mod {a b : Nat} (ha : a ≤ 15) (hb : b ≤ 15) : (UInt8.ofNat (16 * a + b)).toNat % 16 = b := by
  rw [UInt8.toNat_ofNat_of_lt' (show 16 * a + b < 256 by omega)]
  omega

/-- The rules of the format for a sequence that begins at `pos` of `n` bytes. -/
structure Obeys (n pos : Nat) (s : Sequence UInt8) : Prop where
  long : minMatch ≤ s.length
  back : 0 < s.distance
  near : s.distance ≤ maxDistance
  inside : s.distance ≤ pos + s.literals.length
  start : pos + s.literals.length + mfLimit ≤ n
  stop : pos + s.literals.length + s.length + lastLiterals ≤ n

/-- The rules for sequences one after the other. -/
def Obey (n : Nat) : Nat → List (Sequence UInt8) → Prop
  | _, [] => True
  | pos, s :: seqs => Obeys n pos s ∧ Obey n (pos + s.literals.length + s.length) seqs

/-- The decoder takes a sequence and writes its expansion. -/
theorem step_sequence {s : Sequence UInt8} {op : Nat} {out : List UInt8} (rest : List UInt8)
    (h : Obeys out.length op s) (hout : out.length < usizeBound) :
    ∃ out', step (sequenceBytes s ++ rest) op out =
        .ok (.more rest (op + s.literals.length + s.length) out') ∧
      out'.length = out.length ∧
      out'.take (op + s.literals.length + s.length) = s.expand (out.take op) := by
  obtain ⟨hlong, hback, hnear, hinside, -, hstop⟩ := h
  rw [minMatch] at hlong
  rw [maxDistance] at hnear
  rw [lastLiterals] at hstop
  have hlit : op + s.literals.length ≤ out.length := by omega
  -- The literals are in place.
  set lits := splice out op s.literals with hlits
  have hlen : lits.length = out.length := length_splice hlit
  have htake : lits.take (op + s.literals.length) = out.take op ++ s.literals := take_splice hlit
  have hdist : leValue (leBytes 2 s.distance) = s.distance := leValue_leBytes_of_lt (by omega)
  obtain ⟨lo, hi, hbytes⟩ := List.length_eq_two.1 (length_leBytes 2 s.distance)
  rw [hbytes] at hdist
  have hml : s.length - minMatch + minMatch = s.length := Nat.sub_add_cancel hlong
  have hstep : step (sequenceBytes s ++ rest) op out =
      matched (min (s.length - minMatch) 15) (lo :: hi :: (extra (s.length - minMatch) ++ rest))
        (op + s.literals.length) lits := by
    rw [sequenceBytes, hbytes, List.cons_append, step,
      token_div (Nat.min_le_right _ _) (Nat.min_le_right _ _),
      token_mod (Nat.min_le_right _ _) (Nat.min_le_right _ _)]
    simp only [List.append_assoc]
    rw [extended_extra _ (by omega)]
    dsimp only [bind, Except.bind]
    rw [if_neg (by rw [List.length_append]; omega), if_neg (by omega), List.take_left, List.drop_left,
      if_neg (by simp)]
    rfl
  have hmatched : matched (min (s.length - minMatch) 15) (lo :: hi :: (extra (s.length - minMatch) ++ rest))
      (op + s.literals.length) lits = .ok (.more rest (op + s.literals.length + s.length)
        (copyMatch s.distance (op + s.literals.length) s.length lits)) := by
    rw [matched, hdist]
    dsimp only
    rw [if_neg (by omega), extended_extra _ (by omega)]
    dsimp only [bind, Except.bind]
    rw [hml, Nat.mod_eq_of_lt (by omega), if_neg (by omega)]
  obtain ⟨hlen', htake'⟩ := @take_copyMatch _ _ s.length lits hback hinside (by omega)
  refine ⟨_, hstep.trans hmatched, hlen'.trans hlen, ?_⟩
  rw [htake', htake, Sequence.expand]

/-- The decoder ends with the literals. -/
theorem step_last {last : List UInt8} {op : Nat} {out : List UInt8} (h : op + last.length ≤ out.length)
    (hout : out.length < usizeBound) : step (lastBytes last) op out =
      .ok (.done (op + last.length) (splice out op last)) := by
  have htoken : (UInt8.ofNat (16 * min last.length 15)).toNat / 16 = min last.length 15 :=
    @token_div _ 0 (Nat.min_le_right _ _) (Nat.zero_le _)
  rw [lastBytes, step, htoken, extended_extra _ (by omega)]
  dsimp only [bind, Except.bind]
  rw [if_neg (Nat.lt_irrefl _), if_neg (by omega), List.take_length, List.drop_length, if_pos rfl]

/-- The decoder writes what the sequences stand for. -/
theorem decode_blockBytes {seqs : List (Sequence UInt8)} {last : List UInt8} {op : Nat} {out : List UInt8}
    (h : Obey out.length op seqs) (hop : op ≤ out.length) (hout : out.length < usizeBound)
    (hfit : (expand (out.take op) seqs ++ last).length ≤ out.length) :
    ∃ out', decode (blockBytes seqs last) op out =
        .ok ((expand (out.take op) seqs ++ last).length, out') ∧ out'.length = out.length ∧
      out'.take (expand (out.take op) seqs ++ last).length = expand (out.take op) seqs ++ last := by
  induction seqs generalizing op out with
  | nil =>
    rw [expand_nil, List.length_append, List.length_take_of_le hop] at hfit ⊢
    refine ⟨splice out op last, ?_, length_splice hfit, take_splice hfit⟩
    rw [blockBytes, List.flatMap_nil, List.nil_append, decode, step_last hfit hout]
  | cons s seqs ih =>
    obtain ⟨out₁, hstep, hlen, htake⟩ := step_sequence (seqs.flatMap sequenceBytes ++ lastBytes last) h.1 hout
    have hstop := h.1.stop
    rw [expand_cons, ← htake] at hfit ⊢
    obtain ⟨out₂, hdecode, hlen₂, htake₂⟩ := ih (hlen.symm ▸ h.2) (by omega) (by omega) (by omega)
    refine ⟨out₂, ?_, hlen₂.trans hlen, htake₂⟩
    rw [blockBytes, List.flatMap_cons, List.append_assoc, decode, hstep]
    exact hdecode

end NanoChrono.Lz4
