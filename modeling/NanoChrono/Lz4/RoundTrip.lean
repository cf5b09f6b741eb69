import NanoChrono.Lz4.Format

/-! # The LZ4 round trip

Wherever the compressor stands, what it has written is the bytes of sequences that obey the format and
expand to the input before its anchor (`Written`): a match it finds repeats what is before it, whatever
the table held. So a block that fits decodes to the input, and one that does not fit has less room than
`bound` (`scan_written`, `scan_room`). -/

namespace NanoChrono.Lz4

open Buffer Lz

/-! ## Sequences in a row -/

theorem length_expand_sequence {n : Nat} {text : List UInt8} {s : Sequence UInt8}
    (h : Obeys n text.length s) :
    (s.expand text).length = text.length + s.literals.length + s.length := by
  have hinside := h.inside
  rw [Sequence.expand, length_copy h.back (by rw [List.length_append]; omega), List.length_append]

/-- One more sequence. -/
theorem obey_snoc {n : Nat} {text : List UInt8} {seqs : List (Sequence UInt8)} {s : Sequence UInt8}
    (h : Obey n text.length seqs) (hs : Obeys n (expand text seqs).length s) :
    Obey n text.length (seqs ++ [s]) := by
  induction seqs generalizing text with
  | nil => exact ⟨hs, trivial⟩
  | cons s' seqs ih =>
    have hrest := h.2
    rw [← length_expand_sequence h.1] at hrest
    have hmore := ih hrest hs
    rw [length_expand_sequence h.1] at hmore
    exact ⟨h.1, hmore⟩

/-! ## Matches -/

/-- Going back keeps the distance, and what is passed repeats at it. -/
theorem back_spec (input : List UInt8) (anchor : Nat) {s c : Nat} (hs : s ≤ input.length)
    (hc : c ≤ input.length) (hcs : c ≤ s) (ha : anchor ≤ s) :
    ∃ k, back input anchor s c hs hc = (s - k, c - k) ∧ k ≤ c ∧ anchor ≤ s - k ∧
      ∀ i, s - k ≤ i → i < s → input[i]? = input[i - (s - c)]? := by
  induction s generalizing c with
  | zero =>
    have hback : back input anchor 0 c hs hc = (0, c) := by cases c <;> rfl
    exact ⟨0, hback, Nat.zero_le c, ha, fun i _ hlt => absurd hlt (Nat.not_lt_zero i)⟩
  | succ s ih =>
    have hstay : ∃ k, (s + 1, c) = (s + 1 - k, c - k) ∧ k ≤ c ∧ anchor ≤ s + 1 - k ∧
        ∀ i, s + 1 - k ≤ i → i < s + 1 → input[i]? = input[i - (s + 1 - c)]? :=
      ⟨0, rfl, Nat.zero_le c, ha, fun i hi hlt => absurd hlt (Nat.not_lt.2 hi)⟩
    cases c with
    | zero => exact hstay
    | succ c =>
      rw [back]
      split
      next h =>
        obtain ⟨k, hback, hkc, hak, hrep⟩ := ih (c := c) (by omega) (by omega) (by omega) (by omega)
        refine ⟨k + 1, ?_, Nat.succ_le_succ hkc, by omega, fun i hi hlt => ?_⟩
        · rw [hback, Nat.add_sub_add_right, Nat.add_sub_add_right]
        · rcases Nat.lt_succ_iff_lt_or_eq.1 hlt with hlt | rfl
          · rw [Nat.add_sub_add_right]
            exact hrep i (by omega) hlt
          · rw [show i - (i + 1 - (c + 1)) = c by omega, List.getElem?_eq_getElem (by omega),
              List.getElem?_eq_getElem (by omega), h.2]
      next => exact hstay

/-- Going forward, what is passed repeats. -/
theorem forward_spec (input : List UInt8) {limit e ce : Nat} (hlimit : limit ≤ input.length) (hce : ce < e)
    {i : Nat} (hi : e ≤ i) (hlt : i < forward input limit e ce hlimit hce) :
    input[i]? = input[i - (e - ce)]? := by
  fun_induction forward input limit e ce hlimit hce with
  | case1 e ce hce h heq ih =>
    rcases Nat.eq_or_lt_of_le hi with rfl | hi
    · rw [show e - (e - ce) = ce by omega, List.getElem?_eq_getElem (by omega),
        List.getElem?_eq_getElem (by omega), heq]
    · rw [show e - ce = e + 1 - (ce + 1) by omega]
      exact ih hi hlt
  | case2 => omega
  | case3 => omega

/-- Four bytes that read alike are alike. -/
theorem read32_inj {input : List UInt8} {i j : Nat} (hi : i + 4 ≤ input.length) (hj : j + 4 ≤ input.length)
    (h : read32 input i hi = read32 input j hj) {k : Nat} (hk : k < 4) :
    input[i + k]? = input[j + k]? := by
  have hslice : slice input i 4 = slice input j 4 := by
    have hlen : ∀ p, p + 4 ≤ input.length → (slice input p 4).length = 4 := fun p hp => by
      rw [length_slice]
      omega
    rw [← leBytes_leValue (hlen i hi), ← leBytes_leValue (hlen j hj)]
    exact congrArg _ h
  have hget := congrArg (·[k]?) hslice
  simpa only [getElem?_slice, if_pos hk] using hget

theorem found_spec {input : List UInt8} {ip cand : Nat} {h : ip + 4 ≤ input.length}
    (hf : found input ip cand h = true) : cand < ip ∧ ip - cand ≤ maxDistance ∧
      ∀ i, ip ≤ i → i < ip + 4 → input[i]? = input[i - (ip - cand)]? := by
  have hlt := found_lt hf
  rw [found, dif_pos hlt, Bool.and_eq_true, decide_eq_true_eq, beq_iff_eq] at hf
  refine ⟨hlt, hf.1, fun i hi hlt' => ?_⟩
  obtain ⟨k, rfl⟩ := Nat.exists_eq_add_of_le hi
  rw [show ip + k - (ip - cand) = cand + k by omega]
  exact (read32_inj _ _ hf.2 (by omega)).symm

/-- The sequence of a match from `start` to `stop` that repeats at a distance. -/
theorem obeys_match {input : List UInt8} {anchor start stop d : Nat} (ha : anchor ≤ start)
    (hlong : start + minMatch ≤ stop) (hd : 0 < d) (hnear : d ≤ maxDistance) (hinside : d ≤ start)
    (hstart : start + mfLimit ≤ input.length) (hstop : stop + lastLiterals ≤ input.length) :
    Obeys input.length anchor ⟨slice input anchor (start - anchor), d, stop - start⟩ := by
  have hlen : (slice input anchor (start - anchor)).length = start - anchor := by
    rw [length_slice]
    omega
  constructor <;> dsimp only <;> rw [minMatch] at * <;> first | rw [hlen] | skip
  all_goals omega

/-- Such a match continues the input. -/
theorem expand_match {input : List UInt8} {anchor start stop d : Nat} (ha : anchor ≤ start)
    (hlong : start ≤ stop) (hd : 0 < d) (hinside : d ≤ start) (hstop : stop ≤ input.length)
    (hrep : ∀ i, start ≤ i → i < stop → input[i]? = input[i - d]?) :
    Sequence.expand (input.take anchor) ⟨slice input anchor (start - anchor), d, stop - start⟩ =
      input.take stop := by
  have hlits : input.take anchor ++ slice input anchor (start - anchor) = input.take start := by
    rw [slice, ← List.take_add, Nat.add_sub_cancel' ha]
  have hcopy := copy_take (k := stop - start) hd hinside (by omega) fun j hj =>
    hrep (start + j) (Nat.le_add_right start j) (by omega)
  rw [Sequence.expand, hlits, hcopy, Nat.add_sub_cancel' hlong]

/-- A sequence takes no more bytes than it stands for, but for one in 255. -/
theorem length_sequenceBytes_le {n pos : Nat} {s : Sequence UInt8} (h : Obeys n pos s) :
    (sequenceBytes s).length ≤
      s.literals.length + s.length + (s.literals.length + s.length) / 255 := by
  have hlong := h.long
  rw [minMatch] at hlong
  simp only [sequenceBytes, List.length_cons, List.length_append, length_extra, length_leBytes, minMatch]
  split <;> split <;> omega

theorem length_lastBytes_le (last : List UInt8) :
    (lastBytes last).length ≤ last.length + last.length / 255 + 16 := by
  simp only [lastBytes, List.length_cons, List.length_append, length_extra]
  split <;> omega

/-! ## The loop -/

/-- What the compressor has written when the literals from `anchor` on are still to be written. -/
structure Written (input out : List UInt8) (w : Writer) (anchor : Nat) (seqs : List (Sequence UInt8)) :
    Prop where
  bytes : (Writer.mk out 0).bytes (seqs.flatMap sequenceBytes) = some w
  text : expand [] seqs = input.take anchor
  anchor_le : anchor ≤ input.length
  obey : Obey input.length 0 seqs
  size : (seqs.flatMap sequenceBytes).length ≤ anchor + anchor / 255

theorem written_start (input out : List UInt8) : Written input out ⟨out, 0⟩ 0 [] where
  bytes := Writer.bytes_nil (Nat.zero_le _)
  text := rfl
  anchor_le := Nat.zero_le _
  obey := trivial
  size := Nat.zero_le _

section Written

variable {input out : List UInt8} {w w' : Writer} {anchor stop : Nat} {seqs : List (Sequence UInt8)}
  {s : Sequence UInt8}

theorem Written.anchored (h : Written input out w anchor seqs) : (expand [] seqs).length = anchor := by
  rw [h.text, List.length_take_of_le h.anchor_le]

/-- One more match is written. -/
theorem Written.next (h : Written input out w anchor seqs) (hs : Obeys input.length anchor s)
    (htext : s.expand (input.take anchor) = input.take stop)
    (hstop : stop = anchor + s.literals.length + s.length)
    (hw : w.bytes (sequenceBytes s) = some w') : Written input out w' stop (seqs ++ [s]) where
  bytes := by
    rw [List.flatMap_append, ← Writer.bytes_append, h.bytes, List.flatMap_singleton]
    exact hw
  text := by rw [expand_append, h.text, expand_cons, htext, expand_nil]
  anchor_le := by
    have := hs.stop
    omega
  obey := by
    have hobey := h.obey
    rw [← List.length_nil (α := UInt8)] at hobey ⊢
    exact obey_snoc hobey (by rwa [h.anchored])
  size := by
    have hsize := h.size
    have hseq := length_sequenceBytes_le hs
    rw [List.flatMap_append, List.length_append, List.flatMap_singleton]
    omega

/-- Where the next match does not fit, there is less room than `bound`. -/
theorem Written.room (h : Written input out w anchor seqs) (hs : Obeys input.length anchor s)
    (hw : w.bytes (sequenceBytes s) = none) : out.length < bound input.length := by
  obtain ⟨hpos, hlen, -⟩ := Writer.pos_le_of_bytes h.bytes
  have hsize := h.size
  have hseq := length_sequenceBytes_le hs
  have hstop := hs.stop
  rw [Writer.bytes] at hw
  split at hw
  · cases hw
  · dsimp only at hpos hlen
    rw [bound]
    omega

/-- Where the last literals do not fit, there is less room than `bound`. -/
theorem Written.room_last (h : Written input out w anchor seqs)
    (hw : w.bytes (lastBytes (input.drop anchor)) = none) : out.length < bound input.length := by
  obtain ⟨hpos, hlen, -⟩ := Writer.pos_le_of_bytes h.bytes
  have hsize := h.size
  have hanchor := h.anchor_le
  have hlast := length_lastBytes_le (input.drop anchor)
  rw [List.length_drop] at hlast
  rw [Writer.bytes] at hw
  split at hw
  · cases hw
  · dsimp only at hpos hlen
    rw [bound]
    omega

end Written

/-- What the compressor finds at `ip` is a match of the format, and continues the input. -/
theorem match_spec {input : List UInt8} {anchor ip cand : Nat} (ha : anchor ≤ ip)
    (hip : ip + mfLimit ≤ input.length) {h : ip + 4 ≤ input.length} (hf : found input ip cand h = true)
    {hs : ip ≤ input.length} {hc : cand ≤ input.length} {hlimit : input.length - lastLiterals ≤ input.length}
    {hce : cand + minMatch < ip + minMatch} {start : Nat × Nat}
    (hback : start = back input anchor ip cand hs hc) {stop : Nat}
    (hstop : stop = forward input (input.length - lastLiterals) (ip + minMatch) (cand + minMatch) hlimit hce) :
    Obeys input.length anchor
        ⟨slice input anchor (start.1 - anchor), start.1 - start.2, stop - start.1⟩ ∧
      Sequence.expand (input.take anchor)
        ⟨slice input anchor (start.1 - anchor), start.1 - start.2, stop - start.1⟩ = input.take stop ∧
      stop = anchor + (slice input anchor (start.1 - anchor)).length + (stop - start.1) := by
  obtain ⟨hlt, hnear, hrep₄⟩ := found_spec hf
  obtain ⟨k, hk, hkc, hak, hrepb⟩ := back_spec input anchor hs hc hlt.le ha
  rw [hk] at hback
  subst hback
  rw [mfLimit] at hip
  have hge : ip + minMatch ≤ stop := hstop ▸ le_forward _ _ _ _ _ _
  have hle : stop ≤ input.length - lastLiterals :=
    hstop ▸ forward_le _ _ _ _ _ _ (by rw [lastLiterals, minMatch]; omega)
  have hdist : ip - k - (cand - k) = ip - cand := by omega
  -- What was passed going back, the four bytes compared, and what was passed going forward.
  have hrep : ∀ i, ip - k ≤ i → i < stop → input[i]? = input[i - (ip - cand)]? := by
    intro i hi hlt'
    rcases Nat.lt_or_ge i ip with hi' | hi'
    · exact hrepb i hi hi'
    rcases Nat.lt_or_ge i (ip + 4) with hi₄ | hi₄
    · exact hrep₄ i hi' hi₄
    · have hf := forward_spec input hlimit hce (i := i) hi₄ (hstop ▸ hlt')
      rwa [Nat.add_sub_add_right] at hf
  rw [minMatch] at hge
  rw [lastLiterals] at hle
  dsimp only
  rw [hdist]
  refine ⟨obeys_match hak ?_ ?_ hnear ?_ ?_ ?_, expand_match hak ?_ ?_ ?_ ?_ hrep, ?_⟩
  all_goals first
    | omega
    | simp only [minMatch, mfLimit, lastLiterals, length_slice]
      omega

/-- The loop goes on as it began, and stops early only for want of room. -/
theorem scan_spec {input out : List UInt8} (hn : mfLimit < input.length) (ip anchor misses : Nat)
    (table : Table) (w : Writer) {seqs : List (Sequence UInt8)} (hw : Written input out w anchor seqs)
    (ha : anchor ≤ ip) :
    (∀ r, scan input hn ip anchor misses table w = some r →
      ∃ seqs', Written input out r.1 r.2.1 seqs') ∧
    (scan input hn ip anchor misses table w = none → out.length < bound input.length) := by
  fun_induction scan input hn ip anchor misses table w generalizing seqs with
  | case1 =>
    rename_i ip anchor misses table w h hin v cand table' hf hcand start hlimit e hge hle ih
    have hin : ip + mfLimit ≤ input.length := by omega
    obtain ⟨hobeys, htext, hstop⟩ := @match_spec _ _ _ _ ha hin _ hf _ _ hlimit _ start rfl e rfl
    rw [Writer.sequence_match]
    cases hseq : w.bytes (sequenceBytes ⟨slice input anchor (start.1 - anchor), start.1 - start.2, e - start.1⟩) with
    | none => exact ⟨fun r hr => absurd hr (by simp), fun _ => hw.room hobeys hseq⟩
    | some w' => exact ih w' (hw.next hobeys htext hstop hseq) le_rfl
  | case2 =>
    rename_i ih
    exact ih hw (by omega)
  | case3 ip anchor misses table w h =>
    refine ⟨fun r hr => ?_, fun hr => by cases hr⟩
    cases hr
    exact ⟨seqs, hw⟩

/-- A block that was written. -/
theorem compress_some {input out : List UInt8} {table : Table} {r : Writer × Table}
    (h : compress input out table = some r) : input.length < 2 ^ 32 ∧
      ∃ seqs last, r.1.out.take r.1.pos = blockBytes seqs last ∧ Obey input.length 0 seqs ∧
        expand [] seqs ++ last = input := by
  rw [compress] at h
  split at h
  · cases h
  next hsize =>
  refine ⟨Nat.lt_of_not_le hsize, ?_⟩
  split at h
  next hn =>
    obtain ⟨⟨w, anchor, table'⟩, hscan, h⟩ := Option.bind_eq_some_iff.1 h
    obtain ⟨w', hw', h⟩ := Option.bind_eq_some_iff.1 h
    cases h
    obtain ⟨seqs, hseqs⟩ := (scan_spec hn 0 0 0 _ _ (written_start input out) le_rfl).1 _ hscan
    rw [Writer.sequence_last] at hw'
    refine ⟨seqs, input.drop anchor, ?_, hseqs.obey, ?_⟩
    · rw [(Writer.pos_le_of_bytes hw').2.2.2, (Writer.pos_le_of_bytes hseqs.bytes).2.2.2]
      rfl
    · rw [hseqs.text, List.take_append_drop]
  next hn =>
    obtain ⟨w', hw', h⟩ := Option.bind_eq_some_iff.1 h
    cases h
    rw [Writer.sequence_last] at hw'
    refine ⟨[], input, ?_, trivial, List.nil_append input⟩
    rw [(Writer.pos_le_of_bytes hw').2.2.2]
    rfl

/-- A block is refused only for want of room or of the format's 32 bits. -/
theorem compress_none {input out : List UInt8} {table : Table} (h : compress input out table = none) :
    out.length < bound input.length ∨ 2 ^ 32 ≤ input.length := by
  rw [compress] at h
  split at h
  next hsize => exact .inr hsize
  next =>
  refine .inl ?_
  split at h
  next hn =>
    have hspec := scan_spec hn 0 0 0 (Vector.replicate tableLen 0) _ (written_start input out) le_rfl
    cases hscan : scan input hn 0 0 0 (Vector.replicate tableLen 0) ⟨out, 0⟩ with
    | none => exact hspec.2 hscan
    | some r =>
      obtain ⟨seqs, hseqs⟩ := hspec.1 r hscan
      rw [hscan] at h
      cases hlast : r.1.sequence (input.drop r.2.1) 0 none with
      | none => exact hseqs.room_last (by rw [← Writer.sequence_last _ _ 0, hlast])
      | some w => simp [hlast] at h
  next hn =>
    cases hlast : (Writer.mk out 0).sequence input 0 none with
    | none => exact (written_start input out).room_last (by
        rw [← Writer.sequence_last _ _ 0, List.drop_zero, hlast])
    | some w => simp [hlast] at h

/-! ## Any block -/

/-- Two buffers of one length with the same first `n` bytes. -/
structure Same (n : Nat) (a b : List UInt8) : Prop where
  length : a.length = b.length
  le : n ≤ a.length
  take : a.take n = b.take n

/-- Two results of one step that differ at most in what is still to be written. -/
inductive Alike (room : Nat) : Except Error Progress → Except Error Progress → Prop
  | error (e : Error) : Alike room (.error e) (.error e)
  | done {n : Nat} {a b : List UInt8} : Same n a b → a.length = room →
      Alike room (.ok (.done n a)) (.ok (.done n b))
  | more {n : Nat} {a b : List UInt8} (block : List UInt8) : Same n a b → a.length = room →
      Alike room (.ok (.more block n a)) (.ok (.more block n b))

theorem Same.splice {n : Nat} {a b src : List UInt8} (h : Same n a b) (hfit : n + src.length ≤ a.length) :
    Same (n + src.length) (splice a n src) (splice b n src) where
  length := by rw [length_splice hfit, length_splice (h.length ▸ hfit), h.length]
  le := by rwa [length_splice hfit]
  take := by rw [take_splice hfit, take_splice (h.length ▸ hfit), h.take]

theorem Same.copyMatch {d n k : Nat} {a b : List UInt8} (h : Same n a b) (hd : 0 < d) (hn : d ≤ n)
    (hfit : n + k ≤ a.length) : Same (n + k) (copyMatch d n k a) (copyMatch d n k b) := by
  obtain ⟨hlen, htake⟩ := take_copyMatch hd hn hfit
  obtain ⟨hlen', htake'⟩ := take_copyMatch hd hn (h.length ▸ hfit)
  exact ⟨by rw [hlen, hlen', h.length], by rwa [hlen], by rw [htake, htake', h.take]⟩

theorem matched_alike (nibble : Nat) (block : List UInt8) {n : Nat} {a b : List UInt8} (h : Same n a b) :
    Alike a.length (matched nibble block n a) (matched nibble block n b) := by
  rcases block with _ | ⟨lo, _ | ⟨hi, block⟩⟩
  · exact .error _
  · exact .error _
  rw [matched, matched, ← h.length]
  dsimp only
  split
  · exact .error _
  next hd =>
    cases extended nibble block with
    | error e => exact .error e
    | ok r =>
      dsimp only [bind, Except.bind]
      split
      · exact .error _
      next hfit =>
        have hcopy := take_copyMatch (d := leValue [lo, hi]) (by omega) (by omega) (Nat.le_of_not_lt hfit)
        exact .more _ (h.copyMatch (by omega) (by omega) (Nat.le_of_not_lt hfit)) hcopy.1

theorem step_alike (block : List UInt8) {n : Nat} {a b : List UInt8} (h : Same n a b) :
    Alike a.length (step block n a) (step block n b) := by
  cases block with
  | nil => exact .error _
  | cons token block =>
    rw [step, step, ← h.length]
    cases extended (token.toNat / 16) block with
    | error e => exact .error e
    | ok r =>
      dsimp only [bind, Except.bind]
      split
      · exact .error _
      next hblock =>
        split
        · exact .error _
        next hfit =>
          have hlen : (r.2.take r.1).length = r.1 := List.length_take_of_le (Nat.le_of_not_lt hblock)
          have hsame := @Same.splice _ _ _ (r.2.take r.1) h (by omega)
          have hroom : (Buffer.splice a n (r.2.take r.1)).length = a.length := length_splice (by omega)
          rw [hlen] at hsame
          split
          · exact .done hsame hroom
          · rw [← hroom]
            exact matched_alike _ _ hsame

/-- What is decoded does not depend on what was in the buffer. -/
theorem decode_alike (block : List UInt8) {n : Nat} {a b : List UInt8} (h : Same n a b) :
    (∃ e, decode block n a = .error e ∧ decode block n b = .error e) ∨
    ∃ n' a' b', decode block n a = .ok (n', a') ∧ decode block n b = .ok (n', b') ∧ Same n' a' b' ∧
      a'.length = a.length := by
  induction hk : block.length using Nat.strong_induction_on generalizing block n a b with
  | _ k ih =>
    have halike := step_alike block h
    generalize ha : step block n a = ra at halike
    generalize hb : step block n b = rb at halike
    rw [decode, decode, ha, hb]
    cases halike with
    | error e => exact .inl ⟨e, rfl, rfl⟩
    | done hsame hlen => exact .inr ⟨_, _, _, rfl, rfl, hsame, hlen⟩
    | more rest hsame hlen =>
      rcases ih rest.length (hk ▸ step_shorter ha) rest hsame rfl with herr | ⟨n', a', b', hda, hdb, hs, hl⟩
      · exact .inl herr
      · exact .inr ⟨n', a', b', hda, hdb, hs, hl.trans hlen⟩

/-- A block that fills the buffer exactly does so whatever was in it, and leaves nothing of that. -/
theorem decompressExact_fills {block out out' : List UInt8} (h : decompressExact block out = .ok out') :
    out'.length = out.length ∧
      ∀ other : List UInt8, other.length = out.length → decompressExact block other = .ok out' := by
  have hany : ∀ other : List UInt8, other.length = out.length →
      out'.length = out.length ∧ decompressExact block other = .ok out' := by
    intro other hlen
    have hsame : Same 0 out other := ⟨hlen.symm, Nat.zero_le _, rfl⟩
    rw [decompressExact, decompress] at h ⊢
    rcases decode_alike block hsame with ⟨e, ha, -⟩ | ⟨n, a, b, ha, hb, hab, hroom⟩
    · rw [ha] at h
      cases h
    · rw [ha] at h
      dsimp only at h
      split at h
      next hn =>
        cases h
        have hba : b = out' := by
          have htake := hab.take
          rw [List.take_of_length_le (by omega), List.take_of_length_le (by rw [← hab.length]; omega)] at htake
          exact htake.symm
        rw [hb, hba]
        exact ⟨hroom, if_pos (by omega)⟩
      next => cases h
  exact ⟨(hany out rfl).1, fun other hlen => (hany other hlen).2⟩

/-- Sequences that obey the format, and the literals after them, decode to what they stand for. -/
theorem decompressExact_blockBytes {seqs : List (Sequence UInt8)} {last out : List UInt8}
    (h : Obey out.length 0 seqs) (hout : out.length < usizeBound)
    (hlen : (expand [] seqs ++ last).length = out.length) :
    decompressExact (blockBytes seqs last) out = .ok (expand [] seqs ++ last) := by
  obtain ⟨out', hdecode, hlen', htake⟩ :=
    decode_blockBytes h (Nat.zero_le _) hout (by rw [List.take_zero, hlen])
  rw [List.take_zero] at hdecode htake
  rw [decompressExact, decompress, hdecode]
  dsimp only
  rw [if_pos hlen, ← htake, List.take_of_length_le (by omega)]

/-- The literals after sequences that obey the format are at least five. -/
theorem lastLiterals_le {n : Nat} {text last : List UInt8} {seqs : List (Sequence UInt8)}
    (h : Obey n text.length seqs) (hne : seqs ≠ []) (hn : (expand text seqs ++ last).length = n) :
    lastLiterals ≤ last.length := by
  induction seqs generalizing text with
  | nil => exact absurd rfl hne
  | cons s seqs ih =>
    cases seqs with
    | nil =>
      have hstop := h.1.stop
      rw [expand_cons, expand_nil, List.length_append, length_expand_sequence h.1] at hn
      omega
    | cons s' seqs =>
      have hrest := h.2
      rw [← length_expand_sequence h.1] at hrest
      exact ih hrest (List.cons_ne_nil _ _) hn

/-- A block that is written is one of the format and decodes to the input, whatever the table and the
buffers held; it is refused only for want of room or of the format's 32 bits; and any block that decodes
exactly fills the buffer, in every place and with nothing of its own. -/
theorem round_trip (input out : List UInt8) (table : Table) :
    (∀ r, compress input out table = some r →
      (∀ buffer : List UInt8, buffer.length = input.length →
        decompressExact (r.1.out.take r.1.pos) buffer = .ok input) ∧
      ∃ seqs last, r.1.out.take r.1.pos = blockBytes seqs last ∧ expand [] seqs ++ last = input ∧
        Obey input.length 0 seqs ∧ (seqs ≠ [] → lastLiterals ≤ last.length)) ∧
    (compress input out table = none → out.length < bound input.length ∨ 2 ^ 32 ≤ input.length) ∧
    ∀ block buffer filled : List UInt8, decompressExact block buffer = .ok filled →
      filled.length = buffer.length ∧
        ∀ other : List UInt8, other.length = buffer.length → decompressExact block other = .ok filled := by
  refine ⟨fun r hr => ?_, compress_none, fun block buffer filled => decompressExact_fills⟩
  obtain ⟨hsize, seqs, last, hblock, hobey, htext⟩ := compress_some hr
  refine ⟨fun buffer hbuffer => ?_, seqs, last, hblock, htext, hobey, fun hne => ?_⟩
  · have hexact := @decompressExact_blockBytes seqs last buffer (hbuffer.symm ▸ hobey)
      (by rw [usizeBound]; omega) (by rw [htext, hbuffer])
    rw [hblock, hexact, htext]
  · exact @lastLiterals_le _ [] _ _ hobey hne (congrArg List.length htext)

/-- Thirteen equal bytes in forty. -/
theorem round_trip_equal_bytes :
    ((compress (List.replicate 13 97) (List.replicate 40 0) (Vector.replicate tableLen 5)).map fun r =>
      (decompressExact (r.1.out.take r.1.pos) (List.replicate 13 0)).toOption) =
        some (some (List.replicate 13 97)) := by
  cases h : compress (List.replicate 13 97) (List.replicate 40 0) (Vector.replicate tableLen 5) with
  | none =>
    have hsome : (compress (List.replicate 13 97) (List.replicate 40 0)
      (Vector.replicate tableLen 5)).isSome = true := by decide +kernel
    rw [h] at hsome
    cases hsome
  | some r =>
    rw [Option.map_some, ((round_trip _ _ _).1 r h).1 (List.replicate 13 0) rfl]
    rfl

/-- Their match starts at the first of the last twelve. -/
theorem match_starts_in_last_twelve :
    (compress (List.replicate 13 97) (List.replicate 40 0) (Vector.replicate tableLen 5)).map
        (fun r => r.1.out.take r.1.pos) =
      some (blockBytes [⟨[97], 1, 7⟩] (List.replicate 5 97)) ∧
    (List.replicate 13 (97 : UInt8)).length - 12 ≤ [(97 : UInt8)].length := by
  decide +kernel

end NanoChrono.Lz4
