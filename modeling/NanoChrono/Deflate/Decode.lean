import NanoChrono.Check
import NanoChrono.Deflate.Bits

/-! # Decoding a DEFLATE stream

The blocks of a stream, decoded into any output: an output takes bytes, pieces of the input and copies of
what it was given before. The decoder never looks at what it has put out, so two outputs that take
everything alike are given the same (`decodePrefix_alike`); no copy reaches farther back than the window
(`based_le`). -/

namespace NanoChrono.Deflate

open Buffer

/-- The largest distance a stream may reach back. -/
def window : Nat := 32 * 1024

/-- What a stream is decoded into. -/
structure Output (σ : Type) where
  put : σ → UInt8 → Except Error σ
  putSlice : σ → List UInt8 → Except Error σ
  /-- Copies so many bytes, the last number of `copy`, from the first number back. -/
  copy : σ → Nat → Nat → Except Error σ

/-! ## Tables -/

def lenBase : List Nat :=
  [3, 4, 5, 6, 7, 8, 9, 10, 11, 13, 15, 17, 19, 23, 27, 31, 35, 43, 51, 59, 67, 83, 99, 115, 131, 163,
    195, 227, 258]

def lenExtra : List Nat :=
  [0, 0, 0, 0, 0, 0, 0, 0, 1, 1, 1, 1, 2, 2, 2, 2, 3, 3, 3, 3, 4, 4, 4, 4, 5, 5, 5, 5, 0]

def distBase : List Nat :=
  [1, 2, 3, 4, 5, 7, 9, 13, 17, 25, 33, 49, 65, 97, 129, 193, 257, 385, 513, 769, 1025, 1537, 2049, 3073,
    4097, 6145, 8193, 12289, 16385, 24577]

def distExtra : List Nat :=
  [0, 0, 0, 0, 1, 1, 2, 2, 3, 3, 4, 4, 5, 5, 6, 6, 7, 7, 8, 8, 9, 9, 10, 10, 11, 11, 12, 12, 13, 13]

/-- The order the code-length code's lengths are sent in. -/
def clenOrder : List Nat := [16, 17, 18, 0, 8, 7, 9, 6, 10, 5, 11, 4, 12, 3, 13, 2, 14, 1, 15]

/-- The codes of fixed blocks. -/
def fixedTables (lit dist : Huffman) : Huffman × Huffman :=
  ((lit.build (List.replicate 144 8 ++ List.replicate 112 9 ++ List.replicate 24 7 ++
    List.replicate 8 8)).1, (dist.build (List.replicate 30 5)).1)

/-- What a code-length symbol past 15 repeats, and how often. -/
def repeated (sym index : Nat) (lengths : List Nat) (bits : Bits) :
    Except Error (Nat × {n : Nat // 0 < n} × Bits) :=
  if sym = 16 then
    if index = 0 then .error .badCode
    else (bits.bits 2).map fun r => (lengths.getD (index - 1) 0, ⟨3 + r.1, by omega⟩, r.2)
  else if sym = 17 then (bits.bits 3).map fun r => (0, ⟨3 + r.1, by omega⟩, r.2)
  else if sym = 18 then (bits.bits 7).map fun r => (0, ⟨11 + r.1, by omega⟩, r.2)
  else .error .badSymbol

/-- The code lengths from `index` on. -/
def readLengths (clen : Huffman) (total index : Nat) (lengths : List Nat) (bits : Bits) :
    Except Error (List Nat × Bits) :=
  if _h : index < total then
    (clen.decode bits).bind fun r =>
    if r.1 < 16 then readLengths clen total (index + 1) (lengths.set index r.1) r.2
    else (repeated r.1 index lengths r.2).bind fun v =>
      if total < index + v.2.1 then .error .badCode
      else readLengths clen total (index + v.2.1) (splice lengths index (List.replicate v.2.1 v.1)) v.2.2
  else .ok (lengths, bits)
termination_by total - index
decreasing_by
  · omega
  · have := v.2.1.2
    omega

/-- Whether a code can be used: complete, or incomplete with a single code of length one. -/
def usable (h : Huffman) (n : Nat) : Fill → Bool
  | .complete => true
  | .incomplete => h.count.getD 0 0 + h.count.getD 1 0 == n
  | .overSubscribed => false

/-- The lengths of the code-length code's first `slots` symbols. -/
@[grind =] def readClen : (slots : List Nat) → (lengths : List Nat) → Bits → Except Error (List Nat × Bits)
  | [], lengths, bits => .ok (lengths, bits)
  | slot :: slots, lengths, bits =>
    (bits.bits 3).bind fun r => readClen slots (lengths.set slot r.1) r.2

/-- The codes of a dynamic block. -/
def dynamicTables (bits : Bits) (lit dist : Huffman) : Except Error (Bits × Huffman × Huffman) :=
  (bits.bits 5).bind fun hlit =>
  (hlit.2.bits 5).bind fun hdist =>
  (hdist.2.bits 4).bind fun hclen =>
  let nlen := hlit.1 + 257
  let ndist := hdist.1 + 1
  let ncode := hclen.1 + 4
  if 286 < nlen ∨ 30 < ndist then .error .badCode
  else
    (readClen (clenOrder.take ncode) (List.replicate (286 + 30) 0) hclen.2).bind fun clens =>
    let clen := Huffman.new.build (clens.1.take 19)
    -- The code-length code must be complete.
    if clen.2 ≠ .complete then .error .badCode
    else
      (readLengths clen.1 (nlen + ndist) 0 (List.replicate (286 + 30) 0) clens.2).bind fun lengths =>
      -- Without an end-of-block code no block can end.
      if lengths.1.getD 256 0 = 0 then .error .badCode
      else
        let l := lit.build (lengths.1.take nlen)
        let d := dist.build (slice lengths.1 nlen ndist)
        if usable l.1 nlen l.2 then
          if usable d.1 ndist d.2 then .ok (lengths.2, l.1, d.1) else .error .badCode
        else .error .badCode

/-- A length or a distance: a symbol's base and its extra bits. -/
def based (base extra : List Nat) (sym : Nat) (bits : Bits) : Except Error (Nat × Bits) :=
  match base[sym]? with
  | none => .error .badSymbol
  | some b => (bits.bits (extra.getD sym 0)).map fun r => (b + r.1, r.2)

/-! ## Blocks -/

theorem map_ok {α β : Type} {x : Except Error α} {f : α → β} {b : β} (h : x.map f = .ok b) :
    ∃ a, x = .ok a ∧ f a = b := by
  cases x with
  | error e => cases h
  | ok a => exact ⟨a, rfl, Except.ok.inj h⟩

section Decode

variable {σ : Type} (o : Output σ)

/-- A stored block. -/
def stored (bits : Bits) (out : σ) : Except Error (Bits × σ) :=
  let input := bits.input
  let start := bits.align.pos
  if input.length < start + 4 then .error .truncated
  else
    let len := leValue (slice input start 2)
    let nlen := leValue (slice input (start + 2) 2)
    if len ≠ 0xFFFF - nlen then .error .badBlock
    else if h : start + 4 + len ≤ input.length then
      (o.putSlice out (slice input (start + 4) len)).map fun out =>
        (⟨input, start + 4 + len, 0, 0, Nat.zero_le _, h⟩, out)
    else .error .truncated

/-- One symbol of a block, and whether it ends the block. -/
def codesStep (lit dist : Huffman) (bits : Bits) (out : σ) : Except Error (Bool × Bits × σ) :=
  (lit.decode bits).bind fun s =>
  if s.1 < 256 then (o.put out (UInt8.ofNat s.1)).map fun out => (false, s.2, out)
  else if s.1 = 256 then .ok (true, s.2, out)
  else
    (based lenBase lenExtra (s.1 - 257) s.2).bind fun len =>
    (dist.decode len.2).bind fun d =>
    (based distBase distExtra d.1 d.2).bind fun distance =>
    (o.copy out distance.1 len.1).map fun out => (false, distance.2, out)

theorem based_left {base extra : List Nat} {sym : Nat} {bits : Bits} {r : Nat × Bits}
    (h : based base extra sym bits = .ok r) : r.2.input = bits.input ∧ r.2.left ≤ bits.left := by
  rw [based] at h
  split at h
  · cases h
  · obtain ⟨v, hv, rfl⟩ := map_ok h
    obtain ⟨hinput, hleft, -⟩ := Bits.bits_spec hv
    exact ⟨hinput, hleft ▸ Nat.le_add_right _ _⟩

/-- A symbol of a block takes at least a bit. -/
theorem codesStep_shorter {lit dist : Huffman} {bits : Bits} {out : σ} {r : Bool × Bits × σ}
    (h : codesStep o lit dist bits out = .ok r) :
    r.2.1.input = bits.input ∧ r.2.1.left < bits.left := by
  obtain ⟨s, hs, h⟩ := Check.bind_ok.1 h
  obtain ⟨hinput, hleft⟩ := Huffman.decode_shorter hs
  split at h
  · obtain ⟨out₁, -, rfl⟩ := map_ok h
    exact ⟨hinput, hleft⟩
  split at h
  · cases h
    exact ⟨hinput, hleft⟩
  obtain ⟨len, hlen, h⟩ := Check.bind_ok.1 h
  obtain ⟨d, hd, h⟩ := Check.bind_ok.1 h
  obtain ⟨distance, hdistance, h⟩ := Check.bind_ok.1 h
  obtain ⟨out₁, -, rfl⟩ := map_ok h
  obtain ⟨hinput₁, hleft₁⟩ := based_left hlen
  obtain ⟨hinput₂, hleft₂⟩ := Huffman.decode_shorter hd
  obtain ⟨hinput₃, hleft₃⟩ := based_left hdistance
  refine ⟨hinput₃.trans (hinput₂.trans (hinput₁.trans hinput)), ?_⟩
  dsimp only
  omega

/-- The symbols of a block up to its end. -/
def codes (lit dist : Huffman) (bits : Bits) (out : σ) : Except Error (Bits × σ) :=
  match _h : codesStep o lit dist bits out with
  | .error e => .error e
  | .ok (true, bits, out) => .ok (bits, out)
  | .ok (false, bits, out) => codes lit dist bits out
termination_by bits.left
decreasing_by exact (codesStep_shorter o _h).2

theorem codes_left (lit dist : Huffman) {bits : Bits} {out : σ} {r : Bits × σ}
    (h : codes o lit dist bits out = .ok r) : r.1.input = bits.input ∧ r.1.left ≤ bits.left := by
  fun_induction codes o lit dist bits out with
  | case1 => cases h
  | case2 bits out bits' out' hstep =>
    cases h
    obtain ⟨hinput, hleft⟩ := codesStep_shorter o hstep
    exact ⟨hinput, hleft.le⟩
  | case3 bits out bits' out' hstep ih =>
    obtain ⟨hinput, hleft⟩ := codesStep_shorter o hstep
    obtain ⟨hinput', hleft'⟩ := ih h
    exact ⟨hinput'.trans hinput, hleft'.trans hleft.le⟩

theorem stored_left {bits : Bits} {out : σ} {r : Bits × σ} (h : stored o bits out = .ok r) :
    r.1.input = bits.input ∧ r.1.left ≤ bits.left := by
  rw [stored] at h
  dsimp only at h
  split at h
  · cases h
  split at h
  · cases h
  split at h
  next hle =>
    obtain ⟨out₁, -, rfl⟩ := map_ok h
    refine ⟨rfl, le_trans ?_ bits.left_align⟩
    rw [Bits.left, Bits.left, Bits.align_input]
    dsimp only
    omega
  next => cases h

/-- The state of the decoder between blocks. -/
structure State (σ : Type) where
  bits : Bits
  lit : Huffman
  dist : Huffman
  out : σ

/-- One block, and whether it was the last. -/
def block (s : State σ) : Except Error (Bool × State σ) :=
  (s.bits.bits 1).bind fun last =>
  (last.2.bits 2).bind fun kind =>
  match kind.1 with
  | 0 => (stored o kind.2 s.out).map fun r => (last.1 == 1, ⟨r.1, s.lit, s.dist, r.2⟩)
  | 1 =>
    let tables := fixedTables s.lit s.dist
    (codes o tables.1 tables.2 kind.2 s.out).map fun r => (last.1 == 1, ⟨r.1, tables.1, tables.2, r.2⟩)
  | 2 =>
    (dynamicTables kind.2 s.lit s.dist).bind fun tables =>
    (codes o tables.2.1 tables.2.2 tables.1 s.out).map fun r =>
      (last.1 == 1, ⟨r.1, tables.2.1, tables.2.2, r.2⟩)
  | _ => .error .badBlock

/-- A reader of the stream only goes forward. -/
def Forward (b b' : Bits) : Prop := b'.input = b.input ∧ b'.left ≤ b.left

theorem Forward.trans {b₁ b₂ b₃ : Bits} (h : Forward b₁ b₂) (h' : Forward b₂ b₃) : Forward b₁ b₃ :=
  ⟨h'.1.trans h.1, h'.2.trans h.2⟩

theorem forward_bits {b : Bits} {n : Nat} {r : Nat × Bits} (h : b.bits n = .ok r) : Forward b r.2 := by
  obtain ⟨hinput, hleft, -⟩ := Bits.bits_spec h
  exact ⟨hinput, hleft ▸ Nat.le_add_right _ _⟩

theorem forward_readClen {slots lengths : List Nat} {bits : Bits} {r : List Nat × Bits}
    (h : readClen slots lengths bits = .ok r) : Forward bits r.2 := by
  induction slots generalizing lengths bits with
  | nil =>
    cases h
    exact ⟨rfl, le_rfl⟩
  | cons slot slots ih =>
    obtain ⟨v, hv, h⟩ := Check.bind_ok.1 h
    exact (forward_bits hv).trans (ih h)

theorem forward_repeated {sym index : Nat} {lengths : List Nat} {bits : Bits}
    {r : Nat × {n : Nat // 0 < n} × Bits} (h : repeated sym index lengths bits = .ok r) :
    Forward bits r.2.2 := by
  rw [repeated] at h
  split at h
  · split at h
    · cases h
    · obtain ⟨v, hv, rfl⟩ := map_ok h
      exact forward_bits hv
  split at h
  · obtain ⟨v, hv, rfl⟩ := map_ok h
    exact forward_bits hv
  split at h
  · obtain ⟨v, hv, rfl⟩ := map_ok h
    exact forward_bits hv
  · cases h

theorem forward_readLengths {clen : Huffman} {total index : Nat} {lengths : List Nat} {bits : Bits}
    {r : List Nat × Bits} (h : readLengths clen total index lengths bits = .ok r) : Forward bits r.2 := by
  induction hk : total - index using Nat.strong_induction_on generalizing index lengths bits with
  | _ k ih =>
    rw [readLengths] at h
    split at h
    next hlt =>
      obtain ⟨s, hs, h⟩ := Check.bind_ok.1 h
      have hsym : Forward bits s.2 := (Huffman.decode_shorter hs).imp_right Nat.le_of_lt
      split at h
      · exact hsym.trans (ih _ (by omega) h rfl)
      · obtain ⟨v, hv, h⟩ := Check.bind_ok.1 h
        have hpos := v.2.1.2
        split at h
        · cases h
        · exact hsym.trans ((forward_repeated hv).trans (ih _ (by omega) h rfl))
    next =>
      cases h
      exact ⟨rfl, le_rfl⟩

theorem forward_dynamicTables {bits : Bits} {lit dist : Huffman} {r : Bits × Huffman × Huffman}
    (h : dynamicTables bits lit dist = .ok r) : Forward bits r.1 := by
  obtain ⟨hlit, hhlit, h⟩ := Check.bind_ok.1 h
  obtain ⟨hdist, hhdist, h⟩ := Check.bind_ok.1 h
  obtain ⟨hclen, hhclen, h⟩ := Check.bind_ok.1 h
  dsimp only at h
  split at h
  · cases h
  obtain ⟨clens, hclens, h⟩ := Check.bind_ok.1 h
  split at h
  · cases h
  obtain ⟨lengths, hlengths, h⟩ := Check.bind_ok.1 h
  split at h
  · cases h
  split at h
  · split at h
    · cases h
      exact ((forward_bits hhlit).trans ((forward_bits hhdist).trans (forward_bits hhclen))).trans
        ((forward_readClen hclens).trans (forward_readLengths hlengths))
    · cases h
  · cases h

/-- A block takes at least a bit. -/
theorem block_shorter {s : State σ} {r : Bool × State σ} (h : block o s = .ok r) :
    r.2.bits.left < s.bits.left := by
  obtain ⟨last, hlast, h⟩ := Check.bind_ok.1 h
  obtain ⟨kind, hkind, h⟩ := Check.bind_ok.1 h
  have hfirst := (Bits.bits_spec hlast).2.1
  have hsecond := (Bits.bits_spec hkind).2.1
  split at h
  · obtain ⟨v, hv, rfl⟩ := map_ok h
    have := (stored_left o hv).2
    dsimp only
    omega
  · obtain ⟨v, hv, rfl⟩ := map_ok h
    have := (codes_left o _ _ hv).2
    dsimp only
    omega
  · obtain ⟨tables, htables, h⟩ := Check.bind_ok.1 h
    obtain ⟨v, hv, rfl⟩ := map_ok h
    have := (codes_left o _ _ hv).2
    have := (forward_dynamicTables htables).2
    dsimp only
    omega
  · cases h

/-- The blocks up to the last. -/
def blocks (s : State σ) : Except Error (State σ) :=
  match _h : block o s with
  | .error e => .error e
  | .ok (true, s) => .ok s
  | .ok (false, s) => blocks s
termination_by s.bits.left
decreasing_by exact block_shorter o _h

/-- Decodes one stream: how many input bytes it occupied, and the output. -/
def decodePrefix (input : List UInt8) (out : σ) : Except Error (Nat × σ) :=
  (blocks o ⟨.new input, .new, .new, out⟩).map fun s => (s.bits.align.pos, s.out)

/-- Decodes a stream that is all of the input. -/
def decode (input : List UInt8) (out : σ) : Except Error σ :=
  (decodePrefix o input out).bind fun r => if r.1 ≠ input.length then .error .trailing else .ok r.2

end Decode

/-! ## Two outputs -/

section Alike

/-- Results that fail alike, or succeed with related values. -/
inductive Alike {α β : Type} (R : α → β → Prop) : Except Error α → Except Error β → Prop
  | error (e : Error) : Alike R (.error e) (.error e)
  | ok {a : α} {b : β} : R a b → Alike R (.ok a) (.ok b)

theorem Alike.bind {α β γ δ : Type} {R : α → β → Prop} {S : γ → δ → Prop} {x : Except Error α}
    {y : Except Error β} {f : α → Except Error γ} {g : β → Except Error δ} (h : Alike R x y)
    (hfg : ∀ a b, R a b → Alike S (f a) (g b)) : Alike S (x.bind f) (y.bind g) := by
  cases h with
  | error e => exact .error e
  | ok hab => exact hfg _ _ hab

theorem Alike.map {α β γ δ : Type} {R : α → β → Prop} {S : γ → δ → Prop} {x : Except Error α}
    {y : Except Error β} {f : α → γ} {g : β → δ} (h : Alike R x y) (hfg : ∀ a b, R a b → S (f a) (g b)) :
    Alike S (x.map f) (y.map g) := by
  cases h with
  | error e => exact .error e
  | ok hab => exact .ok (hfg _ _ hab)

/-- Two ways on from one reader of the stream. -/
theorem alike_bind {α γ δ : Type} {S : γ → δ → Prop} (x : Except Error α) {f : α → Except Error γ}
    {g : α → Except Error δ} (hfg : ∀ a, x = .ok a → Alike S (f a) (g a)) :
    Alike S (x.bind f) (x.bind g) := by
  cases x with
  | error e => exact .error e
  | ok a => exact hfg a rfl

variable {σ τ : Type} {o : Output σ} {p : Output τ} {R : σ → τ → Prop}

/-- Outputs that take everything alike, copies from within the window. -/
structure Simulates (o : Output σ) (p : Output τ) (R : σ → τ → Prop) : Prop where
  put : ∀ {s t}, R s t → ∀ b, Alike R (o.put s b) (p.put t b)
  putSlice : ∀ {s t}, R s t → ∀ l, Alike R (o.putSlice s l) (p.putSlice t l)
  copy : ∀ {s t}, R s t → ∀ {dist}, dist ≤ window → ∀ len, Alike R (o.copy s dist len) (p.copy t dist len)

/-- No distance is longer than the window. -/
theorem based_le {sym : Nat} {bits : Bits} {r : Nat × Bits}
    (h : based distBase distExtra sym bits = .ok r) : r.1 ≤ window := by
  have htable : ∀ i < 30, distBase.getD i 0 + 2 ^ distExtra.getD i 0 ≤ window + 1 := by decide
  rw [based] at h
  split at h
  · cases h
  next b hb =>
    obtain ⟨v, hv, rfl⟩ := map_ok h
    have hlt : sym < 30 := (List.getElem?_eq_some_iff.1 hb).1
    have hrow := htable sym hlt
    have hval := (Bits.bits_spec hv).2.2
    rw [List.getD_eq_getElem?_getD, hb, Option.getD_some] at hrow
    dsimp only
    omega

/-- Two states of the decoder that differ in the output at most. -/
structure Same (R : σ → τ → Prop) (s : State σ) (t : State τ) : Prop where
  bits : s.bits = t.bits
  lit : s.lit = t.lit
  dist : s.dist = t.dist
  out : R s.out t.out

theorem codesStep_alike (h : Simulates o p R) (lit dist : Huffman) (bits : Bits) {s : σ} {t : τ}
    (hst : R s t) : Alike (fun a b => a.1 = b.1 ∧ a.2.1 = b.2.1 ∧ R a.2.2 b.2.2)
      (codesStep o lit dist bits s) (codesStep p lit dist bits t) := by
  rw [codesStep, codesStep]
  refine alike_bind _ fun sym _ => ?_
  split
  · exact (h.put hst _).map fun a b hab => ⟨rfl, rfl, hab⟩
  split
  · exact .ok ⟨rfl, rfl, hst⟩
  refine alike_bind _ fun len _ => alike_bind _ fun d _ => alike_bind _ fun distance hdistance => ?_
  exact (h.copy hst (based_le hdistance) _).map fun a b hab => ⟨rfl, rfl, hab⟩

theorem codes_alike (h : Simulates o p R) (lit dist : Huffman) (bits : Bits) {s : σ} {t : τ} (hst : R s t) :
    Alike (fun a b => a.1 = b.1 ∧ R a.2 b.2) (codes o lit dist bits s) (codes p lit dist bits t) := by
  induction hk : bits.left using Nat.strong_induction_on generalizing bits s t with
  | _ k ih =>
    have hstep := codesStep_alike h lit dist bits hst
    generalize hs : codesStep o lit dist bits s = rs at hstep
    generalize ht : codesStep p lit dist bits t = rt at hstep
    rw [codes, codes, hs, ht]
    cases hstep with
    | error e => exact .error e
    | @ok a b hab =>
      obtain ⟨last, bits', s'⟩ := a
      obtain ⟨last', bits'', t'⟩ := b
      obtain ⟨rfl, rfl, hst'⟩ := hab
      cases last with
      | true => exact .ok ⟨rfl, hst'⟩
      | false => exact ih bits'.left (hk ▸ (codesStep_shorter o hs).2) bits' hst' rfl

theorem stored_alike (h : Simulates o p R) (bits : Bits) {s : σ} {t : τ} (hst : R s t) :
    Alike (fun a b => a.1 = b.1 ∧ R a.2 b.2) (stored o bits s) (stored p bits t) := by
  rw [stored, stored]
  dsimp only
  split
  · exact .error _
  split
  · exact .error _
  split
  · exact (h.putSlice hst _).map fun a b hab => ⟨rfl, hab⟩
  · exact .error _

theorem block_alike (h : Simulates o p R) {s : State σ} {t : State τ} (hst : Same R s t) :
    Alike (fun a b => a.1 = b.1 ∧ Same R a.2 b.2) (block o s) (block p t) := by
  obtain ⟨bits, lit, dist, out⟩ := s
  obtain ⟨bits', lit', dist', out'⟩ := t
  obtain ⟨rfl, rfl, rfl, hout⟩ := hst
  rw [block, block]
  refine alike_bind _ fun last _ => alike_bind _ fun kind _ => ?_
  split
  · exact (stored_alike h _ hout).map fun a b hab => ⟨rfl, hab.1, rfl, rfl, hab.2⟩
  · exact (codes_alike h _ _ _ hout).map fun a b hab => ⟨rfl, hab.1, rfl, rfl, hab.2⟩
  · refine alike_bind _ fun tables _ => ?_
    exact (codes_alike h _ _ _ hout).map fun a b hab => ⟨rfl, hab.1, rfl, rfl, hab.2⟩
  · exact .error _

theorem blocks_alike (h : Simulates o p R) {s : State σ} {t : State τ} (hst : Same R s t) :
    Alike (Same R) (blocks o s) (blocks p t) := by
  induction hk : s.bits.left using Nat.strong_induction_on generalizing s t with
  | _ k ih =>
    have hstep := block_alike h hst
    generalize hs : block o s = rs at hstep
    generalize ht : block p t = rt at hstep
    rw [blocks, blocks, hs, ht]
    cases hstep with
    | error e => exact .error e
    | @ok a b hab =>
      obtain ⟨last, s'⟩ := a
      obtain ⟨last', t'⟩ := b
      obtain ⟨rfl, hst'⟩ := hab
      cases last with
      | true => exact .ok hst'
      | false => exact ih s'.bits.left (hk ▸ block_shorter o hs) hst' rfl

/-- Outputs that take everything alike are given the same. -/
theorem decodePrefix_alike (h : Simulates o p R) (input : List UInt8) {s : σ} {t : τ} (hst : R s t) :
    Alike (fun a b => a.1 = b.1 ∧ R a.2 b.2) (decodePrefix o input s) (decodePrefix p input t) :=
  (blocks_alike h ⟨rfl, rfl, rfl, hst⟩).map fun _ _ hab => ⟨by rw [hab.bits], hab.out⟩

theorem decode_alike (h : Simulates o p R) (input : List UInt8) {s : σ} {t : τ} (hst : R s t) :
    Alike R (decode o input s) (decode p input t) := by
  refine (decodePrefix_alike h input hst).bind fun a b hab => ?_
  rw [hab.1]
  split
  · exact .error _
  · exact .ok hab.2

end Alike

end NanoChrono.Deflate
