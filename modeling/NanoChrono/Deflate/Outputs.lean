import NanoChrono.Deflate.Decode
import NanoChrono.Lz4.Copies

/-! # Inflating into a buffer and through a window

The two outputs of the decoder. One is a flat buffer, the other a ring of the last 32 KiB that is handed to
a sink whenever it is full. What either has been given is a text of at most so many bytes (`text`), which
the buffer starts with (`Filled`) and the ring holds the end of, the sink having seen the rest
(`Streamed`); both take everything as the text does, so they agree (`inflateInto_text`, `inflateTo_text`). -/

namespace NanoChrono.Deflate

open Buffer Lz

/-! ## Outputs -/

/-- A buffer and how much of it is written. -/
structure Flat where
  buf : List UInt8
  n : Nat

namespace Flat

def put (f : Flat) (b : UInt8) : Except Error Flat :=
  if f.n < f.buf.length then .ok ⟨f.buf.set f.n b, f.n + 1⟩ else .error .overflow

def putSlice (f : Flat) (s : List UInt8) : Except Error Flat :=
  if f.n + s.length ≤ f.buf.length then .ok ⟨splice f.buf f.n s, f.n + s.length⟩ else .error .overflow

def copy (f : Flat) (dist len : Nat) : Except Error Flat :=
  if dist = 0 ∨ f.n < dist then .error .tooFar
  else if f.buf.length < f.n + len then .error .overflow
  else .ok ⟨copyMatch dist f.n len f.buf, f.n + len⟩

/-- The buffer as an output. -/
def output : Output Flat := ⟨put, putSlice, copy⟩

end Flat

/-- The window, how much was put through it, how much may be, and what the sink has made of it. -/
structure Ring (ρ : Type) where
  win : List UInt8
  n : Nat
  max : Nat
  state : ρ

namespace Ring

variable {ρ : Type} (sink : ρ → List UInt8 → ρ × Bool)

/-- Hands a piece to the sink, which may refuse it. -/
def flush (r : Ring ρ) (piece : List UInt8) : Except Error (Ring ρ) :=
  let s := sink r.state piece
  if s.2 then .ok { r with state := s.1 } else .error .sink

def put (r : Ring ρ) (b : UInt8) : Except Error (Ring ρ) :=
  if r.max ≤ r.n then .error .overflow
  else
    let r := { r with win := r.win.set (r.n % window) b, n := r.n + 1 }
    if r.n % window = 0 then r.flush sink r.win else .ok r

/-- A slice, byte by byte. -/
def putSlice (r : Ring ρ) (s : List UInt8) : Except Error (Ring ρ) :=
  s.foldlM (put sink) r

/-- `len` bytes from `dist` back, each read before its slot is written. -/
@[grind =] def repeatBack (dist : Nat) : (len : Nat) → Ring ρ → Except Error (Ring ρ)
  | 0, r => .ok r
  | len + 1, r => (r.put sink (r.win.getD ((r.n - dist) % window) 0)).bind (repeatBack dist len)

def copy (r : Ring ρ) (dist len : Nat) : Except Error (Ring ρ) :=
  if dist = 0 ∨ window < dist ∨ r.n < dist then .error .tooFar else repeatBack sink dist len r

/-- What is left in the window. -/
def flushTail (r : Ring ρ) : Except Error (Ring ρ) :=
  let fill := r.n % window
  if 0 < fill then r.flush sink (r.win.take fill) else .ok r

/-- The window as an output. -/
def output : Output (Ring ρ) := ⟨put sink, putSlice sink, copy sink⟩

end Ring

/-! ## Ways in -/

/-- Decompresses the stream `input` begins with into `out`: how much was written, how much of `input` the
stream occupied, and the buffer. -/
def inflateIntoPrefix (input out : List UInt8) : Except Error (Nat × Nat × List UInt8) :=
  (decodePrefix Flat.output input ⟨out, 0⟩).map fun r => (r.2.n, r.1, r.2.buf)

/-- Decompresses `input` into `out`: how much was written, and the buffer. -/
def inflateInto (input out : List UInt8) : Except Error (Nat × List UInt8) :=
  (inflateIntoPrefix input out).bind fun r =>
    if r.2.1 ≠ input.length then .error .trailing else .ok (r.1, r.2.2)

/-- Decompresses `input` through the window `win`, at most `maxOut` bytes: how many there were, and what
the sink has made of them. -/
def inflateTo {ρ : Type} (sink : ρ → List UInt8 → ρ × Bool) (input win : List UInt8) (maxOut : Nat)
    (state : ρ) : Except Error (Nat × ρ) :=
  (decode (Ring.output sink) input ⟨win, 0, maxOut, state⟩).bind fun r =>
    (r.flushTail sink).map fun r => (r.n, r.state)

/-- Decompresses `input` into a new buffer that must come out `size` bytes long. -/
def inflateVec (input : List UInt8) (size : Nat) : Except Error (List UInt8) :=
  (inflateInto input (List.replicate size 0)).bind fun r =>
    if r.1 ≠ size then .error .truncated else .ok r.2

/-! ## What an output was given -/

/-- A text of at most `max` bytes. -/
def text (max : Nat) : Output (List UInt8) where
  put t b := if t.length < max then .ok (t ++ [b]) else .error .overflow
  putSlice t s := if t.length + s.length ≤ max then .ok (t ++ s) else .error .overflow
  copy t dist len :=
    if dist = 0 ∨ t.length < dist then .error .tooFar
    else if max < t.length + len then .error .overflow
    else .ok (Lz.copy dist len t)

/-- The buffer was given `t`. -/
structure Filled (max : Nat) (f : Flat) (t : List UInt8) : Prop where
  n : f.n = t.length
  room : f.buf.length = max
  le : t.length ≤ max
  take : f.buf.take f.n = t

theorem filled_start (out : List UInt8) : Filled out.length ⟨out, 0⟩ [] :=
  ⟨rfl, rfl, Nat.zero_le _, rfl⟩

/-- A buffer takes everything as the text does. -/
theorem flat_simulates (max : Nat) : Simulates Flat.output (text max) (Filled max) where
  put := by
    intro f t h b
    obtain ⟨hn, hroom, hle, htake⟩ := h
    simp only [Flat.output, Flat.put, text, hn, hroom]
    split
    next hlt =>
      have hlen : (t ++ [b]).length = t.length + 1 := List.length_append
      have hput : (f.buf.set t.length b).take (t.length + 1) = t ++ [b] := by
        rw [hn] at htake
        rw [List.set_eq_take_append_cons_drop, if_pos (by omega), htake, List.take_length_add_append]
        rfl
      exact .ok ⟨hlen.symm, by rw [List.length_set, hroom], by omega, hput⟩
    next => exact .error _
  putSlice := by
    intro f t h s
    obtain ⟨hn, hroom, hle, htake⟩ := h
    simp only [Flat.output, Flat.putSlice, text, hn, hroom]
    split
    next hfit =>
      have hsplice : t.length + s.length ≤ f.buf.length := by omega
      refine .ok ⟨List.length_append.symm, by rw [length_splice hsplice, hroom], ?_, ?_⟩
      · rwa [List.length_append]
      · rw [take_splice hsplice, ← hn, htake]
    next => exact .error _
  copy := by
    intro f t h dist _ len
    obtain ⟨hn, hroom, hle, htake⟩ := h
    simp only [Flat.output, Flat.copy, text, hn, hroom]
    split
    · exact .error _
    next hdist =>
      split
      · exact .error _
      next hfit =>
        obtain ⟨hlen, hcopy⟩ := @take_copyMatch dist t.length len f.buf (by omega) (by omega) (by omega)
        have htext : (Lz.copy dist len t).length = t.length + len := length_copy (by omega) (by omega)
        exact .ok ⟨htext.symm, hlen.trans hroom, by omega, by rw [hcopy, ← hn, htake]⟩

section Ring

variable {ρ : Type} {sink : ρ → List UInt8 → ρ × Bool} {start : ρ} {max : Nat} {r : Ring ρ}
  {t : List UInt8}

/-- The window was given `t`: it holds the end of it, and the sink has had the pieces of the rest. -/
structure Streamed (sink : ρ → List UInt8 → ρ × Bool) (start : ρ) (max : Nat) (r : Ring ρ)
    (t : List UInt8) : Prop where
  n : r.n = t.length
  room : r.max = max
  le : t.length ≤ max
  size : r.win.length = window
  recent : ∀ i < t.length, t.length ≤ i + window → r.win[i % window]? = t[i]?
  sunk : ∃ pieces : List (List UInt8), r.state = pieces.foldl (fun s p => (sink s p).1) start ∧
    pieces.flatten = t.take (t.length - t.length % window)

theorem streamed_start {win : List UInt8} (hwin : win.length = window) :
    Streamed sink start max ⟨win, 0, max, start⟩ [] where
  n := rfl
  room := rfl
  le := Nat.zero_le _
  size := hwin
  recent i hi := absurd hi (Nat.not_lt_zero i)
  sunk := ⟨[], rfl, rfl⟩

/-- The filled part of the window is what the sink has not had. -/
theorem Streamed.tail (h : Streamed sink start max r t) :
    r.win.take (t.length % window) = t.drop (t.length - t.length % window) := by
  have hpos : 0 < window := by decide
  have hmod := Nat.mod_lt t.length hpos
  have hle := Nat.mod_le t.length window
  apply List.ext_getElem?
  intro i
  rw [List.getElem?_take, List.getElem?_drop]
  split
  next hi =>
    have hplace : (t.length - t.length % window + i) % window = i := by
      have hdiv := Nat.div_add_mod t.length window
      rw [show t.length - t.length % window + i = i + window * (t.length / window) by omega,
        Nat.add_mul_mod_self_left, Nat.mod_eq_of_lt (by omega)]
    rw [← h.recent _ (by omega) (by omega), hplace]
  next hi => rw [List.getElem?_eq_none (by omega)]

/-- A byte given to the ring, before the sink is. -/
theorem Streamed.recent_put (h : Streamed sink start max r t) (b : UInt8) (i : Nat)
    (hi : i < t.length + 1) (hlen : t.length + 1 ≤ i + window) :
    (r.win.set (t.length % window) b)[i % window]? = (t ++ [b])[i]? := by
  have hpos : 0 < window := by decide
  have hmod := Nat.mod_lt t.length hpos
  rcases Nat.lt_succ_iff_lt_or_eq.1 hi with hi | rfl
  · have hne : t.length % window ≠ i % window := by
      intro heq
      have hdvd : window ∣ t.length - i := (Nat.modEq_iff_dvd' hi.le).1 heq.symm
      have := Nat.le_of_dvd (by omega) hdvd
      omega
    rw [List.getElem?_set_ne hne, List.getElem?_append_left hi]
    exact h.recent i hi (by omega)
  · rw [List.getElem?_set_self (by rw [h.size]; exact hmod), List.getElem?_concat_length]

/-- A full window, and the places in it. -/
theorem full_window {n : Nat} (h : (n + 1) % window = 0) :
    window ≤ n + 1 ∧ n - n % window = n + 1 - window ∧ ∀ i < window, (n + 1 - window + i) % window = i := by
  rw [window] at *
  refine ⟨by omega, by omega, fun i hi => ?_⟩
  omega

/-- One more byte in a window that is not full. -/
theorem open_window {n : Nat} (h : (n + 1) % window ≠ 0) :
    n + 1 - (n + 1) % window = n - n % window := by
  rw [window] at *
  omega

/-- The ring takes a byte as the text does. -/
theorem Streamed.put (haccept : ∀ s p, (sink s p).2 = true) (h : Streamed sink start max r t)
    (b : UInt8) : Alike (Streamed sink start max) (r.put sink b) ((text max).put t b) := by
  rw [Ring.put, text, h.room, h.n]
  dsimp only
  by_cases hlt : t.length < max
  · rw [if_neg (Nat.not_le.2 hlt), if_pos hlt]
    have hlen : (t ++ [b]).length = t.length + 1 := List.length_append
    have hsize : (r.win.set (t.length % window) b).length = window := by rw [List.length_set, h.size]
    have hrecent := h.recent_put b
    obtain ⟨pieces, hstate, hpieces⟩ := h.sunk
    by_cases hfull : (t.length + 1) % window = 0
    · -- The sink has the window whole.
      obtain ⟨hle, hcut, hplace⟩ := full_window hfull
      have hwin : r.win.set (t.length % window) b = (t ++ [b]).drop (t.length + 1 - window) := by
        apply List.ext_getElem?
        intro i
        rw [List.getElem?_drop]
        by_cases hi : i < window
        · rw [← hrecent _ (by omega) (by omega), hplace i hi]
        · rw [List.getElem?_eq_none (by omega), List.getElem?_eq_none (by omega)]
      rw [if_pos hfull, Ring.flush]
      dsimp only
      rw [if_pos (haccept _ _)]
      refine .ok ⟨hlen.symm, rfl, by omega, hsize, by rwa [hlen], pieces ++ [r.win.set (t.length % window) b],
        ?_, ?_⟩
      · rw [List.foldl_append, ← hstate]
        rfl
      · have hhead : t.take (t.length + 1 - window) = (t ++ [b]).take (t.length + 1 - window) :=
          (List.take_append_of_le_length (by omega)).symm
        rw [List.flatten_append, hpieces, hcut, hlen, hfull, List.flatten_singleton, hwin, hhead,
          List.take_append_drop, Nat.sub_zero, ← hlen, List.take_length]
    · rw [if_neg hfull]
      refine .ok ⟨hlen.symm, rfl, by omega, hsize, by rwa [hlen], pieces, hstate, ?_⟩
      rw [hlen, open_window hfull, hpieces, List.take_append_of_le_length (Nat.sub_le _ _)]
  · rw [if_pos (Nat.le_of_not_lt hlt), if_neg hlt]
    exact .error _

/-- So it does a slice, if there is room for it. -/
theorem Streamed.putSlice (haccept : ∀ s p, (sink s p).2 = true) (h : Streamed sink start max r t)
    (s : List UInt8) : Alike (Streamed sink start max) (r.putSlice sink s) ((text max).putSlice t s) := by
  induction s generalizing r t with
  | nil =>
    rw [text]
    dsimp only
    rw [List.append_nil, List.length_nil, Nat.add_zero, if_pos h.le]
    exact .ok h
  | cons b s ih =>
    have hput := h.put haccept b
    rw [Ring.putSlice, List.foldlM_cons]
    generalize hr : r.put sink b = rr at hput
    generalize ht : (text max).put t b = rt at hput
    rw [text] at ht ⊢
    dsimp only at ht ⊢
    cases hput with
    | error e =>
      split at ht
      · cases ht
      · cases ht
        rw [if_neg (by rw [List.length_cons]; omega)]
        exact .error _
    | @ok r' t' h' =>
      split at ht
      · cases ht
        have hrest := ih h'
        rw [text] at hrest
        dsimp only at hrest
        rw [List.append_assoc, List.singleton_append, List.length_append, List.length_singleton] at hrest
        rw [List.length_cons, Nat.add_comm s.length, ← Nat.add_assoc]
        exact hrest
      · cases ht

/-- And a copy, byte by byte. -/
theorem Streamed.repeatBack (haccept : ∀ s p, (sink s p).2 = true) {dist : Nat} (hd : 0 < dist)
    (hw : dist ≤ window) (len : Nat) (h : Streamed sink start max r t) (ht : dist ≤ t.length) :
    Alike (Streamed sink start max) (Ring.repeatBack sink dist len r)
      (if max < t.length + len then .error .overflow else .ok (Lz.copy dist len t)) := by
  induction len generalizing r t with
  | zero =>
    rw [Nat.add_zero, if_neg (Nat.not_lt.2 h.le)]
    exact .ok h
  | succ len ih =>
    have hlast : r.win.getD ((r.n - dist) % window) 0 = t[t.length - dist] := by
      rw [h.n, List.getD_eq_getElem?_getD, h.recent _ (by omega) (by omega), List.getElem?_eq_getElem (by omega)]
      rfl
    have hput := h.put haccept t[t.length - dist]
    rw [Ring.repeatBack, hlast]
    generalize hr : r.put sink t[t.length - dist] = rr at hput
    generalize hrt : (text max).put t t[t.length - dist] = rt at hput
    rw [text] at hrt
    dsimp only at hrt
    cases hput with
    | error e =>
      split at hrt
      · cases hrt
      · cases hrt
        rw [if_pos (by omega)]
        exact .error _
    | @ok r' t' h' =>
      split at hrt
      · cases hrt
        have hrest := ih h' (by rw [List.length_append]; omega)
        rw [List.length_append, List.length_singleton] at hrest
        rw [copy_succ, toList_getElem? (by omega), Nat.add_comm len, ← Nat.add_assoc]
        exact hrest
      · cases hrt

/-- A ring takes everything as the text does, when its sink accepts everything. -/
theorem ring_simulates (haccept : ∀ s p, (sink s p).2 = true) :
    Simulates (Ring.output sink) (text max) (Streamed sink start max) where
  put h b := h.put haccept b
  putSlice h s := h.putSlice haccept s
  copy := by
    intro r t h dist hw len
    simp only [Ring.output, Ring.copy, text, h.n]
    split
    next hbad =>
      rw [if_pos (by omega)]
      exact .error _
    next hgood =>
      rw [if_neg (by omega)]
      exact h.repeatBack haccept (by omega) hw len (by omega)

/-- The sink has had all of the text, once the tail is flushed. -/
theorem Streamed.flushTail (haccept : ∀ s p, (sink s p).2 = true) (h : Streamed sink start max r t) :
    ∃ r', r.flushTail sink = .ok r' ∧ r'.n = t.length ∧
      ∃ pieces : List (List UInt8), r'.state = pieces.foldl (fun s p => (sink s p).1) start ∧
        pieces.flatten = t := by
  obtain ⟨pieces, hstate, hpieces⟩ := h.sunk
  rw [Ring.flushTail, h.n]
  split
  · rw [Ring.flush, if_pos (haccept _ _)]
    refine ⟨_, rfl, h.n, pieces ++ [r.win.take (t.length % window)], ?_, ?_⟩
    · rw [List.foldl_append, ← hstate]
      rfl
    · rw [List.flatten_append, List.flatten_singleton, hpieces, h.tail, List.take_append_drop]
  next hfill =>
    refine ⟨r, rfl, h.n, pieces, hstate, ?_⟩
    rw [hpieces, Nat.eq_zero_of_not_pos hfill, Nat.sub_zero, List.take_length]

end Ring

/-! ## Agreement -/

theorem inflateInto_eq (input out : List UInt8) :
    inflateInto input out = (decode Flat.output input ⟨out, 0⟩).map fun f => (f.n, f.buf) := by
  rw [inflateInto, inflateIntoPrefix, decode]
  cases decodePrefix Flat.output input ⟨out, 0⟩ with
  | error e => rfl
  | ok r =>
    simp only [Except.map, Except.bind]
    split <;> rfl

/-- The buffer is filled with the text the stream decodes to. -/
theorem inflateInto_text (input out : List UInt8) :
    Alike (fun r t => r.1 = t.length ∧ r.2.length = out.length ∧ r.2.take r.1 = t)
      (inflateInto input out) (decode (text out.length) input []) := by
  have hflat := decode_alike (flat_simulates out.length) input (filled_start out)
  rw [inflateInto_eq]
  generalize decode Flat.output input ⟨out, 0⟩ = f at hflat ⊢
  generalize decode (text out.length) input [] = t at hflat ⊢
  cases hflat with
  | error e => exact .error e
  | ok hf => exact .ok ⟨hf.n, hf.room, hf.take⟩

/-- A sink that accepts everything is given, in pieces, the text the stream decodes to. -/
theorem inflateTo_text {ρ : Type} {sink : ρ → List UInt8 → ρ × Bool} (haccept : ∀ s p, (sink s p).2 = true)
    (input : List UInt8) {win : List UInt8} (hwin : win.length = window) (max : Nat) (start : ρ) :
    Alike (fun r t => r.1 = t.length ∧ ∃ pieces : List (List UInt8),
        r.2 = pieces.foldl (fun s p => (sink s p).1) start ∧ pieces.flatten = t)
      (inflateTo sink input win max start) (decode (text max) input []) := by
  have hring := decode_alike (@ring_simulates ρ sink start max haccept) input
    (@streamed_start ρ sink start max win hwin)
  rw [inflateTo]
  generalize decode (Ring.output sink) input ⟨win, 0, max, start⟩ = r at hring ⊢
  generalize decode (text max) input [] = t at hring ⊢
  cases hring with
  | error e => exact .error e
  | ok hr =>
    obtain ⟨r', hflush, hn, hpieces⟩ := hr.flushTail haccept
    simp only [Except.bind, hflush, Except.map]
    exact .ok ⟨hn, hpieces⟩

end NanoChrono.Deflate
