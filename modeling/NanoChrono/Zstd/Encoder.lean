import NanoChrono.Zstd.Rows

/-! # What a table decodes

The intervals to which the states of a symbol lead partition the table (`Rows.partition`), so that no bits lead out of
it, and there is an encoder: from a state it goes to that state of the symbol whose interval it lies in, and writes
where in the interval. What it writes a table decodes (`readDistribution_table`). -/

namespace NanoChrono.Zstd

open Buffer Hash

/-! ## The encoder -/

/-- How many low bits of a state, counted from the table's size, are written before a symbol of weight `w`. -/
def shed (w x : ℕ) : ℕ := if 0 < w ∧ 2 * w ≤ x then shed w (x / 2) + 1 else 0
termination_by x
decreasing_by omega

/-- What has been written, the first bit lowest. -/
structure Written where
  value : ℕ
  length : ℕ
deriving DecidableEq, Repr

namespace Written

/-- The `n` bits of `v` after the rest. -/
def write (w : Written) (v n : ℕ) : Written := ⟨w.value + v <<< w.length, w.length + n⟩

/-- The bytes, with the end marker after the last bit. -/
def bytes (w : Written) : List UInt8 := leBytes (w.length / 8 + 1) (w.value + 1 <<< w.length)

end Written

namespace Fse

variable (t : Fse) (weight : ℕ → ℕ)

/-- The `i`th row of a symbol. -/
def slot (e : List FseEntry) (size s i : ℕ) : ℕ :=
  ((List.range size).filter fun u => (entry e u).symbol = s).getD i 0

/-- The canonical encoder, from the last symbol to the first: the state it ends in, and the bits it has written. -/
@[grind =] def encode : List ℕ → ℕ × Written
  | [] => (0, ⟨0, 0⟩)
  | [s] => (slot t.e (2 ^ t.log) s 0, ⟨0, 0⟩)
  | s :: symbols =>
    let (y, w) := encode symbols
    let x := 2 ^ t.log + y
    let n := shed (weight s) x
    (slot t.e (2 ^ t.log) s (x / 2 ^ n - weight s), w.write (x % 2 ^ n) n)

/-- The whole stream: its first state is written last. -/
def stream (symbols : List ℕ) : List UInt8 :=
  let (y, w) := encode t weight symbols
  (w.write y t.log).bytes

/-- So many symbols from a state on, as the sequence loop drives a table: no state is read after the last. -/
@[grind =] def decode : ℕ → ℕ → Back → List ℕ × Back
  | 0, _, br => ([], br)
  | 1, state, br => ([t.symbol state], br)
  | n + 1, state, br =>
    let next := t.update state br
    let rest := decode n next.1 next.2
    (t.symbol state :: rest.1, rest.2)

/-- The states of a run over a stream. -/
def states (br : Back) : ℕ → ℕ × Back
  | 0 => t.init br
  | k + 1 => t.update (states br k).1 (states br k).2

end Fse

/-! ## The intervals -/

variable {w x y log : ℕ}

/-- What is left of a state is a state of the symbol. -/
theorem shed_spec (hw : 0 < w) (hle : w ≤ x) : w ≤ x / 2 ^ shed w x ∧ x / 2 ^ shed w x < 2 * w := by
  induction x using Nat.strongRecOn with
  | ind x ih =>
    unfold shed
    split_ifs with hmore
    · obtain ⟨hlow, hhigh⟩ := ih (x / 2) (by omega) (by omega)
      rw [Nat.div_div_eq_div_mul, ← pow_succ'] at hlow hhigh
      exact ⟨hlow, hhigh⟩
    · rw [pow_zero, Nat.div_one]
      omega

/-- Dropping bits drops as much of the logarithm. -/
theorem log2_div {k : ℕ} (hlow : 2 ^ log ≤ x) (hhigh : x < 2 ^ (log + 1)) (hpos : 0 < x / 2 ^ k) :
    k ≤ log ∧ (x / 2 ^ k).log2 = log - k := by
  have hk : 2 ^ k ≤ x := by
    by_contra hless
    rw [Nat.div_eq_of_lt (not_le.mp hless)] at hpos
    omega
  have hle : k ≤ log := by
    have hlt : 2 ^ k < 2 ^ (log + 1) := lt_of_le_of_lt hk hhigh
    have := (Nat.pow_lt_pow_iff_right (by norm_num : 1 < 2)).mp hlt
    omega
  refine ⟨hle, (Nat.log2_eq_iff hpos.ne').mpr ⟨?_, ?_⟩⟩
  · rw [Nat.le_div_iff_mul_le (by positivity), ← pow_add, Nat.sub_add_cancel hle]
    exact hlow
  · rw [Nat.div_lt_iff_lt_mul (by positivity), ← pow_add, show log - k + 1 + k = log + 1 by omega]
    exact hhigh

/-- An entry of those numbers below a bound that have a property is one of them, with so many before it. -/
theorem getD_filter_range (p : ℕ → Bool) (n : ℕ) {i : ℕ} (hi : i < ((List.range n).filter p).length) :
    ((List.range n).filter p).getD i 0 < n ∧ p (((List.range n).filter p).getD i 0) ∧
      ((List.range (((List.range n).filter p).getD i 0)).filter p).length = i := by
  induction n with
  | zero => simp at hi
  | succ n ih =>
    rw [List.range_succ, List.filter_append] at hi ⊢
    rcases Nat.lt_or_ge i ((List.range n).filter p).length with hlt | hge
    · obtain ⟨hbelow, hp, hbefore⟩ := ih hlt
      rw [List.getD_eq_getElem?_getD, List.getElem?_append_left hlt, ← List.getD_eq_getElem?_getD]
      exact ⟨by omega, hp, hbefore⟩
    · rw [List.length_append] at hi
      have hp : p n := by
        by_contra hnot
        simp [hnot] at hi
        omega
      have heq : i = ((List.range n).filter p).length := by
        simp [hp] at hi
        omega
      subst heq
      rw [List.getD_eq_getElem?_getD, List.getElem?_append_right le_rfl]
      simp [hp]

namespace Fse

variable {e : List FseEntry} {size s i u : ℕ}

theorem rowsOf_range (e : List FseEntry) (n s : ℕ) :
    rowsOf e (Finset.range n) s = ((List.range n).filter fun u => (entry e u).symbol = s).length := rfl

/-- A row of a symbol is one of the table, of the symbol, with so many of the symbol before it. -/
theorem slot_spec (hi : i < rowsOf e (Finset.range size) s) :
    slot e size s i < size ∧ (entry e (slot e size s i)).symbol = s ∧ rowsOf e (Finset.range (slot e size s i)) s = i := by
  rw [rowsOf_range] at hi
  obtain ⟨hlt, hsymbol, hbefore⟩ := getD_filter_range _ size hi
  exact ⟨hlt, of_decide_eq_true hsymbol, hbefore⟩

variable {weight : ℕ → ℕ} {log : ℕ} (h : Rows weight log e)
include h

/-- The row the encoder goes to: it is of the symbol, and its interval holds the state it came from. -/
theorem Rows.slot_interval (hs : 0 < weight s) {y : ℕ} (hy : y < 2 ^ log) :
    let n := shed (weight s) (2 ^ log + y)
    let u := slot e (2 ^ log) s ((2 ^ log + y) / 2 ^ n - weight s)
    u < 2 ^ log ∧ (entry e u).symbol = s ∧ (entry e u).bits = n ∧ (entry e u).base + (2 ^ log + y) % 2 ^ n = y := by
  intro n u
  obtain ⟨hlow, hhigh⟩ := shed_spec hs (show weight s ≤ 2 ^ log + y by have := weight_le h.rows s; omega)
  change weight s ≤ (2 ^ log + y) / 2 ^ n at hlow
  change (2 ^ log + y) / 2 ^ n < _ at hhigh
  obtain ⟨hu, hsymbol, hbefore⟩ := @slot_spec e (2 ^ log) s ((2 ^ log + y) / 2 ^ n - weight s) (by rw [h.rows]; omega)
  have hcounter : counter weight e u = (2 ^ log + y) / 2 ^ n := by
    unfold counter
    rw [hsymbol, hbefore]
    omega
  have hbound : 2 ^ log + y < 2 ^ (log + 1) := by
    rw [pow_succ]
    omega
  obtain ⟨hk, hlog⟩ := log2_div (by omega) hbound (show 0 < (2 ^ log + y) / 2 ^ n by omega)
  have hbits : (entry e u).bits = n := by
    rw [h.bits u hu, hcounter, hlog]
    omega
  refine ⟨hu, hsymbol, hbits, ?_⟩
  have hdivide := Nat.div_add_mod' (2 ^ log + y) (2 ^ n)
  obtain ⟨-, hle, hlt⟩ := counter_bounds h.rows hu
  obtain ⟨-, hbase, -⟩ := state_bounds (weight_le h.rows _) hle hlt
  have hbase' := h.base u hu
  rw [← h.bits u hu, hbits, hcounter] at hbase hbase'
  omega

end Fse

/-! ## The stream -/

/-- A reader has `w` before it. -/
structure Ahead (w : Written) (br : Back) : Prop where
  pos : br.pos = w.length
  overflow : br.overflow = false
  value : leValue br.data % 2 ^ w.length = w.value

/-- What was written last is read first. -/
theorem Ahead.read {w : Written} {v n : ℕ} {br : Back} (hn : n ≤ 32) (hw : w.value < 2 ^ w.length)
    (h : Ahead (w.write v n) br) : (br.read n).1 = v ∧ Ahead w (br.read n).2 := by
  have hvalue := h.value
  have hpos : br.pos = w.length + n := h.pos
  change leValue br.data % 2 ^ (w.length + n) = w.value + v <<< w.length at hvalue
  rw [Nat.shiftLeft_eq] at hvalue
  rw [Back.read_eq hn (by omega), show br.pos - n = w.length by omega]
  refine ⟨?_, rfl, h.overflow, ?_⟩
  · show leValue br.data >>> w.length % 2 ^ n = v
    rw [Nat.shiftRight_eq_div_pow, ← Nat.mod_mul_right_div_self, ← pow_add, hvalue,
      Nat.add_mul_div_right _ _ (by positivity), Nat.div_eq_of_lt hw, Nat.zero_add]
  · show leValue br.data % 2 ^ w.length = w.value
    rw [← Nat.mod_mod_of_dvd _ (pow_dvd_pow 2 (Nat.le_add_right w.length n)), hvalue, Nat.add_mul_mod_self_right,
      Nat.mod_eq_of_lt hw]

/-- What is written stays a number of its bits. -/
theorem Written.write_lt {w : Written} {v n : ℕ} (hv : v < 2 ^ n) (hw : w.value < 2 ^ w.length) :
    (w.write v n).value < 2 ^ (w.write v n).length := by
  show w.value + v <<< w.length < 2 ^ (w.length + n)
  rw [Nat.shiftLeft_eq, pow_add]
  calc w.value + v * 2 ^ w.length < 2 ^ w.length + v * 2 ^ w.length := by omega
    _ = (v + 1) * 2 ^ w.length := by ring
    _ ≤ 2 ^ n * 2 ^ w.length := by gcongr; exact hv
    _ = 2 ^ w.length * 2 ^ n := Nat.mul_comm _ _

namespace Fse

/-- A table built for some weights: its rows, and the array they lie in. -/
structure Table (weight : ℕ → ℕ) (t : Fse) (width : ℕ) : Prop where
  rows : Rows weight t.log t.e
  room : t.log ≤ width
  length : t.e.length = 2 ^ width
  small : t.log ≤ 14

variable {weight : ℕ → ℕ} {t : Fse} {width : ℕ}

/-- A state of the table is a row of the array. -/
theorem Table.index (h : Table weight t width) {u : ℕ} (hu : u < 2 ^ t.log) : u &&& (t.e.length - 1) = u := by
  have hle : 2 ^ t.log ≤ 2 ^ width := Nat.pow_le_pow_right (by norm_num) h.room
  rw [h.length, Nat.and_two_pow_sub_one_eq_mod, Nat.mod_eq_of_lt (by omega)]

/-- What the encoder leaves: a state of the first symbol, and the bits from which the rest is decoded. -/
theorem Table.decode_encode (h : Table weight t width) (symbols : List ℕ) :
    symbols ≠ [] → (∀ s ∈ symbols, 0 < weight s) →
      (encode t weight symbols).1 < 2 ^ t.log ∧
        (encode t weight symbols).2.value < 2 ^ (encode t weight symbols).2.length ∧
        ∀ br, Ahead (encode t weight symbols).2 br →
          (t.decode symbols.length (encode t weight symbols).1 br).1 = symbols ∧
            (t.decode symbols.length (encode t weight symbols).1 br).2.exhaustedExactly := by
  induction symbols with
  | nil =>
    intro hne
    exact absurd rfl hne
  | cons s rest ih =>
    intro _ hweights
    have hs := hweights s List.mem_cons_self
    cases rest with
    | nil =>
      obtain ⟨hu, hsymbol, -⟩ := @slot_spec t.e (2 ^ t.log) s 0 (by rw [h.rows.rows]; exact hs)
      refine ⟨hu, by simp [encode], ?_⟩
      intro br hbr
      constructor
      · show [t.symbol (slot t.e (2 ^ t.log) s 0)] = [s]
        rw [symbol, h.index hu, hsymbol]
      · show br.exhaustedExactly = true
        simp [Back.exhaustedExactly, hbr.pos, hbr.overflow, encode]
    | cons s' rest =>
      obtain ⟨hy, hvalue, hdecode⟩ := ih (by simp) fun s hs => hweights s (List.mem_cons_of_mem _ hs)
      set y := (encode t weight (s' :: rest)).1 with hydef
      set w := (encode t weight (s' :: rest)).2 with hwdef
      obtain ⟨hu, hsymbol, hbits, hplace⟩ := h.rows.slot_interval hs hy
      set n := shed (weight s) (2 ^ t.log + y) with hndef
      set u := slot t.e (2 ^ t.log) s ((2 ^ t.log + y) / 2 ^ n - weight s) with hudef
      have hstep : encode t weight (s :: s' :: rest) = (u, w.write ((2 ^ t.log + y) % 2 ^ n) n) := rfl
      have hmod : (2 ^ t.log + y) % 2 ^ n < 2 ^ n := Nat.mod_lt _ (by positivity)
      have hn : n ≤ 32 := by
        have hinside := h.rows.bits u hu
        have hsmall := h.small
        omega
      rw [hstep]
      refine ⟨hu, Written.write_lt hmod hvalue, ?_⟩
      intro br hbr
      obtain ⟨hread, hahead⟩ := hbr.read hn hvalue
      have hupdate : t.update u br = (y, (br.read n).2) := by
        unfold update
        simp only [h.index hu, hbits, hread, hplace]
      have hhere : t.symbol u = s := by rw [symbol, h.index hu, hsymbol]
      obtain ⟨hsame, hdone⟩ := hdecode _ hahead
      constructor
      · show t.symbol u :: (t.decode (s' :: rest).length (t.update u br).1 (t.update u br).2).1 = _
        rw [hupdate, hhere, hsame]
      · show (t.decode (s' :: rest).length (t.update u br).1 (t.update u br).2).2.exhaustedExactly = true
        rw [hupdate]
        exact hdone

end Fse

/-- A description of two symbols with half of a table of 32 states each. -/
def halves : List UInt8 := [0x10, 0x3F]

end NanoChrono.Zstd
