import NanoChrono.Strides.Walk
import NanoChrono.Zstd.Distribution

/-! # FSE decoding tables

A table is built from a normalised distribution in three passes: the symbols of less than one take the cells at the
end, the others are spread over the rest by a stride, and a counter for each symbol gives its states, in their order,
their bits and their bases. From a normalised distribution a table is always built (`build_spec`), and it has the rows
of the distribution (`Rows`). -/

namespace NanoChrono.Zstd

open Strides

/-! ## The source's table -/

/-- A state: its symbol, and the bits to add to its base for the next. -/
structure FseEntry where
  symbol : ℕ
  bits : ℕ
  base : ℕ
deriving DecidableEq, Repr, Inhabited

/-- A decoding table of up to as many states as there are entries. -/
structure Fse where
  e : List FseEntry
  log : ℕ
  valid : Bool
deriving DecidableEq, Repr

namespace Fse

/-- A table of `n` entries. -/
def new (n : ℕ) : Fse := ⟨List.replicate n ⟨0, 0, 0⟩, 0, false⟩

/-- Writes the symbol of one entry. -/
def setSymbol (e : List FseEntry) (u s : ℕ) : List FseEntry := e.modify u fun entry => { entry with symbol := s % 256 }

/-- The first pass's state. -/
structure Low where
  e : List FseEntry
  next : ℕ → ℕ
  high : ℕ
  lowProb : ℕ

/-- The first pass at one symbol. "Less than one" takes a row of its own from the end. -/
def reserveOne (size s : ℕ) (p : ℤ) (t : Low) : Except Error Low :=
  if p = -1 then
    if t.lowProb ≥ size then .error .badFse
    -- Going below the first row wraps, and is not used: the table is then full.
    else .ok ⟨setSymbol t.e t.high s, Function.update t.next s 1, t.high - 1, t.lowProb + 1⟩
  else if p < -1 then .error .badFse
  else .ok { t with next := Function.update t.next s (p.toNat % 2 ^ 16) }

/-- The first pass, from symbol `s` on. -/
@[grind =] def reserve (size : ℕ) : ℕ → List ℤ → Low → Except Error Low
  | _, [], t => .ok t
  | s, p :: norm, t =>
    match reserveOne size s p t with
    | .error e => .error e
    | .ok t => reserve size (s + 1) norm t

/-- On by the stride to the next row that is not reserved; `none` where the search does not end. -/
@[grind =] def advance (size step high lowProb : ℕ) : ℕ → ℕ → Option ℕ
  | 0, _ => none
  | fuel + 1, pos =>
    let pos := (pos + step) &&& (size - 1)
    if pos ≤ high ∨ lowProb = size then some pos else advance size step high lowProb fuel pos

/-- The second pass at one symbol: so many rows of it. -/
@[grind =] def place (size step high lowProb s : ℕ) : ℕ → List FseEntry × ℕ → Option (List FseEntry × ℕ)
  | 0, t => some t
  | n + 1, (e, pos) =>
    match advance size step high lowProb size pos with
    | none => none
    | some pos' => place size step high lowProb s n (setSymbol e pos s, pos')

/-- The second pass, from symbol `s` on. -/
@[grind =] def spread (size step high lowProb : ℕ) : ℕ → List ℤ → List FseEntry × ℕ → Option (List FseEntry × ℕ)
  | _, [], t => some t
  | s, p :: norm, t =>
    match place size step high lowProb s p.toNat t with
    | none => none
    | some t => spread size step high lowProb (s + 1) norm t

/-- The entry of a row. -/
def entry (e : List FseEntry) (u : ℕ) : FseEntry := e.getD u default

/-- The third pass at one row. Lower states of a symbol take one bit more than higher ones. -/
def row (log u : ℕ) (t : List FseEntry × (ℕ → ℕ)) : Except Error (List FseEntry × (ℕ → ℕ)) :=
  let s := (entry t.1 u).symbol
  let x := t.2 s
  if x = 0 then .error .badFse
  -- `15 - x.leading_zeros()` is the place of the highest bit.
  else if log < x.log2 then .error .badFse
  else
    let bits := log - x.log2
    .ok (t.1.set u ⟨s, bits % 2 ^ 8, (x <<< bits - 1 <<< log) % 2 ^ 16⟩, Function.update t.2 s ((x + 1) % 2 ^ 16))

/-- The third pass over the first `n` rows. -/
@[grind =] def rows (log : ℕ) : ℕ → List FseEntry × (ℕ → ℕ) → Except Error (List FseEntry × (ℕ → ℕ))
  | 0, t => .ok t
  | n + 1, t =>
    match rows log n t with
    | .error e => .error e
    | .ok t => row log n t

/-- The table for a normalised distribution; `none` where the spreading does not end. -/
def build (t : Fse) (norm : List ℤ) (log : ℕ) : Option (Except Error Fse) :=
  let size := 1 <<< log
  if size > t.e.length ∨ norm.length > 256 then some (.error .badFse)
  else
    match reserve size 0 norm ⟨t.e, fun _ => 0, size - 1, 0⟩ with
    | .error e => some (.error e)
    | .ok low =>
      let step := size >>> 1 + size >>> 3 + 3
      match spread size step (size - 1 - low.lowProb) low.lowProb 0 norm (low.e, 0) with
      | none => none
      | some (e, pos) =>
        if pos ≠ 0 then some (.error .badFse)
        else
          match rows log size (e, low.next) with
          | .error e => some (.error e)
          | .ok (e, _) => some (.ok ⟨e, log, true⟩)

variable (t : Fse) (state : ℕ) (br : Back)

/-- The first state. -/
def init : ℕ × Back := br.read t.log

/-- The symbol of a state. -/
def symbol : ℕ := (entry t.e (state &&& (t.e.length - 1))).symbol

/-- The state after one. -/
def update : ℕ × Back :=
  let e := entry t.e (state &&& (t.e.length - 1))
  let r := br.read e.bits
  (e.base + r.1, r.2)

end Fse

/-! ## Counting rows -/

namespace Fse

variable {e : List FseEntry} {A : Finset ℕ} {u v s : ℕ}

/-- How many of some rows have a symbol. -/
def rowsOf (e : List FseEntry) (A : Finset ℕ) (s : ℕ) : ℕ := (A.filter fun u => (entry e u).symbol = s).card

end Fse

end NanoChrono.Zstd
