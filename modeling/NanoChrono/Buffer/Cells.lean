import Mathlib.Control.Monad.Writer
import Mathlib.Tactic

/-! # Slices of cells

A program that indexes a slice ends, or it panics. `Ran` is the outcome of such a program with the cells it used,
and `Ends` says that it ends, that each use was an allowed one and that its result has a property; it composes like
the program does (`Ends.bind`, `Ends.foldlM`). The operations on a slice come with what they use and what they
leave. -/

namespace NanoChrono.Buffer

/-- A cell that was read or written. -/
inductive Use where
  | read (i : Nat)
  | write (i : Nat)
deriving DecidableEq, Repr

/-- The result of a program with the cells it used, or nothing where it panics. -/
abbrev Ran := WriterT (List Use) Option

/-- A program ends, has only used what was allowed, and its result is as promised. -/
def Ends {α : Type} (ok : Use → Prop) (post : α → Prop) (x : Ran α) : Prop :=
  ∃ a used, x.run = some (a, used) ∧ (∀ u ∈ used, ok u) ∧ post a

section Ends

variable {α β : Type} {ok : Use → Prop}

theorem Ends.pure {post : α → Prop} {a : α} (h : post a) : Ends ok post (Pure.pure a : Ran α) :=
  ⟨a, [], rfl, fun _ hu => absurd hu List.not_mem_nil, h⟩

theorem Ends.bind {p : α → Prop} {post : β → Prop} {x : Ran α} {f : α → Ran β} (hx : Ends ok p x)
    (hf : ∀ a, p a → Ends ok post (f a)) : Ends ok post (x >>= f) := by
  obtain ⟨a, used, hrun, hused, hmid⟩ := hx
  obtain ⟨b, used', hrun', hused', hpost⟩ := hf a hmid
  refine ⟨b, used ++ used', ?_, ?_, hpost⟩
  · show (x.run >>= fun y => (fun z => (z.1, y.2 ++ z.2)) <$> (f y.1).run) = _
    rw [hrun]
    show (fun z : β × List Use => (z.1, used ++ z.2)) <$> (f a).run = _
    rw [hrun']
    rfl
  · intro u hu
    exact (List.mem_append.mp hu).elim (hused u) (hused' u)

theorem Ends.mono {ok' : Use → Prop} {post post' : α → Prop} {x : Ran α} (hx : Ends ok post x)
    (hok : ∀ u, ok u → ok' u) (hpost : ∀ a, post a → post' a) : Ends ok' post' x := by
  obtain ⟨a, used, hrun, hused, ha⟩ := hx
  exact ⟨a, used, hrun, fun u hu => hok u (hused u hu), hpost a ha⟩

/-- A loop keeps what each of its rounds keeps. -/
theorem Ends.foldlM {p : α → Prop} {f : α → β → Ran α} (xs : List β)
    (hf : ∀ a, ∀ x ∈ xs, p a → Ends ok p (f a x)) : ∀ {a : α}, p a → Ends ok p (xs.foldlM f a) := by
  induction xs with
  | nil => exact fun ha => Ends.pure ha
  | cons x xs ih =>
    intro a ha
    rw [List.foldlM_cons]
    exact (hf a x List.mem_cons_self ha).bind fun b hb =>
      ih (fun a y hy => hf a y (List.mem_cons_of_mem x hy)) hb

/-- A counted loop keeps what each of its rounds carries to the next. -/
theorem Ends.foldlM_range' {p : Nat → α → Prop} {f : α → Nat → Ran α} (n : Nat) : ∀ {start : Nat} {a : α}, p start a →
    (∀ k a, start ≤ k → k < start + n → p k a → Ends ok (p (k + 1)) (f a k)) →
    Ends ok (p (start + n)) ((List.range' start n).foldlM f a) := by
  induction n with
  | zero => exact fun ha _ => Ends.pure ha
  | succ n ih =>
    intro start a ha hf
    rw [List.range'_succ, List.foldlM_cons]
    refine (hf start a (Nat.le_refl start) (by omega) ha).bind fun b hb => ?_
    have hrest := ih hb fun k a hle hlt => hf k a (by omega) (by omega)
    rwa [show start + 1 + n = start + (n + 1) by omega] at hrest

end Ends

/-- A slice: its length and its cells. -/
structure Cells (α : Type) where
  len : Nat
  cell : Nat → α

namespace Cells

variable {α : Type}

/-- The cells of a range, all the same. -/
def filled (s : Cells α) (start stop : Nat) (v : α) : Cells α :=
  { s with cell := fun i => if start ≤ i ∧ i < stop then v else s.cell i }

/-- The cells of a range, moved. -/
def moved (s : Cells α) (start stop dest : Nat) : Cells α :=
  { s with cell := fun i => if dest ≤ i ∧ i < dest + (stop - start) then s.cell (start + (i - dest)) else s.cell i }

/-- The cells of a range, from elsewhere. -/
def written (s : Cells α) (dest n : Nat) (line : Nat → α) : Cells α :=
  { s with cell := fun i => if dest ≤ i ∧ i < dest + n then line (i - dest) else s.cell i }

@[simp] theorem filled_len (s : Cells α) (start stop : Nat) (v : α) : (s.filled start stop v).len = s.len := rfl

@[simp] theorem written_len (s : Cells α) (dest n : Nat) (line : Nat → α) : (s.written dest n line).len = s.len := rfl

/-- The writes of a range. -/
def writes (start stop : Nat) : List Use := (List.range' start (stop - start)).map .write

def reads (start stop : Nat) : List Use := (List.range' start (stop - start)).map .read

/-- `s[i] = v`. -/
def set (s : Cells α) (i : Nat) (v : α) : Ran (Cells α) :=
  if i < s.len then WriterT.mk (some (s.filled i (i + 1) v, [.write i])) else WriterT.mk none

/-- `for i in start..stop { s[i] = v }`. -/
def fillEach (s : Cells α) (start stop : Nat) (v : α) : Ran (Cells α) :=
  if stop ≤ start then pure s
  else if stop ≤ s.len then WriterT.mk (some (s.filled start stop v, writes start stop))
  else WriterT.mk none

/-- `for cell in s[start..stop].iter_mut() { *cell = v }`. -/
def fillSlice (s : Cells α) (start stop : Nat) (v : α) : Ran (Cells α) :=
  if start ≤ stop ∧ stop ≤ s.len then WriterT.mk (some (s.filled start stop v, writes start stop))
  else WriterT.mk none

/-- `s.copy_within(start..stop, dest)`. -/
def copyWithin (s : Cells α) (start stop dest : Nat) : Ran (Cells α) :=
  if start ≤ stop ∧ stop ≤ s.len ∧ dest + (stop - start) ≤ s.len then
    WriterT.mk (some (s.moved start stop dest, reads start stop ++ writes dest (dest + (stop - start))))
  else WriterT.mk none

/-- `for c in 0..n { line[c] = s[start + c] }`. -/
def readEach (s : Cells α) (start n : Nat) : Ran (Nat → α) :=
  if n = 0 ∨ start + n ≤ s.len then WriterT.mk (some (fun c => s.cell (start + c), reads start (start + n)))
  else WriterT.mk none

/-- `s[dest..dest + n].copy_from_slice(&line[..n])`. -/
def copyFromSlice (s : Cells α) (dest n : Nat) (line : Nat → α) : Ran (Cells α) :=
  if dest + n ≤ s.len then WriterT.mk (some (s.written dest n line, writes dest (dest + n)))
  else WriterT.mk none

section

variable {ok : Use → Prop} {post : Cells α → Prop} {s : Cells α}

theorem ok_writes {start stop : Nat} (h : ∀ i, start ≤ i → i < stop → ok (.write i)) : ∀ u ∈ writes start stop, ok u := by
  intro u hu
  obtain ⟨i, hi, rfl⟩ := List.mem_map.mp hu
  obtain ⟨hle, hlt⟩ := List.mem_range'_1.mp hi
  exact h i hle (by omega)

theorem ok_reads {start stop : Nat} (h : ∀ i, start ≤ i → i < stop → ok (.read i)) : ∀ u ∈ reads start stop, ok u := by
  intro u hu
  obtain ⟨i, hi, rfl⟩ := List.mem_map.mp hu
  obtain ⟨hle, hlt⟩ := List.mem_range'_1.mp hi
  exact h i hle (by omega)

theorem ends_set {i : Nat} {v : α} (hlen : i < s.len) (hok : ok (.write i)) (hpost : post (s.filled i (i + 1) v)) :
    Ends ok post (s.set i v) := by
  rw [set, if_pos hlen]
  refine ⟨_, _, rfl, ?_, hpost⟩
  intro u hu
  obtain rfl := List.mem_singleton.mp hu
  exact hok

theorem ends_fillEach {start stop : Nat} {v : α} (hlen : stop ≤ s.len)
    (hok : ∀ i, start ≤ i → i < stop → ok (.write i)) (hnone : post s) (hpost : post (s.filled start stop v)) :
    Ends ok post (s.fillEach start stop v) := by
  rw [fillEach]
  by_cases hempty : stop ≤ start
  · rw [if_pos hempty]
    exact Ends.pure hnone
  · rw [if_neg hempty, if_pos hlen]
    exact ⟨_, _, rfl, ok_writes hok, hpost⟩

theorem ends_fillSlice {start stop : Nat} {v : α} (hrange : start ≤ stop) (hlen : stop ≤ s.len)
    (hok : ∀ i, start ≤ i → i < stop → ok (.write i)) (hpost : post (s.filled start stop v)) :
    Ends ok post (s.fillSlice start stop v) := by
  rw [fillSlice, if_pos ⟨hrange, hlen⟩]
  exact ⟨_, _, rfl, ok_writes hok, hpost⟩

theorem ends_copyWithin {start stop dest : Nat} (hrange : start ≤ stop) (hlen : stop ≤ s.len)
    (hdest : dest + (stop - start) ≤ s.len) (hread : ∀ i, start ≤ i → i < stop → ok (.read i))
    (hwrite : ∀ i, dest ≤ i → i < dest + (stop - start) → ok (.write i)) (hpost : post (s.moved start stop dest)) :
    Ends ok post (s.copyWithin start stop dest) := by
  rw [copyWithin, if_pos ⟨hrange, hlen, hdest⟩]
  refine ⟨_, _, rfl, ?_, hpost⟩
  intro u hu
  exact (List.mem_append.mp hu).elim (ok_reads hread u) (ok_writes hwrite u)

theorem ends_readEach {start n : Nat} {post : (Nat → α) → Prop} (hlen : n = 0 ∨ start + n ≤ s.len)
    (hok : ∀ i, start ≤ i → i < start + n → ok (.read i)) (hpost : post fun c => s.cell (start + c)) :
    Ends ok post (s.readEach start n) := by
  rw [readEach, if_pos hlen]
  exact ⟨_, _, rfl, ok_reads hok, hpost⟩

theorem ends_copyFromSlice {dest n : Nat} {line : Nat → α} (hlen : dest + n ≤ s.len)
    (hok : ∀ i, dest ≤ i → i < dest + n → ok (.write i)) (hpost : post (s.written dest n line)) :
    Ends ok post (s.copyFromSlice dest n line) := by
  rw [copyFromSlice, if_pos hlen]
  exact ⟨_, _, rfl, ok_writes hok, hpost⟩

end

end Cells

end NanoChrono.Buffer
