import NanoChrono.Deflate.Outputs
import NanoChrono.Hash.Sha512
import NanoChrono.Ncpkg.Manifest

/-! # Files of a package

A file of a package is stored as it is or as a DEFLATE stream, and is read into a new buffer, into one the
caller lends, or through a window into its hash. The three accept the same files and see the same bytes
(`read_alike`). -/

namespace NanoChrono.Ncpkg

open Buffer

/-- How a file is stored. -/
inductive Method where
  | stored
  /-- Raw DEFLATE, no zlib or gzip wrapper. -/
  | deflate
  deriving DecidableEq, Repr

/-- The largest single file, uncompressed. -/
def maxFile : Nat := 256 * 2 ^ 20

/-- A file's entry, as a package that passed its checks gives it. -/
structure Entry where
  path : String
  method : Method
  stored : List UInt8
  size : Nat
  consistent : method = .stored → stored.length = size
  small : size ≤ maxFile

/-- The machine words the code is built for. -/
inductive Usize where
  | bits32 | bits64
  deriving DecidableEq, Repr

/-- What a word holds. -/
def Usize.bound : Usize → Nat
  | .bits32 => 2 ^ 32
  | .bits64 => 2 ^ 64

/-- A size in memory. -/
def size (w : Usize) (v : Nat) : Except FormatError Nat := if v < w.bound then .ok v else .error .tooBig

/-- A refused stream as the container's error. -/
@[grind =] def badData {α : Type} : Except Deflate.Error α → Except FormatError α
  | .error e => .error (.badData e.message)
  | .ok a => .ok a

namespace Entry

/-- Decodes the file into `out`: its size, and the buffer. -/
def readInto (w : Usize) (e : Entry) (out : List UInt8) : Except FormatError (Nat × List UInt8) :=
  (Ncpkg.size w e.size).bind fun n =>
  if out.length < n then .error .bufferTooSmall
  else match e.method with
    | .stored => .ok (n, e.stored ++ out.drop n)
    | .deflate =>
      (badData (Deflate.inflateInto e.stored (out.take n))).bind fun r =>
      if r.1 ≠ n then .error (.badData Deflate.Error.truncated.message)
      else .ok (n, r.2 ++ out.drop n)

/-- The file's SHA-512, decoded through the window. -/
def sha512 (e : Entry) (window : List UInt8) : Except FormatError (List UInt8) :=
  match e.method with
  | .stored => .ok (Hash.Sha512.finalize (Hash.Sha512.update Hash.Sha512.new e.stored))
  | .deflate =>
    (badData (Deflate.inflateTo (fun h piece => (Hash.Sha512.update h piece, true)) e.stored window e.size
      Hash.Sha512.new)).bind fun r =>
    if r.1 ≠ e.size then .error (.badData Deflate.Error.truncated.message)
    else .ok (Hash.Sha512.finalize r.2)

/-- The decoded file. -/
def read (w : Usize) (e : Entry) : Except FormatError (List UInt8) :=
  match e.method with
  | .stored => .ok e.stored
  | .deflate => (Ncpkg.size w e.size).bind fun n => badData (Deflate.inflateVec e.stored n)

theorem size_eq (w : Usize) (e : Entry) : Ncpkg.size w e.size = .ok e.size := by
  have hsmall := e.small
  have hbound : maxFile < w.bound := by cases w <;> decide
  rw [Ncpkg.size, if_pos (by omega)]

/-- The three ways of reading a file. -/
theorem read_alike (w : Usize) (e : Entry) {out window : List UInt8} (hout : e.size ≤ out.length)
    (hwindow : window.length = Deflate.window) :
    (∃ err, e.read w = .error err ∧ e.readInto w out = .error err ∧ e.sha512 window = .error err) ∨
    ∃ bytes : List UInt8, bytes.length = e.size ∧ e.read w = .ok bytes ∧
      e.readInto w out = .ok (e.size, bytes ++ out.drop e.size) ∧
      e.sha512 window = .ok (Hash.Fips180.sha512 bytes) := by
  rw [read, readInto, sha512, size_eq]
  simp only [Except.bind]
  rw [if_neg (Nat.not_lt.2 hout)]
  cases hmethod : e.method with
  | stored =>
    refine .inr ⟨e.stored, e.consistent hmethod, rfl, rfl, ?_⟩
    have hpiece := Hash.Sha512.absorbed_pieces [e.stored]
    rw [List.flatten_singleton] at hpiece
    exact congrArg _ (Hash.Sha512.finalize_absorbed hpiece)
  | deflate =>
    have hlen : (out.take e.size).length = e.size := List.length_take_of_le hout
    have hinto := Deflate.inflateInto_text e.stored (out.take e.size)
    have hvec := Deflate.inflateInto_text e.stored (List.replicate e.size 0)
    have hto := @Deflate.inflateTo_text Hash.Sha512.Hasher
      (fun h piece => (Hash.Sha512.update h piece, true)) (fun _ _ => rfl) e.stored window hwindow e.size
      Hash.Sha512.new
    rw [hlen] at hinto
    rw [List.length_replicate] at hvec
    dsimp only
    rw [Deflate.inflateVec]
    generalize Deflate.inflateInto e.stored (out.take e.size) = into at hinto
    generalize Deflate.inflateInto e.stored (List.replicate e.size 0) = vec at hvec
    generalize Deflate.inflateTo (fun h piece => (Hash.Sha512.update h piece, true)) e.stored window e.size
      Hash.Sha512.new = streamed at hto
    generalize Deflate.decode (Deflate.text e.size) e.stored [] = decoded at hinto hvec hto
    -- The three decode to one text, or fail alike.
    cases hinto with
    | error err =>
      cases hvec
      cases hto
      exact .inl ⟨_, rfl, rfl, rfl⟩
    | @ok into t hinto =>
      cases hvec with
      | @ok vec _ hvec =>
      cases hto with
      | @ok streamed _ hto =>
      simp only [badData, Except.bind, hinto.1, hvec.1, hto.1]
      by_cases hsize : t.length = e.size
      · obtain ⟨-, pieces, hstate, rfl⟩ := hto
        have hfull : into.2 = pieces.flatten := by
          rw [← hinto.2.2, hinto.1, hsize, List.take_of_length_le hinto.2.1.le]
        have hread : vec.2 = pieces.flatten := by
          rw [← hvec.2.2, hvec.1, hsize, List.take_of_length_le hvec.2.1.le]
        refine .inr ⟨pieces.flatten, hsize, ?_, ?_, ?_⟩
        · rw [if_neg (not_not.2 hsize), hread]
        · rw [if_neg (not_not.2 hsize), hfull]
        · rw [if_neg (not_not.2 hsize), hstate]
          exact congrArg _ (Hash.Sha512.finalize_absorbed (Hash.Sha512.absorbed_pieces pieces))
      · refine .inl ⟨_, ?_, if_pos hsize, if_pos hsize⟩
        rw [if_pos hsize]

/-- A buffer too small for the file is refused. -/
theorem readInto_small (w : Usize) (e : Entry) {out : List UInt8} (hout : out.length < e.size) :
    e.readInto w out = .error .bufferTooSmall := by
  rw [readInto, size_eq]
  exact if_pos hout

/-- Inflating into a buffer and through a window that may put out as much agree, and so do the three ways
of reading a package's file. -/
theorem buffered_as_streamed :
    (∀ (ρ : Type) (sink : ρ → List UInt8 → ρ × Bool), (∀ s p, (sink s p).2 = true) →
      ∀ (input out win : List UInt8) (start : ρ), win.length = Deflate.window →
        (∃ err, Deflate.inflateInto input out = .error err ∧
          Deflate.inflateTo sink input win out.length start = .error err) ∨
        ∃ (buf : List UInt8) (pieces : List (List UInt8)),
          Deflate.inflateInto input out = .ok (pieces.flatten.length, buf) ∧
          buf.take pieces.flatten.length = pieces.flatten ∧
          Deflate.inflateTo sink input win out.length start =
            .ok (pieces.flatten.length, pieces.foldl (fun s p => (sink s p).1) start)) ∧
    ∀ (w : Usize) (e : Entry) (out window : List UInt8), window.length = Deflate.window →
      (out.length < e.size → e.readInto w out = .error .bufferTooSmall) ∧
      (e.size ≤ out.length →
        (∃ err, e.read w = .error err ∧ e.readInto w out = .error err ∧ e.sha512 window = .error err) ∨
        ∃ bytes : List UInt8, bytes.length = e.size ∧ e.read w = .ok bytes ∧
          e.readInto w out = .ok (e.size, bytes ++ out.drop e.size) ∧
          e.sha512 window = .ok (Hash.Fips180.sha512 bytes)) := by
  refine ⟨?_, fun w e out window hwindow => ⟨readInto_small w e, fun hout => read_alike w e hout hwindow⟩⟩
  intro ρ sink haccept input out win start hwin
  have hinto := Deflate.inflateInto_text input out
  have hto := Deflate.inflateTo_text haccept input hwin out.length start
  generalize Deflate.inflateInto input out = into at hinto
  generalize Deflate.inflateTo sink input win out.length start = streamed at hto
  generalize Deflate.decode (Deflate.text out.length) input [] = decoded at hinto hto
  cases hinto with
  | error err =>
    cases hto
    exact .inl ⟨err, rfl, rfl⟩
  | @ok into t hinto =>
    cases hto with
    | @ok streamed _ hto =>
      obtain ⟨hn, pieces, hstate, rfl⟩ := hto
      refine .inr ⟨into.2, pieces, ?_, ?_, ?_⟩
      · rw [← hinto.1]
      · rw [← hinto.1]
        exact hinto.2.2
      · rw [← hn, ← hstate]

/-- A file of one byte, in a stored block. -/
def oneByte : Entry where
  path := "a"
  method := .deflate
  stored := [1, 1, 0, 254, 255, 65]
  size := 1
  consistent h := by cases h
  small := by decide

theorem buffered_as_streamed_one_byte :
    (Deflate.inflateInto oneByte.stored [0, 0]).toOption = some (1, [65, 0]) ∧
    (∃ (buf : List UInt8) (pieces : List (List UInt8)),
      Deflate.inflateInto oneByte.stored [0, 0] = .ok (pieces.flatten.length, buf) ∧
      buf.take pieces.flatten.length = pieces.flatten ∧
      Deflate.inflateTo (fun s p => (s ++ p, true)) oneByte.stored (List.replicate Deflate.window 0) 2 [] =
        .ok (pieces.flatten.length, pieces.foldl (fun s p => s ++ p) [])) ∧
    ∃ bytes : List UInt8, bytes.length = 1 ∧ oneByte.read .bits32 = .ok bytes ∧
      oneByte.readInto .bits32 [0, 0] = .ok (1, bytes ++ [0]) ∧
      oneByte.sha512 (List.replicate Deflate.window 0) = .ok (Hash.Fips180.sha512 bytes) := by
  have hinto : (Deflate.inflateInto oneByte.stored [0, 0]).toOption = some (1, [65, 0]) := by
    decide +kernel
  have hread : (oneByte.readInto .bits32 [0, 0]).toOption = some (1, [65, 0]) := by decide +kernel
  refine ⟨hinto, ?_, ?_⟩
  · refine (buffered_as_streamed.1 (List UInt8) (fun s p => (s ++ p, true)) (fun _ _ => rfl)
      oneByte.stored [0, 0] (List.replicate Deflate.window 0) [] (List.length_replicate ..)).resolve_left ?_
    rintro ⟨err, herr, -⟩
    rw [herr] at hinto
    cases hinto
  · refine ((buffered_as_streamed.2 .bits32 oneByte [0, 0] (List.replicate Deflate.window 0)
      (List.length_replicate ..)).2 (by decide)).resolve_left ?_
    rintro ⟨err, -, herr, -⟩
    rw [herr] at hread
    cases hread

end Entry

end NanoChrono.Ncpkg
