import NanoChrono.Buffer.Fields

/-! # Layouts

A structure is written into a buffer as a list of fields, each some bytes at a position. Fields that
lie inside the buffer and apart from each other are all read back (`slice_writeAll`), what no field
covers is as it was (`getElem?_writeAll_of_uncovered`), and the buffer is determined by the fields
and the rest (`eq_writeAll`). -/

namespace NanoChrono.Buffer

variable {α : Type*}

/-- Some cells and where they go. -/
abbrev Piece (α : Type*) := Nat × List α

/-- Whether a field covers a position. -/
def Covers (f : Piece α) (i : Nat) : Prop := f.1 ≤ i ∧ i < f.1 + f.2.length

/-- Two fields that share no position. -/
def Apart (f g : Piece α) : Prop := f.1 + f.2.length ≤ g.1 ∨ g.1 + g.2.length ≤ f.1

/-- The buffer with every field written. -/
def writeAll (b : List α) (fields : List (Piece α)) : List α :=
  fields.foldl (fun b f => splice b f.1 f.2) b

/-- Fields that lie in a buffer of `n` cells, apart from each other. -/
structure Placed (fields : List (Piece α)) (n : Nat) : Prop where
  inside : ∀ f ∈ fields, f.1 + f.2.length ≤ n
  apart : fields.Pairwise Apart

/-- Fields in order of position, from `start` to at most `stop`. -/
@[grind =] def Ordered : Nat → List (Piece α) → Nat → Prop
  | start, [], stop => start ≤ stop
  | start, f :: fields, stop => start ≤ f.1 ∧ Ordered (f.1 + f.2.length) fields stop

@[simp] theorem writeAll_nil (b : List α) : writeAll b [] = b := rfl

@[simp] theorem writeAll_cons (b : List α) (f : Piece α) (fields : List (Piece α)) :
    writeAll b (f :: fields) = writeAll (splice b f.1 f.2) fields := rfl

/-! ## Ordered fields -/

theorem Ordered.le {fields : List (Piece α)} : ∀ {start stop : Nat}, Ordered start fields stop →
    start ≤ stop := by
  induction fields with
  | nil => exact fun h => h
  | cons f fields ih => exact fun h => by have := ih h.2; have := h.1; omega

theorem Ordered.mono {fields : List (Piece α)} {start start' stop : Nat} (hle : start ≤ start')
    (h : Ordered start' fields stop) : Ordered start fields stop := by
  cases fields with
  | nil => exact hle.trans h
  | cons f fields => exact ⟨hle.trans h.1, h.2⟩

theorem Ordered.bounds {fields : List (Piece α)} : ∀ {start stop : Nat},
    Ordered start fields stop → ∀ f ∈ fields, start ≤ f.1 ∧ f.1 + f.2.length ≤ stop := by
  induction fields with
  | nil => simp
  | cons g fields ih =>
    intro start stop h f hf
    have hle := h.2.le
    rcases List.mem_cons.1 hf with rfl | hf
    · exact ⟨h.1, hle⟩
    · have := ih h.2 f hf
      have := h.1
      omega

/-- Fields in order lie apart. -/
theorem Ordered.placed {fields : List (Piece α)} {n : Nat} : ∀ {start : Nat},
    Ordered start fields n → Placed fields n := by
  induction fields with
  | nil => exact fun _ => ⟨by simp, .nil⟩
  | cons f fields ih =>
    intro start h
    refine ⟨fun g hg => (h.bounds g hg).2, List.pairwise_cons.2 ⟨fun g hg => ?_, (ih h.2).apart⟩⟩
    exact .inl (h.2.bounds g hg).1

theorem Placed.tail {f : Piece α} {fields : List (Piece α)} {n : Nat} (h : Placed (f :: fields) n) :
    Placed fields n :=
  ⟨fun g hg => h.inside g (List.mem_cons_of_mem _ hg), (List.pairwise_cons.1 h.apart).2⟩

/-! ## Reading back -/

@[simp] theorem length_writeAll {fields : List (Piece α)} : ∀ {b : List α},
    Placed fields b.length → (writeAll b fields).length = b.length := by
  induction fields with
  | nil => exact fun _ => rfl
  | cons f fields ih =>
    intro b h
    have hf := h.inside f List.mem_cons_self
    have hlen := length_splice hf
    rw [writeAll_cons, ih (hlen ▸ h.tail), hlen]

/-- A cell that no field covers is as it was. -/
theorem getElem?_writeAll_of_uncovered {fields : List (Piece α)} {i : Nat} : ∀ {b : List α},
    Placed fields b.length → (∀ f ∈ fields, ¬ Covers f i) → (writeAll b fields)[i]? = b[i]? := by
  induction fields with
  | nil => exact fun _ _ => rfl
  | cons f fields ih =>
    intro b h hi
    have hf := h.inside f List.mem_cons_self
    have hlen := length_splice hf
    have hout : ¬ (f.1 ≤ i ∧ i < f.1 + f.2.length) := hi f List.mem_cons_self
    rw [writeAll_cons, ih (hlen ▸ h.tail) fun g hg => hi g (List.mem_cons_of_mem _ hg),
      getElem?_splice hf, if_neg hout]

/-- A cell that a field covers is the field's. -/
theorem getElem?_writeAll_of_covers {fields : List (Piece α)} {f : Piece α} {i : Nat}
    (hcovers : Covers f i) : ∀ {b : List α}, Placed fields b.length → f ∈ fields →
    (writeAll b fields)[i]? = f.2[i - f.1]? := by
  induction fields with
  | nil => simp
  | cons g fields ih =>
    intro b h hmem
    have hg := h.inside g List.mem_cons_self
    have hlen := length_splice hg
    rw [writeAll_cons]
    rcases List.mem_cons.1 hmem with rfl | hmem
    · -- the later fields lie apart from it
      have hin : f.1 ≤ i ∧ i < f.1 + f.2.length := hcovers
      rw [getElem?_writeAll_of_uncovered (hlen ▸ h.tail), getElem?_splice hg, if_pos hin]
      intro g' hg' hcovers'
      have := (List.pairwise_cons.1 h.apart).1 g' hg'
      simp only [Covers, Apart] at hcovers hcovers' this
      omega
    · exact ih (hlen ▸ h.tail) hmem

/-- Every field is read back. -/
theorem slice_writeAll {fields : List (Piece α)} {f : Piece α} {b : List α}
    (h : Placed fields b.length) (hf : f ∈ fields) :
    slice (writeAll b fields) f.1 f.2.length = f.2 := by
  apply List.ext_getElem?
  intro i
  rw [getElem?_slice]
  by_cases hi : i < f.2.length
  · rw [if_pos hi, getElem?_writeAll_of_covers (f := f) ⟨by omega, by omega⟩ h hf,
      Nat.add_sub_cancel_left]
  · rw [if_neg hi, List.getElem?_eq_none (by omega)]

/-- A slice that no field reaches into is as it was. -/
theorem slice_writeAll_of_apart {fields : List (Piece α)} {b : List α} {pos n : Nat}
    (h : Placed fields b.length)
    (hapart : ∀ f ∈ fields, f.1 + f.2.length ≤ pos ∨ pos + n ≤ f.1) :
    slice (writeAll b fields) pos n = slice b pos n := by
  apply List.ext_getElem?
  intro i
  rw [getElem?_slice, getElem?_slice]
  by_cases hi : i < n
  · rw [if_pos hi, if_pos hi, getElem?_writeAll_of_uncovered h]
    intro f hf hcovers
    have := hapart f hf
    simp only [Covers] at hcovers
    omega
  · rw [if_neg hi, if_neg hi]

/-- A buffer that holds every field, and is as another one where no field is, is that one with the
fields written. -/
theorem eq_writeAll {fields : List (Piece α)} {b a : List α} (h : Placed fields b.length)
    (hlen : a.length = b.length) (hfields : ∀ f ∈ fields, slice a f.1 f.2.length = f.2)
    (hrest : ∀ i < b.length, (∀ f ∈ fields, ¬ Covers f i) → a[i]? = b[i]?) :
    a = writeAll b fields := by
  apply List.ext_getElem?
  intro i
  by_cases hcovered : ∃ f ∈ fields, Covers f i
  · obtain ⟨f, hf, hcovers⟩ := hcovered
    rw [getElem?_writeAll_of_covers hcovers h hf, ← hfields f hf, getElem?_slice,
      if_pos (by have := hcovers.2; have := hcovers.1; omega)]
    congr 1
    have := hcovers.1
    omega
  · have hnone : ∀ f ∈ fields, ¬ Covers f i := fun f hf hcovers => hcovered ⟨f, hf, hcovers⟩
    rw [getElem?_writeAll_of_uncovered h hnone]
    by_cases hi : i < b.length
    · exact hrest i hi hnone
    · rw [List.getElem?_eq_none (by omega), List.getElem?_eq_none (by omega)]

end NanoChrono.Buffer
