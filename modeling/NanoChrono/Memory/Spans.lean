import Mathlib.Data.Finset.Card
import Mathlib.Order.Interval.Finset.Nat
import Mathlib.Tactic

/-! # Sorted lists of half-open spans

A `Span` is a half-open interval of natural numbers, and a list of spans stands for the set of the
numbers its spans hold, `cells`. A list is `Spaced` when its spans are in ascending order with a gap
between any two neighbours: then a set of numbers has one list only that stands for it, a stretch of
the set lies in one span (`Spaced.within`), and a span that touches none of the others has its one
place in the order (`Spaced.place`). -/

namespace NanoChrono

/-- The numbers from `base` on, below `stop`. -/
structure Span where
  base : Nat
  stop : Nat
deriving DecidableEq, Repr

namespace Span

/-- How many numbers the span holds. -/
def len (s : Span) : Nat := s.stop - s.base

/-- Whether the span holds no number. -/
def isEmpty (s : Span) : Bool := decide (s.stop ≤ s.base)

/-- The numbers of the span. -/
def cells (s : Span) : Finset Nat := Finset.Ico s.base s.stop

@[simp] theorem mem_cells {s : Span} {x : Nat} : x ∈ s.cells ↔ s.base ≤ x ∧ x < s.stop :=
  Finset.mem_Ico

@[simp] theorem card_cells (s : Span) : s.cells.card = s.len := Nat.card_Ico _ _

@[simp] theorem isEmpty_iff {s : Span} : s.isEmpty = true ↔ s.stop ≤ s.base := decide_eq_true_iff

/-- The least span that holds both. -/
def join (s t : Span) : Span := ⟨min s.base t.base, max s.stop t.stop⟩

@[simp] theorem join_base (s t : Span) : (s.join t).base = min s.base t.base := rfl

@[simp] theorem join_stop (s t : Span) : (s.join t).stop = max s.stop t.stop := rfl

/-- Two spans overlap or touch. -/
def Meets (s t : Span) : Prop := t.base ≤ s.stop ∧ s.base ≤ t.stop

instance (s t : Span) : Decidable (s.Meets t) := inferInstanceAs (Decidable (_ ∧ _))

/-- Joining spans that meet adds no number. -/
theorem mem_join {s t : Span} (h : s.Meets t) {x : Nat} :
    x ∈ (s.join t).cells ↔ x ∈ s.cells ∨ x ∈ t.cells := by
  obtain ⟨h₁, h₂⟩ := h
  simp only [mem_cells, join_base, join_stop]
  omega

end Span

/-! ## The numbers of a list of spans -/

/-- The numbers of all spans of the list. -/
def cells : List Span → Finset Nat
  | [] => ∅
  | s :: l => s.cells ∪ cells l

@[simp] theorem cells_nil : cells [] = ∅ := rfl

@[simp] theorem cells_cons (s : Span) (l : List Span) : cells (s :: l) = s.cells ∪ cells l := rfl

theorem mem_cells {l : List Span} {x : Nat} : x ∈ cells l ↔ ∃ s ∈ l, x ∈ s.cells := by
  induction l with
  | nil => simp
  | cons s l ih => rw [cells_cons, Finset.mem_union, ih, List.exists_mem_cons_iff]

theorem cells_append (l m : List Span) : cells (l ++ m) = cells l ∪ cells m := by
  induction l with
  | nil => simp
  | cons s l ih => rw [List.cons_append, cells_cons, cells_cons, ih, Finset.union_assoc]

theorem cells_subset {l m : List Span} (h : ∀ s ∈ l, s ∈ m) : cells l ⊆ cells m := by
  intro x hx
  obtain ⟨s, hs, hx⟩ := mem_cells.1 hx
  exact mem_cells.2 ⟨s, h s hs, hx⟩

/-- A list with one span fewer lacks no more than that span's numbers. -/
theorem cells_erase (l m : List Span) (s : Span) :
    cells (l ++ s :: m) \ cells (l ++ m) ⊆ s.cells := by
  intro x hx
  simp only [cells_append, cells_cons, Finset.mem_sdiff, Finset.mem_union] at hx
  tauto

/-! ## Spaced lists -/

/-- Ascending, with a gap between any two spans, none of them empty. -/
structure Spaced (l : List Span) : Prop where
  sorted : l.Pairwise fun s t => s.stop < t.base
  inhabited : ∀ s ∈ l, s.base < s.stop

namespace Spaced

variable {l m : List Span} {s t x : Span}

theorem nil : Spaced [] := ⟨.nil, by simp⟩

theorem cons (hs : s.base < s.stop) (hl : ∀ t ∈ l, s.stop < t.base) (h : Spaced l) :
    Spaced (s :: l) := by
  constructor
  · exact List.pairwise_cons.2 ⟨hl, h.sorted⟩
  · intro t ht
    rcases List.mem_cons.1 ht with rfl | ht
    · exact hs
    · exact h.inhabited t ht

theorem head (h : Spaced (s :: l)) : s.base < s.stop := h.inhabited s (by simp)

theorem gap (h : Spaced (s :: l)) : ∀ t ∈ l, s.stop < t.base :=
  fun _ ht => List.rel_of_pairwise_cons h.sorted ht

theorem sublist (h : Spaced m) (hl : l.Sublist m) : Spaced l :=
  ⟨h.sorted.sublist hl, fun s hs => h.inhabited s (hl.subset hs)⟩

theorem tail (h : Spaced (s :: l)) : Spaced l := h.sublist (List.sublist_cons_self s l)

/-- Two spans of the list are the same, or one lies wholly below the other. -/
theorem apart (h : Spaced l) (hs : s ∈ l) (ht : t ∈ l) :
    s = t ∨ s.stop < t.base ∨ t.stop < s.base := by
  induction l with
  | nil => cases hs
  | cons u l ih =>
    rcases List.mem_cons.1 hs with hs | hs <;> rcases List.mem_cons.1 ht with ht | ht
    · exact .inl (hs.trans ht.symm)
    · exact .inr (.inl (hs ▸ h.gap t ht))
    · exact .inr (.inr (ht ▸ h.gap s hs))
    · exact ih h.tail hs ht

/-- A stretch of numbers of the list lies in one of its spans: the gaps interrupt it otherwise. -/
theorem within (h : Spaced l) {a b : Nat} (hab : a < b)
    (hc : ∀ n, a ≤ n → n < b → n ∈ cells l) : ∃ s ∈ l, s.base ≤ a ∧ b ≤ s.stop := by
  obtain ⟨s, hs, ha⟩ := mem_cells.1 (hc a le_rfl hab)
  rw [Span.mem_cells] at ha
  refine ⟨s, hs, ha.1, ?_⟩
  by_contra hb
  -- The first number past the span is in the stretch, so another span holds it.
  obtain ⟨t, ht, hst⟩ := mem_cells.1 (hc s.stop (by omega) (by omega))
  rw [Span.mem_cells] at hst
  rcases h.apart hs ht with rfl | hlt | hlt <;> omega

/-- Two lists, the first below the second. -/
theorem append (hl : Spaced l) (hm : Spaced m) (h : ∀ s ∈ l, ∀ t ∈ m, s.stop < t.base) :
    Spaced (l ++ m) := by
  constructor
  · exact List.pairwise_append.2 ⟨hl.sorted, hm.sorted, h⟩
  · intro s hs
    rcases List.mem_append.1 hs with hs | hs
    · exact hl.inhabited s hs
    · exact hm.inhabited s hs

end Spaced

/-! ## Putting a span in its place -/

/-- Puts `x` before the first span that begins above it. -/
def placeSpan (l : List Span) (x : Span) : List Span :=
  l.insertIdx (l.findIdx fun s => decide (x.base < s.base)) x

@[simp] theorem placeSpan_nil (x : Span) : placeSpan [] x = [x] := rfl

theorem placeSpan_cons (s : Span) (l : List Span) (x : Span) :
    placeSpan (s :: l) x = if x.base < s.base then x :: s :: l else s :: placeSpan l x := by
  rw [placeSpan, List.findIdx_cons]
  by_cases h : x.base < s.base
  · simp [h]
  · simp [h, placeSpan]

theorem mem_placeSpan {l : List Span} {s x : Span} : s ∈ placeSpan l x ↔ s = x ∨ s ∈ l := by
  induction l with
  | nil => simp
  | cons t l ih =>
    rw [placeSpan_cons]
    split
    · simp
    · rw [List.mem_cons, ih, List.mem_cons]
      tauto

theorem cells_placeSpan (l : List Span) (x : Span) :
    cells (placeSpan l x) = x.cells ∪ cells l := by
  ext n
  simp [mem_cells, mem_placeSpan]

theorem length_placeSpan (l : List Span) (x : Span) : (placeSpan l x).length = l.length + 1 := by
  induction l with
  | nil => simp
  | cons t l ih =>
    rw [placeSpan_cons]
    split
    · simp
    · simp [ih]

/-- A span that meets no other keeps the list spaced. -/
theorem Spaced.place {l : List Span} {x : Span} (h : Spaced l) (hx : x.base < x.stop)
    (hn : ∀ s ∈ l, ¬ s.Meets x) : Spaced (placeSpan l x) := by
  induction l with
  | nil => exact .cons hx (by simp) .nil
  | cons s l ih =>
    have hs := h.head
    have hsx : s.stop < x.base ∨ x.stop < s.base := by
      have := hn s (by simp)
      rw [Span.Meets] at this
      omega
    rw [placeSpan_cons]
    split
    · -- `x` begins below `s`, so it ends below it and below all that follow.
      apply Spaced.cons hx _ h
      intro t ht
      rcases List.mem_cons.1 ht with rfl | ht
      · omega
      · have := h.gap t ht
        omega
    · apply Spaced.cons hs _ (ih h.tail fun t ht => hn t (by simp [ht]))
      intro t ht
      rcases mem_placeSpan.1 ht with rfl | ht
      · omega
      · exact h.gap t ht

/-! ## Sets kept with a loss -/

/-- `t` holds nothing that `m` does not, and lacks at most `d` of what `m` holds. -/
structure Lossy (m t : Finset Nat) (d : Nat) : Prop where
  subset : t ⊆ m
  missing : (m \ t).card ≤ d

namespace Lossy

variable {m t t' r : Finset Nat} {d e : Nat}

theorem refl (m : Finset Nat) : Lossy m m 0 := ⟨subset_rfl, by simp⟩

/-- Without loss the sets agree. -/
theorem exact (h : Lossy m t 0) : t = m := by
  apply h.subset.antisymm
  rw [← Finset.sdiff_eq_empty_iff_subset, ← Finset.card_eq_zero]
  exact Nat.le_zero.1 h.missing

/-- What a step loses adds to what was lost before it. -/
theorem step {f : Finset Nat → Finset Nat} (h : Lossy m t d) (hs : Lossy (f t) t' e)
    (hsub : f t ⊆ f m) (hdiff : f m \ f t ⊆ m \ t) : Lossy (f m) t' (d + e) := by
  refine ⟨hs.subset.trans hsub, ?_⟩
  have hcover : f m \ t' ⊆ (m \ t) ∪ (f t \ t') := by
    intro x hx
    rw [Finset.mem_sdiff] at hx
    by_cases hft : x ∈ f t
    · exact Finset.mem_union_right _ (Finset.mem_sdiff.2 ⟨hft, hx.2⟩)
    · exact Finset.mem_union_left _ (hdiff (Finset.mem_sdiff.2 ⟨hx.1, hft⟩))
  calc (f m \ t').card ≤ ((m \ t) ∪ (f t \ t')).card := Finset.card_le_card hcover
    _ ≤ (m \ t).card + (f t \ t').card := Finset.card_union_le _ _
    _ ≤ d + e := Nat.add_le_add h.missing hs.missing

/-- Losses in two parts of a set add up. -/
theorem union {m₁ m₂ t₁ t₂ : Finset Nat} (h₁ : Lossy m₁ t₁ d) (h₂ : Lossy m₂ t₂ e) :
    Lossy (m₁ ∪ m₂) (t₁ ∪ t₂) (d + e) := by
  refine ⟨Finset.union_subset_union h₁.subset h₂.subset, ?_⟩
  have hcover : (m₁ ∪ m₂) \ (t₁ ∪ t₂) ⊆ (m₁ \ t₁) ∪ (m₂ \ t₂) := by
    intro x hx
    simp only [Finset.mem_sdiff, Finset.mem_union] at hx ⊢
    tauto
  calc ((m₁ ∪ m₂) \ (t₁ ∪ t₂)).card ≤ ((m₁ \ t₁) ∪ (m₂ \ t₂)).card :=
        Finset.card_le_card hcover
    _ ≤ (m₁ \ t₁).card + (m₂ \ t₂).card := Finset.card_union_le _ _
    _ ≤ d + e := Nat.add_le_add h₁.missing h₂.missing

/-- Keeping all but one span's numbers. -/
theorem of_span {s : Span} (hsub : t ⊆ m) (h : m \ t ⊆ s.cells) : Lossy m t s.len :=
  ⟨hsub, (Finset.card_le_card h).trans (Span.card_cells s).le⟩

/-- Adding the same numbers to both sets. -/
theorem put (h : Lossy m t d) (hs : Lossy (t ∪ r) t' e) : Lossy (m ∪ r) t' (d + e) := by
  apply h.step (f := (· ∪ r)) hs
  · exact Finset.union_subset_union_left h.subset
  · intro x hx
    simp only [Finset.mem_sdiff, Finset.mem_union] at hx ⊢
    tauto

/-- Taking the same numbers from both sets. -/
theorem cut (h : Lossy m t d) (hs : Lossy (t \ r) t' e) : Lossy (m \ r) t' (d + e) := by
  apply h.step (f := (· \ r)) hs
  · exact Finset.sdiff_subset_sdiff h.subset subset_rfl
  · intro x hx
    simp only [Finset.mem_sdiff] at hx ⊢
    tauto

end Lossy

end NanoChrono
