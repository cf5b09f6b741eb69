import Mathlib.Tactic

/-! # Computations with a log

A computation that notes events as it goes. Where every event of a part satisfies a predicate, and of what follows it
given the part's value, every event of the whole does (`Logged.All.bind`). -/

namespace NanoChrono.Logs

universe u v

/-- A value, and the events noted on the way to it. -/
structure Logged (ε : Type u) (α : Type v) where
  value : α
  log : List ε

namespace Logged

variable {ε : Type u} {α β : Type v}

instance : Monad (Logged ε) where
  pure a := ⟨a, []⟩
  bind x f := ⟨(f x.value).value, x.log ++ (f x.value).log⟩

@[simp] theorem value_pure (a : α) : (pure a : Logged ε α).value = a := rfl

@[simp] theorem log_pure (a : α) : (pure a : Logged ε α).log = [] := rfl

@[simp] theorem value_bind (x : Logged ε α) (f : α → Logged ε β) : (x >>= f).value = (f x.value).value := rfl

@[simp] theorem log_bind (x : Logged ε α) (f : α → Logged ε β) : (x >>= f).log = x.log ++ (f x.value).log := rfl

@[simp] theorem value_map (f : α → β) (x : Logged ε α) : (f <$> x).value = f x.value := rfl

@[simp] theorem log_map (f : α → β) (x : Logged ε α) : (f <$> x).log = x.log := List.append_nil _

/-- Notes an event. -/
def note (e : ε) : Logged ε PUnit := ⟨.unit, [e]⟩

/-- A value that has noted some events. -/
def noted (a : α) (es : List ε) : Logged ε α := ⟨a, es⟩

/-- The first of two that gives something. -/
def first (x y : Logged ε (Option α)) : Logged ε (Option α) := do
  match ← x with
  | some a => pure (some a)
  | none => y

/-- Every event satisfies a predicate. -/
def All (P : ε → Prop) (x : Logged ε α) : Prop := ∀ e ∈ x.log, P e

variable {P : ε → Prop} {x : Logged ε α} {f : α → Logged ε β}

@[simp] theorem all_pure (a : α) : All P (pure a : Logged ε α) := fun _ h => absurd h List.not_mem_nil

/-- A sequence: the part's events and those of what follows its value. -/
theorem all_bind : All P (x >>= f) ↔ All P x ∧ All P (f x.value) := by
  simp only [All, log_bind, List.mem_append]
  constructor
  · intro h
    exact ⟨fun e he => h e (.inl he), fun e he => h e (.inr he)⟩
  · rintro ⟨hx, hf⟩ e (he | he)
    · exact hx e he
    · exact hf e he

theorem All.bind (hx : All P x) (hf : All P (f x.value)) : All P (x >>= f) := all_bind.mpr ⟨hx, hf⟩

theorem all_map {g : α → β} : All P (g <$> x) ↔ All P x := by
  rw [All, log_map]
  rfl

@[simp] theorem all_note (e : ε) : All P (note e) ↔ P e := by simp [All, note]

@[simp] theorem all_noted (a : α) (es : List ε) : All P (noted a es) ↔ ∀ e ∈ es, P e := Iff.rfl

theorem all_ite {c : Prop} [Decidable c] {y : Logged ε α} :
    All P (if c then x else y) ↔ (c → All P x) ∧ (¬ c → All P y) := by
  by_cases h : c <;> simp [h]

/-- Where the first gives something the second is not run. -/
theorem first_of_some {x y : Logged ε (Option α)} {a : α} (h : x.value = some a) : first x y = ⟨some a, x.log⟩ := by
  obtain ⟨v, es⟩ := x
  obtain rfl : v = some a := h
  show (⟨some a, es ++ []⟩ : Logged ε (Option α)) = _
  rw [List.append_nil]

theorem first_of_none {x y : Logged ε (Option α)} (h : x.value = none) : first x y = ⟨y.value, x.log ++ y.log⟩ := by
  obtain ⟨v, es⟩ := x
  obtain rfl : v = none := h
  rfl

end Logged

end NanoChrono.Logs
