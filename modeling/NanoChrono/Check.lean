import Mathlib.Tactic

/-! # What a check that passed established

A validator is an `Except` computation: it stops at the first rule that is broken. These lemmas read
a success as the success of its parts, in sequence, over a list (`forM_ok`), or along a fold with an
invariant (`foldlM_ok`). -/

namespace NanoChrono.Check

variable {ε α β : Type}

/-- A sequence succeeds when its parts do. -/
theorem bind_ok {x : Except ε α} {f : α → Except ε β} {b : β} :
    (x >>= f) = .ok b ↔ ∃ a, x = .ok a ∧ f a = .ok b := by
  cases x <;> simp [bind, Except.bind]

theorem pure_ok {a b : α} : (pure a : Except ε α) = .ok b ↔ a = b := by
  simp [pure, Except.pure]

theorem throw_ok {e : ε} {a : α} : (throw e : Except ε α) = .ok a ↔ False := by
  simp [throw, throwThe, MonadExceptOf.throw]

/-- A loop succeeds when every round does. -/
theorem forM_ok {l : List α} {f : α → Except ε Unit} {u : Unit} :
    l.forM f = .ok u ↔ ∀ x ∈ l, f x = .ok ⟨⟩ := by
  induction l with
  | nil => simp [List.forM, pure, Except.pure]
  | cons x l ih =>
    rw [show (x :: l).forM f = (f x >>= fun _ => l.forM f) from rfl, bind_ok]
    simp only [ih, List.mem_cons, forall_eq_or_imp]
    constructor
    · rintro ⟨⟨⟩, hx, hl⟩; exact ⟨hx, hl⟩
    · rintro ⟨hx, hl⟩; exact ⟨_, hx, hl⟩

/-- What each round of a fold preserves holds at its end. -/
theorem foldlM_ok {l : List α} {f : β → α → Except ε β} {b b' : β} {P : β → Prop}
    (h : l.foldlM f b = .ok b') (hb : P b)
    (hf : ∀ x ∈ l, ∀ c c', P c → f c x = .ok c' → P c') : P b' := by
  induction l generalizing b with
  | nil =>
    rw [List.foldlM_nil, pure_ok] at h
    exact h ▸ hb
  | cons x l ih =>
    rw [List.foldlM_cons, bind_ok] at h
    obtain ⟨c, hc, h⟩ := h
    exact ih h (hf x (by simp) b c hb hc) fun y hy => hf y (by simp [hy])

end NanoChrono.Check
