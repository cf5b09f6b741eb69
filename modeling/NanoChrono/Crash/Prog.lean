import Mathlib.Tactic

/-! # Programs over durable storage, interrupted at any point

A program reads and changes a *store* that outlives it. Each change is one atomic mutation, and
the environment may interfere with it: the power is cut at the `n`-th mutation from now, or that
one mutation fails, without effect or half done, and the program carries on. `Fuse` says which interference lies ahead,
`World` pairs it with the store, and `Prog σ ε α` is a computation on worlds that may end with an
error `ε`. A `Prog` carries the proof that it changes nothing once the power is gone, so what is
found after a cut is what the last mutation before it left.

`Outcome` and `Triple` are the program logic over these runs: a precondition, a postcondition for
normal ends, one for the program's own errors and one — the *crash condition* — for every point at
which it may have been interrupted. -/

namespace NanoChrono.Crash

/-- The interference that lies ahead of a run. -/
inductive Fuse where
  /-- Nothing: every mutation succeeds. -/
  | off
  /-- `n` more mutations succeed; the next one is cut short, and the power is gone. -/
  | cut (n : Nat)
  /-- `n` more mutations succeed; the next one is refused, and later ones succeed again. -/
  | fail (n : Nat)
  /-- `n` more mutations succeed; the next one fails half done, and later ones succeed again. -/
  | spoil (n : Nat)
  /-- The power is gone: no mutation succeeds any more. -/
  | dead
  deriving DecidableEq, Repr

/-- `f.Left f₀`: starting from `f₀`, a run that was not interrupted (or got over it) may end with
`f`. -/
inductive Fuse.Left : Fuse → Fuse → Prop
  | off : Left .off .off
  | cut (m n : Nat) : Left (.cut m) (.cut n)
  | fail (m n : Nat) : Left (.fail m) (.fail n)
  | spoil (m n : Nat) : Left (.spoil m) (.spoil n)
  | failed (n : Nat) : Left .off (.fail n)
  | spoiled (n : Nat) : Left .off (.spoil n)

/-- `f.Struck f₀`: starting from `f₀`, the interference hit and left `f`. -/
inductive Fuse.Struck : Fuse → Fuse → Prop
  | cut (n : Nat) : Struck .dead (.cut n)
  | fail (n : Nat) : Struck .off (.fail n)
  | spoil (n : Nat) : Struck .off (.spoil n)

namespace Fuse

/-- A live fuse is its own successor. -/
theorem Left.refl {f : Fuse} (h : f ≠ .dead) : f.Left f := by
  cases f with
  | off => exact .off
  | cut n => exact .cut n n
  | fail n => exact .fail n n
  | spoil n => exact .spoil n n
  | dead => exact absurd rfl h

/-- Successors of live fuses are live. -/
theorem Left.ne_dead {f f₀ : Fuse} (h : f.Left f₀) : f ≠ .dead := by
  cases h <;> simp

/-- `Left` is transitive: two uninterrupted stretches make one. -/
theorem Left.trans {f g h : Fuse} (hfg : f.Left g) (hgh : g.Left h) : f.Left h := by
  cases hgh <;> cases hfg <;> constructor

/-- Interference in a later stretch is interference in the whole. -/
theorem Struck.trans {f g h : Fuse} (hfg : f.Struck g) (hgh : g.Left h) : f.Struck h := by
  cases hgh <;> cases hfg <;> constructor

/-- Without interference ahead, none strikes. -/
theorem not_struck_off {f : Fuse} : ¬ f.Struck .off := by
  intro h; cases h

/-- What struck lay ahead. -/
theorem Struck.ne_off {f f₀ : Fuse} (h : f.Struck f₀) : f₀ ≠ .off := by
  rintro rfl; exact not_struck_off h

/-- A fuse that did not move was not struck. -/
theorem not_struck_self {f : Fuse} (h : f ≠ .dead) : ¬ f.Struck f := by
  intro hs; cases f <;> cases hs

/-- Without interference ahead, the fuse stays off. -/
theorem Left.eq_off {f : Fuse} (h : f.Left .off) : f = .off := by
  cases h; rfl

/-- A failed mutation leaves no further interference ahead. -/
theorem Struck.left_of_live {f f₀ : Fuse} (h : f.Struck f₀) (hf : f ≠ .dead) :
    f = .off ∧ f.Left f₀ := by
  cases h with
  | cut n => exact absurd rfl hf
  | fail n => exact ⟨rfl, .failed n⟩
  | spoil n => exact ⟨rfl, .spoiled n⟩

end Fuse

/-- The store, and the interference ahead. -/
structure World (σ : Type) where
  store : σ
  fuse : Fuse

/-- A program over the store `σ` with errors `ε`: a run from each world, and the proof that it is
`frozen` — with the power gone it changes nothing. -/
structure Prog (σ ε α : Type) where
  run : World σ → Except ε α × World σ
  frozen : ∀ s, (run ⟨s, .dead⟩).2 = ⟨s, .dead⟩

namespace Prog

variable {σ ε ε' α β : Type}

/-- Ends normally with `a`. -/
def ret (a : α) : Prog σ ε α where
  run w := (.ok a, w)
  frozen _ := rfl

/-- Ends with the error `e`. -/
def fault (e : ε) : Prog σ ε α where
  run w := (.error e, w)
  frozen _ := rfl

/-- Runs `p`, then `f` on its result; an error of `p` ends both. -/
def andThen (p : Prog σ ε α) (f : α → Prog σ ε β) : Prog σ ε β where
  run w :=
    match p.run w with
    | (.ok a, w') => (f a).run w'
    | (.error e, w') => (.error e, w')
  frozen s := by
    have hp := p.frozen s
    rcases h : p.run ⟨s, .dead⟩ with ⟨r, w'⟩
    rw [h] at hp
    subst hp
    cases r with
    | ok a => exact (f a).frozen s
    | error e => rfl

/-- Runs `p`; its error becomes a value, so the program goes on. -/
def attempt (p : Prog σ ε α) : Prog σ ε' (Except ε α) where
  run w := (.ok (p.run w).1, (p.run w).2)
  frozen s := p.frozen s

/-- Turns the errors of `p` into another type's. -/
def mapErr (g : ε → ε') (p : Prog σ ε α) : Prog σ ε' α where
  run w := ((p.run w).1.mapError g, (p.run w).2)
  frozen s := p.frozen s

/-- Reads the store: `q` says what it answers. Never interfered with. -/
def query (q : σ → Except ε α) : Prog σ ε α where
  run w := (q w.store, w)
  frozen _ := rfl

/-- One atomic mutation. `pre` refuses it with the program's own error; `step` is its effect,
`torn` what an interruption in its middle leaves, `e` the error of an interrupted one. -/
def mutate (pre : σ → Except ε Unit) (e : ε) (torn step : σ → σ) : Prog σ ε Unit where
  run w :=
    match pre w.store with
    | .error e' => (.error e', w)
    | .ok () =>
      match w.fuse with
      | .off => (.ok (), ⟨step w.store, .off⟩)
      | .cut 0 => (.error e, ⟨torn w.store, .dead⟩)
      | .cut (n + 1) => (.ok (), ⟨step w.store, .cut n⟩)
      | .fail 0 => (.error e, ⟨w.store, .off⟩)
      | .fail (n + 1) => (.ok (), ⟨step w.store, .fail n⟩)
      | .spoil 0 => (.error e, ⟨torn w.store, .off⟩)
      | .spoil (n + 1) => (.ok (), ⟨step w.store, .spoil n⟩)
      | .dead => (.error e, w)
  frozen s := by
    cases pre s <;> rfl

instance : Monad (Prog σ ε) where
  pure := ret
  bind := andThen

instance : MonadExceptOf ε (Prog σ ε) where
  throw := fault
  tryCatch p h := andThen (attempt p) fun
    | .ok a => ret a
    | .error e => h e

/-- A program whose error is thrown away: Rust's `let _ = p`. -/
def ignore (p : Prog σ ε α) : Prog σ ε' Unit := do
  let _ ← attempt p
  pure ()

/-- The store after an undisturbed run from `s`. -/
def storeAfter (p : Prog σ ε α) (s : σ) : σ := (p.run ⟨s, .off⟩).2.store

/-- The result of an undisturbed run from `s`. -/
def resultOf (p : Prog σ ε α) (s : σ) : Except ε α := (p.run ⟨s, .off⟩).1

@[simp] theorem run_pure (a : α) (w : World σ) :
    (pure a : Prog σ ε α).run w = (.ok a, w) := rfl

@[simp] theorem run_throw (e : ε) (w : World σ) :
    (throw e : Prog σ ε α).run w = (.error e, w) := rfl

@[simp] theorem run_query (q : σ → Except ε α) (w : World σ) :
    (query q).run w = (q w.store, w) := rfl

@[simp] theorem run_attempt (p : Prog σ ε α) (w : World σ) :
    (attempt p : Prog σ ε' (Except ε α)).run w = (.ok (p.run w).1, (p.run w).2) := rfl

@[simp] theorem run_mapErr (g : ε → ε') (p : Prog σ ε α) (w : World σ) :
    (mapErr g p).run w = ((p.run w).1.mapError g, (p.run w).2) := rfl

/-- Sequencing, one run at a time. -/
theorem run_bind (p : Prog σ ε α) (f : α → Prog σ ε β) (w : World σ) :
    (p >>= f).run w =
      match p.run w with
      | (.ok a, w') => (f a).run w'
      | (.error e, w') => (.error e, w') := rfl

/-- A program run with the power gone leaves the world as it was. -/
theorem frozen_world (p : Prog σ ε α) {w : World σ} (h : w.fuse = .dead) : (p.run w).2 = w := by
  obtain ⟨s, f⟩ := w
  cases h
  exact p.frozen s

/-- What follows a program that went well. -/
theorem run_bind_ok {p : Prog σ ε α} {f : α → Prog σ ε β} {w : World σ} {a : α}
    (h : (p.run w).1 = .ok a) : (p >>= f).run w = (f a).run (p.run w).2 := by
  rw [run_bind]
  rcases hr : p.run w with ⟨r, w'⟩
  rw [hr] at h
  cases h
  rfl

/-- Nothing follows an error. -/
theorem run_bind_error {p : Prog σ ε α} {f : α → Prog σ ε β} {w : World σ} {e : ε}
    (h : (p.run w).1 = .error e) : (p >>= f).run w = (.error e, (p.run w).2) := by
  rw [run_bind]
  rcases hr : p.run w with ⟨r, w'⟩
  rw [hr] at h
  cases h
  rfl

/-- Once the power is gone, what follows changes nothing. -/
theorem run_bind_dead {p : Prog σ ε α} {f : α → Prog σ ε β} {w : World σ}
    (h : (p.run w).2.fuse = .dead) : ((p >>= f).run w).2 = (p.run w).2 := by
  rcases hr : (p.run w).1 with e | a
  · rw [run_bind_error hr]
  · rw [run_bind_ok hr, frozen_world _ h]

/-- A sequence that went well is two programs that did. -/
theorem run_bind_eq_ok {p : Prog σ ε α} {f : α → Prog σ ε β} {w w' : World σ} {b : β} :
    (p >>= f).run w = (.ok b, w') ↔
      ∃ a v, p.run w = (.ok a, v) ∧ (f a).run v = (.ok b, w') := by
  rw [run_bind]
  rcases p.run w with ⟨e | a, v⟩ <;> simp

/-- A mutation that went well had its effect. -/
theorem store_of_mutate {pre : σ → Except ε Unit} {e : ε} {torn step : σ → σ} {w w' : World σ}
    {u : Unit} (h : (mutate pre e torn step).run w = (.ok u, w')) : w'.store = step w.store := by
  obtain ⟨s, f⟩ := w
  simp only [mutate] at h
  cases hp : pre s with
  | error e' => simp [hp] at h
  | ok u' =>
    rw [hp] at h
    rcases f with _ | (_ | n) | (_ | n) | (_ | n) | _ <;> simp at h <;> rw [← h]

/-- A handler runs where its program ended. -/
theorem run_attempt_bind (p : Prog σ ε α) (f : Except ε α → Prog σ ε' β) (w : World σ) :
    (attempt p >>= f).run w = (f (p.run w).1).run (p.run w).2 := rfl

theorem run_attempt_bind_dead {p : Prog σ ε α} {f : Except ε α → Prog σ ε' β} {w : World σ}
    (h : (p.run w).2.fuse = .dead) : ((attempt p >>= f).run w).2 = (p.run w).2 :=
  frozen_world _ h

end Prog

end NanoChrono.Crash
