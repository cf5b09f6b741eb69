import Mathlib.Data.List.Basic

/-! # Computations that leave a log

An `Act σ ε α` runs in a state `σ`, returns an `α` and leaves the list of what it *did*: each entry
is an action with the state it was done in. Asking about the state leaves no entry, so what a
computation is allowed to do can be stated about its log alone, at the very state each action met.

`Cleared` is one such statement: every action that needs clearance comes right after the action
that gives it, with nothing in between. -/

namespace NanoChrono.Trace

/-- How a computation ended: its value, the state it left, and what it did on the way. -/
structure Outcome (σ ε α : Type) where
  value : α
  state : σ
  log : List (σ × ε)

/-- A computation in a state `σ` that logs its actions `ε`. -/
def Act (σ ε α : Type) : Type := σ → Outcome σ ε α

namespace Act

variable {σ ε α β : Type}

/-- Does nothing. -/
def ret (a : α) : Act σ ε α := fun s => ⟨a, s, []⟩

/-- Runs `p`, then `f` on its value; the log of `f` follows that of `p`. -/
def andThen (p : Act σ ε α) (f : α → Act σ ε β) : Act σ ε β := fun s =>
  let first := p s
  let second := f first.value first.state
  ⟨second.value, second.state, first.log ++ second.log⟩

instance : Monad (Act σ ε) where
  pure := ret
  bind := andThen

/-- Reads the state. -/
def ask (f : σ → α) : Act σ ε α := fun s => ⟨f s, s, []⟩

/-- Does the action `e`, whose effect and answer are `f`. -/
def act (e : ε) (f : σ → α × σ) : Act σ ε α := fun s => ⟨(f s).1, (f s).2, [(s, e)]⟩

/-- A question whose answer goes into the log: an action that leaves the state alone. -/
def inquire (e : α → ε) (f : σ → α) : Act σ ε α := fun s => ⟨f s, s, [(s, e (f s))]⟩

/-- `p` does nothing from `s`: it leaves the state alone and the log empty. -/
def Idle (p : Act σ ε α) (s : σ) : Prop := (p s).state = s ∧ (p s).log = []

/-! ## The log of a run -/

@[simp] theorem pure_apply (a : α) (s : σ) : (pure a : Act σ ε α) s = ⟨a, s, []⟩ := rfl

@[simp] theorem ask_apply (f : σ → α) (s : σ) : (ask f : Act σ ε α) s = ⟨f s, s, []⟩ := rfl

@[simp] theorem act_apply (e : ε) (f : σ → α × σ) (s : σ) :
    act e f s = ⟨(f s).1, (f s).2, [(s, e)]⟩ := rfl

@[simp] theorem inquire_apply (e : α → ε) (f : σ → α) (s : σ) :
    inquire e f s = ⟨f s, s, [(s, e (f s))]⟩ := rfl

/-- A sequence runs its first part, then its second from where that left off. -/
theorem bind_apply (p : Act σ ε α) (f : α → Act σ ε β) (s : σ) :
    (p >>= f) s = ⟨(f (p s).value (p s).state).value, (f (p s).value (p s).state).state,
      (p s).log ++ (f (p s).value (p s).state).log⟩ := rfl

/-- A question before a computation is answered in the state the computation then starts from. -/
@[simp] theorem ask_bind (g : σ → α) (f : α → Act σ ε β) (s : σ) :
    ((ask g : Act σ ε α) >>= f) s = f (g s) s := rfl

/-- Sequencing after a question that is logged. -/
@[simp] theorem inquire_bind_log (e : α → ε) (g : σ → α) (f : α → Act σ ε β) (s : σ) :
    ((inquire e g >>= f) s).log = (s, e (g s)) :: (f (g s) s).log := rfl

/-- Sequencing after an action. -/
@[simp] theorem act_bind_log (e : ε) (g : σ → α × σ) (f : α → Act σ ε β) (s : σ) :
    ((act e g >>= f) s).log = (s, e) :: (f (g s).1 (g s).2).log := rfl

end Act

/-! ## Clearance -/

section Clearance

variable {σ ε κ : Type} (needs : ε → Option κ) (gives : κ → ε)

/-- Every action of the log that `needs` a clearance `k` is done right after `gives k`, in the
state that was given in. `prev` is the entry before the log. -/
def Cleared (prev : Option (σ × ε)) : List (σ × ε) → Prop
  | [] => True
  | e :: rest => (∀ k, needs e.2 = some k → prev = some (e.1, gives k)) ∧ Cleared (some e) rest

@[simp] theorem cleared_nil (prev : Option (σ × ε)) : Cleared needs gives prev [] := trivial

@[simp] theorem cleared_cons (prev : Option (σ × ε)) (e : σ × ε) (rest : List (σ × ε)) :
    Cleared needs gives prev (e :: rest) ↔
      (∀ k, needs e.2 = some k → prev = some (e.1, gives k)) ∧
        Cleared needs gives (some e) rest := Iff.rfl

variable {needs gives}


/-- An action that needs no clearance may follow anything. -/
theorem Cleared.concat {prev : Option (σ × ε)} {log : List (σ × ε)} {e : σ × ε}
    (h : Cleared needs gives prev log) (he : needs e.2 = none) :
    Cleared needs gives prev (log ++ [e]) := by
  induction log generalizing prev with
  | nil => simp [he]
  | cons b bs ih => exact ⟨h.1, ih h.2⟩

end Clearance

end NanoChrono.Trace
