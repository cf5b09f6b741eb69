import NanoChrono.Crash.Prog

/-! # A program logic with crash conditions

`Triple F P p Q G D` speaks about the runs of `p` from stores satisfying `P` under the
interferences in `F`: a run that ends normally satisfies `Q`, one that ends with the program's own
error satisfies `G`, and wherever the power is cut or a mutation fails the store left behind
satisfies the crash condition `D`. The rules follow the constructors of `Prog`. An error handler is
the one place where the two interferences differ: after a cut it can do nothing, after a failed
mutation it runs without further interference (`Triple.attempt_bind`). -/

namespace NanoChrono.Crash

variable {σ ε ε' α β : Type}

/-- How a run that started with the fuse `f₀` may end. -/
def Outcome (Q : α → σ → Prop) (G : ε → σ → Prop) (D : σ → Prop) (f₀ : Fuse) :
    Except ε α × World σ → Prop
  | (.ok a, w) =>
      (w.fuse.Left f₀ ∧ Q a w.store) ∨ (w.fuse.Struck f₀ ∧ w.fuse = .dead ∧ D w.store)
  | (.error e, w) => (w.fuse.Left f₀ ∧ G e w.store) ∨ (w.fuse.Struck f₀ ∧ D w.store)

/-- A set of live fuses that an uninterrupted stretch does not leave. -/
class Steady (F : Fuse → Prop) : Prop where
  live : ∀ f, F f → f ≠ .dead
  left : ∀ f f', F f → f'.Left f → F f'

/-- No interference ahead. -/
def Calm (f : Fuse) : Prop := f = .off

/-- Any interference ahead. -/
def Live (f : Fuse) : Prop := f ≠ .dead

instance : Steady Calm where
  live f h := by simp [show f = .off from h]
  left f f' h hl := by
    rw [show f = .off from h] at hl
    exact hl.eq_off

instance : Steady Live where
  live _ h := h
  left _ _ _ hl := hl.ne_dead

/-- Whether some interference in `F` may strike. -/
def Disturbed (F : Fuse → Prop) : Prop := ∃ f, F f ∧ f ≠ .off

theorem not_disturbed_calm : ¬ Disturbed Calm := by
  rintro ⟨f, hf, hne⟩
  exact hne hf

/-- The runs of `p` from `P` under the interferences in `F` end in `Q`, fail in `G`, or are
interrupted in `D`. -/
def Triple (F : Fuse → Prop) (P : σ → Prop) (p : Prog σ ε α) (Q : α → σ → Prop)
    (G : ε → σ → Prop) (D : σ → Prop) : Prop :=
  ∀ f, F f → ∀ s, P s → Outcome Q G D f (p.run ⟨s, f⟩)

namespace Outcome

variable {Q Q' : α → σ → Prop} {G G' : ε → σ → Prop} {D D' : σ → Prop} {f₀ f₁ : Fuse}

/-- Outcomes are monotone in the three conditions. -/
theorem mono {r : Except ε α × World σ} (h : Outcome Q G D f₀ r)
    (hQ : ∀ a s, Q a s → Q' a s) (hG : ∀ e s, G e s → G' e s) (hD : ∀ s, D s → D' s) :
    Outcome Q' G' D' f₀ r := by
  obtain ⟨e | a, w⟩ := r
  · exact Or.imp (fun h => ⟨h.1, hG _ _ h.2⟩) (fun h => ⟨h.1, hD _ h.2⟩) h
  · exact Or.imp (fun h => ⟨h.1, hQ _ _ h.2⟩) (fun h => ⟨h.1, h.2.1, hD _ h.2.2⟩) h

/-- The outcome of a later stretch is an outcome of the whole. -/
theorem of_left {r : Except ε α × World σ} (h : Outcome Q G D f₁ r) (hl : f₁.Left f₀) :
    Outcome Q G D f₀ r := by
  obtain ⟨e | a, w⟩ := r
  · exact Or.imp (fun h => ⟨h.1.trans hl, h.2⟩) (fun h => ⟨h.1.trans hl, h.2⟩) h
  · exact Or.imp (fun h => ⟨h.1.trans hl, h.2⟩) (fun h => ⟨h.1.trans hl, h.2⟩) h

/-- Whatever runs after a cut is part of the cut's outcome. -/
theorem of_dead {r : Except ε α × World σ} {w : World σ} (hr : r.2 = w)
    (hs : w.fuse.Struck f₀) (hd : w.fuse = .dead) (hD : D w.store) : Outcome Q G D f₀ r := by
  obtain ⟨e | a, w'⟩ := r
  · cases hr; exact Or.inr ⟨hs, hD⟩
  · cases hr; exact Or.inr ⟨hs, hd, hD⟩

end Outcome

namespace Triple

variable {F : Fuse → Prop} {P P' : σ → Prop} {Q Q' : α → σ → Prop} {G G' : ε → σ → Prop}
  {D D' : σ → Prop}

/-- The rule of consequence. -/
theorem conseq {p : Prog σ ε α} (h : Triple F P p Q G D) (hP : ∀ s, P' s → P s)
    (hQ : ∀ a s, Q a s → Q' a s) (hG : ∀ e s, G e s → G' e s) (hD : ∀ s, D s → D' s) :
    Triple F P' p Q' G' D' :=
  fun f hf s hs => (h f hf s (hP s hs)).mono hQ hG hD

/-- Strengthening the precondition alone. -/
theorem pre {p : Prog σ ε α} (h : Triple F P p Q G D) (hP : ∀ s, P' s → P s) :
    Triple F P' p Q G D :=
  h.conseq hP (fun _ _ h => h) (fun _ _ h => h) (fun _ h => h)

/-- The part of a precondition that does not speak of the store may be assumed. -/
theorem and_pre {b : Prop} {p : Prog σ ε α} (h : b → Triple F P p Q G D) :
    Triple F (fun s => b ∧ P s) p Q G D :=
  fun f hf s hs => h hs.1 f hf s hs.2

/-- A triple may be proved one store at a time. -/
theorem of_each {p : Prog σ ε α} (h : ∀ s₀, P s₀ → Triple F (fun s => s = s₀) p Q G D) :
    Triple F P p Q G D :=
  fun f hf s hs => h s hs f hf s rfl

/-- Programs with the same runs satisfy the same triples. -/
theorem congr_run {p q : Prog σ ε α} (h : Triple F P q Q G D) (hpq : ∀ w, p.run w = q.run w) :
    Triple F P p Q G D := fun f hf s hs => by
  rw [hpq]
  exact h f hf s hs

/-- What holds under every interference holds under none. -/
theorem calm {p : Prog σ ε α} (h : Triple Live P p Q G D) : Triple Calm P p Q G D :=
  fun f hf s hs => h f (Steady.live f hf) s hs

/-- Changing the type of errors. -/
theorem mapErr {p : Prog σ ε α} {g : ε → ε'} {G' : ε' → σ → Prop} (h : Triple F P p Q G D)
    (hG : ∀ e s, G e s → G' (g e) s) : Triple F P (Prog.mapErr g p) Q G' D := by
  intro f hf s hs
  have hs := h f hf s hs
  rw [Prog.run_mapErr]
  rcases hr : p.run ⟨s, f⟩ with ⟨e | a, w⟩
  · rw [hr] at hs
    exact Or.imp (fun h => ⟨h.1, hG _ _ h.2⟩) id hs
  · rw [hr] at hs; exact hs

variable [Steady F]

theorem ret {a : α} (h : ∀ s, P s → Q a s) : Triple F P (pure a : Prog σ ε α) Q G D :=
  fun f hf s hs => Or.inl ⟨Fuse.Left.refl (Steady.live f hf), h s hs⟩

theorem throw {e : ε} (h : ∀ s, P s → G e s) :
    Triple F P (MonadExcept.throw e : Prog σ ε α) Q G D :=
  fun f hf s hs => Or.inl ⟨Fuse.Left.refl (Steady.live f hf), h s hs⟩

/-- Reading the store. -/
theorem query {q : σ → Except ε α}
    (h : ∀ s, P s → match q s with
      | .ok a => Q a s
      | .error e => G e s) : Triple F P (Prog.query q) Q G D := by
  intro f hf s hs
  have hs := h s hs
  have hl := Fuse.Left.refl (Steady.live f hf)
  rw [Prog.run_query]
  cases hq : q s with
  | ok a => rw [hq] at hs; exact Or.inl ⟨hl, hs⟩
  | error e => rw [hq] at hs; exact Or.inl ⟨hl, hs⟩

/-- One mutation: its effect satisfies `Q`; torn, or refused, it satisfies the crash condition. -/
theorem mutate {pre : σ → Except ε Unit} {e : ε} {torn step : σ → σ} {Q : Unit → σ → Prop}
    (h : ∀ s, P s → match pre s with
      | .ok () => Q () (step s) ∧ D (torn s) ∧ D s
      | .error e' => G e' s) : Triple F P (Prog.mutate pre e torn step) Q G D := by
  intro f hf s hs
  have hs := h s hs
  have hl := Steady.live f hf
  simp only [Prog.mutate]
  cases hp : pre s with
  | error e' => rw [hp] at hs; exact Or.inl ⟨Fuse.Left.refl hl, hs⟩
  | ok u =>
    rw [hp] at hs
    rcases f with _ | (_ | n) | (_ | n) | (_ | n) | _
    · exact Or.inl ⟨.off, hs.1⟩
    · exact Or.inr ⟨.cut 0, hs.2.1⟩
    · exact Or.inl ⟨.cut n (n + 1), hs.1⟩
    · exact Or.inr ⟨.fail 0, hs.2.2⟩
    · exact Or.inl ⟨.fail n (n + 1), hs.1⟩
    · exact Or.inr ⟨.spoil 0, hs.2.1⟩
    · exact Or.inl ⟨.spoil n (n + 1), hs.1⟩
    · exact absurd rfl hl

/-- Sequencing. -/
theorem bind {p : Prog σ ε α} {k : α → Prog σ ε β} {R : α → σ → Prop} {Q : β → σ → Prop}
    (hp : Triple F P p R G D) (hk : ∀ a, Triple F (R a) (k a) Q G D) :
    Triple F P (p >>= k) Q G D := by
  intro f hf s hs
  have hs := hp f hf s hs
  rw [Prog.run_bind]
  rcases hr : p.run ⟨s, f⟩ with ⟨e | a, w⟩
  · rw [hr] at hs; exact hs
  · rw [hr] at hs
    rcases hs with ⟨hl, hR⟩ | ⟨hst, hd, hD⟩
    · exact (hk a w.fuse (Steady.left _ _ hf hl) w.store hR).of_left hl
    · exact Outcome.of_dead ((k a).frozen_world hd) hst hd hD

/-- A handler: `k` gets what `p` ended with. After a failed mutation it runs undisturbed. -/
theorem attempt_bind {p : Prog σ ε α} {k : Except ε α → Prog σ ε' β} {R : α → σ → Prop}
    {Q : β → σ → Prop} {G' : ε' → σ → Prop} (hp : Triple F P p R G D)
    (hok : ∀ a, Triple F (R a) (k (.ok a)) Q G' D')
    (herr : ∀ e, Triple F (G e) (k (.error e)) Q G' D')
    (hint : Disturbed F → ∀ e, Triple Calm D (k (.error e)) Q G' D') (hD : ∀ s, D s → D' s) :
    Triple F P (Prog.attempt p >>= k) Q G' D' := by
  intro f hf s hs
  have hs := hp f hf s hs
  rw [Prog.run_bind, Prog.run_attempt]
  rcases hr : p.run ⟨s, f⟩ with ⟨e | a, w⟩ <;> rw [hr] at hs
  · rcases hs with ⟨hl, hG⟩ | ⟨hst, hDw⟩
    · exact (herr e w.fuse (Steady.left _ _ hf hl) w.store hG).of_left hl
    · by_cases hd : w.fuse = .dead
      · exact Outcome.of_dead ((k (.error e)).frozen_world hd) hst hd (hD _ hDw)
      · obtain ⟨ho, hl⟩ := hst.left_of_live hd
        exact (hint ⟨f, hf, hst.ne_off⟩ e w.fuse ho w.store hDw).of_left hl
  · rcases hs with ⟨hl, hR⟩ | ⟨hst, hd, hDw⟩
    · exact (hok a w.fuse (Steady.left _ _ hf hl) w.store hR).of_left hl
    · exact Outcome.of_dead ((k (.ok a)).frozen_world hd) hst hd (hD _ hDw)

/-- A handler of one mutation: interfered with, it ends with the error `e`. -/
theorem attempt_mutate_bind {pre : σ → Except ε Unit} {e : ε} {torn step : σ → σ}
    {k : Except ε Unit → Prog σ ε' β} {R : σ → Prop} {Q : β → σ → Prop} {G' : ε' → σ → Prop}
    (h : ∀ s, P s → match pre s with
      | .ok () => R (step s) ∧ D (torn s) ∧ D s
      | .error e' => G e' s)
    (hok : Triple F R (k (.ok ())) Q G' D') (herr : ∀ e', Triple F (G e') (k (.error e')) Q G' D')
    (hint : Disturbed F → Triple Calm D (k (.error e)) Q G' D') (hD : ∀ s, D s → D' s) :
    Triple F P (Prog.attempt (Prog.mutate pre e torn step) >>= k) Q G' D' := by
  have hstep : Triple F P (Prog.mutate pre e torn step) (fun _ => R) G D := mutate h
  intro f hf s hs
  have hs' := hstep f hf s hs
  have he : ∀ e₁ w, (Prog.mutate pre e torn step).run ⟨s, f⟩ = (.error e₁, w) →
      w.fuse.Struck f → e₁ = e := by
    intro e₁ w hr hst
    simp only [Prog.mutate] at hr
    cases hp : pre s with
    | error e' =>
      simp only [hp, Prod.mk.injEq] at hr
      obtain ⟨-, rfl⟩ := hr
      exact absurd hst (Fuse.not_struck_self (Steady.live f hf))
    | ok u =>
      simp only [hp] at hr
      split at hr <;> simp_all
  rw [Prog.run_bind, Prog.run_attempt]
  rcases hr : (Prog.mutate pre e torn step).run ⟨s, f⟩ with ⟨e₁ | a, w⟩ <;> rw [hr] at hs'
  · rcases hs' with ⟨hl, hG⟩ | ⟨hst, hDw⟩
    · exact (herr e₁ w.fuse (Steady.left _ _ hf hl) w.store hG).of_left hl
    · obtain rfl := he e₁ w hr hst
      by_cases hd : w.fuse = .dead
      · exact Outcome.of_dead ((k (.error e₁)).frozen_world hd) hst hd (hD _ hDw)
      · obtain ⟨ho, hl⟩ := hst.left_of_live hd
        exact (hint ⟨f, hf, hst.ne_off⟩ w.fuse ho w.store hDw).of_left hl
  · rcases hs' with ⟨hl, hR⟩ | ⟨hst, hd, hDw⟩
    · exact (hok w.fuse (Steady.left _ _ hf hl) w.store hR).of_left hl
    · exact Outcome.of_dead ((k (.ok a)).frozen_world hd) hst hd (hD _ hDw)

/-- A program whose error is thrown away. -/
theorem ignore {p : Prog σ ε α} {R : σ → Prop} {G' : ε' → σ → Prop} (hp : Triple F P p Q G D)
    (hQ : ∀ a s, Q a s → R s) (hG : ∀ e s, G e s → R s) (hD : ∀ s, D s → R s)
    (hD' : ∀ s, D s → D' s) : Triple F P (Prog.ignore p : Prog σ ε' Unit) (fun _ => R) G' D' :=
  attempt_bind hp (fun a => ret (hQ a)) (fun e => ret (hG e)) (fun _ _ => ret hD)
    (fun _ h => hD' _ h)

/-- A loop over a list: `I done` holds when the elements `done` are behind. -/
theorem forM {xs : List α} {body : α → Prog σ ε PUnit} {I : List α → σ → Prop}
    (h : ∀ done x rest, xs = done ++ x :: rest →
      Triple F (I done) (body x) (fun _ => I (done ++ [x])) G D) :
    Triple F (I []) (xs.forM body) (fun _ => I xs) G D := by
  suffices H : ∀ rest done, xs = done ++ rest →
      Triple F (I done) (rest.forM body) (fun _ => I xs) G D from H xs [] rfl
  intro rest
  induction rest with
  | nil =>
    intro done hx
    rw [List.append_nil] at hx
    subst hx
    exact ret fun _ h => h
  | cons x rest ih =>
    intro done hx
    exact bind (h done x rest hx) fun _ => ih (done ++ [x]) (by simp [hx])

end Triple

/-- The runs of `p` from `P` end in `Q` unless they are interfered with, and then in `D`. -/
def Safe (F : Fuse → Prop) (P : σ → Prop) (p : Prog σ ε α) (Q : α → σ → Prop) (D : σ → Prop) :
    Prop :=
  Triple F P p Q (fun _ s => Disturbed F ∧ D s) D

namespace Safe

variable {F : Fuse → Prop} {P P' : σ → Prop} {Q Q' : α → σ → Prop} {D D' : σ → Prop}

/-- The rule of consequence. -/
theorem conseq {p : Prog σ ε α} (h : Safe F P p Q D) (hP : ∀ s, P' s → P s)
    (hQ : ∀ a s, Q a s → Q' a s) (hD : ∀ s, D s → D' s) : Safe F P' p Q' D' :=
  Triple.conseq h hP hQ (fun _ _ h => ⟨h.1, hD _ h.2⟩) hD

theorem mapErr {p : Prog σ ε α} {g : ε → ε'} (h : Safe F P p Q D) : Safe F P (p.mapErr g) Q D :=
  Triple.mapErr h fun _ _ h => h

/-- Among programs that may fail by themselves. -/
theorem triple {p : Prog σ ε α} {G : ε → σ → Prop} (h : Safe F P p Q D)
    (hG : ∀ e s, Disturbed F → D s → G e s) : Triple F P p Q G D :=
  Triple.conseq h (fun _ h => h) (fun _ _ h => h) (fun e s h => hG e s h.1 h.2) fun _ h => h

/-- Among programs whose failures satisfy the crash condition. -/
theorem weaken {p : Prog σ ε α} (h : Safe F P p Q D) (hD : ∀ s, D s → D' s) :
    Triple F P p Q (fun _ => D') D' :=
  Triple.conseq h (fun _ h => h) (fun _ _ h => h) (fun _ s h => hD s h.2) hD

variable [Steady F]

theorem ret {a : α} (h : ∀ s, P s → Q a s) : Safe F P (pure a : Prog σ ε α) Q D :=
  Triple.ret h

/-- Sequencing. -/
theorem bind {p : Prog σ ε α} {k : α → Prog σ ε β} {R : α → σ → Prop} {Q : β → σ → Prop}
    (hp : Safe F P p R D) (hk : ∀ a, Safe F (R a) (k a) Q D) : Safe F P (p >>= k) Q D :=
  Triple.bind hp hk

/-- A loop over a list. -/
theorem forM {xs : List α} {body : α → Prog σ ε PUnit} {I : List α → σ → Prop}
    (h : ∀ done x rest, xs = done ++ x :: rest →
      Safe F (I done) (body x) (fun _ => I (done ++ [x])) D) :
    Safe F (I []) (xs.forM body) (fun _ => I xs) D :=
  Triple.forM h

/-- Reading the store, when there is something to read. -/
theorem query {q : σ → Except ε α} (h : ∀ s, P s → ∃ a, q s = .ok a ∧ Q a s) :
    Safe F P (Prog.query q) Q D := by
  refine Triple.query fun s hs => ?_
  obtain ⟨a, ha, hQ⟩ := h s hs
  rw [ha]
  exact hQ

end Safe

/-- An undisturbed run ends normally, or with the program's own error. -/
theorem Triple.run_calm {P : σ → Prop} {p : Prog σ ε α} {Q : α → σ → Prop} {G : ε → σ → Prop}
    {D : σ → Prop} (h : Triple Calm P p Q G D) {s : σ} (hs : P s) :
    (∃ a s', p.run ⟨s, .off⟩ = (.ok a, ⟨s', .off⟩) ∧ Q a s') ∨
      ∃ e s', p.run ⟨s, .off⟩ = (.error e, ⟨s', .off⟩) ∧ G e s' := by
  have hs := h .off rfl s hs
  rcases hr : p.run ⟨s, .off⟩ with ⟨e | a, ⟨s', f⟩⟩ <;> rw [hr] at hs
  · rcases hs with ⟨hl, hG⟩ | ⟨hst, _⟩
    · cases hl.eq_off
      exact .inr ⟨e, s', rfl, hG⟩
    · exact (Fuse.not_struck_off hst).elim
  · rcases hs with ⟨hl, hQ⟩ | ⟨hst, _⟩
    · cases hl.eq_off
      exact .inl ⟨a, s', rfl, hQ⟩
    · exact (Fuse.not_struck_off hst).elim

/-- An undisturbed run ends normally. -/
theorem Safe.run_calm {P : σ → Prop} {p : Prog σ ε α} {Q : α → σ → Prop} {D : σ → Prop}
    (h : Safe Calm P p Q D) {s : σ} (hs : P s) :
    ∃ a s', p.run ⟨s, .off⟩ = (.ok a, ⟨s', .off⟩) ∧ Q a s' :=
  (Triple.run_calm h hs).resolve_right fun ⟨_, _, _, h⟩ => not_disturbed_calm h.1

/-- Whatever the interference, a run is cut in the crash condition, or ends with the power on. -/
theorem Triple.ends {P : σ → Prop} {p : Prog σ ε α} {Q : α → σ → Prop} {G : ε → σ → Prop}
    {D : σ → Prop} (h : Triple Live P p Q G D) {f : Fuse} (hf : f ≠ .dead) {s : σ} (hs : P s) :
    ((p.run ⟨s, f⟩).2.fuse = .dead ∧ D (p.run ⟨s, f⟩).2.store) ∨
    (p.run ⟨s, f⟩).2.fuse.Left f ∧
      ((∃ a, (p.run ⟨s, f⟩).1 = .ok a ∧ Q a (p.run ⟨s, f⟩).2.store) ∨
        ∃ e, (p.run ⟨s, f⟩).1 = .error e ∧
          (G e (p.run ⟨s, f⟩).2.store ∨ D (p.run ⟨s, f⟩).2.store)) := by
  have hs := h f hf s hs
  rcases hr : p.run ⟨s, f⟩ with ⟨e | a, w⟩ <;> rw [hr] at hs
  · rcases hs with ⟨hl, hG⟩ | ⟨hst, hD⟩
    · exact .inr ⟨hl, .inr ⟨e, rfl, .inl hG⟩⟩
    · by_cases hd : w.fuse = .dead
      · exact .inl ⟨hd, hD⟩
      · exact .inr ⟨(hst.left_of_live hd).2, .inr ⟨e, rfl, .inr hD⟩⟩
  · rcases hs with ⟨hl, hQ⟩ | ⟨hst, hd, hD⟩
    · exact .inr ⟨hl, .inl ⟨a, rfl, hQ⟩⟩
    · exact .inl ⟨hd, hD⟩

/-- What is left by a run that ends in the same way whatever happens. -/
theorem Triple.leaves {P R : σ → Prop} {p : Prog σ ε α}
    (h : Triple Live P p (fun _ => R) (fun _ => R) R) {f : Fuse} (hf : f ≠ .dead) {s : σ} (hs : P s) :
    R (p.run ⟨s, f⟩).2.store := by
  rcases h.ends hf hs with ⟨-, h⟩ | ⟨-, ⟨_, -, h⟩ | ⟨_, -, h | h⟩⟩ <;> exact h

-- Triples are proved by their rules from here on, never by running the program.
attribute [irreducible] Outcome

end NanoChrono.Crash
