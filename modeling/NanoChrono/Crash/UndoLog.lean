import NanoChrono.Crash.Logic

/-! # Undo logs

An undo log lists the steps of a change before any is made. Each step has a program that makes it
(`forth`) and one that takes it back (`back`), and the state alone tells which steps were made: a
step that is `Pending` is not made, and taking it back does nothing. `Lawful` is what that asks of
the programs; `forth_all` and `back_all` are what it gives: making the steps, interrupted anywhere,
leaves the effect of a prefix of them (`Reached`), and taking them back in reverse from the effect of
any prefix, itself interrupted anywhere, goes through such states back to the start. Steps that were
all made once can be made again from the same start (`Reached.make`). -/

namespace NanoChrono.Crash

variable {σ ε ι : Type}

/-- Steps that can be made and taken back. -/
structure UndoLog (σ ε ι : Type) where
  forth : ι → Prog σ ε Unit
  back : ι → Prog σ ε Unit
  /-- What making a step does to a store that is ready for it. -/
  effect : ι → σ → σ
  Ready : ι → σ → Prop
  /-- The step is not made, and the store shows it. -/
  Pending : ι → σ → Prop
  /-- Making the first step leaves the second one pending. -/
  Before : ι → ι → Prop
  /-- What every store on the way satisfies. -/
  Inv : σ → Prop

namespace UndoLog

variable (L : UndoLog σ ε ι)

/-- What the programs of an undo log owe its steps, those of `steps`. -/
structure Lawful (steps : List ι) : Prop where
  /-- A step is made as a whole, or refused. -/
  forth : ∀ i ∈ steps, ∀ s, L.Inv s → L.Pending i s →
    Triple Live (fun t => t = s) (L.forth i) (fun _ t => L.Ready i s ∧ t = L.effect i s)
      (fun _ t => t = s) (fun t => t = s)
  /-- A step that is ready is not refused. -/
  forth_ready : ∀ F [Steady F], ∀ i ∈ steps, ∀ s, L.Inv s → L.Ready i s →
    Safe F (fun t => t = s) (L.forth i) (fun _ t => t = L.effect i s) (fun t => t = s)
  /-- Taking a made step back restores the store. -/
  back : ∀ F [Steady F], ∀ i ∈ steps, ∀ s, L.Inv s → L.Pending i s → L.Ready i s →
    Safe F (fun t => t = L.effect i s) (L.back i) (fun _ t => t = s) (fun t => t = L.effect i s)
  /-- Taking a pending step back does nothing. -/
  back_pending : ∀ F [Steady F], ∀ i ∈ steps, ∀ s, L.Inv s → L.Pending i s →
    Safe F (fun t => t = s) (L.back i) (fun _ t => t = s) (fun t => t = s)
  inv : ∀ i ∈ steps, ∀ s, L.Inv s → L.Ready i s → L.Inv (L.effect i s)
  pending : ∀ i ∈ steps, ∀ j ∈ steps, L.Before i j → ∀ s, L.Inv s → L.Ready i s → L.Pending j s →
    L.Pending j (L.effect i s)

/-- `s` is what making the steps `done` makes of `s₀`. -/
inductive Reached (s₀ : σ) : List ι → σ → Prop
  | nil : Reached s₀ [] s₀
  | snoc {done : List ι} {i : ι} {s : σ} :
      Reached s₀ done s → L.Ready i s → Reached s₀ (done ++ [i]) (L.effect i s)

/-- A log that may be started on `s₀`. -/
structure Startable (steps : List ι) (s₀ : σ) : Prop where
  inv : L.Inv s₀
  pending : ∀ i ∈ steps, L.Pending i s₀
  before : steps.Pairwise L.Before

variable {L} {steps : List ι} {s₀ : σ}

/-- What an induction over `Reached` uses of its last step. -/
theorem Reached.snoc_inv {done : List ι} {i : ι} {s : σ} (h : L.Reached s₀ (done ++ [i]) s) :
    ∃ t, L.Reached s₀ done t ∧ L.Ready i t ∧ s = L.effect i t := by
  generalize hd : done ++ [i] = l at h
  cases h with
  | nil => simp at hd
  | snoc h hr =>
    obtain ⟨rfl, hi⟩ := List.append_inj' hd rfl
    cases hi
    exact ⟨_, h, hr, rfl⟩

/-- Nothing made, nothing changed. -/
theorem Reached.nil_inv {s : σ} (h : L.Reached s₀ [] s) : s = s₀ := by
  generalize hd : ([] : List ι) = l at h
  cases h with
  | nil => rfl
  | snoc h hr => simp at hd

/-- Two stretches of steps. -/
theorem Reached.append_inv {a b : List ι} {s : σ} (h : L.Reached s₀ (a ++ b) s) :
    ∃ t, L.Reached s₀ a t ∧ L.Reached t b s := by
  induction b using List.reverseRecOn generalizing s with
  | nil => exact ⟨s, by simpa using h, .nil⟩
  | append_singleton b i ih =>
    rw [← List.append_assoc] at h
    obtain ⟨t, ht, hr, rfl⟩ := h.snoc_inv
    obtain ⟨u, hu, hut⟩ := ih ht
    exact ⟨u, hu, hut.snoc hr⟩

/-- The first step made, and the rest. -/
theorem Reached.cons_inv {i : ι} {b : List ι} {s : σ} (h : L.Reached s₀ (i :: b) s) :
    L.Ready i s₀ ∧ L.Reached (L.effect i s₀) b s := by
  obtain ⟨t, ht, hb⟩ := Reached.append_inv (a := [i]) h
  obtain ⟨u, hu, hr, rfl⟩ := Reached.snoc_inv (show L.Reached s₀ ([] ++ [i]) t from ht)
  obtain rfl := hu.nil_inv
  exact ⟨hr, hb⟩

/-- The steps made determine the store. -/
theorem Reached.unique {done : List ι} {s t : σ} (h : L.Reached s₀ done s)
    (h' : L.Reached s₀ done t) : s = t := by
  induction h generalizing t with
  | nil => exact h'.nil_inv.symm
  | snoc h hr ih =>
    obtain ⟨u, hu, -, rfl⟩ := h'.snoc_inv
    rw [ih hu]

/-- What every step made so far preserves holds. -/
theorem Reached.induct {P : σ → Prop} {done : List ι} {s : σ} (h : L.Reached s₀ done s)
    (h0 : P s₀) (hstep : ∀ i ∈ done, ∀ t, P t → L.Ready i t → P (L.effect i t)) : P s := by
  induction h with
  | nil => exact h0
  | snoc h hr ih =>
    exact hstep _ (by simp) _ (ih fun i hi => hstep i (by simp [hi])) hr

section Lawful

variable (hL : L.Lawful steps) (h₀ : L.Startable steps s₀)

include hL h₀

/-- On the way the invariant holds, and the steps not yet made are pending. -/
theorem Reached.on_the_way {done : List ι} {s : σ} (h : L.Reached s₀ done s)
    (hd : done <+: steps) : L.Inv s ∧ ∀ rest, done ++ rest = steps → ∀ j ∈ rest, L.Pending j s := by
  induction h with
  | nil => exact ⟨h₀.inv, fun rest hr j hj => h₀.pending j (by rw [← hr]; exact hj)⟩
  | @snoc done i s h hr ih =>
    obtain ⟨t, ht⟩ := hd
    rw [List.append_assoc] at ht
    obtain ⟨hinv, hpend⟩ := ih ⟨_, ht⟩
    have hi : i ∈ steps := by rw [← ht]; simp
    refine ⟨hL.inv i hi s hinv hr, fun rest hrest j hj => ?_⟩
    rw [List.append_assoc] at hrest
    have hb : L.Before i j := by
      have hp := h₀.before
      rw [← hrest, List.pairwise_append] at hp
      exact (List.pairwise_cons.1 (List.singleton_append ▸ hp.2.1)).1 j hj
    exact hL.pending i hi j (by rw [← hrest]; simp [hj]) hb s hinv hr
      (hpend ([i] ++ rest) hrest j (by simp [hj]))

/-- Making the steps, interrupted or refused anywhere, leaves the effect of a prefix. -/
theorem forth_all :
    Triple Live (fun s => s = s₀) (steps.forM L.forth) (fun _ => L.Reached s₀ steps)
      (fun _ s => ∃ done, done <+: steps ∧ L.Reached s₀ done s)
      (fun s => ∃ done, done <+: steps ∧ L.Reached s₀ done s) := by
  refine (Triple.forM (I := L.Reached s₀) fun done i rest hsteps => ?_).pre ?_
  · refine Triple.of_each fun s hs => ?_
    have hd : done <+: steps := ⟨_, hsteps.symm⟩
    obtain ⟨hinv, hpend⟩ := hs.on_the_way hL h₀ hd
    refine (hL.forth i (by rw [hsteps]; simp) s hinv
      (hpend _ hsteps.symm i (by simp))).conseq (fun _ h => h) ?_ ?_ ?_
    · rintro _ t ⟨hr, rfl⟩
      exact hs.snoc hr
    · rintro _ t rfl
      exact ⟨done, hd, hs⟩
    · rintro t rfl
      exact ⟨done, hd, hs⟩
  · rintro s rfl
    exact .nil

/-- Steps that can all be made are made. -/
theorem Reached.make (F : Fuse → Prop) [Steady F] {t : σ} (ht : L.Reached s₀ steps t) :
    Safe F (fun s => s = s₀) (steps.forM L.forth) (fun _ s => s = t)
      (fun s => ∃ done, done <+: steps ∧ L.Reached s₀ done s) := by
  refine ((Safe.forM (I := L.Reached s₀) fun done i rest hsteps => ?_).conseq ?_
    (fun _ s hs => hs.unique ht) fun _ h => h)
  · refine Triple.of_each fun s hs => ?_
    have hd : done <+: steps := ⟨_, hsteps.symm⟩
    have hr : L.Ready i s := by
      rw [hsteps] at ht
      obtain ⟨u, hu, hut⟩ := ht.append_inv
      rw [hs.unique hu]
      exact hut.cons_inv.1
    refine (hL.forth_ready F i (by rw [hsteps]; simp) s (hs.on_the_way hL h₀ hd).1 hr).conseq
      (fun _ h => h) ?_ ?_
    · rintro _ u rfl
      exact hs.snoc hr
    · rintro u rfl
      exact ⟨done, hd, hs⟩
  · rintro s rfl
    exact .nil

/-- Taking the steps back from the effect of any prefix leads back to the start, through the effects
of shorter prefixes. -/
theorem back_all (F : Fuse → Prop) [Steady F] :
    Safe F (fun s => ∃ done, done <+: steps ∧ L.Reached s₀ done s) (steps.reverse.forM L.back)
      (fun _ s => s = s₀) (fun s => ∃ done, done <+: steps ∧ L.Reached s₀ done s) := by
  suffices H : ∀ todo, todo <+: steps →
      Safe F (fun s => ∃ done, done <+: todo ∧ L.Reached s₀ done s) (todo.reverse.forM L.back)
        (fun _ s => s = s₀) (fun s => ∃ done, done <+: steps ∧ L.Reached s₀ done s) from
    H steps (List.prefix_refl _)
  intro todo
  induction todo using List.reverseRecOn with
  | nil =>
    intro _
    refine Safe.ret ?_
    rintro s ⟨done, hd, hs⟩
    obtain rfl := List.prefix_nil.1 hd
    exact hs.nil_inv
  | append_singleton todo i ih =>
    intro htodo
    have hi : i ∈ steps := htodo.subset (by simp)
    have hpre : todo <+: steps := (List.prefix_append _ _).trans htodo
    rw [List.reverse_append, List.reverse_singleton, List.singleton_append]
    refine Safe.bind (R := fun _ s => ∃ done, done <+: todo ∧ L.Reached s₀ done s)
      (Triple.of_each ?_) fun _ => ih hpre
    rintro s ⟨done, hd, hs⟩
    -- Either `i` is the last step made, or it is pending.
    by_cases hlast : done = todo ++ [i]
    · subst hlast
      obtain ⟨t, ht, hr, rfl⟩ := hs.snoc_inv
      obtain ⟨rest, hrest⟩ := htodo
      obtain ⟨hinv, hpend⟩ := ht.on_the_way hL h₀ hpre
      refine (hL.back F i hi t hinv (hpend _ (by rw [← List.append_assoc]; exact hrest) i
        (by simp)) hr).conseq (fun _ h => h) ?_ ?_
      · rintro _ u rfl
        exact ⟨todo, List.prefix_refl _, ht⟩
      · rintro u rfl
        exact ⟨todo ++ [i], ⟨rest, hrest⟩, hs⟩
    · have hd' : done <+: todo := by
        rcases List.prefix_concat_iff.1 (by simpa using hd) with h | h
        · exact absurd h hlast
        · exact h
      obtain ⟨more, hmore⟩ := hd'
      obtain ⟨rest, hrest⟩ := htodo
      obtain ⟨hinv, hpend⟩ := hs.on_the_way hL h₀ ((List.prefix_append done more).trans
        (hmore ▸ hpre))
      have hp : L.Pending i s := hpend (more ++ ([i] ++ rest))
        (by rw [← List.append_assoc, hmore, ← List.append_assoc]; exact hrest) i (by simp)
      refine (hL.back_pending F i hi s hinv hp).conseq (fun _ h => h) ?_ ?_
      · rintro _ u rfl
        exact ⟨done, ⟨more, hmore⟩, hs⟩
      · rintro u rfl
        exact ⟨done, (List.prefix_append done more).trans (hmore ▸ hpre), hs⟩

end Lawful

end UndoLog

end NanoChrono.Crash
