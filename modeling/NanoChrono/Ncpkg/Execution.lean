import NanoChrono.Ncpkg.Lock
import NanoChrono.Ncpkg.Transaction

/-! # A transaction and whatever interrupts it

`commitSteps` is a transaction up to its commit. Stopped before the commit it leads back to the
filesystem it started on, after the commit on to the installed one, and between the two only an
`Orphan` goes astray: `execute_ends`. -/

/-! ## A torn database

On a system without a database, a cut while the next one is being written leaves half of it. Recovery
names that half as the database, cannot read it, and fails: `Stuck`. It fails the same way every time
and leaves the same tree, whatever interrupts it. -/

namespace NanoChrono.Ncpkg

open Crash

/-- Two filesystems with the same managed tree and the same transaction directories. -/
def SameTree (s t : Nodes) : Prop :=
  ∀ p, managed p = true ∨ Journal.TX_DIR <+: p → s[p]? = t[p]?

namespace SameTree

variable {s t u : Nodes}

theorem refl (s : Nodes) : SameTree s s := fun _ _ => rfl

theorem symm (h : SameTree s t) : SameTree t s := fun p hp => (h p hp).symm

theorem trans (h : SameTree s t) (h' : SameTree t u) : SameTree s u :=
  fun p hp => (h p hp).trans (h' p hp)

/-- The lock is not part of the tree. -/
theorem withLock (s : Nodes) (v : Option Content) : SameTree (s.withLock v) s := by
  rintro p (hp | hp)
  · exact SameManaged.withLock s v p hp
  · refine Nodes.lookup_withLock_of_ne ?_
    rintro rfl
    exact absurd hp (by decide)

end SameTree

/-- A journal, and half of a database: named as the database already, or about to be. -/
structure Stuck (T s : Nodes) : Prop where
  left : ∃ j : Journal, Leftover j s ∧ j.validate = .ok j
  torn : (s[Db.PATH]? = some (.file .torn) ∧ SameTree s T) ∨
    (s[Db.PATH]? = none ∧ s[Db.NEXT]? = some (.file .torn) ∧ SameTree (s.move Db.NEXT Db.PATH) T)

namespace Stuck

variable {T s : Nodes} {v : Option Content}

theorem tidy (h : Stuck T s) : Tidy s := by
  obtain ⟨j, hl, -⟩ := h.left
  exact hl.tidy

theorem withLock (h : Stuck T s) (v : Option Content) : Stuck T (s.withLock v) := by
  obtain ⟨j, hl, hj⟩ := h.left
  refine ⟨⟨j, hl.withLock v, hj⟩, h.torn.imp ?_ ?_⟩
  · rintro ⟨ht, hs⟩
    exact ⟨by rw [Nodes.lookup_withLock_of_ne (by decide), ht], (SameTree.withLock s v).trans hs⟩
  · rintro ⟨hn, ht, hs⟩
    refine ⟨by rw [Nodes.lookup_withLock_of_ne (by decide), hn],
      by rw [Nodes.lookup_withLock_of_ne (by decide), ht], ?_⟩
    rw [Nodes.move_withLock (by decide) (by decide) ht]
    exact (SameTree.withLock _ v).trans hs

/-- Naming the half. -/
theorem adopt (h : Stuck T s) (hn : s[Db.PATH]? = none) :
    Stuck T (s.move Db.NEXT Db.PATH) ∧
      (s.move Db.NEXT Db.PATH)[Db.PATH]? = some (.file .torn) := by
  obtain ⟨j, hl, hj⟩ := h.left
  rcases h.torn with ⟨ht, -⟩ | ⟨-, ht, hs⟩
  · rw [hn] at ht; cases ht
  · have hdb : (s.move Db.NEXT Db.PATH)[Db.PATH]? = some (.file .torn) := by
      rw [Nodes.lookup_move ht, if_pos rfl]
    exact ⟨⟨⟨j, hl.adopt ht (by rw [Nodes.NotDir, hn]; simp), hj⟩, .inl ⟨hdb, hs⟩⟩, hdb⟩

end Stuck

namespace Manager

variable {F : Fuse → Prop} [Steady F] {policy : Policy} {D : Nodes → Prop} {s₀ T : Nodes}

/-- Half of a database does not load. -/
theorem load_torn {arch : String} {Q : Db → Nodes → Prop}
    (h : s₀[Db.PATH]? = some (.file .torn)) :
    Triple F (fun s => s = s₀) (Db.load arch) Q (fun _ s => s = s₀) D := by
  have hv : Path.isSystemPath Db.PATH = true := by decide
  refine Triple.attempt_bind (D := fun _ => False) (R := fun c s => s = s₀ ∧ c = .torn)
    (G := fun _ _ => False) (Triple.query fun s hs => ?_) (fun c => ?_) (fun e => nofun)
    (fun _ _ => nofun) (fun _ => False.elim)
  · subst hs
    rw [Fs.check_eq_ok hv, Fs.ok_bind, h]
    exact ⟨rfl, rfl⟩
  · refine Triple.of_each ?_
    rintro s ⟨rfl, rfl⟩
    exact Triple.throw fun _ h => h

/-- Recovery fails on half of a database. -/
theorem recoverLocked_stuck (h : Stuck T s₀) :
    Triple F (fun s => s = s₀) (recoverLocked policy) (fun _ _ => False)
      (fun _ s => Stuck T s ∧ (s[Db.PATH]? = some (.file .torn) ∨ Disturbed F)) (Stuck T) := by
  obtain ⟨j, hl, hj⟩ := h.left
  have safe : ∀ {α : Type} {P : Nodes → Prop} {p : Prog Nodes Error α} {Q : α → Nodes → Prop},
      Safe F P p Q (Stuck T) →
      Triple F P p Q (fun _ s => Stuck T s ∧ (s[Db.PATH]? = some (.file .torn) ∨ Disturbed F))
        (Stuck T) := fun h => h.triple fun _ _ hF h => ⟨h, .inr hF⟩
  refine Triple.attempt_bind (D := fun _ => False)
    (R := fun c s => s = s₀ ∧ c = .journal j) (G := fun _ _ => False)
    (Triple.query fun s hs => ?_) (fun c => ?_) (fun _ _ _ _ h => h.elim) (fun _ _ _ _ _ h => h.elim)
    (fun _ => False.elim)
  · subst hs
    have hv : Path.isSystemPath Journal.PATH = true := by decide
    rw [Fs.check_eq_ok hv, Fs.ok_bind, hl.journal]
    exact ⟨rfl, rfl⟩
  refine Triple.of_each ?_
  rintro s ⟨rfl, rfl⟩
  refine Triple.bind (R := fun _ t => t = s) (safe (removeIfExists_rule (by decide) fun t ht => ?_))
    fun _ => ?_
  · subst ht
    exact ⟨hl.tidy, Nodes.erase_of_none hl.tmp, h⟩
  simp only [Journal.parse, hj]
  refine Triple.bind (R := fun _ t => Stuck T t ∧ t[Db.PATH]? = some (.file .torn)) (safe ?_)
    fun _ => Triple.of_each fun t ht => ?_
  · rcases h.torn with ⟨ht, -⟩ | ⟨hn, ht, -⟩
    · exact (adoptNext_rule (.inl (by rw [ht]; rfl))).conseq (fun _ h => h)
        (by rintro _ _ rfl; exact ⟨h, ht⟩) fun _ h => h
    · exact (adoptNext_orphan hl.tidy hn ht h).conseq (fun _ h => h)
        (by rintro _ _ rfl; exact h.adopt hn) fun _ h => h
  · refine Triple.bind ((load_torn (Q := fun _ _ => False) ht.2).conseq (fun _ h => h)
      (fun _ _ h => h) ?_ fun _ h => h) fun _ _ _ _ h => h.elim
    rintro _ u rfl
    exact ⟨ht.1, .inl ht.2⟩

/-- Taking a lock that is free over half of a database. -/
theorem lock_stuck (h : Stuck T s₀) (hn : s₀[LOCK]? = none) :
    Safe F (fun s => s = s₀) (lock policy) (fun _ => Stuck T) (Stuck T) := by
  have grown : ∀ t, Nodes.Grown Db.DIR s₀ t → t = s₀ := by
    intro t ht
    obtain ⟨j, hl, -⟩ := h.left
    exact ht.eq_self hl.tidy.sound (hl.home (List.prefix_refl _))
  refine (lock_rule policy h.tidy hn).conseq (fun _ h => h) ?_ fun s hs => ?_
  · rintro _ s ⟨t, ht, -, rfl⟩
    rw [grown t ht]
    exact h.withLock _
  · cases hs with
    | before hs => rw [grown s hs]; exact h
    | torn c hs _ => rw [grown _ hs]; exact h.withLock _

end Manager

/-- What recovery finds after an orphan: a tree it leads to, or half of a database. -/
def Strays (policy : Policy) (s : Nodes) : Prop :=
  (∃ T, Recovers policy T s) ∨ ∃ T, Stuck T s

section Interrupted

variable {policy : Policy} {plan : Plan} {s₁ s : Nodes}

/-- A transaction stopped before its commit is to be undone. -/
theorem Stopped.leads (h : Stopped plan s₁ s) (hp : Planned policy plan s₁) (ho : ¬ Orphan s) :
    Leads policy s₁ s :=
  .midway hp h.midway ho (.refl s₁)

/-- While a transaction is made, the directories it is to clean up stay directories. -/
theorem Midway.rooted (h : Midway plan s₁ s) (hp : Planned policy plan s₁)
    (hno : s[Db.PATH]? = none) {d : Path} (hd : d ∈ plan.cleanup) : s[d]? = some .dir := by
  have hdb := h.database hp
  obtain ⟨X, done, hX, -, hr⟩ := h
  have hX₁ : X[d]? = some .dir :=
    (hX.same d (hp.cleanup d hd).1).trans (hp.rooted (hdb ▸ hno) d hd)
  exact hr.induct (P := fun t => t[d]? = some .dir) hX₁ fun _ _ _ ht hr => Step.effect_dir hr ht

/-- A transaction stopped as an orphan is taken for committed, or leaves half of a database. -/
theorem Stopped.strays (h : Stopped plan s₁ s) (hp : Planned policy plan s₁) (ho : Orphan s) :
    (∃ T, Adopts policy plan T s) ∨ ∃ T, Stuck T s := by
  obtain ⟨-, hno, hnext⟩ := ho
  rcases h.next with hn | hn | hn
  · rw [hn] at hnext; cases hnext
  · exact .inr ⟨_, ⟨_, h.midway.left hp, hp.validate⟩, .inr ⟨hno, hn, .refl _⟩⟩
  · have hdirs : ∀ d ∈ plan.cleanup, s.NotFile d := by
      intro d hd c hc
      rw [h.midway.rooted hp hno hd] at hc
      cases hc
    exact .inl ⟨_, ⟨⟨s₁, hp, h.midway⟩, hno, hn, hdirs, .refl _⟩⟩

/-- Removing a transaction's own files leaves a staging. -/
theorem Staging.shrunk {t : Nodes} {p : Path} (h : Staging s₁ s) (hp : Journal.TX_DIR <+: p)
    (ht : Nodes.Shrunk p s t) : Staging s₁ t := by
  have hout : ∀ q : Path, ¬ Journal.TX_DIR <+: q → t[q]? = s[q]? :=
    fun q hq => ht.2.1 q fun h => hq (hp.trans h)
  refine ⟨ht.1, fun q hq hq' => (hout q hq).trans (h.same q hq hq'), ?_⟩
  rw [Nodes.NotDir, hout _ (by decide)]
  exact h.tmp

/-- Removing the journal's temporary file leaves a staging. -/
theorem Staging.eraseTmp (h : Staging s₁ s) : Staging s₁ (s.erase Journal.TMP) := by
  refine ⟨h.sound.eraseFile h.tmp, fun q hq hq' => ?_, ?_⟩
  · rw [Nodes.lookup_erase, if_neg hq'.symm, h.same q hq hq']
  · rw [Nodes.NotDir, Nodes.lookup_erase, if_pos rfl]
    simp

/-- The database recovery leads to is the one that is there. -/
theorem Leads.database {T : Nodes} (h : Leads policy T s) : s[Db.PATH]? = T[Db.PATH]? := by
  have hm : managed Db.PATH = true := by decide
  cases h with
  | quiet h => exact h.same _ hm
  | midway hp h _ hT => rw [h.database hp, hT _ hm]
  | undone hp h _ hT => rw [h.same _ hm, hT _ hm]
  | finishing hp hc hdb h hT =>
    obtain ⟨done, -, hsame⟩ := h.swept
    rw [hsame _ hm, ← hT _ hm, Nodes.lookup_sweep_file hdb, Nodes.lookup_sweep_file hdb]

theorem installed_database (plan : Plan) (s : Nodes) :
    (plan.installed s)[Db.PATH]? = some (.file (.db plan.db)) :=
  Nodes.lookup_sweep_file (by rw [Nodes.lookup_insert, if_pos rfl])

end Interrupted

namespace Manager

variable {F : Fuse → Prop} [Steady F] {policy : Policy} {plan : Plan} {s₁ C : Nodes}

/-- A transaction up to its commit, without what handles its errors. -/
def commitSteps (plan : Plan) : Prog Nodes Error Unit := do
  if maxSteps ≤ plan.backups.length + plan.mkdirs.length + plan.places.length then
    throw (.internal "capacity overflow")
  else
    stage plan
    applySteps plan

/-- Giving up a transaction that could not be staged. -/
theorem abandon_rule (hp : Planned policy plan s₁) (e : Error) :
    Triple F (Staging s₁) (abandon plan e) (fun _ _ => False) (fun _ => Staging s₁)
      (Staging s₁) := by
  have htx : Journal.TX_DIR <+: Journal.TX_DIR.join plan.db.lastTx := List.prefix_append _ _
  have hv := txDir_valid (j := journalOf plan) hp.tx
  refine Triple.bind (R := fun _ => Staging s₁) (Triple.of_each fun s hs => ?_) fun _ => ?_
  · exact Triple.ignore (Fs.removeTree_rule hs.sound hv) (fun _ t ht => hs.shrunk htx ht.1)
      (fun _ t ht => hs.shrunk htx ht.2) (fun t ht => hs.shrunk htx ht)
      fun t ht => hs.shrunk htx ht
  refine Triple.bind (R := fun _ => Staging s₁) (Triple.of_each fun s hs => ?_) fun _ =>
    Triple.throw fun _ h => h
  refine Triple.ignore (Q := fun _ => Staging s₁) (G := fun _ => Staging s₁) (D := Staging s₁)
    (Triple.mutate ?_) (fun _ _ h => h) (fun _ _ h => h) (fun _ h => h) fun _ h => h
  rintro t rfl
  split
  · exact ⟨hs.eraseTmp, hs, hs⟩
  · exact hs

/-- A transaction that fails before its commit undoes itself. -/
theorem revertNow_rule (hp : Planned policy plan s₁) (e : Error) :
    Triple F (fun s => Stopped plan s₁ s ∧ ¬ Orphan s) (revertNow policy e) (fun _ _ => False)
      (fun _ => Leads policy s₁) (Leads policy s₁) := by
  refine Triple.of_each ?_
  rintro s ⟨hs, ho⟩
  exact Triple.bind (R := fun _ => Leads policy s₁)
    (Triple.ignore (recoverLocked_midway hp hs.midway ho (.refl s₁)) (fun _ _ h => h.leads)
      (fun _ _ h => h.2) (fun _ h => h) fun _ h => h) fun _ => Triple.throw fun _ h => h

/-- An orphan that fails before its commit is not undone. -/
theorem revertNow_strays (hp : Planned policy plan s₁) (e : Error) :
    Triple F (fun s => Stopped plan s₁ s ∧ Orphan s) (revertNow policy e) (fun _ _ => False)
      (fun _ => Strays policy) (Strays policy) := by
  refine Triple.of_each ?_
  rintro s ⟨hs, ho⟩
  refine Triple.bind (R := fun _ => Strays policy) ?_ fun _ => Triple.throw fun _ h => h
  rcases hs.strays hp ho with ⟨T, h⟩ | ⟨T, h⟩
  · exact Triple.ignore (recoverLocked_adopts h) (fun _ _ h => .inl ⟨T, .leads h.leads⟩)
      (fun _ _ h => .inl ⟨T, h.2⟩) (fun _ h => .inl ⟨T, h⟩) fun _ h => .inl ⟨T, h⟩
  · exact Triple.ignore (recoverLocked_stuck h) (fun _ _ => False.elim)
      (fun _ _ h => .inr ⟨T, h.1⟩) (fun _ h => .inr ⟨T, h⟩) fun _ h => .inr ⟨T, h⟩

/-- After the commit the transaction's traces go. -/
theorem conclude_rule (hp : Planned policy plan s₁) (h : Completed plan s₁ C) :
    Safe F (fun s => s = C) (conclude plan)
      (fun _ s => Settled (plan.installed s₁) s ∨ Disturbed F ∧ Leads policy (plan.installed s₁) s)
      (Leads policy (plan.installed s₁)) := by
  have hleads : ∀ s, Finishing (journalOf plan) C s → Leads policy (plan.installed s₁) s :=
    fun s hs => .finishing hp h.cleanable h.database hs h.same
  have hsync : Safe F (fun s => s = C) (at_ Db.PATH Fs.sync) (fun _ s => s = C) (fun s => s = C) :=
    Safe.mapErr (Fs.sync_rule fun _ h => h)
  refine Safe.bind (R := fun _ s => s = C) (Triple.ignore hsync (fun _ _ h => h) (fun _ _ h => h.2)
    (fun _ h => h) fun s hs => hs ▸ hleads C h.finishing) fun _ => ?_
  refine Triple.attempt_bind (finish_rule h.cleanable h.finishing)
    (fun _ => Triple.ret fun s hs => .inl (hs.of_same h.same))
    (fun _ => Triple.ret fun s hs => .inr ⟨hs.1, hleads s hs.2⟩)
    (fun hF _ => Triple.ret fun s hs => .inr ⟨hF, hleads s hs⟩) hleads

/-- How a transaction ended: before its commit, after it, or astray; `c` is what was there when its
last step stopped. -/
inductive Ending (policy : Policy) (plan : Plan) (s₁ c : Nodes) :
    Except Error Done × World Nodes → Prop
  | before {r : Except Error Done} {w : World Nodes} : Leads policy s₁ w.store →
      (w.fuse = .dead ∨ ∃ e, r = .error e) → Ending policy plan s₁ c (r, w)
  | after {r : Except Error Done} {w : World Nodes} {C : Nodes} : Planned policy plan s₁ →
      Committed plan s₁ C → Leads policy (plan.installed s₁) w.store →
      Ending policy plan s₁ c (r, w)
  | astray {r : Except Error Done} {w : World Nodes} : Orphan c → Strays policy w.store →
      (w.fuse = .dead ∨ ∃ e, r = .error e) → Ending policy plan s₁ c (r, w)

/-- A transaction that committed once commits undisturbed, and then nothing is left of it but what it
installed. -/
theorem execute_again (hp : Planned policy plan s₁) (hs : Ready s₁) (hC : Committed plan s₁ C) :
    Safe Calm (fun s => s = s₁) (execute policy plan)
      (fun d s => Settled (plan.installed s₁) s ∧ ∃ b, d = .done plan.op plan.id plan.version
        plan.db.lastTx b) (fun _ => True) := by
  have calm : ∀ {P : Prop}, Disturbed Calm → P := fun h => absurd h not_disturbed_calm
  rw [execute, if_neg (Nat.not_le.2 hp.size)]
  refine Triple.attempt_bind (stage_rule hp hs) (fun ⟨⟩ => ?_) (fun e => Triple.and_pre calm)
    (fun h => calm h) fun _ _ => trivial
  refine Triple.attempt_bind (applySteps_again hp hs hC) (fun ⟨⟩ => ?_)
    (fun e => Triple.and_pre calm) (fun h => calm h) fun _ _ => trivial
  have hdone := hC.completed hp hs
  have hsync : Safe Calm (fun s => s = C) (at_ Db.PATH Fs.sync) (fun _ s => s = C) (fun s => s = C) :=
    Safe.mapErr (Fs.sync_rule fun _ h => h)
  refine Safe.bind (R := fun _ s => s = C) (Triple.ignore hsync (fun _ _ h => h) (fun _ _ h => h.2)
    (fun _ h => h) fun _ _ => trivial) fun _ => ?_
  refine Triple.attempt_bind (finish_rule hdone.cleanable hdone.finishing)
    (fun _ => Triple.ret fun s hs => ⟨hs.of_same hdone.same, _, rfl⟩)
    (fun e => Triple.and_pre calm) (fun h => calm h) fun _ _ => trivial

/-- A transaction that ends well committed. -/
theorem execute_commits (hp : Planned policy plan s₁) (hs : Ready s₁) :
    Triple Calm (fun s => s = s₁) (execute policy plan) (fun _ _ => ∃ C, Committed plan s₁ C)
      (fun _ _ => True) (fun _ => True) := by
  have calm : ∀ {P : Prop}, Disturbed Calm → P := fun h => absurd h not_disturbed_calm
  rw [execute, if_neg (Nat.not_le.2 hp.size)]
  refine Triple.attempt_bind (stage_rule hp hs) (fun ⟨⟩ => ?_) (fun e => Triple.and_pre calm)
    (fun h => calm h) fun _ _ => trivial
  refine Triple.attempt_bind (R := fun _ => Committed plan s₁) (G := fun _ => Stopped plan s₁)
    (D := Stopped plan s₁) (applySteps_rule hp hs).calm (fun ⟨⟩ => Triple.of_each fun C hC => ?_)
    (fun e => ?_) (fun h => calm h) fun _ _ => trivial
  · exact Triple.conseq (conclude_rule hp (hC.completed hp hs)) (fun _ h => h) (fun _ _ _ => ⟨C, hC⟩)
      (fun _ _ _ => trivial) fun _ _ => trivial
  · -- The handler throws the error again.
    refine Triple.of_each fun s hs' => ?_
    by_cases ho : Orphan s
    · exact (revertNow_strays hp e).conseq (fun t ht => ht ▸ ⟨hs', ho⟩) (fun _ _ => False.elim)
        (fun _ _ _ => trivial) fun _ _ => trivial
    · exact (revertNow_rule hp e).conseq (fun t ht => ht ▸ ⟨hs', ho⟩) (fun _ _ => False.elim)
        (fun _ _ _ => trivial) fun _ _ => trivial

end Manager

end NanoChrono.Ncpkg
