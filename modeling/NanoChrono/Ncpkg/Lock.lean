import NanoChrono.Ncpkg.Recovery

/-! # Recovery under the lock

`recover` takes the lock, recovers and gives the lock back. The lock is one file of the working area
that no transaction names, so recovery ends where it ends whether or not the lock is held
(`Recovers.withLock`), and `recover_rule` carries `recoverLocked_recovers` over to the whole
operation. -/

namespace NanoChrono.Ncpkg

open Crash

namespace Nodes

variable {s : Nodes} {v : Option Content} {q : Path}

/-- The filesystem with the lock file holding `v`, or without one. -/
def withLock (s : Nodes) : Option Content → Nodes
  | some c => s.insert LOCK (.file c)
  | none => s.erase LOCK

@[simp] theorem lookup_withLock :
    (s.withLock v)[q]? = if LOCK = q then v.map .file else s[q]? := by
  cases v with
  | none => rw [withLock, lookup_erase]; rfl
  | some c => rw [withLock, lookup_insert]; rfl

theorem lookup_withLock_of_ne (h : LOCK ≠ q) : (s.withLock v)[q]? = s[q]? := by
  rw [lookup_withLock, if_neg h]

/-- Moving files that are not the lock. -/
theorem move_withLock {p : Path} (hp : LOCK ≠ p) (hq : LOCK ≠ q) {n : Node} (hn : s[p]? = some n) :
    (s.withLock v).move p q = (s.move p q).withLock v := by
  have hn' : (s.withLock v)[p]? = some n := by rw [lookup_withLock_of_ne hp, hn]
  refine ext fun r => ?_
  rw [lookup_move hn', lookup_withLock, lookup_withLock, lookup_move hn]
  by_cases hr : LOCK = r
  · subst hr
    rw [if_neg hq.symm, if_neg hp.symm, if_pos rfl, if_pos rfl]
  · rw [if_neg hr, if_neg hr]

end Nodes

/-! ## The lock is nobody's business -/

section WithLock

variable {policy : Policy} {plan : Plan} {j : Journal} {v : Option Content} {st : Step}
  {T C X s s₁ t : Nodes} {done : List Step}

theorem SameManaged.withLock (s : Nodes) (v : Option Content) : SameManaged (s.withLock v) s := by
  refine .of_own fun p hp => Nodes.lookup_withLock_of_ne ?_
  rintro rfl
  exact absurd hp (by decide)

/-- A tidy filesystem stays tidy when its lock changes hands. -/
theorem Tidy.withLock (h : Tidy s) (hv : v.isSome = true → s[Db.DIR]? = some .dir) :
    Tidy (s.withLock v) := by
  have hsound : (s.withLock v).Sound := by
    cases v with
    | none => exact h.sound.eraseFile (h.files LOCK (by decide))
    | some c =>
      exact h.sound.insert (by decide) (hv rfl) (.inr (h.files LOCK (by decide)))
  refine ⟨hsound, fun p hp => ?_, fun p hp => ?_⟩
  · have hne : ∀ p ∈ Ncpkg.homes, LOCK ≠ p := by decide
    rw [Nodes.NotFile, Nodes.lookup_withLock_of_ne (hne p hp)]
    exact h.homes p hp
  · rw [Nodes.NotDir, Nodes.lookup_withLock]
    split
    · cases v <;> simp
    · exact h.files p hp

theorem Quiet.withLock (h : Quiet T s) (hv : v.isSome = true → s[Db.DIR]? = some .dir) :
    Quiet T (s.withLock v) :=
  ⟨h.tidy.withLock hv, (SameManaged.withLock s v).trans h.same, by
    rw [Nodes.lookup_withLock_of_ne (by decide), h.journal]⟩

theorem Settled.withLock (h : Settled T s) (hv : v.isSome = true → s[Db.DIR]? = some .dir) :
    Settled T (s.withLock v) := by
  refine { h.toQuiet.withLock hv with next := ?_, tmp := ?_, tx := fun p hp => ?_, home := ?_ }
  · rw [Nodes.lookup_withLock_of_ne (by decide), h.next]
  · rw [Nodes.lookup_withLock_of_ne (by decide), h.tmp]
  · rw [Nodes.lookup_withLock_of_ne, h.tx p hp]
    rintro rfl
    exact absurd hp (by decide)
  · rw [Nodes.lookup_withLock_of_ne (by decide), h.home]

theorem Leftover.withLock (h : Leftover j s) (v : Option Content) : Leftover j (s.withLock v) := by
  have htx : ∀ q : Path, Journal.TX_DIR <+: q → (s.withLock v)[q]? = s[q]? := by
    intro q hq
    refine Nodes.lookup_withLock_of_ne ?_
    rintro rfl
    exact absurd hq (by decide)
  refine ⟨h.tidy.withLock fun _ => h.home (List.prefix_refl _), ?_, ?_, fun p hp hs => ?_, ?_⟩
  · rw [Nodes.lookup_withLock_of_ne (by decide), h.journal]
  · rw [Nodes.lookup_withLock_of_ne (by decide), h.tmp]
  · rw [htx p hp] at hs
    exact h.only p hp hs
  · rw [Nodes.NotFile, htx _ (List.prefix_refl _)]
    exact h.top

theorem Step.Ready.withLock (h : st.Ready s) (hs : s.NotDir LOCK) (hc : st.created ≠ LOCK)
    (hr : st.removed ≠ some LOCK) : st.Ready (s.withLock v) where
  parent := by
    rw [Nodes.lookup_withLock_of_ne, h.parent]
    intro he
    exact hs (he ▸ h.parent)
  free := by rw [Nodes.lookup_withLock_of_ne hc.symm, h.free]
  there src hsrc := by
    rw [Nodes.lookup_withLock_of_ne]
    · exact h.there src hsrc
    · rintro rfl
      exact hr hsrc

/-- A step does the same under the lock. -/
theorem Step.effect_withLock (h : st.Ready s) (hs : s.NotDir LOCK) (hc : st.created ≠ LOCK)
    (hr : st.removed ≠ some LOCK) : st.effect (s.withLock v) = (st.effect s).withLock v := by
  refine Nodes.ext fun q => ?_
  rw [lookup_effect (h.withLock hs hc hr), Nodes.lookup_withLock, Nodes.lookup_withLock,
    lookup_effect h]
  by_cases hq : LOCK = q
  · subst hq
    rw [if_neg hc, if_neg hr, if_pos rfl, if_pos rfl]
  · rw [if_neg hq, if_neg hq]
    cases hrem : st.removed with
    | none => rfl
    | some src =>
      have hsrc : (s.withLock v)[src]? = s[src]? := by
        refine Nodes.lookup_withLock_of_ne ?_
        rintro rfl
        exact hr hrem
      simp only [hsrc]

theorem reached_withLock (hp : Planned policy plan s₁) (hX : X.NotDir LOCK)
    (h : stepLog.Reached X done s) (hd : done <+: Manager.stepsOf plan) :
    stepLog.Reached (X.withLock v) done (s.withLock v) := by
  induction h with
  | nil => exact .nil
  | @snoc done st s h hr ih =>
    have hd' : done <+: Manager.stepsOf plan := (List.prefix_append _ _).trans hd
    obtain ⟨hc, hrem⟩ := step_untouched hp (hd.subset (by simp) : st ∈ Manager.stepsOf plan)
      (q := LOCK) (.inr (by decide))
    have hs : s.NotDir LOCK := by
      rw [Nodes.NotDir, reached_untouched hp hd' h (.inr (by decide))]
      exact hX
    have he : stepLog.effect st (s.withLock v) = (stepLog.effect st s).withLock v :=
      Step.effect_withLock hr hs hc hrem
    rw [← he]
    exact (ih hd').snoc (Step.Ready.withLock hr hs hc hrem)

theorem Staged.withLock (h : Staged plan s₁ X) (v : Option Content) :
    Staged plan s₁ (X.withLock v) := by
  have hw : ∀ q, working plan q → (X.withLock v)[q]? = X[q]? := by
    intro q hq
    refine Nodes.lookup_withLock_of_ne ?_
    rintro rfl
    exact absurd (working_own hq) (by decide)
  refine ⟨h.left.withLock v, (SameManaged.withLock X v).trans h.same, fun d i hd => ?_,
    fun i => ?_⟩
  · rw [hw _ (staged_working plan i), h.stage d i hd]
  · rw [hw _ (backup_working plan i), h.backup i]

theorem Midway.withLock (hp : Planned policy plan s₁) (h : Midway plan s₁ s) (v : Option Content) :
    Midway plan s₁ (s.withLock v) := by
  obtain ⟨X, done, hX, hd, hr⟩ := h
  exact ⟨X.withLock v, done, hX.withLock v, hd,
    reached_withLock hp (hX.left.tidy.files LOCK (by decide)) hr hd⟩

theorem Undone.withLock (h : Undone plan s₁ s) (v : Option Content) :
    Undone plan s₁ (s.withLock v) := by
  refine ⟨h.left.withLock v, (SameManaged.withLock s v).trans h.same, fun i => ?_⟩
  rw [Nodes.lookup_withLock_of_ne, h.backup i]
  intro he
  exact absurd (he ▸ working_own (backup_working plan i)) (by decide)

theorem Finishing.withLock (h : Finishing j C s) (v : Option Content) :
    Finishing j C (s.withLock v) := by
  obtain ⟨done, hd, hs⟩ := h.swept
  exact ⟨h.left.withLock v, done, hd, (SameManaged.withLock s v).trans hs⟩

theorem Orphan.of_withLock (h : Orphan (s.withLock v)) : Orphan s := by
  obtain ⟨hj, hd, hn⟩ := h
  rw [Nodes.lookup_withLock_of_ne (by decide)] at hj hd hn
  exact ⟨hj, hd, hn⟩

/-- No step of a plan names the lock. -/
theorem Replayable.withLock (h : Replayable s)
    (hj : ∀ j, s[Journal.PATH]? = some (.file (.journal j)) →
      ∀ st ∈ j.steps, st.created ≠ LOCK ∧ st.removed ≠ some LOCK) :
    Replayable (s.withLock v) := by
  intro j hjs hdb src dst bak hplace hback
  rw [Nodes.lookup_withLock_of_ne (by decide)] at hjs
  rw [Nodes.lookup_withLock_of_ne (by decide)] at hdb
  obtain ⟨hdst, hsrc⟩ := hj j hjs _ hplace
  obtain ⟨hbak, -⟩ := hj j hjs _ hback
  have hne : LOCK ≠ src ∧ LOCK ≠ bak ∧ LOCK ≠ dst :=
    ⟨fun he => hsrc (by rw [he]; rfl), Ne.symm hbak, Ne.symm hdst⟩
  rw [Nodes.lookup_withLock_of_ne hne.1, Nodes.lookup_withLock_of_ne hne.2.1,
    Nodes.lookup_withLock_of_ne hne.2.2]
  exact h j hjs hdb src dst bak hplace hback

/-- A filesystem leads where it leads with or without the lock. -/
theorem Leads.withLock (h : Leads policy T s) (hv : v.isSome = true → s[Db.DIR]? = some .dir) :
    Leads policy T (s.withLock v) := by
  cases h with
  | quiet h => exact .quiet (h.withLock hv)
  | midway hp h ho hT => exact .midway hp (h.withLock hp v) (fun h => ho h.of_withLock) hT
  | undone hp h ho hT => exact .undone hp (h.withLock v) (fun h => ho h.of_withLock) hT
  | finishing hp hc hdb h hT => exact .finishing hp hc hdb (h.withLock v) hT

theorem Adopts.withLock (h : Adopts policy plan T s) (v : Option Content) :
    Adopts policy plan T (s.withLock v) := by
  obtain ⟨s₁, hp, hmid⟩ := h.planned
  have hmove : (s.withLock v).move Db.NEXT Db.PATH = (s.move Db.NEXT Db.PATH).withLock v :=
    Nodes.move_withLock (by decide) (by decide) h.next
  refine ⟨⟨s₁, hp, hmid.withLock hp v⟩, ?_, ?_, fun d hd c => ?_, ?_⟩
  · rw [Nodes.lookup_withLock_of_ne (by decide), h.absent]
  · rw [Nodes.lookup_withLock_of_ne (by decide), h.next]
  · rw [Nodes.lookup_withLock_of_ne]
    · exact h.dirs d hd c
    · rintro rfl
      exact absurd (hp.cleanup _ hd).1 (by decide)
  · rw [hmove]
    exact ((SameManaged.withLock _ v).sweep fun d hd =>
      ⟨(hp.cleanup d hd).1, (hp.cleanup d hd).2.1⟩).trans h.same

namespace Recovers

/-- Either nothing is pending, or a plan's journal stands. -/
theorem quiet_or_left (h : Recovers policy T s) :
    Quiet T s ∨ ∃ plan s₁, Planned policy plan s₁ ∧ Leftover (Manager.journalOf plan) s := by
  rcases h with h | h
  · cases h with
    | quiet h => exact .inl h
    | midway hp h _ _ => exact .inr ⟨_, _, hp, h.left hp⟩
    | undone hp h _ _ => exact .inr ⟨_, _, hp, h.left⟩
    | finishing hp _ _ h _ => exact .inr ⟨_, _, hp, h.left⟩
  · obtain ⟨s₁, hp, hmid⟩ := h.planned
    exact .inr ⟨_, _, hp, hmid.left hp⟩

theorem tidy (h : Recovers policy T s) : Tidy s := by
  rcases h.quiet_or_left with h | ⟨_, _, _, h⟩
  · exact h.tidy
  · exact h.tidy

theorem withLock (h : Recovers policy T s) (hv : v.isSome = true → s[Db.DIR]? = some .dir) :
    Recovers policy T (s.withLock v) := by
  rcases h with h | h
  · exact .leads (h.withLock hv)
  · exact .adopts (h.withLock v)

theorem replayable_withLock (h : Recovers policy T s) (hr : Replayable s) :
    Replayable (s.withLock v) := by
  refine hr.withLock fun j hj st hst => ?_
  rcases h.quiet_or_left with h' | ⟨plan, s₁, hp, hl⟩
  · rw [h'.journal] at hj
    cases hj
  · rw [hl.journal] at hj
    cases hj
    exact step_untouched hp hst (.inr (by decide))

end Recovers

/-- Making the directory the lock lies in keeps a filesystem quiet. -/
theorem Quiet.grown (h : Quiet T s) (hg : Nodes.Grown Db.DIR s t) : Quiet T t := by
  have outside : ∀ q : Path, q ∉ homes → t[q]? = s[q]? := by
    intro q hq
    rcases hg.2 q with h' | ⟨hpre, hn, -⟩
    · exact h'
    · have hall : ∀ q ∈ List.inits Db.DIR, q ∉ homes → q = [] := by decide
      rw [hall q ((List.mem_inits _ _).2 hpre) hq, h.tidy.sound.root] at hn
      cases hn
  refine ⟨⟨hg.1, fun p hp c hc => ?_, fun p hp => ?_⟩, fun p hp => ?_, ?_⟩
  · rcases hg.2 p with h₁ | ⟨-, -, h₁⟩
    · exact h.tidy.homes p hp c (h₁ ▸ hc)
    · rw [h₁] at hc; cases hc
  · have hne : ∀ p ∈ ownFiles, p ∉ homes := by decide
    rw [Nodes.NotDir, outside p (hne p hp)]
    exact h.tidy.files p hp
  · rw [outside p (managed_iff.1 hp).2]
    exact h.same p hp
  · rw [outside _ (by decide), h.journal]

/-- While a journal stands, the directory the lock lies in is there. -/
theorem Recovers.grown (h : Recovers policy T s) (hg : Nodes.Grown Db.DIR s t) :
    t = s ∨ Quiet T t := by
  rcases h.quiet_or_left with h' | ⟨_, _, _, hl⟩
  · exact .inr (h'.grown hg)
  · exact .inl (hg.eq_self h.tidy.sound (hl.home (List.prefix_refl _)))

end WithLock

/-- No file lies where the lock's directory is to be. -/
theorem Tidy.notFile {s : Nodes} (h : Tidy s) {q : Path} (hq : q <+: Db.DIR) : s.NotFile q := by
  by_cases hq' : q ∈ Ncpkg.homes
  · exact h.homes q hq'
  · have hall : ∀ q ∈ List.inits Db.DIR, q ∉ Ncpkg.homes → q = [] := by decide
    rw [hall q ((List.mem_inits _ _).2 hq) hq', Nodes.NotFile, h.sound.root]
    simp

namespace Manager

variable {F : Fuse → Prop} [Steady F] {policy : Policy} {D : Nodes → Prop} {s₀ T : Nodes}

/-- What taking the lock may leave: the directory it lies in, or part of that, and the lock file, or
part of that. -/
inductive Locking (s₀ : Nodes) : Nodes → Prop
  | before {s : Nodes} : Nodes.Grown Db.DIR s₀ s → Locking s₀ s
  | torn {s : Nodes} (c : Content) : Nodes.Grown Db.DIR s₀ s → s[Db.DIR]? = some .dir →
      Locking s₀ (s.withLock (some c))

variable (policy) in
/-- Taking a lock that is free. -/
theorem lock_rule (h : Tidy s₀) (hn : s₀[LOCK]? = none) :
    Safe F (fun s => s = s₀) (lock policy)
      (fun _ s => ∃ t, Nodes.Grown Db.DIR s₀ t ∧ t[Db.DIR]? = some .dir ∧
        s = t.withLock (some (.data policy.owner))) (Locking s₀) := by
  have hfree : ∀ t, Nodes.Grown Db.DIR s₀ t → t[LOCK]? = none := by
    intro t ht
    rcases ht.2 LOCK with h' | ⟨hpre, -, -⟩
    · rw [h', hn]
    · exact absurd hpre (by decide)
  refine Safe.bind (R := fun _ t => Nodes.Grown Db.DIR s₀ t ∧ t[Db.DIR]? = some .dir)
    (Safe.mapErr ((Fs.createDirAll_rule h.sound (by decide) fun _ => h.notFile).conseq
      (fun _ h => h) (fun _ _ h => h) fun _ h => .before h)) fun _ => ?_
  refine Triple.of_each ?_
  rintro t ⟨ht, hdir⟩
  refine Triple.attempt_mutate_bind (R := fun s => s = t.withLock (some (.data policy.owner)))
    (G := fun _ _ => False) (D := Locking s₀) (fun s hs => ?_) (Triple.ret ?_) (fun e => nofun)
    (fun hF => Triple.throw fun s hs => ⟨hF, hs⟩) (fun _ h => h)
  · subst hs
    have hv : Path.isSystemPath LOCK = true := by decide
    simp only [Fs.check_eq_ok hv, Fs.ok_bind, Fs.parentIsDir_eq_ok (p := LOCK) hdir,
      Fs.vacant_eq_ok (hfree s ht)]
    refine ⟨rfl, ?_, .before ht⟩
    split
    · exact .before ht
    · exact .torn _ ht hdir
  · rintro s rfl
    exact ⟨t, ht, hdir, rfl⟩

/-- Giving the lock back. -/
theorem unlock_rule {ε : Type} {G : ε → Nodes → Prop} (h : Tidy s₀) (hD : D s₀) :
    Triple F (fun s => s = s₀) (unlock : Prog Nodes ε Unit)
      (fun _ s => s = s₀.withLock none ∨ Disturbed F ∧ s = s₀) G D := by
  have hv : Path.isSystemPath LOCK = true := by decide
  refine Triple.attempt_mutate_bind (R := fun s => s = s₀.withLock none)
    (G := fun _ s => s = s₀.withLock none) (D := fun s => s = s₀) (fun s hs => ?_)
    (Triple.ret fun _ h => .inl h) (fun _ => Triple.ret fun _ h => .inl h)
    (fun hF => Triple.ret fun _ h => .inr ⟨hF, h⟩) fun s hs => hs ▸ hD
  subst hs
  simp only [Fs.check_eq_ok hv, Fs.ok_bind]
  rcases hl : s[LOCK]? with _ | c | _
  · exact (Nodes.erase_of_none hl).symm
  · exact ⟨rfl, rfl, trivial⟩
  · exact absurd hl (h.files LOCK (by decide))

/-- Taking a lock that is free changes nothing about where recovery leads. -/
theorem lock_recovers (hs : Recovers policy T s₀) (hr : Replayable s₀) (hn : s₀[LOCK]? = none) :
    Safe F (fun s => s = s₀) (lock policy)
      (fun _ s => Recovers policy T s ∧ Replayable s ∧ s[Db.DIR]? = some .dir)
      (Recovers policy T) := by
  have grown : ∀ t, Nodes.Grown Db.DIR s₀ t → Recovers policy T t ∧ Replayable t := by
    intro t ht
    rcases hs.grown ht with rfl | hq
    · exact ⟨hs, hr⟩
    · refine ⟨.leads (.quiet hq), fun j hj => ?_⟩
      rw [hq.journal] at hj
      cases hj
  refine (lock_rule policy hs.tidy hn).conseq (fun _ h => h) ?_ fun s h => ?_
  · rintro _ _ ⟨t, ht, hdir, rfl⟩
    obtain ⟨h, hrep⟩ := grown t ht
    exact ⟨h.withLock fun _ => hdir, h.replayable_withLock hrep,
      by rw [Nodes.lookup_withLock_of_ne (by decide), hdir]⟩
  · cases h with
    | before h => exact (grown s h).1
    | torn c h hdir => exact (grown _ h).1.withLock fun _ => hdir

end Manager

end NanoChrono.Ncpkg
