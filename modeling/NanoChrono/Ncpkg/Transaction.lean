import NanoChrono.Ncpkg.Lock
import NanoChrono.Ncpkg.Staging

/-! # The steps and the commit

`Plan.installed` says what a plan makes of the managed tree. `applySteps_rule` follows the steps up
to the commit: interrupted or refused before it, they leave a filesystem `Midway`, with the next
database in one of three states; committed, they leave `Committed`, from which `conclude` and
recovery both end in `Plan.installed`. -/

namespace NanoChrono.Ncpkg

open Crash

/-- The managed tree with a plan's files moved aside, its directories made and its files placed. -/
def Plan.moved (plan : Plan) (s : Nodes) : Nodes :=
  ((plan.backups.foldl (·.erase ·) s).insertAll (fun p => p) (fun _ => .dir) plan.mkdirs).insertAll
    Prod.fst (fun d => .file (.data d.2)) plan.places

/-- The managed tree a plan leads to: the files moved, the new database, the directories left empty
removed. -/
def Plan.installed (plan : Plan) (s : Nodes) : Nodes :=
  sweep plan.cleanup ((plan.moved s).insert Db.PATH (.file (.db plan.db)))

/-- The filesystem with a transaction staged and the next database written. -/
def Plan.prepared (plan : Plan) (s : Nodes) : Nodes :=
  (plan.staged s).insert Db.NEXT (.file (.db plan.db))

/-- A plan's transaction, committed. -/
def Committed (plan : Plan) (s₁ C : Nodes) : Prop :=
  ∃ t, stepLog.Reached (plan.prepared s₁) (Manager.stepsOf plan) t ∧ C = t.move Db.NEXT Db.PATH

/-- A transaction interrupted before its commit: the next database is not there, or torn and no step
is made, or there. -/
structure Stopped (plan : Plan) (s₁ s : Nodes) : Prop where
  midway : Midway plan s₁ s
  next : s[Db.NEXT]? = none ∨ s[Db.NEXT]? = some (.file .torn) ∨
    s[Db.NEXT]? = some (.file (.db plan.db))

section Steps

variable {policy : Policy} {plan : Plan} {s₁ X s t C : Nodes}

/-- Writing the next database changes nothing else. -/
theorem Staged.withNext (h : Staged plan s₁ X) (c : Content) :
    Staged plan s₁ (X.insert Db.NEXT (.file c)) := by
  have hne : ∀ q : Path, q ≠ Db.NEXT → (X.insert Db.NEXT (.file c))[q]? = X[q]? :=
    fun q hq => by rw [Nodes.lookup_insert, if_neg hq.symm]
  have htx : ∀ q : Path, Journal.TX_DIR <+: q → (X.insert Db.NEXT (.file c))[q]? = X[q]? := by
    intro q hq
    refine hne q ?_
    rintro rfl
    exact absurd hq (by decide)
  have hhome : ∀ p ∈ homes, p ≠ Db.NEXT := by decide
  refine ⟨⟨⟨?_, fun p hp => ?_, fun p hp => ?_⟩, ?_, ?_, fun p hp hn => ?_, ?_⟩, fun p hp => ?_,
    fun d i hd => ?_, fun i => ?_⟩
  · exact h.left.tidy.sound.insert (by decide) (h.left.home (List.prefix_refl _))
      (.inr (h.left.tidy.files _ (by decide)))
  · rw [Nodes.NotFile, hne p (hhome p hp)]
    exact h.left.tidy.homes p hp
  · by_cases he : p = Db.NEXT
    · rw [he, Nodes.NotDir, Nodes.lookup_insert, if_pos rfl]
      simp
    · rw [Nodes.NotDir, hne p he]
      exact h.left.tidy.files p hp
  · rw [hne _ (by decide), h.left.journal]
  · rw [hne _ (by decide), h.left.tmp]
  · rw [htx p hp] at hn
    exact h.left.only p hp hn
  · rw [Nodes.NotFile, htx _ (List.prefix_refl _)]
    exact h.left.top
  · rw [hne p, h.same p hp]
    rintro rfl
    exact absurd hp (by decide)
  · rw [htx _ (working_own (staged_working plan i)), h.stage d i hd]
  · rw [htx _ (working_own (backup_working plan i)), h.backup i]

theorem prepared_staged (hp : Planned policy plan s₁) (hs : Ready s₁) :
    Staged plan s₁ (plan.prepared s₁) :=
  (staged_staged hp hs).withNext _

theorem Staged.midway (h : Staged plan s₁ X) : Midway plan s₁ X :=
  ⟨X, [], h, List.nil_prefix, .nil⟩

theorem reached_midway (hX : Staged plan s₁ X) {done : List Step}
    (hd : done <+: Manager.stepsOf plan) (h : stepLog.Reached X done s) : Midway plan s₁ s :=
  ⟨X, done, hX, hd, h⟩

/-- On the way to the commit the next database is there. -/
theorem reached_next (hp : Planned policy plan s₁) {done : List Step}
    (hd : done <+: Manager.stepsOf plan) (h : stepLog.Reached (plan.prepared s₁) done s) :
    s[Db.NEXT]? = some (.file (.db plan.db)) := by
  rw [reached_untouched hp hd h (.inr (by decide)), Plan.prepared, Nodes.lookup_insert, if_pos rfl]

theorem reached_stopped (hp : Planned policy plan s₁) (hs : Ready s₁) {done : List Step}
    (hd : done <+: Manager.stepsOf plan) (h : stepLog.Reached (plan.prepared s₁) done s) :
    Stopped plan s₁ s :=
  ⟨reached_midway (prepared_staged hp hs) hd h, .inr (.inr (reached_next hp hd h))⟩

/-- The database before the transaction is no directory. -/
theorem Planned.database (hp : Planned policy plan s₁) : s₁.NotDir Db.PATH := by
  obtain ⟨d, hd, -⟩ := hp.prior
  cases hd with
  | absent hn => rw [Nodes.NotDir, hn]; simp
  | there hd => rw [Nodes.NotDir, hd]; simp

/-! ### What the steps make of the managed tree -/

/-- Moving files aside takes them out of the managed tree. -/
theorem reached_backups {l : List (Path × Nat)} {x u : Nodes}
    (h : stepLog.Reached x (l.map fun (p, i) =>
      .backup p ((Manager.backupDir plan.db.lastTx).join (toString i))) t)
    (hxu : SameManaged x u) : SameManaged t ((l.map Prod.fst).foldl (·.erase ·) u) := by
  induction l generalizing x u with
  | nil =>
    obtain rfl := h.nil_inv
    exact hxu
  | cons e l ih =>
    obtain ⟨p, i⟩ := e
    obtain ⟨hr, h⟩ := UndoLog.Reached.cons_inv h
    refine ih h fun q hq => ?_
    have hne : (Manager.backupDir plan.db.lastTx).join (toString i) ≠ q := by
      rintro rfl
      rw [not_managed_of_working (backup_working plan i)] at hq
      cases hq
    obtain ⟨c, hc⟩ := Step.Ready.there hr p rfl
    rw [Nodes.lookup_erase, show stepLog.effect _ x = x.move p _ from rfl, Nodes.lookup_move hc,
      if_neg hne, hxu q hq]

/-- Making directories makes them in the managed tree. -/
theorem reached_mkdirs {l : List Path} {x u : Nodes}
    (h : stepLog.Reached x (l.map .mkdir) t) (hxu : SameManaged x u) :
    SameManaged t (u.insertAll (fun p => p) (fun _ => .dir) l) := by
  induction l generalizing x u with
  | nil =>
    obtain rfl := h.nil_inv
    exact hxu
  | cons p l ih =>
    obtain ⟨-, h⟩ := UndoLog.Reached.cons_inv h
    refine ih h fun q hq => ?_
    rw [Nodes.lookup_insert, show stepLog.effect _ x = x.insert p .dir from rfl,
      Nodes.lookup_insert, hxu q hq]

/-- Placing staged files puts their data into the managed tree. -/
theorem reached_places {l : List ((Path × Bytes) × Nat)} {x u : Nodes}
    (h : stepLog.Reached x (l.map fun (d, i) =>
      .place ((Manager.stageDir plan.db.lastTx).join (toString i)) d.1) t)
    (hl : l.Pairwise fun a b => a.2 < b.2) (hm : ∀ e ∈ l, managed e.1.1 = true)
    (hstage : ∀ e ∈ l, x[stageKey plan e]? = some (stageVal e)) (hxu : SameManaged x u) :
    SameManaged t (u.insertAll Prod.fst (fun d => .file (.data d.2)) (l.map Prod.fst)) := by
  induction l generalizing x u with
  | nil =>
    obtain rfl := h.nil_inv
    exact hxu
  | cons e l ih =>
    obtain ⟨hlt, hl⟩ := List.pairwise_cons.1 hl
    obtain ⟨-, h⟩ := UndoLog.Reached.cons_inv h
    have he := hstage e (by simp)
    have hmove : ∀ q, (x.move (stageKey plan e) e.1.1)[q]? = if e.1.1 = q then some (stageVal e)
        else if stageKey plan e = q then none else x[q]? := Nodes.lookup_move he
    refine ih h hl (fun a ha => hm a (by simp [ha])) (fun a ha => ?_) fun q hq => ?_
    · refine (hmove _).trans ?_
      rw [if_neg, if_neg, hstage a (by simp [ha])]
      · intro heq
        have := hlt a ha
        have := stage_inj heq
        omega
      · intro heq
        have hm' := hm e (by simp)
        rw [heq, show managed (stageKey plan a) = false from
          not_managed_of_working (staged_working plan a.2)] at hm'
        cases hm'
    · rw [Nodes.lookup_insert]
      refine (hmove q).trans ?_
      have hne : stageKey plan e ≠ q := by
        rintro rfl
        rw [show managed (stageKey plan e) = false from
          not_managed_of_working (staged_working plan e.2)] at hq
        cases hq
      rw [if_neg hne, hxu q hq]
      rfl

/-- What all steps of a plan make of the managed tree. -/
theorem reached_moved (hp : Planned policy plan s₁) (hX : Staged plan s₁ X)
    (h : stepLog.Reached X (Manager.stepsOf plan) t) : SameManaged t (plan.moved s₁) := by
  rw [Manager.stepsOf] at h
  obtain ⟨y, hy, hplaces⟩ := h.append_inv
  obtain ⟨x, hbackups, hmkdirs⟩ := hy.append_inv
  have hx := reached_backups hbackups hX.same
  rw [List.zipIdx_map_fst] at hx
  have hmoved := reached_places hplaces (zipIdx_pairwise _)
    (fun e he => (hp.places e.1 (List.fst_mem_of_mem_zipIdx he)).2.1) (fun e he => ?_)
    (reached_mkdirs hmkdirs hx)
  · rw [List.zipIdx_map_fst] at hmoved
    exact hmoved
  · rw [reached_frame hy fun st hst => ?_]
    · exact hX.stage e.1 e.2 he
    · -- Neither a backup nor a directory is a staged file.
      have hnot : ∀ q : Path, managed q = true → q ≠ stageKey plan e := by
        rintro q hq rfl
        rw [show managed (stageKey plan e) = false from
          not_managed_of_working (staged_working plan e.2)] at hq
        cases hq
      rcases List.mem_append.1 hst with hst | hst
      · obtain ⟨⟨p, i⟩, hpi, rfl⟩ := List.mem_map.1 hst
        refine ⟨(stage_ne_backup plan e.2 i).symm, fun he' => ?_⟩
        exact hnot p (hp.backups p (List.fst_mem_of_mem_zipIdx hpi)).2.1 (Option.some.inj he')
      · obtain ⟨p, hpm, rfl⟩ := List.mem_map.1 hst
        exact ⟨hnot p (hp.mkdirs p hpm).2.1, by simp [Step.removed]⟩

/-- A file was moved aside, so what lies above it is a directory. -/
theorem reached_above (hp : Planned policy plan s₁) (hX : Staged plan s₁ X) {done : List Step}
    (hd : done <+: Manager.stepsOf plan) (h : stepLog.Reached X done t) {st : Step}
    (hst : st ∈ done) {p d : Path} (hrem : st.removed = some p) (hdp : d <+: p) (hne : d ≠ p) :
    t[d]? = some .dir := by
  induction h with
  | nil => cases hst
  | @snoc done st' s h hr ih =>
    have hd' : done <+: Manager.stepsOf plan := (List.prefix_append _ _).trans hd
    refine Step.effect_dir hr ?_
    rcases List.mem_append.1 hst with hst | hst
    · exact ih hd' hst
    · obtain rfl := List.mem_singleton.1 hst
      obtain ⟨c, hc⟩ := Step.Ready.there hr p hrem
      have hsound := ((reached_midway hX hd' h).left hp).tidy.sound
      exact hsound.above (by rw [hc]; rfl) hdp hne

/-- What a committed transaction leaves. -/
structure Completed (plan : Plan) (s₁ C : Nodes) : Prop where
  cleanable : Cleanable (Manager.journalOf plan) C
  finishing : Finishing (Manager.journalOf plan) C C
  database : C[Db.PATH]? = some (.file (.db plan.db))
  same : SameManaged (sweep plan.cleanup C) (plan.installed s₁)

theorem Committed.completed (hp : Planned policy plan s₁) (hs : Ready s₁) (h : Committed plan s₁ C) :
    Completed plan s₁ C := by
  obtain ⟨t, ht, rfl⟩ := h
  have hX := prepared_staged hp hs
  have hmid := reached_midway hX (List.prefix_refl _) ht
  have hnext := reached_next hp (List.prefix_refl _) ht
  have hdb : t.NotDir Db.PATH := by
    rw [Nodes.NotDir, hmid.database hp]
    exact hp.database
  have hC : (t.move Db.NEXT Db.PATH)[Db.PATH]? = some (.file (.db plan.db)) := by
    rw [Nodes.lookup_move hnext, if_pos rfl]
  refine ⟨hp.cleanable fun d hd c => ?_,
    ⟨(hmid.left hp).adopt hnext hdb, [], List.nil_prefix, .refl _⟩, hC, ?_⟩
  · obtain ⟨-, -, hdp, b, hb, hdb', hne⟩ := hp.cleanup d hd
    obtain ⟨k, hk, rfl⟩ := List.mem_iff_getElem.1 hb
    have hst : Step.backup plan.backups[k] ((Manager.backupDir plan.db.lastTx).join (toString k)) ∈
        Manager.stepsOf plan :=
      mem_stepsOf.2 (.inl ⟨_, k, List.mem_zipIdx_iff_getElem?.2 (List.getElem?_eq_getElem hk), rfl⟩)
    have hdir := reached_above hp hX (List.prefix_refl _) ht hst rfl hdb' hne
    rw [Nodes.lookup_move hnext, if_neg hdp.symm, hdir]
    split <;> simp
  · refine SameManaged.sweep (fun q hq => ?_) fun d hd => ⟨(hp.cleanup d hd).1, (hp.cleanup d hd).2.1⟩
    have hne : Db.NEXT ≠ q := by
      rintro rfl
      exact absurd hq (by decide)
    rw [Nodes.lookup_move hnext, Nodes.lookup_insert, if_neg hne, reached_moved hp hX ht q hq]

end Steps

namespace Manager

variable {F : Fuse → Prop} [Steady F] {policy : Policy} {plan : Plan} {s₁ C : Nodes}

/-- Writing the next database. -/
theorem writeNext_rule (hp : Planned policy plan s₁) (hs : Ready s₁) :
    Safe F (fun s => s = plan.staged s₁) (at_ Db.NEXT (Db.writeNext plan.db))
      (fun _ s => s = plan.prepared s₁) (Stopped plan s₁) := by
  have hst := staged_staged hp hs
  have hsound := hst.left.tidy.sound
  have hhome := hst.left.home (List.prefix_refl _)
  have hnext : (plan.staged s₁)[Db.NEXT]? = none := by
    rw [Plan.staged, Nodes.lookup_insert, if_neg (by decide),
      lookup_staging_of_not_tx (by decide), hs.next]
  have hstopped : Stopped plan s₁ (plan.staged s₁) := ⟨hst.midway, .inl hnext⟩
  refine Safe.mapErr (Safe.bind (R := fun _ s => s = plan.staged s₁)
    (Fs.removeFile_rule fun s h => ?_) fun _ => ?_)
  · subst h
    exact ⟨by decide, hst.left.tidy.files _ (by decide), Nodes.erase_of_none hnext, hstopped⟩
  refine Safe.bind (R := fun _ s => s = plan.staged s₁)
    ((Fs.createDirAll_rule hsound (by decide) fun q hq c => ?_).conseq (fun _ h => h)
      (fun _ s h => h.1.eq_self hsound hhome) fun s h => ?_) fun _ => Fs.create_rule fun s h => ?_
  · rw [hst.left.home hq]
    simp
  · rw [Nodes.Grown.eq_self h hsound hhome]
    exact hstopped
  · subst h
    exact ⟨by decide, hhome, hnext, rfl,
      fun _ => ⟨(hst.withNext _).midway, .inr (.inl (by rw [Nodes.lookup_insert, if_pos rfl]; rfl))⟩,
      hstopped⟩

/-- The commit: the next database becomes the database. -/
theorem commit_rule (hp : Planned policy plan s₁) (hs : Ready s₁) {t : Nodes}
    (ht : stepLog.Reached (plan.prepared s₁) (stepsOf plan) t) :
    Safe F (fun s => s = t) (at_ Db.PATH (Fs.replace Db.NEXT Db.PATH))
      (fun _ s => s = t.move Db.NEXT Db.PATH) (Stopped plan s₁) := by
  have hstopped := reached_stopped hp hs (List.prefix_refl _) ht
  have hleft := hstopped.midway.left hp
  refine Safe.mapErr (Fs.replace_rule fun s h => ?_)
  subst h
  refine ⟨by decide, by decide, hleft.home (List.prefix_refl _),
    ⟨_, reached_next hp (List.prefix_refl _) ht⟩, ?_, rfl, hstopped⟩
  rw [Nodes.NotDir, hstopped.midway.database hp]
  exact hp.database

/-- The steps of a plan, up to its commit. -/
theorem applySteps_rule (hp : Planned policy plan s₁) (hs : Ready s₁) :
    Triple Live (fun s => s = plan.staged s₁) (applySteps plan) (fun _ => Committed plan s₁)
      (fun _ => Stopped plan s₁) (Stopped plan s₁) := by
  have hX := prepared_staged hp hs
  have safe : ∀ {α : Type} {P : Nodes → Prop} {p : Prog Nodes Error α} {Q : α → Nodes → Prop},
      Safe Live P p Q (Stopped plan s₁) →
      Triple Live P p Q (fun _ => Stopped plan s₁) (Stopped plan s₁) :=
    fun h => h.triple fun _ _ _ h => h
  refine Triple.bind (safe (writeNext_rule hp hs)) fun _ => ?_
  refine Triple.bind (R := fun _ s => s = plan.prepared s₁)
    (safe (Safe.mapErr (Fs.sync_rule fun _ h => h))) fun _ => ?_
  refine Triple.bind (R := fun _ => stepLog.Reached (plan.prepared s₁) (stepsOf plan))
    ((UndoLog.forth_all (stepLog_lawful (stepsOf_pathsOk hp)) (hX.startable hp)).conseq
      (fun _ h => h) (fun _ _ h => h) ?_ ?_) fun _ => ?_
  · rintro _ s ⟨done, hd, hr⟩
    exact reached_stopped hp hs hd hr
  · rintro s ⟨done, hd, hr⟩
    exact reached_stopped hp hs hd hr
  refine Triple.bind (R := fun _ => stepLog.Reached (plan.prepared s₁) (stepsOf plan))
    (safe (Safe.mapErr (Fs.sync_rule fun _ h => h))) fun _ => ?_
  refine Triple.of_each fun t ht => ?_
  refine safe ((commit_rule hp hs ht).conseq (fun _ h => h) ?_ fun _ h => h)
  rintro _ s rfl
  exact ⟨t, ht, rfl⟩

/-- A plan that committed once commits again from the same start, to the same filesystem. -/
theorem applySteps_again (hp : Planned policy plan s₁) (hs : Ready s₁)
    (hC : Committed plan s₁ C) :
    Safe F (fun s => s = plan.staged s₁) (applySteps plan) (fun _ s => s = C)
      (Stopped plan s₁) := by
  obtain ⟨t, ht, rfl⟩ := hC
  have hX := prepared_staged hp hs
  refine Safe.bind (writeNext_rule hp hs) fun _ => ?_
  refine Safe.bind (R := fun _ s => s = plan.prepared s₁)
    (Safe.mapErr (Fs.sync_rule fun _ h => h)) fun _ => ?_
  refine Safe.bind ((UndoLog.Reached.make (stepLog_lawful (stepsOf_pathsOk hp)) (hX.startable hp)
    F ht).conseq (fun _ h => h) (fun _ _ h => h) ?_) fun _ => ?_
  · rintro s ⟨done, hd, hr⟩
    exact reached_stopped hp hs hd hr
  refine Safe.bind (R := fun _ s => s = t) (Safe.mapErr (Fs.sync_rule fun _ h => h)) fun _ => ?_
  exact commit_rule hp hs ht

end Manager

end NanoChrono.Ncpkg
