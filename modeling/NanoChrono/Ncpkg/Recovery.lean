import NanoChrono.Ncpkg.Cleanup
import NanoChrono.Ncpkg.Names

/-! # Recovery

`Planned` is what planning promises about the filesystem a transaction starts on, `Staged` the
filesystem once its journal is written. From there every interruption of the transaction, of its
undoing or of its clean-up leaves one of four kinds of filesystem, and `Leads T` collects them with
the managed tree `T` that recovery produces. A fifth kind, `Adopting T`, is an `Orphan`: recovery
takes its transaction for committed, whatever was made of it. `recoverLocked_rule` is the result:
recovery leads there, and wherever it is interrupted itself the filesystem still leads there, as long
as it starts on a filesystem that is `Replayable`. -/

namespace NanoChrono.Ncpkg

open Crash

/-- The database file `s` holds, as `Db.load` answers. -/
inductive Loads (arch : String) (s : Nodes) : Db → Prop
  | absent : s[Db.PATH]? = none → Loads arch s (Db.empty arch)
  | there {d : Db} : s[Db.PATH]? = some (.file (.db d)) → d.check = .ok () → d.arch = arch →
      Loads arch s d

/-- What planning promises about a plan made on `s₁`. -/
structure Planned (policy : Policy) (plan : Plan) (s₁ : Nodes) : Prop where
  size : plan.backups.length + plan.mkdirs.length + plan.places.length < Manager.maxSteps
  places : ∀ d ∈ plan.places, d.1.isSystemPath = true ∧ managed d.1 = true ∧ d.1 ≠ Db.PATH
  backups : ∀ p ∈ plan.backups, p.isSystemPath = true ∧ managed p = true ∧ p ≠ Db.PATH
  mkdirs : ∀ p ∈ plan.mkdirs,
    p.isSystemPath = true ∧ managed p = true ∧ p ≠ Db.PATH ∧ s₁[p]? = none
  mkdirs_nodup : plan.mkdirs.Nodup
  /-- What is not moved aside is free. -/
  fresh : ∀ d ∈ plan.places, d.1 ∉ plan.backups → s₁[d.1]? = none
  cleanup : ∀ d ∈ plan.cleanup, managed d = true ∧ d ∉ KEEP ∧ d ≠ Db.PATH ∧
    ∃ b ∈ plan.backups, d <+: b ∧ d ≠ b
  sorted : plan.cleanup.Pairwise fun a b => b.length ≤ a.length
  /-- On a system without a database, what is moved aside was found there. -/
  rooted : s₁[Db.PATH]? = none → ∀ d ∈ plan.cleanup, s₁[d]? = some .dir
  tx : isComponent plan.db.lastTx = true
  check : plan.db.check = .ok ()
  arch : plan.db.arch = policy.arch.name
  /-- The transaction is not the last one committed. -/
  prior : ∃ d, Loads policy.arch.name s₁ d ∧ d.lastTx ≠ plan.db.lastTx

/-- The journal of a plan is written; nothing outside the working area has changed since `s₁`. -/
structure Staged (plan : Plan) (s₁ X : Nodes) : Prop where
  left : Leftover (Manager.journalOf plan) X
  same : SameManaged X s₁
  stage : ∀ d i, (d, i) ∈ plan.places.zipIdx →
    X[(Manager.stageDir plan.db.lastTx).join (toString i)]? = some (.file (.data d.2))
  backup : ∀ i : Nat, X[(Manager.backupDir plan.db.lastTx).join (toString i)]? = none

/-- Some steps of a plan were made and not undone. -/
def Midway (plan : Plan) (s₁ s : Nodes) : Prop :=
  ∃ X done, Staged plan s₁ X ∧ done <+: Manager.stepsOf plan ∧ stepLog.Reached X done s

/-- All steps of a plan are undone; the clean-up may have begun. -/
structure Undone (plan : Plan) (s₁ s : Nodes) : Prop where
  left : Leftover (Manager.journalOf plan) s
  same : SameManaged s s₁
  backup : ∀ i : Nat, s[(Manager.backupDir plan.db.lastTx).join (toString i)]? = none

/-- A journal, a next database and no database: recovery takes the next one for committed. -/
def Orphan (s : Nodes) : Prop :=
  s[Journal.PATH]?.isSome = true ∧ s[Db.PATH]? = none ∧ s[Db.NEXT]?.isSome = true

/-- What undoing relies on: where an uncommitted transaction replaced a file, the replacement is
still staged, or the original still set aside, or neither is in place. -/
def Replayable (s : Nodes) : Prop :=
  ∀ j, s[Journal.PATH]? = some (.file (.journal j)) →
    (∀ d, s[Db.PATH]? = some (.file (.db d)) → d.lastTx ≠ j.tx) →
    ∀ src dst bak, .place src dst ∈ j.steps → .backup dst bak ∈ j.steps →
      s[src]?.isSome = true ∨ s[bak]?.isSome = true ∨ s[dst]? = none

/-! ## The steps of a plan -/

section Steps

variable {policy : Policy} {plan : Plan} {s₁ X s : Nodes} {st : Step}

/-- A file of a transaction's stage or backups. -/
def working (plan : Plan) (q : Path) : Prop :=
  ∃ dir ∈ ["stage", "backup"], ∃ i : Nat,
    q = ((Manager.journalOf plan).txDir.join dir).join (toString i)

/-- The steps of a plan, one kind at a time. -/
theorem mem_stepsOf : st ∈ Manager.stepsOf plan ↔
    (∃ p i, (p, i) ∈ plan.backups.zipIdx ∧
      st = .backup p ((Manager.backupDir plan.db.lastTx).join (toString i))) ∨
    (∃ p ∈ plan.mkdirs, st = .mkdir p) ∨
    (∃ d i, (d, i) ∈ plan.places.zipIdx ∧
      st = .place ((Manager.stageDir plan.db.lastTx).join (toString i)) d.1) := by
  simp only [Manager.stepsOf, List.mem_append, List.mem_map, Prod.exists]
  constructor
  · rintro ((⟨p, i, h, rfl⟩ | ⟨p, h, rfl⟩) | ⟨d, data, i, h, rfl⟩)
    · exact .inl ⟨p, i, h, rfl⟩
    · exact .inr (.inl ⟨p, h, rfl⟩)
    · exact .inr (.inr ⟨d, data, i, h, rfl⟩)
  · rintro (⟨p, i, h, rfl⟩ | ⟨p, h, rfl⟩ | ⟨d, data, i, h, rfl⟩)
    · exact .inl (.inl ⟨p, i, h, rfl⟩)
    · exact .inl (.inr ⟨p, h, rfl⟩)
    · exact .inr ⟨d, data, i, h, rfl⟩

theorem working_own {q : Path} (h : working plan q) : Journal.TX_DIR <+: q := by
  obtain ⟨dir, -, i, rfl⟩ := h
  exact ((txDir_parts _).trans (List.prefix_append _ _)).trans (List.prefix_append _ _)

theorem working_tx {q : Path} (h : working plan q) : (Manager.journalOf plan).txDir <+: q := by
  obtain ⟨dir, -, i, rfl⟩ := h
  exact (List.prefix_append _ _).trans (List.prefix_append _ _)

theorem not_managed_of_working {q : Path} (h : working plan q) : managed q = false := by
  rw [← Bool.not_eq_true, managed_iff]
  rintro ⟨ho, -⟩
  rw [own_iff.2 (.inl (working_own h))] at ho
  cases ho

theorem staged_working (plan : Plan) (i : Nat) :
    working plan ((Manager.stageDir plan.db.lastTx).join (toString i)) :=
  ⟨"stage", by simp, i, rfl⟩

theorem backup_working (plan : Plan) (i : Nat) :
    working plan ((Manager.backupDir plan.db.lastTx).join (toString i)) :=
  ⟨"backup", by simp, i, rfl⟩

theorem stage_ne_backup (plan : Plan) (i k : Nat) :
    (Manager.stageDir plan.db.lastTx).join (toString i) ≠
      (Manager.backupDir plan.db.lastTx).join (toString k) := by
  intro h
  simp [Manager.stageDir, Manager.backupDir, Path.join] at h

theorem stage_inj {i k : Nat} (h : (Manager.stageDir plan.db.lastTx).join (toString i) =
    (Manager.stageDir plan.db.lastTx).join (toString k)) : i = k := by
  refine toString_injective ?_
  simpa [Path.join] using h

theorem backup_inj {i k : Nat} (h : (Manager.backupDir plan.db.lastTx).join (toString i) =
    (Manager.backupDir plan.db.lastTx).join (toString k)) : i = k := by
  refine toString_injective ?_
  simpa [Path.join] using h

/-- The files of a transaction have admitted paths. -/
theorem working_valid (plan : Plan) {dir : String} (hdir : isComponent dir = true) {n : Nat} (hn : n < 2 ^ 63)
    (htx : isComponent plan.db.lastTx = true) (hlen : dir.toList.length ≤ 6) :
    Path.isSystemPath (((Manager.journalOf plan).txDir.join dir).join (toString n)) = true := by
  have h := txDir_valid (j := Manager.journalOf plan) htx
  have hi := isComponent_toString hn
  have hl : ∀ c : String, isComponent c = true → c.toList.length ≤ 128 := by
    intro c hc
    simp only [isComponent, Bool.and_eq_true, decide_eq_true_eq] at hc
    exact hc.1.1.1.1.2
  have h2 : (Manager.journalOf plan).txDir.textLength ≤ 146 := by
    rw [Journal.txDir, Path.join, Path.textLength_append]
    have h1 : Path.textLength Journal.TX_DIR = 17 := by decide
    have h3 : Path.textLength [(Manager.journalOf plan).tx] =
        (Manager.journalOf plan).tx.toList.length + 1 := by simp [Path.textLength]
    have := hl _ htx
    rw [h1, h3]
    have : (Manager.journalOf plan).tx = plan.db.lastTx := rfl
    rw [this]
    omega
  rw [Path.isSystemPath_iff] at h ⊢
  refine ⟨by simp, ?_, ?_⟩
  · simp only [Path.join, Path.textLength_append] at h2 ⊢
    have h3 : Path.textLength [dir] = dir.toList.length + 1 := by simp [Path.textLength]
    have h4 : Path.textLength [toString n] = (toString n).toList.length + 1 := by
      simp [Path.textLength]
    have := hl _ hi
    rw [h3, h4]
    omega
  · intro c hc
    simp only [Path.join, List.mem_append, List.mem_singleton] at hc
    rcases hc with (hc | rfl) | rfl
    · exact h.2.2 c hc
    · exact hdir
    · exact hi

/-- What a step of a plan makes and takes: part of the managed tree, or a file of the
transaction's. -/
theorem step_paths (hp : Planned policy plan s₁) (hst : st ∈ Manager.stepsOf plan) :
    ((managed st.created = true ∧ st.created ≠ Db.PATH) ∨ working plan st.created) ∧
    ∀ q, st.removed = some q → (managed q = true ∧ q ≠ Db.PATH) ∨ working plan q := by
  rcases mem_stepsOf.1 hst with ⟨p, i, h, rfl⟩ | ⟨p, h, rfl⟩ | ⟨d, i, h, rfl⟩
  · obtain ⟨-, hm, hn⟩ := hp.backups p (List.fst_mem_of_mem_zipIdx h)
    refine ⟨.inr (backup_working plan i), ?_⟩
    rintro q ⟨⟩
    exact .inl ⟨hm, hn⟩
  · obtain ⟨-, hm, hn, -⟩ := hp.mkdirs p h
    exact ⟨.inl ⟨hm, hn⟩, nofun⟩
  · obtain ⟨-, hm, hn⟩ := hp.places d (List.fst_mem_of_mem_zipIdx h)
    refine ⟨.inl ⟨hm, hn⟩, ?_⟩
    rintro q ⟨⟩
    exact .inr (staged_working plan i)

/-- The database and the manager's own files are no step's business. -/
theorem step_untouched (hp : Planned policy plan s₁) (hst : st ∈ Manager.stepsOf plan) {q : Path}
    (hq : q = Db.PATH ∨ q ∈ ownFiles) : st.created ≠ q ∧ st.removed ≠ some q := by
  have hnot : ∀ r, ((managed r = true ∧ r ≠ Db.PATH) ∨ working plan r) → r ≠ q := by
    rintro r hr rfl
    rcases hr with ⟨hm, hn⟩ | hw
    · rcases hq with rfl | hq
      · exact hn rfl
      · rw [managed_iff, own_iff.2 (.inr hq)] at hm
        cases hm.1
    · have htx := working_own hw
      have hall : ∀ r ∈ Db.PATH :: ownFiles, ¬ Journal.TX_DIR <+: r := by decide
      exact hall r (List.mem_cons.2 hq) htx
  obtain ⟨hc, hr⟩ := step_paths hp hst
  exact ⟨hnot _ hc, fun h => hnot q (hr q h) rfl⟩

/-- Every path a plan's steps name is in the alphabet. -/
theorem stepsOf_pathsOk (hp : Planned policy plan s₁) :
    ∀ st ∈ Manager.stepsOf plan, st.pathsOk = true := by
  have hsize := hp.size
  have hmax : Manager.maxSteps = 2 ^ 63 := rfl
  intro st hst
  rcases mem_stepsOf.1 hst with ⟨p, i, h, rfl⟩ | ⟨p, h, rfl⟩ | ⟨d, i, h, rfl⟩
  · have hi := (List.mem_zipIdx h).2.1
    have hv := working_valid plan (show isComponent "backup" = true by decide) (n := i)
      (by omega) hp.tx (by decide)
    simp only [Step.pathsOk, Bool.and_eq_true]
    exact ⟨(hp.backups p (List.fst_mem_of_mem_zipIdx h)).1, hv⟩
  · exact (hp.mkdirs p h).1
  · have hi := (List.mem_zipIdx h).2.1
    have hv := working_valid plan (show isComponent "stage" = true by decide) (n := i)
      (by omega) hp.tx (by decide)
    simp only [Step.pathsOk, Bool.and_eq_true]
    exact ⟨hv, (hp.places d (List.fst_mem_of_mem_zipIdx h)).1⟩

/-- The indices of a list ascend. -/
theorem zipIdx_pairwise {α : Type} (l : List α) : l.zipIdx.Pairwise fun a b => a.2 < b.2 := by
  have h : (l.zipIdx.map Prod.snd).Pairwise (· < ·) := by
    rw [List.zipIdx_map_snd]
    exact List.pairwise_lt_range'
  exact List.pairwise_map.1 h

/-- No step of a plan hides whether a later one was made. -/
theorem stepsOf_before (hp : Planned policy plan s₁) :
    (Manager.stepsOf plan).Pairwise Step.Before := by
  have hworking : ∀ {p q : Path}, managed p = true → working plan q → p ≠ q := by
    rintro p q hm hw rfl
    rw [not_managed_of_working hw] at hm
    cases hm
  rw [Manager.stepsOf, List.pairwise_append, List.pairwise_append]
  refine ⟨⟨?_, ?_, ?_⟩, ?_, ?_⟩
  · rw [List.pairwise_map]
    refine (zipIdx_pairwise plan.backups).imp ?_
    rintro ⟨p, i⟩ ⟨p', k⟩ (hlt : i < k) h
    have := backup_inj h
    omega
  · rw [List.pairwise_map]
    exact hp.mkdirs_nodup.imp fun h => h
  · rintro st hst st' hst'
    obtain ⟨⟨p, i⟩, -, rfl⟩ := List.mem_map.1 hst
    obtain ⟨d, hd, rfl⟩ := List.mem_map.1 hst'
    exact (hworking (hp.mkdirs d hd).2.1 (backup_working plan i)).symm
  · rw [List.pairwise_map]
    refine (zipIdx_pairwise plan.places).imp ?_
    rintro ⟨d, i⟩ ⟨d', k⟩ (hlt : i < k) h
    have := stage_inj (Option.some.inj h)
    omega
  · rintro st hst st' hst'
    obtain ⟨⟨d, k⟩, -, rfl⟩ := List.mem_map.1 hst'
    rcases List.mem_append.1 hst with hst | hst
    · obtain ⟨⟨p, i⟩, hpi, rfl⟩ := List.mem_map.1 hst
      intro h
      exact hworking (hp.backups p (List.fst_mem_of_mem_zipIdx hpi)).2.1
        (staged_working plan k) (Option.some.inj h)
    · obtain ⟨p, -, rfl⟩ := List.mem_map.1 hst
      exact nofun

/-- A staged transaction may start. -/
theorem Staged.startable (hp : Planned policy plan s₁) (hX : Staged plan s₁ X) :
    stepLog.Startable (Manager.stepsOf plan) X where
  inv := hX.left.tidy.sound
  pending st hst := by
    rcases mem_stepsOf.1 hst with ⟨p, i, h, rfl⟩ | ⟨p, h, rfl⟩ | ⟨d, i, h, rfl⟩
    · exact hX.backup i
    · obtain ⟨-, hm, -, hn⟩ := hp.mkdirs p h
      exact (hX.same p hm).trans hn
    · exact ⟨_, hX.stage d i h⟩
  before := stepsOf_before hp

/-- Steps leave alone what they do not name. -/
theorem reached_frame {done : List Step} {q : Path} (h : stepLog.Reached X done s)
    (hq : ∀ st ∈ done, st.created ≠ q ∧ st.removed ≠ some q) : s[q]? = X[q]? :=
  h.induct (P := fun t => t[q]? = X[q]?) rfl fun st hst _ ht hr =>
    (Step.lookup_effect_of_ne hr (hq st hst).1 (hq st hst).2).trans ht

/-- The steps of a plan leave the database and the manager's own files alone. -/
theorem reached_untouched (hp : Planned policy plan s₁) {done : List Step}
    (hd : done <+: Manager.stepsOf plan) (h : stepLog.Reached X done s) {q : Path}
    (hq : q = Db.PATH ∨ q ∈ ownFiles) : s[q]? = X[q]? :=
  reached_frame h fun _ hst => step_untouched hp (hd.subset hst) hq

/-- The steps of a plan keep a leftover. -/
theorem Leftover.effect (hp : Planned policy plan s₁) (hst : st ∈ Manager.stepsOf plan)
    (hs : Leftover (Manager.journalOf plan) s) (hr : st.Ready s) :
    Leftover (Manager.journalOf plan) (st.effect s) := by
  have huntouched : ∀ q ∈ ownFiles, (st.effect s)[q]? = s[q]? := fun q hq =>
    have h := step_untouched hp hst (.inr hq)
    Step.lookup_effect_of_ne hr h.1 h.2
  have hcreated : ∀ q, st.created = q → Journal.TX_DIR <+: q → working plan q := by
    rintro q rfl hq
    rcases (step_paths hp hst).1 with ⟨hm, -⟩ | hw
    · rw [managed_iff, own_iff.2 (.inl hq)] at hm
      cases hm.1
    · exact hw
  refine ⟨⟨Step.effect_sound hs.tidy.sound (stepsOf_pathsOk hp st hst) hr, fun p hh c hc => ?_,
    fun p hf => ?_⟩, ?_, ?_, fun p htx hn => ?_, fun c hc => ?_⟩
  · have hpre : ∀ p ∈ homes, p <+: Db.DIR := by decide
    rw [Step.effect_dir hr (hs.home (hpre p hh))] at hc
    cases hc
  · rw [Nodes.NotDir, huntouched p hf]
    exact hs.tidy.files p hf
  · rw [huntouched _ (by decide), hs.journal]
  · rw [huntouched _ (by decide), hs.tmp]
  · by_cases hc : st.created = p
    · exact .inr (working_tx (hcreated p hc htx))
    · rw [Step.lookup_effect hr, if_neg hc] at hn
      split at hn
      · cases hn
      · exact hs.only p htx hn
  · by_cases hcr : st.created = Journal.TX_DIR
    · have hw := working_tx (hcreated _ hcr (List.prefix_refl _))
      have := hw.length_le
      simp [Journal.txDir, Path.join] at this
    · rw [Step.lookup_effect hr, if_neg hcr] at hc
      split at hc
      · cases hc
      · exact hs.top c hc

/-- Wherever the steps of a plan are, the journal stands. -/
theorem Midway.left (hp : Planned policy plan s₁) (h : Midway plan s₁ s) :
    Leftover (Manager.journalOf plan) s := by
  obtain ⟨X, done, hX, hd, hr⟩ := h
  exact hr.induct hX.left fun st hst t ht hr => ht.effect hp (hd.subset hst) hr

/-- Wherever the steps of a plan are, the database is the one they started with. -/
theorem Midway.database (hp : Planned policy plan s₁) (h : Midway plan s₁ s) :
    s[Db.PATH]? = s₁[Db.PATH]? := by
  obtain ⟨X, done, hX, hd, hr⟩ := h
  rw [reached_untouched hp hd hr (.inl rfl), hX.same _ (by decide)]

theorem Staged.undone (hX : Staged plan s₁ X) : Undone plan s₁ X :=
  ⟨hX.left, hX.same, hX.backup⟩

theorem Undone.fades {t : Nodes} (h : Undone plan s₁ s) (ht : Leftover (Manager.journalOf plan) t)
    (hf : Fades s t) : Undone plan s₁ t :=
  ⟨ht, hf.managed.trans h.same, fun i => hf.none (h.backup i)⟩

/-- Naming the next database as the database keeps a leftover. -/
theorem Leftover.adopt {j : Journal} {c : Content} (hs : Leftover j s)
    (hn : s[Db.NEXT]? = some (.file c)) (hd : s.NotDir Db.PATH) :
    Leftover j (s.move Db.NEXT Db.PATH) := by
  have hpar := hs.tidy.sound.parent Db.NEXT (by decide) (by rw [hn]; rfl)
  have hkeep : ∀ q : Path, q ≠ Db.PATH → q ≠ Db.NEXT → (s.move Db.NEXT Db.PATH)[q]? = s[q]? := by
    intro q hq hq'
    rw [Nodes.lookup_move hn, if_neg hq.symm, if_neg hq'.symm]
  have hnext : (s.move Db.NEXT Db.PATH)[Db.NEXT]? = none := by
    rw [Nodes.lookup_move hn, if_neg (by decide), if_pos rfl]
  have htx : ∀ q : Path, Journal.TX_DIR <+: q → (s.move Db.NEXT Db.PATH)[q]? = s[q]? := by
    intro q hq
    refine hkeep q ?_ ?_ <;> rintro rfl <;> exact absurd hq (by decide)
  refine ⟨⟨hs.tidy.sound.move hn (by decide) hpar hd, fun p hp => ?_, fun p hp => ?_⟩, ?_, ?_,
    fun p hp h => ?_, ?_⟩
  · have hne : ∀ p ∈ homes, p ≠ Db.PATH ∧ p ≠ Db.NEXT := by decide
    rw [Nodes.NotFile, hkeep p (hne p hp).1 (hne p hp).2]
    exact hs.tidy.homes p hp
  · by_cases he : p = Db.NEXT
    · subst he
      rw [Nodes.NotDir, hnext]
      simp
    · have hne : ∀ p ∈ ownFiles, p ≠ Db.PATH := by decide
      rw [Nodes.NotDir, hkeep p (hne p hp) he]
      exact hs.tidy.files p hp
  · rw [hkeep _ (by decide) (by decide), hs.journal]
  · rw [hkeep _ (by decide) (by decide), hs.tmp]
  · rw [htx p hp] at h
    exact hs.only p hp h
  · rw [Nodes.NotFile, htx _ (List.prefix_refl _)]
    exact hs.top

/-- The journal of a plan reads back. -/
theorem Planned.validate (hp : Planned policy plan s₁) :
    (Manager.journalOf plan).validate = .ok (Manager.journalOf plan) := by
  refine Journal.validate_eq_ok (stepsOf_pathsOk hp) (fun d hd => ?_) hp.tx
  obtain ⟨-, hk, -, b, hb, hdb, -⟩ := hp.cleanup d hd
  refine Path.isSystemPath_of_prefix (hp.backups b hb).1 hdb ?_
  rintro rfl
  exact hk (by decide)

/-- The clean-up of a plan may run on a filesystem where no directory it names is a file. -/
theorem Planned.cleanable (hp : Planned policy plan s₁) {C : Nodes}
    (hC : ∀ d ∈ plan.cleanup, C.NotFile d) : Cleanable (Manager.journalOf plan) C where
  tx := hp.tx
  dirs d hd := by
    obtain ⟨hm, hk, -, b, hb, hdb, -⟩ := hp.cleanup d hd
    refine ⟨Path.isSystemPath_of_prefix (hp.backups b hb).1 hdb ?_, hm, hk, hC d hd⟩
    rintro rfl
    exact hk (by decide)
  sorted := hp.sorted

end Steps

/-! ## What recovery starts from -/

/-- Recovery from `s` is to end with the managed tree of `T`: nothing is pending, or a transaction is
half made, undone but for its clean-up, or committed but for its clean-up. -/
inductive Leads (policy : Policy) (T s : Nodes) : Prop
  | quiet : Quiet T s → Leads policy T s
  | midway {plan : Plan} {s₁ : Nodes} : Planned policy plan s₁ → Midway plan s₁ s → ¬ Orphan s →
      SameManaged s₁ T → Leads policy T s
  | undone {plan : Plan} {s₁ : Nodes} : Planned policy plan s₁ → Undone plan s₁ s → ¬ Orphan s →
      SameManaged s₁ T → Leads policy T s
  | finishing {plan : Plan} {s₁ C : Nodes} : Planned policy plan s₁ →
      Cleanable (Manager.journalOf plan) C → C[Db.PATH]? = some (.file (.db plan.db)) →
      Finishing (Manager.journalOf plan) C s → SameManaged (sweep plan.cleanup C) T →
      Leads policy T s

/-- An orphan: the next database is taken for the committed one, whatever was made of it. -/
structure Adopts (policy : Policy) (plan : Plan) (T s : Nodes) : Prop where
  planned : ∃ s₁, Planned policy plan s₁ ∧ Midway plan s₁ s
  absent : s[Db.PATH]? = none
  next : s[Db.NEXT]? = some (.file (.db plan.db))
  dirs : ∀ d ∈ plan.cleanup, s.NotFile d
  same : SameManaged (sweep plan.cleanup (s.move Db.NEXT Db.PATH)) T

/-- Recovery from `s` ends with the managed tree of `T`, rightly or not. -/
inductive Recovers (policy : Policy) (T s : Nodes) : Prop
  | leads : Leads policy T s → Recovers policy T s
  | adopts {plan : Plan} : Adopts policy plan T s → Recovers policy T s

/-- What is no orphan has a database, or nothing to take for one. -/
theorem Leftover.nothing_to_adopt {j : Journal} {s : Nodes} (hl : Leftover j s) (ho : ¬ Orphan s) :
    s[Db.PATH]?.isSome = true ∨ s[Db.NEXT]? = none := by
  by_contra hcon
  simp only [not_or, Bool.not_eq_true, Option.isSome_eq_false_iff, Option.isNone_iff_eq_none]
    at hcon
  exact ho ⟨by rw [hl.journal]; rfl, hcon.1, Option.isSome_iff_ne_none.2 hcon.2⟩

theorem Settled.leads {policy : Policy} {T s : Nodes} (h : Settled T s) : Leads policy T s :=
  .quiet h.toQuiet

/-- Fading cannot make an orphan. -/
theorem Fades.not_orphan {s t : Nodes} (h : Fades s t) (hs : ¬ Orphan s) : ¬ Orphan t := by
  rintro ⟨hj, hd, hn⟩
  refine hs ⟨?_, ?_, ?_⟩
  · rw [← h.isSome hj]; exact hj
  · rw [← h.same _ (by decide)]; exact hd
  · rw [← h.isSome hn]; exact hn

theorem Settled.of_same {T U s : Nodes} (h : Settled T s) (hTU : SameManaged T U) : Settled U s :=
  { h with same := h.same.trans hTU }

/-! ## Recovery itself -/

namespace Manager

variable {F : Fuse → Prop} [Steady F] {policy : Policy} {D : Nodes → Prop} {s₀ T : Nodes}

/-- Loading the database. -/
theorem load_rule {arch : String} {d : Db} {Q : Db → Nodes → Prop} (h : Loads arch s₀ d)
    (hQ : Q d s₀) : Safe F (fun s => s = s₀) (Db.load arch) Q D := by
  have hv : Path.isSystemPath Db.PATH = true := by decide
  refine Triple.attempt_bind (D := fun _ => False)
    (R := fun c s => s = s₀ ∧ s₀[Db.PATH]? = some (.file c))
    (G := fun e s => s = s₀ ∧ e = .notFound ∧ s₀[Db.PATH]? = none)
    (Triple.query fun s hs => ?_) (fun c => ?_) (fun e => ?_) (fun _ _ => nofun) (fun _ => False.elim)
  · subst hs
    rw [Fs.check_eq_ok hv, Fs.ok_bind]
    cases h with
    | absent hn => rw [hn]; exact ⟨rfl, rfl, rfl⟩
    | there hd => rw [hd]; exact ⟨rfl, rfl⟩
  · refine Triple.of_each ?_
    rintro s ⟨rfl, hc⟩
    cases h with
    | absent hn => rw [hn] at hc; cases hc
    | there hd hck ha =>
      rw [hd] at hc
      cases hc
      simp only [Db.parse, hck, Fs.ok_bind]
      simp only [pure, Except.pure, ha, if_true]
      exact Triple.ret fun t ht => by subst ht; exact hQ
  · refine Triple.of_each ?_
    rintro s ⟨rfl, rfl, hn⟩
    cases h with
    | absent _ => exact Triple.ret fun t ht => by subst ht; exact hQ
    | there hd => rw [hd] at hn; cases hn

/-- With a database, or without a next one, there is nothing to adopt. -/
theorem adoptNext_rule (h : s₀[Db.PATH]?.isSome = true ∨ s₀[Db.NEXT]? = none) :
    Safe F (fun s => s = s₀) adoptNext (fun _ s => s = s₀) D := by
  refine Safe.bind (R := fun b s => s = s₀ ∧ b = s₀[Db.PATH]?.isSome)
    (exists_rule fun s hs => ?_) fun b => Triple.of_each ?_
  · subst hs; exact ⟨by decide, rfl, rfl⟩
  rintro s ⟨rfl, rfl⟩
  rcases hd : s[Db.PATH]? with _ | n
  · refine Safe.bind (R := fun b t => t = s ∧ b = false) (exists_rule fun t ht => ?_) fun b => ?_
    · subst ht
      rw [hd] at h
      have hn := h.resolve_left (by simp)
      exact ⟨by decide, rfl, by rw [hn]; rfl⟩
    · refine Triple.of_each ?_
      rintro t ⟨rfl, rfl⟩
      exact Safe.ret fun _ h => h
  · exact Safe.ret fun _ h => h

/-- Without a database, the next one is named as it. -/
theorem adoptNext_orphan {c : Content} (ht : Tidy s₀) (hd : s₀[Db.PATH]? = none)
    (hn : s₀[Db.NEXT]? = some (.file c)) (hD : D s₀) :
    Safe F (fun s => s = s₀) adoptNext (fun _ s => s = s₀.move Db.NEXT Db.PATH) D := by
  refine Safe.bind (R := fun b s => s = s₀ ∧ b = false) (exists_rule fun s hs => ?_) fun b => ?_
  · subst hs; exact ⟨by decide, rfl, by rw [hd]; rfl⟩
  refine Triple.of_each ?_
  rintro s ⟨rfl, rfl⟩
  refine Safe.bind (R := fun b t => t = s ∧ b = true) (exists_rule fun t ht => ?_) fun b => ?_
  · subst ht; exact ⟨by decide, rfl, by rw [hn]; rfl⟩
  refine Triple.of_each ?_
  rintro t ⟨rfl, rfl⟩
  refine Safe.mapErr (Fs.replace_rule fun u hu => ?_)
  subst hu
  have hpar := ht.sound.parent Db.NEXT (by decide) (by rw [hn]; rfl)
  exact ⟨by decide, by decide, hpar, ⟨c, hn⟩, by rw [Nodes.NotDir, hd]; simp, rfl, hD⟩

variable (policy) in
/-- Recovery without a journal. -/
theorem recoverLocked_quiet (h : Quiet T s₀) (hhome : s₀[Db.DIR]? = some .dir) :
    Safe F (fun s => s = s₀) (recoverLocked policy) (fun _ s => Settled T s ∧ Idle s₀ s)
      (Quiet T) := by
  have quiet : ∀ s, s.Sound → Fades s₀ s → Quiet T s := fun s hs hf =>
    ⟨hf.tidy h.tidy hs, hf.managed.trans h.same, hf.none h.journal⟩
  have erased : ∀ p ∈ ownFiles, ∀ s, Quiet T s → Nodes.Sound (s.erase p) := fun p hp s hs =>
    hs.tidy.sound.eraseFile (hs.tidy.files p hp)
  refine Triple.attempt_bind (D := fun _ => False) (R := fun _ _ => False)
    (G := fun e s => s = s₀ ∧ e = .notFound)
    (Triple.query fun s hs => ?_) (fun c => nofun) (fun e => ?_) (fun _ _ => nofun)
    (fun _ => False.elim)
  · subst hs
    have hv : Path.isSystemPath Journal.PATH = true := by decide
    rw [Fs.check_eq_ok hv, Fs.ok_bind, h.journal]
    exact ⟨rfl, rfl⟩
  refine Triple.of_each ?_
  rintro s ⟨rfl, rfl⟩
  refine Safe.bind (R := fun _ t => Quiet T t ∧ Fades s t ∧ t[LOCK]? = s[LOCK]? ∧
      t[Journal.TMP]? = none) (removeIfExists_rule (by decide) fun t ht => ?_) fun _ => ?_
  · subst ht
    have hf : Fades t (t.erase Journal.TMP) := .erase (by decide)
    exact ⟨h.tidy, ⟨quiet _ (erased _ (by decide) t h) hf, hf,
      by rw [Nodes.lookup_erase, if_neg (by decide)], by simp⟩, h⟩
  refine Safe.bind (R := fun _ t => Quiet T t ∧ Fades s t ∧ t[LOCK]? = s[LOCK]? ∧
      t[Journal.TMP]? = none ∧ t[Db.NEXT]? = none)
    (removeIfExists_rule (by decide) fun t ht => ?_) fun _ => Triple.of_each ?_
  · obtain ⟨hq, hf, hl, ht⟩ := ht
    have hf' : Fades t (t.erase Db.NEXT) := .erase (by decide)
    refine ⟨hq.tidy, ⟨quiet _ (erased _ (by decide) t hq) (hf.trans hf'), hf.trans hf', ?_, ?_,
      by simp⟩, hq⟩
    · rw [Nodes.lookup_erase, if_neg (by decide), hl]
    · rw [Nodes.lookup_erase, if_neg (by decide), ht]
  rintro t ⟨hq, hf, hl, htmp, hnext⟩
  have shrunk : ∀ u, Nodes.Shrunk Journal.TX_DIR t u → Fades s u ∧ Quiet T u := fun u hu => by
    have hfu := hf.trans (hu.fades (List.prefix_refl _))
    exact ⟨hfu, quiet u hu.1 hfu⟩
  refine Safe.bind (R := fun _ u => Settled T u ∧ Idle s u) (Safe.mapErr
    ((Fs.removeTree_rule hq.tidy.sound (by decide)).conseq (fun _ h => h) ?_
      fun u hu => (shrunk u hu).2)) fun _ => Safe.ret fun _ h => h
  rintro _ u ⟨hu, hgone⟩
  obtain ⟨hfu, hqu⟩ := shrunk u hu
  have hset : Settled T u :=
    { hqu with
      next := hu.none hnext
      tmp := hu.none htmp
      tx := hgone
      home := (hfu.same _ (by decide)).trans hhome }
  refine ⟨hset, hfu.same, by rw [hu.2.1 LOCK (by decide), hl], fun p hp hne => ?_⟩
  rcases own_iff.1 hp with htx | hown
  · exact hgone p htx
  · simp only [ownFiles, List.mem_cons, List.not_mem_nil, or_false] at hown
    rcases hown with rfl | rfl | rfl | rfl
    · exact hqu.journal
    · exact hset.tmp
    · exact hset.next
    · exact absurd rfl hne

/-- Recovery with a journal that reads back. -/
theorem recoverLocked_journal {j : Journal} {Q : Recovery → Nodes → Prop} (h : Leftover j s₀)
    (hv : j.validate = .ok j) (hD : D s₀)
    (hset : Safe F (fun s => s = s₀) (settle policy j) Q D) :
    Safe F (fun s => s = s₀) (recoverLocked policy) Q D := by
  refine Triple.attempt_bind (D := fun _ => False)
    (R := fun c s => s = s₀ ∧ c = .journal j) (G := fun _ _ => False)
    (Triple.query fun s hs => ?_) (fun c => ?_) (fun e => nofun) (fun _ _ => nofun)
    (fun _ => False.elim)
  · subst hs
    have hv : Path.isSystemPath Journal.PATH = true := by decide
    rw [Fs.check_eq_ok hv, Fs.ok_bind, h.journal]
    exact ⟨rfl, rfl⟩
  refine Triple.of_each ?_
  rintro s ⟨rfl, rfl⟩
  refine Safe.bind (R := fun _ t => t = s) (removeIfExists_rule (by decide) fun t ht => ?_)
    fun _ => ?_
  · subst ht
    exact ⟨h.tidy, Nodes.erase_of_none h.tmp, hD⟩
  · simp only [Journal.parse, hv]
    exact hset

/-- The database says the journal's transaction did not commit. -/
theorem settle_undo {j : Journal} {d : Db} (hd : Loads policy.arch.name s₀ d) (hne : d.lastTx ≠ j.tx)
    (ha : s₀[Db.PATH]?.isSome = true ∨ s₀[Db.NEXT]? = none)
    (hundo : Safe F (fun s => s = s₀) (undo j) (fun _ => Settled T) D) :
    Safe F (fun s => s = s₀) (settle policy j) (fun _ => Settled T) D := by
  refine Safe.bind (adoptNext_rule ha) fun _ => ?_
  refine Safe.bind (R := fun d' s => s = s₀ ∧ d' = d) (load_rule hd ⟨rfl, rfl⟩) fun d' => ?_
  refine Triple.of_each ?_
  rintro s ⟨rfl, rfl⟩
  rw [if_neg hne]
  exact Safe.bind hundo fun _ => Safe.ret fun _ h => h

/-- The database, once adopted, says the journal's transaction committed. -/
theorem settle_finish {j : Journal} {d : Db} {s₂ : Nodes}
    (ha : Safe F (fun s => s = s₀) adoptNext (fun _ s => s = s₂) D)
    (hd : Loads policy.arch.name s₂ d) (he : d.lastTx = j.tx)
    (hfin : Safe F (fun s => s = s₂) (finish j) (fun _ => Settled T) D) :
    Safe F (fun s => s = s₀) (settle policy j) (fun _ => Settled T) D := by
  refine Safe.bind ha fun _ => ?_
  refine Safe.bind (R := fun d' s => s = s₂ ∧ d' = d) (load_rule hd ⟨rfl, rfl⟩) fun d' => ?_
  refine Triple.of_each ?_
  rintro s ⟨rfl, rfl⟩
  rw [if_pos he]
  exact Safe.bind hfin fun _ => Safe.ret fun _ h => h

section Undo

variable {plan : Plan} {s₁ : Nodes} (hp : Planned policy plan s₁)

include hp

/-- The database before a transaction, wherever the transaction is. -/
theorem loads_prior (h : s₀[Db.PATH]? = s₁[Db.PATH]?) :
    ∃ d, Loads policy.arch.name s₀ d ∧ d.lastTx ≠ plan.db.lastTx := by
  obtain ⟨d, hd, hne⟩ := hp.prior
  refine ⟨d, ?_, hne⟩
  cases hd with
  | absent hn => exact .absent (h.trans hn)
  | there hd hc ha => exact .there (h.trans hd) hc ha

/-- Undoing what was made of a transaction. -/
theorem undo_midway (h : Midway plan s₁ s₀) (ho : ¬ Orphan s₀) (hT : SameManaged s₁ T) :
    Safe F (fun s => s = s₀) (undo (journalOf plan)) (fun _ => Settled T) (Leads policy T) := by
  obtain ⟨X, done₀, hX, hd₀, hr₀⟩ := h
  have hnext : ∀ q ∈ ownFiles, s₀[q]? = X[q]? := fun q hq =>
    reached_untouched hp hd₀ hr₀ (.inr hq)
  have hdb : s₀[Db.PATH]? = X[Db.PATH]? := reached_untouched hp hd₀ hr₀ (.inl rfl)
  have hXo : ¬ Orphan X := by
    rintro ⟨hj, hd, hn⟩
    exact ho ⟨by rw [hnext _ (by decide)]; exact hj, hdb.trans hd,
      by rw [hnext _ (by decide)]; exact hn⟩
  refine Safe.bind (R := fun _ s => s = X)
    ((UndoLog.back_all (stepLog_lawful (stepsOf_pathsOk hp)) (hX.startable hp) F).conseq ?_
      (fun _ _ h => h) ?_) fun _ => ?_
  · rintro s rfl
    exact ⟨done₀, hd₀, hr₀⟩
  · rintro s ⟨done, hd, hr⟩
    refine .midway hp ⟨X, done, hX, hd, hr⟩ ?_ hT
    rintro ⟨hj, hdn, hn⟩
    refine hXo ⟨?_, ?_, ?_⟩
    · rw [← reached_untouched hp hd hr (.inr (by decide))]; exact hj
    · rw [← reached_untouched hp hd hr (.inl rfl)]; exact hdn
    · rw [← reached_untouched hp hd hr (.inr (by decide))]; exact hn
  · refine (undoTail_rule (j := journalOf plan) hp.tx hX.left).conseq (fun _ h => h)
      (fun _ s hs => hs.of_same (hX.same.trans hT)) fun s hs => ?_
    exact .undone hp (hX.undone.fades hs.1 hs.2) (hs.2.not_orphan hXo) hT

/-- Undoing what is undone already does nothing but clean up. -/
theorem undo_undone (h : Undone plan s₁ s₀) (ho : ¬ Orphan s₀) (hr : Replayable s₀)
    (hT : SameManaged s₁ T) :
    Safe F (fun s => s = s₀) (undo (journalOf plan)) (fun _ => Settled T) (Leads policy T) := by
  have huncommitted : ∀ d, s₀[Db.PATH]? = some (.file (.db d)) → d.lastTx ≠ plan.db.lastTx := by
    intro d hd
    obtain ⟨d', hd', hne⟩ := loads_prior hp (h.same Db.PATH (by decide))
    cases hd' with
    | absent hn => rw [hn] at hd; cases hd
    | there hd' _ _ => rw [hd] at hd'; cases hd'; exact hne
  have idle : ∀ st ∈ stepsOf plan,
      Safe F (fun s => s = s₀) (undoStep st) (fun _ s => s = s₀) (fun s => s = s₀) := by
    intro st hst
    have hv := stepsOf_pathsOk hp st hst
    rcases mem_stepsOf.1 hst with ⟨p, i, hpi, rfl⟩ | ⟨p, hpm, rfl⟩ | ⟨d, i, hdi, rfl⟩
    · exact undo_pending hv (h.backup i)
    · obtain ⟨-, hm, -, hn⟩ := hp.mkdirs p hpm
      exact undo_pending hv ((h.same p hm).trans hn)
    · simp only [Step.pathsOk, Bool.and_eq_true] at hv
      have hd := List.fst_mem_of_mem_zipIdx hdi
      refine moveBack_idle hv.1 hv.2 ?_
      by_cases hb : d.1 ∈ plan.backups
      · -- The original was put back: without its backup, the staged file must be there.
        obtain ⟨k, hk, hkp⟩ := List.mem_iff_getElem.1 hb
        have hback : Step.backup d.1 ((backupDir plan.db.lastTx).join (toString k)) ∈
            stepsOf plan :=
          mem_stepsOf.2 (.inl ⟨d.1, k, List.mem_zipIdx_iff_getElem?.2
            (by rw [List.getElem?_eq_getElem hk, hkp]), rfl⟩)
        rcases hr _ h.left.journal huncommitted _ _ _ hst hback with h' | h' | h'
        · exact .inr h'
        · rw [h.backup k] at h'; cases h'
        · exact .inl h'
      · exact .inl ((h.same _ (hp.places d hd).2.1).trans (hp.fresh d hd hb))
  refine Safe.bind (R := fun _ s => s = s₀)
    (((Safe.forM (I := fun _ s => s = s₀) fun done st rest hst => idle st ?_)).conseq
      (fun _ h => h) (fun _ _ h => h) ?_) fun _ => ?_
  · have : st ∈ (stepsOf plan).reverse := by
      show st ∈ (journalOf plan).steps.reverse
      rw [hst]
      simp
    exact List.mem_reverse.1 this
  · rintro s rfl
    exact .undone hp h ho hT
  · exact (undoTail_rule (j := journalOf plan) hp.tx h.left).conseq (fun _ h => h)
      (fun _ s hs => hs.of_same (h.same.trans hT))
      fun s hs => .undone hp (h.fades hs.1 hs.2) (hs.2.not_orphan ho) hT

end Undo

/-- Recovering a transaction that is half made undoes it. -/
theorem recoverLocked_midway {plan : Plan} {s₁ : Nodes} (hp : Planned policy plan s₁)
    (h : Midway plan s₁ s₀) (ho : ¬ Orphan s₀) (hT : SameManaged s₁ T) :
    Safe F (fun s => s = s₀) (recoverLocked policy) (fun _ => Settled T) (Leads policy T) := by
  have hl := h.left hp
  obtain ⟨d, hd, hne⟩ := loads_prior hp (h.database hp)
  exact recoverLocked_journal hl hp.validate (.midway hp h ho hT)
    (settle_undo hd hne (hl.nothing_to_adopt ho) (undo_midway hp h ho hT))

/-- Recovery leads where it is to lead, and an interrupted recovery still does. -/
theorem recoverLocked_rule :
    Safe F (fun s => Leads policy T s ∧ Replayable s ∧ s[Db.DIR]? = some .dir)
      (recoverLocked policy) (fun _ => Settled T) (Leads policy T) := by
  refine Triple.of_each ?_
  rintro s ⟨hs, hr, hhome⟩
  cases hs with
  | quiet h =>
    exact (recoverLocked_quiet policy h hhome).conseq (fun _ h => h) (fun _ _ h => h.1) fun _ h => .quiet h
  | midway hp h ho hT => exact recoverLocked_midway hp h ho hT
  | undone hp h ho hT =>
    obtain ⟨d, hd, hne⟩ := loads_prior hp (h.same Db.PATH (by decide))
    exact recoverLocked_journal h.left hp.validate (.undone hp h ho hT)
      (settle_undo hd hne (h.left.nothing_to_adopt ho) (undo_undone hp h ho hr hT))
  | @finishing plan s₁ C hp hc hdb h hT =>
    obtain ⟨done, -, hsame⟩ := h.swept
    have hs : s[Db.PATH]? = some (.file (.db plan.db)) := by
      rw [hsame _ (by decide), Nodes.lookup_sweep_file hdb]
    refine recoverLocked_journal h.left hp.validate (.finishing hp hc hdb h hT)
      (settle_finish (adoptNext_rule (.inl (by rw [hs]; rfl))) (.there hs hp.check hp.arch) rfl ?_)
    exact (finish_rule hc h).conseq (fun _ h => h) (fun _ t ht => ht.of_same hT)
      fun t ht => .finishing hp hc hdb ht hT

/-- Recovering an orphan finishes what it takes for committed. -/
theorem recoverLocked_adopts {plan : Plan} (h : Adopts policy plan T s₀) :
    Safe F (fun s => s = s₀) (recoverLocked policy) (fun _ => Settled T) (Recovers policy T) := by
  obtain ⟨s₁, hp, hmid⟩ := h.planned
  have hl := hmid.left hp
  have hl' := hl.adopt h.next (by rw [Nodes.NotDir, h.absent]; simp)
  have hdb : (s₀.move Db.NEXT Db.PATH)[Db.PATH]? = some (.file (.db plan.db)) := by
    rw [Nodes.lookup_move h.next, if_pos rfl]
  have hc : Cleanable (journalOf plan) (s₀.move Db.NEXT Db.PATH) := hp.cleanable fun d hd c => by
    rw [Nodes.lookup_move h.next, if_neg (hp.cleanup d hd).2.2.1.symm]
    split
    · simp
    · exact h.dirs d hd c
  have hD : Recovers policy T s₀ := .adopts h
  refine recoverLocked_journal hl hp.validate hD
    (settle_finish (adoptNext_orphan hl.tidy h.absent h.next hD) (.there hdb hp.check hp.arch) rfl ?_)
  exact (finish_rule hc ⟨hl', [], List.nil_prefix, .refl _⟩).conseq (fun _ h => h)
    (fun _ t ht => ht.of_same h.same) fun t ht => .leads (.finishing hp hc hdb ht h.same)

/-- Recovery ends where it is said to, and an interrupted one still does. -/
theorem recoverLocked_recovers :
    Safe F (fun s => Recovers policy T s ∧ Replayable s ∧ s[Db.DIR]? = some .dir)
      (recoverLocked policy) (fun _ => Settled T) (Recovers policy T) := by
  refine Triple.of_each ?_
  rintro s ⟨h | h, hr⟩
  · exact (recoverLocked_rule (F := F)).conseq (by rintro t rfl; exact ⟨h, hr⟩) (fun _ _ h => h)
      fun _ h => .leads h
  · exact recoverLocked_adopts h

end Manager

end NanoChrono.Ncpkg
