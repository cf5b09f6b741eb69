import NanoChrono.Ncpkg.Recovery

/-! # Staging a transaction

`Plan.staged` is the filesystem a transaction starts its steps on: the files it will place lie in its
own directory, its journal is written. `stage_rule` says that staging ends there, and that an
interrupted one leaves nothing for recovery to undo. -/

namespace NanoChrono.Ncpkg

open Crash

namespace Nodes

variable {ι : Type} {key : ι → Path} {val : ι → Node} {l : List ι} {s : Nodes} {q : Path}

/-- An entry for each element of a list. -/
def insertAll (s : Nodes) (key : ι → Path) (val : ι → Node) (l : List ι) : Nodes :=
  l.foldl (fun s x => s.insert (key x) (val x)) s

@[simp] theorem insertAll_nil : s.insertAll key val [] = s := rfl

@[simp] theorem insertAll_cons (x : ι) :
    s.insertAll key val (x :: l) = Nodes.insertAll (s.insert (key x) (val x)) key val l := rfl

theorem insertAll_concat (x : ι) :
    s.insertAll key val (l ++ [x]) = (s.insertAll key val l).insert (key x) (val x) := by
  simp [insertAll]

theorem lookup_insertAll_of_ne (h : ∀ x ∈ l, key x ≠ q) : (s.insertAll key val l)[q]? = s[q]? := by
  induction l generalizing s with
  | nil => rfl
  | cons x l ih =>
    rw [insertAll_cons, ih fun y hy => h y (by simp [hy]), lookup_insert, if_neg (h x (by simp))]

theorem lookup_insertAll {x : ι} (hl : l.Pairwise fun x y => key x ≠ key y) (hx : x ∈ l) :
    (s.insertAll key val l)[key x]? = some (val x) := by
  induction l generalizing s with
  | nil => cases hx
  | cons y l ih =>
    obtain ⟨hy, hl⟩ := List.pairwise_cons.1 hl
    rcases List.mem_cons.1 hx with rfl | hx
    · rw [insertAll_cons, lookup_insertAll_of_ne fun z hz => (hy z hz).symm]
      simp
    · exact ih hl hx

/-- What lies where entries were added. -/
theorem lookup_insertAll_cases (q : Path) :
    (s.insertAll key val l)[q]? = s[q]? ∨
      ∃ x ∈ l, key x = q ∧ (s.insertAll key val l)[q]? = some (val x) := by
  induction l generalizing s with
  | nil => exact .inl rfl
  | cons x l ih =>
    rw [insertAll_cons]
    rcases ih (s := s.insert (key x) (val x)) with h | ⟨y, hy, he, h⟩
    · rw [h, lookup_insert]
      split
      · next he => exact .inr ⟨x, by simp, he, rfl⟩
      · exact .inl rfl
    · exact .inr ⟨y, by simp [hy], he, h⟩

/-- Adding files to directories that are there. -/
theorem Sound.insertAll (hs : s.Sound)
    (h : ∀ x ∈ l, (key x).isSystemPath = true ∧ s[(key x).parent]? = some .dir ∧ s.NotDir (key x) ∧
      val x ≠ .dir) : (s.insertAll key val l).Sound := by
  induction l generalizing s with
  | nil => exact hs
  | cons x l ih =>
    obtain ⟨hv, hpar, hn, hval⟩ := h x (by simp)
    refine ih (hs.insert hv hpar (.inr hn)) fun y hy => ?_
    obtain ⟨hv', hpar', hn', hval'⟩ := h y (by simp [hy])
    refine ⟨hv', ?_, ?_, hval'⟩
    · rw [lookup_insert, if_neg, hpar']
      intro he
      exact hn (he ▸ hpar')
    · rw [NotDir, lookup_insert]
      split
      · simpa using hval
      · exact hn'

end Nodes

/-- The path a plan stages its `i`-th file at. -/
def stageKey (plan : Plan) (x : (Path × Bytes) × Nat) : Path :=
  (Manager.stageDir plan.db.lastTx).join (toString x.2)

/-- The file staged there. -/
def stageVal (x : (Path × Bytes) × Nat) : Node :=
  .file (.data x.1.2)

/-- The directories of a transaction. -/
def Plan.dirs (plan : Plan) : List Path :=
  [Journal.TX_DIR, Journal.TX_DIR.join plan.db.lastTx, Manager.stageDir plan.db.lastTx,
    Manager.backupDir plan.db.lastTx]

/-- The filesystem with a transaction's directories. -/
def Plan.opened (plan : Plan) (s : Nodes) : Nodes :=
  s.insertAll (fun d => d) (fun _ => .dir) plan.dirs

/-- The filesystem with the files `done` staged in them. -/
def Plan.partly (plan : Plan) (s : Nodes) (done : List ((Path × Bytes) × Nat)) : Nodes :=
  (plan.opened s).insertAll (stageKey plan) stageVal done

/-- The filesystem with a transaction staged and its journal written. -/
def Plan.staged (plan : Plan) (s : Nodes) : Nodes :=
  (plan.partly s plan.places.zipIdx).insert Journal.PATH
    (.file (.journal (Manager.journalOf plan)))

/-- Only the transaction directory and the journal's temporary file may have changed. -/
structure Staging (s₁ s : Nodes) : Prop where
  sound : s.Sound
  same : ∀ q : Path, ¬ Journal.TX_DIR <+: q → q ≠ Journal.TMP → s[q]? = s₁[q]?
  tmp : s.NotDir Journal.TMP

/-- A filesystem ready for a transaction: no trace of another, and the lock's directory is there. -/
abbrev Ready (s : Nodes) : Prop := Settled s s

namespace Staging

variable {s₁ s : Nodes}

theorem quiet (hs : Settled s₁ s₁) (h : Staging s₁ s) : Quiet s₁ s := by
  have hhome : ∀ p ∈ homes, ¬ Journal.TX_DIR <+: p ∧ p ≠ Journal.TMP := by decide
  have hown : ∀ p ∈ ownFiles, ¬ Journal.TX_DIR <+: p := by decide
  refine ⟨⟨h.sound, fun p hp => ?_, fun p hp => ?_⟩, fun p hp => ?_, ?_⟩
  · rw [Nodes.NotFile, h.same p (hhome p hp).1 (hhome p hp).2]
    exact hs.tidy.homes p hp
  · by_cases htmp : p = Journal.TMP
    · rw [htmp]
      exact h.tmp
    · rw [Nodes.NotDir, h.same p (hown p hp) htmp]
      exact hs.tidy.files p hp
  · have ho := (managed_iff.1 hp).1
    refine h.same p (fun htx => ?_) ?_
    · rw [own_iff.2 (.inl htx)] at ho
      cases ho
    · rintro rfl
      exact absurd ho (by decide)
  · rw [h.same _ (by decide) (by decide), hs.journal]

/-- Staging reaches into the transaction directory only. -/
theorem insert_tx {p : Path} {n : Node} (h : Staging s₁ s) (hp : Journal.TX_DIR <+: p)
    (hs : Nodes.Sound (s.insert p n)) : Staging s₁ (s.insert p n) := by
  refine ⟨hs, fun q hq hq' => ?_, ?_⟩
  · rw [Nodes.lookup_insert, if_neg, h.same q hq hq']
    rintro rfl
    exact hq hp
  · rw [Nodes.NotDir, Nodes.lookup_insert, if_neg]
    · exact h.tmp
    · rintro rfl
      exact absurd hp (by decide)

end Staging

section Stage

variable {policy : Policy} {plan : Plan} {s₁ s : Nodes}

theorem dirs_tx {d : Path} (hd : d ∈ plan.dirs) : Journal.TX_DIR <+: d := by
  simp only [Plan.dirs, List.mem_cons, List.not_mem_nil, or_false] at hd
  rcases hd with rfl | rfl | rfl | rfl
  · exact List.prefix_refl _
  · exact List.prefix_append _ _
  · exact (List.prefix_append _ _).trans (List.prefix_append _ _)
  · exact (List.prefix_append _ _).trans (List.prefix_append _ _)

theorem dirs_length {d : Path} (hd : d ∈ plan.dirs) : d.length ≤ 6 := by
  simp only [Plan.dirs, List.mem_cons, List.not_mem_nil, or_false] at hd
  rcases hd with rfl | rfl | rfl | rfl <;>
    simp [Journal.TX_DIR, Path.join, Manager.stageDir, Manager.backupDir]

theorem stageKey_length (x : (Path × Bytes) × Nat) : (stageKey plan x).length = 7 := by
  simp [stageKey, Manager.stageDir, Path.join, Journal.TX_DIR]

theorem stageKey_tx (x : (Path × Bytes) × Nat) : Journal.TX_DIR <+: stageKey plan x :=
  working_own (staged_working plan x.2)

theorem stageKey_pairwise (plan : Plan) :
    plan.places.zipIdx.Pairwise fun x y => stageKey plan x ≠ stageKey plan y :=
  (zipIdx_pairwise plan.places).imp fun {x y} hlt he => by
    have := stage_inj he
    omega

/-- The directories of a transaction have admitted paths. -/
theorem dirs_valid (hp : Planned policy plan s₁) {d : Path} (hd : d ∈ plan.dirs) :
    d.isSystemPath = true := by
  have hstage := working_valid plan (show isComponent "stage" = true by decide) (n := 0)
    (by decide) hp.tx (by decide)
  have hback := working_valid plan (show isComponent "backup" = true by decide) (n := 0)
    (by decide) hp.tx (by decide)
  simp only [Plan.dirs, List.mem_cons, List.not_mem_nil, or_false] at hd
  rcases hd with rfl | rfl | rfl | rfl
  · decide
  · exact txDir_valid (j := Manager.journalOf plan) hp.tx
  · exact Path.isSystemPath_of_prefix hstage (List.prefix_append _ _) (by simp [Manager.stageDir])
  · exact Path.isSystemPath_of_prefix hback (List.prefix_append _ _) (by simp [Manager.backupDir])

theorem stageKey_valid (hp : Planned policy plan s₁) {x : (Path × Bytes) × Nat}
    (hx : x ∈ plan.places.zipIdx) : (stageKey plan x).isSystemPath = true := by
  have hsize := hp.size
  have hmax : Manager.maxSteps = 2 ^ 63 := rfl
  have hi := (List.mem_zipIdx (x := x.1) (i := x.2) hx).2.1
  exact working_valid plan (show isComponent "stage" = true by decide) (by omega) hp.tx (by decide)

/-- The filesystem with the directories a transaction stages its files in. -/
def Plan.halfOpened (plan : Plan) (s : Nodes) : Nodes :=
  s.insertAll (fun d => d) (fun _ => .dir)
    [Journal.TX_DIR, Journal.TX_DIR.join plan.db.lastTx, Manager.stageDir plan.db.lastTx]

/-- Making the directories of a transaction, one in the other. -/
theorem halfOpened_grown (hp : Planned policy plan s₁) (hs : Ready s₁) :
    Nodes.Grown (Manager.stageDir plan.db.lastTx) s₁ (plan.halfOpened s₁) := by
  have hv := fun {d} (h : d ∈ plan.dirs) => dirs_valid hp h
  have hfree : ∀ q : Path, Journal.TX_DIR <+: q → s₁[q]? = none := hs.tx
  have htx : Journal.TX_DIR <+: Manager.stageDir plan.db.lastTx :=
    dirs_tx (by simp [Plan.dirs] : _ ∈ plan.dirs)
  have h1 : Nodes.Grown Journal.TX_DIR s₁ (s₁.insert Journal.TX_DIR .dir) :=
    .insert hs.tidy.sound (hv (by simp [Plan.dirs])) hs.home (hfree _ (List.prefix_refl _))
  have h2 := Nodes.Grown.insert (p := Journal.TX_DIR.join plan.db.lastTx) h1.1
    (hv (by simp [Plan.dirs])) (by simp) (by
      rw [Nodes.lookup_insert, if_neg (by simp [Path.join]),
        hfree _ (dirs_tx (by simp [Plan.dirs] : _ ∈ plan.dirs))])
  have h3 := Nodes.Grown.insert (p := Manager.stageDir plan.db.lastTx) h2.1
    (hv (by simp [Plan.dirs])) (by simp [Manager.stageDir]) (by
      rw [Nodes.lookup_insert, if_neg (by simp [Manager.stageDir, Path.join]),
        Nodes.lookup_insert, if_neg (by simp [Manager.stageDir, Path.join]),
        hfree _ htx])
  exact ((h1.of_prefix htx).step (h2.of_prefix (List.prefix_append _ _))).step h3

theorem halfOpened_dir : (plan.halfOpened s₁)[Manager.stageDir plan.db.lastTx]? = some .dir := by
  simp [Plan.halfOpened]

theorem opened_grown (hp : Planned policy plan s₁) (hs : Ready s₁) :
    Nodes.Grown (Manager.backupDir plan.db.lastTx) (plan.halfOpened s₁) (plan.opened s₁) := by
  have hmem : Manager.backupDir plan.db.lastTx ∈ plan.dirs := by simp [Plan.dirs]
  have hpar : (Manager.backupDir plan.db.lastTx).parent = Journal.TX_DIR.join plan.db.lastTx :=
    Path.parent_join _ _
  refine Nodes.Grown.insert (halfOpened_grown hp hs).1 (dirs_valid hp hmem) ?_ ?_
  · rw [hpar, Plan.halfOpened, Nodes.insertAll_cons, Nodes.insertAll_cons, Nodes.insertAll_cons,
      Nodes.insertAll_nil, Nodes.lookup_insert, if_neg (by simp [Manager.stageDir, Path.join]),
      Nodes.lookup_insert, if_pos rfl]
  · rw [Plan.halfOpened, Nodes.lookup_insertAll_of_ne, hs.tx _ (dirs_tx hmem)]
    intro d hd he
    simp only [List.mem_cons, List.not_mem_nil, or_false] at hd
    subst he
    simp [Manager.backupDir, Manager.stageDir, Journal.TX_DIR, Path.join] at hd

theorem opened_dir : (plan.opened s₁)[Manager.backupDir plan.db.lastTx]? = some .dir := by
  simp [Plan.opened, Plan.dirs]

theorem opened_sound (hp : Planned policy plan s₁) (hs : Ready s₁) : (plan.opened s₁).Sound :=
  (opened_grown hp hs).1

/-- The directories of a transaction, and nothing else in the transaction directory. -/
theorem lookup_opened (hs : Ready s₁) {q : Path} (hq : Journal.TX_DIR <+: q) :
    (plan.opened s₁)[q]? = if q ∈ plan.dirs then some .dir else none := by
  rw [Plan.opened]
  split
  · next h =>
    have key : ∀ l : List Path, ∀ s : Nodes, q ∈ l ∨ s[q]? = some .dir →
        (s.insertAll (fun d => d) (fun _ => .dir) l)[q]? = some .dir := by
      intro l
      induction l with
      | nil => exact fun s h => h.resolve_left (by simp)
      | cons d l ih =>
        intro s h
        rw [Nodes.insertAll_cons]
        refine ih _ ?_
        rw [Nodes.lookup_insert]
        by_cases hd : d = q
        · exact .inr (by simp [hd])
        · rcases h with h | h
          · exact .inl (by simpa [Ne.symm hd] using h)
          · exact .inr (by simp [hd, h])
    exact key _ _ (.inl h)
  · next h =>
    rw [Nodes.lookup_insertAll_of_ne, hs.tx q hq]
    rintro d hd rfl
    exact h hd

theorem lookup_opened_of_not_tx {q : Path} (hq : ¬ Journal.TX_DIR <+: q) :
    (plan.opened s₁)[q]? = s₁[q]? := by
  refine Nodes.lookup_insertAll_of_ne ?_
  rintro d hd rfl
  exact hq (dirs_tx hd)

theorem stageKey_not_dir (x : (Path × Bytes) × Nat) : stageKey plan x ∉ plan.dirs := fun h => by
  have := dirs_length h
  rw [stageKey_length] at this
  omega

/-- The first `done` files staged. -/
theorem staging_sound (hp : Planned policy plan s₁) (hs : Ready s₁)
    {done : List ((Path × Bytes) × Nat)} (hd : ∀ x ∈ done, x ∈ plan.places.zipIdx) :
    (plan.partly s₁ done).Sound := by
  refine (opened_sound hp hs).insertAll fun x hx => ⟨stageKey_valid hp (hd x hx), ?_, ?_, by simp [stageVal]⟩
  · have hpar : (stageKey plan x).parent = Manager.stageDir plan.db.lastTx :=
      Path.parent_join _ _
    have hmem : Manager.stageDir plan.db.lastTx ∈ plan.dirs := by simp [Plan.dirs]
    rw [hpar, lookup_opened hs (dirs_tx hmem), if_pos hmem]
  · rw [Nodes.NotDir, lookup_opened hs (stageKey_tx x), if_neg (stageKey_not_dir x)]
    simp

theorem lookup_staging_of_not_tx {done : List ((Path × Bytes) × Nat)} {q : Path}
    (hq : ¬ Journal.TX_DIR <+: q) :
    (plan.partly s₁ done)[q]? = s₁[q]? := by
  rw [Plan.partly, Nodes.lookup_insertAll_of_ne, lookup_opened_of_not_tx hq]
  rintro x - rfl
  exact hq (stageKey_tx x)

theorem staging_staging (hp : Planned policy plan s₁) (hs : Ready s₁)
    {done : List ((Path × Bytes) × Nat)} (hd : ∀ x ∈ done, x ∈ plan.places.zipIdx) :
    Staging s₁ (plan.partly s₁ done) := by
  refine ⟨staging_sound hp hs hd, fun q hq _ => lookup_staging_of_not_tx hq, ?_⟩
  rw [Nodes.NotDir, lookup_staging_of_not_tx (by decide), hs.tmp]
  simp

/-- A staged transaction is staged. -/
theorem staged_staged (hp : Planned policy plan s₁) (hs : Ready s₁) :
    Staged plan s₁ (plan.staged s₁) := by
  have hsound : (plan.partly s₁ plan.places.zipIdx).Sound := staging_sound hp hs fun _ h => h
  have hjournal : ∀ q : Path, q ≠ Journal.PATH → (plan.staged s₁)[q]? =
      (plan.partly s₁ plan.places.zipIdx)[q]? :=
    fun q hq => by rw [Plan.staged, Nodes.lookup_insert, if_neg hq.symm]
  have outside : ∀ q : Path, ¬ Journal.TX_DIR <+: q → q ≠ Journal.PATH →
      (plan.staged s₁)[q]? = s₁[q]? := fun q hq hq' => by
    rw [hjournal q hq', lookup_staging_of_not_tx hq]
  have inside : ∀ q : Path, Journal.TX_DIR <+: q → q ≠ Journal.PATH := by
    rintro _ hq rfl
    exact absurd hq (by decide)
  have hworking : ∀ q : Path, Journal.TX_DIR <+: q → (plan.staged s₁)[q]?.isSome = true →
      q ∈ plan.dirs ∨ ∃ x ∈ plan.places.zipIdx, stageKey plan x = q := by
    intro q hq hn
    rw [hjournal q (inside q hq)] at hn
    rw [Plan.partly] at hn
    rcases Nodes.lookup_insertAll_cases (s := plan.opened s₁) q with h | ⟨x, hx, he, -⟩
    · rw [h, lookup_opened hs hq] at hn
      split at hn
      · next h => exact .inl h
      · cases hn
    · exact .inr ⟨x, hx, he⟩
  have hhome : ∀ p ∈ homes, ¬ Journal.TX_DIR <+: p ∧ p ≠ Journal.PATH := by decide
  have hown : ∀ p ∈ ownFiles, ¬ Journal.TX_DIR <+: p := by decide
  refine ⟨⟨⟨?_, fun p hp => ?_, fun p hp' => ?_⟩, ?_, ?_, fun p hp hn => ?_, fun c hc => ?_⟩,
    fun p hp => ?_, fun d i hd => ?_, fun i => ?_⟩
  · refine hsound.insert (by decide) ?_ (.inr ?_)
    · rw [lookup_staging_of_not_tx (by decide)]
      exact hs.home
    · rw [lookup_staging_of_not_tx (by decide), hs.journal]
      simp
  · rw [Nodes.NotFile, outside p (hhome p hp).1 (hhome p hp).2]
    exact hs.tidy.homes p hp
  · by_cases hj : p = Journal.PATH
    · rw [hj, Nodes.NotDir, Plan.staged, Nodes.lookup_insert, if_pos rfl]
      simp
    · rw [Nodes.NotDir, outside p (hown p hp') hj]
      exact hs.tidy.files p hp'
  · rw [Plan.staged, Nodes.lookup_insert, if_pos rfl]
  · rw [outside _ (by decide) (by decide), hs.tmp]
  · rcases hworking p hp hn with h | ⟨x, -, rfl⟩
    · simp only [Plan.dirs, List.mem_cons, List.not_mem_nil, or_false] at h
      rcases h with rfl | rfl | rfl | rfl
      · exact .inl rfl
      · exact .inr (List.prefix_refl _)
      · exact .inr (List.prefix_append _ _)
      · exact .inr (List.prefix_append _ _)
    · exact .inr (working_tx (staged_working plan x.2))
  · have hmem : Journal.TX_DIR ∈ plan.dirs := by simp [Plan.dirs]
    rw [hjournal _ (by decide), Plan.partly, Nodes.lookup_insertAll_of_ne,
      lookup_opened hs (List.prefix_refl _), if_pos hmem] at hc
    · cases hc
    · intro x _ he
      exact stageKey_not_dir x (he ▸ hmem)
  · have ho := (managed_iff.1 hp).1
    refine outside p (fun htx => ?_) ?_
    · rw [own_iff.2 (.inl htx)] at ho
      cases ho
    · rintro rfl
      exact absurd ho (by decide)
  · have he : (Manager.stageDir plan.db.lastTx).join (toString i) = stageKey plan (d, i) := rfl
    rw [he, hjournal _ (inside _ (stageKey_tx _)), Plan.partly,
      Nodes.lookup_insertAll (stageKey_pairwise plan) hd]
    rfl
  · by_contra hn
    have htx := working_own (backup_working plan i)
    rcases hworking _ htx (Option.isSome_iff_ne_none.2 hn) with h | ⟨x, -, he⟩
    · have := dirs_length h
      simp [Manager.backupDir, Path.join, Journal.TX_DIR] at this
    · exact stage_ne_backup plan x.2 i he

/-- Growing in the transaction directory. -/
theorem Staging.grown {t : Nodes} {p : Path} (h : Staging s₁ s) (hs : Ready s₁)
    (hp : Journal.TX_DIR <+: p) (hg : Nodes.Grown p s t) : Staging s₁ t := by
  have hout : ∀ q : Path, ¬ Journal.TX_DIR <+: q → t[q]? = s[q]? := by
    intro q hq
    rcases hg.2 q with h' | ⟨hqp, hn, -⟩
    · exact h'
    · -- What is above the transaction directory is there already.
      have hq' : q <+: Db.DIR :=
        ((Path.prefix_total hqp hp).resolve_right hq |>.elim fun r hr => by
          have hne : r ≠ [] := by rintro rfl; exact hq ⟨[], by simpa using hr.symm⟩
          have hl : q = Journal.TX_DIR.take q.length := by rw [← hr]; simp
          have hlen : q.length ≤ 3 := by
            have := congrArg List.length hr
            have := List.length_pos_iff.2 hne
            simp [Journal.TX_DIR] at *
            omega
          rw [hl]
          exact (List.take_prefix_take_left hlen).trans (by decide))
      have hdir : s[q]? = some .dir := by
        by_cases he : q = Db.DIR
        · rw [he, h.same _ (by decide) (by decide), hs.home]
        · refine h.sound.above (q := Db.DIR) ?_ hq' he
          rw [h.same _ (by decide) (by decide), hs.home]
          rfl
      rw [hdir] at hn
      cases hn
  refine ⟨hg.1, fun q hq hq' => (hout q hq).trans (h.same q hq hq'), ?_⟩
  rw [Nodes.NotDir, hout _ (by decide)]
  exact h.tmp

theorem Staging.start (hs : Ready s₁) : Staging s₁ s₁ :=
  ⟨hs.tidy.sound, fun _ _ _ => rfl, by rw [Nodes.NotDir, hs.tmp]; simp⟩

namespace Manager

variable {F : Fuse → Prop} [Steady F]

/-- Making a directory in the transaction directory. -/
theorem makeDir_rule {s t : Nodes} {p : Path} (hs : Ready s₁) (h : Staging s₁ s)
    (hv : p.isSystemPath = true) (hp : Journal.TX_DIR <+: p) (hg : Nodes.Grown p s t)
    (ht : t[p]? = some .dir) :
    Safe F (fun u => u = s) (at_ p (Fs.createDirAll p)) (fun _ u => u = t) (Staging s₁) := by
  refine Safe.mapErr ((Fs.createDirAll_rule h.sound hv fun q hq c hc => ?_).conseq (fun _ h => h)
    (fun _ u hu => hu.1.unique hu.2 hg ht) fun u hu => h.grown hs hp hu)
  -- A file on the way down would lie above the directory that is made.
  have hdir : t[q]? = some .dir := by
    by_cases he : q = p
    · rw [he, ht]
    · exact hg.1.above (by rw [ht]; rfl) hq he
  rcases hg.2 q with h' | ⟨-, hn, -⟩
  · rw [← h', hdir] at hc; cases hc
  · rw [hn] at hc; cases hc

/-- Staging one file more. -/
theorem stageFile_rule (hp : Planned policy plan s₁) (hs : Ready s₁)
    {done : List ((Path × Bytes) × Nat)} {x : (Path × Bytes) × Nat}
    (hin : ∀ y ∈ done ++ [x], y ∈ plan.places.zipIdx)
    (hne : ∀ y ∈ done, stageKey plan y ≠ stageKey plan x) :
    Safe F (fun s => s = plan.partly s₁ done)
      (at_ (stageKey plan x) (Fs.create (stageKey plan x) (.data x.1.2)))
      (fun _ s => s = plan.partly s₁ (done ++ [x])) (Staging s₁) := by
  have hin' : ∀ y ∈ done, y ∈ plan.places.zipIdx := fun y hy => hin y (by simp [hy])
  have hmem : stageDir plan.db.lastTx ∈ plan.dirs := by simp [Plan.dirs]
  have hpar : (stageKey plan x).parent = stageDir plan.db.lastTx := Path.parent_join _ _
  have hv := stageKey_valid hp (hin x (by simp))
  have hparent : (plan.partly s₁ done)[(stageKey plan x).parent]? = some .dir := by
    rw [hpar, Plan.partly, Nodes.lookup_insertAll_of_ne, lookup_opened hs (dirs_tx hmem),
      if_pos hmem]
    exact fun y _ he => stageKey_not_dir y (he ▸ hmem)
  have hfree : (plan.partly s₁ done)[stageKey plan x]? = none := by
    rw [Plan.partly, Nodes.lookup_insertAll_of_ne hne, lookup_opened hs (stageKey_tx _),
      if_neg (stageKey_not_dir _)]
  have hstaging := staging_staging hp hs hin'
  refine Safe.mapErr (Fs.create_rule fun s h => ?_)
  subst h
  refine ⟨hv, hparent, hfree, ?_, fun _ => ?_, hstaging⟩
  · rw [Plan.partly, Plan.partly, Nodes.insertAll_concat]
    rfl
  · exact hstaging.insert_tx (stageKey_tx x)
      (hstaging.sound.insert hv hparent (.inr (by rw [hfree]; nofun)))

/-- Staging the files, one by one. -/
theorem stageFiles_rule (hp : Planned policy plan s₁) (hs : Ready s₁) :
    Safe F (fun s => s = plan.opened s₁)
      (plan.places.zipIdx.forM fun (d, i) =>
        let p := (stageDir plan.db.lastTx).join (toString i)
        at_ p (Fs.create p (.data d.2)))
      (fun _ s => s = plan.partly s₁ plan.places.zipIdx) (Staging s₁) := by
  refine Safe.forM (I := fun done s => s = plan.partly s₁ done) fun done x rest hsplit => ?_
  refine stageFile_rule hp hs (fun y hy => ?_) fun y hy => ?_
  · rw [hsplit]
    rcases List.mem_append.1 hy with hy | hy
    · exact List.mem_append_left _ hy
    · rw [List.mem_singleton.1 hy]
      simp
  · have hpw := stageKey_pairwise plan
    rw [hsplit, List.pairwise_append] at hpw
    exact hpw.2.2 y hy x (by simp)

/-- Writing a journal where there is none. -/
theorem writeJournal_rule {s : Nodes} {j : Journal} (hs : Ready s₁) (h : Staging s₁ s)
    (htmp : s[Journal.TMP]? = none) :
    Safe F (fun t => t = s) (Fs.writeAtomic Journal.TMP Journal.PATH (.journal j))
      (fun _ t => t = s.insert Journal.PATH (.file (.journal j))) (Staging s₁) := by
  have hv : Path.isSystemPath Journal.TMP = true := by decide
  have hdir : s[Path.parent Journal.TMP]? = some .dir := by
    rw [h.same _ (by decide) (by decide)]
    exact hs.home
  have hjournal : s[Journal.PATH]? = none := by
    rw [h.same _ (by decide) (by decide), hs.journal]
  have written : ∀ c, Staging s₁ (s.insert Journal.TMP (.file c)) := by
    intro c
    refine ⟨h.sound.insert hv hdir (.inr h.tmp), fun q hq hq' => ?_, by simp [Nodes.NotDir]⟩
    rw [Nodes.lookup_insert, if_neg hq'.symm, h.same q hq hq']
  refine Safe.bind (R := fun _ t => t = s) (Fs.removeFile_rule fun t ht => ?_) fun _ => ?_
  · subst ht
    exact ⟨hv, h.tmp, Nodes.erase_of_none htmp, h⟩
  refine Safe.bind (R := fun _ t => t = s.insert Journal.TMP (.file (.journal j)))
    (Fs.create_rule fun t ht => ?_) fun _ => Fs.replace_rule fun t ht => ?_
  · subst ht
    exact ⟨hv, hdir, htmp, rfl, fun _ => written _, h⟩
  · subst ht
    have hsrc : (s.insert Journal.TMP (.file (.journal j)))[Journal.TMP]? =
        some (.file (.journal j)) := by simp
    refine ⟨hv, by decide, ?_, ⟨_, hsrc⟩, ?_, Nodes.ext fun q => ?_, written _⟩
    · rw [Nodes.lookup_insert, if_neg (by decide)]
      exact hdir
    · rw [Nodes.NotDir, Nodes.lookup_insert, if_neg (by decide), hjournal]
      simp
    · rw [Nodes.lookup_move hsrc, Nodes.lookup_insert, Nodes.lookup_insert]
      split
      · rfl
      · split
        · next he => rw [← he, htmp]
        · rfl

/-- Staging a transaction. -/
theorem stage_rule (hp : Planned policy plan s₁) (hs : Ready s₁) :
    Safe F (fun s => s = s₁) (stage plan) (fun _ s => s = plan.staged s₁) (Staging s₁) := by
  have hstage : stageDir plan.db.lastTx ∈ plan.dirs := by simp [Plan.dirs]
  have hback : backupDir plan.db.lastTx ∈ plan.dirs := by simp [Plan.dirs]
  have hhalf : Staging s₁ (plan.halfOpened s₁) :=
    (Staging.start hs).grown hs (dirs_tx hstage) (halfOpened_grown hp hs)
  refine Safe.bind (makeDir_rule hs (.start hs) (dirs_valid hp hstage) (dirs_tx hstage)
    (halfOpened_grown hp hs) halfOpened_dir) fun _ => ?_
  refine Safe.bind (makeDir_rule hs hhalf (dirs_valid hp hback) (dirs_tx hback)
    (opened_grown hp hs) opened_dir) fun _ => ?_
  refine Safe.bind (stageFiles_rule hp hs) fun _ => ?_
  refine Safe.bind (R := fun _ s =>
      s = plan.partly s₁ plan.places.zipIdx)
    (Safe.mapErr (Fs.sync_rule fun _ h => h)) fun _ => Safe.mapErr ?_
  refine writeJournal_rule hs (staging_staging hp hs fun _ h => h) ?_
  rw [lookup_staging_of_not_tx (by decide), hs.tmp]

end Manager

end Stage

end NanoChrono.Ncpkg
