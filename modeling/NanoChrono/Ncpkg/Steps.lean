import NanoChrono.Crash.UndoLog
import NanoChrono.Ncpkg.FsRules
import NanoChrono.Ncpkg.Manager

/-! # A transaction's steps are an undo log

`own` is the manager's working area (its transactions, the journal, the next database, the lock),
`managed` everything an operation is about. `stepLog` reads the steps of a journal as an undo log:
whether a step was made shows in one path, the one it creates or the staged file it takes. -/

namespace NanoChrono.Ncpkg

open Crash

/-- The manager's own files, which come and go with an operation. -/
def ownFiles : List Path := [Journal.PATH, Journal.TMP, Db.NEXT, LOCK]

/-- The manager's working area. -/
def own (p : Path) : Bool :=
  Journal.TX_DIR.isPrefixOf p || ownFiles.contains p

/-- The directories the working area lies in. -/
def homes : List Path := [["var"], ["var", "lib"], Db.DIR]

/-- What operations are about: everything but the working area and the directories it is in. -/
def managed (p : Path) : Bool :=
  !own p && !homes.contains p

/-- Two filesystems with the same managed tree. -/
def SameManaged (s t : Nodes) : Prop :=
  ∀ p, managed p = true → s[p]? = t[p]?

/-- A sound filesystem where the working area holds nothing of the wrong kind. -/
structure Tidy (s : Nodes) : Prop where
  sound : s.Sound
  homes : ∀ p ∈ homes, s.NotFile p
  files : ∀ p ∈ ownFiles, s.NotDir p

theorem own_iff {p : Path} : own p = true ↔ Journal.TX_DIR <+: p ∨ p ∈ ownFiles := by
  simp [own]

theorem managed_iff {p : Path} : managed p = true ↔ own p = false ∧ p ∉ homes := by
  simp [managed]

namespace SameManaged

variable {s t u : Nodes}

theorem refl (s : Nodes) : SameManaged s s := fun _ _ => rfl

theorem symm (h : SameManaged s t) : SameManaged t s := fun p hp => (h p hp).symm

theorem trans (h : SameManaged s t) (h' : SameManaged t u) : SameManaged s u :=
  fun p hp => (h p hp).trans (h' p hp)

/-- A change in the working area is none. -/
theorem of_own (h : ∀ p, own p = false → s[p]? = t[p]?) : SameManaged s t :=
  fun p hp => h p (managed_iff.1 hp).1

end SameManaged

/-- What lies in the working area's transaction directory is its own. -/
theorem own_beneath {p q : Path} (h : Journal.TX_DIR <+: p) (hpq : p <+: q) : own q = true :=
  own_iff.2 (.inl (h.trans hpq))

namespace Step

/-- What making a step does. -/
def effect : Step → Nodes → Nodes
  | .mkdir p, s => s.insert p .dir
  | .backup src dst, s => s.move src dst
  | .place src dst, s => s.move src dst

/-- The path a step makes. -/
def created : Step → Path
  | .mkdir p => p
  | .backup _ dst => dst
  | .place _ dst => dst

/-- The path a step takes away. -/
def removed : Step → Option Path
  | .mkdir _ => none
  | .backup src _ => some src
  | .place src _ => some src

/-- When a step can be made. -/
structure Ready (st : Step) (s : Nodes) : Prop where
  parent : s[st.created.parent]? = some .dir
  free : s[st.created]? = none
  there : ∀ src, st.removed = some src → ∃ c, s[src]? = some (.file c)

/-- That a step was not made: the directory or the backup is not there, the staged file still is. -/
def Pending : Step → Nodes → Prop
  | .mkdir p, s => s[p]? = none
  | .backup _ dst, s => s[dst]? = none
  | .place src _, s => ∃ c, s[src]? = some (.file c)

/-- Making the first step does not touch the path that shows whether the second was made. -/
def Before (st : Step) : Step → Prop
  | .mkdir p => st.created ≠ p
  | .backup _ dst => st.created ≠ dst
  | .place src _ => st.removed ≠ some src

/-- What a step leaves at each path. -/
theorem lookup_effect {st : Step} {s : Nodes} (h : st.Ready s) (q : Path) :
    (st.effect s)[q]? =
      if st.created = q then (match st.removed with | none => some .dir | some src => s[src]?)
      else if st.removed = some q then none else s[q]? := by
  cases st with
  | mkdir p => simp [effect, created, removed]
  | backup src dst =>
    obtain ⟨c, hc⟩ := h.there src rfl
    simp [effect, created, removed, Nodes.lookup_move hc, hc]
  | place src dst =>
    obtain ⟨c, hc⟩ := h.there src rfl
    simp [effect, created, removed, Nodes.lookup_move hc, hc]

/-- A step leaves alone what it does not name. -/
theorem lookup_effect_of_ne {st : Step} {s : Nodes} (h : st.Ready s) {q : Path}
    (hc : st.created ≠ q) (hr : st.removed ≠ some q) : (st.effect s)[q]? = s[q]? := by
  rw [lookup_effect h, if_neg hc, if_neg hr]

/-- Steps move files, so directories stay. -/
theorem effect_dir {st : Step} {s : Nodes} (h : st.Ready s) {q : Path} (hq : s[q]? = some .dir) :
    (st.effect s)[q]? = some .dir := by
  rw [lookup_effect_of_ne h, hq]
  · rintro rfl
    rw [h.free] at hq
    cases hq
  · intro hr
    obtain ⟨c, hc⟩ := h.there q hr
    rw [hc] at hq
    cases hq

theorem effect_sound {st : Step} {s : Nodes} (hs : s.Sound) (hv : st.pathsOk = true)
    (h : st.Ready s) : (st.effect s).Sound := by
  have hfree : s[st.created]? ≠ some .dir := by rw [h.free]; simp
  cases st with
  | mkdir p => exact hs.insert hv h.parent (.inl rfl)
  | backup src dst =>
    obtain ⟨c, hc⟩ := h.there src rfl
    simp only [pathsOk, Bool.and_eq_true] at hv
    exact hs.move hc hv.2 h.parent hfree
  | place src dst =>
    obtain ⟨c, hc⟩ := h.there src rfl
    simp only [pathsOk, Bool.and_eq_true] at hv
    exact hs.move hc hv.2 h.parent hfree

theorem pending_effect {st st' : Step} {s : Nodes} (hb : st.Before st') (h : st.Ready s)
    (hp : st'.Pending s) : st'.Pending (st.effect s) := by
  have keep : ∀ q : Path, st.created ≠ q → s[q]? = none → (st.effect s)[q]? = none := by
    intro q hq hn
    rw [lookup_effect h, if_neg hq]
    split
    · rfl
    · exact hn
  cases st' with
  | mkdir p => exact keep p hb hp
  | backup src dst => exact keep dst hb hp
  | place src dst =>
    obtain ⟨c, hc⟩ := hp
    refine ⟨c, ?_⟩
    rw [lookup_effect_of_ne h _ hb, hc]
    rintro rfl
    rw [h.free] at hc
    cases hc

end Step

/-- The steps of a journal as an undo log. -/
def stepLog : UndoLog Nodes Error Step where
  forth := Manager.doStep
  back := Manager.undoStep
  effect := Step.effect
  Ready := Step.Ready
  Pending := Step.Pending
  Before := Step.Before
  Inv := Nodes.Sound

namespace Manager

variable {F : Fuse → Prop} [Steady F] {D : Nodes → Prop}

theorem exists_rule {P : Nodes → Prop} {Q : Bool → Nodes → Prop} {p : Path}
    (h : ∀ s, P s → p.isSystemPath = true ∧ Q s[p]?.isSome s) : Safe F P (exists_ p) Q D :=
  Safe.mapErr (Fs.exists_rule h)

/-- Moving a file back to where a made step took it from. -/
theorem moveBack_rule {s : Nodes} {src dst : Path} {c : Content} (hs : s.Sound)
    (hvs : src.isSystemPath = true) (hvd : dst.isSystemPath = true) (hc : s[src]? = some (.file c))
    (hn : s[dst]? = none) :
    Safe F (fun t => t = s.move src dst) (moveBack src dst) (fun _ t => t = s)
      (fun t => t = s.move src dst) := by
  have hne : src ≠ dst := by rintro rfl; rw [hc] at hn; cases hn
  have hsrc : (s.move src dst)[src]? = none := by
    rw [Nodes.lookup_move hc, if_neg hne.symm, if_pos rfl]
  have hdst : (s.move src dst)[dst]? = some (.file c) := by
    rw [Nodes.lookup_move hc, if_pos rfl]
  have hpar : (s.move src dst)[src.parent]? = some .dir := by
    have hp := hs.parent src (Path.isSystemPath_iff.1 hvs).1 (by rw [hc]; rfl)
    rw [Nodes.lookup_move hc, if_neg, if_neg, hp]
    · intro he; rw [← he, hc] at hp; cases hp
    · intro he; rw [← he, hn] at hp; cases hp
  refine Safe.bind (R := fun b t => t = s.move src dst ∧ b = true)
    (exists_rule fun t ht => ?_) fun b => ?_
  · subst ht; exact ⟨hvd, rfl, by rw [hdst]; rfl⟩
  refine Triple.of_each ?_
  rintro t ⟨rfl, rfl⟩
  refine Safe.bind (R := fun b t => t = s.move src dst ∧ b = false)
    (exists_rule fun t ht => ?_) fun b => ?_
  · subst ht; exact ⟨hvs, rfl, by rw [hsrc]; rfl⟩
  refine Triple.of_each ?_
  rintro t ⟨rfl, rfl⟩
  refine Safe.mapErr (Fs.rename_rule fun t ht => ?_)
  subst ht
  exact ⟨hvd, hvs, hpar, ⟨c, hdst⟩, hsrc, Nodes.move_move hc hn, rfl⟩

/-- With nothing at `dst`, or something at `src`, there is nothing to move back. -/
theorem moveBack_idle {s : Nodes} {src dst : Path} (hvs : src.isSystemPath = true)
    (hvd : dst.isSystemPath = true) (h : s[dst]? = none ∨ s[src]?.isSome = true) :
    Safe F (fun t => t = s) (moveBack src dst) (fun _ t => t = s) (fun t => t = s) := by
  refine Safe.bind (R := fun b t => t = s ∧ b = s[dst]?.isSome)
    (exists_rule fun t ht => ?_) fun b => ?_
  · subst ht; exact ⟨hvd, rfl, rfl⟩
  refine Triple.of_each ?_
  rintro t ⟨rfl, rfl⟩
  rcases hd : t[dst]? with _ | n
  · exact Safe.ret fun _ h => h
  · have hsrc : t[src]?.isSome = true := h.resolve_left (by rw [hd]; simp)
    refine Safe.bind (R := fun b u => u = t ∧ b = true)
      (exists_rule fun u hu => ?_) fun b => ?_
    · subst hu; exact ⟨hvs, rfl, hsrc⟩
    refine Triple.of_each ?_
    rintro u ⟨rfl, rfl⟩
    exact Safe.ret fun _ h => h

/-- A directory that was made and is empty again goes. -/
theorem unmake_rule {s : Nodes} {p : Path} (hs : s.Sound) (hv : p.isSystemPath = true)
    (hn : s[p]? = none) :
    Safe F (fun t => t = s.insert p .dir) (undoStep (.mkdir p)) (fun _ t => t = s)
      (fun t => t = s.insert p .dir) := by
  refine Safe.mapErr (Fs.removeDir_rule fun t ht => ?_)
  subst ht
  have hch : Nodes.hasChildren (s.insert p .dir) p = false := by
    rw [← Bool.not_eq_true, Nodes.hasChildren_iff]
    rintro ⟨k, hk, hpk, hne⟩
    rw [Nodes.lookup_insert, if_neg hne.symm, hs.below (by rw [hn]; simp) hpk hne.symm] at hk
    cases hk
  refine ⟨hv, by intro c; simp, ?_, rfl⟩
  have hdir : Nodes.isDir (s.insert p .dir) p = true := Nodes.isDir_iff.2 (by simp)
  rw [Nodes.prune, hdir, hch]
  refine Nodes.ext fun q => ?_
  simp only [Bool.not_false, Bool.and_self, if_true, Nodes.lookup_erase, Nodes.lookup_insert]
  split
  · next h => rw [← h, hn]
  · rfl

/-- A directory that is not there needs no undoing. -/
theorem unmake_idle {s : Nodes} {p : Path} (hv : p.isSystemPath = true) (hn : s[p]? = none) :
    Safe F (fun t => t = s) (undoStep (.mkdir p)) (fun _ t => t = s) (fun t => t = s) := by
  refine Safe.mapErr (Fs.removeDir_rule fun t ht => ?_)
  subst ht
  have hdir : t.isDir p = false := by
    rw [← Bool.not_eq_true, Nodes.isDir_iff, hn]
    simp
  refine ⟨hv, ?_, ?_, rfl⟩
  · intro c; rw [hn]; simp
  · rw [Nodes.prune, hdir]
    rfl

end Manager

/-- A pending step needs no undoing. -/
theorem undo_pending {F : Fuse → Prop} [Steady F] {st : Step} {s : Nodes}
    (hv : st.pathsOk = true) (hp : st.Pending s) :
    Safe F (fun t => t = s) (Manager.undoStep st) (fun _ t => t = s) (fun t => t = s) := by
  cases st with
  | mkdir p => exact Manager.unmake_idle hv hp
  | backup src dst =>
    simp only [Step.pathsOk, Bool.and_eq_true] at hv
    exact Manager.moveBack_idle hv.1 hv.2 (.inl hp)
  | place src dst =>
    simp only [Step.pathsOk, Bool.and_eq_true] at hv
    obtain ⟨c, hc⟩ := hp
    exact Manager.moveBack_idle hv.1 hv.2 (.inr (by rw [hc]; rfl))

/-- The steps of a journal can be made and taken back. -/
theorem stepLog_lawful {steps : List Step} (hv : ∀ st ∈ steps, st.pathsOk = true) :
    stepLog.Lawful steps where
  forth st hst s hs hp := by
    have hv := hv st hst
    cases st with
    | mkdir p =>
      refine Triple.mapErr (Fs.createDir_try (G := fun _ t => t = s) hv fun t ht => ?_)
        fun _ _ h => h
      subst ht
      exact ⟨fun hpar hn => ⟨⟨hpar, hn, nofun⟩, rfl⟩, fun _ => rfl, rfl⟩
    | backup src dst =>
      simp only [Step.pathsOk, Bool.and_eq_true] at hv
      refine Triple.mapErr (Fs.rename_try (G := fun _ t => t = s) hv.1 hv.2 fun t ht => ?_)
        fun _ _ h => h
      subst ht
      exact ⟨fun hpar hc hn => ⟨⟨hpar, hn, by rintro _ ⟨⟩; exact hc⟩, rfl⟩, fun _ => rfl, rfl⟩
    | place src dst =>
      simp only [Step.pathsOk, Bool.and_eq_true] at hv
      refine Triple.mapErr (Fs.rename_try (G := fun _ t => t = s) hv.1 hv.2 fun t ht => ?_)
        fun _ _ h => h
      subst ht
      exact ⟨fun hpar hc hn => ⟨⟨hpar, hn, by rintro _ ⟨⟩; exact hc⟩, rfl⟩, fun _ => rfl, rfl⟩
  forth_ready F _ st hst s hs hr := by
    have hv := hv st hst
    cases st with
    | mkdir p =>
      refine Safe.mapErr (Fs.createDir_rule fun t ht => ?_)
      subst ht
      exact ⟨hv, hr.parent, hr.free, rfl, rfl⟩
    | backup src dst =>
      simp only [Step.pathsOk, Bool.and_eq_true] at hv
      refine Safe.mapErr (Fs.rename_rule fun t ht => ?_)
      subst ht
      exact ⟨hv.1, hv.2, hr.parent, hr.there src rfl, hr.free, rfl, rfl⟩
    | place src dst =>
      simp only [Step.pathsOk, Bool.and_eq_true] at hv
      refine Safe.mapErr (Fs.rename_rule fun t ht => ?_)
      subst ht
      exact ⟨hv.1, hv.2, hr.parent, hr.there src rfl, hr.free, rfl, rfl⟩
  back F _ st hst s hs _ hr := by
    have hv := hv st hst
    cases st with
    | mkdir p => exact Manager.unmake_rule hs hv hr.free
    | backup src dst =>
      simp only [Step.pathsOk, Bool.and_eq_true] at hv
      obtain ⟨c, hc⟩ := hr.there src rfl
      exact Manager.moveBack_rule hs hv.1 hv.2 hc hr.free
    | place src dst =>
      simp only [Step.pathsOk, Bool.and_eq_true] at hv
      obtain ⟨c, hc⟩ := hr.there src rfl
      exact Manager.moveBack_rule hs hv.1 hv.2 hc hr.free
  back_pending F _ st hst s _ hp := undo_pending (hv st hst) hp
  inv st hst s hs hr := Step.effect_sound hs (hv st hst) hr
  pending st _ st' _ hb s _ hr hp := Step.pending_effect hb hr hp

end NanoChrono.Ncpkg
