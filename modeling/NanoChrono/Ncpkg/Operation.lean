import NanoChrono.Ncpkg.Execution
import NanoChrono.Ncpkg.Outline

/-! # One operation

An operation takes the lock, recovers, plans and executes. Up to its plan it is a function of the
filesystem it starts on: `Opened` says which filesystem it plans on, `proposal` what it plans there.
`run_cases` reduces every run of an operation, whatever interrupts it, to a transaction. -/

namespace NanoChrono.Ncpkg

open Crash

namespace Db

/-- What loading the database answers. -/
def loadFrom (arch : String) (s : Nodes) : Except Error Db :=
  match s[PATH]? with
  | some (.file c) =>
    match parse c with
    | .error e => .error (.db e)
    | .ok d =>
      if d.arch = arch then .ok d
      else .error (.db ⟨s!"it belongs to a {d.arch} system, this is {arch}"⟩)
  | some .dir => .error (.fs .isADirectory PATH)
  | none => .ok (Db.empty arch)

theorem load_run (arch : String) (w : World Nodes) :
    (Db.load arch).run w = (loadFrom arch w.store, w) := by
  have hv : Fs.check Db.PATH = .ok () := Fs.check_eq_ok (by decide)
  rcases hd : w.store[Db.PATH]? with _ | c | _
  · simp only [Db.load, Prog.run_attempt_bind, Fs.read, Prog.run_query, hv, Fs.ok_bind, hd,
      loadFrom]
    rfl
  · simp only [Db.load, Prog.run_attempt_bind, Fs.read, Prog.run_query, hv, Fs.ok_bind, hd,
      loadFrom]
    rcases parse c with e | d
    · rfl
    · dsimp only
      split <;> rfl
  · simp only [Db.load, Prog.run_attempt_bind, Fs.read, Prog.run_query, hv, Fs.ok_bind, hd,
      loadFrom]
    rfl

/-- What loads is the database that is there, or the empty one. -/
theorem loadFrom_ok {arch : String} {s : Nodes} {d : Db} (h : loadFrom arch s = .ok d) :
    Loads arch s d := by
  unfold loadFrom at h
  split at h
  · next c hc =>
    split at h
    · cases h
    · next d' hd =>
      split at h
      · next ha =>
        cases h
        unfold parse at hd
        split at hd
        · simp only [Check.bind_ok, Check.pure_ok] at hd
          obtain ⟨⟨⟩, hck, rfl⟩ := hd
          exact .there hc hck ha
        · cases hd
      · cases h
  · cases h
  · next hn =>
    cases h
    exact .absent hn

end Db

/-- A filesystem at rest: no transaction is pending, and the database, if there is one, is the
manager's. -/
structure AtRest (policy : Policy) (s : Nodes) : Prop where
  tidy : Tidy s
  journal : s[Journal.PATH]? = none
  written : ∀ d, Loads policy.arch.name s d → d.Written

/-- The filesystem an operation that starts on `base` plans on. -/
def Opened (policy : Policy) (base s : Nodes) : Prop :=
  Settled base s ∧ ∃ t, Nodes.Grown Db.DIR base t ∧ t[Db.DIR]? = some .dir ∧
    Idle (t.withLock (some (.data policy.owner))) s

theorem Opened.unique {policy : Policy} {base s t : Nodes} (h : Opened policy base s)
    (h' : Opened policy base t) : s = t := by
  obtain ⟨-, u, hu, hdu, hs⟩ := h
  obtain ⟨-, v, hv, hdv, ht⟩ := h'
  rw [hu.unique hdu hv hdv] at hs
  exact hs.unique ht

theorem Opened.ready {policy : Policy} {base s : Nodes} (h : Opened policy base s) : Ready s :=
  { h.1 with same := .refl s }

theorem AtRest.quiet {policy : Policy} {s : Nodes} (h : AtRest policy s) : Quiet s s :=
  ⟨h.tidy, .refl s, h.journal⟩

/-- Databases load by what is at their path. -/
theorem Loads.congr {arch : String} {s t : Nodes} {d : Db} (h : Loads arch s d)
    (he : t[Db.PATH]? = s[Db.PATH]?) : Loads arch t d := by
  cases h with
  | absent hn => exact .absent (he.trans hn)
  | there hd hc ha => exact .there (he.trans hd) hc ha

theorem archDir_name (a : Arch) : archDir a.name = some a := by
  cases a <;> decide

/-- What loads passes its check. -/
theorem Loads.valid {a : Arch} {s : Nodes} {d : Db} (h : Loads a.name s d) : d.Valid := by
  cases h with
  | there _ hc _ => exact Db.check_valid hc
  | absent _ =>
    have hp : ∀ id : String, (Db.empty a.name).packages[id]? = none := by simp [Db.empty]
    have hl : ∀ name : String, (Db.empty a.name).libraries[name]? = none := by simp [Db.empty]
    refine ⟨by rw [show (Db.empty a.name).arch = a.name from rfl, archDir_name]; rfl,
      fun id p h => ?_, fun name l h => ?_, fun id p _ _ h => ?_, fun name l _ _ h => ?_⟩
    · rw [hp] at h; cases h
    · rw [hl] at h; cases h
    · rw [hp] at h; cases h
    · rw [hl] at h; cases h

namespace Manager

variable (dec : Decoders) (policy : Policy)

/-- What an operation on the filesystem `s` plans. -/
def proposal (r : Request) (s : Nodes) : Except Error Plan := do
  let db ← Db.loadFrom policy.arch.name s
  match r with
  | .install pkg opts =>
    match pkg with
    | .error e => .error e
    | .ok b => Planner.plan dec policy opts b db s
  | .remove id => Planner.planRemove policy db id

/-- Loading and planning only read. -/
theorem proposal_run {α : Type} (r : Request) (k : Plan → Prog Nodes Error α) (w : World Nodes) :
    (do
      let db ← Db.load policy.arch.name
      let plan ← planFor dec policy db r
      k plan : Prog Nodes Error α).run w =
    match proposal dec policy r w.store with
    | .error e => (.error e, w)
    | .ok plan => (k plan).run w := by
  rw [Prog.run_bind, Db.load_run]
  simp only [proposal]
  rcases Db.loadFrom policy.arch.name w.store with e | db
  · rfl
  rw [Fs.ok_bind]
  simp only [Prog.run_bind]
  cases r with
  | install pkg opts =>
    cases pkg with
    | error e => rfl
    | ok b =>
      simp only [planFor, Prog.run_query]
      cases Planner.plan dec policy opts b db w.store <;> rfl
  | remove id =>
    simp only [planFor, Prog.run_query]
    cases Planner.planRemove policy db id <;> rfl

/-- Loading and planning are one query. -/
theorem proposal_query {α : Type} (r : Request) (k : Plan → Prog Nodes Error α) (w : World Nodes) :
    (do
      let db ← Db.load policy.arch.name
      let plan ← planFor dec policy db r
      k plan : Prog Nodes Error α).run w = (Prog.query (proposal dec policy r) >>= k).run w := by
  rw [proposal_run, Prog.run_bind, Prog.run_query]
  cases proposal dec policy r w.store <;> rfl

variable {dec policy}

/-- A proposal keeps its promises. -/
theorem proposal_outlined {r : Request} {s : Nodes} {plan : Plan}
    (hw : ∀ d, Loads policy.arch.name s d → d.Written) (h : proposal dec policy r s = .ok plan) :
    ∃ d, Loads policy.arch.name s d ∧ Outlined dec policy d s plan := by
  simp only [proposal, Check.bind_ok] at h
  obtain ⟨d, hd, h⟩ := h
  have hd := Db.loadFrom_ok hd
  refine ⟨d, hd, ?_⟩
  split at h
  · split at h
    · cases h
    · exact Planner.plan_outlined hd.valid (hw d hd) h
  · exact Planner.planRemove_outlined hd.valid (hw d hd) h

/-- A transaction may rely on a proposal. -/
theorem proposal_planned {r : Request} {s : Nodes} {plan : Plan} (hs : Ready s)
    (hw : ∀ d, Loads policy.arch.name s d → d.Written) (h : proposal dec policy r s = .ok plan)
    (hsize : plan.backups.length + plan.mkdirs.length + plan.places.length < maxSteps) :
    Planned policy plan s := by
  obtain ⟨d, hd, hout⟩ := proposal_outlined hw h
  exact hout.planned hs hd (hw d hd) hsize

/-! ## Under the lock -/

/-- Runs `p`, then gives the lock back whatever came of it. -/
def releasing {α : Type} (p : Prog Nodes Error α) : Prog Nodes Error α := do
  let result ← Prog.attempt p
  unlock
  match result with
  | .ok a => pure a
  | .error e => throw e

theorem locked_eq {α : Type} (body : Prog Nodes Error α) :
    locked policy body = (do lock policy; releasing (do let _ ← recoverLocked policy; body)) := rfl

/-- Giving the lock back changes no answer. -/
theorem releasing_result {α : Type} (p : Prog Nodes Error α) (w : World Nodes) :
    ((releasing p).run w).1 = (p.run w).1 := by
  rw [releasing, Prog.run_attempt_bind]
  rcases (p.run w).1 with e | a <;> rfl

theorem releasing_world {α : Type} (p : Prog Nodes Error α) (w : World Nodes) :
    ((releasing p).run w).2 = ((unlock : Prog Nodes Error Unit).run (p.run w).2).2 := by
  rw [releasing, Prog.run_attempt_bind]
  rcases (p.run w).1 with e | a <;> rfl

/-- Giving the lock back changes the lock at most. -/
theorem releasing_store {α : Type} (p : Prog Nodes Error α) (w : World Nodes)
    (h : Tidy (p.run w).2.store) : ((releasing p).run w).2.store = (p.run w).2.store ∨
      ((releasing p).run w).2.store = (p.run w).2.store.withLock none := by
  rw [releasing_world]
  generalize (p.run w).2 = w' at h
  by_cases hd : w'.fuse = .dead
  · rw [Prog.frozen_world _ hd]
    exact .inl rfl
  · refine Triple.leaves (P := fun s => s = w'.store) (s := w'.store)
      (R := fun s => s = w'.store ∨ s = w'.store.withLock none)
      ((unlock_rule (D := fun s => s = w'.store ∨ s = w'.store.withLock none) h (.inl rfl)).conseq
        (fun _ h => h) ?_ (fun _ _ h => h) fun _ h => h) hd rfl
    rintro _ s (h | ⟨-, h⟩)
    · exact .inr h
    · exact .inl h

/-- Undisturbed, the lock goes. -/
theorem releasing_calm {α : Type} (p : Prog Nodes Error α) (w : World Nodes)
    (h : Tidy (p.run w).2.store) (hf : (p.run w).2.fuse = .off) :
    ((releasing p).run w).2.store = (p.run w).2.store.withLock none := by
  rw [releasing_world]
  generalize (p.run w).2 = w' at h hf
  obtain ⟨s, f⟩ := w'
  cases hf
  have hrule : Safe Calm (fun t => t = s) (unlock : Prog Nodes Error Unit)
      (fun _ t => t = s.withLock none) (fun _ => True) :=
    (unlock_rule h trivial).conseq (fun _ h => h)
      (fun _ _ h => h.elim id fun h => absurd h.1 not_disturbed_calm) (fun _ _ h => h) fun _ h => h
  obtain ⟨_, t, hr, ht⟩ := hrule.run_calm rfl
  rw [hr, ht]

variable {F : Fuse → Prop} [Steady F] {D : Nodes → Prop} {s₀ : Nodes}

variable (policy) in
/-- A lock somebody holds. -/
theorem lock_held (h : Tidy s₀) (hl : s₀[LOCK]? ≠ none) :
    Triple F (fun s => s = s₀) (lock policy) (fun _ _ => False) (fun _ s => s = s₀)
      (fun s => s = s₀) := by
  have hdir : s₀[Db.DIR]? = some .dir :=
    h.sound.parent LOCK (by decide) (Option.isSome_iff_ne_none.2 hl)
  have hv : Path.isSystemPath LOCK = true := by decide
  have grown : ∀ s, Nodes.Grown Db.DIR s₀ s → s = s₀ := fun s hs => hs.eq_self h.sound hdir
  refine Triple.bind (R := fun _ s => s = s₀) (Triple.mapErr
    ((Fs.createDirAll_rule h.sound (by decide) fun _ => h.notFile).conseq (fun _ h => h)
      (fun _ s hs => grown s hs.1) grown) fun _ s hs => hs.2) fun _ => ?_
  refine Triple.attempt_mutate_bind (R := fun _ => False)
    (G := fun e s => s = s₀ ∧ e = .alreadyExists) (D := fun s => s = s₀) (fun s hs => ?_) nofun
    (fun e => Triple.of_each ?_) (fun _ => Triple.throw fun _ h => h) fun _ h => h
  · subst hs
    have hvac : Fs.vacant s LOCK = .error .alreadyExists := by
      simp [Fs.vacant, Nodes.contains_eq, Option.isSome_iff_ne_none.2 hl]
    simp only [Fs.check_eq_ok hv, Fs.ok_bind, Fs.parentIsDir_eq_ok (p := LOCK) hdir, hvac]
    trivial
  · rintro s ⟨rfl, rfl⟩
    refine Triple.attempt_bind (R := fun _ t => t = s) (G := fun _ t => t = s) (D := fun t => t = s)
      (Triple.query fun t ht => ?_) (fun c => ?_) (fun e => Triple.throw fun _ h => h)
      (fun _ e => Triple.throw fun _ h => h) fun _ h => h
    · split <;> exact ht
    · split
      · exact Triple.throw fun _ h => h
      · exact Triple.throw fun _ h => h

/-! ## A whole operation -/

variable {dec : Decoders} {confirm : Plan → Bool} {r : Request} {base : Nodes} {f : Fuse}

/-- An operation up to its commit, without what handles its errors. -/
def upToCommit (dec : Decoders) (policy : Policy) (confirm : Plan → Bool) (r : Request) :
    Prog Nodes Error Unit := do
  lock policy
  let _ ← recoverLocked policy
  let db ← Db.load policy.arch.name
  let plan ← planFor dec policy db r
  if confirm plan then commitSteps plan else pure ()

/-- A run that came to nothing: cut or failed before its transaction, or called off. -/
def Unmade (base : Nodes) (r : Except Error Done × World Nodes) : Prop :=
  Quiet base r.2.store ∧ (r.2.fuse = .dead ∨ ∀ d, r.1 = .ok d → d = .cancelled)

theorem releasing_congr {α : Type} {p q : Prog Nodes Error α} {w w' : World Nodes}
    (h : p.run w = q.run w') : (releasing p).run w = (releasing q).run w' := by
  rw [releasing, releasing, Prog.run_attempt_bind, Prog.run_attempt_bind, h]

theorem releasing_unmade {p : Prog Nodes Error Done} {w : World Nodes}
    (h : Unmade base (p.run w)) : Unmade base ((releasing p).run w) := by
  refine ⟨?_, ?_⟩
  · rcases releasing_store p w h.1.tidy with he | he <;> rw [he]
    · exact h.1
    · exact h.1.withLock nofun
  · rw [releasing_result, releasing_world]
    refine h.2.imp_left fun hd => ?_
    rw [Prog.frozen_world _ hd, hd]

theorem Locking.quiet {s : Nodes} (h : Locking base s) (hb : Quiet base base) : Quiet base s := by
  cases h with
  | before h => exact hb.grown h
  | torn c h hdir => exact (hb.grown h).withLock fun _ => hdir

variable (dec confirm r) in
/-- What recovery and planning lead to under the lock. -/
theorem body_cases {t : Nodes} (hf : f ≠ .dead) (ht : Nodes.Grown Db.DIR base t)
    (hdir : t[Db.DIR]? = some .dir) (hq : Quiet base (t.withLock (some (.data policy.owner)))) :
    let w : World Nodes := ⟨t.withLock (some (.data policy.owner)), f⟩
    Unmade base ((do
      let _ ← recoverLocked policy
      let db ← Db.load policy.arch.name
      let plan ← planFor dec policy db r
      if confirm plan then execute policy plan else pure .cancelled).run w) ∨
    ∃ s₁ f₁ plan, Fuse.Left f₁ f ∧ Opened policy base s₁ ∧ proposal dec policy r s₁ = .ok plan ∧
      confirm plan = true ∧
      (do
        let _ ← recoverLocked policy
        let db ← Db.load policy.arch.name
        let plan ← planFor dec policy db r
        if confirm plan then execute policy plan else pure .cancelled).run w =
          (execute policy plan).run ⟨s₁, f₁⟩ ∧
      (do
        let _ ← recoverLocked policy
        let db ← Db.load policy.arch.name
        let plan ← planFor dec policy db r
        if confirm plan then commitSteps plan else pure ()).run w =
          (commitSteps plan).run ⟨s₁, f₁⟩ := by
  intro w
  have hhome : (t.withLock (some (.data policy.owner)))[Db.DIR]? = some .dir := by
    rw [Nodes.lookup_withLock_of_ne (by decide), hdir]
  have hrec := (recoverLocked_quiet (F := Live) policy hq hhome).ends hf rfl
  rcases hrec with ⟨hd, h⟩ | ⟨hl, ⟨c, hok, h⟩ | ⟨e, he, h⟩⟩
  · refine .inl ⟨?_, .inl ?_⟩
    · rw [Prog.run_bind_dead hd]; exact h
    · rw [Prog.run_bind_dead hd]; exact hd
  · rw [Prog.run_bind_ok hok, Prog.run_bind_ok hok]
    generalize ((recoverLocked policy).run w).2 = w₁ at hl h
    obtain ⟨s₁, f₁⟩ := w₁
    rw [proposal_run, proposal_run]
    have hopen : Opened policy base s₁ := ⟨h.1, t, ht, hdir, h.2⟩
    rcases hplan : proposal dec policy r s₁ with e | plan
    · exact .inl ⟨h.1.toQuiet, .inr nofun⟩
    · dsimp only
      split
      · next hc => exact .inr ⟨s₁, f₁, plan, hl, hopen, hplan, hc, rfl, rfl⟩
      · refine .inl ⟨h.1.toQuiet, .inr ?_⟩
        rintro _ ⟨⟩
        rfl
  · refine .inl ⟨?_, .inr ?_⟩
    · rw [Prog.run_bind_error he]; exact h.elim And.right id
    · rw [Prog.run_bind_error he]; nofun

variable (dec confirm r) in
/-- What a run of an operation does: nothing, or what its transaction does. -/
theorem run_cases (h : AtRest policy base) (hf : f ≠ .dead) :
    Unmade base ((run dec policy confirm r).run ⟨base, f⟩) ∨
    base[LOCK]? = none ∧ ∃ s₁ f₁ plan, Fuse.Left f₁ f ∧ Opened policy base s₁ ∧ proposal dec policy r s₁ = .ok plan ∧
      confirm plan = true ∧
      (run dec policy confirm r).run ⟨base, f⟩ = (releasing (execute policy plan)).run ⟨s₁, f₁⟩ ∧
      (upToCommit dec policy confirm r).run ⟨base, f⟩ = (commitSteps plan).run ⟨s₁, f₁⟩ := by
  rw [run, locked_eq, upToCommit]
  by_cases hl : base[LOCK]? = none
  · have hlock := (lock_rule (F := Live) policy h.tidy hl).ends hf rfl
    rcases hlock with ⟨hd, h'⟩ | ⟨hleft, ⟨⟨⟩, hok, t, ht, hdir, he⟩ | ⟨e, he, h'⟩⟩
    · refine .inl ⟨?_, .inl ?_⟩
      · rw [Prog.run_bind_dead hd]; exact h'.quiet h.quiet
      · rw [Prog.run_bind_dead hd]; exact hd
    · rw [Prog.run_bind_ok hok, Prog.run_bind_ok hok]
      generalize ((lock policy).run ⟨base, f⟩).2 = w at hleft he
      obtain ⟨_, f'⟩ := w
      obtain rfl := he
      have hq := (h.quiet.grown ht).withLock (v := some (.data policy.owner)) fun _ => hdir
      rcases body_cases dec confirm r hleft.ne_dead ht hdir hq with
        h' | ⟨s₁, f₁, plan, hleft', hopen, hplan, hc, he, hc'⟩
      · exact .inl (releasing_unmade h')
      · exact .inr ⟨hl, s₁, f₁, plan, hleft'.trans hleft, hopen, hplan, hc, releasing_congr he, hc'⟩
    · refine .inl ⟨?_, .inr ?_⟩
      · rw [Prog.run_bind_error he]; exact Locking.quiet (h'.elim And.right id) h.quiet
      · rw [Prog.run_bind_error he]; nofun
  · have hlock := (lock_held (F := Live) policy h.tidy hl).ends hf rfl
    rcases hlock with ⟨hd, h'⟩ | ⟨hleft, ⟨_, _, h'⟩ | ⟨e, he, h'⟩⟩
    · refine .inl ⟨?_, .inl ?_⟩
      · rw [Prog.run_bind_dead hd, h']; exact h.quiet
      · rw [Prog.run_bind_dead hd]; exact hd
    · exact h'.elim
    · refine .inl ⟨?_, .inr ?_⟩
      · rw [Prog.run_bind_error he, h'.elim id id]; exact h.quiet
      · rw [Prog.run_bind_error he]; nofun

end Manager

end NanoChrono.Ncpkg
