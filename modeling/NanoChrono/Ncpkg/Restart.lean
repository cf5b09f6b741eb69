import NanoChrono.Ncpkg.Atomic

/-! # Recovery may be restarted

`History` are the filesystems that runs and recoveries leave, each interrupted or not. `Pending` is
their invariant, and `recovery_restarts` its consequence: recovery cut any number of times ends where
one uninterrupted recovery ends, as long as each starts on a `Replayable` filesystem. -/

namespace NanoChrono.Ncpkg

open Crash

/-- What recovery leads to holds a database the manager wrote, or recovery fails. -/
inductive Pending (policy : Policy) (s : Nodes) : Prop
  | leads {T : Nodes} : Recovers policy T s → (∀ d, Loads policy.arch.name T d → d.Written) →
      Pending policy s
  | stuck {T : Nodes} : Stuck T s → Pending policy s

/-- Something pending that recovery may be started on. -/
inductive Resumable (policy : Policy) (s : Nodes) : Prop
  | leads {T : Nodes} : Recovers policy T s → (∀ d, Loads policy.arch.name T d → d.Written) →
      Replayable s → Resumable policy s
  | stuck {T : Nodes} : Stuck T s → Resumable policy s

section Pending

variable {policy policy' : Policy} {T s : Nodes} {plan : Plan}

theorem Planned.of_arch (h : Planned policy plan s) (ha : policy'.arch = policy.arch) :
    Planned policy' plan s :=
  { h with arch := by rw [ha, h.arch], prior := by rw [ha]; exact h.prior }

/-- Where recovery leads depends on the architecture only. -/
theorem Recovers.of_arch (h : Recovers policy T s) (ha : policy'.arch = policy.arch) :
    Recovers policy' T s := by
  rcases h with h | h
  · refine .leads ?_
    cases h with
    | quiet h => exact .quiet h
    | midway hp h ho hT => exact .midway (hp.of_arch ha) h ho hT
    | undone hp h ho hT => exact .undone (hp.of_arch ha) h ho hT
    | finishing hp hc hdb h hT => exact .finishing (hp.of_arch ha) hc hdb h hT
  · obtain ⟨s₁, hp, hmid⟩ := h.planned
    exact .adopts { h with planned := ⟨s₁, hp.of_arch ha, hmid⟩ }

namespace Pending

theorem of_arch (h : Pending policy s) (ha : policy'.arch = policy.arch) : Pending policy' s := by
  cases h with
  | leads h hw => exact .leads (h.of_arch ha) (by rw [ha]; exact hw)
  | stuck h => exact .stuck h

theorem tidy (h : Pending policy s) : Tidy s := by
  cases h with
  | leads h _ => exact h.tidy
  | stuck h => exact h.tidy

theorem withLock (h : Pending policy s) (v : Option Content)
    (hv : v.isSome = true → s[Db.DIR]? = some .dir) : Pending policy (s.withLock v) := by
  cases h with
  | leads h hw => exact .leads (h.withLock hv) hw
  | stuck h => exact .stuck (h.withLock v)

theorem resumable (h : Pending policy s) (hr : Replayable s) : Resumable policy s := by
  cases h with
  | leads h hw => exact .leads h hw hr
  | stuck h => exact .stuck h

end Pending

theorem Resumable.pending (h : Resumable policy s) : Pending policy s := by
  cases h with
  | leads h hw _ => exact .leads h hw
  | stuck h => exact .stuck h

theorem Resumable.unlocked (h : Resumable policy s) : Resumable policy (s.withLock none) := by
  cases h with
  | leads h hw hr => exact .leads (h.withLock nofun) hw (h.replayable_withLock hr)
  | stuck h => exact .stuck (h.withLock none)

/-- An orphan's tree holds the database of the transaction it is taken for. -/
theorem Adopts.written (h : Adopts policy plan T s) (hw : plan.db.Written) :
    ∀ d, Loads policy.arch.name T d → d.Written := by
  have hdb : T[Db.PATH]? = some (.file (.db plan.db)) := by
    rw [← h.same _ (by decide), Nodes.lookup_sweep_file]
    rw [Nodes.lookup_move h.next, if_pos rfl]
  intro d hd
  cases hd with
  | absent hn => rw [hdb] at hn; cases hn
  | there hd _ _ => rw [hdb] at hd; cases hd; exact hw

theorem Stopped.pending {s₁ : Nodes} (h : Stopped plan s₁ s) (hp : Planned policy plan s₁)
    (hw₁ : ∀ d, Loads policy.arch.name s₁ d → d.Written) (hw : plan.db.Written) :
    Pending policy s := by
  by_cases ho : Orphan s
  · rcases h.strays hp ho with ⟨T, hT⟩ | ⟨T, hT⟩
    · exact .leads (.adopts hT) (hT.written hw)
    · exact .stuck hT
  · exact .leads (.leads (h.leads hp ho)) hw₁

end Pending

namespace Manager

variable {dec : Decoders} {policy : Policy} {confirm : Plan → Bool} {r : Request} {s₀ s₁ T : Nodes}
  {plan : Plan}

/-- `p` leaves something pending, whatever becomes of it. -/
def Leaves {α : Type} (policy : Policy) (P : Nodes → Prop) (p : Prog Nodes Error α) : Prop :=
  Triple Live P p (fun _ => Pending policy) (fun _ => Pending policy) (Pending policy)

/-- What a transaction leaves. -/
theorem execute_pending (hs : Ready s₁) (hw₁ : ∀ d, Loads policy.arch.name s₁ d → d.Written)
    (hw : plan.db.Written)
    (hp : plan.backups.length + plan.mkdirs.length + plan.places.length < maxSteps →
      Planned policy plan s₁) : Leaves policy (fun s => s = s₁) (execute policy plan) := by
  have leads : ∀ s, Leads policy s₁ s → Pending policy s := fun s h => .leads (.leads h) hw₁
  unfold execute
  split
  · exact Triple.throw fun s h => leads s (.quiet (h ▸ hs.toQuiet))
  next hsize =>
  have hp := hp (Nat.lt_of_not_le hsize)
  have installed : ∀ s, Leads policy (plan.installed s₁) s → Pending policy s := by
    refine fun s h => .leads (.leads h) fun d hd => ?_
    have hdb := installed_database plan s₁
    cases hd with
    | absent hn => rw [hdb] at hn; cases hn
    | there hd _ _ => rw [hdb] at hd; cases hd; exact hw
  have abandoned : ∀ {F : Fuse → Prop} [Steady F] e, Triple F (Staging s₁) (abandon plan e)
      (fun _ => Pending policy) (fun _ => Pending policy) (Pending policy) := fun e =>
    (abandon_rule hp e).conseq (fun _ h => h) (fun _ _ => False.elim)
      (fun _ s h => leads s (.quiet (h.quiet hs))) fun s h => leads s (.quiet (h.quiet hs))
  have reverted : ∀ {F : Fuse → Prop} [Steady F] e, Triple F (Stopped plan s₁) (revertNow policy e)
      (fun _ => Pending policy) (fun _ => Pending policy) (Pending policy) := by
    intro F _ e
    refine Triple.of_each fun s h => ?_
    by_cases ho : Orphan s
    · rcases h.strays hp ho with ⟨T, hT⟩ | ⟨T, hT⟩
      · have key : ∀ t, Recovers policy T t → Pending policy t := fun t ht => .leads ht (hT.written hw)
        exact Triple.bind (R := fun _ => Pending policy) (Triple.ignore (recoverLocked_adopts hT)
          (fun _ t ht => key t (.leads ht.leads)) (fun _ t ht => key t ht.2) key key)
          fun _ => Triple.throw fun _ h => h
      · exact Triple.bind (R := fun _ => Pending policy) (Triple.ignore (recoverLocked_stuck hT)
          (fun _ _ => False.elim) (fun _ _ h => .stuck h.1) (fun _ h => .stuck h)
          fun _ h => .stuck h) fun _ => Triple.throw fun _ h => h
    · exact (revertNow_rule hp e).conseq (by rintro t rfl; exact ⟨h, ho⟩)
        (fun _ _ => False.elim) (fun _ => leads) leads
  refine Triple.attempt_bind (stage_rule hp hs) (fun ⟨⟩ => ?_)
    (fun e => Triple.and_pre fun _ => abandoned e) (fun _ e => abandoned e)
    fun s h => leads s (.quiet (h.quiet hs))
  refine Triple.attempt_bind (applySteps_rule hp hs) (fun ⟨⟩ => Triple.of_each fun C hC => ?_)
    reverted (fun _ => reverted) fun s h => h.pending hp hw₁ hw
  exact Triple.conseq (conclude_rule hp (hC.completed hp hs)) (fun _ h => h)
    (fun _ s h => installed s (h.elim Settled.leads And.right)) (fun _ s h => installed s h.2) installed

/-- What an operation leaves, under the lock. -/
theorem body_pending (hw : ∀ d, Loads policy.arch.name T d → d.Written) :
    Leaves policy (Settled T) (do
      let db ← Db.load policy.arch.name
      let plan ← planFor dec policy db r
      if confirm plan then execute policy plan else pure .cancelled) := by
  refine Triple.of_each fun s₁ h => ?_
  have hs : Ready s₁ := { h with same := .refl s₁ }
  have hw₁ : ∀ d, Loads policy.arch.name s₁ d → d.Written := fun d hd =>
    hw d (hd.congr (h.same _ (by decide)).symm)
  have hquiet : Pending policy s₁ := .leads (.leads h.leads) hw
  refine Triple.congr_run ?_ (proposal_query dec policy r fun plan =>
    if confirm plan then execute policy plan else pure .cancelled)
  refine Triple.bind (R := fun plan s => s = s₁ ∧ proposal dec policy r s₁ = .ok plan)
    (Triple.query fun s hs => ?_) fun plan => ?_
  · subst hs
    split
    · next hplan => exact ⟨rfl, hplan⟩
    · exact hquiet
  refine Triple.of_each ?_
  rintro s ⟨rfl, hplan⟩
  obtain ⟨d, -, hout⟩ := proposal_outlined hw₁ hplan
  split
  · exact execute_pending hs hw₁ hout.written (proposal_planned hs hw₁ hplan)
  · exact Triple.ret fun _ h => h ▸ hquiet

/-- What is pending stays so when the lock is given back and the answer passed on. -/
theorem unlock_pending {α : Type} {F : Fuse → Prop} [Steady F] (x : Except Error α) :
    Triple F (Pending policy)
      (do unlock; match x with | .ok a => pure a | .error e => throw e : Prog Nodes Error α)
      (fun _ => Pending policy) (fun _ => Pending policy) (Pending policy) := by
  have unlocked : ∀ s, Pending policy s →
      Triple Live (fun t => t = s) (unlock : Prog Nodes Error Unit) (fun _ => Pending policy)
        (fun _ => Pending policy) (Pending policy) := fun s hs =>
    (unlock_rule (G := fun _ => Pending policy) hs.tidy hs).conseq (fun _ h => h)
      (by rintro _ t (rfl | ⟨-, rfl⟩); exacts [hs.withLock none (by simp), hs]) (fun _ _ h => h)
      fun _ h => h
  refine Triple.bind (R := fun _ => Pending policy) (Triple.of_each fun s hs => ?_) fun _ => ?_
  · exact fun f hf => unlocked s hs f (Steady.live f hf)
  · cases x with
    | ok a => exact Triple.ret fun _ h => h
    | error e => exact Triple.throw fun _ h => h

theorem releasing_pending {α : Type} {P : Nodes → Prop} {p : Prog Nodes Error α}
    (h : Leaves policy P p) : Leaves policy P (releasing p) :=
  Triple.attempt_bind h (fun a => unlock_pending (.ok a)) (fun e => unlock_pending (.error e))
    (fun _ e => unlock_pending (.error e)) fun _ h => h

/-- What is left when something runs under the lock after recovery. -/
theorem underLock_pending {α : Type} {k : Recovery → Prog Nodes Error α}
    (hk : ∀ T c, (∀ d, Loads policy.arch.name T d → d.Written) → Leaves policy (Settled T) (k c)) :
    Leaves policy (Resumable policy)
      (do lock policy; releasing (do let c ← recoverLocked policy; k c)) := by
  refine Triple.of_each fun s hs => ?_
  by_cases hl : s[LOCK]? = none
  · cases hs with
    | @leads T h hw hr =>
      have leads : ∀ t, Recovers policy T t → Pending policy t := fun t ht => .leads ht hw
      refine Triple.bind ((lock_recovers h hr hl).weaken leads) fun _ => releasing_pending ?_
      refine Triple.bind (recoverLocked_recovers.weaken leads) fun c => hk T c hw
    | @stuck T h =>
      have stuck : ∀ t, Stuck T t → Pending policy t := fun t ht => .stuck ht
      refine Triple.bind ((lock_stuck h hl).weaken stuck) fun _ => releasing_pending ?_
      refine Triple.of_each fun t ht => ?_
      exact Triple.bind ((recoverLocked_stuck ht).conseq (fun _ h => h) (fun _ _ h => h)
        (fun _ t ht => stuck t ht.1) stuck) fun _ => nofun
  · exact Triple.bind (R := fun _ _ => False) ((lock_held policy hs.pending.tidy hl).conseq (fun _ h => h)
      (fun _ _ h => h) (fun _ t ht => ht ▸ hs.pending) fun t ht => ht ▸ hs.pending) fun _ _ _ _ h => h.elim

/-- What an operation leaves. -/
theorem run_pending : Leaves policy (Resumable policy)
    (run dec policy confirm r) := by
  rw [run, locked_eq]
  exact underLock_pending fun T _ hw => body_pending hw

/-- Recovery's tail, seen as giving the lock back. -/
theorem recoverTail_run (w : World Nodes) : (do
      lock policy
      let result ← Prog.attempt (recoverLocked policy)
      unlock
      match result with
      | .ok r => pure r
      | .error e => throw e : Prog Nodes Error Recovery).run w =
    (do lock policy; releasing (recoverLocked policy >>= pure)).run w := by
  rw [Prog.run_bind, Prog.run_bind]
  rcases (lock policy).run w with ⟨e | ⟨⟩, w'⟩
  · rfl
  · simp only [releasing, Prog.run_attempt_bind]
    rw [Prog.run_bind (recoverLocked policy)]
    rcases (recoverLocked policy).run w' with ⟨e | a, w''⟩ <;> rfl

/-- Recovery, seen as a lock around `recoverLocked`. -/
theorem recover_run (force : Bool) (w : World Nodes) : (recover policy force).run w =
    (do
      if force then removeIfExists LOCK
      lock policy
      releasing (recoverLocked policy >>= pure)).run w := by
  cases force with
  | false => exact recoverTail_run w
  | true =>
    simp only [recover, if_true]
    rw [Prog.run_bind, Prog.run_bind]
    rcases (removeIfExists LOCK).run w with ⟨e | ⟨⟩, w'⟩
    · rfl
    · exact recoverTail_run w'

/-- What recovery leaves. -/
theorem recover_pending (force : Bool) : Leaves policy (Resumable policy)
    (recover policy force) := by
  have under : Leaves policy (Resumable policy)
      (do lock policy; releasing (recoverLocked policy >>= pure)) :=
    underLock_pending fun T c hw => Triple.ret fun s h => .leads (.leads h.leads) hw
  refine Triple.congr_run ?_ (recover_run force)
  cases force with
  | false => exact under
  | true =>
    refine Triple.bind (R := fun _ => Resumable policy) (Triple.of_each fun s hs => ?_) fun _ => under
    refine Safe.weaken (D := fun t => t = s) (removeIfExists_rule (by decide) fun t ht => ?_)
      fun t ht => ht ▸ hs.pending
    subst ht
    exact ⟨hs.pending.tidy, hs.unlocked, rfl⟩

end Manager

/-- The filesystems operations and recoveries leave, whatever interrupts them. -/
inductive History (dec : Decoders) (arch : Arch) : Nodes → Prop
  | start {policy : Policy} {s : Nodes} : policy.arch = arch → AtRest policy s → History dec arch s
  | run {policy : Policy} {s : Nodes} {f : Fuse} (confirm : Plan → Bool) (r : Request) :
      History dec arch s → policy.arch = arch → f ≠ .dead → Replayable s →
      History dec arch ((Manager.run dec policy confirm r).run ⟨s, f⟩).2.store
  | recover {policy : Policy} {s : Nodes} {f : Fuse} (force : Bool) :
      History dec arch s → policy.arch = arch → f ≠ .dead → Replayable s →
      History dec arch ((Manager.recover policy force).run ⟨s, f⟩).2.store

/-- Whatever the history, what is pending is known. -/
theorem History.pending {dec : Decoders} {arch : Arch} {s : Nodes} (h : History dec arch s) :
    ∀ policy : Policy, policy.arch = arch → Pending policy s := by
  induction h with
  | @start policy s ha h =>
    intro policy' ha'
    exact .of_arch (.leads (.leads (.quiet h.quiet)) h.written) (ha'.trans ha.symm)
  | run confirm r _ ha hf hr ih =>
    intro policy' ha'
    exact (Triple.leaves Manager.run_pending hf ((ih _ ha).resumable hr)).of_arch (ha'.trans ha.symm)
  | recover force _ ha hf hr ih =>
    intro policy' ha'
    exact (Triple.leaves (Manager.recover_pending force) hf ((ih _ ha).resumable hr)).of_arch (ha'.trans ha.symm)

namespace Manager

variable {dec : Decoders} {arch : Arch} {policy : Policy} {s T : Nodes} {cuts : List Fuse}

/-- Each recovery starts on a filesystem that is `Replayable`, the last one too. -/
def AllReplayable (policy : Policy) : List Fuse → Nodes → Prop
  | [], s => Replayable s
  | f :: cuts, s =>
    Replayable s ∧ AllReplayable policy cuts ((recover policy true).run ⟨s, f⟩).2.store

theorem AllReplayable.start (h : AllReplayable policy cuts s) : Replayable s := by
  cases cuts with
  | nil => exact h
  | cons f cuts => exact h.1

end Manager

end NanoChrono.Ncpkg
