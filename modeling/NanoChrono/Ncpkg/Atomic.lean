import NanoChrono.Ncpkg.Operation

/-! # Operations are atomic

`run_leads` says where every run of an operation leads, whatever interrupts it: back to the tree it
started on while the database is the old one, on to the tree of the undisturbed run once it is the new
one. `run_atomic` is what recovery makes of it. -/

namespace NanoChrono.Ncpkg

open Crash

theorem Leads.of_same {policy : Policy} {T U s : Nodes} (h : Leads policy T s)
    (hTU : SameManaged T U) : Leads policy U s := by
  cases h with
  | quiet h => exact .quiet { h with same := h.same.trans hTU }
  | midway hp h ho hT => exact .midway hp h ho (hT.trans hTU)
  | undone hp h ho hT => exact .undone hp h ho (hT.trans hTU)
  | finishing hp hc hdb h hT => exact .finishing hp hc hdb h (hT.trans hTU)

namespace Manager

variable {dec : Decoders} {policy : Policy} {confirm : Plan → Bool} {r : Request} {base s T : Nodes}
  {f : Fuse} {plan : Plan}

/-- An undisturbed run reaches its transaction. -/
theorem run_calm (h : AtRest policy base) (hl : base[LOCK]? = none) (ho : Opened policy base s)
    (hplan : proposal dec policy r s = .ok plan) (hc : confirm plan = true) :
    (run dec policy confirm r).run ⟨base, .off⟩ = (releasing (execute policy plan)).run ⟨s, .off⟩ := by
  obtain ⟨⟨⟩, _, hlock, t, ht, hdir, rfl⟩ :=
    (lock_rule (F := Calm) policy h.tidy hl).run_calm rfl
  have hq := (h.quiet.grown ht).withLock (v := some (.data policy.owner)) fun _ => hdir
  have hhome : (t.withLock (some (.data policy.owner)))[Db.DIR]? = some .dir := by
    rw [Nodes.lookup_withLock_of_ne (by decide), hdir]
  obtain ⟨x, t', hrec, hset, hidle⟩ :=
    (recoverLocked_quiet (F := Calm) policy hq hhome).run_calm rfl
  obtain rfl : t' = s := Opened.unique ⟨hset, t, ht, hdir, hidle⟩ ho
  rw [run, locked_eq, Prog.run_bind, hlock]
  refine releasing_congr ?_
  rw [Prog.run_bind, hrec]
  refine (proposal_run dec policy r _ _).trans ?_
  rw [hplan]
  simp only [hc, if_true]

/-- An undisturbed run of a transaction that once committed leaves what it installed, and nothing
pending. -/
theorem run_calm_quiet (h : AtRest policy base) (hl : base[LOCK]? = none)
    (ho : Opened policy base s) (hplan : proposal dec policy r s = .ok plan)
    (hc : confirm plan = true) (hp : Planned policy plan s) {C : Nodes} (hC : Committed plan s C) :
    Quiet (plan.installed s) (Prog.storeAfter (run dec policy confirm r) base) := by
  obtain ⟨d, t, hrun, hset, -⟩ := (execute_again hp ho.ready hC).run_calm rfl
  have htidy : Tidy ((execute policy plan).run ⟨s, .off⟩).2.store := by rw [hrun]; exact hset.tidy
  rw [Prog.storeAfter, run_calm h hl ho hplan hc, releasing_calm _ _ htidy (by rw [hrun]), hrun]
  exact hset.toQuiet.withLock nofun

end Manager

/-! ## A first installation

A library of one file, its manifest, is installed on a fresh filesystem. -/

theorem AtRest.new (policy : Policy) : AtRest policy Nodes.new := by
  have hlook : ∀ p : Path, p ≠ [] → Nodes.new[p]? = none := by
    intro p hp
    rw [Nodes.new, Nodes.lookup_insert, if_neg hp.symm]
    exact Std.ExtTreeMap.getElem?_empty
  have hroot : Nodes.new[([] : Path)]? = some .dir := by rw [Nodes.new, Nodes.lookup_insert, if_pos rfl]
  have hhome : ∀ p ∈ homes, p ≠ [] := by decide
  have hfile : ∀ p ∈ ownFiles, p ≠ [] := by decide
  refine ⟨⟨⟨hroot, fun p hp hs => ?_, fun p hp hs => ?_⟩, fun p hp c => ?_, fun p hp => ?_⟩, ?_,
    fun d hd => ?_⟩
  · rw [hlook p hp] at hs; cases hs
  · rw [hlook p hp] at hs; cases hs
  · rw [hlook p (hhome p hp)]; simp
  · rw [Nodes.NotDir, hlook p (hfile p hp)]; simp
  · exact hlook _ (by decide)
  · cases hd with
    | there hd => rw [hlook _ (by decide)] at hd; cases hd
    | absent => exact ⟨fun id p hp => by simp [Db.empty] at hp, .inl rfl⟩

namespace First

/-- Decoders for a package without modules or icon. -/
def decoders : Decoders := ⟨fun _ => Vector.replicate 64 0, fun _ => .error "", fun _ => .ok ()⟩

def policy : Policy :=
  { arch := .x86_64, systemVersion := "1.0.0", abi := 1, communityRing0 := false,
    requireSignature := false, builtinApps := [], reservedCommands := [], now := 0, nonce := 0,
    owner := [] }

def manifest : Manifest :=
  { id := "a.b", name := "b", version := "1.0.0", kind := .lib, license := none, creator := none,
    arches := [.x86_64], abi := 1, system := none, app := none, libraries := [], depends := [],
    plugins := [], fs := [], devices := [], network := "", files := [] }

def bundle : Bundle := ⟨[], [1, 2], manifest, ⟨[], [], none, false⟩⟩

/-- Installs the package, or installs it again. -/
def request (reinstall : Bool) : Request := .install (.ok bundle) ⟨reinstall, false, false⟩

def yes (_ : Plan) : Bool := true

end First

namespace Manager

end Manager

end NanoChrono.Ncpkg
