import NanoChrono.Ncpkg.Sweep

/-! # The clean-up both ways of recovering end with

`Leftover j s` is a filesystem with the journal `j` in it and nothing in the transaction directory
but `j`'s own; `Settled T s` one without a trace of a transaction, whose managed tree is `T`'s. The
rules follow `undo` and `finish` once their steps are undone or their commit is made, and say what an
interruption of the clean-up leaves: another `Leftover`, from which working files have faded. -/

namespace NanoChrono.Ncpkg

open Crash

/-- The journal is there, and no other transaction's directory. -/
structure Leftover (j : Journal) (s : Nodes) : Prop where
  tidy : Tidy s
  journal : s[Journal.PATH]? = some (.file (.journal j))
  tmp : s[Journal.TMP]? = none
  only : ∀ p : Path, Journal.TX_DIR <+: p → s[p]?.isSome = true → p = Journal.TX_DIR ∨ j.txDir <+: p
  top : s.NotFile Journal.TX_DIR

/-- No journal: nothing is pending, and the managed tree is `T`'s. -/
structure Quiet (T s : Nodes) : Prop where
  tidy : Tidy s
  same : SameManaged s T
  journal : s[Journal.PATH]? = none

/-- No trace of a transaction. -/
structure Settled (T s : Nodes) : Prop extends Quiet T s where
  next : s[Db.NEXT]? = none
  tmp : s[Journal.TMP]? = none
  tx : ∀ p : Path, Journal.TX_DIR <+: p → s[p]? = none
  home : s[Db.DIR]? = some .dir

/-- `s` is `s₀` with its working area empty but for the lock. -/
structure Idle (s₀ s : Nodes) : Prop where
  same : ∀ p, own p = false → s[p]? = s₀[p]?
  lock : s[LOCK]? = s₀[LOCK]?
  gone : ∀ p : Path, own p = true → p ≠ LOCK → s[p]? = none

theorem Idle.unique {s₀ s t : Nodes} (h : Idle s₀ s) (h' : Idle s₀ t) : s = t := by
  refine Nodes.ext fun p => ?_
  by_cases hp : own p = true
  · by_cases hl : p = LOCK
    · rw [hl, h.lock, h'.lock]
    · rw [h.gone p hp hl, h'.gone p hp hl]
  · rw [Bool.not_eq_true] at hp
    rw [h.same p hp, h'.same p hp]

/-- `s` is `s₀` with some of its working files gone. -/
structure Fades (s₀ s : Nodes) : Prop where
  same : ∀ p, own p = false → s[p]? = s₀[p]?
  gone : ∀ p : Path, s[p]? = s₀[p]? ∨ s[p]? = none

namespace Fades

variable {s t u : Nodes}

theorem refl (s : Nodes) : Fades s s := ⟨fun _ _ => rfl, fun _ => .inl rfl⟩

theorem trans (h : Fades s t) (h' : Fades t u) : Fades s u := by
  refine ⟨fun p hp => (h'.same p hp).trans (h.same p hp), fun p => ?_⟩
  rcases h'.gone p with h₂ | h₂
  · rw [h₂]; exact h.gone p
  · exact .inr h₂

theorem none (h : Fades s t) {p : Path} (hp : s[p]? = none) : t[p]? = none := by
  rcases h.gone p with h | h
  · rw [h, hp]
  · exact h

theorem managed (h : Fades s t) : SameManaged t s := .of_own h.same

theorem isSome (h : Fades s t) {p : Path} (hp : t[p]?.isSome = true) : t[p]? = s[p]? := by
  rcases h.gone p with h | h
  · exact h
  · rw [h] at hp; cases hp

theorem erase {p : Path} (hp : own p = true) : Fades s (s.erase p) := by
  constructor
  · intro q hq
    rw [Nodes.lookup_erase, if_neg]
    rintro rfl
    rw [hp] at hq
    cases hq
  · intro q
    rw [Nodes.lookup_erase]
    split
    · exact .inr rfl
    · exact .inl rfl

/-- Fading keeps a filesystem tidy. -/
theorem tidy (h : Fades s t) (hs : Tidy s) (ht : t.Sound) : Tidy t := by
  refine ⟨ht, fun p hp c hc => ?_, fun p hp hd => ?_⟩
  · rw [h.isSome (by rw [hc]; rfl)] at hc
    exact hs.homes p hp c hc
  · rw [h.isSome (by rw [hd]; rfl)] at hd
    exact hs.files p hp hd

end Fades

/-- Removing a tree in the transaction directory fades working files. -/
theorem Nodes.Shrunk.fades {p : Path} {s₀ s : Nodes} (h : Nodes.Shrunk p s₀ s)
    (hp : Journal.TX_DIR <+: p) : Fades s₀ s := by
  refine ⟨fun q hq => h.2.1 q fun hpq => ?_, h.2.2⟩
  rw [own_beneath hp hpq] at hq
  cases hq

namespace Leftover

variable {j : Journal} {s t : Nodes}

/-- What fades while the journal stays leaves a leftover. -/
theorem fades (hs : Leftover j s) (h : Fades s t) (ht : t.Sound)
    (hj : t[Journal.PATH]? = s[Journal.PATH]?) : Leftover j t where
  tidy := h.tidy hs.tidy ht
  journal := hj.trans hs.journal
  tmp := h.none hs.tmp
  only p hp hn := hs.only p hp (by rw [← h.isSome hn]; exact hn)
  top c hc := by
    rw [h.isSome (by rw [hc]; rfl)] at hc
    exact hs.top c hc

/-- While there is a journal, the directories above it are there. -/
theorem home (hs : Leftover j s) {p : Path} (hp : p <+: Db.DIR) : s[p]? = some .dir := by
  refine hs.tidy.sound.above (q := Journal.PATH) (by rw [hs.journal]; rfl)
    (hp.trans (by decide)) ?_
  rintro rfl
  exact absurd hp (by decide)

end Leftover

theorem txDir_parts (j : Journal) : Journal.TX_DIR <+: j.txDir :=
  List.prefix_append _ _

/-- A transaction's directory has an admitted path. -/
theorem txDir_valid {j : Journal} (h : isComponent j.tx = true) : j.txDir.isSystemPath = true := by
  have hlen : j.tx.toList.length ≤ maxName := by
    simp only [isComponent, Bool.and_eq_true, decide_eq_true_eq] at h
    exact h.1.1.1.1.2
  rw [Path.isSystemPath_iff]
  refine ⟨by simp [Journal.txDir], ?_, ?_⟩
  · rw [Journal.txDir, Path.join, Path.textLength_append]
    have h1 : Path.textLength Journal.TX_DIR = 17 := by decide
    have h2 : Path.textLength [j.tx] = j.tx.toList.length + 1 := by simp [Path.textLength]
    rw [h1, h2]
    have : maxName = 128 := rfl
    omega
  · intro c hc
    rw [Journal.txDir, Path.join, List.mem_append, List.mem_singleton] at hc
    rcases hc with hc | rfl
    · revert c; decide
    · exact h

/-- What an interrupted clean-up after the commit `C` leaves: working files have faded, and some of
the directories were passed. -/
structure Finishing (j : Journal) (C s : Nodes) : Prop where
  left : Leftover j s
  swept : ∃ done, done <+: j.cleanup ∧ SameManaged s (sweep done C)

/-- What the clean-up may rely on. -/
structure Cleanable (j : Journal) (C : Nodes) : Prop where
  tx : isComponent j.tx = true
  dirs : ∀ d ∈ j.cleanup, d.isSystemPath = true ∧ managed d = true ∧ d ∉ KEEP ∧ C.NotFile d
  sorted : j.cleanup.Pairwise fun a b => b.length ≤ a.length

/-- Pruning directories of the managed tree leaves the working area alone. -/
theorem lookup_sweep_own {ds : List Path} {s : Nodes} (hd : ∀ d ∈ ds, managed d = true) {q : Path}
    (hq : own q = true) : (sweep ds s)[q]? = s[q]? := by
  refine Nodes.lookup_sweep_of_not_mem fun h => ?_
  rw [(managed_iff.1 (hd q h)).1] at hq
  cases hq

/-- Sweeping keeps a leftover. -/
theorem Leftover.sweep {j : Journal} {ds : List Path} {s : Nodes} (h : Leftover j s)
    (hd : ∀ d ∈ ds, managed d = true ∧ d ∉ KEEP) : Leftover j (sweep ds s) := by
  have hown : ∀ q, own q = true → (NanoChrono.Ncpkg.sweep ds s)[q]? = s[q]? :=
    fun q => lookup_sweep_own fun d h => (hd d h).1
  have hsound : (NanoChrono.Ncpkg.sweep ds s).Sound := h.tidy.sound.sweep fun d hm => by
    rintro rfl
    exact (hd [] hm).2 (by decide)
  refine ⟨⟨hsound, fun p hp => (h.tidy.homes p hp).sweep ds, fun p hp => ?_⟩, ?_, ?_,
    fun p hp hn => h.only p hp ?_, h.top.sweep ds⟩
  · rw [Nodes.NotDir, hown p (own_iff.2 (.inr hp))]
    exact h.tidy.files p hp
  · rw [hown _ (by decide), h.journal]
  · rw [hown _ (by decide), h.tmp]
  · rw [← hown p (own_iff.2 (.inl hp))]
    exact hn

namespace Finishing

variable {j : Journal} {C s t : Nodes}

theorem fades (h : Finishing j C s) (ht : Leftover j t) (hf : Fades s t) : Finishing j C t := by
  obtain ⟨done, hd, hsame⟩ := h.swept
  exact ⟨ht, done, hd, hf.managed.trans hsame⟩

/-- Sweeping a part again leaves the larger of the two parts swept. -/
theorem sweep {done : List Path} (h : Finishing j C s) (hc : Cleanable j C)
    (hd : done <+: j.cleanup) : Finishing j C (sweep done s) := by
  have hmk : ∀ d ∈ j.cleanup, managed d = true ∧ d ∉ KEEP :=
    fun d hd => ⟨(hc.dirs d hd).2.1, (hc.dirs d hd).2.2.1⟩
  have hmk' : ∀ d ∈ done, managed d = true ∧ d ∉ KEEP := fun d hm => hmk d (hd.subset hm)
  obtain ⟨before, hb, hsame⟩ := h.swept
  refine ⟨h.left.sweep hmk', ?_⟩
  have hagain := hsame.sweep hmk'
  rcases List.prefix_or_prefix_of_prefix hd hb with hp | hp
  · obtain ⟨rest, rfl⟩ := hp
    have hsort : (done ++ rest).Pairwise fun a b => b.length ≤ a.length :=
      hc.sorted.sublist hb.sublist
    refine ⟨done ++ rest, hb, ?_⟩
    rwa [sweep_of_subset hsort C fun d hm => List.mem_append_left _ hm] at hagain
  · refine ⟨done, hd, ?_⟩
    rwa [sweep_sweep (hc.sorted.sublist hd.sublist) hp] at hagain

end Finishing

namespace Manager

variable {F : Fuse → Prop} [Steady F] {j : Journal} {s₀ : Nodes}

/-- Removing a working file that may not be there. -/
theorem removeIfExists_rule {P : Nodes → Prop} {Q : Unit → Nodes → Prop} {D : Nodes → Prop}
    {p : Path} (hp : p ∈ ownFiles)
    (h : ∀ s, P s → Tidy s ∧ Q () (s.erase p) ∧ D s) : Safe F P (removeIfExists p) Q D := by
  refine Safe.mapErr (Fs.removeFile_rule fun s hs => ?_)
  obtain ⟨ht, hQ, hD⟩ := h s hs
  have hv : ∀ q ∈ ownFiles, Path.isSystemPath q = true := by decide
  exact ⟨hv p hp, ht.files p hp, hQ, hD⟩

/-- Removing the transaction's directory, entry by entry, and the directory of all of them. -/
theorem removeTxDir_rule (htx : isComponent j.tx = true) (h₀ : Leftover j s₀) :
    Safe F (fun s => s = s₀) (removeTxDir j)
      (fun _ s => Leftover j s ∧ Fades s₀ s ∧ s[Db.NEXT]? = s₀[Db.NEXT]? ∧
        ∀ p : Path, Journal.TX_DIR <+: p → s[p]? = none)
      (fun s => Leftover j s ∧ Fades s₀ s ∧ s[Db.NEXT]? = s₀[Db.NEXT]?) := by
  have outside : ∀ q ∈ ownFiles, ¬ j.txDir <+: q := by
    intro q hq h
    have hall : ∀ q ∈ ownFiles, ¬ Journal.TX_DIR <+: q := by decide
    exact hall q hq ((txDir_parts j).trans h)
  have shrunk : ∀ s, Nodes.Shrunk j.txDir s₀ s →
      Leftover j s ∧ Fades s₀ s ∧ s[Db.NEXT]? = s₀[Db.NEXT]? := fun s h =>
    ⟨h₀.fades (h.fades (txDir_parts j)) h.1 (h.2.1 _ (outside _ (by decide))),
      h.fades (txDir_parts j), h.2.1 _ (outside _ (by decide))⟩
  refine Safe.bind (R := fun _ s => Nodes.Shrunk j.txDir s₀ s ∧
      ∀ q : Path, j.txDir <+: q → s[q]? = none)
    (Safe.mapErr ((Fs.removeTree_rule h₀.tidy.sound (txDir_valid htx)).conseq (fun _ h => h)
      (fun _ _ h => h) shrunk)) fun _ => ?_
  refine Safe.mapErr (Fs.removeDir_rule ?_)
  rintro s ⟨hsh, hgone⟩
  obtain ⟨hleft, hfade, hnext⟩ := shrunk s hsh
  have hempty : ∀ p : Path, Journal.TX_DIR <+: p → p ≠ Journal.TX_DIR → s[p]? = none := by
    intro p hp hne
    by_contra hn
    rcases hleft.only p hp (Option.isSome_iff_ne_none.2 hn) with h | h
    · exact hne h
    · exact hn (hgone p h)
  have hch : s.hasChildren Journal.TX_DIR = false := by
    rw [← Bool.not_eq_true, Nodes.hasChildren_iff]
    rintro ⟨k, hk, hp, hne⟩
    rw [hempty k hp hne] at hk
    cases hk
  have hprune : s.prune Journal.TX_DIR = s.erase Journal.TX_DIR := by
    rcases hc : s[Journal.TX_DIR]? with _ | c | _
    · rw [Nodes.erase_of_none hc, Nodes.prune_eq_self (by rw [hc]; nofun)]
    · exact absurd hc (hleft.top c)
    · exact Nodes.prune_of_empty hc hch
  have hfade' : Fades s (s.erase Journal.TX_DIR) := .erase (by decide)
  have hsound : Nodes.Sound (s.erase Journal.TX_DIR) := hleft.tidy.sound.erase (by decide) hch
  have hne : ∀ q ∈ ownFiles, Journal.TX_DIR ≠ q := by decide
  refine ⟨by decide, hleft.top, ?_, hleft, hfade, hnext⟩
  rw [hprune]
  refine ⟨hleft.fades hfade' hsound ?_, hfade.trans hfade', ?_, fun p hp => ?_⟩
  · rw [Nodes.lookup_erase, if_neg (hne _ (by decide))]
  · rw [Nodes.lookup_erase, if_neg (hne _ (by decide)), hnext]
  · rw [Nodes.lookup_erase]
    split
    · rfl
    · next h => exact hempty p hp (Ne.symm h)

/-- The journal goes last. -/
theorem dropJournal_rule {D : Nodes → Prop} (h₀ : Leftover j s₀) (hn : s₀[Db.NEXT]? = none)
    (htx : ∀ p : Path, Journal.TX_DIR <+: p → s₀[p]? = none) (hD : D s₀) :
    Safe F (fun s => s = s₀) dropJournal (fun _ => Settled s₀) D := by
  have hsettled : Settled s₀ (s₀.erase Journal.PATH) := by
    have hfade : Fades s₀ (s₀.erase Journal.PATH) := .erase (by decide)
    exact { tidy := hfade.tidy h₀.tidy (h₀.tidy.sound.eraseFile (h₀.tidy.files _ (by decide)))
            same := hfade.managed
            journal := by simp
            next := hfade.none hn
            tmp := hfade.none h₀.tmp
            tx := fun p hp => hfade.none (htx p hp)
            home := by
              rw [hfade.same _ (by decide)]
              exact h₀.home (List.prefix_refl _) }
  refine Safe.bind (R := fun _ s => s = s₀) (Safe.mapErr (Fs.sync_rule fun _ h => h)) fun _ => ?_
  refine Safe.bind (R := fun _ => Settled s₀)
    (removeIfExists_rule (by decide) fun s hs => ?_) fun _ => ?_
  · subst hs
    exact ⟨h₀.tidy, hsettled, hD⟩
  · exact Safe.mapErr (Fs.sync_rule fun _ h => h)

/-- What `undo` does once the steps are undone. -/
theorem undoTail_rule (htx : isComponent j.tx = true) (h₀ : Leftover j s₀) :
    Safe F (fun s => s = s₀)
      (do removeIfExists Db.NEXT; removeTxDir j; dropJournal)
      (fun _ => Settled s₀) (fun s => Leftover j s ∧ Fades s₀ s) := by
  have hfade : Fades s₀ (s₀.erase Db.NEXT) := .erase (by decide)
  have h₁ : Leftover j (s₀.erase Db.NEXT) :=
    h₀.fades hfade (h₀.tidy.sound.eraseFile (h₀.tidy.files _ (by decide)))
      (by rw [Nodes.lookup_erase, if_neg (by decide)])
  refine Safe.bind (R := fun _ s => s = s₀.erase Db.NEXT)
    (removeIfExists_rule (by decide) fun s hs => ?_) fun _ => ?_
  · subst hs
    exact ⟨h₀.tidy, rfl, h₀, .refl s⟩
  refine Safe.bind (R := fun _ s => Leftover j s ∧ Fades s₀ s ∧ s[Db.NEXT]? = none ∧
      ∀ p : Path, Journal.TX_DIR <+: p → s[p]? = none)
    ((removeTxDir_rule htx h₁).conseq (fun _ h => h) ?_ ?_) fun _ => Triple.of_each ?_
  · rintro _ s ⟨hl, hf, hn, hgone⟩
    exact ⟨hl, hfade.trans hf, by rw [hn]; simp, hgone⟩
  · rintro s ⟨hl, hf, -⟩
    exact ⟨hl, hfade.trans hf⟩
  · rintro s ⟨hl, hf, hn, hgone⟩
    exact (dropJournal_rule hl hn hgone ⟨hl, hf⟩).conseq (fun _ h => h)
      (fun _ t ht => { ht with same := ht.same.trans hf.managed }) fun _ h => h

/-- The clean-up after a commit. -/
theorem finish_rule {C : Nodes} (hc : Cleanable j C) (h₀ : Finishing j C s₀) :
    Safe F (fun s => s = s₀) (finish j) (fun _ => Settled (sweep j.cleanup C))
      (Finishing j C) := by
  have hmk : ∀ d ∈ j.cleanup, managed d = true ∧ d ∉ KEEP :=
    fun d hd => ⟨(hc.dirs d hd).2.1, (hc.dirs d hd).2.2.1⟩
  refine Safe.bind (R := fun _ s => Finishing j C s ∧
      ∀ p : Path, Journal.TX_DIR <+: p → s[p]? = none)
    ((removeTxDir_rule hc.tx h₀.left).conseq (fun _ h => h) ?_ ?_) fun _ => Triple.of_each ?_
  · rintro _ s ⟨hl, hf, -, hgone⟩
    exact ⟨h₀.fades hl hf, hgone⟩
  · rintro s ⟨hl, hf, -⟩
    exact h₀.fades hl hf
  rintro s₁ ⟨h₁, hgone⟩
  refine Safe.bind (R := fun _ s => s = sweep j.cleanup s₁)
    ((sweep_rule fun d hd => ?_).conseq (fun _ h => h) (fun _ _ h => h) ?_) fun _ => ?_
  · obtain ⟨hv, hm, -, hf⟩ := hc.dirs d hd
    obtain ⟨done, -, hsame⟩ := h₁.swept
    refine ⟨hv, fun c hcon => hf.sweep done c ?_⟩
    rw [← hsame d hm]
    exact hcon
  · rintro s ⟨done, hd, rfl⟩
    exact h₁.sweep hc hd
  have h₂ : Finishing j C (sweep j.cleanup s₁) := h₁.sweep hc (List.prefix_refl _)
  have hfade : Fades (sweep j.cleanup s₁) ((sweep j.cleanup s₁).erase Db.NEXT) :=
    .erase (by decide)
  have h₃ : Leftover j ((sweep j.cleanup s₁).erase Db.NEXT) :=
    h₂.left.fades hfade (h₂.left.tidy.sound.eraseFile (h₂.left.tidy.files _ (by decide)))
      (by rw [Nodes.lookup_erase, if_neg (by decide)])
  refine Safe.bind (R := fun _ s => s = (sweep j.cleanup s₁).erase Db.NEXT)
    (removeIfExists_rule (by decide) fun s hs => ?_) fun _ => ?_
  · subst hs
    exact ⟨h₂.left.tidy, rfl, h₂⟩
  refine (dropJournal_rule h₃ (by simp) (fun p hp => hfade.none ?_) (h₂.fades h₃ hfade)).conseq
    (fun _ h => h) (fun _ s hs => { hs with same := ?_ }) fun _ h => h
  · rw [lookup_sweep_own (fun d hd => (hmk d hd).1) (own_iff.2 (.inl hp)), hgone p hp]
  · -- Sweeping once more what was swept in part is sweeping it all.
    obtain ⟨done, hd, hsame⟩ := h₁.swept
    have := hsame.sweep hmk
    rw [sweep_sweep hc.sorted hd] at this
    exact (hs.same.trans hfade.managed).trans this

end Manager

end NanoChrono.Ncpkg
