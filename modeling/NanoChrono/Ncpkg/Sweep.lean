import NanoChrono.Ncpkg.Steps

/-! # Removing the directories left empty

The clean-up after a commit removes, deepest first, each directory of a list that is empty. Nothing
is gained by doing it twice: `sweep_sweep` says that starting over after any prefix ends where one
pass ends, which is why a clean-up that was interrupted may simply run again. -/

namespace NanoChrono.Ncpkg

open Crash

/-- Removes the empty ones among `ds`, in order. -/
def sweep (ds : List Path) (s : Nodes) : Nodes := ds.foldl Nodes.prune s

@[simp] theorem sweep_nil (s : Nodes) : sweep [] s = s := rfl

@[simp] theorem sweep_cons (d : Path) (ds : List Path) (s : Nodes) :
    sweep (d :: ds) s = sweep ds (s.prune d) := rfl

theorem sweep_append (a b : List Path) (s : Nodes) : sweep (a ++ b) s = sweep b (sweep a s) :=
  List.foldl_append

namespace Nodes

variable {s t : Nodes} {d q : Path}

/-- An empty directory goes. -/
theorem prune_of_empty (hd : s[d]? = some .dir) (hc : s.hasChildren d = false) :
    s.prune d = s.erase d := by
  rw [prune, isDir_iff.2 hd, hc]
  rfl

/-- What is no directory, or no empty one, stays. -/
theorem prune_eq_self (h : s[d]? = some .dir → s.hasChildren d = true) : s.prune d = s := by
  unfold prune
  split
  · next hk =>
    simp only [Bool.and_eq_true, Bool.not_eq_true'] at hk
    rw [h (isDir_iff.1 hk.1)] at hk
    exact absurd hk.2 (by simp)
  · rfl

/-- Pruning changes one path at most. -/
theorem lookup_prune_of_ne (h : d ≠ q) : (s.prune d)[q]? = s[q]? := by
  unfold prune
  split
  · rw [lookup_erase, if_neg h]
  · rfl

/-- What pruning leaves was there. -/
theorem lookup_prune_cases (s : Nodes) (d q : Path) :
    (s.prune d)[q]? = s[q]? ∨ (d = q ∧ s[q]? = some .dir ∧ (s.prune d)[q]? = none) := by
  unfold prune
  split
  · next h =>
    rw [lookup_erase]
    split
    · next hdq =>
      simp only [Bool.and_eq_true] at h
      exact .inr ⟨hdq, hdq ▸ isDir_iff.1 h.1, rfl⟩
    · exact .inl rfl
  · exact .inl rfl

/-- Files stay. -/
theorem lookup_prune_file {c : Content} (h : s[q]? = some (.file c)) :
    (s.prune d)[q]? = some (.file c) := by
  rcases lookup_prune_cases s d q with h' | ⟨_, hd, _⟩
  · rw [h', h]
  · rw [h] at hd; cases hd

theorem lookup_sweep_of_not_mem {ds : List Path} (h : q ∉ ds) : (sweep ds s)[q]? = s[q]? := by
  induction ds generalizing s with
  | nil => rfl
  | cons d ds ih =>
    simp only [List.mem_cons, not_or] at h
    rw [sweep_cons, ih h.2, lookup_prune_of_ne (Ne.symm h.1)]

theorem lookup_sweep_file {ds : List Path} {c : Content} (h : s[q]? = some (.file c)) :
    (sweep ds s)[q]? = some (.file c) := by
  induction ds generalizing s with
  | nil => exact h
  | cons d ds ih => exact ih (lookup_prune_file h)

/-- Sweeping removes directories only, and makes nothing. -/
theorem lookup_sweep_cases (ds : List Path) (s : Nodes) (q : Path) :
    (sweep ds s)[q]? = s[q]? ∨ (s[q]? = some .dir ∧ (sweep ds s)[q]? = none) := by
  induction ds generalizing s with
  | nil => exact .inl rfl
  | cons d ds ih =>
    rw [sweep_cons]
    rcases lookup_prune_cases s d q with h | ⟨_, hd, hn⟩
    · rw [← h]; exact ih _
    · refine .inr ⟨hd, ?_⟩
      rcases ih (s.prune d) with h | ⟨h, _⟩
      · rw [h, hn]
      · rw [hn] at h; cases h

theorem NotFile.sweep (h : s.NotFile q) (ds : List Path) : (sweep ds s).NotFile q := by
  intro c hc
  rcases lookup_sweep_cases ds s q with h' | ⟨_, hn⟩
  · exact h c (h' ▸ hc)
  · rw [hn] at hc; cases hc

theorem Sound.sweep {ds : List Path} (hs : s.Sound) (hd : ∀ d ∈ ds, d ≠ []) :
    (sweep ds s).Sound := by
  induction ds generalizing s with
  | nil => exact hs
  | cons d ds ih => exact ih (hs.prune (hd d (by simp))) fun d' h => hd d' (by simp [h])

end Nodes

/-- A directory that was passed and stayed has something in it that stays too. -/
theorem prune_sweep {ds : List Path} (hsort : ds.Pairwise fun a b => b.length ≤ a.length)
    (s : Nodes) {d : Path} (hd : d ∈ ds) : (sweep ds s).prune d = sweep ds s := by
  obtain ⟨a, b, rfl⟩ := List.append_of_mem hd
  rw [sweep_append, sweep_cons]
  generalize sweep a s = u
  have hb : ∀ e ∈ b, e.length ≤ d.length := by
    rw [List.pairwise_append] at hsort
    exact (List.pairwise_cons.1 hsort.2.1).1
  refine Nodes.prune_eq_self fun hdir => ?_
  -- `d` is still a directory, so it was passed because of a child, which no later one is.
  have hud : (u.prune d)[d]? = some .dir := by
    rcases Nodes.lookup_sweep_cases b (u.prune d) d with h | ⟨h, _⟩
    · rw [← h]; exact hdir
    · exact h
  have hch : u.hasChildren d = true := by
    by_contra hc
    rw [Bool.not_eq_true] at hc
    rcases Nodes.lookup_prune_cases u d d with h | ⟨_, _, h⟩
    · rw [Nodes.prune_of_empty (h ▸ hud) hc] at hud
      simp at hud
    · rw [h] at hud; cases hud
  rw [Nodes.prune_eq_self fun _ => hch]
  obtain ⟨k, hk, hdk, hne⟩ := Nodes.hasChildren_iff.1 hch
  have hlt : d.length < k.length := by
    obtain ⟨t, rfl⟩ := hdk
    have ht : t ≠ [] := by rintro rfl; simp at hne
    have := List.length_pos_iff.2 ht
    rw [List.length_append]
    omega
  have hkb : k ∉ b := fun h => by have := hb k h; omega
  exact Nodes.hasChildren_iff.2
    ⟨k, by rw [Nodes.lookup_sweep_of_not_mem hkb]; exact hk, hdk, hne⟩

/-- Directories already passed are left alone. -/
theorem sweep_of_subset {ds : List Path} (hsort : ds.Pairwise fun a b => b.length ≤ a.length)
    (s : Nodes) {l : List Path} (hl : ∀ d ∈ l, d ∈ ds) : sweep l (sweep ds s) = sweep ds s := by
  induction l with
  | nil => rfl
  | cons d l ih =>
    rw [sweep_cons, prune_sweep hsort s (hl d (by simp))]
    exact ih fun e he => hl e (by simp [he])

/-- Sweeping again, from the start, after any part of a sweep is sweeping once. -/
theorem sweep_sweep {done ds : List Path} (hsort : ds.Pairwise fun a b => b.length ≤ a.length)
    (hd : done <+: ds) (s : Nodes) : sweep ds (sweep done s) = sweep ds s := by
  obtain ⟨rest, rfl⟩ := hd
  have hdone : done.Pairwise fun a b => b.length ≤ a.length := (List.pairwise_append.1 hsort).1
  rw [sweep_append, sweep_append, sweep_of_subset hdone s fun _ h => h]

/-- Whether a managed directory outside `KEEP` is empty does not depend on the working area. -/
theorem hasChildren_eq {s t : Nodes} (h : SameManaged s t) {d : Path} (hd : managed d = true)
    (hk : d ∉ KEEP) : s.hasChildren d = t.hasChildren d := by
  have under : ∀ k, d <+: k → k ≠ d → managed k = true := by
    intro k hdk hne
    rw [managed_iff] at hd ⊢
    have low : ∀ l : Path, d <+: l → (∀ a, a ∈ l.inits → a ∈ KEEP ∨ a = l) → l ≠ d → False := by
      intro l hdl hl hne
      rcases hl d ((List.mem_inits _ _).2 hdl) with h | h
      · exact hk h
      · exact hne h.symm
    constructor
    · rw [← Bool.not_eq_true, own_iff]
      rintro (htx | hf)
      · rcases Path.prefix_total hdk htx with h | h
        · by_cases he : Journal.TX_DIR = d
          · exact Bool.eq_false_iff.1 hd.1 (own_iff.2 (.inl (he ▸ List.prefix_refl _)))
          · exact low _ h (by decide) he
        · exact Bool.eq_false_iff.1 hd.1 (own_iff.2 (.inl h))
      · simp only [ownFiles, List.mem_cons, List.not_mem_nil, or_false] at hf
        rcases hf with rfl | rfl | rfl | rfl <;> exact low _ hdk (by decide) hne
    · intro hh
      simp only [homes, List.mem_cons, List.not_mem_nil, or_false] at hh
      rcases hh with rfl | rfl | rfl <;> exact low _ hdk (by decide) hne
  rw [Bool.eq_iff_iff, Nodes.hasChildren_iff, Nodes.hasChildren_iff]
  constructor
  · rintro ⟨k, hks, hdk, hne⟩
    exact ⟨k, by rw [← h k (under k hdk hne)]; exact hks, hdk, hne⟩
  · rintro ⟨k, hks, hdk, hne⟩
    exact ⟨k, by rw [h k (under k hdk hne)]; exact hks, hdk, hne⟩

/-- Pruning a managed directory is a change of the managed tree alone. -/
theorem SameManaged.prune {s t : Nodes} (h : SameManaged s t) {d : Path} (hd : managed d = true)
    (hk : d ∉ KEEP) : SameManaged (s.prune d) (t.prune d) := by
  intro q hq
  have hdir : s.isDir d = t.isDir d := by
    rw [Bool.eq_iff_iff, Nodes.isDir_iff, Nodes.isDir_iff, h d hd]
  unfold Nodes.prune
  rw [hdir, hasChildren_eq h hd hk]
  split
  · rw [Nodes.lookup_erase, Nodes.lookup_erase, h q hq]
  · exact h q hq

theorem SameManaged.sweep {s t : Nodes} (h : SameManaged s t) {ds : List Path}
    (hd : ∀ d ∈ ds, managed d = true ∧ d ∉ KEEP) : SameManaged (sweep ds s) (sweep ds t) := by
  induction ds generalizing s t with
  | nil => exact h
  | cons d ds ih =>
    obtain ⟨hm, hk⟩ := hd d (by simp)
    exact ih (h.prune hm hk) fun e he => hd e (by simp [he])

namespace Manager

/-- The loop of the clean-up. -/
theorem sweep_rule {F : Fuse → Prop} [Steady F] {ds : List Path} {s₀ : Nodes}
    (hd : ∀ d ∈ ds, d.isSystemPath = true ∧ s₀.NotFile d) :
    Safe F (fun s => s = s₀) (ds.forM fun d => at_ d (Fs.orKept (Fs.removeDir d)))
      (fun _ s => s = sweep ds s₀) (fun s => ∃ done, done <+: ds ∧ s = sweep done s₀) := by
  refine Triple.pre (Safe.forM (I := fun done s => s = sweep done s₀) ?_) ?_
  · intro done d rest hds
    refine Safe.mapErr (Fs.removeDir_rule fun s hs => ?_)
    subst hs
    obtain ⟨hv, hf⟩ := hd d (by rw [hds]; simp)
    exact ⟨hv, hf.sweep done, by rw [sweep_append]; rfl, done, ⟨_, hds.symm⟩, rfl⟩
  · rintro s rfl
    rfl

end Manager

end NanoChrono.Ncpkg
