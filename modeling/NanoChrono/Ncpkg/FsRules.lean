import NanoChrono.Ncpkg.Fs

/-! # Proof rules for the filesystem

`Nodes.Sound` is the shape of every reachable filesystem. The first half says what each change of a
store does to its lookups and that it keeps the shape; the second gives each operation its proof
rule, in the form of a weakest precondition over stores that satisfy the operation's own checks.
Compound operations (`createDirAll`, `removeTree`) get a relation between the store before and any
store they may leave behind. -/

namespace NanoChrono.Ncpkg

open Crash

namespace Nodes

variable {s t : Nodes} {p q : Path} {n : Node} {c : Content}

@[simp] theorem lookup_insert :
    (s.insert p n)[q]? = if p = q then some n else s[q]? := by
  rw [Std.ExtTreeMap.getElem?_insert]
  simp

@[simp] theorem lookup_erase : (s.erase p)[q]? = if p = q then none else s[q]? := by
  rw [Std.ExtTreeMap.getElem?_erase]
  simp

/-- Two stores with the same lookups are the same. -/
theorem ext (h : ∀ p : Path, s[p]? = t[p]?) : s = t :=
  Std.ExtTreeMap.ext_getElem? h

theorem contains_eq : s.contains p = s[p]?.isSome := by
  simp

theorem erase_of_none (h : s[p]? = none) : s.erase p = s := by
  refine ext fun q => ?_
  rw [lookup_erase]
  split
  · next hpq => rw [← hpq, h]
  · rfl

theorem isDir_iff : s.isDir p = true ↔ s[p]? = some .dir := by
  unfold isDir
  split
  · next h => simp [h]
  · next h => simpa using h

theorem hasChildren_iff :
    s.hasChildren p = true ↔ ∃ k, s[k]?.isSome = true ∧ p <+: k ∧ k ≠ p := by
  simp [hasChildren, List.any_eq_true]

/-- What moving a file does to the lookups. -/
theorem lookup_move (h : s[p]? = some n) (r : Path) :
    (s.move p q)[r]? = if q = r then some n else if p = r then none else s[r]? := by
  unfold move
  rw [h]
  simp only [lookup_insert, lookup_erase]

theorem move_eq (h : s[p]? = some n) : s.move p q = (s.erase p).insert q n := by
  unfold move
  rw [h]

/-- Moving a file back undoes a move to a free path. -/
theorem move_move (h : s[p]? = some n) (hq : s[q]? = none) : (s.move p q).move q p = s := by
  refine ext fun r => ?_
  rw [lookup_move (n := n) (by rw [lookup_move h]; simp), lookup_move h]
  by_cases hpr : p = r
  · subst hpr; simp [h]
  · by_cases hqr : q = r
    · subst hqr; simp [hpr, hq]
    · simp [hpr, hqr]

/-- Whether an entry lies at `p` that is no directory. -/
def NotDir (s : Nodes) (p : Path) : Prop := s[p]? ≠ some .dir

/-- Whether no file lies at `p`. -/
def NotFile (s : Nodes) (p : Path) : Prop := ∀ c, s[p]? ≠ some (.file c)

/-- Removes the directory at `p` if it is there and empty. -/
def prune (s : Nodes) (p : Path) : Nodes :=
  if s.isDir p && !s.hasChildren p then s.erase p else s

/-- The shape of a filesystem: the root is a directory, every entry lies in a directory, every path
is in the alphabet. -/
structure Sound (s : Nodes) : Prop where
  root : s[([] : Path)]? = some .dir
  parent : ∀ p : Path, p ≠ [] → s[p]?.isSome = true → s[p.parent]? = some .dir
  valid : ∀ p : Path, p ≠ [] → s[p]?.isSome = true → p.isSystemPath = true

namespace Sound

/-- Everything above an entry is a directory. -/
theorem above (hs : s.Sound) (hq : s[q]?.isSome = true) (h : p <+: q) (hne : p ≠ q) :
    s[p]? = some .dir := by
  induction hn : q.length using Nat.strong_induction_on generalizing q with
  | _ n ih =>
    have hq0 : q ≠ [] := by
      rintro rfl
      exact hne (List.prefix_nil.1 h)
    have hpar := hs.parent q hq0 hq
    have hpp := Path.prefix_parent_of_ne h hne
    by_cases he : p = q.parent
    · rw [he]; exact hpar
    · exact ih _ (hn ▸ Path.parent_length_lt hq0) (by rw [hpar]; rfl) hpp he rfl

/-- Nothing lies under a free path or a file. -/
theorem below (hs : s.Sound) (hp : s[p]? ≠ some .dir) (h : p <+: q) (hne : p ≠ q) :
    s[q]? = none := by
  by_contra hq
  exact hp (hs.above (Option.isSome_iff_ne_none.2 hq) h hne)

theorem lookup_length (hs : s.Sound) (hq : s[q]?.isSome = true) : q.length ≤ 1024 := by
  by_cases h : q = []
  · simp [h]
  · have := (Path.isSystemPath_iff.1 (hs.valid q h hq)).2.1
    exact (Path.length_le_textLength q).trans this

theorem insert (hs : s.Sound) (hp : p.isSystemPath = true) (hpar : s[p.parent]? = some .dir)
    (hn : n = .dir ∨ s[p]? ≠ some .dir) : Nodes.Sound (s.insert p n) := by
  have hp0 : p ≠ [] := (Path.isSystemPath_iff.1 hp).1
  refine ⟨?_, fun q hq0 hq => ?_, fun q hq0 hq => ?_⟩
  · rw [lookup_insert, if_neg hp0, hs.root]
  · rw [lookup_insert] at hq ⊢
    have key : s[q.parent]? = some .dir := by
      by_cases hpq : p = q
      · rw [← hpq]; exact hpar
      · rw [if_neg hpq] at hq; exact hs.parent q hq0 hq
    by_cases hpq : p = q.parent
    · rw [if_pos hpq]
      rcases hn with rfl | hn
      · rfl
      · exact absurd (hpq ▸ key) hn
    · rw [if_neg hpq]; exact key
  · rw [lookup_insert] at hq
    by_cases hpq : p = q
    · rw [← hpq]; exact hp
    · rw [if_neg hpq] at hq; exact hs.valid q hq0 hq

theorem erase (hs : s.Sound) (hp0 : p ≠ []) (hc : s.hasChildren p = false) :
    Nodes.Sound (s.erase p) := by
  refine ⟨?_, fun q hq0 hq => ?_, fun q hq0 hq => ?_⟩
  · rw [lookup_erase, if_neg hp0, hs.root]
  · rw [lookup_erase] at hq ⊢
    by_cases hpq : p = q
    · rw [if_pos hpq] at hq; cases hq
    · rw [if_neg hpq] at hq
      have hne : p ≠ q.parent := by
        intro he
        rw [← Bool.not_eq_true, hasChildren_iff] at hc
        exact hc ⟨q, hq, he ▸ Path.parent_prefix q, fun h => hpq h.symm⟩
      rw [if_neg hne]; exact hs.parent q hq0 hq
  · rw [lookup_erase] at hq
    by_cases hpq : p = q
    · rw [if_pos hpq] at hq; cases hq
    · rw [if_neg hpq] at hq; exact hs.valid q hq0 hq

/-- A file or a free path has no children. -/
theorem hasChildren_of_not_dir (hs : s.Sound) (hp : s.NotDir p) : s.hasChildren p = false := by
  rw [← Bool.not_eq_true, hasChildren_iff]
  rintro ⟨k, hk, hpk, hne⟩
  exact hp (hs.above hk hpk (fun h => hne h.symm))

theorem eraseFile (hs : s.Sound) (hp : s.NotDir p) : Nodes.Sound (s.erase p) := by
  refine hs.erase ?_ (hs.hasChildren_of_not_dir hp)
  rintro rfl
  exact hp hs.root

theorem prune (hs : s.Sound) (hp : p ≠ []) : (s.prune p).Sound := by
  unfold Nodes.prune
  split
  · next h =>
    simp only [Bool.and_eq_true, Bool.not_eq_true'] at h
    exact hs.erase hp h.2
  · exact hs

theorem move (hs : s.Sound) (hp : s[p]? = some (.file c)) (hq : q.isSystemPath = true)
    (hpar : s[q.parent]? = some .dir) (hn : s[q]? ≠ some .dir) : (s.move p q).Sound := by
  have hpd : s.NotDir p := by rw [NotDir, hp]; simp
  rw [move_eq hp]
  refine (hs.eraseFile hpd).insert hq ?_ (.inr ?_)
  · rw [lookup_erase, if_neg, hpar]
    intro he
    rw [← he, hp] at hpar
    cases hpar
  · rw [lookup_erase]
    split
    · simp
    · exact hn

end Sound

/-- `s` is `s₀` with missing directories among `p` and its ancestors made. -/
def Grown (p : Path) (s₀ s : Nodes) : Prop :=
  s.Sound ∧ ∀ q : Path, s[q]? = s₀[q]? ∨ (q <+: p ∧ s₀[q]? = none ∧ s[q]? = some .dir)

/-- `s` is `s₀` with some entries at or under `p` gone. -/
def Shrunk (p : Path) (s₀ s : Nodes) : Prop :=
  s.Sound ∧ (∀ q : Path, ¬ p <+: q → s[q]? = s₀[q]?) ∧ ∀ q : Path, s[q]? = s₀[q]? ∨ s[q]? = none

theorem Grown.refl (hs : s.Sound) (p : Path) : Grown p s s :=
  ⟨hs, fun _ => .inl rfl⟩

theorem Grown.of_prefix {s₀ : Nodes} (h : Grown p s₀ s) (hpq : p <+: q) : Grown q s₀ s :=
  ⟨h.1, fun r => (h.2 r).imp id fun h => ⟨h.1.trans hpq, h.2⟩⟩

/-- Making one more directory. -/
theorem Grown.step {s₀ s₁ : Nodes} (h : Grown p s₀ s₁) (h' : Grown p s₁ s) : Grown p s₀ s := by
  refine ⟨h'.1, fun r => ?_⟩
  rcases h'.2 r with h₂ | ⟨hr, h₁, h₂⟩
  · rw [h₂]; exact h.2 r
  · rcases h.2 r with h₀ | ⟨_, _, hd⟩
    · exact .inr ⟨hr, by rw [← h₀, h₁], h₂⟩
    · rw [h₁] at hd; cases hd

theorem Grown.insert (hs : s.Sound) (hp : p.isSystemPath = true) (hpar : s[p.parent]? = some .dir)
    (hn : s[p]? = none) : Grown p s (s.insert p .dir) := by
  refine ⟨hs.insert hp hpar (.inl rfl), fun q => ?_⟩
  rw [lookup_insert]
  by_cases hpq : p = q
  · subst hpq
    exact .inr ⟨List.prefix_refl p, hn, by simp⟩
  · exact .inl (by simp [hpq])

/-- A path and all its ancestors made, there is one way to have grown. -/
theorem Grown.unique {s₀ : Nodes} (h : Grown p s₀ s) (hs : s[p]? = some .dir)
    (h' : Grown p s₀ t) (ht : t[p]? = some .dir) : s = t := by
  have made : ∀ {u : Nodes}, Grown p s₀ u → u[p]? = some .dir → ∀ q, q <+: p →
      u[q]? = some .dir := by
    intro u hu hup q hq
    by_cases hqp : q = p
    · rw [hqp, hup]
    · exact hu.1.above (by rw [hup]; rfl) hq hqp
  refine ext fun q => ?_
  by_cases hq : q <+: p
  · rw [made h hs q hq, made h' ht q hq]
  · rw [(h.2 q).resolve_right fun h => hq h.1, (h'.2 q).resolve_right fun h => hq h.1]

/-- Where the directory is there, nothing grows. -/
theorem Grown.eq_self {s₀ : Nodes} (h : Grown p s₀ s) (h₀ : s₀.Sound) (hp : s₀[p]? = some .dir) :
    s = s₀ := by
  refine h.unique ?_ (.refl h₀ p) hp
  rcases h.2 p with h | ⟨-, -, h⟩
  · rw [h, hp]
  · exact h

theorem Shrunk.refl (hs : s.Sound) (p : Path) : Shrunk p s s :=
  ⟨hs, fun _ _ => rfl, fun _ => .inl rfl⟩

/-- Shrinking below a path within the one being removed. -/
theorem Shrunk.trans {s₀ s₁ s₂ : Nodes} (h : Shrunk p s₀ s₁) (h' : Shrunk q s₁ s₂)
    (hpq : p <+: q) : Shrunk p s₀ s₂ := by
  refine ⟨h'.1, fun r hr => ?_, fun r => ?_⟩
  · rw [h'.2.1 r fun hqr => hr (hpq.trans hqr), h.2.1 r hr]
  · rcases h'.2.2 r with h₂ | h₂
    · rw [h₂]; exact h.2.2 r
    · exact .inr h₂

/-- What is gone stays gone. -/
theorem Shrunk.none {s₀ : Nodes} (h : Shrunk p s₀ s) (hq : s₀[q]? = none) : s[q]? = none := by
  rcases h.2.2 q with h | h
  · rw [h, hq]
  · exact h

theorem mem_children_iff {name : String} :
    name ∈ s.children p ↔ s[p.join name]?.isSome = true := by
  simp only [children, List.mem_filterMap]
  constructor
  · rintro ⟨k, hk, hkn⟩
    split at hkn
    · next hpar =>
      have hk0 : k ≠ [] := by rintro rfl; simp at hkn
      rw [List.getLast?_eq_getLast_of_ne_nil hk0, Option.some.injEq] at hkn
      have : p.join name = k := by rw [← hpar, ← hkn]; exact Path.join_parent hk0
      rw [this]
      simpa using hk
    · cases hkn
  · intro h
    exact ⟨p.join name, by simpa using h, by simp [Path.join, Path.parent]⟩

end Nodes

namespace Fs

variable {F : Fuse → Prop} [Steady F] {P : Nodes → Prop} {G : FsError → Nodes → Prop}
  {D : Nodes → Prop} {Q : Unit → Nodes → Prop} {p src dst : Path} {c : Content}

theorem check_eq_ok (h : p.isSystemPath = true) : check p = .ok () := by
  simp [check, h]

theorem parentIsDir_eq_ok {s : Nodes} (h : s[p.parent]? = some .dir) :
    parentIsDir s p = .ok () := by
  simp [parentIsDir, h]

theorem vacant_eq_ok {s : Nodes} (h : s[p]? = none) : vacant s p = .ok () := by
  simp [vacant, Nodes.contains_eq, h]

/-- Bind of a check that passes. -/
@[simp] theorem ok_bind {ε α β : Type} (a : α) (f : α → Except ε β) :
    (Except.ok a >>= f) = f a := rfl

theorem replaceable_eq_ok {s : Nodes} (hs : src.isSystemPath = true) (hd : dst.isSystemPath = true)
    (hpar : s[dst.parent]? = some .dir) (hc : s[src]? = some (.file c)) (hn : s.NotDir dst) :
    replaceable s src dst = .ok () := by
  simp only [replaceable, check_eq_ok hs, check_eq_ok hd, parentIsDir_eq_ok hpar, ok_bind, hc]
  rcases h : s[dst]? with _ | _ | _
  · rfl
  · rfl
  · exact absurd h hn

/-! ## Reading -/

theorem stat_rule {Q : Option NodeKind → Nodes → Prop}
    (h : ∀ s, P s → p.isSystemPath = true ∧ Q (s[p]?.map Node.kind) s) :
    Safe F P (stat p) Q D := by
  refine Safe.query fun s hs => ⟨s[p]?.map Node.kind, ?_, (h s hs).2⟩
  simp only [check_eq_ok (h s hs).1, ok_bind]
  rfl

theorem exists_rule {Q : Bool → Nodes → Prop}
    (h : ∀ s, P s → p.isSystemPath = true ∧ Q s[p]?.isSome s) :
    Safe F P (exists_ p) Q D := by
  refine Safe.bind (R := fun k s => Q k.isSome s) (stat_rule fun s hs => ?_)
    fun _ => Safe.ret fun _ h => h
  obtain ⟨hv, hQ⟩ := h s hs
  exact ⟨hv, by simpa using hQ⟩

theorem list_rule {Q : List String → Nodes → Prop}
    (h : ∀ s, P s → p.isSystemPath = true ∧ s[p]? = some .dir ∧ Q (s.children p) s) :
    Safe F P (list p) Q D := by
  refine Safe.query fun s hs => ⟨s.children p, ?_, (h s hs).2.2⟩
  simp only [check_eq_ok (h s hs).1, (h s hs).2.1, ok_bind]

theorem sync_rule (h : ∀ s, P s → Q () s) : Safe F P sync Q D :=
  Safe.query fun s hs => ⟨(), rfl, h s hs⟩

/-! ## One mutation -/

theorem create_rule
    (h : ∀ s, P s → p.isSystemPath = true ∧ s[p.parent]? = some .dir ∧ s[p]? = none ∧
      Q () (s.insert p (.file c)) ∧ (c.isEmpty = false → D (s.insert p (.file c.half))) ∧ D s) :
    Safe F P (create p c) Q D := by
  refine Triple.mutate fun s hs => ?_
  obtain ⟨hv, hpar, hn, hQ, hT, hD⟩ := h s hs
  simp only [check_eq_ok hv, parentIsDir_eq_ok hpar, vacant_eq_ok hn, ok_bind]
  refine ⟨hQ, ?_, hD⟩
  split
  · exact hD
  · next he => exact hT (by simpa using he)

theorem createDir_rule
    (h : ∀ s, P s → p.isSystemPath = true ∧ s[p.parent]? = some .dir ∧ s[p]? = none ∧
      Q () (s.insert p .dir) ∧ D s) :
    Safe F P (createDir p) Q D := by
  refine Triple.mutate fun s hs => ?_
  obtain ⟨hv, hpar, hn, hQ, hD⟩ := h s hs
  simp only [check_eq_ok hv, parentIsDir_eq_ok hpar, vacant_eq_ok hn, ok_bind]
  exact ⟨hQ, hD, hD⟩

theorem replace_rule
    (h : ∀ s, P s → src.isSystemPath = true ∧ dst.isSystemPath = true ∧
      s[dst.parent]? = some .dir ∧ (∃ c, s[src]? = some (.file c)) ∧ s.NotDir dst ∧
      Q () (s.move src dst) ∧ D s) :
    Safe F P (replace src dst) Q D := by
  refine Triple.mutate fun s hs => ?_
  obtain ⟨hv, hd, hpar, ⟨c, hc⟩, hn, hQ, hD⟩ := h s hs
  simp only [replaceable_eq_ok hv hd hpar hc hn]
  exact ⟨hQ, hD, hD⟩

theorem rename_rule
    (h : ∀ s, P s → src.isSystemPath = true ∧ dst.isSystemPath = true ∧
      s[dst.parent]? = some .dir ∧ (∃ c, s[src]? = some (.file c)) ∧ s[dst]? = none ∧
      Q () (s.move src dst) ∧ D s) :
    Safe F P (rename src dst) Q D := by
  refine Triple.mutate fun s hs => ?_
  obtain ⟨hv, hd, hpar, ⟨c, hc⟩, hn, hQ, hD⟩ := h s hs
  have hnd : s.NotDir dst := by rw [Nodes.NotDir, hn]; simp
  simp only [check_eq_ok hv, check_eq_ok hd, vacant_eq_ok hn,
    replaceable_eq_ok hv hd hpar hc hnd, ok_bind]
  exact ⟨hQ, hD, hD⟩

/-- A rename that may be refused: what it needed when it was not. -/
theorem rename_try (hv : src.isSystemPath = true) (hd : dst.isSystemPath = true)
    (h : ∀ s, P s → (s[dst.parent]? = some .dir → (∃ c, s[src]? = some (.file c)) →
      s[dst]? = none → Q () (s.move src dst)) ∧ (∀ e, G e s) ∧ D s) :
    Triple F P (rename src dst) Q G D := by
  refine Triple.mutate fun s hs => ?_
  obtain ⟨hQ, hG, hD⟩ := h s hs
  simp only [check_eq_ok hv, check_eq_ok hd, ok_bind, vacant, replaceable, parentIsDir,
    Nodes.contains_eq]
  rcases hn : s[dst]? with _ | nd
  · rcases hpar : s[dst.parent]? with _ | cd | _
    · exact hG _
    · exact hG _
    · rcases hc : s[src]? with _ | c | _
      · exact hG _
      · exact ⟨hQ hpar ⟨c, hc⟩ hn, hD, hD⟩
      · exact hG _
  · exact hG _

/-- Creating a directory that may be refused. -/
theorem createDir_try (hv : p.isSystemPath = true)
    (h : ∀ s, P s → (s[p.parent]? = some .dir → s[p]? = none → Q () (s.insert p .dir)) ∧
      (∀ e, G e s) ∧ D s) :
    Triple F P (createDir p) Q G D := by
  refine Triple.mutate fun s hs => ?_
  obtain ⟨hQ, hG, hD⟩ := h s hs
  simp only [check_eq_ok hv, ok_bind, vacant, parentIsDir, Nodes.contains_eq]
  rcases hpar : s[p.parent]? with _ | cd | _
  · exact hG _
  · exact hG _
  · rcases hn : s[p]? with _ | nd
    · exact ⟨hQ hpar hn, hD, hD⟩
    · exact hG _

/-- Removing a file that is there. -/
theorem removeFile_there
    (h : ∀ s, P s → p.isSystemPath = true ∧ (∃ c, s[p]? = some (.file c)) ∧ Q () (s.erase p) ∧
      D s) :
    Safe F P (removeFile p) Q D := by
  refine Triple.mutate fun s hs => ?_
  obtain ⟨hv, ⟨c, hc⟩, hQ, hD⟩ := h s hs
  simp only [check_eq_ok hv, ok_bind, hc]
  exact ⟨hQ, hD, hD⟩

/-- Removing a directory that is empty. -/
theorem removeDir_there
    (h : ∀ s, P s → p.isSystemPath = true ∧ s[p]? = some .dir ∧ s.hasChildren p = false ∧
      Q () (s.erase p) ∧ D s) :
    Safe F P (removeDir p) Q D := by
  refine Triple.mutate fun s hs => ?_
  obtain ⟨hv, hd, hc, hQ, hD⟩ := h s hs
  have hp0 : p.isEmpty = false := by simpa using (Path.isSystemPath_iff.1 hv).1
  simp only [check_eq_ok hv, ok_bind, hd, hc, hp0]
  exact ⟨hQ, hD, hD⟩

/-- Removing a file that may not be there. -/
theorem removeFile_rule
    (h : ∀ s, P s → p.isSystemPath = true ∧ s.NotDir p ∧ Q () (s.erase p) ∧ D s) :
    Safe F P (orNotFound (removeFile p)) Q D := by
  refine Triple.attempt_mutate_bind (R := Q ()) (G := fun e s => e = .notFound ∧ Q () s) (D := D)
    (fun s hs => ?_) (Triple.ret fun _ h => h) (fun e => ?_)
    (fun hF => Triple.throw fun _ hD => ⟨hF, hD⟩) (fun _ h => h)
  · obtain ⟨hv, hn, hQ, hD⟩ := h s hs
    simp only [check_eq_ok hv, ok_bind]
    rcases hc : s[p]? with _ | c | _
    · exact ⟨rfl, by rwa [Nodes.erase_of_none hc] at hQ⟩
    · exact ⟨hQ, hD, hD⟩
    · exact absurd hc hn
  · refine Triple.and_pre ?_
    rintro rfl
    exact Triple.ret fun _ h => h

/-- Removing a directory that may not be there, or may not be empty. -/
theorem removeDir_rule
    (h : ∀ s, P s → p.isSystemPath = true ∧ s.NotFile p ∧ Q () (s.prune p) ∧ D s) :
    Safe F P (orKept (removeDir p)) Q D := by
  refine Triple.attempt_mutate_bind (R := Q ())
    (G := fun e s => (e = .notFound ∨ e = .notEmpty) ∧ Q () s) (D := D)
    (fun s hs => ?_) (Triple.ret fun _ h => h) (fun e => ?_)
    (fun hF => Triple.throw fun _ hD => ⟨hF, hD⟩) (fun _ h => h)
  · obtain ⟨hv, hn, hQ, hD⟩ := h s hs
    have hp0 : p.isEmpty = false := by simpa using (Path.isSystemPath_iff.1 hv).1
    simp only [check_eq_ok hv, ok_bind, hp0, Bool.false_or]
    unfold Nodes.prune Nodes.isDir at hQ
    rcases hc : s[p]? with _ | c | _
    · rw [hc] at hQ
      exact ⟨.inl rfl, hQ⟩
    · exact absurd hc (hn c)
    · rw [hc] at hQ
      cases hk : s.hasChildren p with
      | true => rw [hk] at hQ; exact ⟨.inr rfl, hQ⟩
      | false => rw [hk] at hQ; exact ⟨hQ, hD, hD⟩
  · refine Triple.and_pre ?_
    rintro (rfl | rfl) <;> exact Triple.ret fun _ h => h

/-! ## Making directories -/

/-- A path and its ancestors below `/`, deepest first: what `createDirAll` looks at. -/
def upward (p : Path) : List Path := p.inits.tail.reverse

@[simp] theorem upward_nil : upward [] = [] := rfl

theorem upward_join (d : Path) (n : String) : upward (d.join n) = d.join n :: upward d := by
  have h : (d ++ [n]).inits.tail = d.inits.tail ++ [d ++ [n]] := by
    cases d <;> simp [List.inits_append]
  rw [upward, upward, Path.join, h, List.reverse_append, List.reverse_singleton,
    List.singleton_append]

/-- Missing directories, each in the one before it; the first one is to go into `a`. -/
def Linked (s : Nodes) : Path → List Path → Prop
  | _, [] => True
  | a, d :: ds => d.parent = a ∧ d.isSystemPath = true ∧ s[d]? = none ∧ Linked s d ds

/-- Making a directory leaves the longer missing ones missing. -/
theorem Linked.insert {s : Nodes} {n : Node} {b a : Path} {ds : List Path} (h : Linked s a ds)
    (hb : b.length ≤ a.length) : Linked (s.insert b n) a ds := by
  induction ds generalizing a with
  | nil => trivial
  | cons d ds ih =>
    obtain ⟨hpar, hv, hn, hds⟩ := h
    have hd0 : d ≠ [] := (Path.isSystemPath_iff.1 hv).1
    have hlt : a.length < d.length := hpar ▸ Path.parent_length_lt hd0
    refine ⟨hpar, hv, ?_, ih hds (by omega)⟩
    rw [Nodes.lookup_insert, if_neg, hn]
    rintro rfl
    omega

/-- The end of a chain of missing directories extends its start. -/
theorem Linked.prefix_last {s : Nodes} {a : Path} {ds : List Path} (h : Linked s a ds) :
    a <+: (a :: ds).getLast (by simp) := by
  induction ds generalizing a with
  | nil => simp
  | cons d ds ih =>
    obtain ⟨hpar, -, -, hds⟩ := h
    rw [List.getLast_cons (by simp)]
    exact (hpar ▸ Path.parent_prefix d).trans (ih hds)

theorem missing_rule {s₀ : Nodes} (hs : s₀.Sound) {p : Path} (hf : ∀ q, q <+: p → s₀.NotFile q)
    (hv : p ≠ [] → p.isSystemPath = true) {a : Path} {acc : List Path} (hacc : Linked s₀ a acc)
    (hlast : (a :: acc).getLast (by simp) = p) :
    Safe F (fun s => s = s₀) (missing (upward a) acc)
      (fun ds s => s = s₀ ∧ ∃ b, s₀[b]? = some .dir ∧ Linked s₀ b ds ∧
        (b :: ds).getLast (by simp) = p) D := by
  induction a using List.reverseRecOn generalizing acc with
  | nil => exact Safe.ret fun s h => ⟨h, [], hs.root, hacc, hlast⟩
  | append_singleton d n ih =>
    have hap : d ++ [n] <+: p := hlast ▸ hacc.prefix_last
    have hav : Path.isSystemPath (d ++ [n]) = true :=
      Path.isSystemPath_of_prefix (hv fun h => by simp [h] at hap) hap (by simp)
    have hup := upward_join d n
    rw [Path.join] at hup
    rw [hup]
    refine Safe.bind
      (R := fun k s => s = s₀ ∧ k = s₀[((d ++ [n] : List String) : Path)]?.map Node.kind)
      (stat_rule fun s h => ?_) fun k => ?_
    · subst h; exact ⟨hav, rfl, rfl⟩
    · refine Triple.of_each fun s h => ?_
      obtain ⟨rfl, rfl⟩ := h
      rcases hk : s[((d ++ [n] : List String) : Path)]? with _ | c | _
      · have hacc' : Linked s d ((d ++ [n]) :: acc) := ⟨Path.parent_join d n, hav, hk, hacc⟩
        exact ih hacc' (by rw [List.getLast_cons (by simp)]; exact hlast)
      · exact absurd hk (hf _ hap c)
      · exact Safe.ret fun t h => ⟨h, _, hk, hacc, hlast⟩

theorem createDirs_rule {s₀ : Nodes} (hs : s₀.Sound) {a : Path} (ha : s₀[a]? = some .dir)
    {ds : List Path} (hds : Linked s₀ a ds) {p : Path} (hlast : (a :: ds).getLast (by simp) = p) :
    Safe F (fun s => s = s₀) (ds.forM createDir)
      (fun _ s => Nodes.Grown p s₀ s ∧ s[p]? = some .dir) (Nodes.Grown p s₀) := by
  induction ds generalizing s₀ a with
  | nil =>
    refine Safe.ret fun s h => ?_
    subst h
    exact ⟨Nodes.Grown.refl hs p, hlast ▸ ha⟩
  | cons d ds ih =>
    obtain ⟨hpar, hv, hn, hds⟩ := hds
    rw [List.getLast_cons (by simp)] at hlast
    have hdp : d <+: p := hlast ▸ hds.prefix_last
    have hgrow := Nodes.Grown.insert hs hv (hpar ▸ ha) hn
    refine Safe.bind (R := fun _ s => s = s₀.insert d .dir) (createDir_rule fun s h => ?_)
      fun _ => ?_
    · subst h
      exact ⟨hv, hpar ▸ ha, hn, rfl, Nodes.Grown.refl hs p⟩
    · have hstep := ih hgrow.1 (by simp) (hds.insert (n := .dir) le_rfl) hlast
      exact hstep.conseq (fun _ h => h)
        (fun _ s h => ⟨(hgrow.of_prefix hdp).step h.1, h.2⟩)
        (fun s h => (hgrow.of_prefix hdp).step h)

/-- `createDirAll` makes what is missing, parents first. -/
theorem createDirAll_rule {s₀ : Nodes} (hs : s₀.Sound) {p : Path} (hv : p.isSystemPath = true)
    (hf : ∀ q, q <+: p → s₀.NotFile q) :
    Safe F (fun s => s = s₀) (createDirAll p)
      (fun _ s => Nodes.Grown p s₀ s ∧ s[p]? = some .dir) (Nodes.Grown p s₀) := by
  have hacc : Linked s₀ p [] := trivial
  refine Safe.bind (missing_rule hs hf (fun _ => hv) hacc rfl) fun ds => ?_
  refine Triple.of_each ?_
  rintro s ⟨rfl, b, hb, hds, hlast⟩
  exact createDirs_rule hs hb hds hlast

/-! ## Removing a tree -/

theorem removeTreeTo_rule (depth : Nat) {s₀ : Nodes} (hs : s₀.Sound) {p : Path}
    (hv : p.isSystemPath = true)
    (hd : ∀ q : Path, s₀[q]?.isSome = true → p <+: q → q.length < p.length + depth)
    (h0 : 0 < depth) :
    Safe F (fun s => s = s₀) (removeTreeTo depth p)
      (fun _ s => Nodes.Shrunk p s₀ s ∧ ∀ q : Path, p <+: q → s[q]? = none)
      (Nodes.Shrunk p s₀) := by
  induction depth generalizing s₀ p with
  | zero => omega
  | succ depth ih =>
    have hp0 : p ≠ [] := (Path.isSystemPath_iff.1 hv).1
    refine Safe.bind (R := fun k s => s = s₀ ∧ k = s₀[p]?.map Node.kind)
      (stat_rule fun s h => ?_) fun k => ?_
    · subst h; exact ⟨hv, rfl, rfl⟩
    refine Triple.of_each ?_
    rintro s ⟨rfl, rfl⟩
    rcases hk : s[p]? with _ | c | _
    · -- Nothing there, so nothing below it either.
      refine Safe.ret fun t h => ?_
      subst h
      refine ⟨Nodes.Shrunk.refl hs p, fun q hq => ?_⟩
      by_cases hpq : p = q
      · rw [← hpq]; exact hk
      · exact hs.below (by rw [hk]; simp) hq hpq
    · have hnd : s.NotDir p := by rw [Nodes.NotDir, hk]; simp
      refine removeFile_there fun t h => ?_
      subst h
      refine ⟨hv, ⟨c, hk⟩, ⟨⟨hs.eraseFile hnd, fun q hq => ?_, fun q => ?_⟩, fun q hq => ?_⟩,
        Nodes.Shrunk.refl hs p⟩
      · rw [Nodes.lookup_erase, if_neg]
        rintro rfl
        exact hq (List.prefix_refl _)
      · rw [Nodes.lookup_erase]
        split
        · exact .inr rfl
        · exact .inl rfl
      · rw [Nodes.lookup_erase]
        split
        · rfl
        · next hpq => exact hs.below hnd hq hpq
    · refine Safe.bind (R := fun names t => t = s ∧ names = s.children p)
        (list_rule fun t h => ?_) fun names => ?_
      · subst h; exact ⟨hv, hk, rfl, rfl⟩
      refine Triple.of_each ?_
      rintro t ⟨rfl, rfl⟩
      -- Behind the loop, everything under the names done is gone, and `p` is still there.
      refine Safe.bind (R := fun _ s => Nodes.Shrunk p t s ∧ s[p]? = some .dir ∧
          ∀ name ∈ t.children p, ∀ q : Path, p.join name <+: q → s[q]? = none)
        (Triple.pre (Safe.forM (I := fun done s => Nodes.Shrunk p t s ∧ s[p]? = some .dir ∧
          ∀ name ∈ done, ∀ q : Path, p.join name <+: q → s[q]? = none) ?_) ?_) fun _ => ?_
      · rintro done name rest hxs
        refine Triple.of_each ?_
        rintro s₁ ⟨hsh, hdir, hdone⟩
        have hname : t[p.join name]?.isSome = true :=
          (Nodes.mem_children_iff).1 (by rw [hxs]; simp)
        have hlen : (p.join name).length = p.length + 1 := by simp [Path.join]
        have hdeep := hd (p.join name) hname (List.prefix_append _ _)
        refine (ih hsh.1 (hs.valid _ (Path.join_ne_nil p name) hname) (fun q hq hpq => ?_)
          (by omega)).conseq (fun _ h => h) (fun _ s₂ h => ?_) (fun s₂ h => ?_)
        · have hq' : t[q]?.isSome = true := by
            rcases hsh.2.2 q with h | h
            · rw [← h]; exact hq
            · rw [h] at hq; cases hq
          have := hd q hq' ((List.prefix_append p [name]).trans hpq)
          omega
        · refine ⟨hsh.trans h.1 (List.prefix_append _ _), ?_, fun name' hn' q hq => ?_⟩
          · rw [h.1.2.1 p, hdir]
            intro hp
            have := hp.length_le
            omega
          · rcases List.mem_append.1 hn' with hn' | hn'
            · exact h.1.none (hdone name' hn' q hq)
            · rw [List.mem_singleton] at hn'
              subst hn'
              exact h.2 q hq
        · exact hsh.trans h (List.prefix_append _ _)
      · rintro s rfl
        exact ⟨Nodes.Shrunk.refl hs p, hk, by simp⟩
      · refine removeDir_there fun s₁ h => ?_
        obtain ⟨hsh, hdir, hdone⟩ := h
        have hnone : ∀ q : Path, p <+: q → p ≠ q → s₁[q]? = none := by
          intro q hq hne
          obtain ⟨r, rfl⟩ := hq
          cases r with
          | nil => simp at hne
          | cons name r =>
            by_contra hq
            have hq := Option.isSome_iff_ne_none.2 hq
            have hmem : p.join name <+: p ++ name :: r := ⟨r, by simp [Path.join]⟩
            have hjoin : s₁[p.join name]?.isSome = true := by
              by_cases he : p.join name = p ++ name :: r
              · rw [he]; exact hq
              · rw [hsh.1.above hq hmem he]; rfl
            have hin : name ∈ t.children p := by
              rw [Nodes.mem_children_iff]
              rcases hsh.2.2 (p.join name) with h | h
              · rw [← h]; exact hjoin
              · rw [h] at hjoin; cases hjoin
            rw [hdone name hin _ (List.prefix_refl _)] at hjoin
            cases hjoin
        have hch : s₁.hasChildren p = false := by
          rw [← Bool.not_eq_true, Nodes.hasChildren_iff]
          rintro ⟨k, hk, hpk, hne⟩
          rw [hnone k hpk fun h => hne h.symm] at hk
          cases hk
        refine ⟨hv, hdir, hch, ⟨⟨hsh.1.erase hp0 hch, fun q hq => ?_, fun q => ?_⟩,
          fun q hq => ?_⟩, hsh⟩
        · rw [Nodes.lookup_erase, if_neg, hsh.2.1 q hq]
          rintro rfl
          exact hq (List.prefix_refl _)
        · rw [Nodes.lookup_erase]
          split
          · exact .inr rfl
          · exact hsh.2.2 q
        · rw [Nodes.lookup_erase]
          split
          · rfl
          · next hpq => exact hnone q hq hpq

/-- `removeTree` removes entries under `p` one by one and leaves none. -/
theorem removeTree_rule {s₀ : Nodes} (hs : s₀.Sound) {p : Path} (hv : p.isSystemPath = true) :
    Safe F (fun s => s = s₀) (removeTree p)
      (fun _ s => Nodes.Shrunk p s₀ s ∧ ∀ q : Path, p <+: q → s[q]? = none)
      (Nodes.Shrunk p s₀) :=
  removeTreeTo_rule 1025 hs hv (fun q hq _ => by
    have := hs.lookup_length hq
    omega) (by omega)

end Fs

end NanoChrono.Ncpkg
