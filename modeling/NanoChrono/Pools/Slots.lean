import Mathlib.Tactic

/-! # Tables of slots, and handles into them

A pool is a table of slots, each empty or holding an object; a handle is the address of a slot. A new object takes the
first empty slot, so that slots are taken again once they are empty. In a system of such pools no handle of an object
that has been given back is ever followed exactly if nothing is taken from a pool after something was given back to it:
the slots that are or were in use are the first ones of their pool until then (`Fresh`). -/

namespace NanoChrono.Pools

/-! ## Pools -/

/-- A table of slots. -/
abbrev Pool (α : Type) (N : Nat) := Vector (Option α) N

/-- Where a pool lies: the address of its first slot, and the size of each. -/
structure Place where
  base : Nat
  stride : Nat
  wide : 0 < stride

section

variable {α : Type} {N : Nat}

def Pool.empty (α : Type) (N : Nat) : Pool α N := Vector.replicate N none

/-- Whether a slot of a pool holds an object. -/
def used (pool : Pool α N) (i : Nat) : Bool := (pool[i]?.bind id).isSome

/-- The first slot that is empty. -/
def freeSlot (pool : Pool α N) : Option (Fin N) := (List.finRange N).find? fun i => pool[i].isNone

/-- The pool without the objects that have a property. -/
def clear (p : α → Bool) (pool : Pool α N) : Pool α N := pool.map fun slot => slot.filter fun x => !p x

def handleOf (place : Place) (i : Nat) : Nat := place.base + i * place.stride

/-- A slot that is in use. -/
def slotAt (pool : Pool α N) (i : Nat) : Option (Fin N) :=
  if hi : i < N then if pool[i].isSome then some ⟨i, hi⟩ else none else none

/-- The slot that a handle names, when it is exactly one of the pool's that is in use. -/
def indexOf (place : Place) (pool : Pool α N) (h : Nat) : Option (Fin N) :=
  if h < place.base ∨ h ≥ place.base + place.stride * N ∨ (h - place.base) % place.stride ≠ 0 then none
  else slotAt pool ((h - place.base) / place.stride)

/-- The object that a handle names, and its slot. -/
def lookup (place : Place) (pool : Pool α N) (h : Nat) : Option (Fin N × α) :=
  (indexOf place pool h).bind fun i => pool[i].map fun x => (i, x)

variable {pool : Pool α N}

theorem used_fin (pool : Pool α N) (i : Fin N) : used pool i.val = pool[i].isSome := by
  rw [used, Vector.getElem?_eq_getElem i.isLt]
  rfl

theorem used_lt {i : Nat} (h : used pool i = true) : i < N := by
  by_contra hout
  rw [used, Vector.getElem?_eq_none (Nat.le_of_not_lt hout)] at h
  cases h

theorem used_set (i : Fin N) (x : Option α) (j : Nat) :
    used (pool.set i x) j = if j = i.val then x.isSome else used pool j := by
  unfold used
  rw [Vector.getElem?_set]
  by_cases hij : j = i.val
  · rw [if_pos hij.symm, if_pos hij]
    rfl
  · rw [if_neg (Ne.symm hij), if_neg hij]

theorem used_empty (i : Nat) : used (Pool.empty α N) i = false := by
  unfold used Pool.empty
  rw [Vector.getElem?_replicate]
  split
  · rfl
  · rfl

theorem used_clear {p : α → Bool} {i : Nat} (h : used (clear p pool) i = true) : used pool i = true := by
  unfold used clear at *
  rw [Vector.getElem?_map] at h
  rcases hslot : pool[i]? with _ | _ | x
  · rw [hslot] at h
    cases h
  · rw [hslot] at h
    cases h
  · rfl

theorem freeSlot_some {i : Fin N} (h : freeSlot pool = some i) :
    used pool i.val = false ∧ ∀ j < i.val, used pool j = true := by
  obtain ⟨hfree, hfirst⟩ := List.find?_eq_some_iff_getElem.mp h
  obtain ⟨k, hk, hki, hbefore⟩ := hfirst
  rw [List.getElem_finRange] at hki
  have hval : k = i.val := congrArg Fin.val hki
  refine ⟨?_, fun j hj => ?_⟩
  · rw [used_fin]
    simpa using hfree
  · have hlt : j < k := hval ▸ hj
    have hused := hbefore j hlt
    rw [List.getElem_finRange] at hused
    have hslot : used pool j = pool[(⟨j, Nat.lt_trans hj i.isLt⟩ : Fin N)].isSome := used_fin pool ⟨j, _⟩
    rw [hslot]
    simpa [Option.isSome_iff_ne_none] using hused

theorem slotAt_some {k : Nat} {i : Fin N} (h : slotAt pool k = some i) : k = i.val ∧ used pool i.val = true := by
  unfold slotAt at h
  split at h
  · split at h
    next hsome =>
      obtain rfl := Option.some.inj h
      exact ⟨rfl, (used_fin _ _).trans hsome⟩
    · cases h
  · cases h

theorem slotAt_none (i : Nat) : slotAt pool i = none ↔ used pool i = false := by
  unfold slotAt
  split
  next hi =>
    have hslot : used pool i = pool[(⟨i, hi⟩ : Fin N)].isSome := used_fin pool ⟨i, hi⟩
    rw [hslot, Fin.getElem_fin]
    cases pool[i].isSome <;> simp
  next hi =>
    refine iff_of_true rfl (Bool.eq_false_iff.mpr fun hused => hi (used_lt hused))

theorem indexOf_some {place : Place} {h : Nat} {i : Fin N} (hi : indexOf place pool h = some i) :
    h = handleOf place i.val ∧ used pool i.val = true := by
  unfold indexOf at hi
  split at hi
  · cases hi
  next hin =>
    obtain ⟨hdiv, hused⟩ := slotAt_some hi
    obtain ⟨hlo, -, hwhole⟩ : place.base ≤ h ∧ h < place.base + place.stride * N ∧
        (h - place.base) % place.stride = 0 := by omega
    have hmul := Nat.div_mul_cancel (Nat.dvd_of_mod_eq_zero hwhole)
    rw [hdiv] at hmul
    refine ⟨?_, hused⟩
    unfold handleOf
    omega

/-- The handle of a slot is followed exactly while the slot is in use. -/
theorem indexOf_handleOf (place : Place) (i : Nat) :
    indexOf place pool (handleOf place i) = none ↔ used pool i = false := by
  unfold indexOf handleOf
  rw [Nat.add_sub_cancel_left, Nat.mul_mod_left, Nat.mul_div_cancel i place.wide]
  by_cases hi : i < N
  · have hlt : i * place.stride < place.stride * N := by
      rw [Nat.mul_comm]
      exact (Nat.mul_lt_mul_left place.wide).mpr hi
    rw [if_neg (by omega)]
    exact slotAt_none i
  · have hle : place.stride * N ≤ i * place.stride := by
      rw [Nat.mul_comm i]
      exact Nat.mul_le_mul_left _ (Nat.le_of_not_lt hi)
    rw [if_pos (by omega)]
    exact iff_of_true rfl (Bool.eq_false_iff.mpr fun hused => hi (used_lt hused))

theorem lookup_some {place : Place} {h : Nat} {i : Fin N} {x : α} (hx : lookup place pool h = some (i, x)) :
    h = handleOf place i.val ∧ pool[i] = some x := by
  obtain ⟨j, hj, hmap⟩ := Option.bind_eq_some_iff.mp hx
  obtain ⟨y, hy, hpair⟩ := Option.map_eq_some_iff.mp hmap
  obtain ⟨rfl, rfl⟩ := Prod.mk.inj hpair
  exact ⟨(indexOf_some hj).1, hy⟩

theorem lookup_none {place : Place} {h : Nat} (hnone : indexOf place pool h = none) : lookup place pool h = none := by
  rw [lookup, hnone]
  rfl

theorem lookup_handleOf (place : Place) {i : Fin N} {x : α} (hx : pool[i] = some x) :
    lookup place pool (handleOf place i.val) = some (i, x) := by
  have hused : used pool i.val = true := by rw [used_fin, hx]; rfl
  obtain ⟨j, hj⟩ : ∃ j, indexOf place pool (handleOf place i.val) = some j := by
    refine Option.ne_none_iff_exists'.mp fun hnone => ?_
    rw [(indexOf_handleOf place i.val).mp hnone] at hused
    cases hused
  have hij : i = j := by
    have hval := (indexOf_some hj).1
    have hmul := Nat.add_left_cancel hval
    exact Fin.ext (Nat.eq_of_mul_eq_mul_right place.wide hmul)
  obtain rfl := hij
  rw [lookup, hj, Option.bind_some, hx]
  rfl

theorem lookup_used {place : Place} {h : Nat} {i : Fin N} {x : α} (hx : lookup place pool h = some (i, x)) :
    used pool i.val = true := by
  rw [used_fin, (lookup_some hx).2]
  rfl

end

/-! ## Effects on a pool -/

/-- What a step does to the slots in use: it takes the first empty one, or none. -/
inductive Effect (before after : Nat → Bool) : Prop
  | gives (h : ∀ i, after i = true → before i = true)
  | takes (i : Nat) (hfree : before i = false) (hfirst : ∀ j < i, before j = true)
      (h : ∀ j, after j = true ↔ j = i ∨ before j = true)

theorem Effect.refl (before : Nat → Bool) : Effect before before := .gives fun _ h => h

section

variable {α : Type} {N : Nat} {pool : Pool α N}

theorem Effect.take {i : Fin N} (h : freeSlot pool = some i) (x : α) : Effect (used pool) (used (pool.set i (some x))) := by
  obtain ⟨hfree, hfirst⟩ := freeSlot_some h
  refine .takes i.val hfree hfirst fun j => ?_
  rw [used_set]
  by_cases hj : j = i.val
  · simp [hj]
  · simp [hj]

/-- An object is changed in its slot, or given back. -/
theorem Effect.change {i : Fin N} (h : used pool i.val = true) (x : Option α) :
    Effect (used pool) (used (pool.set i x)) := by
  refine .gives fun j hj => ?_
  rw [used_set] at hj
  split at hj
  next hji => exact hji ▸ h
  · exact hj

theorem Effect.give (i : Fin N) : Effect (used pool) (used (pool.set i none)) := by
  refine .gives fun j hj => ?_
  rw [used_set] at hj
  split at hj
  · cases hj
  · exact hj

theorem Effect.clear (p : α → Bool) : Effect (used pool) (used (clear p pool)) := .gives fun _ => used_clear

/-- The objects of a pool that have a property came on top of what was there. -/
def Adds {α : Type} {N : Nat} (own : α → Bool) (before after : Pool α N) : Prop :=
  ∀ i : Fin N, (after[i] = before[i] ∧ ∀ x, after[i] = some x → own x = false) ∨
    (before[i] = none ∧ ∃ x, after[i] = some x ∧ own x = true)

/-- An empty entry that was filled is emptied again. -/
theorem set_back {α : Type} {N : Nat} {pool after : Pool α N} {i : Fin N} (hfree : freeSlot pool = some i)
    (hafter : ∀ j : Fin N, j ≠ i → after[j] = pool[j]) : after.set i none = pool := by
  have hnone : pool[i] = none := by
    have hused := (freeSlot_some hfree).1
    rw [used_fin] at hused
    exact Option.not_isSome_iff_eq_none.mp (Bool.eq_false_iff.mp hused)
  refine Vector.ext fun j hj => ?_
  by_cases hij : i.val = j
  · subst hij
    exact (Vector.getElem_set_self ..).trans hnone.symm
  · rw [Vector.getElem_set_ne i.isLt hj hij]
    exact hafter ⟨j, hj⟩ fun h => hij (congrArg Fin.val h).symm

/-- An entry that is filled in stays in use, and one that is empty stays empty. -/
theorem effect_map {α : Type} {N : Nat} {pool : Pool α N} (i : Fin N) (f : α → α) :
    Effect (used pool) (used (pool.set i (pool[i].map f))) := by
  cases hslot : pool[i] with
  | none => exact .give i
  | some x =>
    refine .change ?_ _
    rw [used_fin, hslot]
    rfl

theorem clear_some {α : Type} {N : Nat} {p : α → Bool} {pool : Pool α N} {i : Fin N} {x : α}
    (h : (clear p pool)[i] = some x) : pool[i] = some x := by
  unfold clear at h
  rw [Fin.getElem_fin, Vector.getElem_map] at h
  exact (Option.filter_eq_some_iff.mp h).1

end

/-! ## Slots that were in use -/

/-- The slots that are in use or were given back are the first ones, and what was given back is not in use. -/
structure Fresh (inUse : Nat → Bool) (stale : Set Nat) : Prop where
  first : ∃ k, ∀ i, inUse i = true ∨ i ∈ stale ↔ i < k
  refused : ∀ i ∈ stale, inUse i = false

/-- What a step gives back. -/
def given (before after : Nat → Bool) : Set Nat := {i | before i = true ∧ after i = false}

/-- A step that takes a slot. -/
def Takes (before after : Nat → Bool) : Prop := ∃ i, before i = false ∧ after i = true

theorem Effect.fresh {before after : Nat → Bool} {stale : Set Nat} (h : Effect before after)
    (hfresh : Fresh before stale) (hnew : Takes before after → stale = ∅) : Fresh after (stale ∪ given before after) := by
  obtain ⟨⟨k, hk⟩, hrefused⟩ := hfresh
  cases h with
  | gives h =>
    refine ⟨⟨k, fun i => ?_⟩, fun i hi => ?_⟩
    · rw [← hk]
      constructor
      · rintro (hafter | hstale | hgiven)
        · exact .inl (h i hafter)
        · exact .inr hstale
        · exact .inl hgiven.1
      · rintro (hbefore | hstale)
        · cases hafter : after i with
          | true => exact .inl rfl
          | false => exact .inr (.inr ⟨hbefore, hafter⟩)
        · exact .inr (.inl hstale)
    · rcases hi with hstale | hgiven
      · rw [Bool.eq_false_iff]
        exact fun hafter => Bool.false_ne_true ((hrefused i hstale).symm.trans (h i hafter))
      · exact hgiven.2
  | takes i hfree hfirst h =>
    obtain rfl := hnew ⟨i, hfree, (h i).mpr (.inl rfl)⟩
    have hi : i = k := by
      refine Nat.le_antisymm ?_ ?_
      · refine Nat.le_of_not_lt fun hlt => ?_
        exact Nat.lt_irrefl k ((hk k).mp (.inl (hfirst k hlt)))
      · refine Nat.le_of_not_lt fun hlt => ?_
        rcases (hk i).mpr hlt with hused | hstale
        · rw [hfree] at hused
          cases hused
        · exact hstale
    have hnone : given before after = ∅ := by
      refine Set.eq_empty_of_forall_notMem fun j hj => ?_
      have hafter := (h j).mpr (.inr hj.1)
      rw [hj.2] at hafter
      cases hafter
    rw [hnone, Set.union_empty]
    refine ⟨⟨k + 1, fun j => ?_⟩, fun j hj => (by cases hj)⟩
    have hbefore := hk j
    rw [h j]
    simp only [Set.mem_empty_iff_false, or_false] at hbefore ⊢
    rw [hbefore, hi]
    omega

/-- A slot that is taken after something was given back was in use before. -/
theorem Effect.reuses {before after : Nat → Bool} {stale : Set Nat} (h : Effect before after)
    (hfresh : Fresh before stale) (htakes : Takes before after) (hstale : stale.Nonempty) :
    ∃ i ∈ stale, after i = true := by
  obtain ⟨⟨k, hk⟩, hrefused⟩ := hfresh
  obtain ⟨j, hj⟩ := hstale
  cases h with
  | gives h =>
    obtain ⟨i, hbefore, hafter⟩ := htakes
    rw [h i hafter] at hbefore
    cases hbefore
  | takes i hfree hfirst h =>
    have hle : i ≤ j := by
      refine Nat.le_of_not_lt fun hlt => ?_
      have hused := hfirst j hlt
      rw [hrefused j hj] at hused
      cases hused
    have hmem : i ∈ stale := ((hk i).mpr (Nat.lt_of_le_of_lt hle ((hk j).mp (.inr hj)))).resolve_left
      (by rw [hfree]; exact Bool.false_ne_true)
    exact ⟨i, hmem, (h i).mpr (.inl rfl)⟩

/-- Pools that are empty. -/
theorem Fresh.none {inUse : Nat → Bool} (h : ∀ i, inUse i = false) : Fresh inUse ∅ where
  first := ⟨0, fun i => by simp [h i]⟩
  refused := fun i hi => (by cases hi)

/-! ## Runs -/

section

variable {σ κ ι : Type} (step : σ → κ → σ) (inUse : ι → σ → Nat → Bool)

/-- What has been given back to each pool, after a step. -/
def stale (back : ι → Set Nat) (s s' : σ) : ι → Set Nat := fun p => back p ∪ given (inUse p s) (inUse p s')

/-- In every state of a run. -/
def Always (good : (ι → Set Nat) → σ → Prop) : (ι → Set Nat) → σ → List κ → Prop
  | back, s, [] => good back s
  | back, s, c :: cs => good back s ∧ Always good (stale inUse back s (step s c)) (step s c) cs

/-- At every step of a run. -/
def Each (ok : (ι → Set Nat) → σ → κ → Prop) : (ι → Set Nat) → σ → List κ → Prop
  | _, _, [] => True
  | back, s, c :: cs => ok back s c ∧ Each ok (stale inUse back s (step s c)) (step s c) cs

/-- No slot is in use that was given back. -/
def Refused (back : ι → Set Nat) (s : σ) : Prop := ∀ p, ∀ i ∈ back p, inUse p s i = false

/-- A step takes no slot of a pool to which something was given back. -/
def NoReuse (back : ι → Set Nat) (s : σ) (c : κ) : Prop :=
  ∀ p, Takes (inUse p s) (inUse p (step s c)) → back p = ∅

variable {step inUse}

theorem Always.now {good : (ι → Set Nat) → σ → Prop} {back : ι → Set Nat} {s : σ} {cs : List κ}
    (h : Always step inUse good back s cs) : good back s := by
  cases cs with
  | nil => exact h
  | cons c cs => exact h.1

/-- What holds with an invariant, and after a step only if the step keeps the invariant, holds in every state of a run
exactly if every step keeps the invariant. -/
theorem always_iff_each {inv good : (ι → Set Nat) → σ → Prop} {ok : (ι → Set Nat) → σ → κ → Prop}
    (hgood : ∀ back s, inv back s → good back s)
    (hkeeps : ∀ back s c, inv back s → ok back s c → inv (stale inUse back s (step s c)) (step s c))
    (hbreaks : ∀ back s c, inv back s → good (stale inUse back s (step s c)) (step s c) → ok back s c) :
    ∀ (cs : List κ) {back : ι → Set Nat} {s : σ}, inv back s →
      (Always step inUse good back s cs ↔ Each step inUse ok back s cs)
  | [], back, s, hinv => ⟨fun _ => trivial, fun _ => hgood back s hinv⟩
  | c :: cs, back, s, hinv => by
    have hrest := fun hok => always_iff_each hgood hkeeps hbreaks cs (hkeeps back s c hinv hok)
    constructor
    · rintro ⟨-, h⟩
      have hok := hbreaks back s c hinv h.now
      exact ⟨hok, (hrest hok).mp h⟩
    · rintro ⟨hok, h⟩
      exact ⟨hgood back s hinv, (hrest hok).mpr h⟩

variable {back : ι → Set Nat} {s : σ} {c : κ}

theorem NoReuse.fresh (heffect : ∀ p, Effect (inUse p s) (inUse p (step s c)))
    (hfresh : ∀ p, Fresh (inUse p s) (back p)) (h : NoReuse step inUse back s c) (p : ι) :
    Fresh (inUse p (step s c)) (stale inUse back s (step s c) p) := (heffect p).fresh (hfresh p) (h p)

/-- After a step that takes a slot of a pool to which something was given back, a slot is in use again. -/
theorem Refused.noReuse (heffect : ∀ p, Effect (inUse p s) (inUse p (step s c)))
    (hfresh : ∀ p, Fresh (inUse p s) (back p)) (h : Refused inUse (stale inUse back s (step s c)) (step s c)) :
    NoReuse step inUse back s c := by
  intro p htakes
  by_contra hne
  obtain ⟨i, hi, hafter⟩ := (heffect p).reuses (hfresh p) htakes (Set.nonempty_iff_ne_empty.mpr hne)
  have hnow := h p i (.inl hi)
  rw [hafter] at hnow
  cases hnow

end

end NanoChrono.Pools
