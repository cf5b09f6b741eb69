import Mathlib.Data.List.Perm.Subperm
import Mathlib.Tactic

/-! # Walks that mark where they have been

A walk of a graph whose nodes hold items: at a node that is not marked yet it marks it, reports its items one by one, and
after an item that leads on walks the node it leads to. Whoever is told of the items may end the walk. Whatever the graph,
the walk ends (`visit_ends`), enters no node twice and reports no more than the items of the nodes it entered, once each;
and a walk that was not ended has reported all of them, and entered what they lead to (`visit_walked`). -/

namespace NanoChrono.Graph

/-! ## The walk -/

variable {α ι σ M : Type}

/-- Nodes with their items, and where an item leads. -/
structure Items (α ι : Type) where
  items : α → List ι
  next : ι → Option α

/-- A set of marked nodes, however it is kept. -/
structure Marks (M α : Type) where
  test : M → α → Bool
  mark : M → α → M
  law : ∀ m a b, test (mark m a) b = true ↔ b = a ∨ test m b = true

/-- A walk so far: the marks, the nodes entered, the items reported, and whatever is told of them. -/
structure Visit (M α ι σ : Type) where
  marks : M
  entered : List α
  reported : List ι
  state : σ

/-- Whether the walk goes on, and where it stands; nothing if it did not come to an end. -/
abbrev Result (M α ι σ : Type) := Option (Bool × Visit M α ι σ)

/-- One after the other, until one ends the walk. -/
@[grind =] def each {β : Type} (f : β → Visit M α ι σ → Result M α ι σ) : List β → Visit M α ι σ → Result M α ι σ
  | [], v => some (true, v)
  | b :: bs, v =>
    match f b v with
    | none => none
    | some (false, v) => some (false, v)
    | some (true, v) => each f bs v

def Visit.enter (k : Marks M α) (v : Visit M α ι σ) (a : α) : Visit M α ι σ :=
  { v with marks := k.mark v.marks a, entered := v.entered ++ [a] }

/-- Reports an item. -/
def Visit.report (found : ι → σ → Bool × σ) (v : Visit M α ι σ) (i : ι) : Bool × Visit M α ι σ :=
  ((found i v.state).1, { v with reported := v.reported ++ [i], state := (found i v.state).2 })

/-- Reports an item, and follows it if it leads on. -/
def follow (g : Items α ι) (found : ι → σ → Bool × σ) (descend : α → Visit M α ι σ → Result M α ι σ) (i : ι)
    (v : Visit M α ι σ) : Result M α ι σ :=
  match v.report found i with
  | (false, v) => some (false, v)
  | (true, v) =>
    match g.next i with
    | none => some (true, v)
    | some b => descend b v

/-- The walk from a node, to a depth. -/
@[grind =]
def visit (g : Items α ι) (k : Marks M α) (found : ι → σ → Bool × σ) : Nat → α → Visit M α ι σ → Result M α ι σ
  | 0, _, _ => none
  | depth + 1, a, v =>
    if k.test v.marks a then some (true, v)
    else each (follow g found (visit g k found depth)) (g.items a) (v.enter k a)

/-- Two lists, one within the other. -/
theorem each_flatMap {β γ : Type} (f : β → Visit M α ι σ → Result M α ι σ) (parts : γ → List β) (cs : List γ)
    (v : Visit M α ι σ) : each f (cs.flatMap parts) v = each (fun c => each f (parts c)) cs v := by
  have happend : ∀ (l₁ l₂ : List β) (v : Visit M α ι σ), each f (l₁ ++ l₂) v =
      match each f l₁ v with
      | none => none
      | some (false, v) => some (false, v)
      | some (true, v) => each f l₂ v := by
    intro l₁ l₂
    induction l₁ with
    | nil => exact fun v => rfl
    | cons b bs ih =>
      intro v
      rw [List.cons_append, each, each]
      cases f b v with
      | none => rfl
      | some r =>
        obtain ⟨go, v⟩ := r
        cases go with
        | false => rfl
        | true => exact ih v
  induction cs generalizing v with
  | nil => rfl
  | cons c cs ih =>
    rw [List.flatMap_cons, happend, each]
    cases each f (parts c) v with
    | none => rfl
    | some r =>
      obtain ⟨go, v⟩ := r
      cases go with
      | false => rfl
      | true => exact ih v

/-- The steps that come to nothing left out. -/
theorem each_filterMap {β γ : Type} (f : β → Visit M α ι σ → Result M α ι σ) (part : γ → Option β) (cs : List γ)
    (v : Visit M α ι σ) : each f (cs.filterMap part) v =
      each (fun c v => (part c).elim (some (true, v)) fun b => f b v) cs v := by
  induction cs generalizing v with
  | nil => rfl
  | cons c cs ih =>
    rw [each]
    cases hpart : part c with
    | none =>
      rw [List.filterMap_cons_none hpart]
      exact ih v
    | some b =>
      rw [List.filterMap_cons_some hpart, each, Option.elim_some]
      cases f b v with
      | none => rfl
      | some r =>
        obtain ⟨go, v⟩ := r
        cases go with
        | false => rfl
        | true => exact ih v

/-! ## What a walk does -/

variable {g : Items α ι} {k : Marks M α} {found : ι → σ → Bool × σ}

/-- A walk on from `v`, of some items and the nodes that it enters. -/
structure Walked (g : Items α ι) (k : Marks M α) (own : List ι) (v : Visit M α ι σ) (done : Bool) (v' : Visit M α ι σ)
    (order : List α) (new : List ι) : Prop where
  entered : v'.entered = v.entered ++ order
  reported : v'.reported = v.reported ++ new
  marks : ∀ b, k.test v'.marks b = true ↔ b ∈ order ∨ k.test v.marks b = true
  fresh : ∀ b ∈ order, k.test v.marks b = false
  nodup : order.Nodup
  once : new.Subperm (own ++ order.flatMap g.items)
  all : done = true → (own ++ order.flatMap g.items).Subperm new ∧ ∀ i ∈ new, ∀ b, g.next i = some b →
    k.test v'.marks b = true

theorem Walked.start (v : Visit M α ι σ) : Walked g k [] v true v [] [] where
  entered := (List.append_nil _).symm
  reported := (List.append_nil _).symm
  marks _ := ⟨.inr, fun h => h.resolve_left List.not_mem_nil⟩
  fresh _ h := absurd h List.not_mem_nil
  nodup := List.nodup_nil
  once := List.Subperm.refl _
  all _ := ⟨List.Subperm.refl _, fun _ h => absurd h List.not_mem_nil⟩

/-- A walk after a walk that was not ended. -/
theorem Walked.append {own₁ own₂ : List ι} {v v₁ v₂ : Visit M α ι σ} {done : Bool} {order₁ order₂ : List α}
    {new₁ new₂ : List ι} (h₁ : Walked g k own₁ v true v₁ order₁ new₁) (h₂ : Walked g k own₂ v₁ done v₂ order₂ new₂) :
    Walked g k (own₁ ++ own₂) v done v₂ (order₁ ++ order₂) (new₁ ++ new₂) where
  entered := by rw [h₂.entered, h₁.entered, List.append_assoc]
  reported := by rw [h₂.reported, h₁.reported, List.append_assoc]
  marks b := by
    rw [h₂.marks, h₁.marks, List.mem_append]
    tauto
  fresh b hb := by
    rcases List.mem_append.1 hb with hb | hb
    · exact h₁.fresh b hb
    · have hclear := h₂.fresh b hb
      by_contra hset
      rw [(h₁.marks b).2 (.inr (by simpa using hset))] at hclear
      cases hclear
  nodup := by
    refine List.nodup_append'.2 ⟨h₁.nodup, h₂.nodup, fun b hb₁ hb₂ => ?_⟩
    have hclear := h₂.fresh b hb₂
    rw [(h₁.marks b).2 (.inl hb₁)] at hclear
    cases hclear
  once := by
    have hperm : ((own₁ ++ order₁.flatMap g.items) ++ (own₂ ++ order₂.flatMap g.items)).Perm
        ((own₁ ++ own₂) ++ (order₁ ++ order₂).flatMap g.items) := by
      rw [List.flatMap_append, List.append_assoc, List.append_assoc]
      exact List.Perm.append_left own₁ (List.perm_append_comm_assoc _ _ _)
    exact (h₁.once.append h₂.once).trans hperm.subperm
  all hdone := by
    obtain ⟨hall₁, hnext₁⟩ := h₁.all rfl
    obtain ⟨hall₂, hnext₂⟩ := h₂.all hdone
    have hperm : ((own₁ ++ own₂) ++ (order₁ ++ order₂).flatMap g.items).Perm
        ((own₁ ++ order₁.flatMap g.items) ++ (own₂ ++ order₂.flatMap g.items)) := by
      rw [List.flatMap_append, List.append_assoc, List.append_assoc]
      exact List.Perm.append_left own₁ (List.perm_append_comm_assoc _ _ _)
    refine ⟨hperm.subperm.trans (hall₁.append hall₂), fun i hi b hb => ?_⟩
    rcases List.mem_append.1 hi with hi | hi
    · exact (h₂.marks b).2 (.inr (hnext₁ i hi b hb))
    · exact hnext₂ i hi b hb

/-- A walk that was ended leaves the rest out. -/
theorem Walked.ended {own : List ι} (rest : List ι) {v v' : Visit M α ι σ} {order : List α} {new : List ι}
    (h : Walked g k own v false v' order new) : Walked g k (own ++ rest) v false v' order new where
  entered := h.entered
  reported := h.reported
  marks := h.marks
  fresh := h.fresh
  nodup := h.nodup
  once := by
    refine h.once.trans (List.Subperm.append ?_ (List.Subperm.refl _))
    exact (List.sublist_append_left own rest).subperm
  all hdone := absurd hdone Bool.false_ne_true

/-- One item reported. -/
theorem Walked.report (v : Visit M α ι σ) (i : ι) (done : Bool) (hnext : done = true → g.next i = none) :
    Walked g k [i] v done (v.report found i).2 [] [i] where
  entered := (List.append_nil _).symm
  reported := rfl
  marks _ := ⟨.inr, fun h => h.resolve_left List.not_mem_nil⟩
  fresh _ h := absurd h List.not_mem_nil
  nodup := List.nodup_nil
  once := List.Subperm.refl _
  all hdone := by
    refine ⟨List.Subperm.refl _, fun j hj b hb => ?_⟩
    rw [List.mem_singleton.1 hj, hnext hdone] at hb
    cases hb

/-- What each of some steps does, all of them do. -/
theorem each_walked {f : ι → Visit M α ι σ → Result M α ι σ} {l : List ι}
    (hf : ∀ i v done v', f i v = some (done, v') → ∃ order new, Walked g k [i] v done v' order new)
    {v v' : Visit M α ι σ} {done : Bool} (h : each f l v = some (done, v')) :
    ∃ order new, Walked g k l v done v' order new := by
  induction l generalizing v with
  | nil =>
    obtain ⟨rfl, rfl⟩ := Prod.mk.inj (Option.some.inj h)
    exact ⟨[], [], .start v⟩
  | cons i l ih =>
    rw [each] at h
    cases hstep : f i v with
    | none =>
      rw [hstep] at h
      cases h
    | some r =>
      obtain ⟨go, v₁⟩ := r
      rw [hstep] at h
      obtain ⟨order₁, new₁, hwalk⟩ := hf i v go v₁ hstep
      cases go with
      | false =>
        obtain ⟨rfl, rfl⟩ := Prod.mk.inj (Option.some.inj h)
        exact ⟨order₁, new₁, hwalk.ended l⟩
      | true =>
        obtain ⟨order₂, new₂, hrest⟩ := ih h
        exact ⟨order₁ ++ order₂, new₁ ++ new₂, hwalk.append hrest⟩

/-- The walk enters nodes that were not marked, no node twice, and reports no more than their items. -/
theorem visit_walked {depth : Nat} {a : α} {v v' : Visit M α ι σ} {done : Bool}
    (h : visit g k found depth a v = some (done, v')) :
    k.test v'.marks a = true ∧ ∃ order new, Walked g k [] v done v' order new := by
  induction depth generalizing a v v' done with
  | zero => cases h
  | succ depth ih =>
    rw [visit] at h
    split at h
    next hmarked =>
      obtain ⟨rfl, rfl⟩ := Prod.mk.inj (Option.some.inj h)
      exact ⟨hmarked, [], [], .start v⟩
    next hclear =>
      have hfollow : ∀ i v done v', follow g found (visit g k found depth) i v = some (done, v') →
          ∃ order new, Walked g k [i] v done v' order new := by
        intro i v done v' hstep
        rw [follow] at hstep
        have hreport : ∀ done, (done = true → g.next i = none) →
            Walked g k [i] v done (v.report found i).2 [] [i] := fun done hnext => .report v i done hnext
        generalize v.report found i = r at hstep hreport
        obtain ⟨go, v₁⟩ := r
        cases go with
        | false =>
          obtain ⟨rfl, rfl⟩ := Prod.mk.inj (Option.some.inj hstep)
          exact ⟨[], [i], hreport false fun h => absurd h Bool.false_ne_true⟩
        | true =>
          dsimp only at hstep
          cases hnext : g.next i with
          | none =>
            rw [hnext] at hstep
            obtain ⟨rfl, rfl⟩ := Prod.mk.inj (Option.some.inj hstep)
            exact ⟨[], [i], hreport true fun _ => hnext⟩
          | some b =>
            rw [hnext] at hstep
            obtain ⟨hb, order, new, hwalk⟩ := ih hstep
            have hitem := hreport false fun h => absurd h Bool.false_ne_true
            refine ⟨order, [i] ++ new, ?_⟩
            -- The item's node is entered after the item is reported.
            exact {
              entered := by rw [hwalk.entered, hitem.entered, List.append_assoc, List.nil_append]
              reported := by rw [hwalk.reported, hitem.reported, List.append_assoc]
              marks := fun b => by rw [hwalk.marks, hitem.marks]; simp
              fresh := fun b hb => by
                by_contra hset
                have hclear := hwalk.fresh b hb
                rw [(hitem.marks b).2 (.inr (by simpa using hset))] at hclear
                cases hclear
              nodup := hwalk.nodup
              once := (List.Subperm.refl [i]).append (by simpa using hwalk.once)
              all := fun hdone => by
                obtain ⟨hall, hnexts⟩ := hwalk.all hdone
                refine ⟨(List.Subperm.refl [i]).append (by simpa using hall), fun j hj c hc => ?_⟩
                rcases List.mem_append.1 hj with hj | hj
                · rw [List.mem_singleton.1 hj, hnext] at hc
                  obtain rfl := Option.some.inj hc
                  exact hb
                · exact hnexts j hj c hc }
      obtain ⟨order, new, hwalk⟩ := each_walked hfollow h
      have ha : k.test (v.enter k a).marks a = true := (k.law _ _ _).2 (.inl rfl)
      refine ⟨(hwalk.marks a).2 (.inr ha), a :: order, new, ?_⟩
      exact {
        entered := by rw [hwalk.entered, Visit.enter, List.append_assoc, List.singleton_append]
        reported := hwalk.reported
        marks := fun b => by
          rw [hwalk.marks, List.mem_cons]
          change _ ∨ k.test (k.mark v.marks a) b = true ↔ _
          rw [k.law]
          tauto
        fresh := fun b hb => by
          rcases List.mem_cons.1 hb with rfl | hb
          · simpa using hclear
          · by_contra hset
            have hclear := hwalk.fresh b hb
            rw [show k.test (v.enter k a).marks b = true from (k.law _ _ _).2 (.inr (by simpa using hset))] at hclear
            cases hclear
        nodup := by
          refine List.nodup_cons.2 ⟨fun hmem => ?_, hwalk.nodup⟩
          rw [hwalk.fresh a hmem] at ha
          cases ha
        once := by simpa using hwalk.once
        all := fun hdone => by simpa using hwalk.all hdone }

/-! ## The walk ends -/

/-- How many nodes are not marked. -/
def clear (k : Marks M α) (nodes : List α) (m : M) : Nat := nodes.countP fun a => !k.test m a

theorem clear_le {nodes : List α} {m m' : M} (h : ∀ b, k.test m b = true → k.test m' b = true) :
    clear k nodes m' ≤ clear k nodes m := by
  refine List.countP_mono_left fun b _ hb => ?_
  rw [Bool.not_eq_true'] at hb ⊢
  by_contra hset
  rw [h b (by simpa using hset)] at hb
  cases hb

theorem clear_mark {nodes : List α} {m : M} {a : α} (ha : a ∈ nodes) (hclear : k.test m a = false) :
    clear k nodes (k.mark m a) < clear k nodes m := by
  induction nodes with
  | nil => exact absurd ha List.not_mem_nil
  | cons b nodes ih =>
    have hgrows : ∀ c, k.test m c = true → k.test (k.mark m a) c = true := fun c hc => (k.law _ _ _).2 (.inr hc)
    have hle := @clear_le α M k nodes m (k.mark m a) hgrows
    rw [clear, clear, List.countP_cons, List.countP_cons]
    rw [clear, clear] at hle
    by_cases hab : a = b
    · subst hab
      rw [hclear, (k.law _ _ _).2 (.inl rfl)]
      simp
      omega
    · have hlt := ih ((List.mem_cons.1 ha).resolve_left hab)
      rw [clear, clear] at hlt
      cases hb : k.test m b with
      | false =>
        split <;> simp_all
      | true =>
        rw [hgrows b hb]
        simpa using hlt

/-- To a depth of more than the nodes that are not marked the walk comes to an end. -/
theorem visit_ends {nodes : List α} (hnodes : ∀ a, a ∈ nodes) {depth : Nat} (a : α) (v : Visit M α ι σ)
    (hdepth : clear k nodes v.marks < depth) : ∃ r, visit g k found depth a v = some r := by
  induction depth generalizing a v with
  | zero => exact absurd hdepth (Nat.not_lt_zero _)
  | succ depth ih =>
    rw [visit]
    split
    · exact ⟨_, rfl⟩
    next hclear =>
      have hless : clear k nodes (v.enter k a).marks < depth := by
        have hlt := clear_mark (hnodes a) (by simpa using hclear)
        exact Nat.lt_of_lt_of_le hlt (Nat.lt_succ_iff.1 hdepth)
      generalize v.enter k a = v₁ at hless
      generalize g.items a = l
      induction l generalizing v₁ with
      | nil => exact ⟨_, rfl⟩
      | cons i l ihl =>
        rw [each, follow]
        have hmarks : (v₁.report found i).2.marks = v₁.marks := rfl
        generalize v₁.report found i = r at hmarks
        obtain ⟨go, v₂⟩ := r
        cases go with
        | false => exact ⟨_, rfl⟩
        | true =>
          dsimp only at hmarks ⊢
          cases g.next i with
          | none => exact ihl v₂ (hmarks ▸ hless)
          | some b =>
            obtain ⟨⟨done, v₃⟩, hr⟩ := ih b v₂ (hmarks ▸ hless)
            dsimp only
            rw [hr]
            cases done with
            | false => exact ⟨_, rfl⟩
            | true =>
              obtain ⟨-, order, new, hwalk⟩ := visit_walked hr
              refine ihl v₃ (Nat.lt_of_le_of_lt (clear_le fun c hc => ?_) (hmarks ▸ hless))
              exact (hwalk.marks c).2 (.inr hc)

/-- A walk that no one ends goes on to its end. -/
theorem visit_done (hfound : ∀ i s, (found i s).1 = true) {depth : Nat} {a : α} {v v' : Visit M α ι σ} {done : Bool}
    (h : visit g k found depth a v = some (done, v')) : done = true := by
  induction depth generalizing a v v' done with
  | zero => cases h
  | succ depth ih =>
    rw [visit] at h
    split at h
    · exact (Prod.mk.inj (Option.some.inj h)).1.symm
    · generalize v.enter k a = v₁ at h
      generalize g.items a = l at h
      induction l generalizing v₁ with
      | nil => exact (Prod.mk.inj (Option.some.inj h)).1.symm
      | cons i l ihl =>
        rw [each, follow] at h
        have hgo : (v₁.report found i).1 = true := hfound i v₁.state
        generalize v₁.report found i = r at h hgo
        obtain ⟨go, v₂⟩ := r
        obtain rfl : go = true := hgo
        dsimp only at h
        cases hnext : g.next i with
        | none =>
          rw [hnext] at h
          exact ihl v₂ h
        | some b =>
          rw [hnext] at h
          dsimp only at h
          cases hr : visit g k found depth b v₂ with
          | none =>
            rw [hr] at h
            cases h
          | some r =>
            obtain ⟨go, v₃⟩ := r
            rw [hr] at h
            obtain rfl := ih hr
            exact ihl v₃ h

/-! ## The nodes that are reached -/

/-- Some steps from a node, each along an item of it. -/
inductive Reaches (g : Items α ι) (root : α) : α → Prop where
  | root : Reaches g root root
  | step {a b : α} {i : ι} (reached : Reaches g root a) (item : i ∈ g.items a) (next : g.next i = some b) :
      Reaches g root b

/-- A walk from a node with no marks that was not ended has entered and reported all that the node reaches. -/
theorem visit_reaches {depth : Nat} {root : α} {v v' : Visit M α ι σ} (hclear : ∀ b, k.test v.marks b = false)
    (h : visit g k found depth root v = some (true, v')) {a : α} (ha : Reaches g root a) :
    a ∈ v'.entered ∧ ∀ i ∈ g.items a, i ∈ v'.reported := by
  obtain ⟨hroot, order, new, hwalk⟩ := visit_walked h
  obtain ⟨hall, hnext⟩ := hwalk.all rfl
  rw [List.nil_append] at hall
  have horder : ∀ b, k.test v'.marks b = true → b ∈ order := by
    intro b hb
    refine ((hwalk.marks b).1 hb).resolve_right fun hset => ?_
    rw [hclear b] at hset
    cases hset
  have hreported : ∀ b ∈ order, ∀ i ∈ g.items b, i ∈ new := fun b hb i hi =>
    hall.subset (List.mem_flatMap.2 ⟨b, hb, hi⟩)
  have hmem : a ∈ order := by
    induction ha with
    | root => exact horder root hroot
    | step _ hitem hb ih => exact horder _ (hnext _ (hreported _ ih _ hitem) _ hb)
  refine ⟨?_, fun i hi => ?_⟩
  · rw [hwalk.entered]
    exact List.mem_append_right _ hmem
  · rw [hwalk.reported]
    exact List.mem_append_right _ (hreported a hmem i hi)

end NanoChrono.Graph
