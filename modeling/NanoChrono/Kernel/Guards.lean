import NanoChrono.Kernel.Edits

/-! # The kernel's map stays the kernel's

`Sound` is what the map has to be after every step: each address of the first gigabyte is mapped to
itself and writable by the kernel, the armed guards apart; ring 3 reaches what it was granted and
nothing else; and no table serves two pages. `run_sound` proves it of every order of arming and
granting in which no arming takes a spare table that is in use. -/

namespace NanoChrono.Kernel

open Paging

variable (p : Placement) (root : Nat)

/-! ## The claims on the map -/

/-- The 4 KiB page is an armed guard. -/
def OnGuard (s : State) (q : Nat) : Prop :=
  (s.guards = .armed ∧ ∃ g ∈ p.guardPages, q = g / 4096) ∨
    (s.verifyGuard = .armed ∧ q = p.verifyStack / 4096)

/-- The map as it has to be, for a boot map that left the pages `holes` out. -/
structure Sound (holes : Nat → Prop) (s : State) : Prop where
  /-- Addresses translate to themselves and stay writable by the kernel, a granted read-only region
  excepted. -/
  identity : ∀ a < 2 ^ 30, ¬ OnGuard p s (a / 4096) → ¬ holes (a / 4096) →
    ∃ m, walk s.tables root a = some m ∧ m.phys = a ∧
      (m.writable = true ∨ s.granted (a / LARGE) = some false)
  /-- Armed guards are not present. -/
  guarded : ∀ a < 2 ^ 30, OnGuard p s (a / 4096) → walk s.tables root a = none
  /-- Ring 3 reaches the granted regions only. -/
  closed : ∀ a < 2 ^ 48, ∀ m, walk s.tables root a = some m → m.user = true →
    a < 2 ^ 30 ∧ s.granted (a / LARGE) ≠ none
  /-- No table serves two pages. -/
  unshared : ∀ j < 512, ∀ k < 512, ∀ T, Refers root s.tables j T → Refers root s.tables k T → j = k

/-- A table in use in `s` serves no other page in `s'`. -/
def KeepsTables (s s' : State) : Prop :=
  ∀ j < 512, ∀ k < 512, ∀ T, Refers root s.tables j T → Refers root s'.tables k T → j = k

/-! ## Runs -/

/-- A boot map: every large page whole or a table of its own, nothing let in, and the spare tables
used for nothing. -/
structure BootMap (pdpt pd : Nat) (holes : Nat → Prop) (t : Tables) : Prop where
  shape : Shape p root pdpt pd holes (fun _ => none) t
  spare : ∀ k < 2, Free p pd t k

/-- The state at boot. -/
def start (t : Tables) : State := ⟨t, .notTried, .notTried, fun _ => none⟩

/-- Regions lie in the first gigabyte, in large pages that hold no guard. -/
def Step.Proper : Step → Prop
  | .mapRange base len _ _ => base + len ≤ 2 ^ 30 ∧
    (∀ g ∈ p.guardPages, ¬ Overlaps base len (g / LARGE)) ∧
      ¬ Overlaps base len (p.verifyStack / LARGE)
  | .armGuards | .onVerifyStack => True

/-- The large page `j` is still whole. -/
def IsWhole (t : Tables) (j : Nat) : Prop := (t (directory root t) j).Has HUGE

instance (t : Tables) (j : Nat) : Decidable (IsWhole root t j) :=
  inferInstanceAs (Decidable (Entry.Has _ _))

/-- How many spare tables the plugin stack's guards take: one for each large page that holds one of
them and is still whole. -/
def guardSpares (t : Tables) : Nat :=
  let low := p.pluginStack / LARGE
  let high := (p.pluginStack + 4096 + PLUGIN_STACK_LEN) / LARGE
  (if IsWhole root t low then 1 else 0) + (if high ≠ low ∧ IsWhole root t high then 1 else 0)

/-- No spare table the step would take is in use. -/
def Step.Clear (s : State) : Step → Prop
  | .armGuards => s.guards = .notTried →
    ∀ k < guardSpares p root s.tables, ¬ InUse root s.tables (p.guardTable k)
  | .onVerifyStack => s.verifyGuard = .notTried →
    IsWhole root s.tables (p.verifyStack / LARGE) → ¬ InUse root s.tables (p.guardTable 0)
  | .mapRange .. => True

/-- Every step of the run is clear where it is taken. -/
def AllClear (s : State) : List Step → Prop
  | [] => True
  | st :: rest => st.Clear p root s ∧ AllClear (step p root s st) rest

/-! ## The invariant -/

variable {p root} {pdpt pd : Nat} {holes : Nat → Prop} {s : State}

/-- What every step keeps. -/
structure Inv (p : Placement) (root pdpt pd : Nat) (holes : Nat → Prop) (s : State) : Prop where
  shape : Shape p root pdpt pd (fun q => holes q ∨ OnGuard p s q) s.granted s.tables
  guards : ∀ g ∈ p.guardPages, s.granted (g / LARGE) = none
  verify : s.granted (p.verifyStack / LARGE) = none

/-- The invariant is all the claims ask for. -/
theorem Inv.sound (h : Inv p root pdpt pd holes s) : Sound p root holes s := by
  refine ⟨?_, ?_, ?_, ?_⟩
  · intro a ha hguard hhole
    obtain ⟨m, hm, hphys, hwritable, -⟩ := h.shape.walk_low ha (not_or.2 ⟨hhole, hguard⟩)
    exact ⟨m, hm, hphys, hwritable⟩
  · intro a ha hguard
    exact h.shape.walk_gone ha (.inr hguard)
  · intro a ha m hm huser
    have hlow : a < 2 ^ 30 := by
      by_contra hhigh
      have := h.shape.spine.walk_high ha (by omega) hm
      rw [this] at huser
      exact Bool.noConfusion huser
    refine ⟨hlow, ?_⟩
    by_cases hgone : holes (a / 4096) ∨ OnGuard p s (a / 4096)
    · rw [h.shape.walk_gone hlow hgone] at hm
      cases hm
    · obtain ⟨m', hm', -, -, hgranted⟩ := h.shape.walk_low hlow hgone
      rw [hm'] at hm
      exact hgranted (Option.some.inj hm ▸ huser)
  · intro j hj k hk T hT hT'
    rw [Refers, h.shape.spine.directory_eq] at hT hT'
    exact h.shape.sole j hj k hk hT.1 hT'.1 (hT.2.trans hT'.2.symm)

/-- A table that is free is not in use. -/
theorem Inv.unused (h : Inv p root pdpt pd holes s) {k : Nat} (hk : Free p pd s.tables k) :
    ¬ InUse root s.tables (p.guardTable k) := by
  rintro ⟨j, hj, hsmall, hpage⟩
  rw [h.shape.spine.directory_eq] at hsmall hpage
  exact hk j hj hsmall hpage

/-- What is not in use is free. -/
theorem Inv.free (h : Inv p root pdpt pd holes s) {k : Nat}
    (hk : ¬ InUse root s.tables (p.guardTable k)) : Free p pd s.tables k := by
  intro j hj hsmall hpage
  refine hk ⟨j, hj, ?_⟩
  rw [Refers, h.shape.spine.directory_eq]
  exact ⟨hsmall, hpage⟩

theorem BootMap.inv {t : Tables} (h : BootMap p root pdpt pd holes t) :
    Inv p root pdpt pd holes (start t) := by
  have hgone : (fun q => holes q ∨ OnGuard p (start t) q) = holes := by
    funext q
    simp [OnGuard, start]
  refine ⟨?_, fun _ _ => rfl, rfl⟩
  rw [hgone]
  exact h.shape

/-! ## One step -/

/-- What one step keeps, beside the invariant: the entries of split pages. -/
structure Stepped (p : Placement) (root pdpt pd : Nat) (holes : Nat → Prop) (s s' : State) :
    Prop where
  inv : Inv p root pdpt pd holes s'
  kept : ∀ k, ¬ (s.tables pd k).Has HUGE → s'.tables pd k = s.tables pd k

/-- Entries of split pages stay, so their tables do. -/
theorem Stepped.keepsTables {s' : State} (h : Inv p root pdpt pd holes s)
    (h' : Stepped p root pdpt pd holes s s') : KeepsTables root s s' := by
  intro j hj k hk T hT hT'
  rw [Refers, h.shape.spine.directory_eq] at hT
  rw [Refers, h'.inv.shape.spine.directory_eq] at hT'
  have hsame := h'.kept j hT.1
  refine h'.inv.shape.sole j hj k hk ?_ hT'.1 ?_
  · rw [hsame]
    exact hT.1
  · rw [hsame, hT.2, hT'.2]

theorem Inv.open_low {g : Nat} (h : Inv p root pdpt pd holes s) (hg : g ∈ p.guardPages) :
    g < 2 ^ 30 ∧ s.granted (g / LARGE) = none := by
  have := p.pluginStack_low
  refine ⟨?_, h.guards g hg⟩
  simp only [Placement.guardPages, List.mem_cons, List.not_mem_nil, or_false] at hg
  omega

/-- The spare tables are two. -/
theorem guardTable_inj {j k : Nat} (h : p.guardTable j = p.guardTable k) : j = k := by
  rw [Placement.guardTable, Placement.guardTable] at h
  omega

/-- Unmapping two pages one after the other takes both out, through as many spare tables as there
are whole pages to split. -/
theorem unmapAll_shape {gone : Nat → Prop} {granted : Nat → Option Bool} {t : Tables}
    (h : Shape p root pdpt pd gone granted t) {a b : Nat} (ha : a < 2 ^ 30) (hb : b < 2 ^ 30)
    (hga : granted (a / LARGE) = none) (hgb : granted (b / LARGE) = none)
    (hfree : ∀ k < (if (t pd (a / LARGE)).Has HUGE then 1 else 0) +
      (if b / LARGE ≠ a / LARGE ∧ (t pd (b / LARGE)).Has HUGE then 1 else 0), Free p pd t k) :
    ∃ t', unmapAll p root t 0 [a, b] = (true, t') ∧
      Shape p root pdpt pd (fun r => (gone r ∨ r = a / 4096) ∨ r = b / 4096) granted t' ∧
      ∀ k, ¬ (t pd k).Has HUGE → t' pd k = t pd k := by
  have hdiv : ∀ x, x / LARGE = x / 4096 / 512 := fun x => by rw [Nat.div_div_eq_div_mul, LARGE]
  have hfirst : (t pd (a / LARGE)).Has HUGE → 0 < 2 ∧ Free p pd t 0 :=
    fun hhuge => ⟨by omega, hfree 0 (by rw [if_pos hhuge]; omega)⟩
  obtain ⟨t₁, hrun₁, hshape₁, htaken₁⟩ := unmapPage_shape h 0 ha hga hfirst
  -- The second split finds the next spare table, if the first one took one.
  have hsecond : (t₁ pd (b / LARGE)).Has HUGE →
      (if (t pd (a / LARGE)).Has HUGE then 1 else 0) < 2 ∧
        Free p pd t₁ (if (t pd (a / LARGE)).Has HUGE then 1 else 0) := by
    intro hhuge
    have hne : b / LARGE ≠ a / LARGE := by
      intro heq
      rw [heq, hdiv] at hhuge
      by_cases hold : (t pd (a / 4096 / 512)).Has HUGE
      · rw [htaken₁.split hold] at hhuge
        exact (splitSlot_facts p (by omega)).2.2.1 hhuge
      · rw [htaken₁.kept hold] at hhuge
        exact hold hhuge
    have hold : (t pd (b / LARGE)).Has HUGE := by
      rwa [htaken₁.others _ (hdiv a ▸ hne)] at hhuge
    have hone : (if b / LARGE ≠ a / LARGE ∧ (t pd (b / LARGE)).Has HUGE then 1 else 0) = 1 :=
      if_pos ⟨hne, hold⟩
    rw [hone] at hfree
    refine ⟨by split <;> omega, ?_⟩
    intro k hk hsmall
    by_cases hka : k = a / LARGE
    · by_cases hwhole : (t pd (a / LARGE)).Has HUGE
      · -- The page split just before took the other table.
        rw [if_pos hwhole, hka, hdiv, htaken₁.split (hdiv a ▸ hwhole),
          (splitSlot_facts p (by omega)).2.2.2]
        exact fun heq => absurd (guardTable_inj heq) (by omega)
      · rw [if_neg hwhole, hka, hdiv, htaken₁.kept (hdiv a ▸ hwhole), ← hdiv, ← hka]
        rw [hka] at hk ⊢
        exact hfree 0 (by omega) _ hk hwhole
    · have hsame := htaken₁.others k (hdiv a ▸ hka)
      rw [hsame] at hsmall ⊢
      exact hfree _ (by omega) k hk hsmall
  obtain ⟨t₂, hrun₂, hshape₂, htaken₂⟩ := unmapPage_shape hshape₁ _ hb hgb hsecond
  refine ⟨t₂, ?_, hshape₂, ?_⟩
  · simp only [unmapAll, hrun₁, hrun₂]
  · intro k hsmall
    have hfirst : t₁ pd k = t pd k := by
      by_cases hk : k = a / 4096 / 512
      · rw [hk] at hsmall ⊢
        exact htaken₁.kept hsmall
      · exact htaken₁.others k hk
    rw [← hfirst] at hsmall ⊢
    by_cases hk : k = b / 4096 / 512
    · rw [hk] at hsmall ⊢
      exact htaken₂.kept hsmall
    · exact htaken₂.others k hk

theorem armGuards_stepped (h : Inv p root pdpt pd holes s)
    (hclear : Step.Clear p root s .armGuards) :
    Stepped p root pdpt pd holes s (armGuards p root s) := by
  cases htried : s.guards with
  | armed =>
    rw [armGuards, htried]
    exact ⟨h, fun _ _ => rfl⟩
  | failed =>
    rw [armGuards, htried]
    exact ⟨h, fun _ _ => rfl⟩
  | notTried =>
    have hspares := hclear htried
    obtain ⟨hlow, hglow⟩ := h.open_low (g := p.pluginStack) List.mem_cons_self
    obtain ⟨hhigh, hghigh⟩ := h.open_low (g := p.pluginStack + 4096 + PLUGIN_STACK_LEN)
      (List.mem_cons_of_mem _ List.mem_cons_self)
    have hfree : ∀ k < guardSpares p root s.tables, Free p pd s.tables k :=
      fun k hk => h.free (hspares k hk)
    simp only [guardSpares, IsWhole, h.shape.spine.directory_eq] at hfree
    obtain ⟨t', hrun, hshape, hkept⟩ := unmapAll_shape h.shape hlow hhigh hglow hghigh hfree
    have hpages : p.guardPages = [p.pluginStack, p.pluginStack + 4096 + PLUGIN_STACK_LEN] := rfl
    have hstate : armGuards p root s = { s with tables := t', guards := .armed } := by
      rw [armGuards, htried]
      simp only [hpages, hrun, if_true]
    rw [hstate]
    refine ⟨⟨?_, h.guards, h.verify⟩, hkept⟩
    have hgone : (fun q => holes q ∨ OnGuard p { s with tables := t', guards := .armed } q) =
        fun r => ((holes r ∨ OnGuard p s r) ∨ r = p.pluginStack / 4096) ∨
          r = (p.pluginStack + 4096 + PLUGIN_STACK_LEN) / 4096 := by
      funext r
      simp only [OnGuard, htried, hpages, List.mem_cons, List.not_mem_nil, or_false,
        exists_eq_or_imp, exists_eq_left, true_and, reduceCtorEq, false_and, false_or]
      grind
    rw [hgone]
    exact hshape

theorem onVerifyStack_stepped (h : Inv p root pdpt pd holes s)
    (hclear : Step.Clear p root s .onVerifyStack) :
    Stepped p root pdpt pd holes s (onVerifyStack p root s) := by
  cases htried : s.verifyGuard with
  | armed =>
    rw [onVerifyStack, htried]
    exact ⟨h, fun _ _ => rfl⟩
  | failed =>
    rw [onVerifyStack, htried]
    exact ⟨h, fun _ _ => rfl⟩
  | notTried =>
    have hspare := hclear htried
    rw [IsWhole, h.shape.spine.directory_eq] at hspare
    have hlow : p.verifyStack < 2 ^ 30 := by
      have := p.verifyStack_low
      omega
    obtain ⟨t', hrun, hshape, htaken⟩ := unmapPage_shape h.shape 0 hlow h.verify
      fun hhuge => ⟨by omega, h.free (hspare hhuge)⟩
    have hstate : onVerifyStack p root s = { s with tables := t', verifyGuard := .armed } := by
      rw [onVerifyStack, htried]
      simp only [hrun, if_true]
    rw [hstate]
    refine ⟨⟨?_, h.guards, h.verify⟩, ?_⟩
    · have hgone : (fun q => holes q ∨ OnGuard p { s with tables := t', verifyGuard := .armed } q) =
          fun r => (holes r ∨ OnGuard p s r) ∨ r = p.verifyStack / 4096 := by
        funext r
        simp only [OnGuard, htried, true_and, reduceCtorEq, false_and, or_false, or_assoc]
      rw [hgone]
      exact hshape
    · intro k hsmall
      by_cases hk : k = p.verifyStack / 4096 / 512
      · rw [hk] at hsmall ⊢
        exact htaken.kept hsmall
      · exact htaken.others k hk

/-- An edit that arms nothing keeps the invariant when it grants nothing on a guard's page. -/
theorem Inv.region (h : Inv p root pdpt pd holes s) {t' : Tables} {granted' : Nat → Option Bool}
    (hshape : Shape p root pdpt pd (fun q => holes q ∨ OnGuard p s q) granted' t')
    (hguards : ∀ g ∈ p.guardPages, granted' (g / LARGE) = s.granted (g / LARGE))
    (hverify : granted' (p.verifyStack / LARGE) = s.granted (p.verifyStack / LARGE))
    (hkept : ∀ k, ¬ (s.tables pd k).Has HUGE → t' pd k = s.tables pd k) :
    Stepped p root pdpt pd holes s { s with tables := t', granted := granted' } :=
  ⟨⟨hshape, fun g hg => (hguards g hg).trans (h.guards g hg), hverify.trans h.verify⟩, hkept⟩

theorem step_mapRange (s : State) (base len : Nat) (user writable : Bool) :
    step p root s (.mapRange base len user writable) =
      { s with
        tables := (mapRange root s.tables base len user writable).2
        granted := fun k => if Overlaps base len k then grant user writable else s.granted k } :=
  rfl

/-- Every proper step that is clear keeps the invariant. -/
theorem step_stepped (h : Inv p root pdpt pd holes s) {st : Step} (hproper : st.Proper p)
    (hclear : st.Clear p root s) : Stepped p root pdpt pd holes s (step p root s st) := by
  cases st with
  | armGuards => exact armGuards_stepped h hclear
  | onVerifyStack => exact onVerifyStack_stepped h hclear
  | mapRange base len user writable =>
    obtain ⟨hlow, hguards, hverify⟩ := hproper
    obtain ⟨hshape, hkept⟩ := mapRange_shape h.shape hlow user writable
    rw [step_mapRange]
    exact h.region hshape (fun g hg => if_neg (hguards g hg)) (if_neg hverify) hkept

/-! ## Runs keep it -/

theorem after_nil (s : State) : after p root s [] = s := rfl

theorem after_cons (s : State) (st : Step) (rest : List Step) :
    after p root s (st :: rest) = after p root (step p root s st) rest := rfl

theorem after_append (s : State) (before rest : List Step) :
    after p root s (before ++ rest) = after p root (after p root s before) rest :=
  List.foldl_append

theorem AllClear.split {before rest : List Step} (h : AllClear p root s (before ++ rest)) :
    AllClear p root s before ∧ AllClear p root (after p root s before) rest := by
  induction before generalizing s with
  | nil => exact ⟨trivial, h⟩
  | cons st before ih =>
    obtain ⟨hfirst, hrest⟩ := ih h.2
    exact ⟨⟨h.1, hfirst⟩, hrest⟩

theorem run_inv (h : Inv p root pdpt pd holes s) {steps : List Step}
    (hproper : ∀ st ∈ steps, st.Proper p) (hclear : AllClear p root s steps) :
    Inv p root pdpt pd holes (after p root s steps) := by
  induction steps generalizing s with
  | nil => exact h
  | cons st rest ih =>
    have hstep := step_stepped h (hproper st List.mem_cons_self) hclear.1
    rw [after_cons]
    exact ih hstep.inv (fun st' hst => hproper st' (List.mem_cons_of_mem st hst)) hclear.2

/-- In every run of proper steps that never take a spare table in use, the map is sound after each
step, and no step rewrites a table in use for another page. -/
theorem run_sound {t : Tables} (hboot : BootMap p root pdpt pd holes t) {steps : List Step}
    (hproper : ∀ st ∈ steps, st.Proper p) (hclear : AllClear p root (start t) steps)
    {before rest : List Step} (hsteps : steps = before ++ rest) :
    Sound p root holes (after p root (start t) before) ∧
      ∀ st ∈ rest.head?, KeepsTables root (after p root (start t) before)
        (after p root (start t) (before ++ [st])) := by
  subst hsteps
  obtain ⟨hbefore, hrest⟩ := hclear.split
  have hinv := run_inv hboot.inv (fun st hst => hproper st (List.mem_append_left rest hst)) hbefore
  refine ⟨hinv.sound, ?_⟩
  intro st hst
  obtain ⟨rest, rfl⟩ : ∃ tail, rest = st :: tail := by
    cases rest with
    | nil => cases hst
    | cons head tail => exact ⟨tail, by rw [Option.some.inj hst]⟩
  rw [after_append]
  exact (step_stepped hinv (hproper st (by simp)) hrest.1).keepsTables hinv

/-! ## A flat boot map -/

namespace Flat

/-- The first gigabyte in whole 2 MiB pages: three tables, at 4, 8 and 12 KiB. -/
def tables : Tables := fun page i =>
  if page = 0x1000 then (if i = 0 then 0x2003 else 0)
  else if page = 0x2000 then (if i = 0 then 0x3003 else 0)
  else if page = 0x3000 then .ofNat 64 (i * LARGE) ||| 0x83
  else 0

/-- An image whose verification stack begins at `v`. -/
def image (v : Nat) (h : v % 4096 = 0) (hlow : v + 4096 + VERIFY_STACK_LEN ≤ 2 ^ 30) : Placement where
  pluginStack := 0x200000
  verifyStack := v
  guardTables := 0x600000
  pluginStack_aligned := by decide
  pluginStack_low := by decide
  verifyStack_aligned := h
  verifyStack_low := hlow
  guardTables_aligned := by decide
  guardTables_low := by decide

theorem slot (j : Nat) : tables 0x3000 j = .ofNat 64 (j * LARGE) ||| 0x83 := rfl

theorem bootMap (v : Nat) (h : v % 4096 = 0) (hlow : v + 4096 + VERIFY_STACK_LEN ≤ 2 ^ 30) :
    BootMap (image v h hlow) 0x1000 0x2000 0x3000 (fun _ => False) tables := by
  have haligned : ∀ j, j * LARGE % 4096 = 0 := fun j => by
    simp only [LARGE]
    omega
  have hhas : ∀ j (flag : Entry), flag.toNat < 4096 →
      ((tables 0x3000 j).Has flag ↔ Entry.Has 0x83 flag) := fun j flag hm => by
    rw [slot, Entry.has_made (haligned j) hm]
  have hhuge : ∀ j, (tables 0x3000 j).Has HUGE := fun j => (hhas j _ (by decide)).2 (by decide)
  refine ⟨⟨?_, ?_, ?_⟩, ?_⟩
  · exact {
      present4 := by decide
      writable4 := by decide
      page4 := by decide
      present3 := by decide
      writable3 := by decide
      small3 := by decide
      page3 := by decide
      closed4 := fun k _ hne => by
        rw [show tables 0x1000 k = 0 from if_neg hne]
        decide
      closed3 := fun k _ hne => by
        rw [show tables 0x2000 k = 0 from if_neg hne]
        decide
      root_ne_pdpt := by decide
      root_ne_pd := by decide
      pdpt_ne_pd := by decide
      spares := fun k _ => by
        simp only [Placement.guardTable, image]
        omega }
  · intro j hj
    left
    refine ⟨(hhas j _ (by decide)).2 (by decide), hhuge j, ?_, ?_, .inl ?_, fun _ _ => not_false⟩
    · rw [slot]
      refine Entry.frame_made ?_ ?_ (by decide)
      · simp only [LARGE]
        omega
      · simp only [LARGE]
        omega
    · rw [hhas j _ (by decide)]
      exact fun huser => absurd huser (by decide)
    · exact (hhas j _ (by decide)).2 (by decide)
  · exact fun j _ _ _ hsmall => absurd (hhuge j) hsmall
  · exact fun _ _ j _ hsmall => absurd (hhuge j) hsmall

/-- The verification stack in the large page of the plugin stack. -/
def near : Placement := image 0x260000 (by decide) (by decide)

/-- The verification stack in the next large page. -/
def apart : Placement := image 0x400000 (by decide) (by decide)

/-- Both stacks armed, and a region of ring 3. -/
def nearSteps : List Step :=
  [.armGuards, .onVerifyStack, .mapRange 0x800000 0x200000 true false]

/-- Where all guards are in one large page, one table serves them all. -/
theorem run_sound_near :
    Sound near 0x1000 (fun _ => False) (after near 0x1000 (start tables) nearSteps) := by
  have hboot : BootMap near 0x1000 0x2000 0x3000 (fun _ => False) tables :=
    bootMap 0x260000 (by decide) (by decide)
  have hproper : ∀ st ∈ nearSteps, st.Proper near := by
    intro st hst
    simp only [nearSteps, List.mem_cons, List.not_mem_nil, or_false] at hst
    rcases hst with rfl | rfl | rfl
    · trivial
    · trivial
    · refine ⟨by decide, ?_, by decide⟩
      intro g hg
      simp only [Placement.guardPages, List.mem_cons, List.not_mem_nil, or_false] at hg
      rcases hg with rfl | rfl <;> decide
  have hclear : AllClear near 0x1000 (start tables) nearSteps := by
    refine ⟨?_, ?_, trivial, trivial⟩
    · intro _ k hk
      have hspares : guardSpares near 0x1000 tables = 1 := by decide
      exact hboot.inv.unused (hboot.spare k (by rw [start, hspares] at hk; omega))
    · exact fun _ hwhole => absurd hwhole (by decide +kernel)
  exact (run_sound hboot hproper hclear (List.append_nil nearSteps).symm).1

/-- With the stacks in two large pages, arming the second guard rewrites the table that serves the
first: the plugin stack's memory is mapped to the verification stack's. -/
theorem table_reused :
    BootMap apart 0x1000 0x2000 0x3000 (fun _ => False) tables ∧
      ¬ Sound apart 0x1000 (fun _ => False)
        (after apart 0x1000 (start tables) [.armGuards, .onVerifyStack]) := by
  refine ⟨bootMap 0x400000 (by decide) (by decide), fun h => ?_⟩
  have hwalk : walk (after apart 0x1000 (start tables) [.armGuards, .onVerifyStack]).tables 0x1000
      0x201000 = some ⟨0x401000, true, false⟩ := by decide +kernel
  have hguard : ¬ OnGuard apart (after apart 0x1000 (start tables) [.armGuards, .onVerifyStack])
      (0x201000 / 4096) := by
    rintro (⟨-, g, hg, heq⟩ | ⟨-, heq⟩)
    · simp only [Placement.guardPages, List.mem_cons, List.not_mem_nil, or_false] at hg
      rcases hg with rfl | rfl <;> exact absurd heq (by decide)
    · exact absurd heq (by decide)
  obtain ⟨m, hm, hphys, -⟩ := h.identity 0x201000 (by decide) hguard not_false
  rw [hwalk] at hm
  rw [← Option.some.inj hm] at hphys
  exact absurd hphys (by decide)

end Flat

end NanoChrono.Kernel
