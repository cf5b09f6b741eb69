import NanoChrono.Aml.Walk

/-! # Walks of nested packages

The walk of any table ends (`walk_total`), whatever its lengths say. It stays inside its scopes where every package it
goes into ends in the list it stands in (`Nested`): then every list is inside the one around it, and devices are shown
at offsets that only rise (`walk_contained`). The length of a package is held against the end of the table alone, so
that a package may reach past the list around it, and what it reaches into is walked again. -/

namespace NanoChrono.Aml

/-- The list that a term is gone into for. -/
def Found.inner : Found → Option Span
  | .passed => none
  | .block inner => some inner
  | .object _ _ inner => some inner

/-! ## Terms -/

section

variable {α : Type}

/-- A reading of a term leaves the cursor behind it: where its list ends, if it has one. -/
def Leaves (x : Read Found) : Prop := ∀ pos found next, x.from pos = (some found, next) →
  pos ≤ next ∧ ∀ inner, found.inner = some inner → pos ≤ inner.start ∧ inner.stop = next

theorem Leaves.failure : Leaves Alternative.failure := by
  intro pos found next h
  cases h

theorem Leaves.ite {c : Prop} [Decidable c] {x y : Read Found} (hx : Leaves x) (hy : Leaves y) :
    Leaves (if c then x else y) := by
  split
  · exact hx
  · exact hy

theorem Leaves.bind {x : Read α} {f : α → Read Found} (hx : Forward x) (hf : ∀ a, Leaves (f a)) :
    Leaves (x >>= f) := by
  intro pos found next h
  obtain ⟨a, mid, ha, hrest⟩ := from_bind_some h
  obtain ⟨hle, hinner⟩ := hf a mid found next hrest
  have hmid := hx.le ha
  refine ⟨Nat.le_trans hmid hle, fun inner hi => ?_⟩
  obtain ⟨hstart, hstop⟩ := hinner inner hi
  exact ⟨Nat.le_trans hmid hstart, hstop⟩

theorem Leaves.passing {x : Read Unit} (hx : Forward x) : Leaves (passing x) := by
  refine .bind hx fun _ => ?_
  intro pos found next h
  obtain ⟨hfound, hnext⟩ := Prod.mk.inj h
  refine ⟨Nat.le_of_eq hnext, fun inner hi => ?_⟩
  rw [← Option.some.inj hfound] at hi
  cases hi

/-- A term that ends where its package does, and whose list begins no earlier than the package's body. -/
theorem Leaves.package {code : Bytes} {f : Span → Read Found}
    (hf : ∀ (s : Span) found next, (f s).from s.start = (some found, next) →
      next = s.stop ∧ ∀ inner, found.inner = some inner → s.start ≤ inner.start ∧ inner.stop = s.stop) :
    Leaves (package code >>= f) := by
  intro pos found next h
  obtain ⟨s, mid, hs, hrest⟩ := from_bind_some h
  obtain ⟨hstart, rfl, hle, -⟩ := package_some code hs
  obtain ⟨rfl, hinner⟩ := hf s found next hrest
  refine ⟨by omega, fun inner hi => ?_⟩
  obtain ⟨hbegin, hstop⟩ := hinner inner hi
  exact ⟨by omega, hstop⟩

end

section

variable (code : Bytes)

/-- A term of which nothing is known but that it was passed. -/
theorem inner_of_passed {s : Span} {found : Found} {next stop : Nat}
    (h : (some Found.passed, stop) = (some found, next)) (hstop : stop = s.stop) :
    next = s.stop ∧ ∀ inner, found.inner = some inner → s.start ≤ inner.start ∧ inner.stop = s.stop := by
  obtain ⟨hfound, hnext⟩ := Prod.mk.inj h
  refine ⟨hnext.symm.trans hstop, fun inner hi => ?_⟩
  rw [← Option.some.inj hfound] at hi
  cases hi

theorem conditional_leaves (opcode : UInt8) : Leaves (conditional code opcode) := by
  refine .package fun s found next h => ?_
  split at h
  · obtain ⟨hfound, hnext⟩ := Prod.mk.inj h
    refine ⟨hnext.symm, fun inner hi => ?_⟩
    rw [← Option.some.inj hfound] at hi
    obtain rfl := Option.some.inj hi
    exact ⟨Nat.le_refl _, rfl⟩
  · have hforward := skip_term_arg_forward code s.start
    rw [from_bind] at h
    rw [from_probe] at h
    rcases hskip : (skipTermArg code).from s.start with ⟨_ | u, start⟩
    · rw [hskip] at h
      exact inner_of_passed h rfl
    · rw [hskip] at h hforward
      dsimp only at h
      change Read.from (if start > s.stop then pure Found.passed else pure (.block ⟨start, s.stop⟩)) s.stop = _ at h
      split at h
      · exact inner_of_passed h rfl
      · obtain ⟨hfound, hnext⟩ := Prod.mk.inj h
        refine ⟨hnext.symm, fun inner hi => ?_⟩
        rw [← Option.some.inj hfound] at hi
        obtain rfl := Option.some.inj hi
        exact ⟨hforward, rfl⟩

/-- An object whose list begins so many bytes behind its name. -/
theorem object_leaves (fixed : Nat) (strict isDevice : Bool) : Leaves (do
    let body ← package code
    let named ← name code
    let pos ← position
    if strict ∧ pos + fixed > body.stop then failure
    else do
      goto body.stop
      pure (.object named isDevice ⟨pos + fixed, body.stop⟩)) := by
  refine .package fun s found next h => ?_
  obtain ⟨named, behind, hname, hrest⟩ := from_bind_some h
  have hle := (name_forward code).le hname
  obtain ⟨here, at', hhere, hlast⟩ := from_bind_some hrest
  obtain ⟨rfl, rfl⟩ := position_some hhere
  split at hlast
  · cases hlast
  · obtain ⟨hfound, hnext⟩ := Prod.mk.inj hlast
    refine ⟨hnext.symm, fun inner hi => ?_⟩
    rw [← Option.some.inj hfound] at hi
    obtain rfl := Option.some.inj hi
    exact ⟨Nat.le_trans hle (Nat.le_add_right _ _), rfl⟩

theorem extended_leaves (extended : UInt8) : Leaves (extendedAt code extended) := by
  refine .ite ?_ (.ite ?_ (.ite ?_ (.ite ?_ (.ite ?_ (.ite ?_ .failure)))))
  · simpa using object_leaves code (fixedFields extended) true (extended = Op.EXT_DEVICE)
  · exact .passing ((skip_name_forward code).bind fun _ => skip_region_forward code)
  · exact .passing (skipPackage_forward code)
  · exact .passing ((skip_name_forward code).bind fun _ => skip_byte_forward code)
  · exact .passing (skip_name_forward code)
  · exact .passing ((skip_term_arg_forward code).bind fun _ => skip_field_forward code)

theorem term_of_leaves (opcode : UInt8) : Leaves (termOf code opcode) := by
  refine .ite ?_ (.ite ?_ (.ite ?_ (.ite ?_ (.ite ?_ (.ite ?_ (.ite ?_ (.ite ?_ (.ite ?_ ?_))))))))
  · simpa using object_leaves code 0 false false
  · exact .bind (byte_forward code) (extended_leaves code)
  · exact .passing (skipPackage_forward code)
  · exact .passing ((skip_name_forward code).bind fun _ => skip_data_forward code)
  · exact .passing ((skip_name_forward code).bind fun _ => skip_name_forward code)
  · exact .passing ((skip_name_forward code).bind fun _ => (skip_byte_forward code).bind fun _ =>
      skip_byte_forward code)
  · exact .passing (skip_field_forward code)
  · exact conditional_leaves code opcode
  · exact Leaves.passing (x := (pure () : Read Unit)) (.pure _)
  · exact .passing (skip_statement_forward code opcode)

/-- A term is in the table, the cursor is put behind it, and its list is behind its opcode. -/
theorem term_at_some {pos next : Nat} {found : Found} (h : (termAt code).from pos = (some found, next)) :
    pos < code.length ∧ pos < next ∧ ∀ inner, found.inner = some inner → pos < inner.start ∧ inner.stop = next := by
  obtain ⟨opcode, mid, hopcode, hrest⟩ := from_bind_some h
  obtain ⟨hbyte, rfl⟩ := byte_some code hopcode
  obtain ⟨hin, -⟩ := List.getElem?_eq_some_iff.mp hbyte
  obtain ⟨hle, hinner⟩ := term_of_leaves code opcode _ found next hrest
  exact ⟨hin, hle, hinner⟩

/-! ## The steps of a walk -/

/-- Every package that is gone into from a position of a list on ends in that list, and is so itself. -/
inductive Nested : Span → Nat → Prop
  | past {list : Span} {pos : Nat} (h : list.stop ≤ pos) : Nested list pos
  | stuck {list : Span} {pos next : Nat} (h : (termAt code).from pos = (none, next)) : Nested list pos
  | term {list : Span} {pos next : Nat} {found : Found} (h : (termAt code).from pos = (some found, next))
      (hfits : ∀ inner, found.inner = some inner → inner.stop ≤ list.stop)
      (hinside : ∀ inner, found.inner = some inner → Nested inner inner.start)
      (hrest : Nested list next) : Nested list pos

variable {σ : Type} (visit : Visitor σ)

/-- What a walk does at a position: nothing more, or it passes a term, or it shows a device and stops, or it goes
into a term, and on behind it unless it was stopped inside. -/
inductive Ways (fuel : Nat) (list : Span) (pos : Nat) (out : Outcome σ) : Prop
  | past (h : list.stop ≤ pos) (hsteps : out.steps = []) (hgo : out.go = true)
  | stuck (next : Nat) (h : (termAt code).from pos = (none, next)) (hsteps : out.steps = []) (hgo : out.go = true)
  | passed (next : Nat) (scope : Path) (state : σ) (hpos : pos < list.stop)
      (h : (termAt code).from pos = (some .passed, next)) (hrest : walk code visit fuel list next scope state = some out)
  | shown (device : AcpiDevice) (state : σ) (hpos : pos < list.stop)
      (hsteps : out.steps = [.visited list pos device]) (hstop : (visit state device).2 = false)
  | inside (found : Found) (inner : Span) (next : Nat) (scope : Path) (state : σ) (inside : Outcome σ)
      (front last : List Step) (hpos : pos < list.stop) (h : (termAt code).from pos = (some found, next))
      (hinner : found.inner = some inner) (hfront : front = [] ∨ ∃ device, front = [.visited list pos device])
      (hinside : walk code visit fuel inner inner.start scope state = some inside)
      (hlast : inside.go = false ∧ out.go = false ∧ last = [] ∨ ∃ scope' state' rest,
        walk code visit fuel list next scope' state' = some rest ∧ out.go = rest.go ∧ last = rest.steps)
      (hsteps : out.steps = front ++ .entered list pos inner :: inside.steps ++ last)

/-- The visit of an object shows it or not. -/
theorem shown_steps (list : Span) (offset : Nat) (isDevice : Bool) (entered : Path × Bool) (inner : Span) (state : σ) :
    (shown code visit list offset isDevice entered inner state).steps = [] ∧
        (shown code visit list offset isDevice entered inner state).go = true ∨
      ∃ device, (shown code visit list offset isDevice entered inner state).steps = [.visited list offset device] ∧
        (shown code visit list offset isDevice entered inner state).go = (visit state device).2 := by
  unfold shown
  split
  · exact .inr ⟨_, rfl, rfl⟩
  · exact .inl ⟨rfl, rfl⟩

variable {code visit}

/-- What is made of a first outcome and of what follows it. -/
theorem andThen_some {first out : Outcome σ} {rest : Path → σ → Option (Outcome σ)}
    (h : first.andThen rest = some out) :
    first.go = false ∧ out = first ∨ first.go = true ∧
      ∃ last, rest first.scope first.state = some last ∧ out = { last with steps := first.steps ++ last.steps } := by
  unfold Outcome.andThen at h
  split at h
  next hgo =>
    obtain ⟨last, hlast, rfl⟩ := Option.map_eq_some_iff.mp h
    exact .inr ⟨hgo, last, hlast, rfl⟩
  next hgo => exact .inl ⟨Bool.eq_false_of_not_eq_true hgo, (Option.some.inj h).symm⟩

theorem walk_ways {fuel pos : Nat} {list : Span} {scope : Path} {state : σ} {out : Outcome σ}
    (h : walk code visit (fuel + 1) list pos scope state = some out) : Ways code visit fuel list pos out := by
  rw [walk] at h
  split at h
  next hpast => exact .past hpast (by rw [← Option.some.inj h]) (by rw [← Option.some.inj h])
  next hpos =>
  rw [Nat.not_le] at hpos
  split at h
  next next hterm => exact .stuck next hterm (by rw [← Option.some.inj h]) (by rw [← Option.some.inj h])
  next next hterm => exact .passed next scope state hpos hterm h
  next inner next hterm =>
    obtain ⟨inside, hinside, hthen⟩ := Option.bind_eq_some_iff.mp h
    rcases andThen_some hthen with ⟨hgo, rfl⟩ | ⟨-, rest, hrest, rfl⟩
    · exact .inside _ inner next scope state inside [] [] hpos hterm rfl (.inl rfl) hinside (.inl ⟨hgo, hgo, rfl⟩)
        (List.append_nil _).symm
    · exact .inside _ inner next scope state inside [] rest.steps hpos hterm rfl (.inl rfl) hinside
        (.inr ⟨_, _, rest, hrest, rfl, rfl⟩) rfl
  next named isDevice inner next hterm =>
    obtain ⟨first, hfirst, hthen⟩ := Option.bind_eq_some_iff.mp h
    have hfront := shown_steps code visit list pos isDevice (enter scope named) inner state
    rcases andThen_some hfirst with ⟨hstop, rfl⟩ | ⟨-, entered, hentered, rfl⟩
    · -- The visitor stopped the walk at this device.
      rcases hfront with ⟨-, hgo⟩ | ⟨device, hsteps, hsaid⟩
      · rw [hstop] at hgo
        cases hgo
      · rcases andThen_some hthen with ⟨-, rfl⟩ | ⟨hgo, -⟩
        · exact .shown device state hpos hsteps (hsaid ▸ hstop)
        · rw [hstop] at hgo
          cases hgo
    · obtain ⟨inside, hinside, hmade⟩ := Option.bind_eq_some_iff.mp hentered
      obtain rfl := Option.some.inj hmade
      have hsome : (shown code visit list pos isDevice (enter scope named) inner state).steps = [] ∨
          ∃ device, (shown code visit list pos isDevice (enter scope named) inner state).steps =
            [.visited list pos device] := hfront.imp And.left (Exists.imp fun _ => And.left)
      rcases andThen_some hthen with ⟨hgo, rfl⟩ | ⟨-, rest, hrest, rfl⟩
      · exact .inside _ inner next _ _ inside _ [] hpos hterm rfl hsome hinside (.inl ⟨hgo, hgo, rfl⟩)
          (List.append_nil _).symm
      · exact .inside _ inner next _ _ inside _ rest.steps hpos hterm rfl hsome hinside
          (.inr ⟨_, _, rest, hrest, rfl, rfl⟩) rfl

/-! ## Every walk ends -/

theorem andThen_total (first : Outcome σ) {r : Path → σ → Option (Outcome σ)}
    (h : ∀ scope state, ∃ out, r scope state = some out) : ∃ out, first.andThen r = some out := by
  unfold Outcome.andThen
  split
  · obtain ⟨last, hlast⟩ := h first.scope first.state
    exact ⟨_, congrArg (Option.map _) hlast⟩
  · exact ⟨first, rfl⟩

theorem andThen_mono {first out : Outcome σ} {rest rest' : Path → σ → Option (Outcome σ)}
    (hrest : ∀ scope state last, rest scope state = some last → rest' scope state = some last)
    (h : first.andThen rest = some out) : first.andThen rest' = some out := by
  unfold Outcome.andThen at h ⊢
  split at h
  next hgo =>
    obtain ⟨last, hlast, rfl⟩ := Option.map_eq_some_iff.mp h
    rw [if_pos hgo, hrest _ _ _ hlast]
    rfl
  next hgo => rw [if_neg hgo, h]

/-- With fuel for the bytes that are left the walk has an outcome. -/
theorem walk_some (fuel : Nat) : ∀ {list : Span} {pos : Nat} {scope : Path} {state : σ}, code.length < pos + fuel →
    0 < fuel → ∃ out, walk code visit fuel list pos scope state = some out := by
  induction fuel with
  | zero => exact fun _ h => absurd h (Nat.lt_irrefl 0)
  | succ fuel ih =>
    intro list pos scope state hfuel _
    -- Whatever follows is further on in the table, so that the fuel left is enough for it.
    have hafter : ∀ {list : Span} {at' : Nat} {scope : Path} {state : σ}, pos < at' → pos < code.length →
        ∃ out, walk code visit fuel list at' scope state = some out := fun hat hin => ih (by omega) (by omega)
    rw [walk]
    split
    · exact ⟨_, rfl⟩
    split
    · exact ⟨_, rfl⟩
    next next hterm =>
      obtain ⟨hpos, hnext, -⟩ := term_at_some code hterm
      exact hafter hnext hpos
    next inner next hterm =>
      obtain ⟨hpos, hnext, hinner⟩ := term_at_some code hterm
      obtain ⟨inside, hinside⟩ := hafter (hinner inner rfl).1 hpos
      rw [hinside]
      exact andThen_total _ fun _ _ => hafter hnext hpos
    next named isDevice inner next hterm =>
      obtain ⟨hpos, hnext, hinner⟩ := term_at_some code hterm
      obtain ⟨first, hfirst⟩ := andThen_total
        (shown code visit list pos isDevice (enter scope named) inner state)
        (r := fun entered state => do
          let inside ← walk code visit fuel inner inner.start entered state
          some { inside with steps := .entered list pos inner :: inside.steps })
        fun scope state => by
          obtain ⟨inside, hinside⟩ := hafter (hinner inner rfl).1 hpos
          exact ⟨_, congrArg (Option.bind · _) hinside⟩
      obtain ⟨out, hout⟩ := andThen_total first
        (r := fun left state => walk code visit fuel list next (leave scope named left) state)
        fun _ _ => hafter hnext hpos
      exact ⟨out, Option.bind_eq_some_iff.mpr ⟨first, hfirst, hout⟩⟩

/-- More fuel changes no outcome. -/
theorem walk_mono (fuel : Nat) : ∀ {list : Span} {pos : Nat} {scope : Path} {state : σ} {out : Outcome σ},
    walk code visit fuel list pos scope state = some out →
    walk code visit (fuel + 1) list pos scope state = some out := by
  induction fuel with
  | zero =>
    intro list pos scope state out h
    cases h
  | succ fuel ih =>
    intro list pos scope state out h
    rw [walk] at h ⊢
    split at h
    next hpast => rw [if_pos hpast, h]
    next hpos =>
    rw [if_neg hpos]
    split at h
    next next hterm => exact h
    next next hterm => exact ih h
    next inner next hterm =>
      obtain ⟨inside, hinside, hthen⟩ := Option.bind_eq_some_iff.mp h
      exact Option.bind_eq_some_iff.mpr ⟨inside, ih hinside, andThen_mono (fun _ _ _ => ih) hthen⟩
    next named isDevice inner next hterm =>
      obtain ⟨first, hfirst, hthen⟩ := Option.bind_eq_some_iff.mp h
      refine Option.bind_eq_some_iff.mpr ⟨first, andThen_mono (fun scope state last hlast => ?_) hfirst,
        andThen_mono (fun _ _ _ => ih) hthen⟩
      obtain ⟨inside, hinside, hmade⟩ := Option.bind_eq_some_iff.mp hlast
      exact Option.bind_eq_some_iff.mpr ⟨inside, ih hinside, hmade⟩

/-- The walk from a position ends, with one outcome for every fuel that is enough. -/
theorem walk_total (code : Bytes) (visit : Visitor σ) (list : Span) (pos : Nat) (scope : Path) (state : σ) :
    ∃ out, ∀ fuel, code.length < fuel → walk code visit fuel list pos scope state = some out := by
  have hsome : ∃ out, walk code visit (code.length + 1) list pos scope state = some out :=
    walk_some (code.length + 1) (by omega) (Nat.succ_pos _)
  obtain ⟨out, hout⟩ := hsome
  refine ⟨out, fun fuel hfuel => ?_⟩
  induction fuel, hfuel using Nat.le_induction with
  | base => exact hout
  | succ fuel _ ih => exact walk_mono fuel ih

/-! ## Nested walks -/

/-- The offsets of the devices shown, in their order. -/
def visitedAt (steps : List Step) : List Nat :=
  steps.filterMap fun
    | .visited _ offset _ => some offset
    | .entered .. => none

/-- Every list that is gone into begins in the list around it and ends no later. -/
def Within (steps : List Step) : Prop :=
  ∀ list offset inner, Step.entered list offset inner ∈ steps →
    list.start ≤ offset ∧ offset < inner.start ∧ inner.stop ≤ list.stop

/-- Devices are shown at offsets that rise, all of them from one position to another. -/
def Rising (lo hi : Nat) (offsets : List Nat) : Prop :=
  offsets.Pairwise (· < ·) ∧ ∀ offset ∈ offsets, lo ≤ offset ∧ offset < hi

theorem Rising.nil (lo hi : Nat) : Rising lo hi [] := ⟨.nil, fun _ h => absurd h List.not_mem_nil⟩

theorem Rising.single {offset hi : Nat} (h : offset < hi) : Rising offset hi [offset] :=
  ⟨List.pairwise_singleton _ _, fun o hmem => by
    obtain rfl := List.mem_singleton.mp hmem
    exact ⟨Nat.le_refl _, h⟩⟩

theorem Rising.mono {lo lo' hi hi' : Nat} {offsets : List Nat} (h : Rising lo hi offsets) (hlo : lo' ≤ lo)
    (hhi : hi ≤ hi') : Rising lo' hi' offsets := by
  refine ⟨h.1, fun offset hmem => ?_⟩
  obtain ⟨hle, hlt⟩ := h.2 offset hmem
  exact ⟨Nat.le_trans hlo hle, Nat.lt_of_lt_of_le hlt hhi⟩

/-- Offsets that rise up to a position, and others that rise from it. -/
theorem Rising.append {lo mid hi : Nat} {front back : List Nat} (hfront : Rising lo mid front)
    (hback : Rising mid hi back) (hlo : lo ≤ mid) (hhi : mid ≤ hi) : Rising lo hi (front ++ back) := by
  refine ⟨List.pairwise_append.mpr ⟨hfront.1, hback.1, fun a ha b hb => ?_⟩, fun offset hmem => ?_⟩
  · exact Nat.lt_of_lt_of_le (hfront.2 a ha).2 (hback.2 b hb).1
  · rcases List.mem_append.mp hmem with hmem | hmem
    · exact (hfront.mono (Nat.le_refl _) hhi).2 offset hmem
    · exact (hback.mono hlo (Nat.le_refl _)).2 offset hmem

/-- Offsets that rise are no more than the positions they are among. -/
theorem Rising.length_le {lo hi : Nat} {offsets : List Nat} (h : Rising lo hi offsets) : offsets.length ≤ hi := by
  have hnodup : offsets.Nodup := h.1.imp fun hlt => Nat.ne_of_lt hlt
  have hsub : offsets.toFinset ⊆ Finset.range hi := by
    intro offset hmem
    exact Finset.mem_range.mpr (h.2 offset (List.mem_toFinset.mp hmem)).2
  rw [← List.toFinset_card_of_nodup hnodup, ← Finset.card_range hi]
  exact Finset.card_le_card hsub

theorem visited_append (front back : List Step) : visitedAt (front ++ back) = visitedAt front ++ visitedAt back :=
  List.filterMap_append

theorem Nested.of_term {list : Span} {pos next : Nat} {found : Found} (hnested : Nested code list pos)
    (hpos : pos < list.stop) (hterm : (termAt code).from pos = (some found, next)) :
    (∀ inner, found.inner = some inner → inner.stop ≤ list.stop ∧ Nested code inner inner.start) ∧
      Nested code list next := by
  cases hnested with
  | past hpast => omega
  | stuck hstuck =>
    rw [hstuck] at hterm
    cases hterm
  | term hfound hfits hinside hrest =>
    rw [hfound] at hterm
    obtain ⟨hsame, rfl⟩ := Prod.mk.inj hterm
    obtain rfl := Option.some.inj hsame
    exact ⟨fun inner hinner => ⟨hfits inner hinner, hinside inner hinner⟩, hrest⟩

/-- Where packages are nested, a walk stays inside its list and shows devices one behind another. -/
theorem nested_walk (fuel : Nat) : ∀ {list : Span} {pos : Nat} {scope : Path} {state : σ} {out : Outcome σ},
    Nested code list pos → list.start ≤ pos → walk code visit fuel list pos scope state = some out →
    Within out.steps ∧ Rising pos list.stop (visitedAt out.steps) := by
  induction fuel with
  | zero =>
    intro list pos scope state out _ _ h
    cases h
  | succ fuel ih =>
    intro list pos scope state out hnested hstart h
    have hnothing : ∀ {steps : List Step}, steps = [] → Within steps ∧ Rising pos list.stop (visitedAt steps) := by
      rintro steps rfl
      exact ⟨fun _ _ _ hmem => absurd hmem List.not_mem_nil, .nil _ _⟩
    rcases walk_ways h with ⟨-, hsteps, -⟩ | ⟨-, -, hsteps, -⟩ | ⟨next, scope', state', hpos, hterm, hrest⟩ |
      ⟨device, -, hpos, hsteps, -⟩ |
      ⟨found, inner, next, scope', state', inside, front, last, hpos, hterm, hinner, hfront, hinside, hlast, hsteps⟩
    · exact hnothing hsteps
    · exact hnothing hsteps
    · obtain ⟨-, hnext, -⟩ := term_at_some code hterm
      obtain ⟨hwithin, hrising⟩ := ih (hnested.of_term hpos hterm).2 (by omega) hrest
      exact ⟨hwithin, hrising.mono (Nat.le_of_lt hnext) (Nat.le_refl _)⟩
    · rw [hsteps]
      refine ⟨fun _ _ _ hmem => ?_, Rising.single hpos⟩
      cases List.mem_singleton.mp hmem
    · obtain ⟨-, hnext, hlist⟩ := term_at_some code hterm
      obtain ⟨hbegin, hstop⟩ := hlist inner hinner
      obtain ⟨hlists, hafter⟩ := hnested.of_term hpos hterm
      obtain ⟨hin, hnest⟩ := hlists inner hinner
      obtain ⟨hwithin, hrising⟩ := ih hnest (Nat.le_refl _) hinside
      -- What follows rises from the package's end.
      have hback : Within last ∧ Rising inner.stop list.stop (visitedAt last) := by
        rcases hlast with ⟨-, -, rfl⟩ | ⟨_, _, rest, hrest, -, rfl⟩
        · exact ⟨fun _ _ _ hmem => absurd hmem List.not_mem_nil, .nil _ _⟩
        · obtain ⟨hwithin', hrising'⟩ := ih hafter (by omega) hrest
          exact ⟨hwithin', hrising'.mono (by omega) (Nat.le_refl _)⟩
      have hmiddle : Rising (pos + 1) inner.stop (visitedAt inside.steps) := hrising.mono hbegin (Nat.le_refl _)
      have hfirst : Within front ∧ Rising pos (pos + 1) (visitedAt front) := by
        rcases hfront with rfl | ⟨device, rfl⟩
        · exact ⟨fun _ _ _ hmem => absurd hmem List.not_mem_nil, .nil _ _⟩
        · exact ⟨fun _ _ _ hmem => (by cases List.mem_singleton.mp hmem), Rising.single (Nat.lt_succ_self pos)⟩
      rw [hsteps]
      refine ⟨fun l o i hmem => ?_, ?_⟩
      · rcases List.mem_append.mp hmem with hmem | hmem
        · rcases List.mem_append.mp hmem with hmem | hmem
          · exact hfirst.1 l o i hmem
          · rcases List.mem_cons.mp hmem with heq | hmem
            · injection heq with hl ho hi
              rw [hl, ho, hi]
              exact ⟨hstart, hbegin, hin⟩
            · exact hwithin l o i hmem
        · exact hback.1 l o i hmem
      · rw [visited_append, visited_append]
        refine (hfirst.2.append hmiddle ?_ ?_).append hback.2 ?_ hin
        · exact Nat.le_succ pos
        · omega
        · omega

/-- A visitor that never stops leaves every walk to go on. -/
theorem walk_go (hgo : ∀ state device, (visit state device).2 = true) (fuel : Nat) :
    ∀ {list : Span} {pos : Nat} {scope : Path} {state : σ} {out : Outcome σ},
    walk code visit fuel list pos scope state = some out → out.go = true := by
  induction fuel with
  | zero =>
    intro list pos scope state out h
    cases h
  | succ fuel ih =>
    intro list pos scope state out h
    rcases walk_ways h with ⟨-, -, hout⟩ | ⟨-, -, -, hout⟩ | ⟨next, scope', state', -, -, hrest⟩ |
      ⟨device, state', -, -, hstop⟩ | ⟨-, inner, next, scope', state', inside, -, last, -, -, -, -, hinside, hlast, -⟩
    · exact hout
    · exact hout
    · exact ih hrest
    · rw [hgo] at hstop
      cases hstop
    · rcases hlast with ⟨hstop, -, -⟩ | ⟨_, _, rest, hrest, hout, -⟩
      · rw [ih hinside] at hstop
        cases hstop
      · rw [hout]
        exact ih hrest

/-- A walk that nothing stops, and that stays inside its lists, goes through nested packages. -/
theorem walk_nested (hgo : ∀ state device, (visit state device).2 = true) (fuel : Nat) :
    ∀ {list : Span} {pos : Nat} {scope : Path} {state : σ} {out : Outcome σ},
    walk code visit fuel list pos scope state = some out → Within out.steps → Nested code list pos := by
  induction fuel with
  | zero =>
    intro list pos scope state out h
    cases h
  | succ fuel ih =>
    intro list pos scope state out h hwithin
    rcases walk_ways h with ⟨hpast, -, -⟩ | ⟨next, hterm, -, -⟩ | ⟨next, scope', state', -, hterm, hrest⟩ |
      ⟨device, state', -, -, hstop⟩ |
      ⟨found, inner, next, scope', state', inside, front, last, -, hterm, hinner, -, hinside, hlast, hsteps⟩
    · exact .past hpast
    · exact .stuck hterm
    · refine .term hterm (fun _ h => ?_) (fun _ h => ?_) (ih hrest hwithin)
      · cases h
      · cases h
    · rw [hgo] at hstop
      cases hstop
    · rw [hsteps] at hwithin
      rcases hlast with ⟨hstop, -, -⟩ | ⟨_, _, rest, hrest, -, rfl⟩
      · rw [walk_go hgo fuel hinside] at hstop
        cases hstop
      · have honly : ∀ inner', found.inner = some inner' → inner' = inner := fun _ h =>
          Option.some.inj (h.symm.trans hinner)
        refine .term hterm (fun inner' h => ?_) (fun inner' h => ?_) (ih hrest fun l o i hmem => ?_)
        · rw [honly inner' h]
          exact (hwithin list pos inner (by simp)).2.2
        · rw [honly inner' h]
          exact ih hinside fun l o i hmem => hwithin l o i (by simp [hmem])
        · exact hwithin l o i (by simp [hmem])

end

/-! ## Tables -/

/-- What holds of a walk that stays inside its scopes: every list it goes into is in the list around it, the offsets
of the devices rise, and there are no more of them than the table has bytes. -/
structure Contained {σ : Type} (table : Bytes) (out : Outcome σ) : Prop where
  inside : Within out.steps
  rising : (visitedAt out.steps).Pairwise (· < ·)
  count : (visitedAt out.steps).length ≤ table.length

/-- A namespace is no longer than its table. -/
theorem Namespace.length_le {table : Bytes} {ns : Namespace} (h : Namespace.new table = some ns) :
    ns.code.length ≤ table.length := by
  unfold Namespace.new at h
  split at h
  · cases h
  · dsimp only at h
    split at h
    · cases h
    · rw [← Option.some.inj h]
      exact List.length_take_le' _ _

/-- The walk of a table ends, for every visitor. It stays inside its scopes exactly if every package that it goes into
ends in the list it stands in. -/
theorem for_each_device_contained (table : Bytes) (ns : Namespace) (hnew : Namespace.new table = some ns) :
    (∀ (σ : Type) (visit : Visitor σ) (state : σ), ∃ out, Contained table out ∧
      ∀ fuel, table.length < fuel → ns.forEachDevice fuel visit state = some out) ↔
    Nested ns.code ns.list TABLE_HEADER := by
  have hlen := Namespace.length_le hnew
  constructor
  · intro h
    obtain ⟨out, hcontained, hout⟩ := h Unit (fun state _ => (state, true)) ()
    exact walk_nested (fun _ _ => rfl) _ (hout _ (Nat.lt_succ_self _)) hcontained.inside
  · intro hnested σ visit state
    obtain ⟨out, hout⟩ := walk_total ns.code visit ns.list TABLE_HEADER .root state
    obtain ⟨hwithin, hrising⟩ := nested_walk _ hnested (Nat.le_refl _) (hout _ (Nat.lt_succ_self _))
    refine ⟨out, ⟨hwithin, hrising.1, Nat.le_trans hrising.length_le hlen⟩, fun fuel hfuel => hout fuel ?_⟩
    exact Nat.lt_of_le_of_lt hlen hfuel

/-- A table of one device, whose package is the rest of it. -/
def oneDevice : Bytes :=
  [0x44, 0x53, 0x44, 0x54, 43, 0, 0, 0] ++ List.replicate 28 0 ++ [0x5B, 0x82, 5, 0x42, 0x5F, 0x5F, 0x5F]

theorem one_device_contained : Nested oneDevice ⟨TABLE_HEADER, 43⟩ TABLE_HEADER ∧
    ∀ (σ : Type) (visit : Visitor σ) (state : σ), ∃ out, Contained oneDevice out ∧
      ∀ fuel, oneDevice.length < fuel → Namespace.forEachDevice ⟨oneDevice⟩ fuel visit state = some out := by
  have hterm : (termAt oneDevice).from 36 =
      (some (.object (⟨[#v[0x42, 0x5F, 0x5F, 0x5F]], by decide⟩, false) true ⟨43, 43⟩), 43) := by rfl
  have hnested : Nested oneDevice ⟨TABLE_HEADER, 43⟩ TABLE_HEADER := by
    refine .term hterm ?_ ?_ ?_
    · intro inner h
      rw [← Option.some.inj h]
    · intro inner h
      rw [← Option.some.inj h]
      exact .past (Nat.le_refl _)
    · exact .past (Nat.le_refl _)
  exact ⟨hnested, (for_each_device_contained oneDevice ⟨oneDevice⟩ (by decide)).mpr hnested⟩

/-- A scope from 36 to 49 with a device at 42 whose package reaches to 56, over the device at 49. -/
def overlapping : Bytes :=
  [0x44, 0x53, 0x44, 0x54, 56, 0, 0, 0] ++ List.replicate 28 0 ++ [0x10, 12, 0x41, 0x5F, 0x5F, 0x5F] ++
    [0x5B, 0x82, 12, 0x42, 0x5F, 0x5F, 0x5F] ++ [0x5B, 0x82, 5, 0x43, 0x5F, 0x5F, 0x5F]

/-- The device at 49 is shown in the package of that at 42, and again behind the scope. -/
theorem overlapping_visits : (Namespace.forEachDevice ⟨overlapping⟩ 57 (fun _ _ => ((), true)) ()).map
    (fun out => visitedAt out.steps) = some [42, 49, 49] := by
  decide

/-- A table with lengths that overlap is not walked inside its scopes. -/
theorem overlapping_not_contained : ∃ table ns, Namespace.new table = some ns ∧
    ¬ ∀ (σ : Type) (visit : Visitor σ) (state : σ), ∃ out, Contained table out ∧
      ∀ fuel, table.length < fuel → ns.forEachDevice fuel visit state = some out := by
  refine ⟨overlapping, ⟨overlapping⟩, by decide, fun h => ?_⟩
  obtain ⟨out, hcontained, hout⟩ := h Unit (fun _ _ => ((), true)) ()
  have hvisits := overlapping_visits
  rw [hout 57 (by decide)] at hvisits
  have hoffsets : visitedAt out.steps = [42, 49, 49] := Option.some.inj hvisits
  have hrising := hcontained.rising
  rw [hoffsets] at hrising
  revert hrising
  decide

end NanoChrono.Aml
