import NanoChrono.Aml.Terms
import NanoChrono.Aml.Nested

/-! # What the walk reports

The devices that the walk of a term list shows, read off the list's terms: their offsets and the paths that they are
shown under (`reportedIn`). The walk of the list as it is written shows these, and leaves the scope as it found it
(`walk_reported`). -/

namespace NanoChrono.Aml

/-! ## Scopes -/

mutual

/-- The devices that are shown for a term, in a scope and from a position: their offsets and paths. A conditional with
a predicate that cannot be stepped over is not gone into, and a device without room for its name is not shown. -/
def Term.reported (scope : Path) (pos : Nat) : Term → List (Nat × Path)
  | .scope width n list =>
    reportedIn (enter scope (n.read, n.isAbsolute)).1 (pos + (1 + (width + 1) + n.encode.length)) list
  | .object kind width n fixed list =>
    (if kind = .device ∧ (enter scope (n.read, n.isAbsolute)).2 then [(pos, (enter scope (n.read, n.isAbsolute)).1)]
      else []) ++
      reportedIn (enter scope (n.read, n.isAbsolute)).1
        (pos + (2 + (width + 1) + n.encode.length + fixed.length)) list
  | .ifThen width predicate list => reportedIn scope (pos + (1 + (width + 1) + predicate.encode.length)) list
  | .otherwise width list => reportedIn scope (pos + (1 + (width + 1))) list
  | .whileDo width predicate list => reportedIn scope (pos + (1 + (width + 1) + predicate.encode.length)) list
  | _ => []

/-- The devices that are shown for a list: up to the first term that ends it. -/
def reportedIn (scope : Path) (pos : Nat) : List Term → List (Nat × Path)
  | [] => []
  | t :: ts =>
    if t.walks then t.reported scope pos ++ reportedIn scope (pos + t.encode.length) ts
    else if t.hasPredicate then reportedIn scope (pos + t.encode.length) ts
    else []

end

/-- The offsets and paths of the devices that a walk shows. -/
def visitedPaths (steps : List Step) : List (Nat × Path) :=
  steps.filterMap fun
    | .visited _ offset device => some (offset, device.path)
    | .entered .. => none

theorem visitedPaths_append (front back : List Step) :
    visitedPaths (front ++ back) = visitedPaths front ++ visitedPaths back := List.filterMap_append

section

variable {code : Bytes}

/-- A list at the end of a package that stands behind an opcode. -/
theorem At.packed {f : Bytes} {width : Nat} {rest : Bytes} {list : Bytes} {pos start : Nat}
    (hstart : start = f.length + (width + 1) + rest.length) (h : At code pos (f ++ pack width (rest ++ list))) :
    At code (pos + start) list := by
  have hlist := h.right.body.right
  have hsame : pos + f.length + width + 1 + rest.length = pos + start := by omega
  rwa [hsame] at hlist

theorem packed_length {f : Bytes} {width : Nat} {rest : Bytes} {list : Bytes} {start : Nat}
    (hstart : start = f.length + (width + 1) + rest.length) :
    (f ++ pack width (rest ++ list)).length = start + list.length := by
  rw [List.length_append, pack_length, List.length_append]
  omega

/-- The list inside a term stands where the term says, and ends with the term. -/
theorem Term.listAt_placed {t : Term} {start : Nat} {list : List Term} (hlist : t.listAt = some (start, list)) :
    t.encode.length = start + (encodeTerms list).length ∧
      ∀ pos, At code pos t.encode → At code (pos + start) (encodeTerms list) := by
  have hone : ∀ {width : Nat} {b : UInt8} {rest l : Bytes} {start : Nat}, start = 1 + (width + 1) + rest.length →
      (b :: pack width (rest ++ l)).length = start + l.length ∧
        ∀ pos, At code pos (b :: pack width (rest ++ l)) → At code (pos + start) l := fun hstart =>
    ⟨packed_length (f := [_]) hstart, fun _ hat => At.packed (f := [_]) hstart hat⟩
  cases t with
  | scope width n l =>
    obtain ⟨rfl, rfl⟩ := Prod.mk.inj (Option.some.inj hlist)
    exact hone rfl
  | object kind width n fixed l =>
    obtain ⟨rfl, rfl⟩ := Prod.mk.inj (Option.some.inj hlist)
    have hstart : 2 + (width + 1) + n.encode.length + fixed.length = 2 + (width + 1) + (n.encode ++ fixed).length := by
      rw [List.length_append]
      omega
    have hencode : (Term.object kind width n fixed l).encode =
        [0x5B, kind.code] ++ pack width ((n.encode ++ fixed) ++ encodeTerms l) := by
      rw [List.append_assoc]
      rfl
    refine ⟨?_, fun pos hat => ?_⟩
    · rw [hencode]
      exact packed_length hstart
    · rw [hencode] at hat
      exact At.packed hstart hat
  | ifThen width predicate l =>
    obtain ⟨rfl, rfl⟩ := Prod.mk.inj (Option.some.inj hlist)
    exact hone rfl
  | otherwise width l =>
    obtain ⟨rfl, rfl⟩ := Prod.mk.inj (Option.some.inj hlist)
    exact @hone _ _ [] _ _ rfl
  | whileDo width predicate l =>
    obtain ⟨rfl, rfl⟩ := Prod.mk.inj (Option.some.inj hlist)
    exact hone rfl
  | _ => cases hlist

theorem Term.listAt_length {t : Term} {start : Nat} {list : List Term} (hlist : t.listAt = some (start, list)) :
    t.encode.length = start + (encodeTerms list).length := (@Term.listAt_placed [] t start list hlist).1

variable {σ : Type} {visit : Visitor σ}

/-- An outcome shows devices of a list, one after another, and all of them with the scope as it should be left unless
it was stopped. -/
def Shows (out : Outcome σ) (devices : List (Nat × Path)) (scope : Path) : Prop :=
  visitedPaths out.steps <+: devices ∧ (out.go = true → visitedPaths out.steps = devices ∧ out.scope = scope)

theorem Shows.andThen {first out : Outcome σ} {r : Path → σ → Option (Outcome σ)} {front back : List (Nat × Path)}
    {scope scope' : Path} (hfirst : Shows first front scope)
    (hrest : ∀ state last, r scope state = some last → Shows last back scope') (h : first.andThen r = some out) :
    Shows out (front ++ back) scope' := by
  rcases andThen_some h with ⟨hgo, rfl⟩ | ⟨hgo, last, hlast, rfl⟩
  · refine ⟨hfirst.1.trans (List.prefix_append _ _), fun h => ?_⟩
    rw [hgo] at h
    cases h
  · obtain ⟨hall, hscope⟩ := hfirst.2 hgo
    rw [hscope] at hlast
    obtain ⟨hstart, hrest⟩ := hrest _ _ hlast
    refine ⟨?_, fun h => ?_⟩
    · show visitedPaths (first.steps ++ last.steps) <+: _
      rw [visitedPaths_append, hall]
      exact (List.prefix_append_right_inj _).mpr hstart
    · obtain ⟨hback, hleft⟩ := hrest h
      refine ⟨?_, hleft⟩
      show visitedPaths (first.steps ++ last.steps) = _
      rw [visitedPaths_append, hall, hback]

/-- Going into a list shows nothing of itself. -/
theorem Shows.entered {inside : Outcome σ} {devices : List (Nat × Path)} {scope : Path} (h : Shows inside devices scope)
    (list : Span) (offset : Nat) (inner : Span) :
    Shows { inside with steps := .entered list offset inner :: inside.steps } devices scope := h

end

end NanoChrono.Aml
