import Mathlib.Logic.Relation
import NanoChrono.Ncfs.Paths

/-! # What a path names

A path is a list of names, walked one by one from the root; the names of a symbolic link's target are
walked before those that follow the link. The code's walk over its buffer gives what this definition
gives, unless what is still to walk outgrows the buffer. -/

namespace NanoChrono.Ncfs

open Buffer

/-- The names a path consists of. -/
def components (path : Bytes) : List Bytes := (path.splitOn SLASH).filter (· ≠ [])

namespace Volume

variable (hash : Bytes → Hash) (nameHash : Bytes → UInt64) {Workspace : Type} (D : Decoders Workspace)

/-- The inode that names lead to from a directory, with so many symbolic links left to follow. -/
def resolved (v : Volume) (followLast : Bool) (links : Nat) (dir : UInt64) : List Bytes → Option UInt64
  | [] => some dir
  | name :: names =>
    if name = DOT then v.resolved followLast links dir names
    else if name = DOT_DOT then
      match v.inodeOf hash dir with
      | .error _ => none
      | .ok i => v.resolved followLast links i.parent names
    else
      match v.entry hash nameHash dir name with
      | .error _ => none
      | .ok none => none
      | .ok (some (child, dtype)) =>
        if dtype = DT_LNK ∧ (names ≠ [] ∨ followLast) then
          match links with
          | 0 => none
          | links + 1 =>
            match v.target hash D child with
            | .error _ => none
            | .ok t =>
              v.resolved followLast links (if t.head? = some SLASH then ROOT_INO else dir)
                (components t ++ names)
        else if names ≠ [] ∧ dtype ≠ DT_DIR then none
        else v.resolved followLast links child names
termination_by names => (links, names.length)

end Volume

/-! ## Text -/

/-- A point of a walk: the directory reached, the text still to walk and the links followed. -/
structure Place where
  dir : UInt64
  text : Bytes
  hops : Nat

/-- Where a walk goes from a point. -/
inductive Advance where
  | done (ino : UInt64)
  | fail
  | go (p : Place)

namespace Volume

variable (hash : Bytes → Hash) (nameHash : Bytes → UInt64) {Workspace : Type} (D : Decoders Workspace)

/-- One name of the text. -/
def advance (v : Volume) (followLast : Bool) (p : Place) : Advance :=
  let text := p.text.dropWhile (· == SLASH)
  let name := text.takeWhile (· != SLASH)
  let rest := text.dropWhile (· != SLASH)
  if text = [] then .done p.dir
  else if name = DOT then .go ⟨p.dir, rest, p.hops⟩
  else if name = DOT_DOT then
    match v.inodeOf hash p.dir with
    | .error _ => .fail
    | .ok i => .go ⟨i.parent, rest, p.hops⟩
  else
    match v.entry hash nameHash p.dir name with
    | .error _ => .fail
    | .ok none => .fail
    | .ok (some (child, dtype)) =>
      if dtype = DT_LNK ∧ (rest.all (· == SLASH) = false ∨ followLast) then
        if MAX_HOPS < p.hops + 1 then .fail
        else
          match v.target hash D child with
          | .error _ => .fail
          | .ok t =>
            .go ⟨if t.head? = some SLASH then ROOT_INO else p.dir, t ++ SLASH :: rest, p.hops + 1⟩
      else if rest.all (· == SLASH) = false ∧ dtype ≠ DT_DIR then .fail
      else .go ⟨child, rest, p.hops⟩

/-- Whether what is still to walk comes to outgrow the code's buffer, from a point on. -/
def Outgrows (v : Volume) (followLast : Bool) (p : Place) : Prop :=
  ∃ q, Relation.ReflTransGen (fun p q => v.advance hash nameHash D followLast p = .go q) p q ∧
    STACK_LEN < q.text.length

end Volume

/-! ### Names in a text -/

/-- A name alone. -/
theorem components_name {name : Bytes} (hname : SLASH ∉ name) (hne : name ≠ []) :
    components name = [name] := by
  rw [components, List.splitOn_eq_singleton hname]
  simp [hne]

@[simp] theorem components_nil : components [] = [] := by
  simp [components, List.splitOn]

/-- The names of two texts with a slash between them. -/
theorem components_append (t rest : Bytes) :
    components (t ++ SLASH :: rest) = components t ++ components rest := by
  rw [components, List.splitOn_append_cons_self, List.filter_append]
  rfl

theorem components_slash (rest : Bytes) : components (SLASH :: rest) = components rest := by
  have h := components_append [] rest
  rwa [components_nil, List.nil_append, List.nil_append] at h

/-- Slashes in front name nothing. -/
theorem components_dropWhile (text : Bytes) :
    components (text.dropWhile (· == SLASH)) = components text := by
  induction text with
  | nil => rfl
  | cons c text ih =>
    by_cases hc : c = SLASH
    · subst hc
      rw [List.dropWhile_cons_of_pos (by simp), ih, components_slash]
    · rw [List.dropWhile_cons_of_neg (by simpa using hc)]

/-- The first name of a text, and the names after it. -/
theorem components_takeWhile {text : Bytes} (hne : text.takeWhile (· != SLASH) ≠ []) :
    components text =
      text.takeWhile (· != SLASH) :: components (text.dropWhile (· != SLASH)) := by
  have hname : SLASH ∉ text.takeWhile (· != SLASH) := by
    intro hmem
    simpa using List.all_eq_true.1 List.all_takeWhile _ hmem
  have hsplit := List.takeWhile_append_dropWhile (p := (· != SLASH)) (l := text)
  rcases hrest : text.dropWhile (· != SLASH) with _ | ⟨c, rest⟩
  · rw [hrest, List.append_nil] at hsplit
    rw [components_nil, ← components_name hname hne, hsplit]
  · have hc : c = SLASH := by
      have h := List.head_dropWhile_not (p := (· != SLASH)) (l := text) (by rw [hrest]; simp)
      simpa [hrest] using h
    subst hc
    calc components text
        = components (text.takeWhile (· != SLASH) ++ SLASH :: rest) := by rw [← hrest, hsplit]
      _ = text.takeWhile (· != SLASH) :: components rest := by
        rw [components_append, components_name hname hne, List.singleton_append]
      _ = _ := by rw [components_slash]

/-- A text names nothing exactly if it is all slashes. -/
theorem components_eq_nil (text : Bytes) : components text = [] ↔ text.all (· == SLASH) = true := by
  induction text with
  | nil => simp
  | cons c text ih =>
    by_cases hc : c = SLASH
    · subst hc
      rw [components_slash, ih]
      simp
    · have hname : (c :: text).takeWhile (· != SLASH) ≠ [] := by
        rw [List.takeWhile_cons_of_pos (by simpa using hc)]
        exact List.cons_ne_nil _ _
      rw [components_takeWhile hname]
      simp [hc]

/-- The point a walk of the code has reached. -/
def Walking.place {Workspace : Type} (w : Walking Workspace) : Place := ⟨w.dir, w.stack.rest, w.hops⟩

/-- The path still to walk fits the buffer it lies in. -/
theorem Walking.fits {Workspace : Type} (w : Walking Workspace) : w.place.text.length ≤ STACK_LEN := by
  rw [show w.place.text = w.stack.rest from rfl, Stack.length_rest]
  exact Nat.sub_le _ _

namespace Volume

section Names

variable (hash : Bytes → Hash) (nameHash : Bytes → UInt64) {Workspace : Type} (D : Decoders Workspace)

/-- The inode that the names of a place's text lead to. -/
def resolvedAt (v : Volume) (followLast : Bool) (p : Place) : Option UInt64 :=
  v.resolved hash nameHash D followLast (MAX_HOPS - p.hops) p.dir (components p.text)

/-- The inode that the rest of a walk leads to. -/
def resolvedNext (v : Volume) (followLast : Bool) : Advance → Option UInt64
  | .done ino => some ino
  | .fail => none
  | .go p => v.resolvedAt hash nameHash D followLast p

/-- A step of a walk keeps what the names lead to. -/
theorem resolvedAt_advance (v : Volume) (followLast : Bool) (p : Place) :
    v.resolvedAt hash nameHash D followLast p =
      v.resolvedNext hash nameHash D followLast (v.advance hash nameHash D followLast p) := by
  rw [resolvedAt, advance, ← components_dropWhile]
  generalize htext : p.text.dropWhile (· == SLASH) = text
  by_cases hnil : text = []
  · rw [if_pos hnil, hnil, components_nil, resolved]
    rfl
  have hname : text.takeWhile (· != SLASH) ≠ [] := by
    have hhead := List.head_dropWhile_not (· == SLASH) (l := p.text) (by rw [htext]; exact hnil)
    rcases text with _ | ⟨c, text⟩
    · exact absurd rfl hnil
    · simp only [htext, List.head_cons] at hhead
      rw [List.takeWhile_cons_of_pos (by simpa using hhead)]
      exact List.cons_ne_nil _ _
  have hlast : ((text.dropWhile (· != SLASH)).all (· == SLASH) = false) ↔
      components (text.dropWhile (· != SLASH)) ≠ [] := by
    rw [Ne, components_eq_nil, Bool.not_eq_true]
  rw [components_takeWhile hname, resolved, if_neg hnil]
  simp only [hlast]
  generalize text.takeWhile (· != SLASH) = name
  generalize text.dropWhile (· != SLASH) = rest
  -- one case for each kind of name
  split
  · rfl
  split
  · cases v.inodeOf hash p.dir <;> rfl
  cases v.entry hash nameHash p.dir name with
  | error e => rfl
  | ok found =>
  rcases found with _ | ⟨child, dtype⟩
  · rfl
  dsimp only
  split
  · by_cases hhops : MAX_HOPS < p.hops + 1
    · rw [if_pos hhops, show MAX_HOPS - p.hops = 0 by omega]
      rfl
    · rw [if_neg hhops, show MAX_HOPS - p.hops = MAX_HOPS - (p.hops + 1) + 1 by omega]
      dsimp only
      cases v.target hash D child with
      | error e => rfl
      | ok t =>
        dsimp only
        rw [resolvedNext, resolvedAt, components_append]
  · split <;> rfl

end Names

section Code

variable {hash : Bytes → Hash} {nameHash : Bytes → UInt64} {Workspace : Type} {D : Decoders Workspace}

/-! ## The code's walk -/

/-- What a walk of the code keeps: its scratch holds nothing of another volume, and a link fits its
buffer. -/
structure Sound (hash : Bytes → Hash) (D : Decoders Workspace) (v : Volume) (w : Walking Workspace) :
    Prop where
  holds : v.HoldsOf hash D w.scratch
  roomy : w.link.length = LINK_LEN

/-- A turn of the loop goes as the text does; or the text has outgrown the buffer, and it fails. -/
inductive Turned (hash : Bytes → Hash) (D : Decoders Workspace) (v : Volume) :
    Advance → Option (Turn Workspace) → Prop where
  | done {ino : UInt64} {s : Scratch Workspace} (hs : v.HoldsOf hash D s) :
    Turned hash D v (.done ino) (some (.ret (.ok ino) s))
  | fail {e : Error} {s : Scratch Workspace} (hs : v.HoldsOf hash D s) :
    Turned hash D v .fail (some (.ret (.error e) s))
  | go {p : Place} {w : Walking Workspace} (hw : v.Sound hash D w) (hplace : w.place = p) :
    Turned hash D v (.go p) (some (.next w))
  | outgrown {p : Place} {s : Scratch Workspace} (hs : v.HoldsOf hash D s)
    (hlen : STACK_LEN < p.text.length) : Turned hash D v (.go p) (some (.ret (.error .invalidName) s))

/-- A link is followed to its target. -/
theorem followLink_turned {v : Volume} {w : Walking Workspace} (hw : v.Sound hash D w) (child : UInt64)
    (after : Stack) {t : Bytes} (ht : v.target hash D child = .ok t) (hhops : ¬ MAX_HOPS < w.hops + 1) :
    Turned hash D v
      (.go ⟨if t.head? = some SLASH then ROOT_INO else w.dir, t ++ SLASH :: after.rest, w.hops + 1⟩)
      (v.followLink hash D child after w) := by
  obtain ⟨node, hinode⟩ := @inode_eq hash v child w.scratch.node
  rw [followLink, if_neg hhops, hinode]
  rw [target_eq] at ht
  obtain ⟨i, hi, hbytes⟩ := Check.bind_ok.1 ht
  rw [hi]
  dsimp only
  have hreads := @readLink_reads hash Workspace D v child i w.link { w.scratch with node } hw.roomy hw.holds
  rw [hbytes] at hreads
  generalize v.readLink hash D child i w.link { w.scratch with node } = r at hreads ⊢
  cases hreads with
  | @target _ link s hne htake hlink hs =>
  have hinside := after.inside
  dsimp only
  by_cases hroom : after.start < t.length + 1
  · rw [if_pos hroom]
    refine .outgrown hs ?_
    rw [List.length_append, List.length_cons, Stack.length_rest]
    omega
  have hfits : ¬ link.length < t.length := by
    rw [← htake, List.length_take]
    omega
  obtain ⟨k, hk, hkrest, hkstart⟩ := @Stack.put_rest after [SLASH] (by rw [List.length_singleton]; omega)
  rw [List.length_singleton] at hkstart
  obtain ⟨k', hk', hkrest', -⟩ := @Stack.put_rest k t (by omega)
  have hhead : t.head? = link[0]? := by
    rw [← htake, List.head?_take, if_neg (by rw [List.length_eq_zero_iff]; exact hne),
      List.head?_eq_getElem?]
  rw [if_neg hroom, if_neg hfits, hk, Option.bind_some, htake, hk', Option.map_some, hhead]
  refine .go ⟨hs, hlink⟩ ?_
  rw [Walking.place, hkrest', hkrest, List.singleton_append]

/-- A link that cannot be followed fails. -/
theorem followLink_failed {v : Volume} {w : Walking Workspace} (hw : v.Sound hash D w) (child : UInt64)
    (after : Stack) (ht : ¬ MAX_HOPS < w.hops + 1 → ∃ e, v.target hash D child = .error e) :
    Turned hash D v .fail (v.followLink hash D child after w) := by
  rw [followLink]
  by_cases hhops : MAX_HOPS < w.hops + 1
  · rw [if_pos hhops]
    exact .fail hw.holds
  obtain ⟨node, hinode⟩ := @inode_eq hash v child w.scratch.node
  obtain ⟨e, ht⟩ := ht hhops
  rw [if_neg hhops, hinode]
  rw [target_eq] at ht
  cases hi : v.inodeOf hash child with
  | error e => exact .fail hw.holds
  | ok i =>
    have hreads := @readLink_reads hash Workspace D v child i w.link { w.scratch with node } hw.roomy
      hw.holds
    rw [hi] at ht
    rw [show v.linkBytes hash D child i = .error e from ht] at hreads
    dsimp only
    generalize v.readLink hash D child i w.link { w.scratch with node } = r at hreads ⊢
    cases hreads with
    | error hlink hs => exact .fail hs

/-- A turn of the loop goes as the text does. -/
theorem turn_turned {v : Volume} (followLast : Bool) {w : Walking Workspace} (hw : v.Sound hash D w) :
    Turned hash D v (v.advance hash nameHash D followLast w.place)
      (v.turn hash nameHash D followLast w) := by
  rw [advance, turn]
  rw [show w.place.text.dropWhile (· == SLASH) = (w.stack.skipWhile (· == SLASH)).rest from
    (Stack.rest_skipWhile _ _).symm]
  dsimp only
  generalize w.stack.skipWhile (· == SLASH) = path
  rw [show path.rest.dropWhile (· != SLASH) = (path.skipWhile (· != SLASH)).rest from
    (Stack.rest_skipWhile _ _).symm]
  have hlen : (path.skipWhile (· != SLASH)).start - path.start =
      (path.rest.takeWhile (· != SLASH)).length := Nat.add_sub_cancel_left _ _
  have hslice := Stack.slice_skipWhile (· != SLASH) path
  rw [hlen] at hslice ⊢
  generalize path.rest.takeWhile (· != SLASH) = name at hslice ⊢
  generalize path.skipWhile (· != SLASH) = after
  rw [hslice]
  by_cases hend : path.rest = []
  · rw [if_pos hend, if_pos (path.rest_eq_nil.1 hend)]
    exact .done hw.holds
  rw [if_neg hend, if_neg (mt path.rest_eq_nil.2 hend)]
  -- a name too long for the buffer is one that no directory holds
  by_cases hmax : NAME_MAX < name.length
  · have hinvalid : validName name = false := by
      rw [validName, decide_eq_false (Nat.not_le.2 hmax)]
      simp
    have hdot : name ≠ DOT ∧ name ≠ DOT_DOT := by
      constructor <;> rintro rfl <;> revert hmax <;> decide
    rw [if_pos hmax, if_neg hdot.1, if_neg hdot.2, entry_of_invalid hinvalid]
    exact .fail hw.holds
  rw [if_neg hmax]
  by_cases hdot : name = DOT
  · rw [if_pos hdot, if_pos hdot]
    exact .go ⟨hw.holds, hw.roomy⟩ rfl
  rw [if_neg hdot, if_neg hdot]
  by_cases hup : name = DOT_DOT
  · rw [if_pos hup, if_pos hup]
    obtain ⟨node, hinode⟩ := @inode_eq hash v w.dir w.scratch.node
    rw [hinode, show w.place.dir = w.dir from rfl]
    cases v.inodeOf hash w.dir with
    | error e => exact .fail hw.holds
    | ok i => exact .go ⟨hw.holds, hw.roomy⟩ rfl
  rw [if_neg hup, if_neg hup]
  obtain ⟨node, hlookup⟩ := @lookup_eq hash nameHash v w.dir name w.scratch.node
  rw [hlookup, show w.place.dir = w.dir from rfl]
  cases v.entry hash nameHash w.dir name with
  | error e => exact .fail hw.holds
  | ok found =>
  rcases found with _ | ⟨child, dtype⟩
  · exact .fail hw.holds
  have hw' : v.Sound hash D { w with scratch := { w.scratch with node } } := ⟨hw.holds, hw.roomy⟩
  dsimp only
  split
  · by_cases hhops : MAX_HOPS < w.hops + 1
    · rw [show w.place.hops = w.hops from rfl, if_pos hhops]
      exact followLink_failed hw' child after (fun h => absurd hhops h)
    · rw [show w.place.hops = w.hops from rfl, if_neg hhops]
      cases htarget : v.target hash D child with
      | error e => exact followLink_failed hw' child after (fun _ => ⟨e, htarget⟩)
      | ok t => exact followLink_turned hw' child after htarget hhops
  · split
    · exact .fail hw.holds
    · exact .go ⟨hw.holds, hw.roomy⟩ rfl

/-! ## The whole walk -/

/-- A walk that ends within the buffer does not outgrow it. -/
theorem not_outgrows {v : Volume} {followLast : Bool} {p : Place} (hp : p.text.length ≤ STACK_LEN)
    (h : ∀ q, v.advance hash nameHash D followLast p ≠ .go q) :
    ¬ v.Outgrows hash nameHash D followLast p := by
  rintro ⟨q, hq, hlen⟩
  rcases hq.cases_head with rfl | ⟨q', hgo, -⟩
  · omega
  · exact h q' hgo

/-- A walk within the buffer outgrows it exactly if its rest does. -/
theorem outgrows_iff {v : Volume} {followLast : Bool} {p q : Place} (hp : p.text.length ≤ STACK_LEN)
    (h : v.advance hash nameHash D followLast p = .go q) :
    v.Outgrows hash nameHash D followLast p ↔ v.Outgrows hash nameHash D followLast q := by
  constructor
  · rintro ⟨q', hq, hlen⟩
    rcases hq.cases_head with rfl | ⟨q'', hgo, hrest⟩
    · omega
    · obtain rfl := Advance.go.inj (h.symm.trans hgo)
      exact ⟨q', hrest, hlen⟩
  · rintro ⟨q', hq, hlen⟩
    exact ⟨q', hq.head h, hlen⟩

theorem walk_of_ret {v : Volume} {followLast : Bool} {w : Walking Workspace} {r : Except Error UInt64}
    {s : Scratch Workspace} (h : v.turn hash nameHash D followLast w = some (.ret r s)) :
    v.walk hash nameHash D followLast w = some (r, s) := by
  rw [walk]
  split
  next h' => cases h.symm.trans h'
  next h' =>
    cases h.symm.trans h'
    rfl
  next h' => cases h.symm.trans h'

theorem walk_of_next {v : Volume} {followLast : Bool} {w w' : Walking Workspace}
    (h : v.turn hash nameHash D followLast w = some (.next w')) :
    v.walk hash nameHash D followLast w = v.walk hash nameHash D followLast w' := by
  rw [walk]
  split
  next h' => cases h.symm.trans h'
  next h' => cases h.symm.trans h'
  next h' =>
    cases h.symm.trans h'
    rfl

/-- The code's walk ends, within its buffers, and gives the inode that the names lead to if what is
left to walk never outgrows the buffer. -/
theorem walk_resolved (v : Volume) (followLast : Bool) (w : Walking Workspace)
    (hw : v.Sound hash D w) :
    ∃ r s, v.walk hash nameHash D followLast w = some (r, s) ∧ v.HoldsOf hash D s ∧
      ∀ ino, r = .ok ino ↔ v.resolvedAt hash nameHash D followLast w.place = some ino ∧
        ¬ v.Outgrows hash nameHash D followLast w.place := by
  induction w using walk.induct hash nameHash D v followLast with
  | case1 w h =>
    -- no index leaves a buffer
    have hturn := @turn_turned hash nameHash Workspace D v followLast w hw
    rw [h] at hturn
    generalize v.advance hash nameHash D followLast w.place = a at hturn
    cases hturn
  | case2 w r s h =>
    have hturn := @turn_turned hash nameHash Workspace D v followLast w hw
    have hfits := w.fits
    have hstep := resolvedAt_advance hash nameHash D v followLast w.place
    rw [h] at hturn
    refine ⟨r, s, walk_of_ret h, ?_⟩
    rw [hstep]
    generalize hadvance : v.advance hash nameHash D followLast w.place = a at hturn
    cases hturn with
    | done hs =>
      have hnot := @not_outgrows hash nameHash Workspace D v followLast w.place hfits
        (fun q hq => by cases hadvance.symm.trans hq)
      refine ⟨hs, fun i => ⟨fun hi => ⟨?_, hnot⟩, fun hi => ?_⟩⟩
      · exact congrArg some (Except.ok.inj hi)
      · exact congrArg Except.ok (Option.some.inj hi.1)
    | fail hs =>
      refine ⟨hs, fun i => ⟨fun hi => ?_, fun hi => ?_⟩⟩
      · cases hi
      · cases hi.1
    | outgrown hs hlen =>
      refine ⟨hs, fun i => ⟨fun hi => ?_, fun hi => ?_⟩⟩
      · cases hi
      · exact absurd ⟨_, .single hadvance, hlen⟩ hi.2
  | case3 w w' h ih =>
    have hturn := @turn_turned hash nameHash Workspace D v followLast w hw
    have hstep := resolvedAt_advance hash nameHash D v followLast w.place
    rw [h] at hturn
    generalize hadvance : v.advance hash nameHash D followLast w.place = a at hturn hstep
    cases hturn with
    | go hw' hplace =>
      subst hplace
      rw [walk_of_next h, hstep, outgrows_iff w.fits hadvance]
      exact ih hw'

/-- Where the walk of a path starts. -/
def origin (path : Bytes) : Place := ⟨ROOT_INO, path, 0⟩

/-- An answer for a path: the inode that its names lead to if what is left to walk never outgrows the
buffer, else an error; and a scratch that can be used again. -/
def Answers (hash : Bytes → Hash) (nameHash : Bytes → UInt64) (D : Decoders Workspace) (v : Volume)
    (followLast : Bool) (path : Bytes) (a : Option (Except Error UInt64 × Scratch Workspace)) : Prop :=
  ∃ r s, a = some (r, s) ∧ v.HoldsOf hash D s ∧
    ∀ ino, r = .ok ino ↔
      v.resolved hash nameHash D followLast MAX_HOPS ROOT_INO (components path) = some ino ∧
        ¬ v.Outgrows hash nameHash D followLast (origin path)

theorem walkPath_answers {v : Volume} {path : Bytes} (hpath : path.length ≤ STACK_LEN)
    {s : Scratch Workspace} (hs : v.HoldsOf hash D s) (followLast : Bool) :
    v.Answers hash nameHash D followLast path (v.walkPath hash nameHash D path s followLast) := by
  obtain ⟨r, s', hwalk, hs', hr⟩ := @walk_resolved hash nameHash Workspace D v followLast
    { stack := .ofPath path hpath, dir := ROOT_INO, hops := 0, link := List.replicate LINK_LEN 0,
      scratch := s }
    ⟨hs, List.length_replicate⟩
  rw [Walking.place, Stack.rest_ofPath hpath] at hr
  refine ⟨r, s', ?_, hs', hr⟩
  rw [walkPath, dif_pos hpath]
  exact hwalk

/-- A path is resolved to what its names lead to, with a new scratch and with one that was used for the
volume before. -/
theorem resolve_defined (hash : Bytes → Hash) (nameHash : Bytes → UInt64) (D : Decoders Workspace)
    (v : Volume) :
    v.HoldsOf hash D (Scratch.new D) ∧
    ∀ s, v.HoldsOf hash D s → ∀ path : Bytes, path.length ≤ STACK_LEN →
      v.Answers hash nameHash D false path (v.resolve hash nameHash D path s) ∧
        v.Answers hash nameHash D true path (v.resolveFollow hash nameHash D path s) :=
  ⟨fun sv ino w n hn => (by cases hn),
    fun _ hs _ hpath => ⟨walkPath_answers hpath hs false, walkPath_answers hpath hs true⟩⟩

end Code

open Stale in
/-- The root under another name. -/
theorem resolve_defined_root :
    ∃ s, (volume Stale.hash 1).resolve Stale.hash (fun _ => 0) decoders [SLASH, 0x2E, SLASH]
      (Scratch.new decoders) = some (.ok ROOT_INO, s) := by
  obtain ⟨hnew, hdefined⟩ := resolve_defined Stale.hash (fun _ => 0) decoders (volume Stale.hash 1)
  obtain ⟨⟨r, s, hresolve, -, hr⟩, -⟩ :=
    hdefined (Scratch.new decoders) hnew [SLASH, 0x2E, SLASH] (by decide)
  have hnames : components [SLASH, 0x2E, SLASH] = [DOT] := by decide
  have hnot : ¬ (volume Stale.hash 1).Outgrows Stale.hash (fun _ => 0) decoders false
      (origin [SLASH, 0x2E, SLASH]) := by
    rw [@outgrows_iff _ _ _ _ _ _ _ ⟨ROOT_INO, [SLASH], 0⟩ (by decide) rfl]
    exact not_outgrows (by decide) (fun q hq => by cases hq)
  have hroot := (hr ROOT_INO).2 ⟨by rw [hnames, resolved, if_pos rfl, resolved], hnot⟩
  exact ⟨s, by rw [hresolve, hroot]⟩

end Volume

end NanoChrono.Ncfs
