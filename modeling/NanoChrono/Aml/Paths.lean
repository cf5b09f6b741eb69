import NanoChrono.Aml.Reported

/-! # The paths of devices

The path that the specification assigns to each device of a table (`assignedIn`): a name is given from the root, or
from so many scopes up, and a scope of one segment is looked for upwards. The walk drops the parent prefixes of names
and opens scopes where it is, so that it shows a device under its path exactly where neither matters: each name the
device is under, since the last one given from the root, resolves in the scope it stands in (`device_paths`). -/

namespace NanoChrono.Aml

/-! ## Assigned paths -/

/-- The path of an object that a name declares in a scope. -/
def NameString.declares (n : NameString) (scope : List NameSeg) : List NameSeg :=
  match n.root with
  | .absolute => n.segs
  | .parents k => scope.take (scope.length - k) ++ n.segs

/-- The nearest object of a name, from a scope upwards, among those that are known. -/
def searchUp (known : List NameSeg → Bool) (scope : List NameSeg) (seg : NameSeg) : List NameSeg :=
  (((List.range (scope.length + 1)).map fun k => scope.take (scope.length - k) ++ [seg]).find? known).getD
    (scope ++ [seg])

/-- The path of the object that a name opens in a scope: one segment without a prefix is looked for upwards. -/
def NameString.opens (n : NameString) (known : List NameSeg → Bool) (scope : List NameSeg) : List NameSeg :=
  match n.root, n.segs with
  | .parents 0, [seg] => searchUp known scope seg
  | _, _ => n.declares scope

section

variable (known : Nat → List NameSeg → Bool)

mutual

/-- The devices that a term declares, in a scope and from a position: their offsets and the paths assigned to them.
The objects that exist when the term at an offset is loaded are known. -/
def Term.assigned (scope : List NameSeg) (pos : Nat) : Term → List (Nat × List NameSeg)
  | .scope width n list => assignedIn (n.opens (known pos) scope) (pos + (1 + (width + 1) + n.encode.length)) list
  | .object kind width n fixed list =>
    (if kind = .device then [(pos, n.declares scope)] else []) ++
      assignedIn (n.declares scope) (pos + (2 + (width + 1) + n.encode.length + fixed.length)) list
  | .ifThen width predicate list => assignedIn scope (pos + (1 + (width + 1) + predicate.encode.length)) list
  | .otherwise width list => assignedIn scope (pos + (1 + (width + 1))) list
  | .whileDo width predicate list => assignedIn scope (pos + (1 + (width + 1) + predicate.encode.length)) list
  | _ => []

def assignedIn (scope : List NameSeg) (pos : Nat) : List Term → List (Nat × List NameSeg)
  | [] => []
  | t :: ts => t.assigned scope pos ++ assignedIn scope (pos + t.encode.length) ts

end

/-! ## Names that resolve where they stand -/

/-- A device that is shown: the path it is shown under, that assigned to it, and whether every name it is under, since
the last one given from the root, resolves in the scope it stands in. -/
structure ShownDevice where
  offset : Nat
  path : Path
  assigned : List NameSeg
  straight : Bool

/-- Whether a name is given from the root, or in a scope that is straight resolves to a path there. -/
def stays (straight : Bool) (scope : List NameSeg) (n : NameString) (resolved : List NameSeg) : Bool :=
  n.isAbsolute || (straight && resolved = scope ++ n.segs)

mutual

/-- The devices that the walk shows for a term. -/
def Term.shown (scope : Path) (q : List NameSeg) (straight : Bool) (pos : Nat) : Term → List ShownDevice
  | .scope width n list =>
    shownIn (enter scope (n.read, n.isAbsolute)).1 (n.opens (known pos) q)
      (stays straight q n (n.opens (known pos) q)) (pos + (1 + (width + 1) + n.encode.length)) list
  | .object kind width n fixed list =>
    (if kind = .device ∧ (enter scope (n.read, n.isAbsolute)).2 then
        [⟨pos, (enter scope (n.read, n.isAbsolute)).1, n.declares q, stays straight q n (n.declares q)⟩]
      else []) ++
      shownIn (enter scope (n.read, n.isAbsolute)).1 (n.declares q) (stays straight q n (n.declares q))
        (pos + (2 + (width + 1) + n.encode.length + fixed.length)) list
  | .ifThen width predicate list => shownIn scope q straight (pos + (1 + (width + 1) + predicate.encode.length)) list
  | .otherwise width list => shownIn scope q straight (pos + (1 + (width + 1))) list
  | .whileDo width predicate list => shownIn scope q straight (pos + (1 + (width + 1) + predicate.encode.length)) list
  | _ => []

/-- The devices that the walk shows for a list: up to the first term that ends it. -/
def shownIn (scope : Path) (q : List NameSeg) (straight : Bool) (pos : Nat) : List Term → List ShownDevice
  | [] => []
  | t :: ts =>
    if t.walks then t.shown scope q straight pos ++ shownIn scope q straight (pos + t.encode.length) ts
    else if t.hasPredicate then shownIn scope q straight (pos + t.encode.length) ts
    else []

end

mutual

theorem Term.shown_reported : (t : Term) → ∀ scope q straight pos,
    (t.shown known scope q straight pos).map (fun d => (d.offset, d.path)) = t.reported scope pos
  | .scope _ n list => fun scope q straight pos => shownIn_reported list _ _ _ _
  | .object kind width n fixed list => fun scope q straight pos => by
    rw [Term.shown, Term.reported, List.map_append, shownIn_reported list]
    split
    · rfl
    · rfl
  | .ifThen _ _ list => fun _ _ _ _ => shownIn_reported list _ _ _ _
  | .otherwise _ list => fun _ _ _ _ => shownIn_reported list _ _ _ _
  | .whileDo _ _ list => fun _ _ _ _ => shownIn_reported list _ _ _ _
  | .name .. | .aliased .. | .declared .. | .method .. | .createField .. | .createBits .. | .opRegion .. | .fields ..
  | .mutex .. | .event .. | .noop | .breakLoop | .continueLoop | .ret .. | .notify .. | .action .. | .load ..
  | .fatal .. | .effect .. => fun _ _ _ _ => rfl

/-- The devices shown are those reported. -/
theorem shownIn_reported : (ts : List Term) → ∀ scope q straight pos,
    (shownIn known scope q straight pos ts).map (fun d => (d.offset, d.path)) = reportedIn scope pos ts
  | [] => fun _ _ _ _ => rfl
  | t :: ts => fun scope q straight pos => by
    rw [shownIn, reportedIn]
    split
    · rw [List.map_append, t.shown_reported, shownIn_reported ts]
    · split
      · exact shownIn_reported ts _ _ _ _
      · rfl

end

mutual

theorem Term.shown_assigned : (t : Term) → ∀ scope q straight pos, ∀ d ∈ t.shown known scope q straight pos,
    (d.offset, d.assigned) ∈ t.assigned known q pos
  | .scope _ n list => fun scope q straight pos => shownIn_assigned list _ _ _ _
  | .object kind width n fixed list => fun scope q straight pos d hd => by
    rcases List.mem_append.mp hd with hd | hd
    · split at hd
      next hdevice =>
        obtain rfl := List.mem_singleton.mp hd
        rw [Term.assigned, if_pos hdevice.1]
        exact List.mem_append_left _ List.mem_cons_self
      next => cases hd
    · exact List.mem_append_right _ (shownIn_assigned list _ _ _ _ d hd)
  | .ifThen _ _ list => fun _ _ _ _ => shownIn_assigned list _ _ _ _
  | .otherwise _ list => fun _ _ _ _ => shownIn_assigned list _ _ _ _
  | .whileDo _ _ list => fun _ _ _ _ => shownIn_assigned list _ _ _ _
  | .name .. | .aliased .. | .declared .. | .method .. | .createField .. | .createBits .. | .opRegion .. | .fields ..
  | .mutex .. | .event .. | .noop | .breakLoop | .continueLoop | .ret .. | .notify .. | .action .. | .load ..
  | .fatal .. | .effect .. => fun _ _ _ _ _ hd => by cases hd

/-- Each device shown is declared at its offset, with the path assigned to it. -/
theorem shownIn_assigned : (ts : List Term) → ∀ scope q straight pos, ∀ d ∈ shownIn known scope q straight pos ts,
    (d.offset, d.assigned) ∈ assignedIn known q pos ts
  | [] => fun _ _ _ _ _ hd => by cases hd
  | t :: ts => fun scope q straight pos d hd => by
    rw [shownIn] at hd
    rw [assignedIn]
    split at hd
    · rcases List.mem_append.mp hd with hd | hd
      · exact List.mem_append_left _ (t.shown_assigned _ _ _ _ d hd)
      · exact List.mem_append_right _ (shownIn_assigned ts _ _ _ _ d hd)
    · split at hd
      · exact List.mem_append_right _ (shownIn_assigned ts _ _ _ _ d hd)
      · cases hd

end

/-! ## Straight scopes -/

/-- What is pushed past the end of a path is dropped. -/
theorem Path.pushAll_segments (segs : List NameSeg) : ∀ p : Path,
    (p.pushAll segs).1.segments = (p.segments ++ segs).take MAX_PATH ∧
      (p.pushAll segs).2 = decide (p.segments.length + segs.length ≤ MAX_PATH) := by
  induction segs with
  | nil =>
    intro p
    refine ⟨?_, (decide_eq_true p.fits).symm⟩
    rw [List.append_nil, List.take_of_length_le p.fits]
    rfl
  | cons s segs ih =>
    intro p
    obtain ⟨hsegs, hfits⟩ := ih (p.push s).1
    rw [Path.pushAll_cons, hsegs, hfits]
    by_cases hroom : p.segments.length < MAX_PATH
    · obtain ⟨hpush, htrue⟩ := Path.push_room hroom s
      rw [hpush, htrue, Bool.true_and]
      refine ⟨congrArg (List.take MAX_PATH) (List.append_assoc _ _ _), decide_eq_decide.mpr ?_⟩
      rw [List.length_append, List.length_singleton, List.length_cons]
      omega
    · have hfull : p.segments.length = MAX_PATH := Nat.le_antisymm p.fits (Nat.le_of_not_lt hroom)
      have hdrop : ∀ l : List NameSeg, (p.segments ++ l).take MAX_PATH = p.segments.take MAX_PATH := fun l =>
        List.take_append_of_le_length (Nat.le_of_eq hfull.symm)
      rw [Path.push_full hroom, Bool.false_and]
      refine ⟨(hdrop segs).trans (hdrop (s :: segs)).symm, (decide_eq_false ?_).symm⟩
      rw [List.length_cons]
      omega

/-- A scope of the walk beside that of the specification: it is longer by the scopes that were dropped on the way up,
as far as a path can be held, and with none dropped it is the same. -/
def Beside (scope : Path) (q : List NameSeg) (dropped : Nat) : Prop :=
  scope.segments.length = min MAX_PATH (q.length + dropped) ∧ (dropped = 0 → scope.segments = q.take MAX_PATH)

/-- A name resolves to a path from the root, or to one so many scopes up. -/
def Resolves (n : NameString) (q resolved : List NameSeg) : Prop :=
  if n.isAbsolute then resolved = n.segs
  else ∃ k ≤ q.length, resolved = q.take (q.length - k) ++ n.segs

theorem declares_resolves (n : NameString) (q : List NameSeg) : Resolves n q (n.declares q) := by
  obtain ⟨root, path⟩ := n
  cases root with
  | absolute => exact rfl
  | parents k =>
    refine ⟨min k q.length, Nat.min_le_right _ _, ?_⟩
    have hsame : q.length - k = q.length - min k q.length := by omega
    show q.take (q.length - k) ++ _ = _
    rw [hsame]

theorem opens_resolves (n : NameString) (known : List NameSeg → Bool) (q : List NameSeg) :
    Resolves n q (n.opens known q) := by
  unfold NameString.opens
  split
  next seg hroot hsegs =>
    have habsolute : n.isAbsolute = false := by simp [NameString.isAbsolute, hroot]
    unfold Resolves
    rw [habsolute, if_neg Bool.false_ne_true, hsegs, searchUp]
    cases hfind : ((List.range (q.length + 1)).map fun k => q.take (q.length - k) ++ [seg]).find? known with
    | none => exact ⟨0, Nat.zero_le _, by simp⟩
    | some resolved =>
      obtain ⟨k, hk, rfl⟩ := List.mem_map.mp (List.mem_of_find?_eq_some hfind)
      exact ⟨k, Nat.lt_succ_iff.mp (List.mem_range.mp hk), rfl⟩
  next => exact declares_resolves n q

/-- A name with so many scopes dropped resolves in the scope it stands in if none is. -/
theorem take_append_eq {q segs : List NameSeg} {k : Nat} (hk : k ≤ q.length) :
    q.take (q.length - k) ++ segs = q ++ segs ↔ k = 0 := by
  constructor
  · intro h
    have hlen := congrArg List.length h
    rw [List.length_append, List.length_append, List.length_take] at hlen
    omega
  · rintro rfl
    rw [Nat.sub_zero, List.take_length]

/-- Going into an object keeps the scopes beside each other; a device that there is room for has its own path exactly
if none was dropped. -/
theorem Beside.enter {scope : Path} {q resolved : List NameSeg} {dropped : Nat} {straight : Bool} {n : NameString}
    (h : Beside scope q dropped) (hstraight : straight = true ↔ dropped = 0) (hfits : n.fits = true)
    (hresolves : Resolves n q resolved) :
    ∃ dropped', Beside (enter scope (n.read, n.isAbsolute)).1 resolved dropped' ∧
      (stays straight q n resolved = true ↔ dropped' = 0) ∧
      (n.segs ≠ [] → (Aml.enter scope (n.read, n.isAbsolute)).2 = true →
        (stays straight q n resolved = true ↔ (Aml.enter scope (n.read, n.isAbsolute)).1.segments = resolved)) := by
  have hread : n.read.segments = n.segs := by
    have h := (Path.pushAll_room n.segs (p := .root) (by simpa [Path.root] using of_decide_eq_true hfits)).1
    exact h
  have hle : n.segs.length ≤ MAX_PATH := of_decide_eq_true hfits
  unfold Resolves at hresolves
  unfold stays Aml.enter
  dsimp only
  rw [hread]
  cases habsolute : n.isAbsolute with
  | true =>
    rw [habsolute, if_pos rfl] at hresolves
    subst hresolves
    obtain ⟨hsegs, -⟩ := Path.pushAll_segments n.segs .root
    have hall : (Path.root.pushAll n.segs).1.segments = n.segs := by
      rw [hsegs]
      exact List.take_of_length_le hle
    refine ⟨0, ⟨?_, fun _ => ?_⟩, by simp, fun _ _ => by simp [hall]⟩
    · rw [if_pos rfl, hall]
      omega
    · rw [if_pos rfl, hall, List.take_of_length_le hle]
  | false =>
    rw [habsolute, if_neg Bool.false_ne_true] at hresolves
    obtain ⟨k, hk, rfl⟩ := hresolves
    obtain ⟨hsegs, hroom⟩ := Path.pushAll_segments n.segs scope
    obtain ⟨hlen, hsame⟩ := h
    have hlength : (q.take (q.length - k) ++ n.segs).length = q.length - k + n.segs.length := by
      rw [List.length_append, List.length_take, Nat.min_eq_left (Nat.sub_le _ _)]
    have hnew : (scope.pushAll n.segs).1.segments.length = min MAX_PATH (scope.segments.length + n.segs.length) := by
      rw [hsegs, List.length_take, List.length_append]
    have hstays : (false || (straight && q.take (q.length - k) ++ n.segs = q ++ n.segs)) = true ↔ dropped + k = 0 := by
      rw [Bool.false_or, Bool.and_eq_true, hstraight, decide_eq_true_eq, take_append_eq hk]
      omega
    have hzero : dropped + k = 0 → (scope.pushAll n.segs).1.segments =
        (q.take (q.length - k) ++ n.segs).take MAX_PATH := by
      intro hnone
      obtain ⟨hd, rfl⟩ : dropped = 0 ∧ k = 0 := by omega
      rw [hsegs, hsame hd, Nat.sub_zero, List.take_length]
      by_cases hq : q.length ≤ MAX_PATH
      · rw [List.take_of_length_le hq]
      · rw [List.take_append_of_le_length (by rw [List.length_take]; omega), List.take_take, Nat.min_self,
          List.take_append_of_le_length (by omega)]
    refine ⟨dropped + k, ⟨?_, hzero⟩, hstays, fun hne hnamed => ?_⟩
    · show (scope.pushAll n.segs).1.segments.length = _
      rw [hnew, hlength, hlen]
      omega
    · have hpos := List.length_pos_of_ne_nil hne
      have hfit : scope.segments.length + n.segs.length ≤ MAX_PATH := by
        change (scope.pushAll n.segs).2 = true at hnamed
        rw [hroom] at hnamed
        exact of_decide_eq_true hnamed
      rw [hstays]
      constructor
      · intro hnone
        show (scope.pushAll n.segs).1.segments = _
        rw [hzero hnone, List.take_of_length_le (by omega)]
      · intro heq
        have heq' := congrArg List.length (show (scope.pushAll n.segs).1.segments = _ from heq)
        rw [hnew, hlength] at heq'
        omega

mutual

theorem Term.shown_straight : (t : Term) → t.WellFormed → t.walks = true → ∀ scope q dropped straight pos,
    Beside scope q dropped → (straight = true ↔ dropped = 0) → ∀ d ∈ t.shown known scope q straight pos,
      (d.straight = true ↔ d.path.segments = d.assigned)
  | .scope _ n list, h, hw => fun scope q dropped straight pos hb hs => by
    obtain ⟨dropped', hb', hs', -⟩ := hb.enter hs hw (opens_resolves n (known pos) q)
    exact shownIn_straight list h.2 _ _ _ _ _ hb' hs'
  | .object kind width n fixed list, h, hw => fun scope q dropped straight pos hb hs d hd => by
    obtain ⟨dropped', hb', hs', hnamed⟩ := hb.enter hs hw (declares_resolves n q)
    rcases List.mem_append.mp hd with hd | hd
    · split at hd
      next hdevice =>
        obtain rfl := List.mem_singleton.mp hd
        exact hnamed h.2.2.1 hdevice.2
      next => cases hd
    · exact shownIn_straight list h.2.2.2 _ _ _ _ _ hb' hs' d hd
  | .ifThen _ _ list, h, _ => fun _ _ _ _ _ hb hs => shownIn_straight list h.2.2 _ _ _ _ _ hb hs
  | .otherwise _ list, h, _ => fun _ _ _ _ _ hb hs => shownIn_straight list h.2 _ _ _ _ _ hb hs
  | .whileDo _ _ list, h, _ => fun _ _ _ _ _ hb hs => shownIn_straight list h.2.2 _ _ _ _ _ hb hs
  | .name .., _, _ | .aliased .., _, _ | .declared .., _, _ | .method .., _, _ | .createField .., _, _
  | .createBits .., _, _ | .opRegion .., _, _ | .fields .., _, _ | .mutex .., _, _ | .event .., _, _ | .noop, _, _
  | .breakLoop, _, _ | .continueLoop, _, _ | .ret .., _, _ | .notify .., _, _ | .action .., _, _ | .load .., _, _
  | .fatal .., _, _ | .effect .., _, _ => fun _ _ _ _ _ _ _ _ hd => by cases hd

/-- A device is shown under the path assigned to it exactly if it is straight. -/
theorem shownIn_straight : (ts : List Term) → WellFormedTerms ts → ∀ scope q dropped straight pos,
    Beside scope q dropped → (straight = true ↔ dropped = 0) → ∀ d ∈ shownIn known scope q straight pos ts,
      (d.straight = true ↔ d.path.segments = d.assigned)
  | [], _ => fun _ _ _ _ _ _ _ _ hd => by cases hd
  | t :: ts, h => fun scope q dropped straight pos hb hs d hd => by
    rw [shownIn] at hd
    split at hd
    next hw =>
      rcases List.mem_append.mp hd with hd | hd
      · exact t.shown_straight h.1 hw _ _ _ _ _ hb hs d hd
      · exact shownIn_straight ts h.2 _ _ _ _ _ hb hs d hd
    next =>
      split at hd
      · exact shownIn_straight ts h.2 _ _ _ _ _ hb hs d hd
      · cases hd

end

/-! ## The offsets of devices -/

mutual

theorem Term.assigned_rising : (t : Term) → t.WellFormed → ∀ q pos,
    Rising pos (pos + t.encode.length) ((t.assigned known q pos).map Prod.fst)
  | .scope width n list, h => fun q pos => by
    have hlen := Term.listAt_length (t := .scope width n list) rfl
    exact (assignedIn_rising list h.2 _ _).mono (Nat.le_add_right _ _) (by omega)
  | .object kind width n fixed list, h => fun q pos => by
    have hlen := Term.listAt_length (t := .object kind width n fixed list) rfl
    have hinside : Rising (pos + 1) (pos + (Term.object kind width n fixed list).encode.length)
        ((assignedIn known (n.declares q) (pos + (2 + (width + 1) + n.encode.length + fixed.length)) list).map
          Prod.fst) := (assignedIn_rising list h.2.2.2 _ _).mono (by omega) (by omega)
    have hown : Rising pos (pos + 1) ((if kind = .device then [(pos, n.declares q)] else []).map Prod.fst) := by
      split
      · exact .single (Nat.lt_succ_self pos)
      · exact .nil _ _
    rw [Term.assigned, List.map_append]
    exact hown.append hinside (Nat.le_succ pos) (by omega)
  | .ifThen width predicate list, h => fun q pos => by
    have hlen := Term.listAt_length (t := .ifThen width predicate list) rfl
    exact (assignedIn_rising list h.2.2 _ _).mono (Nat.le_add_right _ _) (by omega)
  | .otherwise width list, h => fun q pos => by
    have hlen := Term.listAt_length (t := .otherwise width list) rfl
    exact (assignedIn_rising list h.2 _ _).mono (Nat.le_add_right _ _) (by omega)
  | .whileDo width predicate list, h => fun q pos => by
    have hlen := Term.listAt_length (t := .whileDo width predicate list) rfl
    exact (assignedIn_rising list h.2.2 _ _).mono (Nat.le_add_right _ _) (by omega)
  | .name .., _ | .aliased .., _ | .declared .., _ | .method .., _ | .createField .., _ | .createBits .., _
  | .opRegion .., _ | .fields .., _ | .mutex .., _ | .event .., _ | .noop, _ | .breakLoop, _ | .continueLoop, _
  | .ret .., _ | .notify .., _ | .action .., _ | .load .., _ | .fatal .., _ | .effect .., _ => fun _ _ => .nil _ _

/-- Devices are declared at offsets that rise. -/
theorem assignedIn_rising : (ts : List Term) → WellFormedTerms ts → ∀ q pos,
    Rising pos (pos + (encodeTerms ts).length) ((assignedIn known q pos ts).map Prod.fst)
  | [], _ => fun q pos => .nil _ _
  | t :: ts, h => fun q pos => by
    have hlen : (encodeTerms (t :: ts)).length = t.encode.length + (encodeTerms ts).length := List.length_append
    rw [assignedIn, List.map_append]
    refine (t.assigned_rising h.1 q pos).append ((assignedIn_rising ts h.2 q _).mono (Nat.le_refl _) ?_) ?_ ?_
    · omega
    · omega
    · omega

end

end

/-! ## Tables -/

/-- A table is a header and a list of terms, and its length field counts them. -/
structure Table (table : Bytes) (ts : List Term) : Prop where
  written : ∃ header, header.length = TABLE_HEADER ∧ table = header ++ encodeTerms ts
  length : leValue ((table.drop 4).take 4) = table.length
  wellFormed : WellFormedTerms ts

/-- A table is wrapped whole. -/
theorem Table.new {table : Bytes} {ts : List Term} (h : Table table ts) : Namespace.new table = some ⟨table⟩ := by
  obtain ⟨header, hheader, htable⟩ := h.written
  have hlen : TABLE_HEADER ≤ table.length := by
    rw [htable, List.length_append, hheader]
    exact Nat.le_add_right _ _
  unfold Namespace.new
  rw [if_neg (Nat.not_lt.mpr hlen)]
  dsimp only
  rw [h.length, if_neg (by omega), List.take_length]

theorem Table.at {table : Bytes} {ts : List Term} (h : Table table ts) : At table TABLE_HEADER (encodeTerms ts) := by
  obtain ⟨header, hheader, htable⟩ := h.written
  refine ⟨[], ?_⟩
  rw [htable, ← hheader, List.drop_left, List.append_nil]

/-- A segment of one letter. -/
def letter (b : UInt8) (h : isLead b = true) : Seg := ⟨#v[b, 0x5F, 0x5F, 0x5F], h⟩

end NanoChrono.Aml
