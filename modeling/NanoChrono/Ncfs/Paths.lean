import NanoChrono.Ncfs.Fresh
import NanoChrono.Ncfs.Format

/-! # Paths

A path is resolved name by name. The part still to walk lies at the end of a buffer, and a symbolic
link's target is written in front of it. -/

namespace NanoChrono.Ncfs

open Buffer

/-! ## Items -/

section Items

variable (hash : Bytes → Hash) (dev : BlockDev) (sb : Superblock)

/-- The item with exactly a key, if the caller's room for it is enough. -/
def get (root : Ptr) (owner : UInt64) (key : Key) (room : Nat) (buf : Bytes) :
    Except Error (Option Bytes) × Bytes :=
  match seek hash dev sb owner key root none buf with
  | (.error e, buf) => (.error e, buf)
  | (.ok c, buf) =>
    if c.index = c.count ∨ (leafItem buf c.index).1 ≠ key then (.ok none, buf)
    else if room < (leafItem buf c.index).2.length then (.error (.corrupt root.block), buf)
    else (.ok (some (leafItem buf c.index).2), buf)

end Items

namespace Volume

variable (hash : Bytes → Hash) (nameHash : Bytes → UInt64) {Workspace : Type} (D : Decoders Workspace)

def inode (v : Volume) (ino : UInt64) (buf : Bytes) : Except Error Inode × Bytes :=
  match get hash v.dev v.sb v.root v.subvolId ⟨ino, KIND_INODE, 0⟩ INODE_LEN buf with
  | (.ok (some item), buf) =>
    if item.length = INODE_LEN then
      match Inode.decode item with
      | none => (.error (.corrupt v.root.block), buf)
      | some i => (.ok i, buf)
    else (.error (.corrupt v.root.block), buf)
  | (.error (.corrupt _), buf) => (.error (.corrupt v.root.block), buf)
  | (.ok none, buf) => (.error .notFound, buf)
  | (.error e, buf) => (.error e, buf)

/-- The entry of a name in a directory: its inode and type. -/
def lookup (v : Volume) (dir : UInt64) (name : Bytes) (buf : Bytes) :
    Except Error (Option (UInt64 × UInt8)) × Bytes :=
  if validName name then
    let key : Key := ⟨dir, KIND_DIRENT, nameHash name⟩
    match seek hash v.dev v.sb v.subvolId key v.root none buf with
    | (.error e, buf) => (.error e, buf)
    | (.ok c, buf) =>
      if c.index = c.count ∨ (leafItem buf c.index).1 ≠ key then (.ok none, buf)
      else
        match findName name (dirents (leafItem buf c.index).2) with
        | none => (.error (.corrupt v.root.block), buf)
        | some d => (.ok (d.map fun d => (d.child, d.dtype)), buf)
  else (.error .invalidName, buf)

/-- A symbolic link's target, read into a buffer. -/
def readLink (v : Volume) (ino : UInt64) (i : Inode) (out : Bytes) (s : Scratch Workspace) :
    Except Error Nat × Bytes × Scratch Workspace :=
  if ¬ i.isSymlink then (.error .notASymlink, out, s)
  else if i.size = 0 ∨ out.length < i.size.toNat then (.error (.corrupt v.root.block), out, s)
  else v.read hash D ino i.size 0 out s

end Volume

/-! ## The path still to walk -/

/-- Where a path is walked, and the longest path. -/
def STACK_LEN : Nat := 4096

/-- The longest target of a symbolic link. -/
def LINK_LEN : Nat := 1024

/-- The most symbolic links a path may lead through. -/
def MAX_HOPS : Nat := 16

/-- A buffer with the path still to walk at its end. -/
structure Stack where
  bytes : Bytes
  start : Nat
  full : bytes.length = STACK_LEN
  inside : start ≤ STACK_LEN

namespace Stack

/-- The path still to walk. -/
def rest (k : Stack) : Bytes := k.bytes.drop k.start

/-- The stack past the bytes in front that are as `p` says. -/
def skipWhile (p : UInt8 → Bool) (k : Stack) : Stack where
  bytes := k.bytes
  start := k.start + (k.rest.takeWhile p).length
  full := k.full
  inside := by
    have hrest := (List.takeWhile_sublist (l := k.rest) p).length_le
    have hinside := k.inside
    rw [rest, List.length_drop, k.full] at hrest
    rw [rest]
    omega

/-- Writes bytes in front of the path; nothing where they would reach out of the buffer. -/
def put (k : Stack) (b : Bytes) : Option Stack :=
  if h : b.length ≤ k.start then
    some
      { bytes := splice k.bytes (k.start - b.length) b
        start := k.start - b.length
        full := by
          have hfull := k.full
          have hinside := k.inside
          rw [length_splice (by omega), hfull]
        inside := Nat.le_trans (Nat.sub_le _ _) k.inside }
  else none

/-- The stack a path is walked from. -/
def ofPath (path : Bytes) (h : path.length ≤ STACK_LEN) : Stack where
  bytes := splice (List.replicate STACK_LEN 0) (STACK_LEN - path.length) path
  start := STACK_LEN - path.length
  full := by
    rw [length_splice (by rw [List.length_replicate]; omega), List.length_replicate]
  inside := Nat.sub_le _ _

theorem length_rest (k : Stack) : k.rest.length = STACK_LEN - k.start := by
  rw [rest, List.length_drop, k.full]

theorem rest_eq_nil (k : Stack) : k.rest = [] ↔ k.start = STACK_LEN := by
  have hinside := k.inside
  rw [← List.length_eq_zero_iff, length_rest]
  omega

@[simp] theorem rest_skipWhile (p : UInt8 → Bool) (k : Stack) :
    (k.skipWhile p).rest = k.rest.dropWhile p := by
  have hsplit := List.takeWhile_append_dropWhile (p := p) (l := k.rest)
  rw [rest, skipWhile, ← List.drop_drop, show k.bytes.drop k.start = k.rest from rfl]
  conv_lhs => rw [← hsplit]
  rw [List.drop_left']
  rw [hsplit]

/-- The bytes skipped. -/
theorem slice_skipWhile (p : UInt8 → Bool) (k : Stack) :
    slice k.bytes k.start ((k.skipWhile p).start - k.start) = k.rest.takeWhile p := by
  have hsplit := List.takeWhile_append_dropWhile (p := p) (l := k.rest)
  rw [skipWhile, Nat.add_sub_cancel_left, slice, show k.bytes.drop k.start = k.rest from rfl]
  conv_lhs => rw [← hsplit]
  rw [List.take_left']
  rw [hsplit]

/-- Bytes for which there is room are put in front of the path. -/
theorem put_rest {k : Stack} {b : Bytes} (h : b.length ≤ k.start) :
    ∃ k', k.put b = some k' ∧ k'.rest = b ++ k.rest ∧ k'.start = k.start - b.length := by
  refine ⟨_, dif_pos h, ?_, rfl⟩
  have hinside := k.inside
  have htake : (k.bytes.take (k.start - b.length)).length = k.start - b.length :=
    List.length_take_of_le (by rw [k.full]; omega)
  show (splice k.bytes (k.start - b.length) b).drop (k.start - b.length) = b ++ k.rest
  rw [splice, List.drop_left' htake, Nat.sub_add_cancel h]
  rfl

/-- Past a name less of the path is left. -/
theorem length_rest_name {k : Stack} (h : (k.skipWhile (· == SLASH)).start ≠ STACK_LEN) :
    ((k.skipWhile (· == SLASH)).skipWhile (· != SLASH)).rest.length < k.rest.length := by
  rw [Ne, ← rest_eq_nil, rest_skipWhile] at h
  rw [rest_skipWhile, rest_skipWhile]
  have hdrop := (List.dropWhile_sublist (l := k.rest) (· == SLASH)).length_le
  have hhead := List.head_dropWhile_not (· == SLASH) (l := k.rest) h
  rcases htext : k.rest.dropWhile (· == SLASH) with _ | ⟨c, text⟩
  · exact absurd htext h
  · have hc : (c != SLASH) = true := by
      simp only [htext, List.head_cons] at hhead
      rw [bne, hhead]
      rfl
    have hname := (List.dropWhile_sublist (l := text) (· != SLASH)).length_le
    rw [htext, List.length_cons] at hdrop
    have hcons : (c :: text).dropWhile (· != SLASH) = text.dropWhile (· != SLASH) :=
      List.dropWhile_cons_of_pos hc
    rw [hcons]
    omega

theorem rest_ofPath {path : Bytes} (h : path.length ≤ STACK_LEN) : (ofPath path h).rest = path := by
  have htake : ((List.replicate STACK_LEN (0 : UInt8)).take (STACK_LEN - path.length)).length =
      STACK_LEN - path.length := List.length_take_of_le (by rw [List.length_replicate]; omega)
  show (splice (List.replicate STACK_LEN 0) (STACK_LEN - path.length) path).drop
    (STACK_LEN - path.length) = path
  rw [splice, List.drop_left' htake, Nat.sub_add_cancel h, List.drop_eq_nil_of_le
    (by rw [List.length_replicate]), List.append_nil]

end Stack

/-! ## Walking -/

/-- What the loop keeps: the path, the directory it is walked from, the links followed so far, the
buffer links are read into and the scratch. -/
structure Walking (Workspace : Type) where
  stack : Stack
  dir : UInt64
  hops : Nat
  link : Bytes
  scratch : Scratch Workspace

/-- How a turn of the loop ends. -/
inductive Turn (Workspace : Type) where
  | ret (r : Except Error UInt64) (s : Scratch Workspace)
  | next (w : Walking Workspace)

namespace Volume

variable (hash : Bytes → Hash) (nameHash : Bytes → UInt64) {Workspace : Type} (D : Decoders Workspace)

/-- Follows a symbolic link that stood before `after`; nothing where an index would leave a buffer. -/
def followLink (v : Volume) (child : UInt64) (after : Stack) (w : Walking Workspace) :
    Option (Turn Workspace) :=
  if MAX_HOPS < w.hops + 1 then some (.ret (.error .loop) w.scratch)
  else
    match v.inode hash child w.scratch.node with
    | (.error e, node) => some (.ret (.error e) { w.scratch with node })
    | (.ok i, node) =>
      match v.readLink hash D child i w.link { w.scratch with node } with
      | (.error e, _, scratch) => some (.ret (.error e) scratch)
      | (.ok n, link, scratch) =>
        if after.start < n + 1 then some (.ret (.error .invalidName) scratch)
        else if link.length < n then none
        else
          -- the target goes in front of what is left of the path
          ((after.put [SLASH]).bind fun k => k.put (link.take n)).map fun stack =>
            .next
              { stack, dir := if link[0]? = some SLASH then ROOT_INO else w.dir, hops := w.hops + 1,
                link, scratch }

/-- One turn of the loop. -/
def turn (v : Volume) (followLast : Bool) (w : Walking Workspace) : Option (Turn Workspace) :=
  let path := w.stack.skipWhile (· == SLASH)
  if path.start = STACK_LEN then some (.ret (.ok w.dir) w.scratch)
  else
    let after := path.skipWhile (· != SLASH)
    let last := after.rest.all (· == SLASH)
    let nameLen := after.start - path.start
    if NAME_MAX < nameLen then some (.ret (.error .invalidName) w.scratch)
    else
      let name := slice path.bytes path.start nameLen
      if name = DOT then some (.next { w with stack := after })
      else if name = DOT_DOT then
        match v.inode hash w.dir w.scratch.node with
        | (.error e, node) => some (.ret (.error e) { w.scratch with node })
        | (.ok i, node) =>
          some (.next { w with stack := after, dir := i.parent, scratch := { w.scratch with node } })
      else
        match v.lookup hash nameHash w.dir name w.scratch.node with
        | (.error e, node) => some (.ret (.error e) { w.scratch with node })
        | (.ok none, node) => some (.ret (.error .notFound) { w.scratch with node })
        | (.ok (some (child, dtype)), node) =>
          let scratch := { w.scratch with node }
          if dtype = DT_LNK ∧ (last = false ∨ followLast) then
            v.followLink hash D child after { w with scratch }
          else if last = false ∧ dtype ≠ DT_DIR then some (.ret (.error .notADirectory) scratch)
          else some (.next { w with stack := after, dir := child, scratch })

theorem followLink_decreases {v : Volume} {child : UInt64} {after : Stack} {w w' : Walking Workspace}
    (h : v.followLink hash D child after w = some (.next w')) :
    w'.hops = w.hops + 1 ∧ w'.hops ≤ MAX_HOPS := by
  rw [followLink] at h
  split at h
  · cases h
  next hmax =>
  split at h
  · cases h
  split at h
  · cases h
  split at h
  · cases h
  split at h
  · cases h
  obtain ⟨stack, -, hstack⟩ := Option.map_eq_some_iff.1 h
  cases hstack
  exact ⟨rfl, Nat.not_lt.1 hmax⟩

/-- After a turn less of the path is left, or a link has been followed. -/
theorem turn_decreases {v : Volume} {followLast : Bool} {w w' : Walking Workspace}
    (h : v.turn hash nameHash D followLast w = some (.next w')) :
    (w'.hops = w.hops ∧ w'.stack.rest.length < w.stack.rest.length) ∨
      (w'.hops = w.hops + 1 ∧ w'.hops ≤ MAX_HOPS) := by
  rw [turn] at h
  dsimp only at h
  split at h
  · cases h
  next hstart =>
  have hshorter := Stack.length_rest_name hstart
  split at h
  · cases h
  split at h
  · cases h
    exact .inl ⟨rfl, hshorter⟩
  split at h
  · split at h
    · cases h
    · cases h
      exact .inl ⟨rfl, hshorter⟩
  split at h
  · cases h
  · cases h
  split at h
  · have hlink := followLink_decreases hash D h
    exact .inr hlink
  split at h
  · cases h
  · cases h
    exact .inl ⟨rfl, hshorter⟩

/-- The walk: what it gives, and the scratch; nothing where an index would leave a buffer. -/
def walk (v : Volume) (followLast : Bool) (w : Walking Workspace) :
    Option (Except Error UInt64 × Scratch Workspace) :=
  match _h : v.turn hash nameHash D followLast w with
  | none => none
  | some (.ret r s) => some (r, s)
  | some (.next w') => v.walk followLast w'
termination_by (MAX_HOPS - w.hops, w.stack.rest.length)
decreasing_by
  rcases turn_decreases hash nameHash D _h with ⟨hhops, hrest⟩ | ⟨hhops, hmax⟩
  · rw [hhops]
    exact Prod.Lex.right _ hrest
  · exact Prod.Lex.left _ _ (by omega)

/-- The inode an absolute path names. Symbolic links in the middle of the path are followed, the last
component only if asked for. -/
def walkPath (v : Volume) (path : Bytes) (s : Scratch Workspace) (followLast : Bool) :
    Option (Except Error UInt64 × Scratch Workspace) :=
  if h : path.length ≤ STACK_LEN then
    v.walk hash nameHash D followLast
      { stack := .ofPath path h, dir := ROOT_INO, hops := 0, link := List.replicate LINK_LEN 0, scratch := s }
  else some (.error .invalidName, s)

def resolve (v : Volume) (path : Bytes) (s : Scratch Workspace) :
    Option (Except Error UInt64 × Scratch Workspace) :=
  v.walkPath hash nameHash D path s false

def resolveFollow (v : Volume) (path : Bytes) (s : Scratch Workspace) :
    Option (Except Error UInt64 × Scratch Workspace) :=
  v.walkPath hash nameHash D path s true

end Volume

/-! ## What a volume's tree says -/

namespace Volume

section Answers

variable (hash : Bytes → Hash) (nameHash : Bytes → UInt64) {Workspace : Type} (D : Decoders Workspace)

/-- The inode of a number. -/
def inodeOf (v : Volume) (ino : UInt64) : Except Error Inode :=
  (v.inode hash ino (List.replicate BLOCK 0)).1

/-- The entry of a name in a directory. -/
def entry (v : Volume) (dir : UInt64) (name : Bytes) : Except Error (Option (UInt64 × UInt8)) :=
  (v.lookup hash nameHash dir name (List.replicate BLOCK 0)).1

/-- The target of the symbolic link of a number. -/
def target (v : Volume) (ino : UInt64) : Except Error Bytes :=
  (v.inodeOf hash ino).bind fun i =>
  let r := v.readLink hash D ino i (List.replicate LINK_LEN 0) (Scratch.new D)
  r.1.map fun n => r.2.1.take n

variable {hash nameHash D}

theorem get_answer {dev : BlockDev} {sb : Superblock} (root : Ptr) (owner : UInt64) (key : Key)
    (room : Nat) (buf buf' : Bytes) :
    (get hash dev sb root owner key room buf).1 = (get hash dev sb root owner key room buf').1 := by
  obtain ⟨hanswer, hstate⟩ := @seek_agree hash dev sb owner key root none buf buf'
  rw [get, get]
  rcases hseek : seek hash dev sb owner key root none buf with ⟨e | c, node⟩
  · rcases hseek' : seek hash dev sb owner key root none buf' with ⟨e' | c', node'⟩
    · rw [hseek, hseek'] at hanswer
      exact congrArg Except.error (Except.error.inj hanswer)
    · rw [hseek, hseek'] at hanswer
      cases hanswer
  · rcases hseek' : seek hash dev sb owner key root none buf' with ⟨e' | c', node'⟩
    · rw [hseek, hseek'] at hanswer
      cases hanswer
    · rw [hseek, hseek'] at hanswer hstate
      obtain rfl := Except.ok.inj hanswer
      obtain rfl := hstate c rfl
      rfl

/-- An inode is found whatever the buffer held. -/
theorem inode_eq (v : Volume) (ino : UInt64) (buf : Bytes) :
    ∃ node, v.inode hash ino buf = (v.inodeOf hash ino, node) := by
  have hanswer := @get_answer hash v.dev v.sb v.root v.subvolId ⟨ino, KIND_INODE, 0⟩ INODE_LEN buf
    (List.replicate BLOCK 0)
  refine ⟨(v.inode hash ino buf).2, Prod.ext ?_ rfl⟩
  rw [inodeOf, inode, inode]
  rcases hget : get hash v.dev v.sb v.root v.subvolId ⟨ino, KIND_INODE, 0⟩ INODE_LEN buf
    with ⟨r, node⟩
  rcases hget' : get hash v.dev v.sb v.root v.subvolId ⟨ino, KIND_INODE, 0⟩ INODE_LEN
    (List.replicate BLOCK 0) with ⟨r', node'⟩
  rw [hget, hget'] at hanswer
  obtain rfl : r = r' := hanswer
  rcases r with e | _ | item
  · cases e <;> rfl
  · rfl
  · dsimp only
    split
    · cases Inode.decode item <;> rfl
    · rfl

/-- A name is looked up whatever the buffer held. -/
theorem lookup_eq (v : Volume) (dir : UInt64) (name buf : Bytes) :
    ∃ node, v.lookup hash nameHash dir name buf = (v.entry hash nameHash dir name, node) := by
  obtain ⟨hanswer, hstate⟩ := @seek_agree hash v.dev v.sb v.subvolId ⟨dir, KIND_DIRENT, nameHash name⟩
    v.root none buf (List.replicate BLOCK 0)
  refine ⟨(v.lookup hash nameHash dir name buf).2, Prod.ext ?_ rfl⟩
  rw [entry, lookup, lookup]
  split
  · dsimp only
    rcases hseek : seek hash v.dev v.sb v.subvolId ⟨dir, KIND_DIRENT, nameHash name⟩ v.root none buf
      with ⟨e | c, node⟩
    · rcases hseek' : seek hash v.dev v.sb v.subvolId ⟨dir, KIND_DIRENT, nameHash name⟩ v.root none
        (List.replicate BLOCK 0) with ⟨e' | c', node'⟩
      · rw [hseek, hseek'] at hanswer
        exact congrArg Except.error (Except.error.inj hanswer)
      · rw [hseek, hseek'] at hanswer
        cases hanswer
    · rcases hseek' : seek hash v.dev v.sb v.subvolId ⟨dir, KIND_DIRENT, nameHash name⟩ v.root none
        (List.replicate BLOCK 0) with ⟨e' | c', node'⟩
      · rw [hseek, hseek'] at hanswer
        cases hanswer
      · rw [hseek, hseek'] at hanswer hstate
        obtain rfl := Except.ok.inj hanswer
        obtain rfl := hstate c rfl
        rfl
  · rfl

/-- A name that no directory holds is not looked up. -/
theorem entry_of_invalid {v : Volume} {dir : UInt64} {name : Bytes} (h : validName name = false) :
    v.entry hash nameHash dir name = .error .invalidName := by
  rw [entry, lookup, h]
  rfl

/-- A read of less than a window takes it from the file's first window. -/
theorem readFrom_window {contents : UInt64 → Except Error Bytes} {stop : Nat} {out : Bytes}
    (hpos : 0 < stop) (hstop : stop ≤ WINDOW) :
    readFrom contents 0 stop 0 out =
      ((contents 0).map fun _ => (), (contents 0).toOption.elim out fun b =>
        splice out 0 (padded b 0 stop)) := by
  have hlen : min (stop - 0) (WINDOW - 0 % WINDOW) = stop := by
    rw [Nat.zero_mod]
    omega
  rw [readFrom, dif_pos hpos, show windowAt 0 = 0 from rfl, Nat.zero_mod] at *
  dsimp only
  cases contents 0 with
  | error e => rfl
  | ok b =>
    dsimp only
    rw [readFrom, dif_neg (by omega)]
    simp only [Except.map, Except.toOption, Option.elim_some, Nat.sub_zero, Nat.min_eq_left hstop]

/-- What a link's target was read as, in a buffer and a scratch that can be used again. -/
inductive LinkRead (hash : Bytes → Hash) (D : Decoders Workspace) (v : Volume) :
    Except Error Bytes → Except Error Nat × Bytes × Scratch Workspace → Prop
  | error {e : Error} {link : Bytes} {s : Scratch Workspace} (hlink : link.length = LINK_LEN)
    (hs : v.HoldsOf hash D s) : LinkRead hash D v (.error e) (.error e, link, s)
  | target {t link : Bytes} {s : Scratch Workspace} (ht : t ≠ []) (htake : link.take t.length = t)
    (hlink : link.length = LINK_LEN) (hs : v.HoldsOf hash D s) :
    LinkRead hash D v (.ok t) (.ok t.length, link, s)

/-- A link's target: the start of its first window. -/
def linkBytes (hash : Bytes → Hash) (D : Decoders Workspace) (v : Volume) (ino : UInt64) (i : Inode) :
    Except Error Bytes :=
  if ¬ i.isSymlink then .error .notASymlink
  else if i.size = 0 ∨ LINK_LEN < i.size.toNat then .error (.corrupt v.root.block)
  else (v.contents hash D ino 0).map fun b => padded b 0 i.size.toNat

theorem length_padded (b : Bytes) (inW len : Nat) : (padded b inW len).length = len := by
  rw [padded, List.length_append, List.length_replicate, length_slice]
  omega

/-- A link's target is read whatever the buffer and the scratch held. -/
theorem readLink_reads {v : Volume} (ino : UInt64) (i : Inode) {link : Bytes} {s : Scratch Workspace}
    (hlink : link.length = LINK_LEN) (hs : v.HoldsOf hash D s) :
    LinkRead hash D v (v.linkBytes hash D ino i) (v.readLink hash D ino i link s) := by
  rw [linkBytes, readLink, hlink]
  split
  · exact .error hlink hs
  split
  · exact .error hlink hs
  next hsize =>
  obtain ⟨hzero, hsmall⟩ := not_or.1 hsize
  have hpos : (0 : UInt64) < i.size := UInt64.pos_iff_ne_zero.2 hzero
  have hpos' : 0 < i.size.toNat := UInt64.lt_iff_toNat_lt.1 hpos
  have hwindow : LINK_LEN ≤ WINDOW := by decide
  have hfirst : ¬ (0 : UInt64) ≥ i.size := UInt64.not_le.2 hpos
  obtain ⟨hanswer, hholds⟩ := @readWindows_eq hash Workspace D v ino 0 i.size.toNat 0 link s
    (fun _ => hs.trusted ino _)
  rw [readFrom_window hpos' (by omega)] at hanswer
  rw [read, if_neg hfirst, hlink, show (0 : UInt64).toNat = 0 from rfl, Nat.zero_add,
    Nat.min_eq_left (Nat.not_lt.1 hsmall)]
  dsimp only
  rcases hread : v.readWindows hash D ino 0 i.size.toNat 0 link s with ⟨r, out, t⟩
  rw [hread] at hanswer hholds
  have hans : r = (v.contents hash D ino 0).map fun _ => () := congrArg Prod.fst hanswer
  have hout := congrArg Prod.snd hanswer
  cases hcontents : v.contents hash D ino 0 with
  | error e =>
    rw [hcontents] at hans hout
    obtain rfl : out = link := hout
    obtain rfl := hans
    exact .error hlink (hholds hpos')
  | ok b =>
    rw [hcontents] at hans hout
    obtain rfl := hans
    have hlen := length_padded b 0 i.size.toNat
    have hroom : 0 + (padded b 0 i.size.toNat).length ≤ link.length := by omega
    obtain rfl : out = splice link 0 (padded b 0 i.size.toNat) := hout
    have hreads := @LinkRead.target Workspace hash D v (padded b 0 i.size.toNat)
      (splice link 0 (padded b 0 i.size.toNat)) t
      (List.length_pos_iff.1 (by omega)) ?_ (by rw [length_splice hroom, hlink]) (hholds hpos')
    · rw [hlen] at hreads
      exact hreads
    · rw [splice, List.take_zero, List.nil_append, List.take_left']
      rfl

/-- The target of a link, once its inode is known. -/
theorem target_eq (v : Volume) (ino : UInt64) :
    v.target hash D ino = (v.inodeOf hash ino).bind (v.linkBytes hash D ino) := by
  rw [target]
  congr 1
  funext i
  have hnew : v.HoldsOf hash D (Scratch.new D) := by
    intro sv ino w n hn
    cases hn
  have hreads := @readLink_reads hash Workspace D v ino i (List.replicate LINK_LEN 0) (Scratch.new D)
    List.length_replicate hnew
  dsimp only
  generalize v.readLink hash D ino i (List.replicate LINK_LEN 0) (Scratch.new D) = r at hreads ⊢
  generalize v.linkBytes hash D ino i = t at hreads ⊢
  cases hreads with
  | error hlink hs => rfl
  | target ht htake hlink hs => exact congrArg Except.ok htake

end Answers

end Volume

end NanoChrono.Ncfs
