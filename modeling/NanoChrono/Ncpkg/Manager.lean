import NanoChrono.Ncpkg.Planner

/-! # The package manager

`install`, `remove` and `recover` over the filesystem, statement by statement: the lock, the
recovery of an interrupted transaction (`recoverLocked`, `undo`, `finish`) and the transaction
itself (`execute`). A transaction that fails before its commit undoes itself through
`recoverLocked`, as the next operation would. -/

namespace NanoChrono.Ncpkg

open Crash

/-- The lock: created exclusively for the length of an operation. -/
def LOCK : Path := ["var", "lib", "ncpkg", "lock"]

/-- What an operation did. -/
inductive Done where
  /-- Committed; `cleanupPending` when the clean-up did not finish. -/
  | done (op : PlanOp) (id version tx : String) (cleanupPending : Bool)
  /-- The confirmation said no; nothing changed. -/
  | cancelled
  deriving DecidableEq, Repr

/-- What recovery found. -/
inductive Recovery where
  /-- No interrupted transaction. -/
  | clean
  | finished (tx op package : String)
  | undone (tx op package : String)
  deriving DecidableEq, Repr

/-- A problem `check` found. -/
structure Problem where
  path : Path
  what : String
  deriving DecidableEq, Repr

/-- What the user asks for. -/
inductive Request where
  /-- Install a package, as its readers found it. -/
  | install (pkg : Except Error Bundle) (opts : InstallOptions)
  | remove (id : String)

/-- `FsError`'s text. -/
def FsError.message : FsError → String
  | .notFound => "no such file or directory"
  | .alreadyExists => "already exists"
  | .notEmpty => "directory not empty"
  | .notADirectory => "not a directory"
  | .isADirectory => "is a directory"
  | .noSpace => "no space left on the volume"
  | .readOnly => "read-only filesystem"
  | .denied => "permission denied"
  | .invalid => "invalid path"
  | .io => "input/output error"

/-- A filesystem operation in the manager: its error names `path`. -/
def at_ {α : Type} (path : Path) (p : Prog Nodes FsError α) : Prog Nodes Error α :=
  p.mapErr (Error.fs · path)

namespace Db

/-- Reads a database file's content and checks it. -/
def parse : Content → Except DbError Db
  | .db d => do
    d.check
    return d
  | _ => .error ⟨"not valid JSON"⟩

/-- Loads the database; an absent one is empty. -/
def load (arch : String) : Prog Nodes Error Db := do
  match ← Prog.attempt (Fs.read PATH) with
  | .ok c =>
    match parse c with
    | .error e => throw (.db e)
    | .ok d =>
      if d.arch = arch then pure d
      else throw (.db ⟨s!"it belongs to a {d.arch} system, this is {arch}"⟩)
  | .error .notFound => pure (Db.empty arch)
  | .error e => throw (.fs e PATH)

/-- Writes the next database, durably, for the commit to swap in. -/
def writeNext (d : Db) : Prog Nodes FsError Unit := do
  Fs.orNotFound (Fs.removeFile NEXT)
  Fs.createDirAll DIR
  Fs.create NEXT (.db d)

end Db

/-- Reads a journal's content. -/
def Journal.parse : Content → Except String Journal
  | .journal j => j.validate
  | _ => .error "journal is not valid JSON"

namespace Manager

variable (dec : Decoders) (policy : Policy)

/-- Takes the lock. -/
def lock : Prog Nodes Error Unit := do
  at_ Db.DIR (Fs.createDirAll Db.DIR)
  match ← Prog.attempt (Fs.create LOCK (.data policy.owner)) with
  | .ok () => pure ()
  | .error .alreadyExists =>
    match ← Prog.attempt (Fs.read LOCK) with
    | .ok (.data owner) => throw (.locked owner)
    | _ => throw (.locked [])
  | .error e => throw (.fs e LOCK)

/-- Gives the lock back. -/
def unlock {ε : Type} : Prog Nodes ε Unit :=
  Prog.ignore (Fs.removeFile LOCK)

/-- Removes a file that may not be there. -/
def removeIfExists (path : Path) : Prog Nodes Error Unit :=
  at_ path (Fs.orNotFound (Fs.removeFile path))

/-- Whether something is at `path`. -/
def exists_ (path : Path) : Prog Nodes Error Bool :=
  at_ path (Fs.exists_ path)

/-- Undoes one step: what is at `dst` goes back to `src` if `src` is free. -/
def moveBack (src dst : Path) : Prog Nodes Error Unit := do
  if ← exists_ dst then
    if !(← exists_ src) then
      at_ dst (Fs.rename dst src)

/-- Undoes one step of a journal, if it was done and is not undone already. -/
def undoStep : Step → Prog Nodes Error Unit
  | .place src dst => moveBack src dst
  | .backup src dst => moveBack src dst
  | .mkdir p => at_ p (Fs.orKept (Fs.removeDir p))

/-- The transaction's directory, and the parent of all of them if that leaves it empty. -/
def removeTxDir (j : Journal) : Prog Nodes Error Unit := do
  at_ j.txDir (Fs.removeTree j.txDir)
  at_ Journal.TX_DIR (Fs.orKept (Fs.removeDir Journal.TX_DIR))

/-- The end of both ways to recover: the journal goes last. -/
def dropJournal : Prog Nodes Error Unit := do
  at_ [] Fs.sync
  removeIfExists Journal.PATH
  at_ [] Fs.sync

/-- Undoes a journal's steps, newest first. -/
def undo (j : Journal) : Prog Nodes Error Unit := do
  j.steps.reverse.forM undoStep
  removeIfExists Db.NEXT
  removeTxDir j
  dropJournal

/-- The clean-up after a commit: the backups and the stage go, then the directories left empty,
then the journal. -/
def finish (j : Journal) : Prog Nodes Error Unit := do
  removeTxDir j
  j.cleanup.forM fun d => at_ d (Fs.orKept (Fs.removeDir d))
  removeIfExists Db.NEXT
  dropJournal

/-- A commit on a filesystem whose replace is not atomic, cut between removing the old database
and naming the new one. -/
def adoptNext : Prog Nodes Error Unit := do
  if !(← exists_ Db.PATH) then
    if ← exists_ Db.NEXT then
      at_ Db.PATH (Fs.replace Db.NEXT Db.PATH)

/-- Without a journal nothing outside the transaction directories was touched yet. -/
def sweepStale : Prog Nodes Error Recovery := do
  removeIfExists Db.NEXT
  at_ Journal.TX_DIR (Fs.removeTree Journal.TX_DIR)
  return .clean

/-- Finishes or undoes the transaction the journal names: the database tells which. -/
def settle (j : Journal) : Prog Nodes Error Recovery := do
  adoptNext
  let current ← Db.load policy.arch.name
  if current.lastTx = j.tx then
    finish j
    return .finished j.tx j.op j.package
  else
    undo j
    return .undone j.tx j.op j.package

/-- Finishes or undoes an interrupted transaction. -/
def recoverLocked : Prog Nodes Error Recovery := do
  match ← Prog.attempt (Fs.read Journal.PATH) with
  | .ok c =>
    removeIfExists Journal.TMP
    match Journal.parse c with
    | .error e => throw (.journal e)
    | .ok j => settle policy j
  | .error .notFound =>
    -- A journal that was being written when the power went.
    removeIfExists Journal.TMP
    sweepStale
  | .error e => throw (.fs e Journal.PATH)

/-- Runs `body` under the lock, after finishing any transaction a crash interrupted. -/
def locked {α : Type} (body : Prog Nodes Error α) : Prog Nodes Error α := do
  lock policy
  let result ← Prog.attempt (do let _ ← recoverLocked policy; body)
  unlock
  match result with
  | .ok a => pure a
  | .error e => throw e

/-- Finishes or undoes an interrupted transaction; `forceUnlock` first removes a lock a crashed
operation left. -/
def recover (forceUnlock : Bool) : Prog Nodes Error Recovery := do
  if forceUnlock then removeIfExists LOCK
  lock policy
  let result ← Prog.attempt (recoverLocked policy)
  unlock
  match result with
  | .ok r => pure r
  | .error e => throw e

/-- Where a transaction stages its files. -/
def stageDir (tx : String) : Path := (Journal.TX_DIR.join tx).join "stage"

/-- Where a transaction moves files aside. -/
def backupDir (tx : String) : Path := (Journal.TX_DIR.join tx).join "backup"

/-- The steps of a plan, in the order they run. -/
def stepsOf (plan : Plan) : List Step :=
  let tx := plan.db.lastTx
  (plan.backups.zipIdx.map fun (p, i) => .backup p ((backupDir tx).join (toString i))) ++
  plan.mkdirs.map .mkdir ++
  (plan.places.zipIdx.map fun (d, i) => .place ((stageDir tx).join (toString i)) d.1)

/-- The journal of a plan. -/
def journalOf (plan : Plan) : Journal :=
  { tx := plan.db.lastTx, op := plan.op.name, package := plan.id, steps := stepsOf plan,
    cleanup := plan.cleanup }

/-- Stages a plan's files and writes its journal: nothing outside the transaction directory
changes. -/
def stage (plan : Plan) : Prog Nodes Error Unit := do
  let tx := plan.db.lastTx
  at_ (stageDir tx) (Fs.createDirAll (stageDir tx))
  at_ (backupDir tx) (Fs.createDirAll (backupDir tx))
  plan.places.zipIdx.forM fun (d, i) =>
    let p := (stageDir tx).join (toString i)
    at_ p (Fs.create p (.data d.2))
  at_ (stageDir tx) Fs.sync
  at_ Journal.PATH (Fs.writeAtomic Journal.TMP Journal.PATH (.journal (journalOf plan)))

/-- One step, forwards. -/
def doStep : Step → Prog Nodes Error Unit
  | .mkdir p => at_ p (Fs.createDir p)
  | .backup src dst => at_ src (Fs.rename src dst)
  | .place src dst => at_ src (Fs.rename src dst)

/-- The steps of a plan, up to and including its commit. -/
def applySteps (plan : Plan) : Prog Nodes Error Unit := do
  at_ Db.NEXT (Db.writeNext plan.db)
  at_ Db.NEXT Fs.sync
  (stepsOf plan).forM doStep
  at_ [] Fs.sync
  at_ Db.PATH (Fs.replace Db.NEXT Db.PATH)

/-- `Vec::with_capacity`'s limit: beyond it no step list can be allocated. -/
def maxSteps : Nat := 2 ^ 63

/-- A transaction that could not be staged: only its own directory has to go. -/
def abandon (plan : Plan) (e : Error) : Prog Nodes Error Done := do
  Prog.ignore (Fs.removeTree (Journal.TX_DIR.join plan.db.lastTx))
  Prog.ignore (Fs.removeFile Journal.TMP)
  throw e

/-- A transaction that failed before its commit undoes itself, if the filesystem still answers. -/
def revertNow (e : Error) : Prog Nodes Error Done := do
  Prog.ignore (recoverLocked policy)
  throw e

/-- What is left after the commit. -/
def conclude (plan : Plan) : Prog Nodes Error Done := do
  Prog.ignore (at_ Db.PATH Fs.sync)
  let cleaned ← Prog.attempt (finish (journalOf plan))
  return .done plan.op plan.id plan.version plan.db.lastTx !cleaned.isOk

/-- Runs a plan as one transaction. -/
def execute (plan : Plan) : Prog Nodes Error Done := do
  if maxSteps ≤ plan.backups.length + plan.mkdirs.length + plan.places.length then
    throw (.internal "capacity overflow")
  else
    match ← Prog.attempt (stage plan) with
    | .error e => abandon plan e
    | .ok () =>
      -- From here the journal exists.
      match ← Prog.attempt (applySteps plan) with
      | .error e => revertNow policy e
      | .ok () => conclude plan

/-- Plans what a request asks for; changes nothing. -/
def planFor (db : Db) : Request → Prog Nodes Error Plan
  | .install pkg opts => do
    match pkg with
    | .error e => throw e
    | .ok b => Prog.query (Planner.plan dec policy opts b db)
  | .remove id => Prog.query fun _ => Planner.planRemove policy db id

/-- Runs a request: plans, asks `confirm`, executes. -/
def run (confirm : Plan → Bool) (r : Request) : Prog Nodes Error Done :=
  locked policy do
    let db ← Db.load policy.arch.name
    let plan ← planFor dec policy db r
    if confirm plan then execute policy plan else pure .cancelled

/-- What is wrong with one recorded file. -/
def checkFile (s : Nodes) (path : Path) (size : Nat) (sha512 : String) : List Problem :=
  match Fs.check path, s[path]? with
  | .error e, _ => [⟨path, e.message⟩]
  | .ok (), some (.file (.data d)) =>
    if d.length ≠ size ∨ hex (dec.digest d) ≠ sha512 then
      [⟨path, "changed since it was installed"⟩]
    else []
  | .ok (), some (.file _) => [⟨path, "changed since it was installed"⟩]
  | .ok (), some .dir => [⟨path, FsError.message .isADirectory⟩]
  | .ok (), none => [⟨path, FsError.message .notFound⟩]

/-- The database's invariants, then every file it records. -/
def check : Prog Nodes Error (List Problem) := do
  let db ← Db.load policy.arch.name
  Prog.query fun s =>
    .ok ((db.packages.toList.flatMap fun (_, p) =>
        p.files.flatMap fun f => checkFile dec s f.path f.size f.sha512) ++
      (db.libraries.toList.flatMap fun (_, l) => checkFile dec s l.path l.size l.sha512) ++
      if s.contains Journal.PATH then
        [⟨Journal.PATH, "an interrupted transaction: run ncpkg recover"⟩]
      else [])

end Manager

end NanoChrono.Ncpkg
