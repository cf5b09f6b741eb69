import NanoChrono.Ncpkg.Fs
import NanoChrono.Ncpkg.Manifest

/-! # Planning an operation

`Planner.plan` computes everything an install will do, against a copy of the database; it reads
the filesystem only to ask what exists. `planRemove` is the same for a removal. Both end with
`Db.check` on the database they would commit. -/

namespace NanoChrono.Ncpkg

/-- Why an operation did not happen. -/
inductive Error where
  /-- Another operation holds the lock, or a crashed one left it. -/
  | locked (owner : Bytes)
  | fs (e : FsError) (path : Path)
  | format (e : FormatError)
  | manifest (e : MetaError)
  | db (e : DbError)
  | journal (reason : String)
  | wrongArch (arch : String) (supported : List String)
  | abiMismatch (package system : Nat)
  | systemTooOld (requires system : String)
  /-- A signature present that does not verify. -/
  | tampered (roles : List String)
  | unsigned
  | ring0NotAllowed
  | fileHash (path : Path)
  | module (path : Path) (reason : String)
  | icon (e : IconError)
  | alreadyInstalled (id version : String)
  | downgrade (id installed offered : String)
  | notInstalled (id : String)
  | reserved (id : String)
  | hostMissing (plugin host : String)
  | hasDependents (id : String) (dependents : List String)
  | missingLibrary (name requirement : String) (installed : Option String)
  | libraryConflict (name installed offered : String) (requiredBy : List String)
  | fileConflict (path : Path) (owner : Option String)
  | commandConflict (command : String) (owner : Option String)
  /-- The plan broke a database invariant: refused rather than committed. -/
  | internal (reason : String)
  deriving DecidableEq, Repr

/-- Directories the installer never removes, even empty. -/
def KEEP : List Path :=
  [[], ["apps"], ["usr"], ["usr", "bin"], ["usr", "lib"], ["usr", "lib", "ncplu"], ["var"],
    ["var", "cache"], ["var", "cache", "ncpkg"], ["var", "cache", "ncpkg", "icons"],
    ["var", "lib"], ["var", "lib", "ncpkg"], ["var", "lib", "ncpkg", "meta"]]

/-- Ancestors of `path` the installer may remove once empty, deepest first. -/
def removableAncestors (path : Path) : List Path :=
  path.parent.inits.reverse.takeWhile fun p => !KEEP.contains p

/-- The order directories are cleaned up in: deepest first, then by text. -/
def cleanupLe (a b : Path) : Bool :=
  match compare b.depth a.depth with
  | .lt => true
  | .gt => false
  | .eq => (compare a.text b.text).isLE

/-- The directories to clean up after moving `backups` aside. -/
def cleanupOf (backups : List Path) : List Path :=
  (backups.flatMap removableAncestors).dedup.insertionSort (fun a b => cleanupLe a b = true)

/-- A 64-bit number in 16 lower-case hexadecimal digits. -/
def hex16 (n : UInt64) : String :=
  String.ofList ((List.range 16).map fun i => Nat.digitChar (n.toNat / 16 ^ (15 - i) % 16))

/-- The id of the transaction that commits `generation`. -/
def txName (generation nonce : UInt64) : String :=
  hex16 generation ++ "-" ++ hex16 nonce

/-- The database with its next transaction's id. -/
def Db.advance (db : Db) (nonce : UInt64) : Db :=
  { db with generation := db.generation + 1, lastTx := txName (db.generation + 1) nonce }

/-- Drops consecutive repetitions. -/
def dedupSorted : List String → List String
  | [] => []
  | a :: l =>
    match dedupSorted l with
    | [] => [a]
    | b :: l' => if a = b then b :: l' else a :: b :: l'

/-- A list of names, sorted, each once. -/
def sortedNames (l : List String) : List String :=
  dedupSorted (l.insertionSort fun a b => (compare a b).isLE = true)

/-- The database with `f` applied to every library. -/
def Db.mapLibraries (db : Db) (f : Library → Library) : Db :=
  { db with libraries := db.libraries.map fun _ l => f l }

/-- `id`'s removal from a library's users. -/
def Library.dropUser (l : Library) (id : String) : Library :=
  { l with requiredBy := l.requiredBy.filter (· != id) }

namespace Planner

/-- The files a plan writes, and those of them the package owns. -/
structure Draft where
  places : List (Path × Bytes)
  owned : List FileRec

/-- What planning the libraries changes. -/
structure LibDraft where
  draft : Draft
  ndb : Db
  backups : List Path
  uses : List LibUse
  libraries : List LibPlan

variable (dec : Decoders) (policy : Policy) (opts : InstallOptions) (pkg : Bundle)

/-- Adds a file the package owns. -/
def Draft.place (d : Draft) (dest : Path) (data : Bytes) : Draft :=
  ⟨d.places ++ [(dest, data)], d.owned ++ [⟨dest, data.length, hex (dec.digest data)⟩]⟩

/-- Adds a file that is recorded elsewhere: a global library. -/
def Draft.placeShared (d : Draft) (dest : Path) (data : Bytes) : Draft :=
  { d with places := d.places ++ [(dest, data)] }

/-- Decodes a package file and checks it against the manifest's SHA-512. -/
def decode (path : Path) : Except Error Bytes :=
  match pkg.entries.lookup path with
  | none => .error (.format .notFound)
  | some (.error e) => .error (.format e)
  | some (.ok data) =>
    match pkg.manifest.file path with
    | none => .error (.manifest ⟨.container, "signed.files"⟩)
    | some listed => if dec.digest data = listed.sha512 then .ok data else .error (.fileHash path)

/-- Checks a module's header against what the manifest says it is. -/
@[grind =] def module (path : Path) (data : Bytes) (kind : ModuleKind) : Except Error Image :=
  match dec.image data with
  | .error e => .error (.module path e)
  | .ok img =>
    if img.arch ≠ policy.arch then
      .error (.module path "the module is built for another architecture than its directory says")
    else if img.kind ≠ kind then
      .error (.module path "the module is not the kind of module the manifest says")
    else .ok img

/-- The checks on the machine, the signatures and the ring; the warnings they leave. -/
def checkFits : Except Error (List String) := do
  let m := pkg.manifest
  let t := pkg.trust
  Db.ensure (m.arches.contains policy.arch)
    (Error.wrongArch policy.arch.name (m.arches.map Arch.name))
  Db.ensure (m.abi == policy.abi) (Error.abiMismatch m.abi policy.abi)
  match m.system with
  | none => pure ()
  | some req =>
    Db.ensure ((satisfies policy.systemVersion req).getD false)
      (Error.systemTooOld req policy.systemVersion)
  Db.ensure (!policy.builtinApps.contains m.id) (Error.reserved m.id)
  Db.ensure (!t.tampered) (Error.tampered ((Role.all.filter t.failed).map Role.name))
  Db.ensure (!(policy.requireSignature && t.badge == .unsigned)) Error.unsigned
  Db.ensure (!(m.ring == 0 && !t.ring0Signed && !policy.communityRing0)) Error.ring0NotAllowed
  return (if m.ring == 0 && !t.ring0Signed then
      ["ring 0 without a ring-0 signature, allowed by Enable Ring0 Community Modules and Drivers"]
    else []) ++
    (if m.ring == 0 && m.creator.isNone then
      ["an anonymous ring-0 package: no creator named"]
    else [])

/-- What the operation is, by the version installed. -/
def checkVersion (old : Option Package) : Except Error PlanOp :=
  match old with
  | none => .ok .install
  | some o =>
    match Version.parse o.version with
    | none => .error (.internal "installed version unreadable")
    | some ov =>
      match pkg.manifest.versionParsed.precedence ov with
      | .eq =>
        if opts.reinstall then .ok .reinstall
        else .error (.alreadyInstalled pkg.manifest.id o.version)
      | .gt => .ok .upgrade
      | .lt =>
        if opts.allowDowngrade then .ok .downgrade
        else .error (.downgrade pkg.manifest.id o.version pkg.manifest.version)

/-- An upgrade releases the old version first: its references are dropped and its record goes. -/
def release (db : Db) (id : String) (o : Package) : Db :=
  let libraries := (o.libraries.filter (·.resolved == .global)).foldl
    (fun libs u =>
      match libs[u.name]? with
      | some l => libs.insert u.name (l.dropUser id)
      | none => libs) db.libraries
  { db with packages := db.packages.erase id, libraries := libraries }

/-- One command: its launcher. -/
def planCommand (app : App) (d : Draft) (c : String) : Except Error Draft := do
  Db.ensure (!policy.reservedCommands.contains c) (Error.commandConflict c none)
  let launcher := s!"#!ncapp /apps/{pkg.manifest.id}/{app.entry}\n"
  return d.place dec (Db.commandPath c) launcher.toUTF8.toList

/-- The app and its commands; the commands and capabilities the record gets. -/
def planApp (d : Draft) : Except Error (Draft × List String × List String) :=
  match pkg.manifest.app with
  | none => .ok (d, [], [])
  | some app => do
    let src := ["ncapp", policy.arch.name, app.entry]
    let data ← decode dec pkg src
    let img ← module dec policy src data .app
    Db.ensure (img.capabilities &&& ~~~app.capabilities == 0)
      (Error.module src "the module asks for capabilities the manifest does not declare")
    Db.ensure (img.flags &&& FLAG_WANTS_PRIVILEGED == 0 || pkg.manifest.ring == 0)
      (Error.module src "the module imports kernel-tier symbols but the manifest asks for ring 3")
    let capabilities := (CAPABILITIES.filter fun c => app.capabilities &&& c.2 != 0).map Prod.fst
    let d := d.place dec ["apps", pkg.manifest.id, app.entry] data
    let d ← app.commands.foldlM (planCommand dec policy pkg app) d
    return (d, app.commands, capabilities)

/-- Whether a listed file is under `res/`. -/
def isResource (f : FileRef) : Bool :=
  f.path.head? == some "res" && 2 ≤ f.path.length

/-- One resource. -/
def planResource (d : Draft) (f : FileRef) : Except Error Draft := do
  let data ← decode dec pkg f.path
  return d.place dec (["apps", pkg.manifest.id] ++ f.path) data

/-- The icon, checked and decoded, into the cache the desktop reads. -/
def planIcon (d : Draft) : Except Error (Draft × Option Path) :=
  match pkg.manifest.icon with
  | none => .ok (d, none)
  | some _ => do
    let data ← decode dec pkg ICON
    match dec.icon data with
    | .error e => throw (.icon e)
    | .ok () => pure ()
    let dest := Db.cachePath pkg.manifest.id
    return (d.place dec dest data, some dest)

/-- One plugin, registered under its host. -/
def planPlugin (ndb : Db) (st : Draft × List PluginRec) (p : Plugin) :
    Except Error (Draft × List PluginRec) := do
  Db.ensure (policy.builtinApps.contains p.host || ndb.packages.contains p.host)
    (Error.hostMissing p.file p.host)
  let src := ["plugins", policy.arch.name, p.file]
  let data ← decode dec pkg src
  let _ ← module dec policy src data .plugin
  let dest := ["usr", "lib", "ncplu", p.host, pkg.manifest.id, p.file]
  return (st.1.place dec dest data, st.2 ++ [⟨p.host, dest, p.provides⟩])

/-- What to do with a library, and which version the package ends up with. -/
inductive Choice where
  | share
  | global (replaces : Option String)
  | priv
  deriving DecidableEq, Repr

/-- Whether every dependent of the library `name` accepts `v`. -/
def dependentsAccept (ndb : Db) (name : String) (dependents : List String) (v : Version) : Bool :=
  dependents.all fun d =>
    ((ndb.packages[d]?.bind fun p => p.libraries.find? (·.name == name)).bind fun x =>
      Req.parse x.requirement).any (·.accepts v)

/-- Whether the shipped copy replaces the global one `g`. -/
def upgrades (ndb : Db) (u : Use) (g : Library) (gv : Version) (s : ShippedLib) (data : Bytes) :
    Bool :=
  let sv := (Version.parse s.version).getD gv
  let newer := sv.precedence gv == .gt
  let same := sv.precedence gv == .eq && hex (dec.digest data) == g.sha512
  s.share && u.requirement.accepts sv && !same &&
    (g.requiredBy.isEmpty || (newer && dependentsAccept ndb u.name g.requiredBy sv))

/-- Chooses between the global copy, a new global copy and a private one. -/
def choose (ndb : Db) (u : Use) (shipped : Option (ShippedLib × Bytes)) : Except Error Choice :=
  match ndb.libraries[u.name]?, shipped with
  | some g, shipped =>
    match Version.parse g.version with
    | none => .error (.internal s!"library {u.name} version unreadable")
    | some gv =>
      if shipped.any fun (s, data) => upgrades dec ndb u g gv s data then
        .ok (.global (some g.version))
      else if u.requirement.accepts gv then .ok .share
      else match shipped with
        | some (s, _) =>
          if pkg.manifest.kind = .lib then
            .error (.libraryConflict u.name g.version s.version g.requiredBy)
          else .ok .priv
        | none => .error (.missingLibrary u.name u.requirement.text (some g.version))
  | none, some (s, _) => .ok (if s.share then .global none else .priv)
  | none, none => .error (.missingLibrary u.name u.requirement.text none)

/-- Every dependent of the library `name` now uses `version`, and its record says so. -/
@[grind =] def retarget (packages : Std.ExtTreeMap String Package) (name version : String) :
    List String → Std.ExtTreeMap String Package
  | [] => packages
  | d :: ds =>
    let packages :=
      match packages[d]? with
      | none => packages
      | some p =>
        packages.insert d { p with libraries := setVersion p.libraries }
    retarget packages name version ds
where
  /-- Changes the first use of the library. -/
  setVersion : List LibUse → List LibUse
    | [] => []
    | u :: us => if u.name = name then { u with version := version } :: us else u :: setVersion us

/-- Carries a choice out on the draft. -/
def apply (id : String) (u : Use) (shipped : Option (ShippedLib × Bytes)) (st : LibDraft) :
    Choice → Except Error LibDraft
  | .share =>
    match st.ndb.libraries[u.name]? with
    | none => .error (.internal "shared library vanished")
    | some l =>
      .ok { st with
        ndb := { st.ndb with
          libraries := st.ndb.libraries.insert u.name
            { l with requiredBy := l.requiredBy ++ [id] } }
        uses := st.uses ++ [⟨u.name, u.requirement.text, .global, l.version⟩]
        libraries := st.libraries ++ [⟨u.name, .share, l.version, 0⟩] }
  | .global replaces =>
    match shipped with
    | none => .error (.internal "no shipped copy to install")
    | some (s, data) =>
      let requiredBy := (st.ndb.libraries[u.name]?.map Library.requiredBy).getD []
      let packages := retarget st.ndb.packages u.name s.version requiredBy
      let path := Db.globalLibPath u.name
      let library : Library :=
        { version := s.version, path := path, size := data.length,
          sha512 := hex (dec.digest data), providedBy := some id, refCount := 0,
          requiredBy := requiredBy ++ [id] }
      .ok
        { draft := st.draft.placeShared path data
          ndb := { st.ndb with
            packages := packages, libraries := st.ndb.libraries.insert u.name library }
          backups := if replaces.isSome then st.backups ++ [path] else st.backups
          uses := st.uses ++ [⟨u.name, u.requirement.text, .global, s.version⟩]
          libraries := st.libraries ++
            [⟨u.name, (match replaces with | some v => .upgradeGlobal v | none => .newGlobal),
              s.version, 0⟩] }
  | .priv =>
    match shipped with
    | none => .error (.internal "no shipped copy to keep private")
    | some (s, data) =>
      .ok { st with
        draft := st.draft.place dec (Db.privateLibPath id u.name) data
        uses := st.uses ++ [⟨u.name, u.requirement.text, .priv, s.version⟩]
        libraries := st.libraries ++
          [⟨u.name, .privateCopy (st.ndb.libraries[u.name]?.map Library.version),
            s.version, 0⟩] }

/-- The copy a package ships of a library, decoded and checked. -/
def shippedCopy (u : Use) : Except Error (Option (ShippedLib × Bytes)) :=
  match u.shipped with
  | none => .ok none
  | some s => do
    let src := ["lib", policy.arch.name, s.file]
    let data ← decode dec pkg src
    let _ ← module dec policy src data .library
    return some (s, data)

/-- One library the package uses. -/
def planUse (st : LibDraft) (u : Use) : Except Error LibDraft := do
  let shipped ← shippedCopy dec policy pkg u
  let choice ← choose dec pkg st.ndb u shipped
  apply dec pkg.manifest.id u shipped st choice

/-- Libraries no package uses any more go. -/
def dropUnused (st : LibDraft) : LibDraft :=
  let unused := st.ndb.libraries.toList.filter fun (_, l) => l.requiredBy.isEmpty
  { st with
    ndb := { st.ndb with
      libraries := unused.foldl (fun libs (name, _) => libs.erase name) st.ndb.libraries }
    backups := st.backups ++ unused.map (·.2.path)
    libraries := st.libraries ++ unused.map fun (name, l) => ⟨name, .delete, l.version, 0⟩ }

/-- A library's users sorted and counted; a provider that no longer uses it, or is no longer
installed, is nobody. -/
def recount (ndb : Db) (id : String) (l : Library) : Library :=
  let requiredBy := sortedNames l.requiredBy
  let providedBy := l.providedBy.filter fun p =>
    !(p == id && !requiredBy.contains id) && !(p != id && !ndb.packages.contains p)
  { l with requiredBy := requiredBy, refCount := requiredBy.length, providedBy := providedBy }

/-- The number of users afterwards, for the libraries that stay global. -/
def countRefs (ndb : Db) (lp : LibPlan) : LibPlan :=
  match lp.change with
  | .share | .newGlobal | .upgradeGlobal _ =>
    { lp with refs := (ndb.libraries[lp.name]?.map Library.refCount).getD 0 }
  | _ => lp

/-- Who owns `dest` among the packages that stay. -/
def ownerOf (ndb : Db) (dest : Path) : Option String :=
  (ndb.packages.toList.findRev? fun (_, p) => p.files.any (·.path == dest)).map Prod.fst

/-- Whether something is at `p`, as `Fs::stat` answers. -/
def existsAt (s : Nodes) (p : Path) : Except Error Bool :=
  match Fs.check p with
  | .error e => .error (.fs e p)
  | .ok () => .ok (s.contains p)

/-- Nothing lands on what another package owns, or on what nobody owns unless forced; what is
overwritten goes aside too. `aside` are the files already going there. -/
@[grind =] def checkConflicts (s : Nodes) (db ndb : Db) (aside : List Path) :
    List Path → List Path → List Path → List String → Except Error (List Path × List String)
  | [], _, backups, warnings => .ok (backups, warnings)
  | dest :: rest, seen, backups, warnings => do
    Db.ensure (!seen.contains dest) (Error.internal s!"{dest.text} planned twice")
    let seen := dest :: seen
    if aside.contains dest then
      checkConflicts s db ndb aside rest seen backups warnings
    else
      match ownerOf ndb dest with
      | some owner =>
        if dest.take 2 == ["usr", "bin"] then
          throw (.commandConflict (dest.getLast?.getD "") (some owner))
        else throw (.fileConflict dest (some owner))
      | none =>
        let oursGlobal := ndb.libraries.toList.any fun (_, l) =>
          l.path == dest && l.providedBy == some pkg.manifest.id
        if !oursGlobal && db.libraries.toList.any (fun (_, l) => l.path == dest) then
          throw (.fileConflict dest (some "the shared libraries"))
        if ← existsAt s dest then
          Db.ensure opts.force (Error.fileConflict dest none)
          checkConflicts s db ndb aside rest seen (backups ++ [dest])
            (warnings ++ [s!"{dest.text} belonged to no package and is overwritten"])
        else checkConflicts s db ndb aside rest seen backups warnings

/-- The missing ancestors of one file (given deepest first), parents first, after `mkdirs`. -/
@[grind =] def missingDirs (s : Nodes) (mkdirs : List Path) : List Path → List Path → Except Error (List Path)
  | [], acc => .ok (mkdirs ++ acc)
  | p :: up, acc =>
    if p.isEmpty || mkdirs.contains p then .ok (mkdirs ++ acc)
    else do
      if ← existsAt s p then return mkdirs ++ acc
      else missingDirs s mkdirs up (p :: acc)

/-- Directories to create for the files at `dests`, parents first. -/
def planMkdirs (s : Nodes) (dests : List Path) : Except Error (List Path) :=
  dests.foldlM (fun mkdirs dest => missingDirs s mkdirs dest.parent.inits.reverse []) []

/-- The package's record. -/
def record (owned : List FileRec) (uses : List LibUse) (plugins : List PluginRec)
    (commands capabilities : List String) (icon : Option Path) : Package :=
  let m := pkg.manifest
  { name := m.name, version := m.version, kind := m.kind.name, arch := policy.arch.name,
    license := m.licenseOrDefault, creator := m.creator, installedAt := policy.now,
    badge := pkg.trust.badge.id, roles := pkg.trust.roles.map Role.name,
    selfKey := pkg.trust.selfKey, ring := m.ring, capabilities := capabilities,
    devices := m.devices, network := m.network, fs := m.fs,
    manifestSha512 := hex (dec.digest pkg.manifestBytes), files := owned, libraries := uses,
    plugins := plugins, commands := commands, icon := icon }

/-- The final check on the database a plan would commit. -/
def checkDb (ndb : Db) : Except Error Unit :=
  match ndb.check with
  | .ok () => .ok ()
  | .error e => .error (.internal e.reason)

/-- Plans an install, an upgrade or a downgrade against `db` on the filesystem `s`. -/
def plan (db : Db) (s : Nodes) : Except Error Plan := do
  let m := pkg.manifest
  let id := m.id
  let warnings ← checkFits policy pkg
  let old := db.packages[id]?
  let op ← checkVersion opts pkg old
  let backups := (old.map fun o => o.files.map FileRec.path).getD []
  let ndb := match old with
    | some o => release db id o
    | none => db
  let (d, commands, capabilities) ← planApp dec policy pkg ⟨[], []⟩
  let d ← (m.files.filter isResource).foldlM (planResource dec pkg) d
  let (d, icon) ← planIcon dec pkg d
  let (d, plugins) ← m.plugins.foldlM (planPlugin dec policy pkg ndb) (d, [])
  let st ← m.uses.foldlM (planUse dec policy pkg) ⟨d, ndb, backups, [], []⟩
  let st := dropUnused st
  let ndb := st.ndb.mapLibraries (recount st.ndb id)
  let libraries := st.libraries.map (countRefs ndb)
  let d := st.draft.place dec (Db.META_DIR.join (id ++ ".meta")) pkg.manifestBytes
  let (backups, warnings) ← checkConflicts opts pkg s db ndb st.backups (d.places.map Prod.fst) []
    st.backups warnings
  let mkdirs ← planMkdirs s (d.places.map Prod.fst)
  let pkgRecord := record dec policy pkg d.owned st.uses plugins commands capabilities icon
  let ndb := { ndb with packages := ndb.packages.insert id pkgRecord }
  let ndb := ndb.advance policy.nonce
  checkDb ndb
  return {
    op := op, id := id, name := m.name, version := m.version, previous := old.map Package.version,
    kind := m.kind, badge := pkg.trust.badge, ring := m.ring, libraries := libraries,
    warnings := warnings, files := d.places.length,
    bytes := (d.places.map fun p => p.2.length).sum, removed := backups.length,
    places := d.places, backups := backups, mkdirs := mkdirs, cleanup := cleanupOf backups,
    db := ndb }

/-- What planning a removal changes, library by library. -/
structure RemoveDraft where
  ndb : Db
  backups : List Path
  libraries : List LibPlan

/-- One global library the removed package used. -/
def releaseUse (id : String) (st : RemoveDraft) (u : LibUse) : RemoveDraft :=
  match st.ndb.libraries[u.name]? with
  | none => st
  | some l =>
    let users := l.requiredBy.filter (· != id)
    let l := { l with
      requiredBy := users, refCount := users.length,
      providedBy := l.providedBy.filter (· != id) }
    if users.isEmpty then
      { ndb := { st.ndb with libraries := st.ndb.libraries.erase u.name }
        backups := st.backups ++ [l.path]
        libraries := st.libraries ++ [⟨u.name, .delete, l.version, 0⟩] }
    else
      { st with
        ndb := { st.ndb with libraries := st.ndb.libraries.insert u.name l }
        libraries := st.libraries ++ [⟨u.name, .release, l.version, l.refCount⟩] }

/-- Plans the removal of package `id`. -/
def planRemove (db : Db) (id : String) : Except Error Plan :=
  match db.packages[id]? with
  | none => .error (.notInstalled id)
  | some old => do
    let dependents := (db.packages.toList.filter fun (other, p) =>
      other != id && p.plugins.any (·.host == id)).map Prod.fst
    Db.ensure dependents.isEmpty (Error.hasDependents id dependents)
    let st := (old.libraries.filter (·.resolved == .global)).foldl (releaseUse id)
      ⟨{ db with packages := db.packages.erase id }, old.files.map FileRec.path, []⟩
    let privates := (old.libraries.filter (·.resolved == .priv)).map fun u =>
      (⟨u.name, .delete, u.version, 0⟩ : LibPlan)
    let ndb := st.ndb.advance policy.nonce
    checkDb ndb
    return {
      op := .remove, id := id, name := old.name, version := old.version, previous := none,
      kind := (PkgType.fromName old.kind).getD .gui, badge := .unsigned, ring := old.ring,
      libraries := st.libraries ++ privates, warnings := [], files := 0, bytes := 0,
      removed := st.backups.length, places := [], backups := st.backups, mkdirs := [],
      cleanup := cleanupOf st.backups, db := ndb }

end Planner

end NanoChrono.Ncpkg
