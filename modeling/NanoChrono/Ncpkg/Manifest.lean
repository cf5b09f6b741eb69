import NanoChrono.Ncpkg.Db

/-! # Packages, policy and plans

What the planner is given: the package as its readers found it (`Bundle`: the files of the
container, the manifest's fields, what the signatures established), the machine and its owner's
choices (`Policy`), and the decoders it calls (`Decoders`). What it answers: a `Plan`, everything
an operation will do, computed before anything changes. -/

namespace NanoChrono.Ncpkg

/-- The bytes of a file. -/
abbrev Bytes := List UInt8

/-- A SHA-512 digest. -/
abbrev Digest := Vector UInt8 64

/-- The two lower-case hexadecimal digits of a byte. -/
def hexByte (b : UInt8) : List Char :=
  [Nat.digitChar (b.toNat / 16), Nat.digitChar (b.toNat % 16)]

/-- A digest in lower-case hexadecimal. -/
def hex (d : Digest) : String :=
  String.ofList (d.toList.flatMap hexByte)

/-- What a package installs as. -/
inductive PkgType where
  | gui | cli | lib
  deriving DecidableEq, Repr

/-- The word the manifest and the database store. -/
def PkgType.name : PkgType → String
  | .gui => "gui"
  | .cli => "cli"
  | .lib => "lib"

/-- The type with this name. -/
def PkgType.fromName (s : String) : Option PkgType :=
  [PkgType.gui, .cli, .lib].find? (·.name == s)

/-- Why a container was refused. -/
inductive FormatError where
  | tooSmall | badMagic | badVersion | tooBig | truncated | badLayout | badPath | duplicate
  | badEntry | noMeta
  | badData (reason : String)
  | notFound | bufferTooSmall
  deriving DecidableEq, Repr

/-- Which rule a manifest broke. -/
inductive MetaErrorKind where
  | json (reason : String)
  | wrongType | missing | unknownKey | duplicateKey | badValue | badFormat | tooMany | duplicate
  | inconsistent | container | refusedAlg
  deriving DecidableEq, Repr

/-- Why a manifest was refused, and the field that broke the rule. -/
structure MetaError where
  kind : MetaErrorKind
  field : String
  deriving DecidableEq, Repr

/-- Why an icon was refused. -/
inductive IconError where
  | png (reason : String)
  | tooLarge | notSquare | badSize | interlaced
  deriving DecidableEq, Repr

/-- What a signature may be for. -/
inductive Role where
  | creatorRing3 | creatorRing0 | verifyRing3 | verifyRing0 | selfSigned
  deriving DecidableEq, Repr

namespace Role

/-- Every role. -/
def all : List Role := [.creatorRing3, .creatorRing0, .verifyRing3, .verifyRing0, .selfSigned]

/-- The name manifests and the database spell it with. -/
def name : Role → String
  | .creatorRing3 => "creator-ring3"
  | .creatorRing0 => "creator-ring0"
  | .verifyRing3 => "verify-ring3"
  | .verifyRing0 => "verify-ring0"
  | .selfSigned => "self"

end Role

/-- How much a package is trusted, in one word. -/
inductive Badge where
  | treeRoot | creator | verifiedRing0 | verified | ownerKey | selfSigned | unsigned
  deriving DecidableEq, Repr

/-- The short word the database stores. -/
def Badge.id : Badge → String
  | .treeRoot => "tree-root"
  | .creator => "creator"
  | .verifiedRing0 => "verified-ring0"
  | .verified => "verified"
  | .ownerKey => "owner-key"
  | .selfSigned => "self-signed"
  | .unsigned => "unsigned"

/-- What the signatures on a package established. -/
structure Trust where
  valid : List Role
  invalid : List Role
  selfKey : Option String
  selfEnrolled : Bool
  deriving DecidableEq, Repr

namespace Trust

/-- A valid signature in `role`. -/
def has (t : Trust) (role : Role) : Bool := t.valid.contains role

/-- A signature in `role` that is present and does not verify. -/
def failed (t : Trust) (role : Role) : Bool := t.invalid.contains role

/-- Any signature present and not verifying. -/
def tampered (t : Trust) : Bool := !t.invalid.isEmpty

/-- The valid roles. -/
def roles (t : Trust) : List Role := Role.all.filter t.has

/-- Whether a valid signature allows ring 0. -/
def ring0Signed (t : Trust) : Bool := t.has .creatorRing0 || t.has .verifyRing0

/-- The strongest thing the signatures say. -/
def badge (t : Trust) : Badge :=
  if t.has .creatorRing0 then .treeRoot
  else if t.has .creatorRing3 then .creator
  else if t.has .verifyRing0 then .verifiedRing0
  else if t.has .verifyRing3 then .verified
  else if t.has .selfSigned then (if t.selfEnrolled then .ownerKey else .selfSigned)
  else .unsigned

end Trust

/-- What kind of module an image is. -/
inductive ModuleKind where
  | app | driver | library | plugin
  deriving DecidableEq, Repr

/-- The header of a module image. -/
structure Image where
  arch : Arch
  kind : ModuleKind
  capabilities : UInt32
  flags : UInt32
  deriving DecidableEq, Repr

/-- The header flag of a module that imports kernel-tier symbols. -/
def FLAG_WANTS_PRIVILEGED : UInt32 := 1

/-- The capabilities a manifest may declare, with their bits. -/
def CAPABILITIES : List (String × UInt32) :=
  [("screen", 1), ("input", 2), ("log", 4), ("timer", 8), ("pmu", 16), ("rng", 32)]

/-- The app section of a manifest. -/
structure App where
  entry : String
  ring : Nat
  capabilities : UInt32
  commands : List String
  deriving DecidableEq, Repr

/-- A shared library a package ships. -/
structure ShippedLib where
  name : String
  version : String
  file : String
  share : Bool
  deriving DecidableEq, Repr

/-- A requirement on a shared library. -/
structure Depend where
  lib : String
  req : String
  deriving DecidableEq, Repr

/-- What a package accepts for one library it uses. -/
inductive Requirement where
  /-- Stated in `depends`. -/
  | explicit (req : String)
  /-- Not stated, but shipped: compatible updates of the shipped version. -/
  | caret (shipped : String)
  deriving DecidableEq, Repr

namespace Requirement

/-- The requirement as the database records it. -/
def text : Requirement → String
  | .explicit r => r
  | .caret v => "^" ++ v

/-- Whether `v` is accepted; a shipped version's build metadata is dropped before comparing. -/
@[grind =] def accepts (r : Requirement) (v : Version) : Bool :=
  match r with
  | .explicit r => (Req.parse r).any (·.accepts v)
  | .caret shipped =>
    let core := (shipped.toList.takeWhile (· != '+')).take maxVersionLen
    (Req.parse (String.ofList ('^' :: core))).any (·.accepts v)

end Requirement

/-- One library a package uses: what it accepts and the copy it ships, if any. -/
structure Use where
  name : String
  requirement : Requirement
  shipped : Option ShippedLib
  deriving DecidableEq, Repr

/-- A plugin the package registers with a host app. -/
structure Plugin where
  file : String
  host : String
  provides : List String
  deriving DecidableEq, Repr

/-- A file the manifest lists; its path is relative to the package. -/
structure FileRef where
  path : Path
  size : Nat
  sha512 : Digest
  deriving DecidableEq

/-- A validated manifest's fields. -/
structure Manifest where
  id : String
  name : String
  version : String
  kind : PkgType
  license : Option String
  creator : Option String
  arches : List Arch
  abi : Nat
  system : Option String
  app : Option App
  libraries : List ShippedLib
  depends : List Depend
  plugins : List Plugin
  fs : List (String × String)
  devices : List String
  network : String
  files : List FileRef

/-- The manifest's own path inside a package. -/
def ICON : Path := ["icon.png"]

namespace Manifest

/-- The manifest's version; one that does not parse reads as zero. -/
def versionParsed (m : Manifest) : Version :=
  (Version.parse m.version).getD ⟨0, 0, 0, [], []⟩

/-- The licence, an absent one read as proprietary. -/
def licenseOrDefault (m : Manifest) : String := m.license.getD "Proprietary"

/-- The ring the package asks for: its app's, or 3 for a library. -/
def ring (m : Manifest) : Nat := (m.app.map App.ring).getD 3

/-- The listed file at `path`. -/
def file (m : Manifest) (path : Path) : Option FileRef := m.files.find? (·.path == path)

/-- The package's icon, when it has one. -/
def icon (m : Manifest) : Option FileRef := m.file ICON

/-- Every library the package uses: stated in `depends`, shipped, or both. -/
def uses (m : Manifest) : List Use :=
  (m.depends.map fun d => ⟨d.lib, .explicit d.req, m.libraries.find? (·.name == d.lib)⟩) ++
  ((m.libraries.filter fun l => !m.depends.any (·.lib == l.name)).map fun l =>
    ⟨l.name, .caret l.version, some l⟩)

end Manifest

/-- A package as its readers found it. -/
structure Bundle where
  /-- The container's files and what each decodes to. -/
  entries : List (Path × Except FormatError Bytes)
  manifestBytes : Bytes
  manifest : Manifest
  trust : Trust

/-- The decoders the planner calls. -/
structure Decoders where
  /-- SHA-512. -/
  digest : Bytes → Digest
  /-- A module's header. -/
  image : Bytes → Except String Image
  /-- Whether an icon decodes within the rules. -/
  icon : Bytes → Except IconError Unit

/-- The system the manager installs for, and the owner's choices. -/
structure Policy where
  arch : Arch
  systemVersion : String
  abi : Nat
  /-- *Enable Ring0 Community Modules and Drivers*. -/
  communityRing0 : Bool
  requireSignature : Bool
  builtinApps : List String
  reservedCommands : List String
  now : Nat
  /-- Per-operation randomness for transaction ids. -/
  nonce : UInt64
  /-- Who holds the lock. -/
  owner : Bytes

/-- Install options. -/
structure InstallOptions where
  reinstall : Bool
  allowDowngrade : Bool
  /-- Overwrite files that no package owns. -/
  force : Bool
  deriving DecidableEq, Repr

/-- What a plan does. -/
inductive PlanOp where
  | install | upgrade | downgrade | reinstall | remove
  deriving DecidableEq, Repr

/-- The word the journal stores. -/
def PlanOp.name : PlanOp → String
  | .install => "install"
  | .upgrade => "upgrade"
  | .downgrade => "downgrade"
  | .reinstall => "reinstall"
  | .remove => "remove"

/-- What happens to one library. -/
inductive LibChange where
  | newGlobal
  | share
  | upgradeGlobal (prior : String)
  | privateCopy (global : Option String)
  | release
  | delete
  deriving DecidableEq, Repr

/-- A library's fate in a plan. -/
structure LibPlan where
  name : String
  change : LibChange
  version : String
  /-- `ref_count` afterwards (0 for a private copy or a deletion). -/
  refs : Nat
  deriving DecidableEq, Repr

/-- Everything an operation will do, computed before anything changes. -/
structure Plan where
  op : PlanOp
  id : String
  name : String
  version : String
  previous : Option String
  kind : PkgType
  badge : Badge
  ring : Nat
  libraries : List LibPlan
  warnings : List String
  /-- Files written, and their bytes. -/
  files : Nat
  bytes : Nat
  /-- Files moved aside. -/
  removed : Nat
  places : List (Path × Bytes)
  backups : List Path
  mkdirs : List Path
  cleanup : List Path
  db : Db

end NanoChrono.Ncpkg
