import NanoChrono.Check
import NanoChrono.Ncpkg.Journal
import NanoChrono.Ncpkg.Version

/-! # The package database

What is installed, which files each package owns, and the shared libraries with the packages that
require them. `Db.check` is every invariant the database file must keep, in the order and with the
texts of the source; the `Db.Sound` facts at the end say what a database that passes it satisfies.

`BTreeMap` is `Std.ExtTreeMap`, visited in the order of its keys. -/

namespace NanoChrono.Ncpkg

/-- The architectures a module is built for. -/
inductive Arch where
  | x86_64 | i386 | aarch64 | arm32 | riscv64 | riscv32 | ppc64 | ppc64Le | ppc
  deriving DecidableEq, Repr

namespace Arch

/-- Every architecture. -/
def all : List Arch := [.x86_64, .i386, .aarch64, .arm32, .riscv64, .riscv32, .ppc64, .ppc64Le, .ppc]

/-- The name manifests and the database spell it with. -/
def name : Arch → String
  | .x86_64 => "x86_64"
  | .i386 => "i386"
  | .aarch64 => "aarch64"
  | .arm32 => "arm32"
  | .riscv64 => "riscv64"
  | .riscv32 => "riscv32"
  | .ppc64 => "ppc64"
  | .ppc64Le => "ppc64le"
  | .ppc => "ppc"

end Arch

/-- The architecture with this canonical name. -/
def archDir (name : String) : Option Arch :=
  Arch.all.find? (·.name == name)

/-- How a package's library was provided. -/
inductive Resolved where
  /-- The shared copy in `/usr/lib`, counted in its `requiredBy`. -/
  | global
  /-- The package's own copy in `/apps/<id>/lib`. -/
  | priv
  deriving DecidableEq, Repr

/-- A file a package owns, as installed. -/
structure FileRec where
  path : Path
  size : Nat
  sha512 : String
  deriving DecidableEq, Repr

/-- A library a package uses. -/
structure LibUse where
  name : String
  requirement : String
  resolved : Resolved
  version : String
  deriving DecidableEq, Repr

/-- A plugin a package registered. -/
structure PluginRec where
  host : String
  path : Path
  provides : List String
  deriving DecidableEq, Repr

/-- An installed package. -/
structure Package where
  name : String
  version : String
  kind : String
  arch : String
  license : String
  creator : Option String
  installedAt : Nat
  badge : String
  roles : List String
  selfKey : Option String
  ring : Nat
  capabilities : List String
  devices : List String
  network : String
  fs : List (String × String)
  manifestSha512 : String
  /-- Every path the package owns, exclusively. -/
  files : List FileRec
  libraries : List LibUse
  plugins : List PluginRec
  commands : List String
  icon : Option Path
  deriving DecidableEq, Repr

/-- A shared library in `/usr/lib`. -/
structure Library where
  version : String
  path : Path
  size : Nat
  sha512 : String
  /-- The package whose copy is on disk; `none` once it was removed. -/
  providedBy : Option String
  refCount : Nat
  requiredBy : List String
  deriving DecidableEq, Repr

/-- The whole database. -/
structure Db where
  generation : UInt64
  lastTx : String
  arch : String
  packages : Std.ExtTreeMap String Package
  libraries : Std.ExtTreeMap String Library

/-- Why a database was refused. -/
structure DbError where
  reason : String
  deriving DecidableEq, Repr

namespace Db

/-- Where the package manager keeps its state. -/
def DIR : Path := ["var", "lib", "ncpkg"]

/-- The database file. -/
def PATH : Path := ["var", "lib", "ncpkg", "db.json"]

/-- The next database, written before a transaction's steps and swapped in at its commit. -/
def NEXT : Path := ["var", "lib", "ncpkg", "db.json.new"]

/-- Copies of installed manifests. -/
def META_DIR : Path := ["var", "lib", "ncpkg", "meta"]

/-- The path of the global copy of library `name`. -/
def globalLibPath (name : String) : Path := ["usr", "lib", name ++ ".ncdyn"]

/-- Where a package's private copy of `lib` lives. -/
def privateLibPath (id lib : String) : Path := ["apps", id, "lib", lib ++ ".ncdyn"]

/-- Where command `name`'s launcher lives. -/
def commandPath (name : String) : Path := ["usr", "bin", name]

/-- The cache path of package `id`'s icon. -/
def cachePath (id : String) : Path := ["var", "cache", "ncpkg", "icons", id ++ ".png"]

/-- The database of a system with nothing installed. -/
def empty (arch : String) : Db := ⟨0, "", arch, ∅, ∅⟩

/-- Whether a text is a SHA-512 digest in lower-case hexadecimal. -/
def isHexDigest (text : String) : Bool :=
  text.toList.length == 128 && text.toList.all fun c => c.isDigit || ('a' ≤ c && c ≤ 'f')

/-- Passes, or refuses with `e`. -/
def ensure {ε : Type} (b : Bool) (e : ε) : Except ε Unit :=
  if b then .ok () else .error e

/-- Which package owns each path. -/
abbrev Owners := Std.ExtTreeMap Path String

/-- `what` is wrong with package `id`. -/
def badPackage (id what : String) : DbError := ⟨s!"package {id}: {what}"⟩

/-- `what` is wrong with library `name`. -/
def badLibrary (name what : String) : DbError := ⟨s!"library {name}: {what}"⟩

/-- Enters a package's files, each of which nobody may own yet. -/
@[grind =] def claimFiles (id : String) : List FileRec → Owners → Except DbError Owners
  | [], owner => .ok owner
  | f :: files, owner => do
    ensure (f.path.isSystemPath && isHexDigest f.sha512)
      (badPackage id s!"bad file record {f.path.text}")
    match owner[f.path]? with
    | some other => throw ⟨s!"{f.path.text} is claimed by both {other} and {id}"⟩
    | none => claimFiles id files (owner.insert f.path id)

/-- Whether the package has a file at `path`. -/
def owns (p : Package) (path : Path) : Bool :=
  p.files.any (·.path == path)

/-- One library a package says it uses; `seen` are those before it. -/
def checkUse (db : Db) (id : String) (p : Package) (u : LibUse) : Except DbError Unit :=
  match u.resolved with
  | .global =>
    match db.libraries[u.name]? with
    | none => throw (badPackage id s!"uses global {u.name}, which is not installed")
    | some lib => do
      ensure (lib.requiredBy.contains id)
        (badPackage id s!"uses global {u.name}, which does not count it")
      ensure (lib.version == u.version)
        (badPackage id s!"records {u.name} {u.version} but {lib.version} is installed")
  | .priv =>
    ensure (owns p (privateLibPath id u.name))
      (badPackage id s!"its private {u.name} is not among its files")

/-- The libraries a package says it uses, each once. -/
@[grind =] def checkUses (db : Db) (id : String) (p : Package) : List LibUse → List String → Except DbError Unit
  | [], _ => .ok ()
  | u :: uses, seen => do
    ensure (!seen.contains u.name) (badPackage id s!"uses {u.name} twice")
    checkUse db id p u
    checkUses db id p uses (u.name :: seen)

/-- Everything about one package; enters its files among the `owner`s. -/
def checkPackage (db : Db) (id : String) (p : Package) (owner : Owners) :
    Except DbError Owners := do
  ensure (isPackageId id) (badPackage id "not a package id")
  ensure (Version.parse p.version).isSome (badPackage id "bad version")
  ensure (p.kind == "gui" || p.kind == "cli" || p.kind == "lib") (badPackage id "bad type")
  ensure (p.arch == db.arch) (badPackage id "installed for another architecture")
  ensure (p.ring == 0 || p.ring == 3) (badPackage id "bad ring")
  let owner ← claimFiles id p.files owner
  checkUses db id p p.libraries []
  p.plugins.forM fun pl =>
    ensure (owns p pl.path) (badPackage id s!"plugin {pl.path.text} is not among its files")
  p.commands.forM fun c =>
    ensure (owns p (commandPath c)) (badPackage id s!"command {c} is not among its files")
  match p.icon with
  | none => pure ()
  | some icon =>
    ensure (owns p icon && icon == cachePath id) (badPackage id "its icon is not its cache file")
  return owner

/-- Every package, in the order of their ids. -/
@[grind =] def checkPackages (db : Db) : List (String × Package) → Owners → Except DbError Owners
  | [], owner => .ok owner
  | (id, p) :: rest, owner => do
    let owner ← checkPackage db id p owner
    checkPackages db rest owner

/-- Whether a list is strictly ascending. -/
def strictlySorted (l : List String) : Bool :=
  (l.zip l.tail).all fun w => compare w.1 w.2 == .lt

/-- Everything about one library. -/
def checkLibrary (db : Db) (owner : Owners) (name : String) (l : Library) :
    Except DbError Unit := do
  ensure (isName name && l.path == globalLibPath name) (badLibrary name "bad name or path")
  ensure ((Version.parse l.version).isSome && isHexDigest l.sha512)
    (badLibrary name "bad version or digest")
  ensure (!l.requiredBy.isEmpty) (badLibrary name "required by nobody, yet still installed")
  ensure (l.refCount == l.requiredBy.length)
    (badLibrary name s!"ref_count {l.refCount} but required by {l.requiredBy.length}")
  ensure (strictlySorted l.requiredBy) (badLibrary name "required_by is not sorted and unique")
  l.requiredBy.forM fun id =>
    ensure (db.packages[id]?.any fun p =>
        p.libraries.any fun u => u.name == name && u.resolved == .global)
      (badLibrary name s!"counts {id}, which does not use it")
  match l.providedBy with
  | none => pure ()
  | some p =>
    ensure (db.packages.contains p) (badLibrary name s!"provided by {p}, which is not installed")
  match owner[l.path]? with
  | none => pure ()
  | some other => throw (badLibrary name s!"its file is also claimed by {other}")

/-- Every invariant of the database. -/
def check (db : Db) : Except DbError Unit := do
  ensure (archDir db.arch).isSome ⟨s!"unknown architecture {db.arch}"⟩
  let owner ← checkPackages db db.packages.toList ∅
  db.libraries.toList.forM fun (name, l) => checkLibrary db owner name l

end Db

/-! ## What a database that passes its check satisfies

`Db.check_valid` reads `Db.check`'s success as the record `Db.Valid`, one lemma for each function of
the check. -/

open Check

namespace Db

variable {db : Db} {id name : String} {p : Package} {l : Library} {owner owner' : Owners}

theorem ensure_ok {ε : Type} {b : Bool} {e : ε} {u : Unit} : ensure b e = .ok u ↔ b = true := by
  cases b <;> simp [ensure]

@[simp] theorem lookup_insert {α : Type} {m : Std.ExtTreeMap String α} {k q : String} {a : α} :
    (m.insert k a)[q]? = if k = q then some a else m[q]? := by
  rw [Std.ExtTreeMap.getElem?_insert]
  simp

@[simp] theorem lookup_erase {α : Type} {m : Std.ExtTreeMap String α} {k q : String} :
    (m.erase k)[q]? = if k = q then none else m[q]? := by
  rw [Std.ExtTreeMap.getElem?_erase]
  simp

/-- Everything about one package that does not depend on the others' files. -/
structure PackageOk (db : Db) (id : String) (p : Package) : Prop where
  isId : isPackageId id = true
  arch : p.arch = db.arch
  files : ∀ f ∈ p.files, f.path.isSystemPath = true ∧ isHexDigest f.sha512 = true
  once : (p.files.map FileRec.path).Nodup
  /-- Every global library it uses is installed in that version, and counts it. -/
  globals : ∀ u ∈ p.libraries, u.resolved = .global →
    ∃ l, db.libraries[u.name]? = some l ∧ id ∈ l.requiredBy ∧ l.version = u.version
  privates : ∀ u ∈ p.libraries, u.resolved = .priv → owns p (privateLibPath id u.name) = true
  usesOnce : (p.libraries.map LibUse.name).Nodup

/-- Everything about one library. -/
structure LibraryOk (db : Db) (name : String) (l : Library) : Prop where
  named : isName name = true
  path : l.path = globalLibPath name
  used : l.requiredBy ≠ []
  count : l.refCount = l.requiredBy.length
  sorted : strictlySorted l.requiredBy = true
  /-- Every user it counts is installed and uses it. -/
  users : ∀ id ∈ l.requiredBy, ∃ p, db.packages[id]? = some p ∧
    ∃ u ∈ p.libraries, u.name = name ∧ u.resolved = .global

/-- What a database that passes its check satisfies. -/
structure Valid (db : Db) : Prop where
  arch : (archDir db.arch).isSome = true
  package : ∀ id p, db.packages[id]? = some p → PackageOk db id p
  library : ∀ name l, db.libraries[name]? = some l → LibraryOk db name l
  /-- No file is recorded for two packages. -/
  apart : ∀ (id : String) (p : Package) (id' : String) (p' : Package),
    db.packages[id]? = some p → db.packages[id']? = some p' → ∀ f ∈ p.files, ∀ f' ∈ p'.files, f.path = f'.path → id = id'
  /-- No library's file is a package's too. -/
  libraryApart : ∀ (name : String) (l : Library) (id : String) (p : Package),
    db.libraries[name]? = some l → db.packages[id]? = some p → ∀ f ∈ p.files, f.path ≠ l.path

/-- Entering files: nobody owned them, and now the package does. -/
theorem claimFiles_ok {files : List FileRec} (h : claimFiles id files owner = .ok owner') :
    (∀ f ∈ files, f.path.isSystemPath = true ∧ isHexDigest f.sha512 = true) ∧
    (files.map FileRec.path).Nodup ∧ (∀ f ∈ files, owner[f.path]? = none) ∧
    ∀ q : Path, owner'[q]? = if q ∈ files.map FileRec.path then some id else owner[q]? := by
  induction files generalizing owner with
  | nil =>
    cases h
    simp
  | cons f files ih =>
    simp only [claimFiles, bind_ok, ensure_ok, Bool.and_eq_true] at h
    obtain ⟨-, hf, h⟩ := h
    split at h
    · rw [throw_ok] at h
      cases h
    · next hn =>
      obtain ⟨hall, hnd, hnone, hlook⟩ := ih h
      have hins : ∀ q : Path, (owner.insert f.path id)[q]? =
          if f.path = q then some id else owner[q]? := by
        intro q
        rw [Std.ExtTreeMap.getElem?_insert]
        simp
      have hnone' : ∀ g ∈ files, f.path ≠ g.path ∧ owner[g.path]? = none := by
        intro g hg
        have := hnone g hg
        rw [hins] at this
        split at this
        · cases this
        · next hne => exact ⟨hne, this⟩
      refine ⟨?_, ?_, ?_, fun q => ?_⟩
      · rintro g hg
        rcases List.mem_cons.1 hg with rfl | hg
        · exact hf
        · exact hall g hg
      · rw [List.map_cons, List.nodup_cons]
        refine ⟨fun hm => ?_, hnd⟩
        obtain ⟨g, hg, he⟩ := List.mem_map.1 hm
        exact (hnone' g hg).1 he.symm
      · rintro g hg
        rcases List.mem_cons.1 hg with rfl | hg
        · exact hn
        · exact (hnone' g hg).2
      · rw [hlook, hins]
        by_cases hq : f.path = q
        · simp [hq]
        · simp [hq, Ne.symm hq]

theorem checkUse_ok {u : LibUse} {w : Unit} (h : checkUse db id p u = .ok w) :
    (u.resolved = .global →
      ∃ l, db.libraries[u.name]? = some l ∧ id ∈ l.requiredBy ∧ l.version = u.version) ∧
    (u.resolved = .priv → owns p (privateLibPath id u.name) = true) := by
  unfold checkUse at h
  split at h
  · next hr =>
    refine ⟨fun _ => ?_, fun hp => by rw [hr] at hp; cases hp⟩
    split at h
    · rw [throw_ok] at h
      cases h
    · next l hl =>
      simp only [bind_ok, ensure_ok] at h
      obtain ⟨-, hc, hv⟩ := h
      exact ⟨l, hl, by simpa using hc, by simpa using hv⟩
  · next hr =>
    rw [ensure_ok] at h
    exact ⟨fun hg => (by rw [hr] at hg; cases hg), fun _ => h⟩

theorem checkUses_ok {uses : List LibUse} {seen : List String} {w : Unit}
    (h : checkUses db id p uses seen = .ok w) :
    (∀ u ∈ uses, ∃ w, checkUse db id p u = .ok w) ∧ (uses.map LibUse.name).Nodup ∧
    ∀ u ∈ uses, u.name ∉ seen := by
  induction uses generalizing seen with
  | nil => simp
  | cons u uses ih =>
    simp only [checkUses, bind_ok, ensure_ok] at h
    obtain ⟨-, hs, w', hu, h⟩ := h
    obtain ⟨hall, hnd, hseen⟩ := ih h
    refine ⟨?_, ?_, ?_⟩
    · rintro v hv
      rcases List.mem_cons.1 hv with rfl | hv
      · exact ⟨w', hu⟩
      · exact hall v hv
    · rw [List.map_cons, List.nodup_cons]
      refine ⟨fun hm => ?_, hnd⟩
      obtain ⟨v, hv, he⟩ := List.mem_map.1 hm
      exact hseen v hv (by simp [he])
    · rintro v hv
      rcases List.mem_cons.1 hv with rfl | hv
      · simpa using hs
      · exact fun hm => hseen v hv (by simp [hm])

theorem checkPackage_ok (h : checkPackage db id p owner = .ok owner') :
    PackageOk db id p ∧ claimFiles id p.files owner = .ok owner' := by
  simp only [checkPackage, bind_ok, ensure_ok] at h
  obtain ⟨-, hid, -, -, -, -, -, harch, -, -, o, hclaim, _, huses, _, _, _, _, h⟩ := h
  have ho : o = owner' := by
    split at h
    · simpa [pure_ok, bind_ok] using h
    · simp only [bind_ok, pure_ok] at h
      obtain ⟨-, -, rfl⟩ := h
      rfl
  obtain ⟨hfiles, hnd, -, -⟩ := claimFiles_ok hclaim
  obtain ⟨hall, hunique, -⟩ := checkUses_ok huses
  refine ⟨⟨hid, by simpa using harch, hfiles, hnd, fun u hu => ?_, fun u hu => ?_, hunique⟩,
    ho ▸ hclaim⟩
  · obtain ⟨w, hw⟩ := hall u hu
    exact (checkUse_ok hw).1
  · obtain ⟨w, hw⟩ := hall u hu
    exact (checkUse_ok hw).2

/-- Every package, in order: each is in order, and owns its files alone. -/
theorem checkPackages_ok {ps : List (String × Package)}
    (h : checkPackages db ps owner = .ok owner') :
    (∀ x ∈ ps, PackageOk db x.1 x.2) ∧
    (∀ x ∈ ps, ∀ f ∈ x.2.files, owner[f.path]? = none ∧ owner'[f.path]? = some x.1) ∧
    ∀ q : Path, owner[q]?.isSome = true → owner'[q]? = owner[q]? := by
  induction ps generalizing owner with
  | nil =>
    cases h
    simp
  | cons x ps ih =>
    obtain ⟨id, p⟩ := x
    simp only [checkPackages, bind_ok] at h
    obtain ⟨o, hp, h⟩ := h
    obtain ⟨hok, hclaim⟩ := checkPackage_ok hp
    obtain ⟨-, -, hnone, hlook⟩ := claimFiles_ok hclaim
    obtain ⟨hall, hown, hkeep⟩ := ih h
    refine ⟨?_, ?_, fun q hq => ?_⟩
    · rintro x hx
      rcases List.mem_cons.1 hx with rfl | hx
      · exact hok
      · exact hall x hx
    · rintro x hx f hf
      rcases List.mem_cons.1 hx with rfl | hx
      · have hmem : f.path ∈ p.files.map FileRec.path := List.mem_map_of_mem hf
        refine ⟨hnone f hf, ?_⟩
        rw [hkeep _ (by rw [hlook, if_pos hmem]; rfl), hlook, if_pos hmem]
      · obtain ⟨h1, h2⟩ := hown x hx f hf
        refine ⟨?_, h2⟩
        rw [hlook] at h1
        split at h1
        · cases h1
        · exact h1
    · have hno : q ∉ p.files.map FileRec.path := by
        intro hm
        obtain ⟨f, hf, rfl⟩ := List.mem_map.1 hm
        rw [hnone f hf] at hq
        cases hq
      have : o[q]? = owner[q]? := by rw [hlook, if_neg hno]
      rw [hkeep q (by rw [this]; exact hq), this]

theorem checkLibrary_ok {w : Unit} (h : checkLibrary db owner name l = .ok w) :
    LibraryOk db name l ∧ owner[l.path]? = none := by
  simp only [checkLibrary, bind_ok, ensure_ok, Bool.and_eq_true] at h
  obtain ⟨-, ⟨hname, hpath⟩, -, -, -, hused, -, hcount, -, hsorted, _, husers, h⟩ := h
  have howner : owner[l.path]? = none := by
    by_contra hne
    obtain ⟨other, ho⟩ := Option.ne_none_iff_exists'.1 hne
    rw [ho] at h
    split at h
    · exact throw_ok.1 h
    · rw [bind_ok] at h
      obtain ⟨-, -, h⟩ := h
      exact throw_ok.1 h
  refine ⟨⟨hname, by simpa using hpath, by simpa using hused, by simpa using hcount, hsorted,
    fun id hid => ?_⟩, howner⟩
  have huser := forM_ok.1 husers id hid
  rw [ensure_ok, Option.any_eq_true] at huser
  obtain ⟨p, hp, hany⟩ := huser
  obtain ⟨u, hu, hand⟩ := List.any_eq_true.1 hany
  simp only [Bool.and_eq_true, beq_iff_eq] at hand
  exact ⟨p, hp, u, hu, hand⟩

/-- The check is sound. -/
theorem check_valid (h : db.check = .ok ()) : db.Valid := by
  simp only [check, bind_ok, ensure_ok] at h
  obtain ⟨-, harch, owner, hps, hls⟩ := h
  obtain ⟨hall, hown, -⟩ := checkPackages_ok hps
  have hmem : ∀ id p, db.packages[id]? = some p → (id, p) ∈ db.packages.toList := fun id p hp =>
    Std.ExtTreeMap.mem_toList_iff_getElem?_eq_some.2 hp
  have hlib : ∀ name l, db.libraries[name]? = some l → LibraryOk db name l ∧ owner[l.path]? = none :=
    fun name l hl => checkLibrary_ok
      (forM_ok.1 hls (name, l) (Std.ExtTreeMap.mem_toList_iff_getElem?_eq_some.2 hl))
  refine ⟨harch, fun id p hp => hall _ (hmem id p hp), fun name l hl => (hlib name l hl).1,
    fun id p id' p' hp hp' f hf f' hf' he => ?_, fun name l id p hl hp f hf he => ?_⟩
  · have h1 := (hown _ (hmem id p hp) f hf).2
    have h2 := (hown _ (hmem id' p' hp') f' hf').2
    rw [he, h2] at h1
    exact (Option.some.inj h1).symm
  · have h1 := (hown _ (hmem id p hp) f hf).2
    rw [he, (hlib name l hl).2] at h1
    cases h1

end Db

end NanoChrono.Ncpkg
