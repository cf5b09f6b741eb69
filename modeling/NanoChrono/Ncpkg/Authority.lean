import NanoChrono.Ncpkg.Modules

/-! # Who may run in ring 0

`Authorised` is what a plan is to guarantee: no signature condemns the package, ring 0 is asked for
under a ring-0 signature or the community switch, and every module placed is what the manifest says and
imports no kernel-tier symbols unless the package is approved for ring 0. The planner looks at that
flag in the app alone; `authorised_iff` is what this leaves open. -/

namespace NanoChrono.Ncpkg

open Check Planner

/-- A package as it is submitted: its files and manifest, the manifest's signed bytes, and its
signatures. -/
structure Submission where
  bundle : Bundle
  signed : Bytes
  signatures : List SigEntry

section Plans

variable {σ : Type} {dec : Decoders} {policy : Policy} {opts : InstallOptions} {pkg : Bundle}
  {db : Db} {s : Nodes} {p : Plan}

/-- The package with what the verifier makes of its signatures. -/
def Submission.judged (sub : Submission) (dec : Decoders) (v : Verifier σ) (start : σ) : Bundle :=
  { sub.bundle with trust := evaluate dec.digest v sub.signed start sub.signatures }

/-- The database an install's libraries start from. -/
def released (db : Db) (id : String) : Db :=
  match db.packages[id]? with
  | some o => release db id o
  | none => db

/-- The modules of a plan, and the checks before them. -/
structure Modular (dec : Decoders) (policy : Policy) (pkg : Bundle) (db : Db) (p : Plan) : Prop where
  fits : ∃ warnings, checkFits policy pkg = .ok warnings
  once : (p.places.map Prod.fst).Nodup
  app : ∀ app, pkg.manifest.app = some app →
    ∃ data, (["apps", pkg.manifest.id, app.entry], data) ∈ p.places ∧
      IsModule dec policy .app data ∧ (Flagged dec data → pkg.manifest.ring = 0)
  plugins : ∀ pl ∈ pkg.manifest.plugins,
    ∃ data, decode dec pkg ["plugins", policy.arch.name, pl.file] = .ok data ∧
      (["usr", "lib", "ncplu", pl.host, pkg.manifest.id, pl.file], data) ∈ p.places ∧
      IsModule dec policy .plugin data
  libraries : ∀ x ∈ p.places, ¬ Apart pkg.manifest.id x.1 →
    ∃ before u after, pkg.manifest.uses = before ++ u :: after ∧
      LibraryAt pkg.manifest.id u x.1 ∧
      Installs dec policy pkg (released db pkg.manifest.id) before u x.2
  installed : ∀ before u after data, pkg.manifest.uses = before ++ u :: after →
    Installs dec policy pkg (released db pkg.manifest.id) before u data →
      ∃ dest, LibraryAt pkg.manifest.id u dest ∧ (dest, data) ∈ p.places

/-- A file is placed once. -/
theorem Modular.unique (h : Modular dec policy pkg db p) {dest : Path} {data data' : Bytes}
    (hd : (dest, data) ∈ p.places) (hd' : (dest, data') ∈ p.places) : data = data' :=
  congrArg Prod.snd (List.inj_on_of_nodup_map h.once hd hd' rfl)

end Plans

/-! ## A flagged plugin -/

namespace KernelPlugin

/-- Decoders for a package whose one module is flagged. -/
def decoders : Decoders :=
  ⟨fun _ => Vector.replicate 64 0, fun _ => .ok ⟨.x86_64, .plugin, 0, FLAG_WANTS_PRIVILEGED⟩,
    fun _ => .ok ()⟩

def policy : Policy :=
  { arch := .x86_64, systemVersion := "1.0.0", abi := 1, communityRing0 := false,
    requireSignature := false, builtinApps := ["h.x"], reservedCommands := [], now := 0, nonce := 0,
    owner := [] }

def plugin : Plugin := ⟨"p.ncplu", "h.x", []⟩

def manifest : Manifest :=
  { id := "a.b", name := "b", version := "1.0.0", kind := .lib, license := none, creator := none,
    arches := [.x86_64], abi := 1, system := none, app := none, libraries := [], depends := [],
    plugins := [plugin], fs := [], devices := [], network := "",
    files := [⟨["plugins", "x86_64", "p.ncplu"], 1, Vector.replicate 64 0⟩] }

/-- An unsigned package with the plugin. -/
def submission : Submission :=
  ⟨⟨[(["plugins", "x86_64", "p.ncplu"], .ok [9])], [1, 2], manifest, .none⟩, [3], []⟩

/-- A verifier that knows no key. -/
def verifier : Verifier Unit := ⟨fun _ _ _ _ _ _ _ => (.unknownKey, ()), fun _ _ => (false, ())⟩

/-- The plan of its installation. -/
def planned : Except Error Plan :=
  plan decoders policy ⟨false, false, false⟩ (submission.judged decoders verifier ()) (.empty "x86_64")
    Nodes.new

end KernelPlugin

end NanoChrono.Ncpkg
