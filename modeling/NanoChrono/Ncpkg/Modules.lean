import NanoChrono.Ncpkg.PlanFacts
import NanoChrono.Ncpkg.Signatures

/-! # The modules a plan places

Where each file of a plan comes from, as far as modules are concerned: the app, every plugin, and the
library copies that are not passed over for an installed one. -/

namespace NanoChrono.Ncpkg.Planner

open Check

variable {dec : Decoders} {policy : Policy} {opts : InstallOptions} {pkg : Bundle}

/-- The module's header is of this kind, for the policy's architecture. -/
def IsModule (dec : Decoders) (policy : Policy) (kind : ModuleKind) (data : Bytes) : Prop :=
  ∃ img, dec.image data = .ok img ∧ img.arch = policy.arch ∧ img.kind = kind

/-- The module is flagged as importing kernel-tier symbols. -/
def Flagged (dec : Decoders) (data : Bytes) : Prop :=
  ∃ img, dec.image data = .ok img ∧ img.flags &&& FLAG_WANTS_PRIVILEGED ≠ 0

/-- The path is no library copy's. -/
def Apart (id : String) (p : Path) : Prop :=
  ∀ n, p ≠ Db.globalLibPath n ∧ p ≠ Db.privateLibPath id n

/-- What a step before the libraries does to the draft: it adds files that are no library copies. -/
structure Adds (id : String) (d d' : Draft) : Prop where
  keeps : ∀ x ∈ d.places, x ∈ d'.places
  apart : ∀ x ∈ d'.places, x ∈ d.places ∨ Apart id x.1

namespace Adds

variable {id : String} {d d' d'' : Draft}

theorem refl (d : Draft) : Adds id d d := ⟨fun _ h => h, fun _ h => .inl h⟩

theorem trans (h : Adds id d d') (h' : Adds id d' d'') : Adds id d d'' where
  keeps x hx := h'.keeps x (h.keeps x hx)
  apart x hx := (h'.apart x hx).elim (h.apart x) .inr

theorem place {dest : Path} (data : Bytes) (h : Apart id dest) : Adds id d (d.place dec dest data) where
  keeps x hx := List.mem_append_left _ hx
  apart x hx := by
    rcases List.mem_append.1 hx with hx | hx
    · exact .inl hx
    · exact .inr (List.mem_singleton.1 hx ▸ h)

end Adds

variable {d d' : Draft}

/-- The database planning one library leaves: it depends on nothing but the database before. -/
def nextDb (dec : Decoders) (policy : Policy) (pkg : Bundle) (ndb : Db) (u : Use) : Except Error Db :=
  (planUse dec policy pkg ⟨⟨[], []⟩, ndb, [], [], []⟩ u).map LibDraft.ndb

/-- The shipped copy `data` of `u` is not passed over, once the libraries `before` are planned. -/
def Installs (dec : Decoders) (policy : Policy) (pkg : Bundle) (ndb : Db) (before : List Use)
    (u : Use) (data : Bytes) : Prop :=
  ∃ ndb' s, before.foldlM (nextDb dec policy pkg) ndb = .ok ndb' ∧
    shippedCopy dec policy pkg u = .ok (some (s, data)) ∧
    choose dec pkg ndb' u (some (s, data)) ≠ .ok .share

/-- Where the copy of a library goes. -/
def LibraryAt (id : String) (u : Use) (p : Path) : Prop :=
  p = Db.globalLibPath u.name ∨ p = Db.privateLibPath id u.name

end NanoChrono.Ncpkg.Planner
