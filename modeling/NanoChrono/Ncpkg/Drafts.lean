import NanoChrono.Ncpkg.Db
import NanoChrono.Ncpkg.Names
import NanoChrono.Ncpkg.Steps

/-! # What planning preserves

`areas` are the directories packages are installed into, `packageAreas` those a package owns files
in; a shared library's file is in none of the latter. `Drafting` is the invariant of the planner's
loops: which record stands for each file that will be placed, and where every library of the next
database comes from. -/

namespace NanoChrono.Ncpkg

open Check

/-- The directories packages install into. -/
def areas : List Path :=
  [["apps"], ["usr", "bin"], ["usr", "lib"], ["var", "cache", "ncpkg", "icons"], Db.META_DIR]

/-- The directories a package may own files in. -/
def packageAreas : List Path :=
  [["apps"], ["usr", "bin"], ["usr", "lib", "ncplu"], ["var", "cache", "ncpkg", "icons"],
    Db.META_DIR]

/-- Whether `p` lies in one of the directories. -/
def inArea (l : List Path) (p : Path) : Bool :=
  l.any (·.isPrefixOf p)

theorem inArea_iff {l : List Path} {p : Path} : inArea l p = true ↔ ∃ a ∈ l, a <+: p := by
  simp [inArea]

section Areas

variable {p q : Path}

theorem inArea_of_package (h : inArea packageAreas p = true) : inArea areas p = true := by
  obtain ⟨a, ha, hp⟩ := inArea_iff.1 h
  have hall : ∀ a ∈ packageAreas, ∃ b ∈ areas, b <+: a := by decide
  obtain ⟨b, hb, hba⟩ := hall a ha
  exact inArea_iff.2 ⟨b, hb, hba.trans hp⟩

theorem inArea_library (name : String) : inArea areas (Db.globalLibPath name) = true :=
  inArea_iff.2 ⟨["usr", "lib"], by decide, [name ++ ".ncdyn"], rfl⟩

/-- Nothing above or below an area is the manager's own, or the database. -/
theorem clear_of_area (h : inArea areas p = true) (hq : q <+: p) :
    own q = false ∧ q ≠ Db.PATH := by
  obtain ⟨a, ha, hp⟩ := inArea_iff.1 h
  have hall : ∀ r ∈ Journal.TX_DIR :: Db.PATH :: ownFiles, ∀ a ∈ areas, ¬ r <+: a ∧ ¬ a <+: r := by
    decide
  have hno : ∀ r ∈ Journal.TX_DIR :: Db.PATH :: ownFiles, ¬ r <+: p := by
    intro r hr hrp
    rcases Path.prefix_total hrp hp with h | h
    · exact (hall r hr a ha).1 h
    · exact (hall r hr a ha).2 h
  constructor
  · rw [← Bool.not_eq_true, own_iff]
    rintro (htx | hf)
    · exact hno _ (by simp) (htx.trans hq)
    · exact hno q (by simp [hf]) hq
  · rintro rfl
    exact hno _ (by simp) hq

theorem managed_of_area (h : inArea areas p = true) : managed p = true := by
  refine managed_iff.2 ⟨(clear_of_area h (List.prefix_refl _)).1, fun hh => ?_⟩
  have hall : ∀ r ∈ homes, inArea areas r = false := by decide
  rw [hall p hh] at h
  cases h

/-- A shared library's file is no package's. -/
theorem not_packageArea_library (name : String) :
    inArea packageAreas (Db.globalLibPath name) = false := by
  rw [← Bool.not_eq_true, inArea_iff]
  rintro ⟨a, ha, h⟩
  simp only [packageAreas, List.mem_cons, List.not_mem_nil, or_false] at ha
  rcases ha with rfl | rfl | rfl | rfl | rfl
  · simp [Db.globalLibPath] at h
  · simp [Db.globalLibPath] at h
  · have hl : name ++ ".ncdyn" = "ncplu" := by simpa [Db.globalLibPath, eq_comm] using h
    have := congrArg String.toList hl
    simp only [String.toList_append] at this
    have := congrArg List.length this
    simp at this
  · simp [Db.globalLibPath] at h
  · simp [Db.globalLibPath, Db.META_DIR] at h

theorem globalLibPath_inj {m n : String} (h : Db.globalLibPath m = Db.globalLibPath n) : m = n := by
  have h' : m ++ ".ncdyn" = n ++ ".ncdyn" := by simpa [Db.globalLibPath] using h
  have := congrArg String.toList h'
  simp only [String.toList_append] at this
  exact String.toList_inj.1 (List.append_cancel_right this)

end Areas

/-- The database with this record for one library. -/
def Db.withLibrary (db : Db) (name : String) (l : Library) : Db :=
  { db with libraries := db.libraries.insert name l }

namespace Planner

/-- The record of a file. -/
def recordOf (dec : Decoders) (x : Path × Bytes) : FileRec :=
  ⟨x.1, x.2.length, hex (dec.digest x.2)⟩

/-- The file at `p` is a library's that counts `id`. -/
def Shared (ndb : Db) (id : String) (p : Path) : Prop :=
  ∃ name l, p = Db.globalLibPath name ∧ ndb.libraries[name]? = some l ∧ id ∈ l.requiredBy

/-- A draft before its libraries: what is placed is owned, and lies in the package's areas. -/
structure Owning (dec : Decoders) (d : Draft) : Prop where
  placed : ∀ x ∈ d.places, recordOf dec x ∈ d.owned
  owned : ∀ f ∈ d.owned, inArea packageAreas f.path = true ∧ ∃ x ∈ d.places, recordOf dec x = f

section Owning

variable {dec : Decoders} {policy : Policy} {pkg : Bundle} {d d' : Draft}

theorem Owning.nil : Owning dec ⟨[], []⟩ := ⟨nofun, nofun⟩

theorem Owning.place (h : Owning dec d) {dest : Path} (data : Bytes)
    (hd : inArea packageAreas dest = true) : Owning dec (d.place dec dest data) := by
  refine ⟨fun x hx => ?_, fun f hf => ?_⟩
  · rcases List.mem_append.1 hx with hx | hx
    · exact List.mem_append_left _ (h.placed x hx)
    · rw [List.mem_singleton.1 hx]
      exact List.mem_append_right _ (by simp [recordOf])
  · rcases List.mem_append.1 hf with hf | hf
    · obtain ⟨ha, x, hx, he⟩ := h.owned f hf
      exact ⟨ha, x, List.mem_append_left _ hx, he⟩
    · rw [List.mem_singleton.1 hf]
      exact ⟨hd, (dest, data), List.mem_append_right _ (by simp), rfl⟩

/-- A path in a package's directory. -/
theorem inArea_apps (p : Path) : inArea packageAreas ("apps" :: p) = true :=
  inArea_iff.2 ⟨["apps"], by decide, p, rfl⟩

theorem planApp_owning {r : List String × List String} (h : planApp dec policy pkg d = .ok (d', r))
    (hd : Owning dec d) : Owning dec d' := by
  unfold planApp at h
  split at h
  · cases h
    exact hd
  · simp only [bind_ok, pure_ok] at h
    obtain ⟨data, -, img, -, -, -, -, -, d₁, hd₁, he⟩ := h
    cases he
    refine foldlM_ok hd₁ (hd.place data (inArea_apps _)) fun c _ d₂ d₃ hd₂ hc => ?_
    simp only [planCommand, bind_ok, pure_ok] at hc
    obtain ⟨-, -, rfl⟩ := hc
    exact hd₂.place _ (inArea_iff.2 ⟨["usr", "bin"], by decide, [c], rfl⟩)

theorem planResource_owning {f : FileRef} (h : planResource dec pkg d f = .ok d')
    (hd : Owning dec d) : Owning dec d' := by
  simp only [planResource, bind_ok, pure_ok] at h
  obtain ⟨data, -, rfl⟩ := h
  exact hd.place data (inArea_apps _)

theorem planIcon_owning {icon : Option Path} (h : planIcon dec pkg d = .ok (d', icon))
    (hd : Owning dec d) : Owning dec d' := by
  unfold planIcon at h
  split at h
  · cases h
    exact hd
  · simp only [bind_ok] at h
    obtain ⟨data, -, h⟩ := h
    split at h
    · rw [bind_ok] at h
      obtain ⟨_, h, -⟩ := h
      exact (throw_ok.1 h).elim
    · rw [pure_ok] at h
      cases h
      exact hd.place data
        (inArea_iff.2 ⟨["var", "cache", "ncpkg", "icons"], by decide, [_], rfl⟩)

theorem planPlugin_owning {ndb : Db} {st st' : Draft × List PluginRec} {p : Plugin}
    (h : planPlugin dec policy pkg ndb st p = .ok st') (hd : Owning dec st.1) :
    Owning dec st'.1 := by
  simp only [planPlugin, bind_ok, pure_ok] at h
  obtain ⟨-, -, data, -, -, -, rfl⟩ := h
  exact hd.place data (inArea_iff.2 ⟨["usr", "lib", "ncplu"], by decide, [_, _, _], rfl⟩)

end Owning

/-! ## Libraries -/

/-- The library is `db`'s, with other users perhaps, and its file stays where it is. -/
def Carried (db : Db) (st : LibDraft) (name : String) (l : Library) : Prop :=
  (∃ l₀, db.libraries[name]? = some l₀ ∧ l₀.path = l.path ∧ l₀.size = l.size ∧
    l₀.sha512 = l.sha512) ∧
  l.path ∉ st.draft.places.map Prod.fst ∧ l.path ∉ st.backups

/-- The library is new, and counts the package that brings it. -/
def Brought (dec : Decoders) (id : String) (st : LibDraft) (l : Library) : Prop :=
  id ∈ l.requiredBy ∧ ∃ data, (l.path, data) ∈ st.draft.places ∧ l.size = data.length ∧
    l.sha512 = hex (dec.digest data)

/-- The state of planning the libraries of package `id`, whose old version owned the files `old`. -/
structure Drafting (dec : Decoders) (db : Db) (id : String) (old : List Path) (st : LibDraft) :
    Prop where
  arch : st.ndb.arch = db.arch
  generation : st.ndb.generation = db.generation
  packages : ∀ j : String, st.ndb.packages[j]?.map Package.files =
    if id = j then none else db.packages[j]?.map Package.files
  placed : ∀ x ∈ st.draft.places, recordOf dec x ∈ st.draft.owned ∨ Shared st.ndb id x.1
  owned : ∀ f ∈ st.draft.owned, inArea packageAreas f.path = true ∧
    ∃ x ∈ st.draft.places, recordOf dec x = f
  library : ∀ (name : String) (l : Library), st.ndb.libraries[name]? = some l →
    l.path = Db.globalLibPath name ∧ (Brought dec id st l ∨ Carried db st name l)
  kept : ∀ name : String, db.libraries[name]?.isSome = true →
    st.ndb.libraries[name]?.isSome = true
  aside : ∀ b ∈ old, b ∈ st.backups
  backups : ∀ b ∈ st.backups, b ∈ old ∨ Shared st.ndb id b

section Libraries

variable {dec : Decoders} {policy : Policy} {pkg : Bundle} {db : Db} {id : String}
  {old : List Path} {st st' : LibDraft} {u : Use} {shipped : Option (ShippedLib × Bytes)}

/-- Changing one library leaves the others' files shared. -/
theorem Shared.insert {ndb ndb' : Db} {p : Path} {name : String} {l : Library}
    (h : Shared ndb id p) (hl : ndb'.libraries = ndb.libraries.insert name l)
    (hid : id ∈ l.requiredBy) : Shared ndb' id p := by
  obtain ⟨name', l', rfl, hl', hid'⟩ := h
  by_cases he : name = name'
  · exact ⟨name', l, rfl, by rw [hl, Db.lookup_insert, if_pos he], hid⟩
  · exact ⟨name', l', rfl, by rw [hl, Db.lookup_insert, if_neg he, hl'], hid'⟩

theorem retarget_files (packages : Std.ExtTreeMap String Package) (name version : String)
    (ds : List String) (j : String) :
    (retarget packages name version ds)[j]?.map Package.files =
      packages[j]?.map Package.files := by
  induction ds generalizing packages with
  | nil => rfl
  | cons d ds ih =>
    rw [retarget, ih]
    split
    · rfl
    · next p hp =>
      rw [Db.lookup_insert]
      split
      · next he => rw [← he, hp]; rfl
      · rfl

/-- Counting a user of a library that stays. -/
theorem Drafting.share {l : Library} (h : Drafting dec db id old st)
    (hl : st.ndb.libraries[u.name]? = some l) {uses : List LibUse} {libs : List LibPlan} :
    Drafting dec db id old { st with
      ndb := { st.ndb with
        libraries := st.ndb.libraries.insert u.name { l with requiredBy := l.requiredBy ++ [id] } }
      uses := uses, libraries := libs } := by
  have shared : ∀ p, Shared st.ndb id p → Shared (st.ndb.withLibrary u.name
      { l with requiredBy := l.requiredBy ++ [id] }) id p :=
    fun p hp => hp.insert rfl (by simp)
  refine ⟨h.arch, h.generation, h.packages, fun x hx => (h.placed x hx).imp_right (shared _),
    h.owned, fun name l' hl' => ?_, fun name hn => ?_, h.aside,
    fun b hb => (h.backups b hb).imp_right (shared _)⟩
  · rw [Db.lookup_insert] at hl'
    split at hl'
    · next he =>
      cases hl'
      subst he
      obtain ⟨hpath, hb | hc⟩ := h.library _ l hl
      · exact ⟨hpath, .inl ⟨by simp, hb.2⟩⟩
      · exact ⟨hpath, .inr hc⟩
    · exact h.library name l' hl'
  · rw [Db.lookup_insert]
    split
    · rfl
    · exact h.kept name hn

/-- A private copy is one more file the package owns. -/
theorem Drafting.ownCopy (h : Drafting dec db id old st) {name : String} {data : Bytes}
    {uses : List LibUse} {libs : List LibPlan} :
    Drafting dec db id old { st with
      draft := st.draft.place dec (Db.privateLibPath id name) data
      uses := uses, libraries := libs } := by
  have harea : inArea packageAreas (Db.privateLibPath id name) = true := inArea_apps _
  refine ⟨h.arch, h.generation, h.packages, fun x hx => ?_, fun f hf => ?_, fun n l hl => ?_,
    h.kept, h.aside, h.backups⟩
  · rcases List.mem_append.1 hx with hx | hx
    · exact (h.placed x hx).imp_left (List.mem_append_left _)
    · rw [List.mem_singleton.1 hx]
      exact .inl (List.mem_append_right _ (by simp [recordOf]))
  · rcases List.mem_append.1 hf with hf | hf
    · obtain ⟨ha, x, hx, he⟩ := h.owned f hf
      exact ⟨ha, x, List.mem_append_left _ hx, he⟩
    · rw [List.mem_singleton.1 hf]
      exact ⟨harea, (Db.privateLibPath id name, data), List.mem_append_right _ (by simp), rfl⟩
  · obtain ⟨hpath, ⟨hid, d, hd, hs⟩ | ⟨hl₀, hp, hb⟩⟩ := h.library n l hl
    · exact ⟨hpath, .inl ⟨hid, d, List.mem_append_left _ hd, hs⟩⟩
    · refine ⟨hpath, .inr ⟨hl₀, ?_, hb⟩⟩
      simp only [Draft.place, List.map_append, List.map_cons, List.map_nil, List.mem_append,
        List.mem_singleton]
      rintro (hm | he)
      · exact hp hm
      · rw [← he, hpath, not_packageArea_library] at harea
        cases harea

/-- A new global copy replaces the old one, if there was one. -/
theorem Drafting.globalCopy (h : Drafting dec db id old st) {name version : String} {data : Bytes}
    {replaces : Bool} {requiredBy : List String} {uses : List LibUse} {libs : List LibPlan}
    {lib : Library} (hpath : lib.path = Db.globalLibPath name) (hsize : lib.size = data.length)
    (hsha : lib.sha512 = hex (dec.digest data)) (hid : id ∈ lib.requiredBy) :
    Drafting dec db id old
      { draft := st.draft.placeShared (Db.globalLibPath name) data
        ndb := { st.ndb with
          packages := retarget st.ndb.packages name version requiredBy
          libraries := st.ndb.libraries.insert name lib }
        backups := if replaces then st.backups ++ [Db.globalLibPath name] else st.backups
        uses := uses, libraries := libs } := by
  generalize hndb : ({ st.ndb with
    packages := retarget st.ndb.packages name version requiredBy
    libraries := st.ndb.libraries.insert name lib } : Db) = ndb
  have hlibs : ndb.libraries = st.ndb.libraries.insert name lib := by rw [← hndb]
  have shared : ∀ p, Shared st.ndb id p → Shared ndb id p := fun p hp => hp.insert hlibs hid
  have hnew : Shared ndb id (Db.globalLibPath name) :=
    ⟨name, lib, rfl, by rw [hlibs, Db.lookup_insert, if_pos rfl], hid⟩
  refine ⟨hndb ▸ h.arch, hndb ▸ h.generation, fun j => ?_,
    fun x hx => ?_, fun f hf => ?_, fun n l hl => ?_, fun n hn => ?_, fun b hb => ?_,
    fun b hb => ?_⟩
  · rw [← hndb]
    exact (retarget_files _ _ _ _ j).trans (h.packages j)
  · rcases List.mem_append.1 hx with hx | hx
    · exact (h.placed x hx).imp_right (shared _)
    · rw [List.mem_singleton.1 hx]
      exact .inr hnew
  · obtain ⟨ha, x, hx, he⟩ := h.owned f hf
    exact ⟨ha, x, List.mem_append_left _ hx, he⟩
  · rw [show _ = ndb.libraries from rfl, hlibs, Db.lookup_insert] at hl
    split at hl
    · next he =>
      cases hl
      subst he
      exact ⟨hpath, .inl ⟨hid, data, List.mem_append_right _ (by simp [hpath]), hsize, hsha⟩⟩
    · next hne =>
      obtain ⟨hpath, ⟨hid, d, hd, hs⟩ | ⟨hl₀, hp, hb⟩⟩ := h.library n l hl
      · exact ⟨hpath, .inl ⟨hid, d, List.mem_append_left _ hd, hs⟩⟩
      · have hne' : l.path ≠ Db.globalLibPath name := fun he =>
          hne (globalLibPath_inj (hpath ▸ he).symm)
        refine ⟨hpath, .inr ⟨hl₀, ?_, ?_⟩⟩
        · simp only [Draft.placeShared, List.map_append, List.map_cons, List.map_nil,
            List.mem_append, List.mem_singleton, not_or]
          exact ⟨hp, hne'⟩
        · dsimp only
          split
          · simpa [hne'] using hb
          · exact hb
  · rw [show _ = ndb.libraries from rfl, hlibs, Db.lookup_insert]
    split
    · rfl
    · exact h.kept n hn
  · dsimp only
    split
    · exact List.mem_append_left _ (h.aside b hb)
    · exact h.aside b hb
  · dsimp only at hb
    have old' : b ∈ st.backups → b ∈ old ∨ Shared ndb id b := fun hb =>
      (h.backups b hb).imp_right (shared b)
    split at hb
    · rcases List.mem_append.1 hb with hb | hb
      · exact old' hb
      · rw [List.mem_singleton.1 hb]
        exact .inr hnew
    · exact old' hb

/-- Planning one library. -/
theorem planUse_drafting (h : planUse dec policy pkg st u = .ok st')
    (hd : Drafting dec db pkg.manifest.id old st) : Drafting dec db pkg.manifest.id old st' := by
  simp only [planUse, bind_ok] at h
  obtain ⟨shipped, -, choice, -, h⟩ := h
  unfold apply at h
  split at h
  · split at h
    · cases h
    · next l hl =>
      cases h
      exact hd.share hl
  · split at h
    · cases h
    · cases h
      exact hd.globalCopy rfl rfl rfl (by simp)
  · split at h
    · cases h
    · cases h
      exact hd.ownCopy

end Libraries

end Planner

end NanoChrono.Ncpkg
