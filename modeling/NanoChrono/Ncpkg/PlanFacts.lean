import NanoChrono.Ncpkg.Drafts
import NanoChrono.Ncpkg.Transaction

/-! # What a plan promises

`plan_drawn` and `planRemove_removing` take the planner apart once: the libraries and records of the
next database, the files placed and moved aside, the directories made. -/

namespace NanoChrono.Ncpkg

open Check

/-- What the manager keeps true of the databases it writes, beyond their check. -/
structure Db.Written (db : Db) : Prop where
  /-- Every package's files lie where packages own files. -/
  placed : ∀ (id : String) (p : Package), db.packages[id]? = some p →
    ∀ f ∈ p.files, inArea packageAreas f.path = true
  /-- The last transaction is named after its generation. -/
  numbered : db.lastTx = "" ∨ ∃ nonce, db.lastTx = txName db.generation nonce

namespace Planner

variable {dec : Decoders} {policy : Policy} {opts : InstallOptions} {pkg : Bundle} {db : Db}
  {id : String} {old : List Path} {st st' : LibDraft}

/-- The part of a library's record that is about its file. -/
def fileOf (l : Library) : FileRec := ⟨l.path, l.size, l.sha512⟩

/-- Dropping users changes no library's file. -/
theorem dropUsers_libraries (id name : String) (us : List LibUse)
    (libs : Std.ExtTreeMap String Library) :
    (us.foldl (fun (libs : Std.ExtTreeMap String Library) (u : LibUse) =>
      match libs[u.name]? with
      | some l => libs.insert u.name (Library.dropUser l id)
      | none => libs) libs)[name]?.map fileOf = libs[name]?.map fileOf := by
  induction us generalizing libs with
  | nil => rfl
  | cons u us ih =>
    rw [List.foldl_cons, ih]
    split
    · next l hl =>
      rw [Db.lookup_insert]
      split
      · next he =>
        subst he
        rw [hl]
        rfl
      · rfl
    · rfl

/-- Releasing the old version changes users only. -/
theorem release_libraries (db : Db) (id : String) (o : Package) (name : String) :
    (release db id o).libraries[name]?.map fileOf = db.libraries[name]?.map fileOf :=
  dropUsers_libraries id name _ _

/-- Where planning the libraries starts. -/
theorem Drafting.start {d : Draft} {ndb : Db} (hv : db.Valid) (hd : Owning dec d)
    (harch : ndb.arch = db.arch) (hgen : ndb.generation = db.generation)
    (hpackages : ∀ j : String, ndb.packages[j]?.map Package.files =
      if id = j then none else db.packages[j]?.map Package.files)
    (hlibs : ∀ name : String, ndb.libraries[name]?.map fileOf = db.libraries[name]?.map fileOf)
    (hold : ∀ p ∈ old, ∃ (j : String) (q : Package), db.packages[j]? = some q ∧
      p ∈ q.files.map FileRec.path) :
    Drafting dec db id old ⟨d, ndb, old, [], []⟩ := by
  refine ⟨harch, hgen, hpackages, fun x hx => .inl (hd.placed x hx), hd.owned,
    fun name l hl => ?_, fun name hn => ?_, fun b hb => hb, fun b hb => .inl hb⟩
  · have h₀ := hlibs name
    rw [show (_ : Option Library) = some l from hl] at h₀
    rcases hdb : db.libraries[name]? with _ | l₀
    · rw [hdb] at h₀
      cases h₀
    rw [hdb] at h₀
    have hfile : fileOf l = fileOf l₀ := Option.some.inj h₀
    simp only [fileOf, FileRec.mk.injEq] at hfile
    have hpath : l.path = Db.globalLibPath name := hfile.1.trans (hv.library name l₀ hdb).path
    refine ⟨hpath, .inr ⟨⟨l₀, hdb, hfile.1.symm, hfile.2.1.symm, hfile.2.2.symm⟩, ?_, ?_⟩⟩
    · intro hm
      obtain ⟨x, hx, he⟩ := List.mem_map.1 hm
      have harea := (hd.owned _ (hd.placed x hx)).1
      rw [show (recordOf dec x).path = x.1 from rfl, he, hpath, not_packageArea_library] at harea
      cases harea
    · intro hm
      obtain ⟨j, q, hq, hf⟩ := hold _ hm
      obtain ⟨f, hf, he⟩ := List.mem_map.1 hf
      exact hv.libraryApart name l₀ j q hdb hq f hf (he.trans hfile.1)
  · have h₀ := hlibs name
    obtain ⟨l₀, hl₀⟩ := Option.isSome_iff_exists.1 hn
    rw [hl₀] at h₀
    rcases hl : ndb.libraries[name]? with _ | l
    · rw [hl] at h₀
      cases h₀
    · rfl

/-! ## Libraries nobody uses -/

/-- What is left when the unused libraries are gone. -/
theorem dropUnused_libraries (st : LibDraft) (name : String) :
    (dropUnused st).ndb.libraries[name]? =
      st.ndb.libraries[name]?.filter fun l => !l.requiredBy.isEmpty := by
  have key : ∀ (us : List (String × Library)) (libs : Std.ExtTreeMap String Library),
      (us.foldl (fun libs (x : String × Library) => libs.erase x.1) libs)[name]? =
        if name ∈ us.map Prod.fst then none else libs[name]? := by
    intro us
    induction us with
    | nil => exact fun _ => rfl
    | cons u us ih =>
      intro libs
      rw [List.foldl_cons, ih, Db.lookup_erase]
      by_cases hu : u.1 = name
      · simp [hu]
      · have hm : name ∈ (u :: us).map Prod.fst ↔ name ∈ us.map Prod.fst := by
          simp [Ne.symm hu]
        rw [if_neg hu]
        exact if_congr hm.symm rfl rfl
  refine (key _ _).trans ?_
  rcases hl : st.ndb.libraries[name]? with _ | l
  · split <;> rfl
  · have hmem : name ∈ (st.ndb.libraries.toList.filter fun x => x.2.requiredBy.isEmpty).map
        Prod.fst ↔ l.requiredBy.isEmpty = true := by
      constructor
      · intro hm
        obtain ⟨⟨n, l'⟩, hx, rfl⟩ := List.mem_map.1 hm
        obtain ⟨hx, he⟩ := List.mem_filter.1 hx
        have := Std.ExtTreeMap.mem_toList_iff_getElem?_eq_some.1 hx
        rw [show st.ndb.libraries[n]? = some l from hl] at this
        cases this
        exact he
      · intro he
        exact List.mem_map.2 ⟨(name, l), List.mem_filter.2
          ⟨Std.ExtTreeMap.mem_toList_iff_getElem?_eq_some.2 hl, he⟩, rfl⟩
    by_cases he : l.requiredBy.isEmpty = true
    · rw [if_pos (hmem.2 he), Option.filter_some, if_neg (by simpa using he)]
    · rw [if_neg (fun h => he (hmem.1 h)), Option.filter_some, if_pos (by simpa using he)]

/-- The files moved aside once the unused libraries are gone. -/
theorem mem_dropUnused_backups {b : Path} :
    b ∈ (dropUnused st).backups ↔ b ∈ st.backups ∨
      ∃ (name : String) (l : Library), st.ndb.libraries[name]? = some l ∧
        l.requiredBy.isEmpty = true ∧ l.path = b := by
  simp only [dropUnused, List.mem_append, List.mem_map, List.mem_filter, Prod.exists]
  constructor
  · rintro (h | ⟨name, l, ⟨hl, he⟩, rfl⟩)
    · exact .inl h
    · exact .inr ⟨name, l, Std.ExtTreeMap.mem_toList_iff_getElem?_eq_some.1 hl, he, rfl⟩
  · rintro (h | ⟨name, l, hl, he, rfl⟩)
    · exact .inl h
    · exact .inr ⟨name, l, ⟨Std.ExtTreeMap.mem_toList_iff_getElem?_eq_some.2 hl, he⟩, rfl⟩

/-! ## Conflicts -/

theorem existsAt_ok {s : Nodes} {p : Path} {b : Bool} (h : existsAt s p = .ok b) :
    Fs.check p = .ok () ∧ b = s[p]?.isSome := by
  unfold existsAt at h
  split at h
  · cases h
  · next hc =>
    cases h
    exact ⟨hc, Nodes.contains_eq⟩

theorem ownerOf_none {ndb : Db} {dest : Path} (h : ownerOf ndb dest = none) (j : String)
    (q : Package) (hq : ndb.packages[j]? = some q) : ∀ f ∈ q.files, f.path ≠ dest := by
  intro f hf he
  simp only [ownerOf, List.findRev?_eq_findRev?TR, List.findRev?TR, Option.map_eq_none_iff,
    List.find?_eq_none, List.mem_reverse] at h
  have := h (j, q) (Std.ExtTreeMap.mem_toList_iff_getElem?_eq_some.2 hq)
  simp only [List.any_eq_true, beq_iff_eq, not_exists, not_and] at this
  exact this f hf he

/-- Where a plan places its files: each path once, and each free unless what is there goes aside. -/
theorem checkConflicts_ok {s : Nodes} {ndb : Db} {aside dests seen backups backups' : List Path}
    {warnings warnings' : List String}
    (h : checkConflicts opts pkg s db ndb aside dests seen backups warnings =
      .ok (backups', warnings')) :
    dests.Nodup ∧ (∀ d ∈ dests, d ∉ seen) ∧ (∀ b ∈ backups, b ∈ backups') ∧
    (∀ b ∈ backups', b ∈ backups ∨ b ∈ dests ∧ s[b]?.isSome = true) ∧
    ∀ d ∈ dests, d ∈ aside ∨ ownerOf ndb d = none ∧ Fs.check d = .ok () ∧
      (s[d]? = none ∨ d ∈ backups') := by
  induction dests generalizing seen backups warnings with
  | nil =>
    cases h
    exact ⟨List.nodup_nil, nofun, fun _ h => h, fun _ h => .inl h, nofun⟩
  | cons dest rest ih =>
    simp only [checkConflicts, bind_ok, Db.ensure_ok] at h
    obtain ⟨-, hseen, h⟩ := h
    have hseen' : dest ∉ seen := by simpa using hseen
    -- The rest of the list, whatever was decided about `dest`.
    have finish : ∀ {bs ws}, (checkConflicts opts pkg s db ndb aside rest (dest :: seen) bs ws =
        .ok (backups', warnings')) → (∀ b ∈ backups, b ∈ bs) →
        (∀ b ∈ bs, b ∈ backups ∨ b = dest ∧ s[b]?.isSome = true) →
        (dest ∈ aside ∨ ownerOf ndb dest = none ∧ Fs.check dest = .ok () ∧
          (s[dest]? = none ∨ dest ∈ bs)) →
        (dest :: rest).Nodup ∧ (∀ d ∈ dest :: rest, d ∉ seen) ∧ (∀ b ∈ backups, b ∈ backups') ∧
        (∀ b ∈ backups', b ∈ backups ∨ b ∈ dest :: rest ∧ s[b]?.isSome = true) ∧
        ∀ d ∈ dest :: rest, d ∈ aside ∨ ownerOf ndb d = none ∧ Fs.check d = .ok () ∧
          (s[d]? = none ∨ d ∈ backups') := by
      intro bs ws h hsub hsup hdest
      obtain ⟨hnd, hfresh, hkeep, hback, hfree⟩ := ih h
      refine ⟨List.nodup_cons.2 ⟨fun hm => hfresh dest hm (by simp), hnd⟩, ?_,
        fun b hb => hkeep b (hsub b hb), fun b hb => ?_, ?_⟩
      · rintro d hd
        rcases List.mem_cons.1 hd with rfl | hd
        · exact hseen'
        · exact fun hm => hfresh d hd (by simp [hm])
      · rcases hback b hb with hb | ⟨hb, hf⟩
        · rcases hsup b hb with hb | ⟨rfl, hf⟩
          · exact .inl hb
          · exact .inr ⟨by simp, hf⟩
        · exact .inr ⟨by simp [hb], hf⟩
      · rintro d hd
        rcases List.mem_cons.1 hd with rfl | hd
        · exact hdest.imp_right fun h => ⟨h.1, h.2.1, h.2.2.imp_right (hkeep d)⟩
        · exact hfree d hd
    split at h
    · next ha =>
      exact finish h (fun _ h => h) (fun _ h => .inl h) (.inl (by simpa using ha))
    · split at h
      · split at h <;> exact (throw_ok.1 h).elim
      · next howner =>
        split at h
        · rw [bind_ok] at h
          obtain ⟨_, h, -⟩ := h
          exact (throw_ok.1 h).elim
        · simp only [bind_ok] at h
          obtain ⟨there, hthere, h⟩ := h
          obtain ⟨hc, rfl⟩ := existsAt_ok hthere
          split at h
          · next hyes =>
            simp only [bind_ok, Db.ensure_ok] at h
            obtain ⟨-, -, h⟩ := h
            refine finish h (fun b hb => by simp [hb]) (fun b hb => ?_)
              (.inr ⟨howner, hc, .inr (by simp)⟩)
            rcases List.mem_append.1 hb with hb | hb
            · exact .inl hb
            · obtain rfl := List.mem_singleton.1 hb
              exact .inr ⟨rfl, hyes⟩
          · next hno =>
            refine finish h (fun _ h => h) (fun _ h => .inl h) (.inr ⟨howner, hc, .inl ?_⟩)
            rw [Bool.not_eq_true, Option.isSome_eq_false_iff, Option.isNone_iff_eq_none] at hno
            exact hno

/-! ## Directories -/

theorem nodup_inits (p : Path) : p.inits.Nodup := by
  induction p with
  | nil => simp
  | cons c p ih =>
    rw [List.inits_cons, List.nodup_cons]
    exact ⟨by simp, ih.map fun a b h => (List.cons.inj h).2⟩

/-- The missing ancestors of one file. -/
theorem missingDirs_ok {s : Nodes} {mkdirs up acc r : List Path}
    (h : missingDirs s mkdirs up acc = .ok r) :
    ∃ taken, taken <+: up ∧ r = mkdirs ++ (taken.reverse ++ acc) ∧
      ∀ p ∈ taken, p ≠ [] ∧ p ∉ mkdirs ∧ Fs.check p = .ok () ∧ s[p]? = none := by
  induction up generalizing acc with
  | nil =>
    cases h
    exact ⟨[], List.nil_prefix, by simp, nofun⟩
  | cons p up ih =>
    rw [missingDirs] at h
    split at h
    · cases h
      exact ⟨[], List.nil_prefix, by simp, nofun⟩
    · next hp =>
      simp only [Bool.or_eq_true, List.isEmpty_iff, List.contains_iff_mem, not_or] at hp
      simp only [bind_ok] at h
      obtain ⟨there, hthere, h⟩ := h
      obtain ⟨hc, rfl⟩ := existsAt_ok hthere
      split at h
      · rw [pure_ok] at h
        exact ⟨[], List.nil_prefix, by simp [← h], nofun⟩
      · next hno =>
        rw [Bool.not_eq_true, Option.isSome_eq_false_iff, Option.isNone_iff_eq_none] at hno
        obtain ⟨taken, hpre, rfl, hall⟩ := ih h
        refine ⟨p :: taken, List.cons_prefix_cons.2 ⟨rfl, hpre⟩, by simp, fun q hq => ?_⟩
        rcases List.mem_cons.1 hq with rfl | hq
        · exact ⟨hp.1, hp.2, hc, hno⟩
        · exact hall q hq

/-- The directories a plan makes: missing ancestors of its files, each once. -/
theorem planMkdirs_ok {s : Nodes} {dests r : List Path} (h : planMkdirs s dests = .ok r) :
    r.Nodup ∧ ∀ p ∈ r, p ≠ [] ∧ Fs.check p = .ok () ∧ s[p]? = none ∧ ∃ d ∈ dests, p <+: d := by
  refine foldlM_ok (P := fun r => r.Nodup ∧ ∀ p ∈ r, p ≠ [] ∧ Fs.check p = .ok () ∧
    s[p]? = none ∧ ∃ d ∈ dests, p <+: d) h ⟨List.nodup_nil, nofun⟩ ?_
  rintro d hd mkdirs r ⟨hnd, hall⟩ hr
  obtain ⟨taken, hpre, rfl, htaken⟩ := missingDirs_ok hr
  rw [List.append_nil]
  refine ⟨List.nodup_append.2 ⟨hnd, ?_, ?_⟩, fun p hp => ?_⟩
  · exact List.nodup_reverse.2 ((List.nodup_reverse.2 (nodup_inits _)).sublist hpre.sublist)
  · rintro p hp q hq rfl
    exact (htaken p (List.mem_reverse.1 hq)).2.1 hp
  · rcases List.mem_append.1 hp with hp | hp
    · exact hall p hp
    · have hp := List.mem_reverse.1 hp
      obtain ⟨h0, -, hc, hn⟩ := htaken p hp
      have hup : p <+: d.parent :=
        (List.mem_inits _ _).1 (List.mem_reverse.1 (hpre.subset hp))
      exact ⟨h0, hc, hn, d, hd, hup.trans (Path.parent_prefix d)⟩

/-! ## The plans -/

/-- The files of the version installed, which an upgrade moves aside. -/
def oldFiles (db : Db) (id : String) : List Path :=
  (db.packages[id]?.map fun o => o.files.map FileRec.path).getD []

/-- The copy of a package's manifest. -/
def metaPath (id : String) : Path := Db.META_DIR.join (id ++ ".meta")

/-- The libraries of the next database: those somebody uses, counted again. -/
def settled (id : String) (st : LibDraft) : Db :=
  (dropUnused st).ndb.mapLibraries (recount (dropUnused st).ndb id)

/-- How a plan came about. -/
structure Drawn (dec : Decoders) (opts : InstallOptions) (pkg : Bundle) (policy : Policy) (db : Db)
    (s : Nodes) (plan : Plan) (st : LibDraft) (rec : Package) : Prop where
  drafting : Drafting dec db pkg.manifest.id (oldFiles db pkg.manifest.id) st
  places : plan.places = st.draft.places ++ [(metaPath pkg.manifest.id, pkg.manifestBytes)]
  files : rec.files =
    st.draft.owned ++ [recordOf dec (metaPath pkg.manifest.id, pkg.manifestBytes)]
  next : plan.db = Db.advance { settled pkg.manifest.id st with
    packages := (settled pkg.manifest.id st).packages.insert pkg.manifest.id rec } policy.nonce
  check : plan.db.check = .ok ()
  conflicts : ∃ w w', checkConflicts opts pkg s db (settled pkg.manifest.id st)
    (dropUnused st).backups (plan.places.map Prod.fst) [] (dropUnused st).backups w =
      .ok (plan.backups, w')
  mkdirs : planMkdirs s (plan.places.map Prod.fst) = .ok plan.mkdirs
  cleanup : plan.cleanup = cleanupOf plan.backups

theorem checkDb_ok {ndb : Db} {u : Unit} (h : checkDb ndb = .ok u) : ndb.check = .ok () := by
  unfold checkDb at h
  split at h
  · next hc => exact hc
  · cases h

theorem release_packages (db : Db) (id : String) (j : String) :
    (match db.packages[id]? with
      | some o => release db id o
      | none => db).packages[j]?.map Package.files =
      if id = j then none else db.packages[j]?.map Package.files := by
  split
  · simp only [release, Db.lookup_erase]
    split <;> rfl
  · next hn =>
    split
    · next he => rw [← he, hn]; rfl
    · rfl

/-- Where an install's libraries start from: the old version released. -/
theorem released_drafting {d : Draft} (hv : db.Valid) (hd : Owning dec d) :
    Drafting dec db id (oldFiles db id)
      ⟨d, (match db.packages[id]? with
        | some o => release db id o
        | none => db), oldFiles db id, [], []⟩ := by
  refine Drafting.start hv hd ?_ ?_ (release_packages db id) (fun name => ?_) fun p hp => ?_
  · split <;> rfl
  · split <;> rfl
  · split
    · exact release_libraries db id _ name
    · rfl
  · unfold oldFiles at hp
    rcases ho : db.packages[id]? with _ | o
    · rw [ho] at hp
      cases hp
    · rw [ho] at hp
      exact ⟨id, o, ho, hp⟩

/-- An install's plan, taken apart. -/
theorem plan_drawn {s : Nodes} {p : Plan} (hv : db.Valid)
    (h : plan dec policy opts pkg db s = .ok p) :
    ∃ st rec, Drawn dec opts pkg policy db s p st rec := by
  simp only [plan, bind_ok, pure_ok] at h
  obtain ⟨warnings, -, op, -, ⟨d₁, commands, capabilities⟩, happ, d₂, hres, ⟨d₃, icon⟩, hicon,
    ⟨d₄, plugins⟩, hplug, st, huses, ⟨backups, ws⟩, hconf, mkdirs, hmk, u, hcheck, rfl⟩ := h
  have h₁ : Owning dec d₁ := planApp_owning happ .nil
  have h₂ : Owning dec d₂ := foldlM_ok hres h₁ fun f _ _ _ hd h => planResource_owning h hd
  have h₃ : Owning dec d₃ := planIcon_owning hicon h₂
  have h₄ : Owning dec d₄ :=
    foldlM_ok (P := fun st : Draft × List PluginRec => Owning dec st.1) hplug h₃
      fun f _ _ _ hd h => planPlugin_owning h hd
  have hst := foldlM_ok huses (released_drafting hv h₄) fun u _ _ _ hd h => planUse_drafting h hd
  exact ⟨st, _, hst, rfl, rfl, rfl, checkDb_ok hcheck, ⟨_, _, hconf⟩, hmk, rfl⟩

/-! ## Removals -/

/-- The state of planning the removal of package `id`, which owned the files `old`. -/
structure Removing (db : Db) (id : String) (old : List Path) (st : RemoveDraft) : Prop where
  arch : st.ndb.arch = db.arch
  generation : st.ndb.generation = db.generation
  packages : st.ndb.packages = db.packages.erase id
  library : ∀ (name : String) (l : Library), st.ndb.libraries[name]? = some l →
    l.path ∉ st.backups ∧ ∃ l₀, db.libraries[name]? = some l₀ ∧ fileOf l = fileOf l₀
  kept : ∀ (name : String) (l₀ : Library), db.libraries[name]? = some l₀ →
    st.ndb.libraries[name]?.isSome = true ∨ l₀.path ∈ st.backups
  aside : ∀ b ∈ old, b ∈ st.backups
  backups : ∀ b ∈ st.backups, b ∈ old ∨
    ∃ (name : String) (l₀ : Library), db.libraries[name]? = some l₀ ∧ l₀.path = b

/-- Releasing one library: it loses a user, or its file goes. -/
theorem releaseUse_removing {st : RemoveDraft} (hv : db.Valid) (h : Removing db id old st)
    (u : LibUse) : Removing db id old (releaseUse id st u) := by
  unfold releaseUse
  split
  · exact h
  · next l hl =>
    obtain ⟨hl', l₀, hl₀, hf⟩ := h.library _ l hl
    have hpath : l.path = Db.globalLibPath u.name :=
      (congrArg FileRec.path hf).trans (hv.library _ l₀ hl₀).path
    dsimp only
    split
    · refine ⟨h.arch, h.generation, h.packages, fun name m hm => ?_, fun name m₀ hm₀ => ?_,
        fun b hb => List.mem_append_left _ (h.aside b hb), fun b hb => ?_⟩
      · rw [Db.lookup_erase] at hm
        split at hm
        · cases hm
        · next hne =>
          obtain ⟨hb, m₀, hm₀, hfm⟩ := h.library name m hm
          refine ⟨fun hmem => ?_, m₀, hm₀, hfm⟩
          rcases List.mem_append.1 hmem with hmem | hmem
          · exact hb hmem
          · refine hne (globalLibPath_inj ?_)
            rw [← hpath, ← List.mem_singleton.1 hmem, ← (hv.library _ m₀ hm₀).path]
            exact (congrArg FileRec.path hfm)
      · rw [Db.lookup_erase]
        split
        · next he =>
          subst he
          rw [hl₀] at hm₀
          cases hm₀
          exact .inr (List.mem_append_right _ 
            (List.mem_singleton.2 (congrArg FileRec.path hf.symm)))
        · exact (h.kept name m₀ hm₀).imp_right (List.mem_append_left _)
      · rcases List.mem_append.1 hb with hb | hb
        · exact h.backups b hb
        · exact .inr ⟨_, l₀, hl₀, (congrArg FileRec.path hf.symm).trans (List.mem_singleton.1 hb).symm⟩
    · refine ⟨h.arch, h.generation, h.packages, fun name m hm => ?_, fun name m₀ hm₀ => ?_, h.aside,
        h.backups⟩
      · rw [Db.lookup_insert] at hm
        split at hm
        · next he =>
          cases hm
          subst he
          exact ⟨hl', l₀, hl₀, hf⟩
        · exact h.library name m hm
      · rw [Db.lookup_insert]
        split
        · exact .inl rfl
        · exact h.kept name m₀ hm₀

/-- A removal's plan, taken apart. -/
theorem planRemove_removing {p : Plan} (hv : db.Valid) (h : planRemove policy db id = .ok p) :
    ∃ st, Removing db id (oldFiles db id) st ∧ p.places = [] ∧ p.mkdirs = [] ∧
      p.backups = st.backups ∧ p.cleanup = cleanupOf st.backups ∧
      p.db = st.ndb.advance policy.nonce ∧ p.db.check = .ok () := by
  unfold planRemove at h
  split at h
  · cases h
  · next o ho =>
    simp only [bind_ok, pure_ok] at h
    obtain ⟨-, -, _, hcheck, rfl⟩ := h
    refine ⟨_, ?_, rfl, rfl, rfl, rfl, rfl, checkDb_ok hcheck⟩
    have hold : oldFiles db id = o.files.map FileRec.path := by rw [oldFiles, ho]; rfl
    suffices H : ∀ (us : List LibUse) (st : RemoveDraft), Removing db id (oldFiles db id) st →
        Removing db id (oldFiles db id) (us.foldl (releaseUse id) st) by
      refine H _ _ ⟨rfl, rfl, rfl, fun name l hl => ⟨fun hm => ?_, l, hl, rfl⟩,
        fun name l₀ hl₀ => .inl ?_, fun b hb => by rwa [hold] at hb, fun b hb => .inl (by rwa [hold])⟩
      · obtain ⟨f, hf, he⟩ := List.mem_map.1 hm
        exact hv.libraryApart name l id o hl ho f hf he
      · rw [show _ = db.libraries from rfl, hl₀]
        rfl
    intro us
    induction us with
    | nil => exact fun _ h => h
    | cons u us ih => exact fun st h => ih _ (releaseUse_removing hv h u)

end Planner

end NanoChrono.Ncpkg
