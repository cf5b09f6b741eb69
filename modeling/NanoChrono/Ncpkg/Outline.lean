import NanoChrono.Ncpkg.PlanFacts

/-! # What a plan promises

`Db.Records` is what a database says about the files on disk. `Outlined` relates a plan to the
database it was made from: which records are placed, carried over or dropped. Both installs and
removals are `Outlined`, and from it follows `Planned`, what a transaction relies on. -/

namespace NanoChrono.Ncpkg

open Check Planner

/-- The database records the file `f`, for a package or a library. -/
def Db.Records (db : Db) (f : FileRec) : Prop :=
  (∃ (id : String) (p : Package), db.packages[id]? = some p ∧ f ∈ p.files) ∨
  ∃ (name : String) (l : Library), db.libraries[name]? = some l ∧ fileOf l = f

/-- A plan made from `db` on the filesystem `s`. -/
structure Outlined (dec : Decoders) (policy : Policy) (db : Db) (s : Nodes) (plan : Plan) :
    Prop where
  arch : plan.db.arch = db.arch
  generation : plan.db.generation = db.generation + 1
  lastTx : plan.db.lastTx = (db.advance policy.nonce).lastTx
  check : plan.db.check = .ok ()
  written : plan.db.Written
  placed : ∀ x ∈ plan.places, x.1.isSystemPath = true ∧ plan.db.Records (recordOf dec x)
  once : (plan.places.map Prod.fst).Nodup
  /-- What is not moved aside is free. -/
  fresh : ∀ x ∈ plan.places, x.1 ∉ plan.backups → s[x.1]? = none
  aside : ∀ b ∈ plan.backups, b.isSystemPath = true ∧ inArea areas b = true
  /-- What is moved aside is an installed package's, a library's, or was found there. -/
  origin : ∀ b ∈ plan.backups, (∃ f, db.Records f ∧ f.path = b) ∨
    (∃ name, b = Db.globalLibPath name) ∨ s[b]?.isSome = true
  /-- What is recorded is placed, or was recorded and stays where it is. -/
  recorded : ∀ f, plan.db.Records f → (∃ x ∈ plan.places, recordOf dec x = f) ∨
    db.Records f ∧ f.path ∉ plan.places.map Prod.fst ∧ f.path ∉ plan.backups
  /-- What was recorded is recorded still, unless its file goes. -/
  kept : ∀ f, db.Records f →
    plan.db.Records f ∨ f.path ∈ plan.places.map Prod.fst ∨ f.path ∈ plan.backups
  mkdirs : planMkdirs s (plan.places.map Prod.fst) = .ok plan.mkdirs
  cleanup : plan.cleanup = cleanupOf plan.backups

/-- Nothing is recorded where nothing is installed. -/
theorem Db.not_records_empty (arch : String) (f : FileRec) : ¬ (Db.empty arch).Records f := by
  rintro (⟨_, _, h, -⟩ | ⟨_, _, h, -⟩)
  · simp [Db.empty] at h
  · simp [Db.empty] at h

/-- A library's file has an admitted path. -/
theorem globalLibPath_valid {name : String} (h : isName name = true) :
    (Db.globalLibPath name).isSystemPath = true := by
  have hc := isComponent_libFile h
  have hlen : (name ++ ".ncdyn").toList.length ≤ 128 := by
    simp only [isComponent, Bool.and_eq_true, decide_eq_true_eq] at hc
    exact hc.1.1.1.1.2
  rw [Path.isSystemPath_iff]
  refine ⟨by simp [Db.globalLibPath], ?_, ?_⟩
  · have h1 : Path.textLength ["usr", "lib"] = 8 := by decide
    have h2 : (Db.globalLibPath name).textLength = Path.textLength ["usr", "lib"] +
        Path.textLength [name ++ ".ncdyn"] :=
      Path.textLength_append ["usr", "lib"] [name ++ ".ncdyn"]
    have h3 : Path.textLength [name ++ ".ncdyn"] = (name ++ ".ncdyn").toList.length + 1 := by
      simp [Path.textLength]
    omega
  · have hsys : ∀ c ∈ ["usr", "lib"], isComponent c = true := by decide
    intro c hm
    rcases List.mem_append.1 (show c ∈ ["usr", "lib"] ++ [name ++ ".ncdyn"] from hm) with hm | hm
    · exact hsys c hm
    · rw [List.mem_singleton.1 hm]
      exact hc

/-- Recorded files lie in the areas. -/
theorem Db.Records.area {db : Db} {f : FileRec} (h : db.Records f) (hv : db.Valid)
    (hw : db.Written) : inArea areas f.path = true := by
  rcases h with ⟨id, p, hp, hf⟩ | ⟨name, l, hl, rfl⟩
  · exact inArea_of_package (hw.placed id p hp f hf)
  · rw [show (fileOf l).path = l.path from rfl, (hv.library name l hl).path]
    exact inArea_library name

/-- Recorded files have admitted paths. -/
theorem Db.Records.valid {db : Db} {f : FileRec} (h : db.Records f) (hv : db.Valid) :
    f.path.isSystemPath = true := by
  rcases h with ⟨id, p, hp, hf⟩ | ⟨name, l, hl, rfl⟩
  · exact ((hv.package id p hp).files f hf).1
  · have hok := hv.library name l hl
    rw [show (fileOf l).path = l.path from rfl, hok.path]
    exact globalLibPath_valid hok.named

namespace Planner

variable {dec : Decoders} {policy : Policy} {opts : InstallOptions} {pkg : Bundle} {db : Db}
  {s : Nodes} {plan : Plan} {st : LibDraft} {rec : Package}

theorem metaPath_area (id : String) : inArea packageAreas (metaPath id) = true :=
  inArea_iff.2 ⟨Db.META_DIR, by decide, [_], rfl⟩

namespace Drawn

variable (h : Drawn dec opts pkg policy db s plan st rec)

include h

/-- The packages of the next database. -/
theorem packages (j : String) : plan.db.packages[j]? =
    if pkg.manifest.id = j then some rec else st.ndb.packages[j]? := by
  rw [h.next]
  exact Db.lookup_insert

/-- The libraries of the next database. -/
theorem libraries (name : String) : plan.db.libraries[name]? =
    (st.ndb.libraries[name]?.filter fun l => !l.requiredBy.isEmpty).map
      (recount (dropUnused st).ndb pkg.manifest.id) := by
  rw [h.next, ← dropUnused_libraries]
  exact Std.ExtTreeMap.getElem?_map

/-- The package's record, and the other packages'. -/
theorem package_cases {j : String} {p : Package} (hp : plan.db.packages[j]? = some p) :
    (j = pkg.manifest.id ∧ p = rec) ∨ j ≠ pkg.manifest.id ∧
      ∃ p₀, db.packages[j]? = some p₀ ∧ p₀.files = p.files := by
  have hfiles := h.drafting.packages j
  rw [h.packages] at hp
  split at hp
  · next he => exact .inl ⟨he.symm, (Option.some.inj hp).symm⟩
  · next hne =>
    rw [hp, if_neg hne] at hfiles
    rcases h₀ : db.packages[j]? with _ | p₀
    · rw [h₀] at hfiles; cases hfiles
    · rw [h₀] at hfiles
      exact .inr ⟨Ne.symm hne, p₀, rfl, (Option.some.inj hfiles).symm⟩

/-- A library somebody uses is in the next database. -/
theorem library_of {name : String} {l : Library} (hl : st.ndb.libraries[name]? = some l)
    (hu : l.requiredBy ≠ []) : ∃ l', plan.db.libraries[name]? = some l' ∧ fileOf l' = fileOf l := by
  refine ⟨recount (dropUnused st).ndb pkg.manifest.id l, ?_, rfl⟩
  rw [h.libraries, hl, Option.filter_some, if_pos (by simpa using hu)]
  rfl

/-- Where a library of the next database comes from. -/
theorem library_inv {name : String} {l' : Library} (hl : plan.db.libraries[name]? = some l') :
    ∃ l, st.ndb.libraries[name]? = some l ∧ l.requiredBy ≠ [] ∧ fileOf l' = fileOf l := by
  rw [h.libraries] at hl
  obtain ⟨l, hf, rfl⟩ := Option.map_eq_some_iff.1 hl
  obtain ⟨hl, hu⟩ := Option.filter_eq_some_iff.1 hf
  exact ⟨l, hl, by simpa using hu, rfl⟩

theorem mem_places {x : Path × Bytes} : x ∈ plan.places ↔
    x ∈ st.draft.places ∨ x = (metaPath pkg.manifest.id, pkg.manifestBytes) := by
  rw [h.places, List.mem_append, List.mem_singleton]

theorem once : (plan.places.map Prod.fst).Nodup := by
  obtain ⟨_, _, hc⟩ := h.conflicts
  exact (checkConflicts_ok hc).1

/-- A shared file is a library's of the next database. -/
theorem shared_record {p : Path} (hp : Shared st.ndb pkg.manifest.id p) :
    ∃ (name : String) (l l' : Library), st.ndb.libraries[name]? = some l ∧
      pkg.manifest.id ∈ l.requiredBy ∧ plan.db.libraries[name]? = some l' ∧ fileOf l' = fileOf l ∧ l.path = p := by
  obtain ⟨name, l, rfl, hl, hid⟩ := hp
  obtain ⟨l', hl', hf⟩ := h.library_of hl (List.ne_nil_of_mem hid)
  exact ⟨name, l, l', hl, hid, hl', hf, (h.drafting.library name l hl).1⟩

/-- Each placed file is recorded. -/
theorem records {x : Path × Bytes} (hx : x ∈ plan.places) : plan.db.Records (recordOf dec x) := by
  have hrec : plan.db.packages[pkg.manifest.id]? = some rec := by rw [h.packages, if_pos rfl]
  rcases h.mem_places.1 hx with hd | rfl
  · rcases h.drafting.placed x hd with ho | hsh
    · exact .inl ⟨_, rec, hrec, by rw [h.files]; exact List.mem_append_left _ ho⟩
    · obtain ⟨name, l, l', hl, hid, hl', hf, hp⟩ := h.shared_record hsh
      refine .inr ⟨name, l', hl', hf.trans ?_⟩
      rcases (h.drafting.library name l hl).2 with ⟨-, data, hmem, hsize, hsha⟩ | ⟨-, hno, -⟩
      · have he : x = (l.path, data) :=
          List.inj_on_of_nodup_map h.once hx (h.mem_places.2 (.inl hmem)) hp.symm
        rw [he]
        simp only [fileOf, recordOf, hsize, hsha]
      · exact absurd (hp ▸ List.mem_map_of_mem hd) hno
  · exact .inl ⟨_, rec, hrec, by rw [h.files]; exact List.mem_append_right _ (by simp)⟩

/-- Placed files lie in the areas. -/
theorem place_area {x : Path × Bytes} (hx : x ∈ plan.places) : inArea areas x.1 = true := by
  rcases h.mem_places.1 hx with hd | rfl
  · rcases h.drafting.placed x hd with ho | ⟨name, l, hp, -⟩
    · exact inArea_of_package (h.drafting.owned _ ho).1
    · rw [hp]; exact inArea_library name
  · exact inArea_of_package (metaPath_area pkg.manifest.id)

/-- A file moved aside before conflicts are looked for: the old version's, or a library's that
counts the package, or one nobody uses. -/
theorem aside_cases (hv : db.Valid) {b : Path} (hb : b ∈ (dropUnused st).backups) :
    (∃ o, db.packages[pkg.manifest.id]? = some o ∧ b ∈ o.files.map FileRec.path) ∨
    ∃ (name : String) (l : Library), b = Db.globalLibPath name ∧ isName name = true ∧
      st.ndb.libraries[name]? = some l := by
  rcases mem_dropUnused_backups.1 hb with hb | ⟨name, l, hl, hu, rfl⟩
  · rcases h.drafting.backups b hb with hb | hb
    · unfold oldFiles at hb
      rcases ho : db.packages[pkg.manifest.id]? with _ | o
      · rw [ho] at hb; cases hb
      · rw [ho] at hb
        exact .inl ⟨o, rfl, hb⟩
    · obtain ⟨name, l, l', hl, -, hl', -, rfl⟩ := h.shared_record hb
      have hn := ((Db.check_valid h.check).library name l' hl').named
      exact .inr ⟨name, l, (h.drafting.library name l hl).1, hn, hl⟩
  · obtain ⟨hpath, ⟨hid, -⟩ | ⟨⟨l₀, hl₀, -⟩, -⟩⟩ := h.drafting.library name l hl
    · rw [List.isEmpty_iff.1 hu] at hid
      cases hid
    · exact .inr ⟨name, l, hpath, (hv.library name l₀ hl₀).named, hl⟩

/-- A file moved aside is one of those, or a placed one that is overwritten. -/
theorem backups_cases {b : Path} (hb : b ∈ plan.backups) :
    b ∈ (dropUnused st).backups ∨ b ∈ plan.places.map Prod.fst ∧ s[b]?.isSome = true := by
  obtain ⟨_, _, hc⟩ := h.conflicts
  exact (checkConflicts_ok hc).2.2.2.1 b hb

theorem aside_valid (hv : db.Valid) (hw : db.Written) {b : Path}
    (hb : b ∈ (dropUnused st).backups) : b.isSystemPath = true ∧ inArea areas b = true := by
  rcases h.aside_cases hv hb with ⟨o, ho, hm⟩ | ⟨name, l, rfl, hn, -⟩
  · obtain ⟨f, hf, rfl⟩ := List.mem_map.1 hm
    exact ⟨((hv.package _ o ho).files f hf).1, inArea_of_package (hw.placed _ o ho f hf)⟩
  · exact ⟨globalLibPath_valid hn, inArea_library name⟩

theorem place_valid (hv : db.Valid) (hw : db.Written) {x : Path × Bytes} (hx : x ∈ plan.places) :
    x.1.isSystemPath = true := by
  obtain ⟨_, _, hc⟩ := h.conflicts
  rcases (checkConflicts_ok hc).2.2.2.2 x.1 (List.mem_map_of_mem hx) with ha | ⟨-, hok, -⟩
  · exact (h.aside_valid hv hw ha).1
  · have hne : x.1 ≠ [] := by
      intro he
      have hall : ∀ a ∈ areas, ¬ a <+: [] := by decide
      obtain ⟨a, ha, hp⟩ := inArea_iff.1 (he ▸ h.place_area hx)
      exact hall a ha hp
    simpa [Fs.check, hne] using hok

theorem aside_all (hv : db.Valid) (hw : db.Written) {b : Path} (hb : b ∈ plan.backups) :
    b.isSystemPath = true ∧ inArea areas b = true := by
  rcases h.backups_cases hb with hb | ⟨hb, -⟩
  · exact h.aside_valid hv hw hb
  · obtain ⟨x, hx, rfl⟩ := List.mem_map.1 hb
    exact ⟨h.place_valid hv hw hx, h.place_area hx⟩

/-- Another package's file is neither placed nor moved aside. -/
theorem other_untouched (hv : db.Valid) (hw : db.Written) {j : String} {p p₀ : Package}
    (hj : j ≠ pkg.manifest.id) (hp : plan.db.packages[j]? = some p)
    (hp₀ : db.packages[j]? = some p₀) (hfiles : p₀.files = p.files) {f : FileRec}
    (hf : f ∈ p.files) : f.path ∉ plan.places.map Prod.fst ∧ f.path ∉ plan.backups := by
  have haside : f.path ∉ (dropUnused st).backups := by
    intro hb
    rcases h.aside_cases hv hb with ⟨o, ho, hm⟩ | ⟨name, l, he, -, -⟩
    · obtain ⟨g, hg, he⟩ := List.mem_map.1 hm
      exact hj (hv.apart j p₀ _ o hp₀ ho f (hfiles ▸ hf) g hg he.symm)
    · have := hw.placed j p₀ hp₀ f (hfiles ▸ hf)
      rw [he, not_packageArea_library] at this
      cases this
  have hplaces : f.path ∉ plan.places.map Prod.fst := by
    intro hd
    obtain ⟨_, _, hc⟩ := h.conflicts
    rcases (checkConflicts_ok hc).2.2.2.2 _ hd with ha | ⟨ho, -⟩
    · exact haside ha
    · rw [h.packages, if_neg hj.symm] at hp
      exact ownerOf_none ho j p hp f hf rfl
  exact ⟨hplaces, fun hb => (h.backups_cases hb).elim haside fun h => hplaces h.1⟩

/-- A library that is carried over keeps its file where it is. -/
theorem carried_untouched {name : String} {l : Library}
    (hl : st.ndb.libraries[name]? = some l) (hu : l.requiredBy ≠ []) (hc : Carried db st name l) :
    l.path ∉ plan.places.map Prod.fst ∧ l.path ∉ plan.backups := by
  have hpath := (h.drafting.library name l hl).1
  have hplaces : l.path ∉ plan.places.map Prod.fst := by
    intro hm
    obtain ⟨x, hx, he⟩ := List.mem_map.1 hm
    rcases h.mem_places.1 hx with hx | rfl
    · exact hc.2.1 (he ▸ List.mem_map_of_mem hx)
    · have := metaPath_area pkg.manifest.id
      rw [show metaPath pkg.manifest.id = l.path from he, hpath, not_packageArea_library] at this
      cases this
  refine ⟨hplaces, fun hb => (h.backups_cases hb).elim (fun hb => ?_) fun h => hplaces h.1⟩
  rcases mem_dropUnused_backups.1 hb with hb | ⟨name', l', hl', hu', he⟩
  · exact hc.2.2 hb
  · rw [(h.drafting.library name' l' hl').1, hpath] at he
    rw [globalLibPath_inj he, hl] at hl'
    cases hl'
    exact hu (List.isEmpty_iff.1 hu')

/-- What an install records was placed, or stays where it is. -/
theorem recorded (hv : db.Valid) (hw : db.Written) {f : FileRec} (hf : plan.db.Records f) :
    (∃ x ∈ plan.places, recordOf dec x = f) ∨
    db.Records f ∧ f.path ∉ plan.places.map Prod.fst ∧ f.path ∉ plan.backups := by
  rcases hf with ⟨j, p, hp, hf⟩ | ⟨name, l', hl', rfl⟩
  · rcases h.package_cases hp with ⟨-, rfl⟩ | ⟨hj, p₀, hp₀, hfiles⟩
    · rw [h.files] at hf
      rcases List.mem_append.1 hf with hf | hf
      · obtain ⟨-, x, hx, he⟩ := h.drafting.owned f hf
        exact .inl ⟨x, h.mem_places.2 (.inl hx), he⟩
      · exact .inl ⟨_, h.mem_places.2 (.inr rfl), (List.mem_singleton.1 hf).symm⟩
    · exact .inr ⟨.inl ⟨j, p₀, hp₀, hfiles ▸ hf⟩, h.other_untouched hv hw hj hp hp₀ hfiles hf⟩
  · obtain ⟨l, hl, hu, hfile⟩ := h.library_inv hl'
    rw [hfile]
    rcases (h.drafting.library name l hl).2 with ⟨-, data, hmem, hsize, hsha⟩ | hc
    · refine .inl ⟨_, h.mem_places.2 (.inl hmem), ?_⟩
      simp only [fileOf, recordOf, hsize, hsha]
    · obtain ⟨l₀, hl₀, hpath, hsize, hsha⟩ := hc.1
      refine .inr ⟨.inr ⟨name, l₀, hl₀, ?_⟩, h.carried_untouched hl hu hc⟩
      simp only [fileOf, hpath, hsize, hsha]

/-- What was recorded before an install is recorded still, or its file goes. -/
theorem kept (hv : db.Valid) {f : FileRec} (hf : db.Records f) :
    plan.db.Records f ∨ f.path ∈ plan.places.map Prod.fst ∨ f.path ∈ plan.backups := by
  obtain ⟨_, _, hconf⟩ := h.conflicts
  have hback : ∀ b ∈ (dropUnused st).backups, b ∈ plan.backups := (checkConflicts_ok hconf).2.2.1
  rcases hf with ⟨j, p₀, hp₀, hf⟩ | ⟨name, l₀, hl₀, rfl⟩
  · by_cases hj : pkg.manifest.id = j
    · subst hj
      refine .inr (.inr (hback _ (mem_dropUnused_backups.2 (.inl (h.drafting.aside _ ?_)))))
      rw [oldFiles, hp₀]
      exact List.mem_map_of_mem hf
    · have hfiles := h.drafting.packages j
      rw [if_neg hj, hp₀] at hfiles
      obtain ⟨p, hp, hpf⟩ := Option.map_eq_some_iff.1 hfiles
      exact .inl (.inl ⟨j, p, by rw [h.packages, if_neg hj, hp], hpf ▸ hf⟩)
  · obtain ⟨l, hl⟩ := Option.isSome_iff_exists.1 (h.drafting.kept name (by rw [hl₀]; rfl))
    obtain ⟨hpath, hlib⟩ := h.drafting.library name l hl
    have he : l.path = l₀.path := hpath.trans (hv.library name l₀ hl₀).path.symm
    by_cases hu : l.requiredBy = []
    · refine .inr (.inr (hback _ (mem_dropUnused_backups.2 (.inr ⟨name, l, hl, by simp [hu], he⟩))))
    rcases hlib with ⟨-, data, hmem, -⟩ | ⟨⟨l₁, hl₁, h1, h2, h3⟩, -⟩
    · refine .inr (.inl (List.mem_map.2 ⟨_, h.mem_places.2 (.inl hmem), he⟩))
    · rw [hl₀] at hl₁
      cases hl₁
      obtain ⟨l', hl', hf'⟩ := h.library_of hl hu
      refine .inl (.inr ⟨name, l', hl', hf'.trans ?_⟩)
      simp only [fileOf, h1, h2, h3]

/-- An install's plan keeps its promises. -/
theorem outlined (hv : db.Valid) (hw : db.Written) : Outlined dec policy db s plan where
  arch := by rw [h.next]; exact h.drafting.arch
  generation := by
    rw [h.next]
    exact congrArg (· + 1) h.drafting.generation
  lastTx := by
    rw [h.next]
    exact congrArg (fun g => txName (g + 1) policy.nonce) h.drafting.generation
  check := h.check
  written := by
    refine ⟨fun j p hp f hf => ?_, .inr ⟨policy.nonce, by rw [h.next]; rfl⟩⟩
    rcases h.package_cases hp with ⟨-, rfl⟩ | ⟨-, p₀, hp₀, hfiles⟩
    · rw [h.files] at hf
      rcases List.mem_append.1 hf with hf | hf
      · exact (h.drafting.owned f hf).1
      · rw [List.mem_singleton.1 hf]
        exact metaPath_area _
    · exact hw.placed j p₀ hp₀ f (hfiles ▸ hf)
  placed x hx := ⟨h.place_valid hv hw hx, h.records hx⟩
  once := h.once
  fresh x hx hb := by
    obtain ⟨_, _, hc⟩ := h.conflicts
    obtain ⟨-, -, hkeep, -, hfree⟩ := checkConflicts_ok hc
    rcases hfree x.1 (List.mem_map_of_mem hx) with ha | ⟨-, -, hn | hb'⟩
    · exact absurd (hkeep _ ha) hb
    · exact hn
    · exact absurd hb' hb
  aside b hb := h.aside_all hv hw hb
  origin b hb := by
    rcases h.backups_cases hb with hb | ⟨-, hb⟩
    · rcases h.aside_cases hv hb with ⟨o, ho, hm⟩ | ⟨name, _, he, -⟩
      · obtain ⟨f, hf, rfl⟩ := List.mem_map.1 hm
        exact .inl ⟨f, .inl ⟨_, o, ho, hf⟩, rfl⟩
      · exact .inr (.inl ⟨name, he⟩)
    · exact .inr (.inr hb)
  recorded f hf := h.recorded hv hw hf
  kept f hf := h.kept hv hf
  mkdirs := h.mkdirs
  cleanup := h.cleanup

end Drawn

/-- A removal's plan keeps its promises. -/
theorem planRemove_outlined {id : String} (hv : db.Valid) (hw : db.Written)
    (h : planRemove policy db id = .ok plan) : Outlined dec policy db s plan := by
  obtain ⟨st, hst, hplaces, hmkdirs, hback, hclean, hdb, hcheck⟩ := planRemove_removing hv h
  have hpackages : ∀ j : String, plan.db.packages[j]? = if id = j then none else db.packages[j]? := by
    intro j
    rw [hdb, show (st.ndb.advance policy.nonce).packages = st.ndb.packages from rfl, hst.packages,
      Db.lookup_erase]
  have hlibs : plan.db.libraries = st.ndb.libraries := by rw [hdb]; rfl
  have hold : ∀ b ∈ oldFiles db id, ∃ o, db.packages[id]? = some o ∧
      ∃ f ∈ o.files, f.path = b := by
    intro b hb
    unfold oldFiles at hb
    rcases ho : db.packages[id]? with _ | o
    · rw [ho] at hb; cases hb
    · rw [ho] at hb
      obtain ⟨f, hf, rfl⟩ := List.mem_map.1 hb
      exact ⟨o, rfl, f, hf, rfl⟩
  have hrec : ∀ b ∈ plan.backups, ∃ f, db.Records f ∧ f.path = b := by
    intro b hb
    rw [hback] at hb
    rcases hst.backups b hb with hb | ⟨name, l₀, hl₀, rfl⟩
    · obtain ⟨o, ho, f, hf, rfl⟩ := hold b hb
      exact ⟨f, .inl ⟨id, o, ho, hf⟩, rfl⟩
    · exact ⟨fileOf l₀, .inr ⟨name, l₀, hl₀, rfl⟩, rfl⟩
  refine
    { arch := by rw [hdb]; exact hst.arch
      generation := by rw [hdb]; exact congrArg (· + 1) hst.generation
      lastTx := by
        rw [hdb]
        exact congrArg (fun g => txName (g + 1) policy.nonce) hst.generation
      check := hcheck
      written := ⟨fun j p hp f hf => ?_, .inr ⟨policy.nonce, by rw [hdb]; rfl⟩⟩
      placed := by rw [hplaces]; nofun
      once := by rw [hplaces]; exact List.nodup_nil
      fresh := by rw [hplaces]; nofun
      aside := fun b hb => ?_
      origin := fun b hb => .inl (hrec b hb)
      recorded := fun f hf => .inr ?_
      kept := fun f hf => ?_
      mkdirs := by rw [hplaces, hmkdirs]; rfl
      cleanup := by rw [hclean, hback] }
  · rw [hpackages] at hp
    split at hp
    · cases hp
    · exact hw.placed j p hp f hf
  · obtain ⟨f, hf, rfl⟩ := hrec b hb
    exact ⟨hf.valid hv, hf.area hv hw⟩
  · rw [hplaces, hback]
    rcases hf with ⟨j, p, hp, hf⟩ | ⟨name, l, hl, rfl⟩
    · rw [hpackages] at hp
      split at hp
      · cases hp
      · next hne =>
        refine ⟨.inl ⟨j, p, hp, hf⟩, nofun, fun hb => ?_⟩
        rcases hst.backups _ hb with hb | ⟨name, l₀, hl₀, he⟩
        · obtain ⟨o, ho, g, hg, he⟩ := hold _ hb
          exact hne (hv.apart id o j p ho hp g hg f hf he)
        · exact hv.libraryApart name l₀ j p hl₀ hp f hf he.symm
    · rw [hlibs] at hl
      obtain ⟨hb, l₀, hl₀, hfile⟩ := hst.library name l hl
      exact ⟨.inr ⟨name, l₀, hl₀, hfile.symm⟩, nofun, hb⟩
  · rcases hf with ⟨j, p, hp, hf⟩ | ⟨name, l₀, hl₀, rfl⟩
    · by_cases hj : id = j
      · subst hj
        refine .inr (.inr (hback ▸ hst.aside _ ?_))
        rw [oldFiles, hp]
        exact List.mem_map_of_mem hf
      · exact .inl (.inl ⟨j, p, by rw [hpackages, if_neg hj, hp], hf⟩)
    · rcases hst.kept name l₀ hl₀ with h' | h'
      · obtain ⟨l, hl⟩ := Option.isSome_iff_exists.1 h'
        obtain ⟨-, l₁, hl₁, hfile⟩ := hst.library name l hl
        rw [hl₀] at hl₁
        cases hl₁
        exact .inl (.inr ⟨name, l, by rw [hlibs, hl], hfile⟩)
      · exact .inr (.inr (hback ▸ h'))

/-- An install's plan keeps its promises. -/
theorem plan_outlined (hv : db.Valid) (hw : db.Written)
    (h : Planner.plan dec policy opts pkg db s = .ok plan) : Outlined dec policy db s plan := by
  obtain ⟨st, rec, hd⟩ := plan_drawn hv h
  exact hd.outlined hv hw

end Planner

/-! ## The clean-up -/

theorem cleanupLe_iff {a b : Path} : cleanupLe a b = true ↔
    b.depth < a.depth ∨ b.depth = a.depth ∧ (compare a.text b.text).isLE = true := by
  unfold cleanupLe
  split
  · next h => simp [Nat.compare_eq_lt.1 h]
  · next h =>
    have := Nat.compare_eq_gt.1 h
    simp only [Bool.false_eq_true, false_iff, not_or, not_and]
    omega
  · next h =>
    have := Nat.compare_eq_eq.1 h
    simp [this]

instance : Std.Total (fun a b : Path => cleanupLe a b = true) where
  total a b := by
    rw [cleanupLe_iff, cleanupLe_iff]
    rcases Nat.lt_trichotomy a.depth b.depth with h | h | h
    · exact .inr (.inl h)
    · by_cases hle : (compare a.text b.text).isLE = true
      · exact .inl (.inr ⟨h.symm, hle⟩)
      · refine .inr (.inr ⟨h, Std.OrientedCmp.isGE_iff_isLE.1 ?_⟩)
        cases hc : compare a.text b.text
        · rw [hc] at hle; exact absurd rfl hle
        · rw [hc] at hle; exact absurd rfl hle
        · rfl
    · exact .inl (.inl h)

instance : IsTrans Path fun a b => cleanupLe a b = true where
  trans a b c hab hbc := by
    rw [cleanupLe_iff] at hab hbc ⊢
    rcases hab with hab | ⟨hab, hab'⟩
    · rcases hbc with hbc | ⟨hbc, -⟩
      · exact .inl (hbc.trans hab)
      · exact .inl (hbc ▸ hab)
    · rcases hbc with hbc | ⟨hbc, hbc'⟩
      · exact .inl (hab ▸ hbc)
      · exact .inr ⟨hbc.trans hab, Std.TransCmp.isLE_trans hab' hbc'⟩

theorem mem_cleanupOf {d : Path} {backups : List Path} (h : d ∈ cleanupOf backups) :
    d ∉ KEEP ∧ ∃ b ∈ backups, d <+: b.parent := by
  rw [cleanupOf, List.mem_insertionSort, List.mem_dedup] at h
  obtain ⟨b, hb, hd⟩ := List.mem_flatMap.1 h
  refine ⟨?_, b, hb, (List.mem_inits _ _).1
    (List.mem_reverse.1 ((List.takeWhile_prefix _).subset hd))⟩
  have hall := List.all_takeWhile (l := b.parent.inits.reverse) (p := fun p => !KEEP.contains p)
  simpa using List.all_eq_true.1 hall d hd

/-- Deepest first. -/
theorem cleanupOf_sorted (backups : List Path) :
    (cleanupOf backups).Pairwise fun a b => b.length ≤ a.length :=
  (List.pairwise_insertionSort _ _).imp fun h =>
    (cleanupLe_iff.1 h).elim Nat.le_of_lt fun h => h.1.le

namespace Outlined

variable {dec : Decoders} {policy : Policy} {db : Db} {s : Nodes} {plan : Plan}
  (h : Outlined dec policy db s plan)

include h

theorem place_area {x : Path × Bytes} (hx : x ∈ plan.places) : inArea areas x.1 = true :=
  (h.placed x hx).2.area (Db.check_valid h.check) h.written

/-- The directories a plan makes lie above its files, where nothing is. -/
theorem mkdir_facts {p : Path} (hp : p ∈ plan.mkdirs) : p ≠ [] ∧ Fs.check p = .ok () ∧
    s[p]? = none ∧ ∃ x ∈ plan.places, p <+: x.1 := by
  obtain ⟨hne, hc, hn, d, hd, hpre⟩ := (planMkdirs_ok h.mkdirs).2 p hp
  obtain ⟨x, hx, rfl⟩ := List.mem_map.1 hd
  exact ⟨hne, hc, hn, x, hx, hpre⟩

/-- A transaction may rely on a plan made from the database that is there. -/
theorem planned (hs : Ready s) (hd : Loads policy.arch.name s db) (hw : db.Written)
    (hsize : plan.backups.length + plan.mkdirs.length + plan.places.length < Manager.maxSteps) :
    Planned policy plan s where
  size := hsize
  places x hx := ⟨(h.placed x hx).1, managed_of_area (h.place_area hx),
    (clear_of_area (h.place_area hx) (List.prefix_refl _)).2⟩
  backups b hb := by
    obtain ⟨hv, ha⟩ := h.aside b hb
    exact ⟨hv, managed_of_area ha, (clear_of_area ha (List.prefix_refl _)).2⟩
  mkdirs p hp := by
    obtain ⟨hne, hc, hn, x, hx, hpre⟩ := h.mkdir_facts hp
    obtain ⟨hown, hdb⟩ := clear_of_area (h.place_area hx) hpre
    refine ⟨by simpa [Fs.check, hne] using hc, managed_iff.2 ⟨hown, fun hh => ?_⟩, hdb, hn⟩
    -- The homes are there.
    have hall : ∀ q ∈ homes, q <+: Db.DIR := by decide
    by_cases he : p = Db.DIR
    · rw [he, hs.home] at hn
      cases hn
    · rw [hs.tidy.sound.above (by rw [hs.home]; rfl) (hall p hh) he] at hn
      cases hn
  mkdirs_nodup := (planMkdirs_ok h.mkdirs).1
  fresh := h.fresh
  cleanup d hd := by
    rw [h.cleanup] at hd
    obtain ⟨hk, b, hb, hpre⟩ := mem_cleanupOf hd
    have hdb : d <+: b := hpre.trans (Path.parent_prefix b)
    have harea := (h.aside b hb).2
    obtain ⟨hown, hne⟩ := clear_of_area harea hdb
    refine ⟨managed_iff.2 ⟨hown, fun hh => hk ?_⟩, hk, hne, b, hb, hdb, ?_⟩
    · have hall : ∀ q ∈ homes, q ∈ KEEP := by decide
      exact hall d hh
    · rintro rfl
      have hlen := hpre.length_le
      have hne : d ≠ [] := by rintro rfl; exact hk (by decide)
      have := Path.parent_length_lt hne
      omega
  sorted := by
    rw [h.cleanup]
    exact cleanupOf_sorted _
  rooted hno d hd' := by
    -- Without a database nothing is recorded: what goes aside was found there.
    rw [h.cleanup] at hd'
    obtain ⟨hk, b, hb, hpre⟩ := mem_cleanupOf hd'
    cases hd with
    | there hd => rw [hno] at hd; cases hd
    | absent =>
      rcases h.origin b hb with ⟨f, hf, -⟩ | ⟨name, rfl⟩ | hsome
      · exact absurd hf (Db.not_records_empty _ f)
      · have hall : ∀ q ∈ List.inits ["usr", "lib"], q ∈ KEEP := by decide
        exact absurd (hall d ((List.mem_inits _ _).2 hpre)) hk
      · have hb0 : b ≠ [] := by
          rintro rfl
          rw [List.prefix_nil.1 hpre] at hk
          exact hk (by decide)
        refine hs.tidy.sound.above hsome (hpre.trans (Path.parent_prefix b)) ?_
        rintro rfl
        have := hpre.length_le
        have := Path.parent_length_lt hb0
        omega
  tx := by
    rw [h.lastTx]
    exact isComponent_txName _ _
  check := h.check
  arch := by
    rw [h.arch]
    cases hd with
    | absent => rfl
    | there _ _ ha => exact ha
  prior := ⟨db, hd, by rw [h.lastTx]; exact advance_lastTx_ne hw.numbered _⟩

end Outlined

end NanoChrono.Ncpkg
