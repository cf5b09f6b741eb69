import NanoChrono.Ncpkg.Atomic

/-! # What is installed is what is recorded

From a system with nothing installed, whatever operations succeed on it, the directories packages
install into hold the files the database records and no others. `Outlined.holds` is the step: what
a plan moves aside, places and leaves alone, against what it records, drops and carries over.
`operated_exact` is the run. -/

namespace NanoChrono.Ncpkg

open Crash Planner

/-- The directories packages install into hold the files the database records, in the size and with
the digest it records, and no others. -/
structure Holds (dec : Decoders) (db : Db) (s : Nodes) : Prop where
  recorded : ∀ f, db.Records f →
    ∃ data, s[f.path]? = some (.file (.data data)) ∧ data.length = f.size ∧
      hex (dec.digest data) = f.sha512
  files : ∀ (p : Path) (c : Content), inArea areas p = true → s[p]? = some (.file c) →
    ∃ f, db.Records f ∧ f.path = p

section Moved

variable {plan : Plan} {s : Nodes} {q : Path}

/-- Moving files aside leaves the other paths alone. -/
theorem lookup_backups (l : List Path) (s : Nodes) (q : Path) :
    (l.foldl (·.erase ·) s)[q]? = if q ∈ l then none else s[q]? := by
  induction l generalizing s with
  | nil => simp
  | cons p l ih =>
    rw [List.foldl_cons, ih, Nodes.lookup_erase]
    by_cases hp : p = q
    · simp [hp]
    · simp [hp, Ne.symm hp]

theorem not_placed (hq : q ∉ plan.places.map Prod.fst) : ∀ x ∈ plan.places, x.1 ≠ q := by
  rintro x hx rfl
  exact hq (List.mem_map_of_mem hx)

/-- A placed file is there. -/
theorem moved_place (honce : (plan.places.map Prod.fst).Nodup) {x : Path × Bytes}
    (hx : x ∈ plan.places) : (plan.moved s)[x.1]? = some (.file (.data x.2)) := by
  rw [Plan.moved, Nodes.lookup_insertAll (List.pairwise_map.1 honce) hx]

/-- A file a plan does not place was there, and was not moved aside. -/
theorem moved_file {c : Content} (hq : q ∉ plan.places.map Prod.fst)
    (h : (plan.moved s)[q]? = some (.file c)) : s[q]? = some (.file c) ∧ q ∉ plan.backups := by
  rw [Plan.moved, Nodes.lookup_insertAll_of_ne (not_placed hq)] at h
  have hcases : (((plan.backups.foldl (·.erase ·) s).insertAll (fun p => p) (fun _ => .dir)
        plan.mkdirs)[q]? = (plan.backups.foldl (·.erase ·) s)[q]?) ∨ _ :=
    Nodes.lookup_insertAll_cases q
  rcases hcases with he | ⟨_, _, _, he⟩
  · rw [he, lookup_backups] at h
    split at h
    · cases h
    · next hb => exact ⟨h, hb⟩
  · rw [he] at h
    cases h

/-- A file that is neither placed nor moved aside stays. -/
theorem moved_of_file {c : Content} (hq : q ∉ plan.places.map Prod.fst) (hb : q ∉ plan.backups)
    (hmk : ∀ p ∈ plan.mkdirs, s[p]? = none) (h : s[q]? = some (.file c)) :
    (plan.moved s)[q]? = some (.file c) := by
  have hm : ∀ p ∈ plan.mkdirs, p ≠ q := by
    rintro p hp rfl
    rw [hmk p hp] at h
    cases h
  rw [Plan.moved, Nodes.lookup_insertAll_of_ne (not_placed hq),
    Nodes.lookup_insertAll_of_ne hm, lookup_backups, if_neg hb, h]

/-- The files of a directory packages install into, once a plan is carried out. -/
theorem installed_file {c : Content} (hq : inArea areas q = true) :
    (plan.installed s)[q]? = some (.file c) ↔ (plan.moved s)[q]? = some (.file c) := by
  have hne : Db.PATH ≠ q := ((clear_of_area hq (List.prefix_refl _)).2).symm
  have hins : ((plan.moved s).insert Db.PATH (.file (.db plan.db)))[q]? = (plan.moved s)[q]? := by
    rw [Nodes.lookup_insert, if_neg hne]
  constructor
  · intro h
    rcases Nodes.lookup_sweep_cases plan.cleanup ((plan.moved s).insert Db.PATH (.file (.db plan.db))) q
      with he | ⟨-, hn⟩
    · rw [← hins, ← he]
      exact h
    · rw [Plan.installed, hn] at h
      cases h
  · intro h
    exact Nodes.lookup_sweep_file (hins.trans h)

end Moved

/-- The managed tree is all that counts. -/
theorem Holds.of_same {dec : Decoders} {db : Db} {s t : Nodes} (h : Holds dec db s) (hv : db.Valid)
    (hw : db.Written) (hst : SameManaged t s) : Holds dec db t where
  recorded f hf := by
    rw [hst _ (managed_of_area (hf.area hv hw))]
    exact h.recorded f hf
  files p c hp hc := h.files p c hp ((hst p (managed_of_area hp)).symm.trans hc)

/-- Carrying out a plan leaves on disk what it records. -/
theorem Outlined.holds {dec : Decoders} {policy : Policy} {db : Db} {s : Nodes} {plan : Plan}
    (h : Outlined dec policy db s plan) (hs : Holds dec db s) :
    Holds dec plan.db (plan.installed s) := by
  have hv := Db.check_valid h.check
  have hmk : ∀ p ∈ plan.mkdirs, s[p]? = none := fun p hp => (h.mkdir_facts hp).2.2.1
  constructor
  · intro f hf
    have harea := hf.area hv h.written
    rcases h.recorded f hf with ⟨x, hx, rfl⟩ | ⟨hold, hplace, haside⟩
    · exact ⟨x.2, (installed_file harea).2 (moved_place h.once hx), rfl, rfl⟩
    · obtain ⟨data, hdata, he⟩ := hs.recorded f hold
      exact ⟨data, (installed_file harea).2 (moved_of_file hplace haside hmk hdata), he⟩
  · intro p c hp hc
    rw [installed_file hp] at hc
    by_cases hplace : p ∈ plan.places.map Prod.fst
    · obtain ⟨x, hx, rfl⟩ := List.mem_map.1 hplace
      exact ⟨_, (h.placed x hx).2, rfl⟩
    · obtain ⟨hc, haside⟩ := moved_file hplace hc
      obtain ⟨f, hf, rfl⟩ := hs.files p c hp hc
      rcases h.kept f hf with hk | hk | hk
      · exact ⟨f, hk, rfl⟩
      · exact absurd hk hplace
      · exact absurd hk haside

/-! ## Runs of operations -/

/-- A system with nothing installed: no database, and no file where packages install theirs. -/
structure Blank (policy : Policy) (s : Nodes) : Prop extends AtRest policy s where
  database : s[Db.PATH]? = none
  bare : ∀ (p : Path) (c : Content), inArea areas p = true → s[p]? ≠ some (.file c)

/-- The filesystems that successful operations lead to from a system with nothing installed. The
policies, the requests and the answers to their confirmations may be any, and the operations may be
forced: there is nothing for them to overwrite. -/
inductive Operated (dec : Decoders) (arch : Arch) : Nodes → Prop
  | start {policy : Policy} {s : Nodes} : policy.arch = arch → Blank policy s → Operated dec arch s
  | step {policy : Policy} {s : Nodes} {d : Done} (confirm : Plan → Bool) (r : Request) :
      Operated dec arch s → policy.arch = arch →
      Prog.resultOf (Manager.run dec policy confirm r) s = .ok d →
      Operated dec arch (Prog.storeAfter (Manager.run dec policy confirm r) s)

/-- A filesystem at rest that holds what its database `db` records. -/
structure Kept (dec : Decoders) (arch : Arch) (db : Db) (s : Nodes) : Prop where
  tidy : Tidy s
  journal : s[Journal.PATH]? = none
  loads : Loads arch.name s db
  written : db.Written
  holds : Holds dec db s

theorem Loads.unique {arch : String} {s : Nodes} {d d' : Db} (h : Loads arch s d)
    (h' : Loads arch s d') : d = d' := by
  cases h with
  | absent hn =>
    cases h' with
    | absent => rfl
    | there hd => rw [hn] at hd; cases hd
  | there hd =>
    cases h' with
    | absent hn => rw [hn] at hd; cases hd
    | there hd' =>
      rw [hd] at hd'
      cases hd'
      rfl

namespace Kept

variable {dec : Decoders} {arch : Arch} {policy : Policy} {db : Db} {s t : Nodes}

theorem atRest (h : Kept dec arch db s) (ha : policy.arch = arch) : AtRest policy s := by
  subst ha
  refine ⟨h.tidy, h.journal, fun d hd => ?_⟩
  rw [hd.unique h.loads]
  exact h.written

theorem valid (h : Kept dec arch db s) : db.Valid := h.loads.valid

/-- A filesystem with the same managed tree and nothing pending. -/
theorem of_quiet (h : Kept dec arch db s) (hq : Quiet s t) : Kept dec arch db t :=
  ⟨hq.tidy, hq.journal, h.loads.congr (hq.same _ (by decide)), h.written,
    h.holds.of_same h.valid h.written hq.same⟩

theorem blank (h : Blank policy s) : Kept dec policy.arch (Db.empty policy.arch.name) s := by
  have hl : Loads policy.arch.name s (Db.empty policy.arch.name) := .absent h.database
  refine ⟨h.tidy, h.journal, hl, h.written _ hl, ⟨fun f hf => ?_, fun p c hp hc => ?_⟩⟩
  · exact absurd hf (Db.not_records_empty _ f)
  · exact absurd hc (h.bare p c hp)

/-- A plan carried out on what it was made from. -/
theorem installed {plan : Plan} (h : Kept dec arch db s)
    (hout : Outlined dec policy db s plan) (hq : Quiet (plan.installed s) t) :
    Kept dec arch plan.db t := by
  have hdb : t[Db.PATH]? = some (.file (.db plan.db)) := by
    rw [hq.same _ (by decide), installed_database]
  have harch : plan.db.arch = arch.name := by
    rw [hout.arch]
    cases h.loads with
    | absent => rfl
    | there _ _ ha => exact ha
  exact ⟨hq.tidy, hq.journal, .there hdb hout.check harch, hout.written,
    (hout.holds h.holds).of_same (Db.check_valid hout.check) hout.written hq.same⟩

/-- A successful operation: nothing happened, or a plan was carried out. -/
theorem run {confirm : Plan → Bool} {r : Request} {d : Done} (h : Kept dec arch db s)
    (ha : policy.arch = arch) (hrun : Prog.resultOf (Manager.run dec policy confirm r) s = .ok d) :
    Kept dec arch db (Prog.storeAfter (Manager.run dec policy confirm r) s) ∨
    ∃ s₁ plan, Kept dec arch db s₁ ∧ Manager.proposal dec policy r s₁ = .ok plan ∧
      Outlined dec policy db s₁ plan ∧
      Kept dec arch plan.db (Prog.storeAfter (Manager.run dec policy confirm r) s) := by
  have hrest := h.atRest ha
  rcases Manager.run_cases dec confirm r hrest (f := .off) (by simp) with
    hun | ⟨hl, s₁, f₁, plan, hleft, hopen, hplan, hc, he, -⟩
  · exact .inl (h.of_quiet hun.1)
  obtain rfl := hleft.eq_off
  have h₁ : Kept dec arch db s₁ :=
    h.of_quiet ⟨hopen.1.tidy, hopen.1.same, hopen.1.journal⟩
  have hwritten := (h₁.atRest ha).written
  obtain ⟨db', hl', hout⟩ := Manager.proposal_outlined hwritten hplan
  obtain rfl := hl'.unique (ha ▸ h₁.loads)
  refine .inr ⟨s₁, plan, h₁, hplan, hout, ?_⟩
  have hresult : ((Manager.execute policy plan).run ⟨s₁, .off⟩).1 = .ok d := by
    rw [← Manager.releasing_result, ← he]
    exact hrun
  have hp : Planned policy plan s₁ := by
    refine Manager.proposal_planned hopen.ready hwritten hplan (Nat.lt_of_not_le fun hsize => ?_)
    rw [Manager.execute, if_pos hsize] at hresult
    cases hresult
  obtain ⟨C, hC⟩ : ∃ C, Committed plan s₁ C := by
    rcases (Manager.execute_commits hp hopen.ready).run_calm rfl with
      ⟨_, _, _, hC⟩ | ⟨e, _, hx, -⟩
    · exact hC
    · rw [hx] at hresult
      cases hresult
  exact h₁.installed hout (Manager.run_calm_quiet hrest hl hopen hplan hc hp hC)

end Kept

/-- Whatever operations succeeded, what is on disk is what the database records. -/
theorem Operated.kept {dec : Decoders} {arch : Arch} {s : Nodes} (h : Operated dec arch s) :
    ∃ db, Kept dec arch db s := by
  induction h with
  | start ha hb =>
    subst ha
    exact ⟨_, .blank hb⟩
  | step confirm r _ ha hrun ih =>
    obtain ⟨db, hk⟩ := ih
    rcases hk.run ha hrun with hk | ⟨_, plan, _, _, _, hk⟩
    · exact ⟨db, hk⟩
    · exact ⟨plan.db, hk⟩

/-! ## What the user sees -/

/-- The package `id` uses the shared copy of the library `name`. -/
def Db.Uses (db : Db) (id name : String) : Prop :=
  ∃ p, db.packages[id]? = some p ∧ ∃ u ∈ p.libraries, u.name = name ∧ u.resolved = .global

/-- The filesystem and its database `db` agree. -/
structure Exact (dec : Decoders) (arch : Arch) (db : Db) (s : Nodes) : Prop where
  loads : Db.loadFrom arch.name s = .ok db
  check : db.check = .ok ()
  /-- The files where packages install theirs are those recorded. -/
  files : ∀ p : Path, inArea areas p = true →
    ((∃ c, s[p]? = some (.file c)) ↔ ∃ f, db.Records f ∧ f.path = p)
  /-- Each has its recorded size and digest. -/
  contents : ∀ f, db.Records f → ∃ data, s[f.path]? = some (.file (.data data)) ∧
    data.length = f.size ∧ hex (dec.digest data) = f.sha512
  sound : ∀ policy : Policy, policy.arch = arch →
    Prog.resultOf (Manager.check dec policy) s = .ok []
  /-- A library counts the packages that use it, each once. -/
  users : ∀ (name : String) (l : Library), db.libraries[name]? = some l →
    l.refCount = l.requiredBy.length ∧ Db.strictlySorted l.requiredBy = true ∧
      ∀ id, id ∈ l.requiredBy ↔ db.Uses id name
  /-- A library's file is there as long as some package uses it. -/
  shared : ∀ name : String,
    (∃ c, s[Db.globalLibPath name]? = some (.file c)) ↔ ∃ id, db.Uses id name

namespace Kept

variable {dec : Decoders} {arch : Arch} {db : Db} {s : Nodes}

theorem loadFrom (h : Kept dec arch db s) : Db.loadFrom arch.name s = .ok db := by
  cases h.loads with
  | absent hn => rw [Db.loadFrom, hn]
  | there hd hc ha => simp only [Db.loadFrom, hd, Db.parse, hc, Fs.ok_bind, pure, Except.pure, ha, if_true]

theorem check (h : Kept dec arch db s) : db.check = .ok () := by
  cases h.loads with
  | absent => cases arch <;> rfl
  | there _ hc _ => exact hc

/-- A recorded file passes its check. -/
theorem checkFile (h : Kept dec arch db s) {f : FileRec} (hf : db.Records f) :
    Manager.checkFile dec s f.path f.size f.sha512 = [] := by
  obtain ⟨data, hdata, hsize, hsha⟩ := h.holds.recorded f hf
  have hv : Fs.check f.path = .ok () := Fs.check_eq_ok (hf.valid h.valid)
  simp only [Manager.checkFile, hv, hdata, hsize, hsha, ne_eq, not_true, or_self, if_false]

theorem users (h : Kept dec arch db s) {name : String} {l : Library}
    (hl : db.libraries[name]? = some l) (id : String) : id ∈ l.requiredBy ↔ db.Uses id name := by
  constructor
  · exact (h.valid.library name l hl).users id
  · rintro ⟨p, hp, u, hu, rfl, hg⟩
    obtain ⟨l', hl', hid, -⟩ := (h.valid.package id p hp).globals u hu hg
    rw [hl] at hl'
    cases hl'
    exact hid

/-- A library that is used is recorded, and one that is recorded is used. -/
theorem library (h : Kept dec arch db s) (name : String) :
    (∃ l, db.libraries[name]? = some l) ↔ ∃ id, db.Uses id name := by
  constructor
  · rintro ⟨l, hl⟩
    obtain ⟨id, hid⟩ := List.exists_mem_of_ne_nil _ (h.valid.library name l hl).used
    exact ⟨id, (h.users hl id).1 hid⟩
  · rintro ⟨id, p, hp, u, hu, rfl, hg⟩
    obtain ⟨l, hl, -⟩ := (h.valid.package id p hp).globals u hu hg
    exact ⟨l, hl⟩

/-- A library's file is recorded for that library. -/
theorem shared_file (h : Kept dec arch db s) {name : String} {f : FileRec} (hf : db.Records f)
    (hp : f.path = Db.globalLibPath name) : ∃ l, db.libraries[name]? = some l := by
  rcases hf with ⟨id, p, hp', hf⟩ | ⟨name', l, hl, rfl⟩
  · have harea := h.written.placed id p hp' f hf
    rw [hp, not_packageArea_library] at harea
    cases harea
  · have hpath : Db.globalLibPath name' = Db.globalLibPath name := by
      rw [← (h.valid.library name' l hl).path]
      exact hp
    exact ⟨l, globalLibPath_inj hpath ▸ hl⟩

theorem files (h : Kept dec arch db s) {p : Path} (hp : inArea areas p = true) :
    (∃ c, s[p]? = some (.file c)) ↔ ∃ f, db.Records f ∧ f.path = p := by
  constructor
  · rintro ⟨c, hc⟩
    exact h.holds.files p c hp hc
  · rintro ⟨f, hf, rfl⟩
    obtain ⟨data, hdata, -⟩ := h.holds.recorded f hf
    exact ⟨_, hdata⟩

theorem exact (h : Kept dec arch db s) : Exact dec arch db s where
  loads := h.loadFrom
  check := h.check
  files p hp := h.files hp
  contents := h.holds.recorded
  sound policy ha := by
    have hload : (Db.load policy.arch.name).run ⟨s, .off⟩ = (.ok db, ⟨s, .off⟩) := by
      rw [Db.load_run, ha, h.loadFrom]
    have hjournal : s.contains Journal.PATH = false := by
      rw [Nodes.contains_eq, h.journal]
      rfl
    rw [Prog.resultOf, Manager.check, Prog.run_bind, hload]
    simp only [Prog.run_query, hjournal, if_false, List.append_nil, Except.ok.injEq,
      List.append_eq_nil_iff, List.flatMap_eq_nil_iff, Bool.false_eq_true]
    constructor
    · intro x hx f hf
      exact h.checkFile
        (.inl ⟨x.1, x.2, Std.ExtTreeMap.mem_toList_iff_getElem?_eq_some.1 hx, hf⟩)
    · intro x hx
      exact h.checkFile (f := fileOf x.2)
        (.inr ⟨x.1, x.2, Std.ExtTreeMap.mem_toList_iff_getElem?_eq_some.1 hx, rfl⟩)
  users name l hl :=
    ⟨(h.valid.library name l hl).count, (h.valid.library name l hl).sorted, h.users hl⟩
  shared name := by
    rw [h.files (inArea_library name), ← h.library name]
    constructor
    · rintro ⟨f, hf, hp⟩
      exact h.shared_file hf hp
    · rintro ⟨l, hl⟩
      exact ⟨fileOf l, .inr ⟨name, l, hl, rfl⟩, (h.valid.library name l hl).path⟩

end Kept

theorem Blank.new (policy : Policy) : Blank policy Nodes.new := by
  have hlook : ∀ p : Path, p ≠ [] → Nodes.new[p]? = none := by
    intro p hp
    rw [Nodes.new, Nodes.lookup_insert, if_neg hp.symm]
    exact Std.ExtTreeMap.getElem?_empty
  refine ⟨.new policy, hlook _ (by decide), fun p c hp hc => ?_⟩
  by_cases he : p = []
  · rw [he] at hp
    exact absurd hp (by decide)
  · rw [hlook p he] at hc
    cases hc

end NanoChrono.Ncpkg
