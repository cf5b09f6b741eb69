import Mathlib.Data.List.Induction
import Mathlib.Data.List.Nodup
import NanoChrono.Hid.Report

/-! # Which report is the pointer

What a descriptor declares is said without candidates: the inputs that its items make, in order. The parser then
keeps, for each report ID in the order of their first inputs, what that report's own inputs make of an empty
candidate, and a pointer is the first report whose inputs list X and Y and are in no digitizer. -/

namespace NanoChrono.Hid

/-! ## What is declared -/

/-- The inputs of what is left of a descriptor, up to where the parser stops, and whether that is at its end. -/
def declaredFrom (r : Reader) : Bytes → List Input × Bool
  | [] => ([], true)
  | p :: rest =>
    match _h : next p rest with
    | .truncated => ([], false)
    | .long rest' => declaredFrom r rest'
    | .short i rest' =>
      let later := (r.after i).elim ([], false) fun r => declaredFrom r rest'
      (if i.isInput then r.inputOf i :: later.1 else later.1, later.2)
termination_by bytes => bytes.length
decreasing_by
  · exact next_long _h
  · exact next_short _h

/-- The inputs that a descriptor declares. -/
def declared (descriptor : Bytes) : List Input := (declaredFrom .new descriptor).1

/-- The parser comes to the end of the descriptor: every item is whole, and none pushes or pops. -/
def Readable (descriptor : Bytes) : Prop := (declaredFrom .new descriptor).2 = true

instance (descriptor : Bytes) : Decidable (Readable descriptor) :=
  inferInstanceAs (Decidable ((declaredFrom .new descriptor).2 = true))

section Items

variable {r : Reader} {p : UInt8} {rest rest' : Bytes}

theorem declaredFrom_truncated (h : next p rest = .truncated) : declaredFrom r (p :: rest) = ([], false) := by
  rw [declaredFrom]
  split
  case h_1 => rfl
  case h_2 hnext => cases hnext.symm.trans h
  case h_3 hnext => cases hnext.symm.trans h

theorem declaredFrom_long (h : next p rest = .long rest') : declaredFrom r (p :: rest) = declaredFrom r rest' := by
  rw [declaredFrom]
  split
  case h_1 hnext => cases hnext.symm.trans h
  case h_2 hnext =>
    cases hnext.symm.trans h
    rfl
  case h_3 hnext => cases hnext.symm.trans h

theorem declaredFrom_short {i : Item} (h : next p rest = .short i rest') :
    declaredFrom r (p :: rest) =
      (if i.isInput then
        r.inputOf i :: ((r.after i).elim ([], false) fun r => declaredFrom r rest').1
      else ((r.after i).elim ([], false) fun r => declaredFrom r rest').1,
      ((r.after i).elim ([], false) fun r => declaredFrom r rest').2) := by
  rw [declaredFrom]
  split
  case h_1 hnext => cases hnext.symm.trans h
  case h_2 hnext => cases hnext.symm.trans h
  case h_3 hnext =>
    cases hnext.symm.trans h
    rfl

end Items

theorem foldlM_later (input : Bool) (i : Input) (later : List Input) (candidates : List Candidate) :
    (if input = true then i :: later else later).foldlM addInput candidates =
      (if _h : input = true then addInput candidates i else some candidates).bind (later.foldlM addInput ·) := by
  cases input <;> rfl

/-- The parser adds up the inputs, where it comes to the end. -/
theorem parseFrom_eq (r : Reader) (candidates : List Candidate) (bytes : Bytes) :
    parseFrom r candidates bytes =
      if (declaredFrom r bytes).2 then (declaredFrom r bytes).1.foldlM addInput candidates else none := by
  fun_induction parseFrom r candidates bytes with
  | case1 r candidates => rw [declaredFrom]; rfl
  | case2 r candidates p rest hnext => rw [declaredFrom_truncated hnext]; rfl
  | case3 r candidates p rest rest' hnext ih => rw [declaredFrom_long hnext, ih]
  | case4 r candidates p rest i rest' hnext hadd =>
    rw [declaredFrom_short hnext]
    dsimp only
    rw [foldlM_later, hadd, Option.bind_none, ite_self]
  | case5 r candidates p rest i rest' hnext candidates' hadd hafter =>
    rw [declaredFrom_short hnext, hafter]
    rfl
  | case6 r candidates p rest i rest' hnext candidates' hadd r' hafter ih =>
    rw [declaredFrom_short hnext, hafter]
    dsimp only [Option.elim]
    rw [foldlM_later, hadd, ih]
    rfl

/-! ## Reports -/

/-- The report IDs of inputs, in the order in which they first come. -/
def ids (inputs : List Input) : List (Option UInt8) :=
  inputs.foldl (fun ids i => if i.globals.reportId ∈ ids then ids else ids ++ [i.globals.reportId]) []

/-- What a report's own inputs make of an empty candidate. -/
def reportOf (inputs : List Input) (id : Option UInt8) : Candidate :=
  (inputs.filter (·.globals.reportId = id)).foldl Candidate.input (.new id)

theorem ids_snoc (inputs : List Input) (i : Input) :
    ids (inputs ++ [i]) = if i.globals.reportId ∈ ids inputs then ids inputs else ids inputs ++ [i.globals.reportId] := by
  rw [ids, List.foldl_append]
  rfl

theorem mem_ids {inputs : List Input} {id : Option UInt8} : id ∈ ids inputs ↔ ∃ i ∈ inputs, i.globals.reportId = id := by
  induction inputs using List.reverseRecOn with
  | nil => simp [ids]
  | append_singleton inputs i ih =>
    have hsnoc : (∃ j ∈ inputs ++ [i], j.globals.reportId = id) ↔
        (∃ j ∈ inputs, j.globals.reportId = id) ∨ i.globals.reportId = id := by
      simp only [List.mem_append, List.mem_singleton, or_and_right, exists_or, exists_eq_left]
    rw [hsnoc, ← ih, ids_snoc]
    split
    case isTrue hold => exact (or_iff_left_of_imp fun hid => hid ▸ hold).symm
    case isFalse => rw [List.mem_append, List.mem_singleton, eq_comm (a := id)]

theorem nodup_ids (inputs : List Input) : (ids inputs).Nodup := by
  induction inputs using List.reverseRecOn with
  | nil => exact List.nodup_nil
  | append_singleton inputs i ih =>
    rw [ids_snoc]
    split
    · exact ih
    case isFalse hnew =>
      exact List.nodup_append.2 ⟨ih, List.nodup_singleton _, fun a ha b hb hab => hnew (List.mem_singleton.1 hb ▸ hab ▸ ha)⟩

theorem reportOf_snoc (inputs : List Input) (i : Input) (id : Option UInt8) :
    reportOf (inputs ++ [i]) id =
      if i.globals.reportId = id then (reportOf inputs id).input i else reportOf inputs id := by
  rw [reportOf, List.filter_append, List.foldl_append, ← reportOf]
  split
  case isTrue hid => rw [List.filter_cons_of_pos (by simpa using hid)]; rfl
  case isFalse hid => rw [List.filter_cons_of_neg (by simpa using hid)]; rfl

/-- The candidate of a report that has none yet is the empty one. -/
theorem reportOf_new {inputs : List Input} {id : Option UInt8} (hnew : id ∉ ids inputs) :
    reportOf inputs id = .new id := by
  have hnone : inputs.filter (·.globals.reportId = id) = [] := by
    refine List.filter_eq_nil_iff.2 fun i hi hid => hnew (mem_ids.2 ⟨i, hi, ?_⟩)
    simpa using hid
  rw [reportOf, hnone]
  rfl

/-! ## What an input does to its candidate -/

/-- The two fields that a pointer cannot do without. -/
inductive Axis where
  | x
  | y
deriving DecidableEq, Repr

def Axis.usage : Axis → Nat
  | x => Usage.X
  | y => Usage.Y

/-- A candidate's field on an axis. -/
def Candidate.axis (c : Candidate) : Axis → Option Field
  | .x => c.x
  | .y => c.y

/-- An input lists a generic desktop usage as a variable. -/
structure Input.Declares (i : Input) (usage : Nat) : Prop where
  data : i.isConstant = false
  value : i.isVariable = true
  page : i.globals.usagePage = Page.GENERIC_DESKTOP
  listed : usage ∈ i.locals.usages

namespace Candidate

/-- Two candidates of one report, both or neither in a digitizer. -/
structure Same (c d : Candidate) : Prop where
  reportId : d.reportId = c.reportId
  digitizer : d.digitizer = c.digitizer

theorem Same.trans {c d e : Candidate} (h : Same c d) (h' : Same d e) : Same c e :=
  ⟨h'.reportId.trans h.reportId, h'.digitizer.trans h.digitizer⟩

theorem place_same (c : Candidate) (usage : Nat) (field : Field) : Same c (c.place usage field) := by
  unfold place
  split
  · exact ⟨rfl, rfl⟩
  · split
    · exact ⟨rfl, rfl⟩
    · split <;> exact ⟨rfl, rfl⟩

/-- A usage gets its field where it is the first one for its axis. -/
theorem place_axis (c : Candidate) (usage : Nat) (field : Field) (a : Axis) :
    (c.place usage field).axis a = if usage = a.usage ∧ (c.axis a).isNone then some field else c.axis a := by
  have hxy : Usage.X ≠ Usage.Y := by decide
  have hxw : Usage.X ≠ Usage.WHEEL := by decide
  have hyw : Usage.Y ≠ Usage.WHEEL := by decide
  unfold place
  cases a with
  | x =>
    change _ = if usage = Usage.X ∧ c.x.isNone then some field else c.x
    split
    case isTrue hx => rfl
    case isFalse hx =>
      split
      · rfl
      · split <;> rfl
  | y =>
    change _ = if usage = Usage.Y ∧ c.y.isNone then some field else c.y
    split
    case isTrue hx => rw [if_neg fun hy => hxy (hx.1.symm.trans hy.1)]; rfl
    case isFalse hx =>
      split
      · rfl
      · split <;> rfl

/-- From `c` to `d` an axis that is taken stays as it is, and one that is free gets a field of this kind exactly where
it is listed. -/
structure Fills (c d : Candidate) (a : Axis) (listed : Prop) (relative : Bool) : Prop where
  taken : (c.axis a).isSome → d.axis a = c.axis a
  given : c.axis a = none → listed → ∃ f, d.axis a = some f ∧ f.relative = relative
  free : c.axis a = none → ¬listed → d.axis a = none

theorem Fills.unlisted {c d : Candidate} {a : Axis} {listed : Prop} {relative : Bool} (hsame : d.axis a = c.axis a)
    (hlisted : ¬listed) : Fills c d a listed relative :=
  ⟨fun _ => hsame, fun _ h => absurd h hlisted, fun hfree _ => hsame.trans hfree⟩

/-- The usages of an item, each with its field. -/
theorem foldl_place {field : Nat → Field} {relative : Bool} (hfield : ∀ index, (field index).relative = relative)
    (usages : List (Nat × Nat)) (c : Candidate) (a : Axis) :
    Same c (usages.foldl (fun c u => c.place u.1 (field u.2)) c) ∧
      Fills c (usages.foldl (fun c u => c.place u.1 (field u.2)) c) a (a.usage ∈ usages.map (·.1)) relative := by
  induction usages generalizing c with
  | nil => exact ⟨⟨rfl, rfl⟩, .unlisted rfl List.not_mem_nil⟩
  | cons u usages ih =>
    obtain ⟨hsame, hrest⟩ := ih (c.place u.1 (field u.2))
    have hplace := c.place_axis u.1 (field u.2) a
    rw [List.foldl_cons, List.map_cons, List.mem_cons]
    refine ⟨(place_same c _ _).trans hsame, fun hsome => ?_, fun hfree hlisted => ?_, fun hfree hlisted => ?_⟩
    · have hkept : (c.place u.1 (field u.2)).axis a = c.axis a := by
        rw [hplace, if_neg fun h => by simp [Option.isNone_iff_eq_none.1 h.2] at hsome]
      rw [← hkept]
      exact hrest.taken (hkept ▸ hsome)
    · by_cases hu : u.1 = a.usage
      · have hgiven : (c.place u.1 (field u.2)).axis a = some (field u.2) := by
          rw [hplace, if_pos ⟨hu, by rw [hfree]; rfl⟩]
        exact ⟨field u.2, (hrest.taken (by rw [hgiven]; rfl)).trans hgiven, hfield u.2⟩
      · have hkept : (c.place u.1 (field u.2)).axis a = none := by
          rw [hplace, if_neg fun h => hu h.1, hfree]
        exact hrest.given hkept (hlisted.resolve_left (Ne.symm hu))
    · have hkept : (c.place u.1 (field u.2)).axis a = none := by
        rw [hplace, if_neg fun h => hlisted (.inl h.1.symm), hfree]
      exact hrest.free hkept fun h => hlisted (.inr h)

theorem Fills.congr {c d : Candidate} {a : Axis} {listed listed' : Prop} {relative : Bool}
    (h : Fills c d a listed relative) (hiff : listed ↔ listed') : Fills c d a listed' relative :=
  ⟨h.taken, fun hfree hlisted => h.given hfree (hiff.2 hlisted), fun hfree hlisted => h.free hfree (mt hiff.1 hlisted)⟩

/-- Only variables of the generic desktop page are recorded as an axis. -/
theorem record_spec (c : Candidate) (i : Input) (a : Axis) :
    Same c (c.record i) ∧ Fills c (c.record i) a
      (i.isVariable = true ∧ i.globals.usagePage = Page.GENERIC_DESKTOP ∧ a.usage ∈ i.locals.usages) i.isRelative := by
  have hpages : Page.GENERIC_DESKTOP ≠ Page.KEYBOARD ∧ Page.GENERIC_DESKTOP ≠ Page.BUTTON := by decide
  have hother {d : Candidate} {p : Prop} (hkept : Same c d ∧ d.axis a = c.axis a) (hp : ¬p) :
      Same c d ∧ Fills c d a p i.isRelative := ⟨hkept.1, .unlisted hkept.2 hp⟩
  unfold record
  extract_lets field run count
  split
  case isTrue hkeyboard =>
    refine hother ?_ fun h => hpages.1 (h.2.1.symm.trans hkeyboard)
    split
    · split <;> exact ⟨⟨rfl, rfl⟩, by cases a <;> rfl⟩
    · split <;> exact ⟨⟨rfl, rfl⟩, by cases a <;> rfl⟩
  case isFalse =>
    split
    case isTrue hbutton =>
      refine hother ?_ fun h => hpages.2 (h.2.1.symm.trans hbutton.1)
      split
      · exact ⟨⟨rfl, rfl⟩, rfl⟩
      · split <;> exact ⟨⟨rfl, rfl⟩, by cases a <;> rfl⟩
    case isFalse =>
      split
      case isTrue hdesktop =>
        obtain ⟨hsame, hfills⟩ := @foldl_place field i.isRelative (fun _ => rfl) i.locals.usages.zipIdx c a
        refine ⟨hsame, hfills.congr ?_⟩
        rw [List.zipIdx_map_fst]
        exact ⟨fun h => ⟨hdesktop.2, hdesktop.1, h⟩, fun h => h.2.2⟩
      case isFalse hno => exact hother ⟨⟨rfl, rfl⟩, rfl⟩ fun h => hno ⟨h.2.1, h.1⟩

theorem mark_spec (c : Candidate) (digitizer : Bool) (a : Axis) :
    (c.mark digitizer).reportId = c.reportId ∧ (c.mark digitizer).digitizer = (c.digitizer || digitizer) ∧
      (c.mark digitizer).axis a = c.axis a := by
  cases digitizer with
  | false => exact ⟨rfl, (Bool.or_false _).symm, rfl⟩
  | true => exact ⟨rfl, (Bool.or_true _).symm, by cases a <;> rfl⟩

theorem Fills.from {c c' d : Candidate} {a : Axis} {listed : Prop} {relative : Bool} (h : Fills c' d a listed relative)
    (hsame : c'.axis a = c.axis a) : Fills c d a listed relative :=
  ⟨fun hsome => (h.taken (hsame ▸ hsome)).trans hsame, fun hfree => h.given (hsame.trans hfree),
    fun hfree => h.free (hsame.trans hfree)⟩

/-- An input marks its report where it is in a digitizer, and fills the axes that it declares. -/
theorem input_spec (c : Candidate) (i : Input) (a : Axis) :
    (c.input i).reportId = c.reportId ∧ (c.input i).digitizer = (c.digitizer || i.digitizer) ∧
      Fills c (c.input i) a (i.Declares a.usage) i.isRelative := by
  obtain ⟨hid, hdigitizer, haxis⟩ := c.mark_spec i.digitizer a
  unfold input
  dsimp only
  by_cases hconstant : i.isConstant = true
  · rw [if_pos hconstant]
    refine ⟨hid, hdigitizer, .unlisted (by cases a <;> exact haxis) fun h => ?_⟩
    rw [h.data] at hconstant
    cases hconstant
  · rw [if_neg hconstant]
    obtain ⟨hsame, hfills⟩ := (c.mark i.digitizer).record_spec i a
    refine ⟨hsame.reportId.trans hid, hsame.digitizer.trans hdigitizer, ?_⟩
    have hdeclares : (i.isVariable = true ∧ i.globals.usagePage = Page.GENERIC_DESKTOP ∧ a.usage ∈ i.locals.usages) ↔
        i.Declares a.usage :=
      ⟨fun h => ⟨Bool.eq_false_iff.2 hconstant, h.1, h.2.1, h.2.2⟩, fun h => ⟨h.value, h.page, h.listed⟩⟩
    have hfilled := (hfills.congr hdeclares).from haxis
    cases a <;> exact ⟨hfilled.taken, hfilled.given, hfilled.free⟩

/-- What a report's inputs make of a candidate. -/
structure Sums (c d : Candidate) (inputs : List Input) (a : Axis) : Prop where
  reportId : d.reportId = c.reportId
  digitizer : d.digitizer = true ↔ c.digitizer = true ∨ ∃ i ∈ inputs, i.digitizer = true
  taken : (c.axis a).isSome → d.axis a = c.axis a
  given : c.axis a = none → (∃ i ∈ inputs, i.Declares a.usage) →
    ∃ f, d.axis a = some f ∧ ∃ i ∈ inputs, i.Declares a.usage ∧ f.relative = i.isRelative
  free : c.axis a = none → (¬∃ i ∈ inputs, i.Declares a.usage) → d.axis a = none

theorem foldl_input (inputs : List Input) (c : Candidate) (a : Axis) : Sums c (inputs.foldl input c) inputs a := by
  induction inputs generalizing c with
  | nil => exact ⟨rfl, by simp, fun _ => rfl, fun _ hsome => by simp at hsome, fun hfree _ => hfree⟩
  | cons i inputs ih =>
    obtain ⟨hid, hdigitizer, hfills⟩ := c.input_spec i a
    have hrest := ih (c.input i)
    rw [List.foldl_cons]
    refine ⟨hrest.reportId.trans hid, ?_, fun hsome => ?_, fun hfree hsome => ?_, fun hfree hnone => ?_⟩
    · rw [hrest.digitizer, hdigitizer, Bool.or_eq_true, or_assoc, List.exists_mem_cons_iff]
    · have hkept := hfills.taken hsome
      exact (hrest.taken (hkept ▸ hsome)).trans hkept
    · by_cases hi : i.Declares a.usage
      · -- The first input that declares the axis fills it, and no later one changes it.
        obtain ⟨f, hf, hrelative⟩ := hfills.given hfree hi
        exact ⟨f, (hrest.taken (by rw [hf]; rfl)).trans hf, i, List.mem_cons_self, hi, hrelative⟩
      · obtain ⟨f, hf, j, hj, hdeclares, hrelative⟩ :=
          hrest.given (hfills.free hfree hi) (((List.exists_mem_cons_iff _ _ _).1 hsome).resolve_left hi)
        exact ⟨f, hf, j, List.mem_cons_of_mem _ hj, hdeclares, hrelative⟩
    · rw [List.exists_mem_cons_iff, not_or] at hnone
      exact hrest.free (hfills.free hfree hnone.1) hnone.2

end Candidate

theorem reportOf_sums (inputs : List Input) (id : Option UInt8) (a : Axis) :
    Candidate.Sums (.new id) (reportOf inputs id) (inputs.filter (·.globals.reportId = id)) a :=
  Candidate.foldl_input _ _ a

/-- The inputs of a report list both axes as variables of the generic desktop page, and none is in a digitizer. -/
structure PointerReport (inputs : List Input) (id : Option UInt8) : Prop where
  axes : ∀ a : Axis, ∃ i ∈ inputs, i.globals.reportId = id ∧ i.Declares a.usage
  outside : ∀ i ∈ inputs, i.globals.reportId = id → i.digitizer = false

theorem mem_report {inputs : List Input} {id : Option UInt8} {p : Input → Prop} :
    (∃ i ∈ inputs.filter (·.globals.reportId = id), p i) ↔ ∃ i ∈ inputs, i.globals.reportId = id ∧ p i := by
  simp only [List.mem_filter, decide_eq_true_eq, and_assoc]

/-- An axis of a report is found where its inputs declare it, as one of them does. -/
theorem reportOf_axis (inputs : List Input) (id : Option UInt8) (a : Axis) :
    ((reportOf inputs id).axis a).isSome ↔ ∃ i ∈ inputs, i.globals.reportId = id ∧ i.Declares a.usage := by
  have hsums := reportOf_sums inputs id a
  have hnew : (Candidate.new id).axis a = none := by cases a <;> rfl
  rw [← mem_report]
  by_cases hsome : ∃ i ∈ inputs.filter (·.globals.reportId = id), i.Declares a.usage
  · obtain ⟨f, hf, -⟩ := hsums.given hnew hsome
    exact iff_of_true (by rw [hf]; rfl) hsome
  · exact iff_of_false (by rw [hsums.free hnew hsome]; exact Bool.false_ne_true) hsome

theorem reportOf_digitizer (inputs : List Input) (id : Option UInt8) :
    (reportOf inputs id).digitizer = false ↔ ∀ i ∈ inputs, i.globals.reportId = id → i.digitizer = false := by
  have hsums := (reportOf_sums inputs id .x).digitizer
  rw [← Bool.not_eq_true, hsums, mem_report]
  simp [Candidate.new]

/-- The candidates that are complete are the reports that are pointers. -/
theorem reportOf_complete (inputs : List Input) (id : Option UInt8) :
    (reportOf inputs id).complete = true ↔ PointerReport inputs id := by
  rw [Candidate.complete, Bool.and_eq_true, Bool.and_eq_true, Bool.not_eq_true', reportOf_digitizer]
  constructor
  · rintro ⟨⟨hx, hy⟩, houtside⟩
    refine ⟨fun a => ?_, houtside⟩
    cases a with
    | x => exact (reportOf_axis inputs id .x).1 hx
    | y => exact (reportOf_axis inputs id .y).1 hy
  · intro hpointer
    exact ⟨⟨(reportOf_axis inputs id .x).2 (hpointer.axes .x), (reportOf_axis inputs id .y).2 (hpointer.axes .y)⟩,
      hpointer.outside⟩

/-! ## The candidates of a descriptor -/

/-- Changing the one candidate of a report is changing each candidate of it. -/
theorem modify_slot {id : Option UInt8} {candidates : List Candidate} {index : Nat} (f : Candidate → Candidate)
    (hnodup : (candidates.map (·.reportId)).Nodup)
    (hindex : candidates.findIdx? (·.reportId = id) = some index) :
    candidates.modify index f = candidates.map fun c => if c.reportId = id then f c else c := by
  induction candidates generalizing index with
  | nil => cases hindex
  | cons c candidates ih =>
    rw [List.map_cons, List.nodup_cons] at hnodup
    rw [List.findIdx?_cons] at hindex
    by_cases hc : c.reportId = id
    · rw [if_pos (by simpa using hc)] at hindex
      cases hindex
      have hothers : (candidates.map fun c => if c.reportId = id then f c else c) = candidates := by
        refine (List.map_congr_left fun d hd => ?_).trans (List.map_id _)
        exact if_neg fun hid => hnodup.1 (List.mem_map.2 ⟨d, hd, hid.trans hc.symm⟩)
      rw [List.map_cons, if_pos hc, hothers]
      rfl
    · rw [if_neg (by simpa using hc)] at hindex
      obtain ⟨k, hk, rfl⟩ := Option.map_eq_some_iff.1 hindex
      rw [List.map_cons, if_neg hc, ← ih hnodup.2 hk]
      rfl

/-- The candidates of inputs with as many report IDs as there is room for. -/
def reports (inputs : List Input) : List Candidate := (ids inputs).map (reportOf inputs)

theorem reports_ids (inputs : List Input) : (reports inputs).map (·.reportId) = ids inputs := by
  rw [reports, List.map_map]
  exact (List.map_congr_left fun id _ => (reportOf_sums inputs id .x).reportId).trans (List.map_id _)

theorem modify_last (candidates : List Candidate) (c : Candidate) (f : Candidate → Candidate) :
    (candidates ++ [c]).modify candidates.length f = candidates ++ [f c] := by
  induction candidates with
  | nil => rfl
  | cons d candidates ih => exact congrArg (d :: ·) ih

/-- One input more, while there is room. -/
theorem addInput_reports {inputs : List Input} (i : Input) (hroom : (ids inputs).length ≤ MAX_REPORTS) :
    addInput (reports inputs) i =
      if (ids (inputs ++ [i])).length ≤ MAX_REPORTS then some (reports (inputs ++ [i])) else none := by
  have hnodup : ((reports inputs).map (·.reportId)).Nodup := reports_ids inputs ▸ nodup_ids inputs
  have hmember : (∃ c ∈ reports inputs, c.reportId = i.globals.reportId) ↔ i.globals.reportId ∈ ids inputs := by
    rw [← reports_ids, List.mem_map]
  rw [addInput, slotFor]
  cases hindex : (reports inputs).findIdx? (·.reportId = i.globals.reportId) with
  | some index =>
    have hold : i.globals.reportId ∈ ids inputs := by
      refine hmember.1 ?_
      obtain ⟨c, hc, hid⟩ := List.findIdx?_isSome.symm.trans (by rw [hindex]; rfl) |> List.any_eq_true.1
      exact ⟨c, hc, by simpa using hid⟩
    have hids : ids (inputs ++ [i]) = ids inputs := by rw [ids_snoc, if_pos hold]
    rw [hids, if_pos hroom]
    change some ((reports inputs).modify index (·.input i)) = _
    rw [modify_slot _ hnodup hindex, reports, reports, hids, List.map_map]
    refine congrArg some (List.map_congr_left fun id _ => ?_)
    rw [reportOf_snoc, Function.comp_apply, (reportOf_sums inputs id .x).reportId]
    exact if_congr eq_comm rfl rfl
  | none =>
    have hnew : i.globals.reportId ∉ ids inputs := by
      intro hold
      obtain ⟨c, hc, hid⟩ := hmember.2 hold
      have hnone := List.findIdx?_eq_none_iff.1 hindex c hc
      simp [hid] at hnone
    have hids : ids (inputs ++ [i]) = ids inputs ++ [i.globals.reportId] := by rw [ids_snoc, if_neg hnew]
    have hlength : (reports inputs).length = (ids inputs).length := List.length_map _
    rw [hids, List.length_append, List.length_singleton]
    by_cases hfull : (reports inputs).length = MAX_REPORTS
    · rw [if_pos hfull, if_neg (by omega)]
      rfl
    · rw [if_neg hfull, if_pos (by omega)]
      change some ((reports inputs ++ [Candidate.new i.globals.reportId]).modify (reports inputs).length (·.input i)) = _
      have hothers : (ids inputs).map (reportOf (inputs ++ [i])) = reports inputs := by
        refine List.map_congr_left fun id hid => ?_
        have hother : i.globals.reportId ≠ id := fun heq => hnew (heq ▸ hid)
        rw [reportOf_snoc, if_neg hother]
      have hlast : reports (inputs ++ [i]) = reports inputs ++ [(Candidate.new i.globals.reportId).input i] := by
        rw [reports, hids, List.map_append, hothers, List.map_singleton, reportOf_snoc, if_pos rfl, reportOf_new hnew]
      rw [modify_last, hlast]

theorem foldlM_addInput (inputs : List Input) :
    inputs.foldlM addInput [] =
      if (ids inputs).length ≤ MAX_REPORTS then some (reports inputs) else none := by
  induction inputs using List.reverseRecOn with
  | nil => rfl
  | append_singleton inputs i ih =>
    rw [List.foldlM_append, ih]
    by_cases hroom : (ids inputs).length ≤ MAX_REPORTS
    · rw [if_pos hroom]
      change List.foldlM addInput (reports inputs) [i] = _
      rw [List.foldlM_cons, ← addInput_reports i hroom]
      exact bind_pure _
    · have hmore : ¬(ids (inputs ++ [i])).length ≤ MAX_REPORTS := by
        rw [ids_snoc]
        split
        · exact hroom
        · rw [List.length_append]
          omega
      rw [if_neg hroom, if_neg hmore]
      rfl

/-- A descriptor that the parser comes to the end of has a candidate for each of its reports, in the order of their
first inputs, if there are not too many. -/
theorem parse_eq (descriptor : Bytes) :
    parse descriptor =
      if Readable descriptor ∧ (ids (declared descriptor)).length ≤ MAX_REPORTS then
        some (reports (declared descriptor))
      else none := by
  rw [parse, parseFrom_eq]
  change (if Readable descriptor then (declared descriptor).foldlM addInput [] else none) = _
  rw [foldlM_addInput]
  by_cases hread : Readable descriptor
  · rw [if_pos hread]
    exact if_congr (and_iff_right hread).symm rfl rfl
  · rw [if_neg hread, if_neg fun h => hread h.1]

/-- The first candidate that is asked for is found among the reports. -/
theorem find_reports {inputs : List Input} {p : Candidate → Bool} {c : Candidate} (h : (reports inputs).find? p = some c) :
    p c = true ∧ c = reportOf inputs c.reportId := by
  obtain ⟨id, -, hc⟩ := List.mem_map.1 (List.mem_of_find?_eq_some h)
  refine ⟨List.find?_some h, ?_⟩
  rw [← hc, (reportOf_sums inputs id .x).reportId]
  rfl

/-- What `findPointer` returns is the candidate that it found. -/
theorem findPointer_eq (descriptor : Bytes) :
    findPointer descriptor = (parse descriptor).bind fun candidates =>
      (candidates.find? (·.complete)).bind fun found =>
        found.x.bind fun x => found.y.map fun y =>
          ⟨found.reportId, (found.bits + 7) / 8, x, y, found.buttons, found.wheel⟩ := by
  rw [findPointer]
  simp only [Option.bind_eq_bind, Option.pure_def, Option.map_eq_bind, Function.comp_def]

theorem findPointer_some {descriptor : Bytes} {layout : PointerLayout} (h : findPointer descriptor = some layout) :
    (reportOf (declared descriptor) layout.reportId).complete = true ∧
      (reportOf (declared descriptor) layout.reportId).x = some layout.x ∧
      (reportOf (declared descriptor) layout.reportId).y = some layout.y := by
  rw [findPointer_eq, parse_eq] at h
  obtain ⟨candidates, hparse, h⟩ := Option.bind_eq_some_iff.1 h
  obtain ⟨found, hfound, h⟩ := Option.bind_eq_some_iff.1 h
  obtain ⟨x, hx, h⟩ := Option.bind_eq_some_iff.1 h
  obtain ⟨y, hy, rfl⟩ := Option.map_eq_some_iff.1 h
  split at hparse
  · cases hparse
    obtain ⟨hcomplete, hreport⟩ := find_reports hfound
    dsimp only
    rw [← hreport]
    exact ⟨hcomplete, hx, hy⟩
  · cases hparse

/-- Where a report's inputs declare no axis but relative ones, its fields are. -/
theorem reportOf_relative {inputs : List Input} {id : Option UInt8} {a : Axis} {f : Field}
    (hfield : (reportOf inputs id).axis a = some f)
    (hall : ∀ i ∈ inputs, i.globals.reportId = id → i.Declares a.usage → i.isRelative = true) :
    f.relative = true := by
  have hsums := reportOf_sums inputs id a
  have hnew : (Candidate.new id).axis a = none := by cases a <;> rfl
  have hsome := (reportOf_axis inputs id a).1 (by rw [hfield]; rfl)
  obtain ⟨f', hf', i, hi, hdeclares, hrelative⟩ := hsums.given hnew (mem_report.2 hsome)
  cases hfield.symm.trans hf'
  obtain ⟨hmem, hid⟩ := List.mem_filter.1 hi
  exact hrelative.trans (hall i hmem (by simpa using hid) hdeclares)

/-- A pointer that is found is a report that declares X and Y as variables, outside of any digitizer, and relative ones
if it declares no other; and in a descriptor that is read to its end and has no more reports than there is room for,
one is found if there is one. -/
theorem findPointer_spec (descriptor : Bytes) :
    (∀ layout, findPointer descriptor = some layout →
      PointerReport (declared descriptor) layout.reportId ∧
      ((∀ i ∈ declared descriptor, i.globals.reportId = layout.reportId → ∀ a : Axis, i.Declares a.usage →
        i.isRelative = true) → layout.x.relative = true ∧ layout.y.relative = true)) ∧
    (Readable descriptor → (ids (declared descriptor)).length ≤ MAX_REPORTS →
      (∃ id, PointerReport (declared descriptor) id) → ∃ layout, findPointer descriptor = some layout) := by
  constructor
  · intro layout hlayout
    obtain ⟨hcomplete, hx, hy⟩ := findPointer_some hlayout
    refine ⟨(reportOf_complete _ _).1 hcomplete, fun hall => ⟨?_, ?_⟩⟩
    · exact @reportOf_relative _ _ .x _ hx fun i hi hid => hall i hi hid .x
    · exact @reportOf_relative _ _ .y _ hy fun i hi hid => hall i hi hid .y
  · intro hread hroom hexists
    obtain ⟨id, hpointer⟩ := hexists
    have hparse : parse descriptor = some (reports (declared descriptor)) := by rw [parse_eq, if_pos ⟨hread, hroom⟩]
    have hmem : reportOf (declared descriptor) id ∈ reports (declared descriptor) := by
      obtain ⟨i, hi, hid, -⟩ := hpointer.axes .x
      exact List.mem_map.2 ⟨id, mem_ids.2 ⟨i, hi, hid⟩, rfl⟩
    obtain ⟨found, hfound⟩ := Option.isSome_iff_exists.1
      (List.find?_isSome.2 ⟨_, hmem, (reportOf_complete _ id).2 hpointer⟩)
    have hcomplete := List.find?_some hfound
    rw [Candidate.complete, Bool.and_eq_true, Bool.and_eq_true] at hcomplete
    obtain ⟨x, hx⟩ := Option.isSome_iff_exists.1 hcomplete.1.1
    obtain ⟨y, hy⟩ := Option.isSome_iff_exists.1 hcomplete.1.2
    refine ⟨⟨found.reportId, (found.bits + 7) / 8, x, y, found.buttons, found.wheel⟩, ?_⟩
    rw [findPointer_eq, hparse, Option.bind_some, hfound, Option.bind_some, hx, Option.bind_some, hy]
    rfl

/-- A three-byte relative mouse, with no report ID. -/
def plainMouse : Bytes :=
  [0x05, 0x01, 0x09, 0x02, 0xA1, 0x01, 0x09, 0x01, 0xA1, 0x00, 0x05, 0x09, 0x19, 0x01, 0x29, 0x03, 0x15, 0x00, 0x25, 0x01,
    0x95, 0x03, 0x75, 0x01, 0x81, 0x02, 0x95, 0x01, 0x75, 0x05, 0x81, 0x01, 0x05, 0x01, 0x09, 0x30, 0x09, 0x31, 0x15, 0x81,
    0x25, 0x7F, 0x75, 0x08, 0x95, 0x02, 0x81, 0x06, 0xC0, 0xC0]

instance (i : Input) (usage : Nat) : Decidable (i.Declares usage) :=
  decidable_of_iff (i.isConstant = false ∧ i.isVariable = true ∧ i.globals.usagePage = Page.GENERIC_DESKTOP ∧
      usage ∈ i.locals.usages)
    ⟨fun h => ⟨h.1, h.2.1, h.2.2.1, h.2.2.2⟩, fun h => ⟨h.data, h.value, h.page, h.listed⟩⟩

theorem plainMouse_found : ∃ layout, findPointer plainMouse = some layout := by
  refine (findPointer_spec plainMouse).2 (by decide +kernel) (by decide +kernel) ⟨none, fun a => ?_, by decide +kernel⟩
  cases a <;> decide +kernel

/-- The mouse followed by a push: its only report declares X and Y as relative variables outside of any digitizer, and
no pointer is found, for the parser stops at a push. -/
theorem pushed_mouse_refused :
    (∀ a ∈ [Axis.x, Axis.y], ∃ i ∈ declared (plainMouse ++ [0xA4]), i.globals.reportId = none ∧ i.Declares a.usage ∧
      i.isRelative = true ∧ i.digitizer = false) ∧
    none ∈ (ids (declared (plainMouse ++ [0xA4]))).take MAX_REPORTS ∧ findPointer (plainMouse ++ [0xA4]) = none := by
  decide +kernel

end NanoChrono.Hid
