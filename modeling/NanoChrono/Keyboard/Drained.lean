import NanoChrono.Keyboard.Changes

/-! # What is delivered for a report

What the events between two reports are is told exactly (`drain_eq`): a slot whose code left is one release, however
many slots held the code, and presses are delivered while a slot is free for them and once more. They are the changes
of the report, each once, exactly where no code that leaves was repeated and no more codes enter than that
(`session_delivers_iff`). -/

namespace NanoChrono.Keyboard

/-! ## Releases -/

/-- The slots of a report whose codes are not in the latest one. -/
def Report.leaving (previous latest : Report) : List UInt8 := previous.slots.filter (gone latest.slots)

/-- The report with those slots emptied. -/
def Report.released (previous latest : Report) : Report where
  modifiers := previous.modifiers
  reserved := previous.reserved
  slots := previous.slots.map fun slot => if gone latest.slots slot then 0 else slot
  six := by rw [List.length_map, previous.six]

theorem gone_zero (other : List UInt8) : gone other 0 = false := rfl

theorem gone_iff {other : List UInt8} {code : UInt8} : gone other code = true ↔ code ≠ 0 ∧ code ∉ other := by
  simp [gone]

/-- The first slot with a property is the one that is set. -/
theorem setFirst_find {p : UInt8 → Bool} (value : UInt8) {code : UInt8} : ∀ {slots : List UInt8},
    slots.find? p = some code → ∃ front back, slots = front ++ code :: back ∧ (∀ slot ∈ front, p slot = false) ∧
      p code = true ∧ setFirst p value slots = some (front ++ value :: back)
  | [], h => by cases h
  | slot :: slots, h => by
    rw [List.find?_cons] at h
    rw [setFirst]
    cases hp : p slot with
    | true =>
      rw [hp] at h
      obtain rfl := Option.some.inj h
      exact ⟨[], slots, rfl, fun _ h => (by cases h), hp, rfl⟩
    | false =>
      rw [hp] at h
      obtain ⟨front, back, rfl, hfront, hcode, hset⟩ := setFirst_find value h
      refine ⟨slot :: front, back, rfl, fun s hs => ?_, hcode, ?_⟩
      · rcases List.mem_cons.mp hs with rfl | hs
        · exact hp
        · exact hfront s hs
      · rw [hset]
        rfl

theorem setFirst_none {p : UInt8 → Bool} {value : UInt8} : ∀ {slots : List UInt8}, (∀ slot ∈ slots, p slot = false) →
    setFirst p value slots = none
  | [], _ => rfl
  | slot :: slots, h => by
    rw [setFirst, h slot List.mem_cons_self, setFirst_none fun s hs => h s (List.mem_cons_of_mem _ hs)]
    rfl

theorem Report.setFirst_some {r : Report} (instead : Report) {p : UInt8 → Bool} {value : UInt8} {slots : List UInt8}
    (h : Keyboard.setFirst p value r.slots = some slots) : (r.setFirst p value instead).slots = slots ∧
      (r.setFirst p value instead).modifiers = r.modifiers ∧ (r.setFirst p value instead).reserved = r.reserved := by
  unfold Report.setFirst
  split
  next slots' h' =>
    rw [h] at h'
    obtain rfl := Option.some.inj h'
    exact ⟨rfl, rfl, rfl⟩
  next h' =>
    rw [h] at h'
    cases h'

theorem Report.setFirst_instead {r instead : Report} {p : UInt8 → Bool} {value : UInt8}
    (h : Keyboard.setFirst p value r.slots = none) : r.setFirst p value instead = instead := by
  unfold Report.setFirst
  split
  next slots' h' =>
    rw [h] at h'
    cases h'
  next => rfl

theorem trailingZeros_self (b : UInt8) : trailingZeros (b ^^^ b) = none := by
  rw [UInt8.xor_self]
  rfl

/-- A slot whose code left is the next event, and is emptied. -/
theorem release_step {previous latest : Report} (hmods : previous.modifiers = latest.modifiers) {code : UInt8}
    (h : previous.slots.find? (gone latest.slots) = some code) :
    nextKeyChange previous latest = (some (Change.code code false).key,
      previous.setFirst (gone latest.slots) 0 latest) := by
  unfold nextKeyChange keysChanged modifierChanged advance
  rw [hmods, trailingZeros_self, h]
  rfl

/-- Every slot whose code left is one release. -/
theorem drain_releases {latest : Report} (fuel : Nat) : ∀ (n : Nat) (previous : Report),
    previous.modifiers = latest.modifiers → (previous.leaving latest).length = n →
    drain (fuel + n) previous latest = (drain fuel (previous.released latest) latest).map fun out =>
      (((previous.leaving latest).map fun code => (Change.code code false).key) ++ out.1, out.2) := by
  intro n
  induction n with
  | zero =>
    intro previous hmods hn
    have hnone := List.length_eq_zero_iff.mp hn
    have hsame : previous.released latest = previous := by
      refine Report.ext rfl rfl ?_
      refine (List.map_congr_left fun slot hslot => ?_).trans (List.map_id previous.slots)
      have hstays := List.filter_eq_nil_iff.mp hnone slot hslot
      rw [if_neg hstays]
      rfl
    rw [hsame, hnone]
    simp
  | succ n ih =>
    intro previous hmods hn
    cases hfind : previous.slots.find? (gone latest.slots) with
    | none =>
      have hnone : previous.leaving latest = [] := List.filter_eq_nil_iff.mpr (List.find?_eq_none.mp hfind)
      rw [hnone] at hn
      cases hn
    | some code =>
      obtain ⟨front, back, hslots, hfront, hcode, hset⟩ := setFirst_find 0 hfind
      obtain ⟨hnew, hmods', hres'⟩ := Report.setFirst_some latest hset
      have hleaving : previous.leaving latest =
          code :: (previous.setFirst (gone latest.slots) 0 latest).leaving latest := by
        rw [Report.leaving, Report.leaving, hnew, hslots, List.filter_append, List.filter_append,
          List.filter_cons_of_pos hcode, List.filter_cons_of_neg (by rw [gone_zero]; exact Bool.false_ne_true),
          List.filter_eq_nil_iff.mpr fun slot hslot => by rw [hfront slot hslot]; exact Bool.false_ne_true]
        rfl
      have hreleased : (previous.setFirst (gone latest.slots) 0 latest).released latest = previous.released latest := by
        refine Report.ext hmods' hres' ?_
        show List.map _ _ = List.map _ _
        rw [hnew, hslots, List.map_append, List.map_append, List.map_cons, List.map_cons, if_pos hcode]
        congr 2
      have hrest := ih (previous.setFirst (gone latest.slots) 0 latest) (hmods'.trans hmods)
        (by rw [hleaving] at hn; exact Nat.succ.inj hn)
      rw [← Nat.add_assoc, drain_step (release_step hmods hfind), hrest, hreleased, hleaving, Option.map_map]
      rfl

/-! ## Presses -/

/-- The codes that are not held, each where it first stands. -/
@[grind =] def entering (held : List UInt8) : List UInt8 → List UInt8
  | [] => []
  | code :: codes => if gone held code then code :: entering (code :: held) codes else entering held codes

theorem entering_congr : ∀ {codes held held' : List UInt8},
    (∀ code ∈ codes, code ≠ 0 → (code ∈ held ↔ code ∈ held')) → entering held codes = entering held' codes
  | [], _, _, _ => rfl
  | code :: codes, held, held', h => by
    have hgone : gone held code = gone held' code := by
      rw [Bool.eq_iff_iff, gone_iff, gone_iff]
      exact and_congr_right fun hne => not_congr (h code List.mem_cons_self hne)
    have htail : ∀ c ∈ codes, c ≠ 0 → (c ∈ held ↔ c ∈ held') := fun c hc => h c (List.mem_cons_of_mem _ hc)
    have hpressed : entering (code :: held) codes = entering (code :: held') codes :=
      entering_congr fun c hc hne => by rw [List.mem_cons, List.mem_cons, htail c hc hne]
    rw [entering, entering, hgone, hpressed, entering_congr htail]

theorem find_entering : ∀ (codes held : List UInt8), codes.find? (gone held) = (entering held codes).head?
  | [], _ => rfl
  | code :: codes, held => by
    rw [List.find?_cons, entering]
    cases hgone : gone held code with
    | true => rfl
    | false => exact find_entering codes held

/-- The codes that enter after the first. -/
theorem entering_tail : ∀ {codes held : List UInt8} {code : UInt8} {rest : List UInt8},
    entering held codes = code :: rest → entering (code :: held) codes = rest
  | [], _, _, _, h => by cases h
  | c :: codes, held, code, rest, h => by
    rw [entering] at h
    cases hgone : gone held c with
    | true =>
      rw [hgone, if_pos rfl] at h
      obtain ⟨rfl, rfl⟩ := List.cons.inj h
      have hheld : gone (c :: held) c = false := by simp [gone]
      rw [entering, hheld]
      rfl
    | false =>
      rw [hgone, if_neg Bool.false_ne_true] at h
      have hheld : gone (code :: held) c = false := by
        rw [Bool.eq_false_iff, Ne, gone_iff] at hgone ⊢
        exact fun hc => hgone ⟨hc.1, fun hmem => hc.2 (List.mem_cons_of_mem _ hmem)⟩
      rw [entering, hheld, if_neg Bool.false_ne_true]
      exact entering_tail h

theorem mem_entering : ∀ {codes held : List UInt8} {code : UInt8},
    code ∈ entering held codes ↔ code ∈ codes ∧ code ≠ 0 ∧ code ∉ held
  | [], _, _ => by simp [entering]
  | c :: codes, held, code => by
    rw [entering]
    split
    next hgone =>
      obtain ⟨hne, hheld⟩ := gone_iff.mp hgone
      rw [List.mem_cons, mem_entering, List.mem_cons, List.mem_cons]
      by_cases hcode : code = c
      · subst hcode
        simp [hne, hheld]
      · simp [hcode]
    next hgone =>
      rw [mem_entering, List.mem_cons]
      rw [gone_iff] at hgone
      constructor
      · exact fun h => ⟨.inr h.1, h.2⟩
      · rintro ⟨rfl | hmem, hne, hheld⟩
        · exact absurd ⟨hne, hheld⟩ hgone
        · exact ⟨hmem, hne, hheld⟩

theorem entering_nodup : ∀ (codes held : List UInt8), (entering held codes).Nodup
  | [], _ => List.nodup_nil
  | code :: codes, held => by
    rw [entering]
    split
    · refine List.nodup_cons.mpr ⟨fun hmem => ?_, entering_nodup codes _⟩
      exact (mem_entering.mp hmem).2.2 List.mem_cons_self
    · exact entering_nodup codes held

theorem entering_length : ∀ (codes held : List UInt8), (entering held codes).length ≤ codes.length
  | [], _ => Nat.le_refl _
  | code :: codes, held => by
    rw [entering]
    split
    · exact Nat.succ_le_succ (entering_length codes _)
    · exact Nat.le_succ_of_le (entering_length codes held)

/-- Nothing differs between a report and itself. -/
theorem nextKeyChange_self (latest : Report) : nextKeyChange latest latest = (none, latest) := by
  have hfind : latest.slots.find? (gone latest.slots) = none := by
    refine List.find?_eq_none.mpr fun code hcode => ?_
    rw [gone_iff]
    exact fun h => h.2 hcode
  unfold nextKeyChange keysChanged modifierChanged
  rw [trailingZeros_self, hfind]
  rfl

/-- A code that enters is the next event, and takes a free slot. -/
theorem press_step {previous latest : Report} (hmods : previous.modifiers = latest.modifiers)
    (hstays : ∀ slot ∈ previous.slots, gone latest.slots slot = false) {code : UInt8} {rest : List UInt8}
    (h : entering previous.slots latest.slots = code :: rest) :
    nextKeyChange previous latest = (some (Change.code code true).key,
      previous.setFirst (· = 0) code latest) := by
  have hreleases : previous.slots.find? (gone latest.slots) = none :=
    List.find?_eq_none.mpr fun slot hslot => by rw [hstays slot hslot]; exact Bool.false_ne_true
  have hfind : latest.slots.find? (gone previous.slots) = some code := by rw [find_entering, h]; rfl
  unfold nextKeyChange keysChanged modifierChanged advance
  rw [hmods, trailingZeros_self, hreleases, hfind]
  rfl

/-- With every release delivered, codes that enter are pressed while a slot is free and once more. -/
theorem drain_presses {latest : Report} (fuel : Nat) : ∀ (free : Nat) (previous : Report),
    previous.modifiers = latest.modifiers → (∀ slot ∈ previous.slots, gone latest.slots slot = false) →
    previous.slots.count 0 = free →
    drain (fuel + 1 + ((entering previous.slots latest.slots).take (free + 1)).length) previous latest =
      some (((entering previous.slots latest.slots).take (free + 1)).map fun code => (Change.code code true).key,
        latest) := by
  intro free
  induction free with
  | zero =>
    intro previous hmods hstays hfree
    cases henter : entering previous.slots latest.slots with
    | nil =>
      have hnone : nextKeyChange previous latest = (none, latest) := by
        have hreleases : previous.slots.find? (gone latest.slots) = none :=
          List.find?_eq_none.mpr fun slot hslot => by rw [hstays slot hslot]; exact Bool.false_ne_true
        have hfind : latest.slots.find? (gone previous.slots) = none := by rw [find_entering, henter]; rfl
        unfold nextKeyChange keysChanged modifierChanged
        rw [hmods, trailingZeros_self, hreleases, hfind]
        rfl
      show drain (fuel + 1) previous latest = _
      rw [drain, hnone]
      rfl
    | cons code rest =>
      have hfull : setFirst (· = 0) code previous.slots = none := by
        refine setFirst_none fun slot hslot => decide_eq_false fun hzero => ?_
        exact List.count_eq_zero.mp hfree (hzero ▸ hslot)
      have hstep := press_step hmods hstays henter
      rw [Report.setFirst_instead hfull] at hstep
      show drain (fuel + 1 + 1) previous latest = _
      rw [drain_step hstep, drain, nextKeyChange_self]
      rfl
  | succ free ih =>
    intro previous hmods hstays hfree
    cases henter : entering previous.slots latest.slots with
    | nil =>
      have hnone : nextKeyChange previous latest = (none, latest) := by
        have hreleases : previous.slots.find? (gone latest.slots) = none :=
          List.find?_eq_none.mpr fun slot hslot => by rw [hstays slot hslot]; exact Bool.false_ne_true
        have hfind : latest.slots.find? (gone previous.slots) = none := by rw [find_entering, henter]; rfl
        unfold nextKeyChange keysChanged modifierChanged
        rw [hmods, trailingZeros_self, hreleases, hfind]
        rfl
      show drain (fuel + 1) previous latest = _
      rw [drain, hnone]
      rfl
    | cons code rest =>
      obtain ⟨hmem, hne, -⟩ := mem_entering.mp (henter ▸ List.mem_cons_self : code ∈ entering previous.slots latest.slots)
      have hzero : (0 : UInt8) ∈ previous.slots := List.count_pos_iff.mp (by omega)
      obtain ⟨found, hfound⟩ := Option.isSome_iff_exists.mp
        (List.find?_isSome (p := (· = (0 : UInt8))) |>.mpr ⟨0, hzero, rfl⟩)
      obtain ⟨front, back, hslots, hfront, hfoundZero, hset⟩ := setFirst_find code hfound
      obtain rfl : found = 0 := of_decide_eq_true hfoundZero
      obtain ⟨hnew, hmods', -⟩ := Report.setFirst_some latest hset
      have hcount : (front ++ code :: back).count 0 = free := by
        rw [hslots] at hfree
        simp only [List.count_append, List.count_cons, beq_iff_eq, hne, if_false, beq_self_eq_true, if_true] at hfree ⊢
        omega
      have hstays' : ∀ slot ∈ front ++ code :: back, gone latest.slots slot = false := by
        intro slot hslot
        rw [List.mem_append, List.mem_cons] at hslot
        rcases hslot with hslot | rfl | hslot
        · exact hstays slot (hslots ▸ List.mem_append_left _ hslot)
        · rw [Bool.eq_false_iff, Ne, gone_iff]
          exact fun h => h.2 hmem
        · exact hstays slot (hslots ▸ List.mem_append_right _ (List.mem_cons_of_mem _ hslot))
      have henter' : entering (front ++ code :: back) latest.slots = rest := by
        have hsame : entering (code :: previous.slots) latest.slots = rest := entering_tail henter
        rw [← hsame]
        -- Only the code that entered is new among the codes that are held: the slot was empty.
        refine entering_congr fun c _ hc => ?_
        rw [hslots]
        simp only [List.mem_append, List.mem_cons, hc, false_or]
        tauto
      have hrest := ih (previous.setFirst (· = 0) code latest) (hmods'.trans hmods) (by rw [hnew]; exact hstays')
        (by rw [hnew]; exact hcount)
      rw [hnew, henter'] at hrest
      rw [List.take_succ_cons, List.length_cons, ← Nat.add_assoc, drain_step (press_step hmods hstays henter), hrest]
      rfl

/-! ## All of a report -/

/-- What is delivered between two reports. -/
def deliveredLog (previous latest : Report) : List Change :=
  modifierLog previous.modifiers latest.modifiers ++
    ((previous.leaving latest).map (.code · false) ++
      ((entering previous.slots latest.slots).take ((previous.released latest).slots.count 0 + 1)).map (.code · true))

theorem deliveredLog_length (previous latest : Report) : (deliveredLog previous latest).length ≤ 20 := by
  have hbits : (modifierLog previous.modifiers latest.modifiers).length ≤ 8 := by
    rw [modifierLog, List.length_map]
    exact (List.length_filter_le _ _).trans (Nat.le_of_eq (List.length_finRange))
  have hleaving : (previous.leaving latest).length ≤ 6 := previous.six ▸ List.length_filter_le _ _
  have hentering := entering_length latest.slots previous.slots
  rw [latest.six] at hentering
  rw [deliveredLog, List.length_append, List.length_append, List.length_map, List.length_map, List.length_take]
  omega

/-- The codes that enter are the same whether the others were released. -/
theorem released_entering (previous latest : Report) :
    entering (previous.released latest).slots latest.slots = entering previous.slots latest.slots := by
  refine entering_congr fun code hcode hne => ?_
  show code ∈ previous.slots.map _ ↔ _
  rw [List.mem_map]
  constructor
  · rintro ⟨slot, hslot, rfl⟩
    split at hne
    · exact absurd rfl hne
    next hstays =>
      rw [if_neg hstays]
      exact hslot
  · intro hslot
    refine ⟨code, hslot, if_neg ?_⟩
    rw [gone_iff]
    exact fun h => h.2 hcode

/-- Draining a report ends, with this delivered and nothing left that differs. -/
theorem drain_eq {fuel : Nat} (hfuel : 21 ≤ fuel) (previous latest : Report) :
    drain fuel previous latest = some ((deliveredLog previous latest).map Change.key, latest) := by
  have hlength := deliveredLog_length previous latest
  have hstays : ∀ slot ∈ (previous.released latest).slots, gone latest.slots slot = false := by
    intro slot hslot
    obtain ⟨held, -, rfl⟩ := List.mem_map.mp hslot
    split
    · exact gone_zero _
    next h => exact Bool.eq_false_iff.mpr h
  have hreleases := fun extra => @drain_releases latest extra _ { previous with modifiers := latest.modifiers } rfl rfl
  have hpresses := fun extra => @drain_presses latest extra _
    (({ previous with modifiers := latest.modifiers } : Report).released latest) rfl hstays rfl
  have hentering : entering (({ previous with modifiers := latest.modifiers } : Report).released latest).slots
      latest.slots = entering previous.slots latest.slots := released_entering previous latest
  rw [hentering] at hpresses
  rw [deliveredLog, List.length_append, List.length_append, List.length_map, List.length_map, modifierLog,
    List.length_map] at hlength
  obtain ⟨extra, rfl⟩ := Nat.exists_eq_add_of_le hfuel
  obtain ⟨rest, hrest⟩ := Nat.exists_eq_add_of_le hlength
  have hsplit : 21 + extra = extra + rest + 1 + ((entering previous.slots latest.slots).take
      ((previous.released latest).slots.count 0 + 1)).length + (previous.leaving latest).length +
      (changedBits (previous.modifiers ^^^ latest.modifiers)).length := by omega
  rw [hsplit, drain_modifiers _ _ _ rfl]
  refine (congrArg (Option.map _) ((hreleases _).trans (congrArg (Option.map _) (hpresses (extra + rest))))).trans ?_
  simp only [Option.map_some, deliveredLog, List.map_append, List.map_map]
  rfl

/-! ## What should be delivered -/

/-- What a change is about: a modifier bit, or a key code. -/
def Change.subject : Change → Fin 8 ⊕ UInt8
  | .modifier bit _ => .inl bit
  | .code usage _ => .inr usage

@[grind =] def Change.pressed : Change → Bool
  | .modifier _ pressed => pressed
  | .code _ pressed => pressed

/-- Whether a report holds a modifier bit or a key code. -/
def Report.holds (r : Report) : Fin 8 ⊕ UInt8 → Bool
  | .inl bit => hasBit r.modifiers bit
  | .inr code => r.slots.contains code

/-- Each modifier bit that changed once, then each code that left once, then each code that entered once. -/
def Delivers (previous latest : Report) (log : List Change) : Prop :=
  ∃ (bits : List (Fin 8)) (released pressed : List UInt8),
    log = bits.map (fun bit => .modifier bit (hasBit latest.modifiers bit)) ++
      (released.map (.code · false) ++ pressed.map (.code · true)) ∧
    bits.Nodup ∧ released.Nodup ∧ pressed.Nodup ∧
    (∀ bit, bit ∈ bits ↔ hasBit previous.modifiers bit ≠ hasBit latest.modifiers bit) ∧
    (∀ code, code ∈ released ↔ code ≠ 0 ∧ code ∈ previous.slots ∧ code ∉ latest.slots) ∧
    (∀ code, code ∈ pressed ↔ code ≠ 0 ∧ code ∉ previous.slots ∧ code ∈ latest.slots)

/-- The changes of reports one after another. -/
def Logged : Report → List Report → List (List Change) → Prop
  | _, [], logs => logs = []
  | previous, latest :: reports, logs =>
    ∃ log rest, logs = log :: rest ∧ Delivers previous latest log ∧ Logged latest reports rest

/-- Whether something is held after presses and releases of it, if each of them is one. -/
@[grind =] def follows : Bool → List Bool → Option Bool
  | held, [] => some held
  | held, pressed :: rest => if pressed = held then none else follows pressed rest

/-- The presses and releases of a modifier bit or a code. -/
def about (x : Fin 8 ⊕ UInt8) (log : List Change) : List Bool := (log.filter (·.subject = x)).map Change.pressed

/-- What a session delivers is faithful to its reports: the changes of each, in which each press is followed by one
release, and none comes without a press; at the end the last report is delivered. -/
def Faithful (reports : List Report) (out : List (List Key) × Report) : Prop :=
  (∃ logs, out.1 = logs.map (·.map Change.key) ∧ Logged .zero reports logs ∧
    ∀ x, x ≠ .inr 0 → follows false (about x logs.flatten) = some (out.2.holds x)) ∧
  out.2 = reports.getLastD .zero

/-- No code that leaves stands in two slots, and no more codes enter than there are slots free for them, and one. -/
def Fits (previous latest : Report) : Prop :=
  (previous.leaving latest).Nodup ∧
    (entering previous.slots latest.slots).length ≤ (previous.released latest).slots.count 0 + 1

instance (previous latest : Report) : Decidable (Fits previous latest) := by unfold Fits; infer_instance

theorem mem_changedBits {previous current : UInt8} {bit : Fin 8} :
    bit ∈ changedBits (previous ^^^ current) ↔ hasBit previous bit ≠ hasBit current bit := by
  rw [changedBits, List.mem_filter, hasBit, UInt8.toNat_xor, Nat.testBit_xor, bne_iff_ne]
  exact ⟨fun h => h.2, fun h => ⟨List.mem_finRange bit, h⟩⟩

theorem mem_leaving {previous latest : Report} {code : UInt8} :
    code ∈ previous.leaving latest ↔ code ≠ 0 ∧ code ∈ previous.slots ∧ code ∉ latest.slots := by
  rw [Report.leaving, List.mem_filter, gone_iff]
  tauto

theorem delivers_of_fits {previous latest : Report} (h : Fits previous latest) :
    Delivers previous latest (deliveredLog previous latest) := by
  refine ⟨_, _, _, rfl, (List.nodup_finRange 8).filter _, h.1, (entering_nodup _ _).sublist (List.take_sublist _ _),
    fun bit => mem_changedBits, fun code => mem_leaving, fun code => ?_⟩
  rw [List.take_of_length_le h.2, mem_entering]
  tauto

/-- What is delivered is what should be only if the report fits. -/
theorem fits_of_delivers {previous latest : Report} {log : List Change}
    (hkeys : (deliveredLog previous latest).map Change.key = log.map Change.key) (h : Delivers previous latest log) :
    Fits previous latest := by
  obtain ⟨bits, released, pressed, rfl, hbits, hreleased, hpressed, hmemBits, hmemReleased, hmemPressed⟩ := h
  have hsame : bits.length = (changedBits (previous.modifiers ^^^ latest.modifiers)).length :=
    ((List.perm_ext_iff_of_nodup hbits ((List.nodup_finRange 8).filter _)).mpr fun bit => by
      rw [hmemBits, ← mem_changedBits]
      rfl).length_eq
  rw [deliveredLog, modifierLog, List.map_append, @List.map_append _ _ Change.key (bits.map _)] at hkeys
  obtain ⟨-, hcodes⟩ := List.append_inj hkeys (by simp only [List.length_map]; exact hsame.symm)
  -- Releases are the events that press nothing, and presses are the others.
  have hcount := fun pressed : Bool => congrArg (List.countP fun key : Key => key.pressed == pressed) hcodes
  simp only [List.map_append, List.map_map, List.countP_append, List.countP_map, Function.comp_def, Change.key] at hcount
  have hreleases := hcount false
  have hpresses := hcount true
  simp only [beq_self_eq_true, List.countP_true, Bool.true_beq, Bool.false_beq, Bool.not_true, List.countP_false,
    Function.const_apply, Nat.add_zero, Nat.zero_add, List.length_take] at hreleases hpresses
  have hsub : released.Subperm (previous.leaving latest) := hreleased.subperm fun code hcode =>
    mem_leaving.mpr ((hmemReleased code).mp hcode)
  have hperm : released.Perm (previous.leaving latest) := hsub.perm_of_length_le (Nat.le_of_eq hreleases)
  have hentering : pressed.length = (entering previous.slots latest.slots).length :=
    ((List.perm_ext_iff_of_nodup hpressed (entering_nodup _ _)).mpr fun code => by
      rw [hmemPressed, mem_entering]
      tauto).length_eq
  refine ⟨hperm.nodup_iff.mp hreleased, ?_⟩
  omega

theorem follows_append : ∀ (front back : List Bool) (held : Bool),
    follows held (front ++ back) = (follows held front).bind fun held => follows held back
  | [], _, _ => rfl
  | pressed :: front, back, held => by
    rw [List.cons_append, follows, follows]
    split
    · rfl
    · exact follows_append front back pressed

theorem filter_subject {α : Type} [DecidableEq α] {f : α → Change} {g : α → Fin 8 ⊕ UInt8}
    (hg : Function.Injective g) (hf : ∀ a, (f a).subject = g a) {l : List α} (h : l.Nodup) (a : α) :
    (l.map f).filter (·.subject = g a) = if a ∈ l then [f a] else [] := by
  have hsame : (fun c : Change => decide (c.subject = g a)) ∘ f = fun b => decide (b = a) := by
    funext b
    simp [hf, hg.eq_iff]
  rw [List.filter_map, hsame, List.filter_eq, h.count]
  split
  · rfl
  · rfl

theorem filter_other {α : Type} {f : α → Change} {x : Fin 8 ⊕ UInt8} (hf : ∀ a, (f a).subject ≠ x) (l : List α) :
    (l.map f).filter (·.subject = x) = [] := by
  refine List.filter_eq_nil_iff.mpr fun c hc => ?_
  obtain ⟨a, -, rfl⟩ := List.mem_map.mp hc
  exact fun h => hf a (of_decide_eq_true h)

/-- A report's changes take what was held to what it holds. -/
theorem delivers_follows {previous latest : Report} {log : List Change} (h : Delivers previous latest log)
    {x : Fin 8 ⊕ UInt8} (hx : x ≠ .inr 0) : follows (previous.holds x) (about x log) = some (latest.holds x) := by
  obtain ⟨bits, released, pressed, rfl, hbits, hreleased, hpressed, hmemBits, hmemReleased, hmemPressed⟩ := h
  rw [about, List.filter_append, List.filter_append]
  cases x with
  | inl bit =>
    have hother : ∀ (pressed : Bool) (l : List UInt8),
        (l.map (Change.code · pressed)).filter (·.subject = .inl bit) = [] := fun pressed l =>
      filter_other (f := (Change.code · pressed)) (fun _ => Sum.inr_ne_inl) l
    rw [filter_subject Sum.inl_injective (fun _ => rfl) hbits, hother, hother]
    by_cases hbit : bit ∈ bits
    · have hchanged := (hmemBits bit).mp hbit
      rw [if_pos hbit]
      exact if_neg fun h => hchanged h.symm
    · have hsame := not_not.mp fun hne => hbit ((hmemBits bit).mpr hne)
      rw [if_neg hbit]
      exact congrArg some hsame
  | inr code =>
    have hne : code ≠ 0 := fun h => hx (congrArg Sum.inr h)
    have hother : (bits.map fun bit => Change.modifier bit (hasBit latest.modifiers bit)).filter
        (·.subject = .inr code) = [] :=
      filter_other (f := fun bit => Change.modifier bit (hasBit latest.modifiers bit)) (fun _ => Sum.inl_ne_inr) bits
    rw [hother, filter_subject Sum.inr_injective (fun _ => rfl) hreleased,
      filter_subject Sum.inr_injective (fun _ => rfl) hpressed]
    have hmem := hmemReleased code
    have hmem' := hmemPressed code
    by_cases hold : code ∈ previous.slots <;> by_cases hnew : code ∈ latest.slots
    all_goals
      simp [hmem, hmem', hne, hold, hnew, Report.holds, follows, Change.pressed]

/-! ## Sessions -/

/-- What a session delivers. -/
def sessionLog : Report → List Report → List (List Change)
  | _, [] => []
  | previous, latest :: reports => deliveredLog previous latest :: sessionLog latest reports

theorem session_eq {fuel : Nat} (hfuel : 21 ≤ fuel) : ∀ (reports : List Report) (previous : Report),
    session fuel previous reports =
      some ((sessionLog previous reports).map (·.map Change.key), reports.getLastD previous)
  | [], previous => rfl
  | latest :: reports, previous => by
    rw [session, drain_eq hfuel, Option.bind_some, session_eq hfuel reports latest, List.getLastD_cons]
    rfl

theorem logged_iff : ∀ (reports : List Report) (previous : Report),
    (∃ logs, (sessionLog previous reports).map (·.map Change.key) = logs.map (·.map Change.key) ∧
      Logged previous reports logs) ↔ (previous :: reports).IsChain Fits
  | [], previous => by
    constructor
    · exact fun _ => List.isChain_singleton _
    · exact fun _ => ⟨[], rfl, rfl⟩
  | latest :: reports, previous => by
    rw [List.isChain_cons_cons, ← logged_iff reports latest]
    constructor
    · rintro ⟨_, hkeys, log, rest, rfl, hlog, hrest⟩
      obtain ⟨hfirst, hlater⟩ := List.cons.inj hkeys
      exact ⟨fits_of_delivers hfirst hlog, rest, hlater, hrest⟩
    · rintro ⟨hfits, rest, hkeys, hrest⟩
      exact ⟨deliveredLog previous latest :: rest, congrArg (((deliveredLog previous latest).map Change.key) :: ·) hkeys,
        _, rest, rfl, delivers_of_fits hfits, hrest⟩

/-- The changes of reports take what was held before them to what the last one holds. -/
theorem logged_follows : ∀ {reports : List Report} {previous : Report} {logs : List (List Change)},
    Logged previous reports logs → ∀ {x : Fin 8 ⊕ UInt8}, x ≠ .inr 0 →
      follows (previous.holds x) (about x logs.flatten) = some ((reports.getLastD previous).holds x)
  | [], _, _, rfl, _, _ => rfl
  | latest :: reports, previous, _, ⟨log, rest, rfl, hlog, hrest⟩, x, hx => by
    have hsplit : about x (log :: rest).flatten = about x log ++ about x rest.flatten := by
      rw [List.flatten_cons, about, List.filter_append, List.map_append]
      rfl
    rw [hsplit, follows_append, delivers_follows hlog hx, List.getLastD_cons]
    exact logged_follows hrest hx

/-- A session is delivered faithfully exactly if each of its reports fits what was held before it. -/
theorem session_delivers_iff (reports : List Report) :
    (∃ out, (∀ fuel ≥ 21, session fuel .zero reports = some out) ∧ Faithful reports out) ↔
      (Report.zero :: reports).IsChain Fits := by
  rw [← logged_iff]
  constructor
  · rintro ⟨out, hout, ⟨logs, hkeys, hlogged, -⟩, -⟩
    have hrun := (hout 21 (Nat.le_refl 21)).symm.trans (session_eq (Nat.le_refl 21) reports .zero)
    obtain rfl := Option.some.inj hrun
    exact ⟨logs, hkeys, hlogged⟩
  · rintro ⟨logs, hkeys, hlogged⟩
    refine ⟨_, fun fuel hfuel => session_eq hfuel reports .zero, ⟨logs, hkeys, hlogged, fun x hx => ?_⟩, rfl⟩
    have hzero : Report.zero.holds x = false := by
      cases x with
      | inl bit => exact Nat.zero_testBit _
      | inr code => simpa [Report.holds, Report.zero] using fun h : code = 0 => hx (congrArg Sum.inr h)
    rw [← hzero]
    exact logged_follows hlogged hx

/-- What a keyboard sends while more keys are held than it has slots for. -/
def rollOver : Report := ⟨0, 0, List.replicate 6 1, rfl⟩

/-- When the keys are let go after that, the code of it is released six times. -/
theorem rollOver_released : ¬ ∃ out, (∀ fuel ≥ 21, session fuel .zero [rollOver, .zero] = some out) ∧
    Faithful [rollOver, .zero] out := by
  rintro ⟨out, hout, ⟨logs, hkeys, hlogged, -⟩, -⟩
  have hrun := (hout 21 (Nat.le_refl 21)).symm.trans (session_eq (Nat.le_refl 21) [rollOver, .zero] .zero)
  obtain rfl := Option.some.inj hrun
  have hchain := (logged_iff [rollOver, .zero] .zero).mp ⟨logs, hkeys, hlogged⟩
  have hlast : Fits rollOver .zero := (List.isChain_cons_cons.mp (List.isChain_cons_cons.mp hchain).2).1
  revert hlast
  decide

end NanoChrono.Keyboard
