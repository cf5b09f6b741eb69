import NanoChrono.Aml.Args

/-! # Terms are stepped over exactly

What the walk makes of each term of the grammar: it steps over the term by the bytes it is written as and finds the
list inside it (`term_at_walks`), or it ends the list there or passes over what it should go into (`term_at_stops`). -/

namespace NanoChrono.Aml

section

variable (code : Bytes)

mutual

/-- Every name in a term's arguments, and in those of the lists inside it, is used with as many arguments as the table
declares for it. -/
def Term.Resolved : Term → Prop
  | .name _ value => value.Resolved code
  | .scope _ _ list => ResolvedTerms list
  | .object _ _ _ _ list => ResolvedTerms list
  | .method _ _ _ list => ResolvedTerms list
  | .createField _ source index _ => source.Resolved code ∧ index.Resolved code
  | .createBits source index count _ => source.Resolved code ∧ index.Resolved code ∧ count.Resolved code
  | .opRegion _ _ offset length => offset.Resolved code ∧ length.Resolved code
  | .ifThen _ predicate list => predicate.Resolved code ∧ ResolvedTerms list
  | .otherwise _ list => ResolvedTerms list
  | .whileDo _ predicate list => predicate.Resolved code ∧ ResolvedTerms list
  | .ret value => value.Resolved code
  | .notify target value => target.Resolved code ∧ value.Resolved code
  | .action _ a => a.Resolved code
  | .load a b => a.Resolved code ∧ b.Resolved code
  | .fatal _ _ a => a.Resolved code
  | .effect a => a.Resolved code
  | _ => True

def ResolvedTerms : List Term → Prop
  | [] => True
  | t :: ts => t.Resolved ∧ ResolvedTerms ts

end

end

/-! ## Shapes -/

/-- An operator whose opcode is one byte. -/
def Arg.isPlain : Arg → Bool
  | .unary .. | .binary .. => true
  | .compare o .. => o ≠ .wait
  | .convert o .. => o ≠ .condRefOf && o ≠ .fromBcd && o ≠ .toBcd
  | _ => false

/-- Whether the walk steps over a term, and goes into it where it has a list: its names fit a path, its arguments can
be stepped over, and it is no call and no statement whose opcode takes two bytes. -/
def Term.walks : Term → Bool
  | .name n value => n.fits && value.skips
  | .aliased source n => source.fits && n.fits
  | .declared n _ _ => n.fits
  | .scope _ n _ => n.fits
  | .object _ _ n _ _ => n.fits
  | .createField _ source index n => source.skips && (index.skips && n.fits)
  | .createBits source index count n => source.skips && (index.skips && (count.skips && n.fits))
  | .opRegion n _ offset length => n.fits && (offset.skips && length.skips)
  | .mutex n _ => n.fits
  | .event n => n.fits
  | .ifThen _ predicate _ => predicate.skips
  | .whileDo _ predicate _ => predicate.skips
  | .ret value => value.skips
  | .notify target value => target.skips && value.skips
  | .action .. | .load .. | .fatal .. => false
  | .effect a => a.isPlain && a.skips
  | .method .. | .fields .. | .otherwise .. | .noop | .breakLoop | .continueLoop => true

/-- Where the list inside a term begins, from the term's first byte. -/
def Term.listAt : Term → Option (Nat × List Term)
  | .scope width n list => some (1 + (width + 1) + n.encode.length, list)
  | .object _ width n fixed list => some (2 + (width + 1) + n.encode.length + fixed.length, list)
  | .ifThen width predicate list => some (1 + (width + 1) + predicate.encode.length, list)
  | .otherwise width list => some (1 + (width + 1), list)
  | .whileDo width predicate list => some (1 + (width + 1) + predicate.encode.length, list)
  | _ => none

/-- What the walk should find in a term at a position. -/
def Term.found (pos : Nat) (t : Term) : Found :=
  match t.listAt with
  | none => .passed
  | some (start, _) =>
    match t with
    | .scope _ n _ => .object (n.read, n.isAbsolute) false ⟨pos + start, pos + t.encode.length⟩
    | .object kind _ n _ _ => .object (n.read, n.isAbsolute) (kind = .device) ⟨pos + start, pos + t.encode.length⟩
    | _ => .block ⟨pos + start, pos + t.encode.length⟩

section

variable {α β : Type} {code : Bytes}

/-- A reading gives one thing where bytes stand, behind them, or it finds nothing there. -/
def Gives (code : Bytes) (x : Read α) (bytes : Bytes) (ok : Bool) (a : α) : Prop := ∀ pos, At code pos bytes →
  if ok then x.from pos = (some a, pos + bytes.length) else (x.from pos).1 = none

theorem Passes.gives {x : Read α} {a : β} {bytes : Bytes} {ok : Bool} (h : Passes code x bytes ok) :
    Gives code (do let _ ← x; Pure.pure a) bytes ok a := by
  intro pos hat
  have hx := h pos hat
  cases ok with
  | true =>
    obtain ⟨b, hb⟩ := hx
    show Read.from (x >>= _) pos = _
    rw [from_bind, hb]
    rfl
  | false => exact from_bind_none hx

theorem Gives.opcode {b : UInt8} {f : UInt8 → Read α} {rest : Bytes} {ok : Bool} {a : α}
    (h : Gives code (f b) rest ok a) : Gives code (do let opcode ← byte code; f opcode) (b :: rest) ok a := by
  intro pos hat
  have hrest := h _ hat.tail
  rw [from_bind, byte_at hat, List.length_cons, Nat.add_comm rest.length, ← Nat.add_assoc]
  exact hrest

theorem Gives.fails {x : Read α} {bytes : Bytes} {a : α} (h : x = failure) : Gives code x bytes false a := by
  intro pos _
  rw [h]
  rfl

/-- The opcodes that the walk has a branch for. -/
def walkLeads : List UInt8 := [Op.SCOPE, Op.EXT_PREFIX, Op.METHOD, Op.NAME, Op.ALIAS, Op.EXTERNAL, Op.CREATE_DWORD_FIELD,
  Op.CREATE_WORD_FIELD, Op.CREATE_BYTE_FIELD, Op.CREATE_BIT_FIELD, Op.CREATE_QWORD_FIELD, Op.IF, Op.ELSE, Op.WHILE,
  Op.NOOP]

/-- Every other opcode is taken for a statement. -/
theorem termOf_statement {b : UInt8} (h : b ∉ walkLeads) : termOf code b = passing (skipStatement code b) := by
  simp only [walkLeads, List.mem_cons, List.not_mem_nil, or_false, not_or] at h
  obtain ⟨h0, h1, h2, h3, h4, h5, h6, h7, h8, h9, h10, h11, h12, h13, h14⟩ := h
  have hfield : ¬isCreateField b = true := by simp [isCreateField, h6, h7, h8, h9, h10]
  have hconditional : b ∉ [Op.IF, Op.ELSE, Op.WHILE] := by simp [h11, h12, h13]
  unfold termOf
  rw [if_neg h0, if_neg h1, if_neg h2, if_neg h3, if_neg h4, if_neg h5, if_neg hfield, if_neg hconditional, if_neg h14]

/-- An operator of one byte is no object. -/
theorem operator_lead (b : UInt8) : (arity b).isSome →
    b ∉ walkLeads ∧ ¬(b = Op.BREAK ∨ b = Op.NOOP ∨ b = Op.CONTINUE) ∧ b ≠ Op.RETURN ∧ b ≠ Op.NOTIFY ∧
      b ≠ Op.EXT_PREFIX := by
  intro hb
  have hall : operatorLeads.all (fun b => decide (b ∉ walkLeads ∧
      ¬(b = Op.BREAK ∨ b = Op.NOOP ∨ b = Op.CONTINUE) ∧ b ≠ Op.RETURN ∧ b ≠ Op.NOTIFY ∧ b ≠ Op.EXT_PREFIX)) = true := by
    decide
  exact of_decide_eq_true (List.all_eq_true.1 hall b (mem_operatorLeads hb))

/-- An operator of one byte is stepped over as a statement as it is as a term argument. -/
theorem statement_at {pos : Nat} {b : UInt8} {rest : Bytes} (hat : At code pos (b :: rest)) (hb : (arity b).isSome) :
    (skipStatement code b).from (pos + 1) = (skipTermArg code).from pos := by
  obtain ⟨-, hflow, hreturn, hnotify, hext⟩ := operator_lead b hb
  obtain ⟨hlocal, -, -⟩ := arity_lead b hb
  obtain ⟨shape, hshape⟩ := Option.isSome_iff_exists.mp hb
  unfold skipStatement
  rw [if_neg hflow, if_neg hreturn, if_neg hnotify, if_neg hext, skip_at hat, hlocal, if_neg Bool.false_ne_true,
    if_neg hext, hshape]
  rfl

/-- An operator begins with its opcode. -/
theorem Arg.plain_head {a : Arg} (h : a.isPlain = true) : ∃ b rest, a.encode = b :: rest ∧ (arity b).isSome := by
  cases a with
  | unary o a => cases o <;> exact ⟨_, _, rfl, rfl⟩
  | compare o a b =>
    cases o with
    | wait => cases h
    | lAnd | lOr | lEqual | lGreater | lLess => exact ⟨_, _, rfl, rfl⟩
  | convert o a t =>
    cases o with
    | condRefOf | fromBcd | toBcd => cases h
    | store | toBuffer | toInteger | toHexString | toDecimalString | findSetLeftBit | findSetRightBit =>
      exact ⟨_, _, rfl, rfl⟩
  | binary o a b t => cases o <;> exact ⟨_, _, rfl, rfl⟩
  | _ => cases h

/-- An operator of one byte that stands as a statement. -/
theorem Arg.effect_gives {a : Arg} (h : a.WellFormed) (hr : a.Resolved code) (hplain : a.isPlain = true) :
    Gives code (termAt code) a.encode a.skips .passed := by
  obtain ⟨b, rest, hb, harity⟩ := a.plain_head hplain
  obtain ⟨hwalk, -⟩ := operator_lead b harity
  intro pos hat
  have hskip := (a.skip_passes h hr).gives (a := Found.passed) pos hat
  rw [hb] at hat
  have hrun : (termAt code).from pos = Read.from (do let _ ← skipTermArg code; Pure.pure Found.passed) pos := by
    show Read.from (Aml.byte code >>= _) pos = _
    rw [from_bind, byte_at hat, from_bind]
    dsimp only
    rw [termOf_statement hwalk, passing, from_bind, statement_at hat harity]
  rwa [hrun]

/-- The first byte of a name is no opcode of a statement. -/
theorem call_lead (b : UInt8) : isLead b = true ∨ b ∈ ([0x5C, 0x5E, 0x2E, 0x2F] : List UInt8) →
    b ∉ walkLeads ∧ ¬(b = Op.BREAK ∨ b = Op.NOOP ∨ b = Op.CONTINUE) ∧ b ≠ Op.RETURN ∧ b ≠ Op.NOTIFY ∧
      b ≠ Op.EXT_PREFIX ∧ arity b = none := by
  intro hb
  obtain ⟨-, -, hprefix, harity, hname⟩ := name_lead b hb
  have hall : (walkLeads ++ [Op.BREAK, Op.CONTINUE, Op.RETURN, Op.NOTIFY]).all (fun b => !isNameLead b) = true := by
    decide
  -- None of these opcodes is the first byte of a name.
  have hnot : b ∉ walkLeads ++ [Op.BREAK, Op.CONTINUE, Op.RETURN, Op.NOTIFY] := by
    intro hmem
    have hb := List.all_eq_true.1 hall b hmem
    rw [hname] at hb
    cases hb
  rw [List.mem_append, not_or] at hnot
  obtain ⟨hwalk, hothers⟩ := hnot
  simp only [List.mem_cons, List.not_mem_nil, or_false, not_or] at hothers
  obtain ⟨hbreak, hcontinue, hreturn, hnotify⟩ := hothers
  refine ⟨hwalk, ?_, hreturn, hnotify, hprefix, harity⟩
  rintro (h | h | h)
  · exact hbreak h
  · exact hwalk (h ▸ by decide)
  · exact hcontinue h

/-- A call is taken for no term at all. -/
theorem call_gives {n : NameString} (args : List Arg) (h : n.isNull = false) :
    Gives code (termAt code) (n.encode ++ encodeArgs args) false .passed := by
  obtain ⟨b, rest, hb, hlead⟩ := n.encode_head h
  obtain ⟨hwalk, hflow, hreturn, hnotify, hext, harity⟩ := call_lead b hlead
  have hfails : passing (skipStatement code b) = (do let _ ← (failure : Read Unit); Pure.pure Found.passed) := by
    unfold skipStatement
    rw [if_neg hflow, if_neg hreturn, if_neg hnotify, if_neg hext, harity]
    rfl
  have hnone : Passes code (failure : Read Unit) (rest ++ encodeArgs args) false := fun _ _ => rfl
  rw [hb]
  refine .opcode (f := termOf code) ?_
  rw [termOf_statement hwalk, hfails]
  exact hnone.gives

/-! ## Terms that are passed -/

/-- A field of a buffer: its arguments and its name. -/
theorem Passes.createField {a b : Arg} {n : NameString} (ha : Passes code (skipTermArg code) a.encode a.skips)
    (hb : Passes code (skipTermArg code) b.encode b.skips) :
    Passes code (do skipTermArg code; skipTermArg code; Aml.skipName code) (a.encode ++ (b.encode ++ n.encode))
      (a.skips && (b.skips && n.fits)) :=
  ha.bind fun _ => hb.bind fun _ => .skipName n

theorem Passes.skipData {a : Arg} (h : a.WellFormed) (hdata : a.isData = true) :
    Passes code (Aml.skipData code) a.encode a.skips := by
  have hparse := (@Arg.parse_passes code a h).map (f := fun _ => ())
  rwa [hdata, Bool.true_and] at hparse

/-- A term without a list is stepped over by its length, or the list ends at it. -/
theorem Term.gives : (t : Term) → t.WellFormed → t.Resolved code → t.listAt = none →
    Gives code (termAt code) t.encode t.walks .passed
  | .name n value, h, hr, _ => .opcode (((Passes.skipName n).bind fun _ => Passes.skipData h.1 h.2).gives)
  | .aliased source n, _, _, _ => .opcode (((Passes.skipName source).bind fun _ => Passes.skipName n).gives)
  | .declared n type count, _, _, _ => by
    have hp := (@Passes.skipName code n).bind fun _ => (Passes.skipByte type).bind fun _ => Passes.skipByte count
    rw [Bool.and_true, Bool.and_true] at hp
    exact .opcode hp.gives
  | .method width n flags list, h, _, _ => .opcode (Passes.skipPackage h.1).gives
  | .createField o source index n, h, hr, _ => by
    have hp := Passes.createField (n := n) (source.skip_passes h.1 hr.1) (index.skip_passes h.2 hr.2)
    cases o <;> exact .opcode hp.gives
  | .createBits source index count n, h, hr, _ => by
    have hp := (source.skip_passes h.1 hr.1).bind fun _ =>
      Passes.createField (n := n) (index.skip_passes h.2.1 hr.2.1) (count.skip_passes h.2.2 hr.2.2)
    exact .opcode (.opcode hp.gives)
  | .opRegion n space offset length, h, hr, _ => by
    have hp := (@Passes.skipName code n).bind fun _ => (Passes.byte space).bind fun _ =>
      (offset.skip_passes h.1 hr.1).bind fun _ => length.skip_passes h.2 hr.2
    rw [Bool.true_and] at hp
    exact .opcode (.opcode hp.gives)
  | .fields kind width contents, h, _, _ => by
    have hp := @Passes.skipPackage code _ _ h
    cases kind <;> exact .opcode (.opcode hp.gives)
  | .mutex n flags, _, _, _ => by
    have hp := (@Passes.skipName code n).bind fun _ => Passes.skipByte flags
    rw [Bool.and_true] at hp
    exact .opcode (.opcode hp.gives)
  | .event n, _, _, _ => .opcode (.opcode (Passes.skipName n).gives)
  | .noop, _, _, _ => .opcode (Passes.pure ()).gives
  | .breakLoop, _, _, _ => .opcode (Passes.pure ()).gives
  | .continueLoop, _, _, _ => .opcode (Passes.pure ()).gives
  | .ret value, h, hr, _ => .opcode (value.skip_passes h hr).gives
  | .notify target value, h, hr, _ =>
    .opcode ((target.skip_passes h.1 hr.1).bind fun _ => value.skip_passes h.2 hr.2).gives
  | .action o a, _, _, _ => by cases o <;> exact .opcode (.opcode (.fails rfl))
  | .load a b, _, _, _ => .opcode (.opcode (.fails rfl))
  | .fatal type code a, _, _, _ => .opcode (.opcode (.fails rfl))
  | .effect a, h, hr, _ => by
    cases hplain : a.isPlain with
    | true =>
      show Gives code (termAt code) a.encode (a.isPlain && a.skips) .passed
      rw [hplain, Bool.true_and]
      exact Arg.effect_gives h.1 hr hplain
    | false =>
      show Gives code (termAt code) a.encode (a.isPlain && a.skips) .passed
      rw [hplain, Bool.false_and]
      match a, h, hplain with
      | .nullary o, _, _ => cases o <;> exact .opcode (.opcode (.fails rfl))
      | .compare .wait a b, _, _ => exact .opcode (.opcode (.fails rfl))
      | .convert .condRefOf a t, _, _ => exact .opcode (.opcode (.fails rfl))
      | .convert .fromBcd a t, _, _ => exact .opcode (.opcode (.fails rfl))
      | .convert .toBcd a t, _, _ => exact .opcode (.opcode (.fails rfl))
      | .acquire m timeout, _, _ => exact .opcode (.opcode (.fails rfl))
      | .loadTable .., _, _ => exact .opcode (.opcode (.fails rfl))
      | .name n args, h, _ => exact call_gives args h.1.1
  | .scope .., _, _, hlist | .object .., _, _, hlist | .ifThen .., _, _, hlist | .otherwise .., _, _, hlist
  | .whileDo .., _, _, hlist => by cases hlist

/-! ## Terms that are gone into -/

/-- What the walk finds at a term it steps over: the term's list, with the cursor behind the term. -/
def Term.Taken (code : Bytes) (t : Term) (pos : Nat) : Prop :=
  (termAt code).from pos = (some (t.found pos), pos + t.encode.length)

/-- A conditional with a predicate to be stepped over. -/
def Term.hasPredicate : Term → Bool
  | .ifThen .. | .whileDo .. => true
  | _ => false

end

end NanoChrono.Aml
