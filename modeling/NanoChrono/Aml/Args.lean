import NanoChrono.Aml.Encoded

/-! # Term arguments are stepped over exactly

A term argument is stepped over by the bytes it is written as, or not at all (`Arg.skip_passes`): it is if no name in
it is too long for a path and every buffer in it has a constant size (`Arg.skips`). A method call is told from a name
by its arity alone, so that every name has to be used with as many arguments as are found for it (`Arg.Resolved`). -/

namespace NanoChrono.Aml

section

variable (code : Bytes)

mutual

/-- Every name is used with as many arguments as the table declares for its last segment. -/
def Arg.Resolved : Arg → Prop
  | .buffer _ size _ => size.Resolved
  | .unary _ a => a.Resolved
  | .compare _ a b => a.Resolved ∧ b.Resolved
  | .convert _ a target => a.Resolved ∧ target.Resolved
  | .binary _ a b target => a.Resolved ∧ b.Resolved ∧ target.Resolved
  | .acquire mutex _ => mutex.Resolved
  | .loadTable a b c d e f target =>
    a.Resolved ∧ b.Resolved ∧ c.Resolved ∧ d.Resolved ∧ e.Resolved ∧ f.Resolved ∧ target.Resolved
  | .name n args => (n.segs.getLast?.bind (methodArity code)).getD 0 = args.length ∧ ResolvedArgs args
  | _ => True

def ResolvedArgs : List Arg → Prop
  | [] => True
  | a :: args => a.Resolved ∧ ResolvedArgs args

end

end

mutual

/-- Whether the reader can step over a term argument: its names fit a path and its buffers have constant sizes. -/
def Arg.skips : Arg → Bool
  | .buffer _ size _ => size.isData && size.skips
  | .unary _ a => a.skips
  | .compare _ a b => a.skips && b.skips
  | .convert _ a target => a.skips && target.skips
  | .binary _ a b target => a.skips && (b.skips && target.skips)
  | .acquire mutex _ => mutex.skips
  | .loadTable a b c d e f target =>
    a.skips && (b.skips && (c.skips && (d.skips && (e.skips && (f.skips && target.skips)))))
  | .name n args => n.fits && skipsAll args
  | _ => true

def skipsAll : List Arg → Bool
  | [] => true
  | a :: args => a.skips && skipsAll args

end

section

variable {α β : Type} {code : Bytes}

/-- A reading that finds one thing where bytes stand. -/
def Reads (code : Bytes) (x : Read α) (bytes : Bytes) (a : α) : Prop := ∀ pos, At code pos bytes →
  x.from pos = (some a, pos + bytes.length)

theorem Reads.bind {x : Read α} {f : α → Read β} {bytes rest : Bytes} {a : α} {ok : Bool} (hx : Reads code x bytes a)
    (hf : Passes code (f a) rest ok) : Passes code (x >>= f) (bytes ++ rest) ok := by
  intro pos hat
  have hrest := hf _ hat.right
  rw [from_bind, hx pos hat.left, List.length_append, ← Nat.add_assoc]
  exact hrest

theorem Passes.bind_false {x : Read α} {f : α → Read β} {bytes rest : Bytes} (hx : Passes code x bytes false) :
    Passes code (x >>= f) (bytes ++ rest) false := by
  intro pos hat
  exact from_bind_none (hx pos hat.left)

/-! ## Data objects -/

/-- The opcodes of data objects. -/
def dataLeads : List UInt8 := [Op.ZERO, Op.ONE, Op.ONES, Op.BYTE_PREFIX, Op.WORD_PREFIX, Op.DWORD_PREFIX, Op.QWORD_PREFIX,
  Op.STRING_PREFIX, Op.BUFFER, Op.PACKAGE, Op.VAR_PACKAGE]

theorem dataOf_failure {inner : Read Value} {b : UInt8} (h : b ∉ dataLeads) : dataOf code inner b = failure := by
  simp only [dataLeads, List.mem_cons, List.not_mem_nil, or_false, not_or] at h
  obtain ⟨h0, h1, h2, h3, h4, h5, h6, h7, h8, h9, h10⟩ := h
  unfold dataOf
  rw [if_neg h0, if_neg h1, if_neg h2, if_neg h3, if_neg h4, if_neg h5, if_neg h6, if_neg h7, if_neg h8,
    if_neg (not_or.mpr ⟨h9, h10⟩)]

/-- Nothing is read as data that does not begin as data does. -/
theorem parse_fails {b : UInt8} {rest : Bytes} (h : b ∉ dataLeads) : Passes code (parseData code) (b :: rest) false := by
  intro pos hat
  show ((parseData code).from pos).1 = none
  rw [parse_data_eq]
  show (Read.from (byte code >>= _) pos).1 = none
  rw [from_bind, byte_at hat]
  dsimp only
  rw [dataOf_failure h]
  rfl

/-- A data object is read as its first byte says. -/
theorem parse_passes {b : UInt8} {rest : Bytes} {ok : Bool} (h : Passes code (dataOf code (parseData code) b) rest ok) :
    Passes code (parseData code) (b :: rest) ok := by
  refine .of_eq (fun pos _ => parse_data_eq code pos) ?_
  have hbyte : Reads code (byte code) [b] b := fun _ hat => byte_at hat
  exact hbyte.bind h

theorem integer_passes {n value : Nat} (hn : 0 < n) (f : Nat → Value) :
    Passes code (do let n ← integer code n; pure (f n)) (leBytes n value) true := by
  have hlen := leBytes_length n value
  have hne : leBytes n value ≠ [] := by
    intro hnil
    rw [hnil] at hlen
    exact absurd hlen (Nat.ne_of_lt hn)
  have htake : Passes code (take code n) (leBytes n value) true := by
    have h := @Passes.take code _ hne
    rwa [hlen] at h
  exact (htake.map (f := leValue)).map

/-- A string is read to its null. -/
theorem textEnd_passes {text : Bytes} (h : 0 ∉ text) : Passes code (textEnd code) (text ++ [0x00]) true := by
  intro pos hat
  have hend := hat.le (by simp)
  have hrun : ((code.drop pos).takeWhile (· ≠ 0)).length = text.length := by
    obtain ⟨rest, hrest⟩ := hat
    rw [← hrest, List.append_assoc, List.takeWhile_append_of_pos]
    · simp
    · intro b hb
      exact decide_eq_true fun h0 => h (h0 ▸ hb)
  refine ⟨(), ?_⟩
  show (if pos + ((code.drop pos).takeWhile (· ≠ 0)).length < code.length then
    (some (), pos + ((code.drop pos).takeWhile (· ≠ 0)).length + 1) else (none, max pos code.length)) = _
  rw [hrun, if_pos (by rw [List.length_append, List.length_singleton] at hend; omega), List.length_append]
  rfl

/-- The body of a buffer: its size is read, and what is left of the package is its contents. -/
theorem buffer_passes {width : Nat} {size contents : Bytes} {ok : Bool} (hfits : PackFits width (size ++ contents))
    (hsize : Passes code (parseData code) size ok) : Passes code (do
      let package ← package code
      let _ ← parseData code
      let start ← position
      goto package.stop
      pure (Value.buffer ⟨start, package.stop⟩)) (pack width (size ++ contents)) ok := by
  intro pos hat
  have hinner := hsize _ hat.body.left
  rw [from_bind, package_at hfits hat]
  dsimp only
  cases ok with
  | false => exact from_bind_none hinner
  | true =>
    obtain ⟨v, hv⟩ := hinner
    rw [from_bind, hv]
    refine ⟨_, Prod.ext rfl ?_⟩
    rw [pack_length, ← Nat.add_assoc, ← Nat.add_assoc]
    rfl

/-- What a name begins with. -/
theorem NameString.encode_head (n : NameString) (h : n.isNull = false) :
    ∃ b rest, n.encode = b :: rest ∧ (isLead b = true ∨ b ∈ ([0x5C, 0x5E, 0x2E, 0x2F] : List UInt8)) := by
  obtain ⟨root, path⟩ := n
  cases root with
  | absolute => exact ⟨0x5C, _, rfl, .inr (by decide)⟩
  | parents k =>
    cases k with
    | succ k => exact ⟨0x5E, _, rfl, .inr (by decide)⟩
    | zero =>
      cases path with
      | null => cases h
      | seg s =>
        obtain ⟨b, rest, hb, hl⟩ := s.encode_head
        exact ⟨b, rest, hb, .inl hl⟩
      | dual s t => exact ⟨0x2E, _, rfl, .inr (by decide)⟩
      | multi segs hcount => exact ⟨0x2F, _, rfl, .inr (by decide)⟩

/-- A data object is not taken for anything else. -/
theorem data_lead (b : UInt8) : b ∈ dataLeads →
    isLocalOrArg b = false ∧ b ≠ Op.EXT_PREFIX ∧ arity b = none ∧ isNameLead b = false := by
  intro hb
  have hall : dataLeads.all (fun b => decide (isLocalOrArg b = false ∧ b ≠ Op.EXT_PREFIX ∧ arity b = none ∧
      isNameLead b = false)) = true := by decide
  exact of_decide_eq_true (List.all_eq_true.1 hall b hb)

theorem local_lead (b : UInt8) : isLocalOrArg b = true → b ∉ dataLeads := by
  intro hb hdata
  rw [(data_lead b hdata).1] at hb
  cases hb

/-- The operators of one byte. -/
def operatorLeads : List UInt8 := [Op.ADD, Op.SUBTRACT, Op.MULTIPLY, Op.SHIFT_LEFT, Op.SHIFT_RIGHT, Op.AND, Op.NAND,
  Op.OR, Op.NOR, Op.XOR, Op.CONCAT, Op.INDEX, Op.LAND, Op.LOR, Op.LEQUAL, Op.LGREATER, Op.LLESS, Op.TO_BUFFER,
  Op.TO_INTEGER, Op.TO_HEX_STRING, Op.TO_DECIMAL_STRING, Op.FIND_SET_LEFT_BIT, Op.FIND_SET_RIGHT_BIT, Op.STORE,
  Op.LNOT, Op.SIZE_OF, Op.DEREF_OF, Op.REF_OF, Op.INCREMENT, Op.DECREMENT]

theorem mem_operatorLeads {b : UInt8} (h : (arity b).isSome) : b ∈ operatorLeads := by
  unfold arity at h
  split_ifs at h with h₁ h₂ h₃ h₄
  · exact List.mem_of_mem_take (show b ∈ operatorLeads.take 12 from h₁)
  · exact List.mem_of_mem_drop (List.mem_of_mem_take (show b ∈ (operatorLeads.drop 12).take 5 from h₂))
  · exact List.mem_of_mem_drop (List.mem_of_mem_take (show b ∈ (operatorLeads.drop 17).take 7 from h₃))
  · exact List.mem_of_mem_drop (List.mem_of_mem_take (show b ∈ (operatorLeads.drop 24).take 6 from h₄))
  · cases h

/-- An operator of one byte. -/
theorem arity_lead (b : UInt8) : (arity b).isSome → isLocalOrArg b = false ∧ b ≠ Op.EXT_PREFIX ∧ b ∉ dataLeads := by
  intro hb
  have hall : operatorLeads.all (fun b => decide (isLocalOrArg b = false ∧ b ≠ Op.EXT_PREFIX)) = true := by
    decide
  obtain ⟨hlocal, hne⟩ := of_decide_eq_true (List.all_eq_true.1 hall b (mem_operatorLeads hb))
  refine ⟨hlocal, hne, fun hdata => ?_⟩
  rw [(data_lead b hdata).2.2.1] at hb
  cases hb

/-- The first byte of a name is no opcode of data or of an operator. -/
theorem name_lead (b : UInt8) : isLead b = true ∨ b ∈ ([0x5C, 0x5E, 0x2E, 0x2F] : List UInt8) →
    b ∉ dataLeads ∧ isLocalOrArg b = false ∧ b ≠ Op.EXT_PREFIX ∧ arity b = none ∧ isNameLead b = true := by
  intro hb
  have hname : isNameLead b = true := by
    simp only [isLead, List.mem_cons, List.not_mem_nil, or_false, Bool.or_eq_true, decide_eq_true_eq] at hb
    simp only [isNameLead, Bool.or_eq_true, decide_eq_true_eq]
    tauto
  have hall : operatorLeads.all (fun b => !isNameLead b) = true := by decide
  -- The letters and the signs of a name come before the locals and the arguments.
  have hlocal : (List.range 15).all (fun n => !isNameLead (.ofNat (0x60 + n))) = true := by decide
  refine ⟨fun hdata => ?_, ?_, ?_, ?_, hname⟩
  · rw [(data_lead b hdata).2.2.2] at hname
    cases hname
  · by_contra hne
    have hin : 0x60 ≤ b.toNat ∧ b.toNat < 0x60 + 15 := by
      simp only [isLocalOrArg, Bool.not_eq_false, Bool.or_eq_true, Bool.and_eq_true, decide_eq_true_eq,
        UInt8.le_iff_toNat_le] at hne
      change (0x60 ≤ b.toNat ∧ b.toNat ≤ 0x67) ∨ (0x68 ≤ b.toNat ∧ b.toNat ≤ 0x6E) at hne
      omega
    have hb := List.all_eq_true.1 hlocal (b.toNat - 0x60) (List.mem_range.2 (by omega))
    rw [Nat.add_sub_cancel' hin.1, UInt8.ofNat_toNat, hname] at hb
    cases hb
  · rintro rfl
    revert hname
    decide
  · by_contra hsome
    have hb := List.all_eq_true.1 hall b (mem_operatorLeads (Option.isSome_iff_ne_none.2 hsome))
    rw [hname] at hb
    cases hb

theorem localVar_lead (i : Fin 8) : isLocalOrArg (0x60 + .ofNat i.val) = true := by revert i; decide

theorem argVar_lead (i : Fin 7) : isLocalOrArg (0x68 + .ofNat i.val) = true := by revert i; decide

/-- What a term argument begins with, if it is no data object. -/
theorem Arg.encode_head (a : Arg) (h : a.WellFormed) (hdata : a.isData = false) :
    ∃ b rest, a.encode = b :: rest ∧ b ∉ dataLeads := by
  cases a with
  | zero | one | ones | byte | word | dword | qword | string | buffer | package => cases hdata
  | localVar i => exact ⟨_, [], rfl, local_lead _ (localVar_lead i)⟩
  | argVar i => exact ⟨_, [], rfl, local_lead _ (argVar_lead i)⟩
  | nullary o => cases o <;> exact ⟨_, _, rfl, by decide⟩
  | unary o a => cases o <;> exact ⟨_, _, rfl, by decide⟩
  | compare o a b => cases o <;> exact ⟨_, _, rfl, by decide⟩
  | convert o a t => cases o <;> exact ⟨_, _, rfl, by decide⟩
  | binary o a b t => cases o <;> exact ⟨_, _, rfl, by decide⟩
  | acquire m t => exact ⟨_, _, rfl, by decide⟩
  | loadTable => exact ⟨_, _, rfl, by decide⟩
  | name n args =>
    obtain ⟨b, rest, hb, hl⟩ := n.encode_head h.1
    exact ⟨b, rest ++ encodeArgs args, congrArg (· ++ encodeArgs args) hb, (name_lead b hl).1⟩

/-- A data object is read by its length where the sizes of its buffers are data, and nothing else is read as data. -/
theorem Arg.parse_passes : (a : Arg) → a.WellFormed →
    Passes code (parseData code) a.encode (a.isData && a.skips)
  | .zero, _ => Aml.parse_passes (.pure _)
  | .one, _ => Aml.parse_passes (.pure _)
  | .ones, _ => Aml.parse_passes (.pure _)
  | .byte v, _ => Aml.parse_passes (integer_passes (by decide) fun n => .integer (.ofNat n))
  | .word v, _ => Aml.parse_passes (integer_passes (by decide) fun n => .integer (.ofNat n))
  | .dword v, _ => Aml.parse_passes (integer_passes (by decide) fun n => .integer (.ofNat n))
  | .qword v, _ => Aml.parse_passes (integer_passes (by decide) fun n => .integer (.ofNat n))
  | .string text, h => by
    refine Aml.parse_passes ?_
    intro pos hat
    obtain ⟨u, hend⟩ := textEnd_passes h pos hat
    refine ⟨.text ⟨pos, pos + (text ++ [0x00]).length - 1⟩, ?_⟩
    show Read.from (textEnd code >>= _) pos = _
    rw [from_bind, hend]
    rfl
  | .buffer width size contents, h => Aml.parse_passes (buffer_passes h.1 (size.parse_passes h.2))
  | .package width varies contents, h => by
    have hpack : Passes code (do
        let package ← Aml.package code
        goto package.stop
        pure (Value.package package)) (pack width contents) true := by
      intro pos hat
      refine ⟨.package ⟨pos + width + 1, pos + width + 1 + contents.length⟩, ?_⟩
      rw [from_bind, package_at h hat, pack_length, ← Nat.add_assoc, ← Nat.add_assoc]
      rfl
    cases varies with
    | true => exact Aml.parse_passes hpack
    | false => exact Aml.parse_passes hpack
  | .localVar i, h | .argVar i, h | .nullary o, h | .unary o a, h | .compare o a b, h | .convert o a t, h
  | .binary o a b t, h | .acquire m t, h | .loadTable a b c d e f t, h | .name n args, h => by
    obtain ⟨b, rest, hb, hlead⟩ := Arg.encode_head _ h rfl
    rw [hb]
    exact parse_fails hlead

/-! ## Term arguments -/

/-- What a term argument is stepped over by, from its first byte on. -/
theorem skip_at {pos : Nat} {b : UInt8} {rest : Bytes} (h : At code pos (b :: rest)) :
    (skipTermArg code).from pos = Read.from (
      if isLocalOrArg b then advance 1
      else if b = Op.EXT_PREFIX then do
        let extended ← peekNext code
        match extendedArity extended with
        | none => failure
        | some shape => do
          advance 2
          extendedOperands code (skipTermArg code) extended shape
      else
        match arity b with
        | some shape => do
          advance 1
          operands code (skipTermArg code) shape
        | none =>
          if isNameLead b then do
            let named ← name code
            times (skipTermArg code) ((named.1.leaf.bind (methodArity code)).getD 0)
          else skipData code) pos := by
  rw [skip_term_arg_eq]
  show Read.from (peek code >>= _) pos = _
  rewrite [from_bind, peek_at h]
  rfl

/-- A target is stepped over as a term argument is. -/
theorem skip_target_eq (pos : Nat) : (skipTarget code).from pos = (skipTermArg code).from pos := by
  show Read.from (peek code >>= _) pos = _
  rw [from_bind]
  cases hb : code[pos]? with
  | none =>
    have hpeek : (peek code).from pos = (none, pos) := congrArg (·, pos) hb
    rw [hpeek, skip_term_arg_eq]
    show _ = Read.from (peek code >>= _) pos
    rw [from_bind, hpeek]
  | some b =>
    have hat : At code pos [b] := by
      obtain ⟨hlt, hget⟩ := List.getElem?_eq_some_iff.mp hb
      exact ⟨code.drop (pos + 1), by rw [← hget]; exact (List.drop_eq_getElem_cons hlt).symm⟩
    rw [peek_at hat]
    dsimp only
    split
    · rename_i hzero
      subst hzero
      -- The null target is the constant zero.
      have hparse : (parseData code).from pos = (some (.integer 0), pos + 1) := by
        rw [parse_data_eq]
        show Read.from (byte code >>= _) pos = _
        rw [from_bind, byte_at hat]
        rfl
      rw [skip_at hat]
      show _ = Read.from (parseData code >>= _) pos
      rw [from_bind, hparse]
      rfl
    · split
      · rename_i hlocal
        rw [skip_at hat, if_pos hlocal]
      · rfl

section

variable {b e : UInt8} {bytes : Bytes} {shape : Nat × Bool} {ok : Bool}

/-- A data object as a term argument. -/
theorem Passes.data (hb : b ∈ dataLeads) (h : Passes code (parseData code) (b :: bytes) ok) :
    Passes code (skipTermArg code) (b :: bytes) ok := by
  refine .of_eq (fun pos hat => ?_) (h.map (f := fun _ => ()))
  obtain ⟨hlocal, hext, harity, hname⟩ := data_lead b hb
  rw [skip_at hat, hlocal, if_neg Bool.false_ne_true, if_neg hext, harity, hname]
  rfl

theorem Passes.local (hb : isLocalOrArg b = true) : Passes code (skipTermArg code) [b] true := by
  refine .of_eq (fun pos hat => ?_) (@Passes.advance _ [b] _ rfl)
  rw [skip_at hat, if_pos hb]
  rfl

/-- An operator of one byte, by its operands. -/
theorem Passes.operator (hb : arity b = some shape) (h : Passes code (operands code (skipTermArg code) shape) bytes ok) :
    Passes code (skipTermArg code) (b :: bytes) ok := by
  obtain ⟨hlocal, hext, -⟩ := arity_lead b (Option.isSome_of_eq_some hb)
  have hone : Reads code (Aml.advance 1) [b] () := fun _ _ => rfl
  refine .of_eq (fun pos hat => ?_) (hone.bind (f := fun _ => operands code (skipTermArg code) shape) h)
  rw [skip_at hat, hlocal, if_neg Bool.false_ne_true, if_neg hext, hb]

/-- An operator of two bytes, by its operands. -/
theorem Passes.extended (he : extendedArity e = some shape)
    (h : Passes code (extendedOperands code (skipTermArg code) e shape) bytes ok) :
    Passes code (skipTermArg code) (Op.EXT_PREFIX :: e :: bytes) ok := by
  have htwo : Reads code (Aml.advance 2) [Op.EXT_PREFIX, e] () := fun _ _ => rfl
  refine .of_eq (fun pos hat => ?_) (htwo.bind (f := fun _ => extendedOperands code (skipTermArg code) e shape) h)
  have hnext : (peekNext code).from pos = (some e, pos) := congrArg (·, pos) hat.tail.head
  rw [skip_at hat, if_neg (by decide), if_pos rfl, from_bind, hnext]
  dsimp only
  rw [he]

end

theorem forall_pair {P : α → Prop} {a b : α} (ha : P a) (hb : P b) : ∀ x ∈ [a, b], P x :=
  List.forall_mem_cons.mpr ⟨ha, List.forall_mem_singleton.mpr hb⟩

/-- So many term arguments, one after another. -/
theorem Passes.times {args : List Arg} (h : ∀ a ∈ args, Passes code (skipTermArg code) a.encode a.skips) :
    Passes code (times (skipTermArg code) args.length) (encodeArgs args) (skipsAll args) := by
  induction args with
  | nil => exact .pure ()
  | cons a args ih =>
    have hrest := ih fun a' ha' => h a' (List.mem_cons_of_mem a ha')
    exact (h a List.mem_cons_self).bind fun _ => hrest

/-- The operands of an operator without a target. -/
theorem Passes.plain {args : List Arg} (h : ∀ a ∈ args, Passes code (skipTermArg code) a.encode a.skips) :
    Passes code (operands code (skipTermArg code) (args.length, false)) (encodeArgs args) (skipsAll args) := by
  have hall := (Passes.times h).bind (f := fun _ => (Pure.pure () : Read Unit)) fun _ => .pure ()
  rwa [List.append_nil, Bool.and_true] at hall

/-- The operands of an operator with a target. -/
theorem Passes.targeted {args : List Arg} {target : Arg}
    (h : ∀ a ∈ args, Passes code (skipTermArg code) a.encode a.skips)
    (ht : Passes code (skipTermArg code) target.encode target.skips) :
    Passes code (operands code (skipTermArg code) (args.length, true)) (encodeArgs args ++ target.encode)
      (skipsAll args && target.skips) :=
  (Passes.times h).bind fun _ => .of_eq (fun pos _ => skip_target_eq pos) ht

/-- A two-byte operator other than `Acquire` is stepped over as one of a byte is. -/
theorem Passes.extendedOperator {e : UInt8} {bytes : Bytes} {shape : Nat × Bool} {ok : Bool}
    (he : extendedArity e = some shape) (hacquire : e ≠ Op.EXT_ACQUIRE)
    (h : Passes code (operands code (skipTermArg code) shape) bytes ok) :
    Passes code (skipTermArg code) (Op.EXT_PREFIX :: e :: bytes) ok := by
  refine .extended he ?_
  unfold extendedOperands
  rw [if_neg hacquire]
  exact h

theorem Passes.congr {α : Type} {x : Read α} {bytes bytes' : Bytes} {ok ok' : Bool} (h : Passes code x bytes ok)
    (hbytes : bytes = bytes') (hok : ok = ok') : Passes code x bytes' ok' := hbytes ▸ hok ▸ h

/-- A name, with the arguments that are found for it. -/
theorem Passes.called {n : NameString} {args : List Arg} (hnull : n.isNull = false)
    (harity : (n.segs.getLast?.bind (methodArity code)).getD 0 = args.length)
    (h : ∀ a ∈ args, Passes code (skipTermArg code) a.encode a.skips) :
    Passes code (skipTermArg code) (n.encode ++ encodeArgs args) (n.fits && skipsAll args) := by
  obtain ⟨b, rest, hb, hlead⟩ := n.encode_head hnull
  obtain ⟨-, hlocal, hext, hop, hname⟩ := name_lead b hlead
  have hcall : Passes code (do
      let named ← Aml.name code
      Aml.times (skipTermArg code) ((named.1.leaf.bind (methodArity code)).getD 0))
      (n.encode ++ encodeArgs args) (n.fits && skipsAll args) := by
    cases hfits : n.fits with
    | false =>
      have hfail := @Passes.name code n
      rw [hfits] at hfail
      exact hfail.bind_false
    | true =>
      have hread : Reads code (Aml.name code) n.encode (n.read, n.isAbsolute) := by
        intro pos hat
        have h := name_at n hat
        rwa [hfits] at h
      refine hread.bind ?_
      have hsegs : n.read.segments = n.segs :=
        (Path.pushAll_room n.segs (p := .root) (by simpa [Path.root] using of_decide_eq_true hfits)).1
      show Passes code (Aml.times (skipTermArg code) ((n.read.segments.getLast?.bind (methodArity code)).getD 0)) _ _
      rw [hsegs, harity]
      exact .times h
  refine .of_eq (fun pos hat => ?_) hcall
  have hat' : At code pos (b :: (rest ++ encodeArgs args)) := by
    rw [hb] at hat
    exact hat
  rw [skip_at hat', hlocal, if_neg Bool.false_ne_true, if_neg hext, hop]
  dsimp only
  rw [if_pos hname]

mutual

/-- A term argument is stepped over by its length if it can be, and if not nothing is found. -/
theorem Arg.skip_passes : (a : Arg) → a.WellFormed → a.Resolved code →
    Passes code (skipTermArg code) a.encode a.skips
  | .zero, h, _ => .data (by decide) (Arg.zero.parse_passes h)
  | .one, h, _ => .data (by decide) (Arg.one.parse_passes h)
  | .ones, h, _ => .data (by decide) (Arg.ones.parse_passes h)
  | .byte v, h, _ => .data (by decide) ((Arg.byte v).parse_passes h)
  | .word v, h, _ => .data (by decide) ((Arg.word v).parse_passes h)
  | .dword v, h, _ => .data (by decide) ((Arg.dword v).parse_passes h)
  | .qword v, h, _ => .data (by decide) ((Arg.qword v).parse_passes h)
  | .string text, h, _ => .data (by decide) ((Arg.string text).parse_passes h)
  | .buffer width size contents, h, _ => .data (by decide) ((Arg.buffer width size contents).parse_passes h)
  | .package width true contents, h, _ => .data (by decide) ((Arg.package width true contents).parse_passes h)
  | .package width false contents, h, _ => .data (by decide) ((Arg.package width false contents).parse_passes h)
  | .localVar i, _, _ => .local (localVar_lead i)
  | .argVar i, _, _ => .local (argVar_lead i)
  | .nullary o, _, _ => by
    have hnone : Passes code (operands code (skipTermArg code) (0, false)) [] true :=
      Passes.plain (List.forall_mem_nil _)
    cases o with
    | revision => exact .extendedOperator rfl (by decide) hnone
    | debug => exact .extendedOperator rfl (by decide) hnone
    | timer => exact .extendedOperator rfl (by decide) hnone
  | .unary o a, h, hr => by
    have hargs : Passes code (operands code (skipTermArg code) (1, false)) a.encode a.skips :=
      (Passes.plain (List.forall_mem_singleton.mpr (a.skip_passes h hr))).congr (by simp [encodeArgs])
        (by simp [skipsAll])
    cases o <;> exact .operator rfl hargs
  | .compare o a b, h, hr => by
    have hargs : Passes code (operands code (skipTermArg code) (2, false)) (a.encode ++ b.encode)
        (a.skips && b.skips) :=
      (Passes.plain (forall_pair (a.skip_passes h.1 hr.1) (b.skip_passes h.2 hr.2))).congr
        (by simp [encodeArgs]) (by simp [skipsAll])
    cases o with
    | wait => exact .extendedOperator rfl (by decide) hargs
    | lAnd | lOr | lEqual | lGreater | lLess => exact .operator rfl hargs
  | .convert o a target, h, hr => by
    have hargs : Passes code (operands code (skipTermArg code) (1, true)) (a.encode ++ target.encode)
        (a.skips && target.skips) :=
      (Passes.targeted (List.forall_mem_singleton.mpr (a.skip_passes h.1 hr.1)) (target.skip_passes h.2 hr.2)).congr
        (by simp [encodeArgs]) (by simp [skipsAll])
    cases o with
    | condRefOf | fromBcd | toBcd => exact .extendedOperator rfl (by decide) hargs
    | store | toBuffer | toInteger | toHexString | toDecimalString | findSetLeftBit | findSetRightBit =>
      exact .operator rfl hargs
  | .binary o a b target, h, hr => by
    have hargs : Passes code (operands code (skipTermArg code) (2, true)) (a.encode ++ (b.encode ++ target.encode))
        (a.skips && (b.skips && target.skips)) :=
      (Passes.targeted (forall_pair (a.skip_passes h.1 hr.1) (b.skip_passes h.2.1 hr.2.1))
        (target.skip_passes h.2.2 hr.2.2)).congr (by simp [encodeArgs]) (by simp [skipsAll, Bool.and_assoc])
    cases o <;> exact .operator rfl hargs
  | .acquire mutex timeout, h, hr => by
    have hargs := Passes.times (List.forall_mem_singleton.mpr (mutex.skip_passes h hr))
    have htimeout : Passes code (do
        let _ ← Aml.byte code
        let _ ← Aml.byte code
        pure ()) (leBytes 2 timeout.toNat) true := (Passes.byte _).bind fun _ => (Passes.byte _).map
    exact .extended rfl ((hargs.bind fun _ => htimeout).congr (by simp [encodeArgs]) (by simp [skipsAll, Arg.skips]))
  | .loadTable a b c d e f target, h, hr => by
    obtain ⟨ha, hb, hc, hd, he, hf, ht⟩ := h
    obtain ⟨ra, rb, rc, rd, re, rf, rt⟩ := hr
    have hargs : ∀ x ∈ [a, b, c, d, e, f], Passes code (skipTermArg code) x.encode x.skips :=
      List.forall_mem_cons.mpr ⟨a.skip_passes ha ra, List.forall_mem_cons.mpr ⟨b.skip_passes hb rb,
        List.forall_mem_cons.mpr ⟨c.skip_passes hc rc, List.forall_mem_cons.mpr ⟨d.skip_passes hd rd,
          forall_pair (e.skip_passes he re) (f.skip_passes hf rf)⟩⟩⟩⟩
    exact .extendedOperator rfl (by decide) ((Passes.targeted hargs (target.skip_passes ht rt)).congr
      (by simp [encodeArgs]) (by simp [skipsAll, Arg.skips, Bool.and_assoc]))
  | .name n args, h, hr => .called h.1 hr.1 (skipAll_passes args h.2 hr.2)

theorem skipAll_passes : (args : List Arg) → WellFormedArgs args → ResolvedArgs code args →
    ∀ a ∈ args, Passes code (skipTermArg code) a.encode a.skips
  | [], _, _ => List.forall_mem_nil _
  | a :: args, h, hr => List.forall_mem_cons.mpr ⟨a.skip_passes h.1 hr.1, skipAll_passes args h.2 hr.2⟩

end

end

end NanoChrono.Aml
