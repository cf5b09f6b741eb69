import NanoChrono.Aml.Skip

/-! # Stepping moves on

A data object and a term argument are read by bodies that read on (`data_readsOn`, `termArg_readsOn`), so that each
satisfies its own equation (`parse_data_eq`, `skip_term_arg_eq`) and ends. Whatever is stepped over takes at least a
byte (`Moves`). -/

namespace NanoChrono.Aml

section

variable {α β : Type}

/-- What the reading finds takes at least a byte. -/
def Moves (x : Read α) : Prop := ∀ pos a next, x.from pos = (some a, next) → pos < next

theorem Moves.bind {x : Read α} {f : α → Read β} (hx : Moves x) (hf : ∀ a, Forward (f a)) : Moves (x >>= f) := by
  intro pos b next h
  obtain ⟨a, mid, ha, hb⟩ := from_bind_some h
  exact Nat.lt_of_lt_of_le (hx pos a mid ha) ((hf a).le hb)

theorem Moves.after {x : Read α} {f : α → Read β} (hx : Forward x) (hf : ∀ a, Moves (f a)) : Moves (x >>= f) := by
  intro pos b next h
  obtain ⟨a, mid, ha, hb⟩ := from_bind_some h
  exact Nat.lt_of_le_of_lt (hx.le ha) (hf a mid b next hb)

theorem Moves.ite {c : Prop} [Decidable c] {x y : Read α} (hx : Moves x) (hy : Moves y) :
    Moves (if c then x else y) := by
  split
  · exact hx
  · exact hy

/-- Past what moves, only what is further on matters. -/
theorem from_bind_congr {x : Read α} {f g : α → Read β} {pos : Nat} (hx : Moves x)
    (hfg : ∀ a, AgreeFrom (pos + 1) (f a) (g a)) : Read.from (x >>= f) pos = Read.from (x >>= g) pos := by
  rw [from_bind, from_bind]
  rcases hrun : x.from pos with ⟨_ | a, next⟩
  · rfl
  · exact hfg a next (hx pos a next hrun)

end

section

variable (code : Bytes)

theorem byte_moves : Moves (byte code) := by
  intro pos b next h
  obtain ⟨-, hnext⟩ := byte_some code h
  exact hnext ▸ Nat.lt_succ_self pos

theorem advance_moves {n : Nat} (hn : 0 < n) : Moves (advance n) := by
  intro pos a next h
  obtain ⟨-, hnext⟩ := Prod.mk.inj h
  exact hnext ▸ Nat.lt_add_of_pos_right hn

theorem segment_moves : Moves (segment code) := by
  refine Moves.bind ?_ fun _ => Forward.pure _
  intro pos bytes next h
  have hrun : (take code 4).from pos = if pos + 4 ≤ code.length then (some ((code.drop pos).take 4), pos + 4)
      else (none, pos) := rfl
  rw [hrun] at h
  split at h
  · obtain ⟨-, hnext⟩ := Prod.mk.inj h
    omega
  · cases h

theorem namePath_moves (lead : UInt8) : Moves (namePath code lead) := by
  refine Moves.ite ((advance_moves Nat.one_pos).bind fun _ => Forward.pure _) (Moves.ite ?_ (Moves.ite ?_ ?_))
  · exact (advance_moves Nat.one_pos).bind fun _ => segments_forward code 2 _
  · exact (advance_moves Nat.one_pos).bind fun _ => (byte_forward code).bind fun _ => segmentsFit_forward code _ _
  · exact (segment_moves code).bind fun _ => Forward.pure _

theorem name_moves : Moves (name code) :=
  Moves.after (markers_forward code) fun _ => Moves.after (peek_forward code) fun lead =>
    (namePath_moves code lead).bind fun _ => Forward.pure _

/-- What is read past the end of the table finds no byte. -/
theorem byte_atEnd {pos : Nat} (h : code.length ≤ pos) : (byte code).from pos = (none, pos) := by
  rw [from_byte, List.getElem?_eq_none h]

theorem peek_atEnd {pos : Nat} (h : code.length ≤ pos) : (peek code).from pos = (none, pos) := by
  show (code[pos]?, pos) = _
  rw [List.getElem?_eq_none h]

/-- A reading of a package that ends where the package does. -/
theorem package_bind_forward {α : Type} {f : Span → Read α}
    (hf : ∀ s : Span, s.start ≤ s.stop → s.start ≤ ((f s).from s.start).2) : Forward (package code >>= f) := by
  intro pos
  rw [from_bind]
  rcases hrun : (package code).from pos with ⟨_ | s, next⟩
  · exact (package_forward code).le hrun
  · obtain ⟨hstart, rfl, hle, -⟩ := package_some code hrun
    exact Nat.le_trans (Nat.le_of_lt hstart) (hf s hle)

theorem textEnd_forward : Forward (textEnd code) := by
  intro pos
  show pos ≤ (if pos + ((code.drop pos).takeWhile (· ≠ 0)).length < code.length then
    (some (), pos + ((code.drop pos).takeWhile (· ≠ 0)).length + 1) else (none, max pos code.length)).2
  split
  · exact Nat.le_succ_of_le (Nat.le_add_right _ _)
  · exact Nat.le_max_left _ _

theorem integer_forward (n : Nat) : Forward (integer code n) := (take_forward code n).bind fun _ => Forward.pure _

theorem skipPackage_forward : Forward (skipPackage code) :=
  package_bind_forward code fun _ hle => hle

/-! ## Data objects -/

/-- The contents of a buffer: the cursor is put at the package's end, wherever the declared size ended. -/
theorem contents_forward {inner : Read Value} (hinner : Forward inner) {s : Span} (hle : s.start ≤ s.stop) :
    s.start ≤ (Read.from (do
      let _ ← inner
      let start ← position
      goto s.stop
      pure (Value.buffer ⟨start, s.stop⟩)) s.start).2 := by
  rw [from_bind]
  rcases hrun : inner.from s.start with ⟨_ | v, next⟩
  · exact hinner.le hrun
  · exact hle

theorem data_of_forward {inner : Read Value} (hinner : Forward inner) (opcode : UInt8) :
    Forward (dataOf code inner opcode) := by
  refine .ite (.pure _) (.ite (.pure _) (.ite (.pure _) ?_))
  refine .ite ((integer_forward code 1).bind fun _ => .pure _) (.ite ((integer_forward code 2).bind fun _ => .pure _) ?_)
  refine .ite ((integer_forward code 4).bind fun _ => .pure _) (.ite ((integer_forward code 8).bind fun _ => .pure _) ?_)
  refine .ite ?_ (.ite ?_ (.ite ?_ .failure))
  · exact position_forward.bind fun _ => (textEnd_forward code).bind fun _ => position_forward.bind fun _ => .pure _
  · exact package_bind_forward code fun s hle => contents_forward hinner hle
  · exact package_bind_forward code fun s hle => hle

theorem data_forward {inner : Read Value} (hinner : Forward inner) : Forward (dataBody code inner) :=
  (byte_forward code).bind (data_of_forward code hinner)

/-- A data object holds another only past its own first byte. -/
theorem data_readsOn : ReadsOn code.length (dataBody code) where
  past := by
    intro x y pos hx hy hxy
    refine from_bind_congr (byte_moves code) fun opcode => ?_
    refine .ite (.refl _ _) (.ite (.refl _ _) (.ite (.refl _ _) (.ite (.refl _ _) (.ite (.refl _ _) ?_))))
    refine .ite (.refl _ _) (.ite (.refl _ _) (.ite (.refl _ _) (.ite ?_ (.refl _ _))))
    exact .bind (.refl _ _) (package_forward code) fun s => .bind hxy hx fun v => .refl _ _
  atEnd := by
    intro x y pos hpos
    show Read.from (byte code >>= _) pos = Read.from (byte code >>= _) pos
    rw [from_bind, from_bind, byte_atEnd code hpos]
  forward := data_forward code

/-- A data object is read as its body reads it. -/
theorem parse_data_eq (pos : Nat) : (parseData code).from pos = (dataBody code (parseData code)).from pos :=
  fixed_eq (data_readsOn code) pos

theorem parse_data_forward : Forward (parseData code) := fixed_forward (data_readsOn code)

theorem skip_data_forward : Forward (skipData code) := (parse_data_forward code).bind fun _ => .pure _

/-! ## Term arguments -/

theorem times_forward {x : Read Unit} (hx : Forward x) (n : Nat) : Forward (times x n) := by
  induction n with
  | zero => exact .pure _
  | succ n ih => exact hx.bind fun _ => ih

theorem target_forward {arg : Read Unit} (harg : Forward arg) : Forward (targetWith code arg) :=
  (peek_forward code).bind fun _ => .ite (advance_forward 1) (.ite (advance_forward 1) harg)

theorem operands_forward {arg : Read Unit} (harg : Forward arg) (shape : Nat × Bool) :
    Forward (operands code arg shape) :=
  (times_forward harg shape.1).bind fun _ => .ite (target_forward code harg) (.pure _)

theorem extended_operands_forward {arg : Read Unit} (harg : Forward arg) (extended : UInt8) (shape : Nat × Bool) :
    Forward (extendedOperands code arg extended shape) := by
  refine (times_forward harg shape.1).bind fun _ => .ite ?_ (.ite (target_forward code harg) (.pure _))
  exact (byte_forward code).bind fun _ => (byte_forward code).bind fun _ => .pure _

theorem term_arg_forward {arg : Read Unit} (harg : Forward arg) : Forward (termArgBody code arg) := by
  refine (peek_forward code).bind fun opcode => .ite (advance_forward 1) (.ite ?_ ?_)
  · refine (peekNext_forward code).bind fun extended => ?_
    cases extendedArity extended with
    | none => exact .failure
    | some shape => exact (advance_forward 2).bind fun _ => extended_operands_forward code harg extended shape
  · cases arity opcode with
    | some shape => exact (advance_forward 1).bind fun _ => operands_forward code harg shape
    | none => exact .ite ((name_forward code).bind fun _ => times_forward harg _) (skip_data_forward code)

section

variable {x y : Read Unit} {p : Nat}

theorem AgreeFrom.times (hxy : AgreeFrom p x y) (hx : Forward x) (n : Nat) : AgreeFrom p (times x n) (times y n) := by
  induction n with
  | zero => exact .refl _ _
  | succ n ih => exact .bind hxy hx fun _ => ih

theorem AgreeFrom.target (hxy : AgreeFrom p x y) : AgreeFrom p (targetWith code x) (targetWith code y) :=
  .bind (.refl _ _) (peek_forward code) fun _ => .ite (.refl _ _) (.ite (.refl _ _) hxy)

theorem AgreeFrom.operands (hxy : AgreeFrom p x y) (hx : Forward x) (shape : Nat × Bool) :
    AgreeFrom p (operands code x shape) (operands code y shape) :=
  .bind (hxy.times hx _) (times_forward hx _) fun _ => .ite (hxy.target code) (.refl _ _)

theorem AgreeFrom.extendedOperands (hxy : AgreeFrom p x y) (hx : Forward x) (extended : UInt8) (shape : Nat × Bool) :
    AgreeFrom p (extendedOperands code x extended shape) (extendedOperands code y extended shape) :=
  .bind (hxy.times hx _) (times_forward hx _) fun _ => .ite (.refl _ _) (.ite (hxy.target code) (.refl _ _))

end

/-- The term arguments inside a term argument are past its first byte. -/
theorem termArg_readsOn : ReadsOn code.length (termArgBody code) where
  past := by
    intro x y pos hx hy hxy
    show Read.from (peek code >>= _) pos = Read.from (peek code >>= _) pos
    rw [from_bind, from_bind]
    rcases hpeek : (peek code).from pos with ⟨_ | opcode, next⟩
    · rfl
    have hnext : pos = next := congrArg Prod.snd hpeek
    subst hnext
    dsimp only
    split
    · rfl
    split
    · rw [from_bind, from_bind]
      rcases hpeek' : (peekNext code).from pos with ⟨_ | extended, next⟩
      · rfl
      have hnext : pos = next := congrArg Prod.snd hpeek'
      subst hnext
      dsimp only
      cases extendedArity extended with
      | none => rfl
      | some shape =>
        exact from_bind_congr (advance_moves Nat.two_pos) fun _ => hxy.extendedOperands code hx extended shape
    · cases arity opcode with
      | some shape => exact from_bind_congr (advance_moves Nat.one_pos) fun _ => hxy.operands code hx shape
      | none =>
        dsimp only
        split
        · exact from_bind_congr (name_moves code) fun _ => hxy.times hx _
        · rfl
  atEnd := by
    intro x y pos hpos
    show Read.from (peek code >>= _) pos = Read.from (peek code >>= _) pos
    rw [from_bind, from_bind, peek_atEnd code hpos]
  forward := term_arg_forward code

/-- A term argument is stepped over as its body does it. -/
theorem skip_term_arg_eq (pos : Nat) :
    (skipTermArg code).from pos = (termArgBody code (skipTermArg code)).from pos :=
  fixed_eq (termArg_readsOn code) pos

theorem skip_term_arg_forward : Forward (skipTermArg code) := fixed_forward (termArg_readsOn code)

/-! ## Objects and statements -/

theorem skip_name_forward : Forward (skipName code) := (name_forward code).bind fun _ => .pure _

theorem skip_byte_forward : Forward (skipByte code) := (byte_forward code).bind fun _ => .pure _

theorem skip_region_forward : Forward (skipRegion code) :=
  (byte_forward code).bind fun _ => (skip_term_arg_forward code).bind fun _ => skip_term_arg_forward code

/-- The two term arguments of a field and its name. -/
theorem skip_field_forward : Forward (do skipTermArg code; skipTermArg code; skipName code) :=
  (skip_term_arg_forward code).bind fun _ => (skip_term_arg_forward code).bind fun _ => skip_name_forward code

theorem skip_statement_forward (opcode : UInt8) : Forward (skipStatement code opcode) := by
  refine .ite (.pure _) (.ite (skip_term_arg_forward code) (.ite ?_ (.ite ?_ ?_)))
  · exact (skip_term_arg_forward code).bind fun _ => skip_term_arg_forward code
  · refine (byte_forward code).bind fun extended => .ite (skip_term_arg_forward code) (.ite ?_ (.ite ?_ .failure))
    · exact (skip_term_arg_forward code).bind fun _ => skip_term_arg_forward code
    · exact (times_forward (skip_byte_forward code) 5).bind fun _ => skip_term_arg_forward code
  · cases arity opcode with
    | none => exact .failure
    | some shape => exact operands_forward code (skip_term_arg_forward code) shape

end

end NanoChrono.Aml
