import NanoChrono.Shell.Words

/-! # Command lists

`run_line` looks for the next `;` or `&&` in the raw text, runs what stands before it and goes
on behind it, until an `&&` follows a failure. The grammar beside it separates outside quotes
only and passes over the right side of a failed `&&`. The two run the same commands exactly
where no separator stands in quotes, the commands stay inside the bounds of `run_command`, and
nothing stands behind a `;` that a failed `&&` gives up. -/

namespace NanoChrono.Shell

/-! ## The session -/

/-- What a command leaves: its exit status, and whether the session is handed over, to a job
that runs now or to the owner of the shell, which is asked for something. -/
structure Outcome where
  status : Int
  handed : Bool
deriving DecidableEq

/-- What the command lists read and write of the shell, with the commands dispatched so far,
the oldest first. -/
structure Session where
  status : Int
  handed : Bool
  executed : List (List Word)
deriving DecidableEq

variable (answer : List (List Word) → Outcome)

/-- A command is dispatched when it has words. What it does may depend on all that ran before. -/
def Session.dispatch (s : Session) (argv : List Word) : Session :=
  if argv = [] then s
  else
    let executed := s.executed ++ [argv]
    ⟨(answer executed).status, (answer executed).handed, executed⟩

/-! ## The code -/

/-- `rest.find("&&")`, in characters. -/
@[grind =] def find_and : List Char → Option Nat
  | [] => none
  | c :: rest =>
    if c = '&' ∧ rest.head? = some '&' then some 0 else (find_and rest).map (· + 1)

/-- `rest.find(';')`, in characters. -/
def find_semicolon (rest : List Char) : Option Nat := rest.findIdx? (· = ';')

/-- The command before the first separator, what stands behind it, and whether that runs only
after a success. -/
def split (rest : List Char) : List Char × Option (List Char) × Bool :=
  match find_and rest, find_semicolon rest with
  | some a, some b =>
    if a < b then (rest.take a, some (rest.drop (a + 2)), true)
    else (rest.take b, some (rest.drop (b + 1)), false)
  | some a, none => (rest.take a, some (rest.drop (a + 2)), true)
  | none, some b => (rest.take b, some (rest.drop (b + 1)), false)
  | none, none => (rest, none, false)

/-- `run_command`. -/
def Session.run_command (s : Session) (line : List Char) : Session :=
  if line = [] then s else s.dispatch answer (split_words line)

/-- What follows the first character of a line is cut as the line is, behind that character. -/
theorem split_cons (c : Char) (rest : List Char) :
    split (c :: rest) =
      if c = ';' then ([], some rest, false)
      else if c = '&' ∧ rest.head? = some '&' then ([], some rest.tail, true)
      else (c :: (split rest).1, (split rest).2) := by
  by_cases hsemi : c = ';'
  · simp only [split, find_and, find_semicolon, List.findIdx?_cons, hsemi]
    cases find_and rest <;> simp
  · by_cases hand : c = '&' ∧ rest.head? = some '&'
    · simp only [split, find_and, find_semicolon, List.findIdx?_cons, hand]
      cases rest.findIdx? (· = ';') <;> simp
    · simp only [split, find_and, find_semicolon, List.findIdx?_cons, hsemi, hand]
      cases find_and rest <;> cases rest.findIdx? (· = ';') <;> simp
      split_ifs <;> simp

theorem split_nil : split [] = ([], none, false) := rfl

/-- What stands behind a separator is shorter than the line. -/
theorem length_of_split {rest n : List Char} (h : (split rest).2.1 = some n) :
    n.length < rest.length := by
  induction rest generalizing n with
  | nil => simp [split_nil] at h
  | cons c rest ih =>
    rw [split_cons] at h
    split_ifs at h
    · obtain rfl := Option.some.inj h
      simp
    · obtain rfl := Option.some.inj h
      rw [List.length_tail, List.length_cons]
      omega
    · exact (ih h).trans (by simp)

/-- `run_line`. -/
def Session.run_line (s : Session) (rest : List Char) : Session :=
  let s' := s.run_command answer (trim (split rest).1)
  if s'.handed then s'
  else
    match h : (split rest).2.1 with
    | some n => if ¬(split rest).2.2 ∨ s'.status = 0 then s'.run_line n else s'
    | none => s'
termination_by rest.length
decreasing_by exact length_of_split h

/-! ## The grammar -/

/-- What joins a part to the one before it. -/
inductive Sep
  | always
  | ifOk
deriving DecidableEq

/-- The text of a separator. -/
def Sep.text : Sep → List Char
  | always => [';']
  | ifOk => ['&', '&']

/-- The part before the first separator outside quotes, and the separator with what follows. -/
@[grind =] def cut : Option Char → List Char → List Char × Option (Sep × List Char)
  | _, [] => ([], none)
  | q, c :: rest =>
    if q = none ∧ c = ';' then ([], some (.always, rest))
    else if q = none ∧ c = '&' ∧ rest.head? = some '&' then ([], some (.ifOk, rest.tail))
    else (c :: (cut (quoted q c) rest).1, (cut (quoted q c) rest).2)

theorem length_of_cut {q : Option Char} {rest n : List Char} {sep : Sep}
    (h : (cut q rest).2 = some (sep, n)) : n.length < rest.length := by
  induction rest generalizing q with
  | nil => simp [cut] at h
  | cons c rest ih =>
    rw [cut] at h
    split_ifs at h
    · obtain ⟨-, rfl⟩ := Prod.mk.inj (Option.some.inj h)
      simp
    · obtain ⟨-, rfl⟩ := Prod.mk.inj (Option.some.inj h)
      rw [List.length_tail, List.length_cons]
      omega
    · exact (ih h).trans (by simp)

/-- The parts of a line, each behind its separator. -/
def parts (sep : Sep) (line : List Char) : List (Sep × List Char) :=
  (sep, (cut none line).1) ::
    match h : (cut none line).2 with
    | some (sep', next) => parts sep' next
    | none => []
termination_by line.length
decreasing_by exact length_of_cut h

/-- Runs the parts: one behind `&&` only after a success, one behind `;` always. A command that
hands the session over ends the line. -/
@[grind =] def Session.follow (s : Session) : List (Sep × List Char) → Session
  | [] => s
  | (sep, text) :: rest =>
    if sep = .ifOk ∧ s.status ≠ 0 then s.follow rest
    else
      let s' := s.dispatch answer (words text)
      if s'.handed then s' else s'.follow rest

/-! ## Where the two agree -/

/-- A command the code reads as the grammar does: no separator stands in its quotes, its words
are inside the bounds, and it does not end in blanks that an open quote holds. -/
structure Plain (text : List Char) : Prop where
  semicolon : ';' ∉ text
  and : find_and text = none
  rows : (words text).length ≤ MAX_ARGS
  room : bytes (words text).flatten ≤ LINE
  trimmed : quoteAfter text = none ∨ ∀ c, text.getLast? = some c → is_whitespace c = false

/-- The next part is given up: it stands behind `&&`, after a failure. -/
def Session.GivesUp (s : Session) (rest : List (Sep × List Char)) : Prop :=
  rest.head?.map Prod.fst = some .ifOk ∧ s.status ≠ 0

/-- Every command that is reached is plain, and where an `&&` gives up, what a later `;`
introduces has no words. -/
@[grind =] def Session.Agrees (s : Session) : List (Sep × List Char) → Prop
  | [] => True
  | (_, text) :: rest =>
    Plain text ∧
      let s' := s.dispatch answer (words text)
      s'.handed = true ∨
        (s'.GivesUp rest → ∀ part ∈ rest, part.1 = .always → words part.2 = []) ∧
          (¬s'.GivesUp rest → s'.Agrees rest)

/-! ## The two cuts of a line -/

/-- A `;` or `&&` inside a text is found there. -/
theorem separator_inside (sep : Sep) (before more : List Char) :
    ';' ∈ before ++ sep.text ++ more ∨ find_and (before ++ sep.text ++ more) ≠ none := by
  cases sep with
  | always => exact .inl (by simp [Sep.text])
  | ifOk =>
    refine .inr ?_
    induction before with
    | nil => simp [Sep.text, find_and]
    | cons c before ih =>
      simp only [List.cons_append, find_and]
      split_ifs
      · simp
      · simpa using ih

/-- The separator the code has found, with what follows. -/
def found (rest : List Char) : Option (Sep × List Char) :=
  (split rest).2.1.map fun n => (if (split rest).2.2 then .ifOk else .always, n)

/-- What the code cuts off holds no separator. -/
theorem split_bare (rest : List Char) :
    ';' ∉ (split rest).1 ∧ find_and (split rest).1 = none ∧
      ∀ c, (split rest).1.head? = some c → rest.head? = some c := by
  induction rest with
  | nil => simp [split_nil, find_and]
  | cons c rest ih =>
    obtain ⟨hsemi, hand, hhead⟩ := ih
    rw [split_cons]
    split_ifs with h1 h2
    · simp [find_and]
    · simp [find_and]
    · refine ⟨by simp [hsemi, Ne.symm h1], ?_, by simp⟩
      have hno : ¬(c = '&' ∧ (split rest).1.head? = some '&') := fun h => h2 ⟨h.1, hhead _ h.2⟩
      simp [find_and, hno, hand]

/-- Both cuts fall on the same separator, or the code's falls on one that stands in quotes. -/
theorem cut_or_inside (rest : List Char) (q : Option Char)
    (hq : ∀ d, q = some d → isQuote d = true) :
    cut q rest = ((split rest).1, found rest) ∨
      (∃ (sep : Sep) (more : List Char), (cut q rest).1 = (split rest).1 ++ sep.text ++ more) ∧
        (split rest).1.foldl quoted q ≠ none := by
  induction rest generalizing q with
  | nil => exact .inl rfl
  | cons c rest ih =>
    by_cases hsemi : c = ';'
    · subst hsemi
      have hsplit : split (';' :: rest) = ([], some rest, false) := by rw [split_cons, if_pos rfl]
      cases hc : q with
      | none => exact .inl (by simp [cut, found, hsplit])
      | some d =>
        refine .inr ⟨⟨.always, (cut (quoted (some d) ';') rest).1, ?_⟩, by simp [hsplit]⟩
        simp [cut, hsplit, Sep.text]
    · by_cases hand : c = '&' ∧ rest.head? = some '&'
      · obtain ⟨rfl, hhead⟩ := hand
        obtain ⟨tail, rfl⟩ : ∃ tail, rest = '&' :: tail := by
          cases rest with
          | nil => simp at hhead
          | cons e tail => exact ⟨tail, by simpa using hhead⟩
        have hsplit : split ('&' :: '&' :: tail) = ([], some tail, true) := by
          rw [split_cons, if_neg hsemi, if_pos ⟨rfl, rfl⟩, List.tail_cons]
        cases hc : q with
        | none => exact .inl (by simp [cut, found, hsplit])
        | some d =>
          -- neither `&` closes the quote, so both are in the grammar's part
          have hne : '&' ≠ d := fun heq => by
            have := hq d hc
            rw [← heq] at this
            exact absurd this (by decide)
          refine .inr ⟨⟨.ifOk, (cut (some d) tail).1, ?_⟩, by simp [hsplit]⟩
          simp [cut, hsplit, Sep.text, quoted, hne]
      · have hsplit : split (c :: rest) = (c :: (split rest).1, (split rest).2) := by
          rw [split_cons, if_neg hsemi, if_neg hand]
        have hcut : cut q (c :: rest) = (c :: (cut (quoted q c) rest).1, (cut (quoted q c) rest).2) := by
          rw [cut, if_neg fun h => hsemi h.2, if_neg fun h => hand h.2]
        rcases ih (quoted q c) fun d hd => isQuote_of_quoted hq hd with h | ⟨⟨sep, more, h⟩, hopen⟩
        · exact .inl (by simp [hcut, hsplit, h, found])
        · exact .inr ⟨⟨sep, more, by simp [hcut, hsplit, h]⟩, by simpa [hsplit] using hopen⟩

/-! ## One command -/

/-- The words the code reads of a command. -/
theorem run_command_eq (s : Session) (line : List Char) :
    s.run_command answer line = s.dispatch answer (split_words line) := by
  rw [Session.run_command]
  split
  · next h => simp [h, Session.dispatch, split_words, Splitter.take, Splitter.init, Splitter.argv]
  · rfl

/-- A quoted separator gives the part more characters than the code's command has. -/
theorem words_inside {cmd : List Char} (sep : Sep) (more : List Char) (hopen : quoteAfter cmd ≠ none) :
    (words cmd).flatten.length < (words (cmd ++ sep.text ++ more)).flatten.length := by
  obtain ⟨q, hq⟩ := Option.ne_none_iff_exists'.mp hopen
  have hquote : (cmd.foldl Lexer.read Lexer.start).quote = some q := by
    rw [Lexer.foldl_open]
    exact hq
  -- the first character of the separator closes no quote, so it is text
  obtain ⟨c, tail, htext, hc⟩ : ∃ c tail, sep.text = c :: tail ∧ isQuote c = false := by
    cases sep
    · exact ⟨_, _, rfl, by decide⟩
    · exact ⟨_, _, rfl, by decide⟩
  have hne : c ≠ q := fun heq => by
    rw [heq, isQuote_foldl cmd (by simp) hq] at hc
    exact Bool.noConfusion hc
  have hmore := ((cmd.foldl Lexer.read Lexer.start).read c).count_le_foldl (tail ++ more)
  rw [(Lexer.count_read_quoted hquote hne).2] at hmore
  rw [words, words, Lexer.length_all, Lexer.length_all, htext, List.append_assoc, List.foldl_append]
  exact Nat.lt_of_succ_le hmore

/-- The trim leaves a command its words, if it has any. -/
theorem words_trim_ne_nil {text : List Char} (h : words text ≠ []) : words (trim text) ≠ [] := by
  by_cases hopen : quoteAfter text = none
  · rwa [words_trim (.inl hopen)]
  · obtain ⟨-, -, -, -, -, hquote⟩ := trim_parts text
    exact words_ne_nil_of_open (hquote ▸ hopen)

/-- **One command.** Where the grammar's part is plain the code cuts the same part and reads its
words; elsewhere both have a command to run, and the two differ. -/
theorem command_cases (rest : List Char) :
    (Plain (cut none rest).1 ∧ split_words (trim (split rest).1) = words (cut none rest).1 ∧
        (cut none rest).2 = found rest) ∨
      (¬Plain (cut none rest).1 ∧ split_words (trim (split rest).1) ≠ words (cut none rest).1 ∧
        split_words (trim (split rest).1) ≠ [] ∧ words (cut none rest).1 ≠ []) := by
  obtain ⟨hsemi, hand, -⟩ := split_bare rest
  rcases cut_or_inside rest none (by simp) with h | ⟨⟨sep, more, h⟩, hopen⟩
  · rw [h]
    by_cases hplain : Plain (split rest).1
    · refine .inl ⟨hplain, ?_, rfl⟩
      rw [← words_trim hplain.trimmed, split_words_eq_iff, words_trim hplain.trimmed]
      exact ⟨hplain.rows, hplain.room⟩
    · have hdiffer : split_words (trim (split rest).1) ≠ words (split rest).1 := by
        intro heq
        have hbounds := split_words_bounded (trim (split rest).1)
        rw [heq] at hbounds
        refine hplain ⟨hsemi, hand, hbounds.1, hbounds.2, ?_⟩
        by_contra hblank
        obtain ⟨hopen, c, hc, hw⟩ : quoteAfter (split rest).1 ≠ none ∧
            ∃ c, (split rest).1.getLast? = some c ∧ is_whitespace c = true := by
          simpa using hblank
        obtain ⟨q, hq⟩ := Option.ne_none_iff_exists'.mp hopen
        have hlt := words_trim_lt hq hc hw
        rw [split_words_eq_of_fewer heq (fewer_trim _)] at hlt
        exact lt_irrefl _ hlt
      -- a command outside the bounds, or with an open quote, has words
      have hwords : words (split rest).1 ≠ [] := by
        intro hnil
        refine hplain ⟨hsemi, hand, by simp [hnil], by simp [hnil], ?_⟩
        by_contra hblank
        exact words_ne_nil_of_open (fun hq => hblank (.inl hq)) hnil
      exact .inr ⟨hplain, hdiffer, split_words_ne_nil (words_trim_ne_nil hwords), hwords⟩
  · have hwords := words_ne_nil_of_open hopen
    have hlt := words_inside sep more hopen
    have hfewer := (fewer_trim (split rest).1).trans
      (fewer_append (split rest).1 (sep.text ++ more))
    rw [← List.append_assoc] at hfewer
    rw [h]
    refine .inr ⟨fun hplain => ?_, fun heq => ?_, split_words_ne_nil (words_trim_ne_nil hwords), ?_⟩
    · rcases separator_inside sep (split rest).1 more with hin | hin
      · exact hplain.semicolon hin
      · exact hin hplain.and
    · have hall := split_words_eq_of_fewer heq hfewer
      have hle := (fewer_trim (split rest).1).chars
      rw [hall] at hle
      exact absurd hlt (Nat.not_lt.mpr hle)
    · rw [List.append_assoc]
      exact words_append_ne_nil _ hwords

/-! ## Whole lines -/

/-- The parts of a line, its first one first. -/
theorem parts_eq (sep : Sep) (line : List Char) :
    parts sep line =
      (sep, (cut none line).1) :: (cut none line).2.elim [] fun next => parts next.1 next.2 := by
  rw [parts]
  cases h : (cut none line).2 with
  | none => simp
  | some next => simp

/-- One turn of the loop. -/
theorem run_line_eq (s : Session) (rest : List Char) :
    s.run_line answer rest =
      let s' := s.run_command answer (trim (split rest).1)
      if s'.handed then s'
      else (found rest).elim s' fun next =>
        if next.1 = .always ∨ s'.status = 0 then s'.run_line answer next.2 else s' := by
  rw [Session.run_line]
  simp only [found]
  split
  · rfl
  · cases h : (split rest).2.1 with
    | none => simp
    | some n => cases hand : (split rest).2.2 <;> simp

/-- What is dispatched stays dispatched. -/
theorem dispatch_extends (s : Session) (argv : List Word) :
    s.executed <+: (s.dispatch answer argv).executed := by
  rw [Session.dispatch]
  split
  · exact List.prefix_rfl
  · exact List.prefix_append _ _

theorem dispatch_executed (s : Session) {argv : List Word} (h : argv ≠ []) :
    (s.dispatch answer argv).executed = s.executed ++ [argv] := by
  rw [Session.dispatch, if_neg h]

theorem follow_extends (ps : List (Sep × List Char)) (s : Session) :
    s.executed <+: (s.follow answer ps).executed := by
  induction ps generalizing s with
  | nil => exact List.prefix_rfl
  | cons part ps ih =>
    obtain ⟨sep, text⟩ := part
    simp only [Session.follow]
    split
    · exact ih s
    · split
      · exact dispatch_extends answer s _
      · exact (dispatch_extends answer s _).trans (ih _)

theorem run_line_extends (rest : List Char) (s : Session) :
    s.executed <+: (s.run_line answer rest).executed := by
  induction hn : rest.length using Nat.strong_induction_on generalizing rest s with
  | _ n ih =>
    have hstep : s.executed <+: (s.run_command answer (trim (split rest).1)).executed := by
      rw [run_command_eq]
      exact dispatch_extends answer s _
    rw [run_line_eq]
    simp only
    split
    · exact hstep
    · cases hf : found rest with
      | none => exact hstep
      | some next =>
        obtain ⟨sep, m⟩ := next
        obtain ⟨n', hn', -, rfl⟩ : ∃ n', (split rest).2.1 = some n' ∧ _ ∧ n' = m := by
          simpa [found] using hf
        simp only [Option.elim_some]
        split
        · exact hstep.trans (ih n'.length (hn ▸ length_of_split hn') n' _ rfl)
        · exact hstep

/-- Two runs that begin with different commands never come together. -/
theorem executed_ne {a b : List (List Word)} {e : List (List Word)} {x y : List Word} (hne : x ≠ y)
    (ha : e ++ [x] <+: a) (hb : e ++ [y] <+: b) : a ≠ b := by
  rintro rfl
  obtain h | h := List.prefix_or_prefix_of_prefix ha hb
  · exact hne (by simpa using h)
  · exact hne (by simpa [eq_comm] using h)

/-- After a failure that an `&&` gives up, the grammar goes on at the next `;`, so it runs
nothing more exactly when no `;` introduces a word. -/
theorem follow_given_up (ps : List (Sep × List Char)) {s : Session} (hstatus : s.status ≠ 0)
    (hhanded : s.handed = false) :
    (s.follow answer ps).executed = s.executed ↔
      ∀ part ∈ ps, part.1 = .always → words part.2 = [] := by
  induction ps with
  | nil => simp [Session.follow]
  | cons part ps ih =>
    obtain ⟨sep, text⟩ := part
    simp only [Session.follow, List.forall_mem_cons]
    cases sep with
    | ifOk =>
      rw [if_pos ⟨rfl, hstatus⟩, ih]
      simp
    | always =>
      rw [if_neg (by simp)]
      by_cases hwords : words text = []
      · have hsame : s.dispatch answer (words text) = s := by rw [Session.dispatch, if_pos hwords]
        rw [hsame, if_neg (by simp [hhanded]), ih]
        simp [hwords]
      · simp only [hwords, imp_false, not_true_eq_false, false_and, iff_false]
        intro heq
        have hgrown : (s.dispatch answer (words text)).executed <+: s.executed := by
          split at heq
          · exact heq ▸ List.prefix_rfl
          · exact heq ▸ follow_extends answer ps _
        rw [dispatch_executed answer s hwords] at hgrown
        exact absurd hgrown.length_le (by simp)

/-- **Command lists.** For every line, whatever its commands answer, `run_line` runs the
grammar's commands with the grammar's words exactly where every command it reaches is plain and
a failed `&&` gives up no later part. -/
theorem run_line_exact_iff (s : Session) (line : List Char) :
    (s.run_line answer line).executed = (s.follow answer (parts .always line)).executed ↔
      s.Agrees answer (parts .always line) := by
  -- the part that is reached runs, whichever separator introduced it
  suffices h : ∀ n (rest : List Char) (s : Session) (sep : Sep), rest.length = n →
      ¬(sep = .ifOk ∧ s.status ≠ 0) →
      ((s.run_line answer rest).executed = (s.follow answer (parts sep rest)).executed ↔
        s.Agrees answer (parts sep rest)) from h _ line s .always rfl (by simp)
  intro n
  induction n using Nat.strong_induction_on with
  | _ n ih =>
    intro rest s sep hn hruns
    rw [run_line_eq, run_command_eq, parts_eq, Session.follow, if_neg hruns, Session.Agrees]
    simp only
    rcases command_cases rest with ⟨hplain, hwords, hnext⟩ | ⟨hplain, hne, hcode, hgrammar⟩
    · rw [hwords, hnext]
      generalize s.dispatch answer (words (cut none rest).1) = s'
      by_cases hhanded : s'.handed = true
      · simp [hhanded, hplain]
      · simp only [hhanded, hplain, true_and, false_or, Bool.false_eq_true, if_false]
        cases hf : found rest with
        | none => simp [Session.follow, Session.GivesUp, Session.Agrees]
        | some next =>
          obtain ⟨sep', m⟩ := next
          have hshort : m.length < n := by
            obtain ⟨n', hn', -, rfl⟩ : ∃ n', (split rest).2.1 = some n' ∧ _ ∧ n' = m := by
              simpa [found] using hf
            exact hn ▸ length_of_split hn'
          have hhead : s'.GivesUp (parts sep' m) ↔ sep' = .ifOk ∧ s'.status ≠ 0 := by
            rw [parts_eq, Session.GivesUp]
            simp
          simp only [Option.elim_some]
          by_cases hgive : sep' = .ifOk ∧ s'.status ≠ 0
          · have hgives := hhead.mpr hgive
            rw [if_neg (by simp [hgive]), eq_comm,
              follow_given_up answer _ hgive.2 (by simpa using hhanded)]
            exact ⟨fun h => ⟨fun _ => h, fun hno => absurd hgives hno⟩, fun h => h.1 hgives⟩
          · have hgoes : ¬s'.GivesUp (parts sep' m) := fun h => hgive (hhead.mp h)
            rw [if_pos ?_, ih _ hshort m s' sep' rfl hgive]
            · exact ⟨fun h => ⟨fun hno => absurd hno hgoes, fun _ => h⟩, fun h => h.2 hgoes⟩
            · cases sep' with
              | always => exact .inl rfl
              | ifOk => exact .inr (by simpa using hgive)
    · simp only [hplain, false_and, iff_false]
      -- the two have dispatched different commands
      refine executed_ne (e := s.executed) hne ?_ ?_
      · rw [← dispatch_executed answer s hcode]
        split
        · exact List.prefix_rfl
        · cases found rest with
          | none => exact List.prefix_rfl
          | some next =>
            simp only [Option.elim_some]
            split
            · exact run_line_extends answer _ _
            · exact List.prefix_rfl
      · rw [← dispatch_executed answer s hgrammar]
        split
        · exact List.prefix_rfl
        · exact follow_extends answer _ _

/-- Quotes do not keep a `;` from the code, and a failed `&&` gives up the part behind the next
`;`: `e "a;b"` runs two commands, and `f && g; h` does not run `h`. -/
theorem run_line_astray :
    (let ok : List (List Word) → Outcome := fun _ => ⟨0, false⟩
      let s : Session := ⟨0, false, []⟩
      let line := ['e', ' ', Char.ofNat 0x22, 'a', ';', 'b', Char.ofNat 0x22]
      (s.run_line ok line).executed = [[['e'], ['a']], [['b']]] ∧
        (s.follow ok (parts .always line)).executed = [[['e'], ['a', ';', 'b']]]) ∧
    (let failing : List (List Word) → Outcome := fun ran => ⟨if ran = [[['f']]] then 1 else 0, false⟩
      let s : Session := ⟨0, false, []⟩
      let line := ['f', ' ', '&', '&', ' ', 'g', ';', ' ', 'h']
      (s.run_line failing line).executed = [[['f']]] ∧
        (s.follow failing (parts .always line)).executed = [[['f']], [['h']]]) := by
  decide +kernel

end NanoChrono.Shell
