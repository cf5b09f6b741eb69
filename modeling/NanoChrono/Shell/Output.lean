import NanoChrono.Shell.Sgr
import NanoChrono.Shell.Text

/-! # The shell's output

`Out::write_str` sends a text to the terminal, each newline as a carriage return and a newline.
With colours off a text that holds an escape goes through `strip_sgr` first, which drops SGR
sequences; one of more than four hundred bytes is fed back to `write_str` line by line. -/

namespace NanoChrono.Shell

/-! ## The filter -/

/-- `d.is_ascii_alphabetic() || d == '@' || d == '~'`. -/
def isFinal (d : Char) : Bool :=
  (0x41 ≤ d.toNat && d.toNat ≤ 0x5A) || (0x61 ≤ d.toNat && d.toNat ≤ 0x7A) || d = '@' || d = '~'

/-- `strip_sgr`: `seq` is the sequence the look-ahead is in, `buf` the text kept so far. -/
@[grind =] def strip (seq : Option (Text 32)) (buf : Text 512) : List Char → Text 512
  | [] =>
    match seq with
    -- the text ends before the final byte
    | some seq => buf.str seq.as_str
    | none => buf
  | d :: rest =>
    match seq with
    | some seq =>
      if isFinal d then strip none (if d = 'm' then buf else buf.str (seq.char d).as_str) rest
      else strip (some (seq.char d)) buf rest
    | none =>
      if d = ESC ∧ rest.head? = some '[' then strip (some (Text.new.char d)) buf rest
      else strip none (buf.char d) rest

/-- `strip_sgr(s, &mut plain)`. -/
def strip_sgr (s : List Char) : List Char := (strip none Text.new s).as_str

/-! ## The writer -/

/-- `s.split_inclusive('\n')`. -/
@[grind =] def split_inclusive : List Char → List (List Char)
  | [] => []
  | c :: rest =>
    if c = '\n' then [c] :: split_inclusive rest
    else
      match split_inclusive rest with
      | [] => [[c]]
      | line :: lines => (c :: line) :: lines

/-- What the loop over `s.split('\n')` sends to the terminal. -/
def send (s : List Char) : List Char :=
  (s.splitOn '\n').zipIdx.flatMap fun part =>
    (if part.2 > 0 then ['\r', '\n'] else []) ++ if part.1 = [] then [] else part.1

/-- `write_str`, with what reaches the terminal; `depth` is how many calls may be open, and a
call beyond them gives `none`. -/
@[grind =] def write_str (color : Bool) : ℕ → List Char → Option (List Char)
  | 0, _ => none
  | depth + 1, s =>
    if color = true ∨ ESC ∉ s then some (send s)
    else if bytes s ≤ 400 then some (send (strip_sgr s))
    else ((split_inclusive s).mapM (write_str color depth)).map List.flatten

/-- Several calls, one after the other. -/
def write_all (color : Bool) (depth : ℕ) (calls : List (List Char)) : Option (List Char) :=
  (calls.mapM (write_str color depth)).map List.flatten

/-! ## What it should send -/

/-- A newline as a carriage return and a newline. -/
def onlcr (s : List Char) : List Char := s.flatMap fun c => if c = '\n' then ['\r', '\n'] else [c]

/-! ## Where it does -/

/-- The sequences `strip_sgr` sees: from `ESC [` to the next final byte, or to the end. -/
@[grind =] def sequences (run : Option (List Char)) : List Char → List (List Char)
  | [] => run.toList
  | d :: rest =>
    match run with
    | some run =>
      if isFinal d then (run ++ [d]) :: sequences none rest else sequences (some (run ++ [d])) rest
    | none =>
      if d = ESC ∧ rest.head? = some '[' then sequences (some [d]) rest else sequences none rest

/-- A sequence that ends in `m` is an SGR sequence, and another fits the look-ahead. -/
def Fits (run : List Char) : Prop :=
  if run.getLast? = some 'm' then IsSgr run else bytes run ≤ 32

/-- Every sequence of a text is one `strip_sgr` treats as it should. -/
def AllFit (text : List Char) : Prop := ∀ run ∈ sequences none text, Fits run

/-- A text that needs no filter, or is short enough for it. -/
def Short (text : List Char) : Prop := ESC ∉ text ∨ bytes text ≤ 400

instance (text : List Char) : Decidable (Short text) := inferInstanceAs (Decidable (_ ∨ _))

/-- The texts a call is filtered in: itself, or its lines when it is not short. -/
def chunks (call : List Char) : List (List Char) :=
  if Short call then [call] else split_inclusive call

/-- No sequence is cut between two of the texts. -/
def Whole (texts : List (List Char)) : Prop :=
  ∀ before after, texts = before ++ after → ¬Cut before.flatten after.flatten

/-- The calls have short lines, sequences that fit, and none that is cut. -/
structure Kept (calls : List (List Char)) : Prop where
  lines : ∀ call ∈ calls, ∀ line ∈ split_inclusive call, Short line
  sequences : ∀ text ∈ calls.flatMap chunks, AllFit text
  whole : Whole (calls.flatMap chunks)

/-! ## Lines -/

/-- The parts the loop joins, first with nothing before it and then with line ends. -/
theorem zipIdx_join (parts : List (List Char)) (k : ℕ) (hk : 0 < k) :
    ((parts.zipIdx k).flatMap fun part =>
        (if part.2 > 0 then ['\r', '\n'] else []) ++ if part.1 = [] then [] else part.1) =
      parts.flatMap (['\r', '\n'] ++ ·) := by
  induction parts generalizing k with
  | nil => rfl
  | cons part parts ih =>
    rw [List.zipIdx_cons, List.flatMap_cons, List.flatMap_cons, ih (k + 1) k.succ_pos, if_pos hk]
    congr 2
    split
    · next h => exact h.symm
    · rfl

/-- The loop sends each newline as a carriage return and a newline. -/
theorem send_eq (s : List Char) : send s = onlcr s := by
  have hsplit : ∀ s : List Char, ∃ part parts, s.splitOn '\n' = part :: parts ∧
      part ++ parts.flatMap (['\r', '\n'] ++ ·) = onlcr s := by
    intro s
    induction s with
    | nil => exact ⟨[], [], List.splitOn_nil _, rfl⟩
    | cons c s ih =>
      obtain ⟨part, parts, heq, hjoin⟩ := ih
      rw [List.splitOn] at heq ⊢
      rw [List.splitOnP_cons_eq_if_modifyHead, heq]
      by_cases hc : c = '\n'
      · refine ⟨[], part :: parts, by simp [hc], ?_⟩
        rw [List.flatMap_cons, List.nil_append, List.append_assoc, hjoin]
        simp [onlcr, hc]
      · refine ⟨c :: part, parts, by simp [hc], ?_⟩
        rw [List.cons_append, hjoin]
        simp [onlcr, hc]
  obtain ⟨part, parts, heq, hjoin⟩ := hsplit s
  rw [send, heq, List.zipIdx_cons, List.flatMap_cons, zipIdx_join parts _ Nat.one_pos, ← hjoin]
  congr 1
  simp only [Nat.lt_irrefl, if_false, List.nil_append, gt_iff_lt]
  split
  · next h => exact h.symm
  · rfl

@[simp] theorem onlcr_append (a b : List Char) : onlcr (a ++ b) = onlcr a ++ onlcr b :=
  List.flatMap_append

/-- The line ends can be taken back. -/
theorem onlcr_injective {a b : List Char} (h : onlcr a = onlcr b) : a = b := by
  induction a using List.reverseRecOn generalizing b with
  | nil =>
    cases b with
    | nil => rfl
    | cons c b =>
      simp only [onlcr, List.flatMap_nil, List.flatMap_cons] at h
      split at h <;> simp at h
  | append_singleton a c ih =>
    induction b using List.reverseRecOn with
    | nil =>
      rw [onlcr_append] at h
      simp only [onlcr, List.flatMap_cons, List.flatMap_nil, List.append_nil] at h
      split at h <;> simp at h
    | append_singleton b d _ =>
      rw [onlcr_append, onlcr_append] at h
      -- the last character sent tells a newline from any other
      have hlast := congrArg List.getLast? h
      have hcd : c = d := by
        by_cases hc : c = '\n' <;> by_cases hd : d = '\n' <;>
          simp [onlcr, hc, hd] at hlast <;> grind
      subst hcd
      rw [List.append_left_inj] at h
      rw [ih h]

theorem split_inclusive_cons {c : Char} (hc : c ≠ '\n') (rest : List Char) :
    ∃ line lines, split_inclusive (c :: rest) = (c :: line) :: lines ∧
      (split_inclusive rest = line :: lines ∨ split_inclusive rest = [] ∧ line = [] ∧ lines = []) := by
  rw [split_inclusive, if_neg hc]
  cases split_inclusive rest with
  | nil => exact ⟨[], [], rfl, .inr ⟨rfl, rfl, rfl⟩⟩
  | cons line lines => exact ⟨line, lines, rfl, .inl rfl⟩

/-- The lines of a text are the text. -/
theorem split_inclusive_flatten (s : List Char) : (split_inclusive s).flatten = s := by
  induction s with
  | nil => rfl
  | cons c s ih =>
    by_cases hc : c = '\n'
    · rw [split_inclusive, if_pos hc, List.flatten_cons, ih]
      rfl
    · obtain ⟨line, lines, heq, h | ⟨h, rfl, rfl⟩⟩ := split_inclusive_cons hc s
      · rw [heq, List.flatten_cons, List.cons_append, ← List.flatten_cons, ← h, ih]
      · rw [h] at ih
        rw [heq, ← ih]
        rfl

/-- A line has no lines but itself. -/
theorem split_inclusive_line {s line : List Char} (h : line ∈ split_inclusive s) :
    split_inclusive line = [line] := by
  induction s generalizing line with
  | nil => simp [split_inclusive] at h
  | cons c s ih =>
    by_cases hc : c = '\n'
    · rw [split_inclusive, if_pos hc, List.mem_cons] at h
      rcases h with rfl | h
      · rw [split_inclusive, if_pos hc]
        rfl
      · exact ih h
    · obtain ⟨first, lines, heq, hrest⟩ := split_inclusive_cons hc s
      rw [heq, List.mem_cons] at h
      rcases h with rfl | h
      · rw [split_inclusive, if_neg hc]
        rcases hrest with hrest | ⟨-, rfl, -⟩
        · rw [ih (hrest ▸ List.mem_cons_self)]
        · rfl
      · rcases hrest with hrest | ⟨-, -, rfl⟩
        · exact ih (hrest ▸ List.mem_cons_of_mem _ h)
        · simp at h

/-! ## The filter without its buffer

A text that is filtered is short, so the buffer holds all that is kept of it. -/

/-- What `strip` keeps of a text. -/
@[grind =] def kept (seq : Option (Text 32)) : List Char → List Char
  | [] => seq.elim [] Text.as_str
  | d :: rest =>
    match seq with
    | some seq =>
      if isFinal d then (if d = 'm' then [] else (seq.char d).as_str) ++ kept none rest
      else kept (some (seq.char d)) rest
    | none =>
      if d = ESC ∧ rest.head? = some '[' then kept (some (Text.new.char d)) rest
      else d :: kept none rest

/-- A character makes a text longer by its own bytes at most. -/
theorem Text.len_char_le {N : ℕ} (t : Text N) (c : Char) : (t.char c).len ≤ t.len + c.utf8Size := by
  by_cases h : t.len + c.utf8Size ≤ N
  · exact (Text.len_char h).le
  · rw [Text.char_of_full h]
    exact Nat.le_add_right _ _

theorem Text.bytes_le_len {N : ℕ} (t : Text N) : bytes t.as_str ≤ t.len := Nat.le_add_right _ _

/-- With room for all that is left, `strip` appends what is kept. -/
theorem strip_eq (rest : List Char) (seq : Option (Text 32)) (buf : Text 512)
    (h : buf.len + seq.elim 0 Text.len + bytes rest ≤ 512) :
    (strip seq buf rest).as_str = buf.as_str ++ kept seq rest := by
  induction rest generalizing seq buf with
  | nil =>
    cases seq with
    | none => simp [strip, kept]
    | some seq =>
      simp only [Option.elim_some, bytes_nil] at h
      have := seq.bytes_le_len
      exact (Text.str_of_fits (by omega)).1
  | cons d rest ih =>
    rw [bytes_cons] at h
    cases seq with
    | none =>
      simp only [strip, kept]
      simp only [Option.elim_none] at h
      split
      · have hlen := (Text.new (N := 32)).len_char_le d
        have hnew : (Text.new (N := 32)).len = 0 := rfl
        exact ih _ _ (by simp only [Option.elim_some]; omega)
      · have hroom : buf.len + d.utf8Size ≤ 512 := by omega
        rw [ih none (buf.char d) (by rw [Text.len_char hroom]; simp; omega), Text.as_str_char hroom]
        simp
    | some seq =>
      simp only [strip, kept]
      simp only [Option.elim_some] at h
      have hlen := seq.len_char_le d
      have hbytes := (seq.char d).bytes_le_len
      split
      · split
        · rw [ih none buf (by simp; omega), List.nil_append]
        · obtain ⟨htext, hstr⟩ := Text.str_of_fits (t := buf) (s := (seq.char d).as_str) (by omega)
          rw [ih none _ (by rw [hstr]; simp; omega), htext, List.append_assoc]
      · exact ih _ _ (by simp only [Option.elim_some]; omega)

/-- What the look-ahead holds of a sequence. -/
def ahead (run : List Char) : Text 32 := Text.build run

theorem ahead_append (run : List Char) (d : Char) : ahead (run ++ [d]) = (ahead run).char d :=
  Text.build_append run d

/-- Inside a sequence, up to its final byte. -/
theorem kept_run (stuff tail run : List Char) (h : ∀ d ∈ stuff, isFinal d = false) :
    kept (some (ahead run)) (stuff ++ tail) = kept (some (ahead (run ++ stuff))) tail := by
  induction stuff generalizing run with
  | nil => simp
  | cons d stuff ih =>
    rw [List.cons_append, kept]
    simp only [h d List.mem_cons_self, Bool.false_eq_true, if_false]
    rw [← ahead_append, ih _ fun e he => h e (List.mem_cons_of_mem d he), List.append_assoc,
      List.singleton_append]

theorem sequences_run (stuff tail run : List Char) (h : ∀ d ∈ stuff, isFinal d = false) :
    sequences (some run) (stuff ++ tail) = sequences (some (run ++ stuff)) tail := by
  induction stuff generalizing run with
  | nil => simp
  | cons d stuff ih =>
    rw [List.cons_append, sequences]
    simp only [h d List.mem_cons_self, Bool.false_eq_true, if_false]
    rw [ih _ fun e he => h e (List.mem_cons_of_mem d he), List.append_assoc, List.singleton_append]

/-- A text without an escape stays as it is. -/
theorem kept_of_no_esc {s : List Char} (h : ESC ∉ s) : kept none s = s := by
  induction s with
  | nil => rfl
  | cons c s ih =>
    have hc : c ≠ ESC := fun heq => h (heq ▸ List.mem_cons_self)
    rw [kept, ih fun hm => h (List.mem_cons_of_mem c hm)]
    simp [hc]

/-! ## One text through the filter -/

/-- A final byte is no character of a sequence before its last. -/
theorem IsSgr.no_final {x y : List Char} (h : IsSgr (x ++ y)) (hy : y ≠ []) {d : Char}
    (hd : isFinal d = true) : d ∉ x := by
  obtain ⟨params, heq, hparams⟩ := h
  obtain ⟨y', e, rfl⟩ := List.eq_nil_or_concat y |>.resolve_left hy
  rw [List.concat_eq_append, ← List.append_assoc] at heq
  obtain ⟨hx, -⟩ := List.append_inj' heq rfl
  intro hm
  have hbody : d ∈ ESC :: '[' :: params := hx ▸ List.mem_append_left _ hm
  simp only [List.mem_cons] at hbody
  rcases hbody with rfl | rfl | h
  · exact absurd hd (by decide)
  · exact absurd hd (by decide)
  · have hp := hparams d h
    simp only [isParam, isFinal, Bool.and_eq_true, Bool.or_eq_true, decide_eq_true_eq] at hp hd
    rcases hd with ((hd | hd) | rfl) | rfl
    · omega
    · omega
    · exact absurd hp (by decide)
    · exact absurd hp (by decide)

/-- A text that ends in a final byte has no sequence cut at its end. -/
theorem not_cut_of_final (a b : List Char) {d : Char} (hd : isFinal d = true) : ¬Cut (a ++ [d]) b := by
  rintro ⟨p, q, hp, hq, hpa, -, h⟩
  obtain ⟨p', e, rfl⟩ := List.eq_nil_or_concat p |>.resolve_left hp
  rw [List.concat_eq_append] at h hpa
  have hlast : e = d := by
    obtain ⟨u, hu⟩ := hpa
    rw [← List.append_assoc] at hu
    simpa using (List.append_inj' hu rfl).2
  exact h.no_final hq hd (by simp [hlast])

/-- A text with one `m`, at its end, loses a sequence with it or nothing at all. -/
theorem plain_last {t : List Char} (h : 'm' ∉ t) :
    plain (t ++ ['m']) = t ++ ['m'] ∨ 'm' ∉ plain (t ++ ['m']) := by
  induction t with
  | nil => exact .inl rfl
  | cons c t ih =>
    have hc : c ≠ 'm' := fun heq => h (heq ▸ List.mem_cons_self)
    have ht : 'm' ∉ t := fun hm => h (List.mem_cons_of_mem c hm)
    rw [List.cons_append]
    cases hstarts : startsSgr (c :: (t ++ ['m'])) with
    | false =>
      rw [plain_cons hstarts]
      rcases ih ht with heq | hno
      · exact .inl (by rw [heq])
      · refine .inr fun hm => ?_
        rcases List.mem_cons.mp hm with heq | hm
        · exact hc heq.symm
        · exact hno hm
    | true =>
      obtain ⟨u, rest, hu, heq⟩ := (startsSgr_iff _).mp hstarts
      cases List.eq_nil_or_concat rest with
      | inl hnil =>
        refine .inr ?_
        rw [heq, plain_sgr rest hu, hnil]
        simp
      | inr hrest =>
        -- the sequence would have an `m` before the only one
        obtain ⟨rest', e, rfl⟩ := hrest
        rw [List.concat_eq_append, ← List.append_assoc, ← List.cons_append] at heq
        obtain ⟨hbody, -⟩ := List.append_inj' heq rfl
        obtain ⟨params, rfl, -⟩ := hu
        exact absurd (hbody ▸ by simp) h

/-- What a text that only looks like a sequence keeps weighs something. -/
theorem plain_run_nonneg {stuff : List Char} (hstuff : 'm' ∉ stuff)
    (hno : ¬IsSgr (ESC :: '[' :: stuff ++ ['m'])) :
    0 ≤ total (plain (ESC :: '[' :: stuff ++ ['m'])) ∧
      0 < (plain (ESC :: '[' :: stuff ++ ['m'])).length := by
  have hbracket : startsSgr ('[' :: (stuff ++ ['m'])) = false := by
    rw [Bool.eq_false_iff, Ne, startsSgr_iff]
    rintro ⟨_, rest, ⟨params, rfl, -⟩, heq⟩
    exact absurd (List.cons.inj heq).1 (by decide)
  have hesc : startsSgr (ESC :: '[' :: (stuff ++ ['m'])) = false := by
    rw [Bool.eq_false_iff, Ne, startsSgr_iff]
    rintro ⟨t, rest, ht, heq⟩
    cases List.eq_nil_or_concat rest with
    | inl hnil =>
      rw [hnil, List.append_nil] at heq
      exact hno (by simpa using heq ▸ ht)
    | inr hrest =>
      obtain ⟨rest', e, rfl⟩ := hrest
      rw [List.concat_eq_append, ← List.append_assoc, ← List.cons_append, ← List.cons_append] at heq
      obtain ⟨hbody, -⟩ := List.append_inj' heq rfl
      obtain ⟨params, rfl, -⟩ := ht
      have hm : 'm' ∈ ESC :: '[' :: stuff := hbody ▸ by simp
      simp only [List.mem_cons] at hm
      rcases hm with h | h | h
      · exact absurd h (by decide)
      · exact absurd h (by decide)
      · exact hstuff h
  rw [List.cons_append, List.cons_append, plain_cons hesc, plain_cons hbracket]
  refine ⟨?_, by simp⟩
  have hhead : weight ESC = 2 ∧ weight '[' = 2 := by decide
  rw [total_cons, total_cons, hhead.1, hhead.2]
  rcases plain_last hstuff with heq | hm
  · -- a character that is no parameter outweighs the `m`
    obtain ⟨c, hc, hparam⟩ : ∃ c ∈ stuff, isParam c = false := by
      by_contra hall
      refine hno ⟨stuff, rfl, fun c hc => ?_⟩
      cases h : isParam c with
      | true => rfl
      | false => exact absurd ⟨c, hc, h⟩ hall
    obtain ⟨before, after, rfl⟩ := List.append_of_mem hc
    have hbefore := total_nonneg (fun hm => hstuff (List.mem_append_left _ hm) : 'm' ∉ before)
    have hafter := total_nonneg
      (fun hm => hstuff (List.mem_append_right _ (List.mem_cons_of_mem c hm)) : 'm' ∉ after)
    have hcm : c ≠ 'm' := fun h => hstuff (h ▸ by simp)
    rw [heq]
    simp only [total_append, total_cons, total_nil, weight, hcm, hparam]
    simp
    omega
  · have := total_nonneg hm
    omega

/-- Dropping characters other than `m` lowers the weight. -/
theorem total_le_of_sublist {a b : List Char} (h : a.Sublist b) (hm : 'm' ∉ b) : total a ≤ total b := by
  induction h with
  | slnil => exact le_rfl
  | cons c h ih =>
    have hc : c ≠ 'm' := fun heq => hm (heq ▸ List.mem_cons_self)
    have hrest := ih fun hmem => hm (List.mem_cons_of_mem c hmem)
    have hweight : 0 ≤ weight c := by
      rw [weight, if_neg hc]
      split_ifs <;> omega
    rw [total_cons]
    omega
  | cons_cons c h ih =>
    rw [total_cons, total_cons]
    have hrest := ih fun hmem => hm (List.mem_cons_of_mem c hmem)
    omega

/-- Either all is as it should be and the filter keeps the plain text, or it keeps less of it,
which weighs no more. -/
def EqualOrLess (fits : Prop) (out whole : List Char) : Prop :=
  (fits ∧ out = whole) ∨ (¬fits ∧ total out ≤ total whole ∧ out.length < whole.length)

/-- Two texts, one after the other. -/
theorem EqualOrLess.append {p q : Prop} {a b c d : List Char} (h : EqualOrLess p a b)
    (h' : EqualOrLess q c d) : EqualOrLess (p ∧ q) (a ++ c) (b ++ d) := by
  have key : total a ≤ total b ∧ a.length ≤ b.length ∧ total c ≤ total d ∧ c.length ≤ d.length := by
    rcases h with ⟨-, rfl⟩ | ⟨-, h1, h2⟩ <;> rcases h' with ⟨-, rfl⟩ | ⟨-, h3, h4⟩ <;>
      exact ⟨by omega, by omega, by omega, by omega⟩
  rw [EqualOrLess, total_append, total_append, List.length_append, List.length_append]
  rcases h with ⟨hp, rfl⟩ | ⟨hp, -, hlt⟩
  · rcases h' with ⟨hq, rfl⟩ | ⟨hq, -, hlt'⟩
    · exact .inl ⟨⟨hp, hq⟩, rfl⟩
    · exact .inr ⟨fun hall => hq hall.2, by omega, by omega⟩
  · exact .inr ⟨fun hall => hp hall.1, by omega, by omega⟩

/-- A sequence that ends in something else than `m`, or does not end, is kept as far as the
look-ahead holds it. -/
theorem ahead_or_less {run : List Char} (hm : 'm' ∉ run) :
    EqualOrLess (Fits run) (ahead run).as_str (plain run) := by
  have hlast : run.getLast? ≠ some 'm' := fun h => hm (List.mem_of_getLast? h)
  obtain ⟨hsub, -, hfits⟩ := Text.build_facts (N := 32) run
  rw [Fits, if_neg hlast, plain_of_no_m hm]
  by_cases h : bytes run ≤ 32
  · exact .inl ⟨h, hfits.mpr h⟩
  · exact .inr ⟨h, total_le_of_sublist hsub hm, Text.build_shorter h⟩

/-- A sequence that ends in `m` is dropped whole. -/
theorem dropped_or_less {stuff : List Char} (hstuff : 'm' ∉ stuff) :
    EqualOrLess (Fits (ESC :: '[' :: stuff ++ ['m'])) []
      (plain (ESC :: '[' :: stuff ++ ['m'])) := by
  have hlast : (ESC :: '[' :: stuff ++ ['m']).getLast? = some 'm' := by
    rw [List.getLast?_append]
    rfl
  rw [Fits, if_pos hlast]
  by_cases h : IsSgr (ESC :: '[' :: stuff ++ ['m'])
  · refine .inl ⟨h, ?_⟩
    rw [← List.append_nil (ESC :: '[' :: stuff ++ ['m']), plain_sgr [] h]
    rfl
  · exact .inr ⟨h, plain_run_nonneg hstuff h⟩

/-- **One text** through the filter. -/
theorem kept_or_less (text : List Char) :
    EqualOrLess (AllFit text) (kept none text) (plain text) := by
  induction hn : text.length using Nat.strong_induction_on generalizing text with
  | _ n ih =>
    cases text with
    | nil => exact .inl ⟨by simp [AllFit, sequences], rfl⟩
    | cons c rest =>
      by_cases hesc : c = ESC ∧ rest.head? = some '['
      · -- a sequence begins: `stuff` stands before its final byte
        obtain ⟨rfl, hbracket⟩ := hesc
        obtain ⟨rest, rfl⟩ : ∃ after, rest = '[' :: after := by
          cases rest with
          | nil => simp at hbracket
          | cons b after => exact ⟨after, by simpa using hbracket⟩
        obtain ⟨stuff, tail, rfl, hstuff, htail⟩ : ∃ stuff tail, rest = stuff ++ tail ∧
            (∀ d ∈ '[' :: stuff, isFinal d = false) ∧ ∀ d, tail.head? = some d → isFinal d = true := by
          refine ⟨rest.takeWhile fun d => !isFinal d, rest.dropWhile fun d => !isFinal d,
            (List.takeWhile_append_dropWhile).symm, ?_, ?_⟩
          · refine List.forall_mem_cons.mpr ⟨by decide, fun d hd => ?_⟩
            simpa using List.mem_takeWhile_imp hd
          · intro d hd
            have := List.head?_dropWhile_not (fun d => !isFinal d) rest
            rw [hd] at this
            simpa using this
        have hm : 'm' ∉ stuff := fun h =>
          absurd (hstuff 'm' (List.mem_cons_of_mem _ h)) (by decide)
        have hrun : 'm' ∉ ESC :: '[' :: stuff := by
          simp only [List.mem_cons, not_or]
          exact ⟨by decide, by decide, hm⟩
        have hkept : kept none (ESC :: '[' :: (stuff ++ tail)) =
            kept (some (ahead (ESC :: '[' :: stuff))) tail := by
          have hin := kept_run ('[' :: stuff) tail [ESC] hstuff
          rw [kept]
          exact hin
        have hseq : sequences none (ESC :: '[' :: (stuff ++ tail)) =
            sequences (some (ESC :: '[' :: stuff)) tail := by
          have hin := sequences_run ('[' :: stuff) tail [ESC] hstuff
          rw [sequences]
          exact hin
        rw [AllFit, hkept, hseq]
        cases tail with
        | nil =>
          -- the text ends inside the sequence
          rw [List.append_nil]
          simpa [sequences, kept] using ahead_or_less hrun
        | cons f tail =>
          have hf := htail f rfl
          have hshort : tail.length < n := by
            rw [← hn]
            simp
            omega
          have hplain : plain (ESC :: '[' :: (stuff ++ f :: tail)) =
              plain (ESC :: '[' :: stuff ++ [f]) ++ plain tail := by
            rcases plain_append (ESC :: '[' :: stuff ++ [f]) tail with ⟨-, h⟩ | ⟨hcut, -⟩
            · rw [← h]
              simp
            · exact absurd hcut (not_cut_of_final _ _ hf)
          have hfirst : EqualOrLess (Fits (ESC :: '[' :: stuff ++ [f]))
              (if f = 'm' then [] else (ahead (ESC :: '[' :: stuff ++ [f])).as_str)
              (plain (ESC :: '[' :: stuff ++ [f])) := by
            by_cases hfm : f = 'm'
            · subst hfm
              rw [if_pos rfl]
              exact dropped_or_less hm
            · rw [if_neg hfm]
              refine ahead_or_less fun h => ?_
              rcases List.mem_append.mp h with h | h
              · exact hrun h
              · exact hfm (List.mem_singleton.mp h).symm
          simp only [sequences, kept, hf, if_true, hplain, List.forall_mem_cons, ← ahead_append]
          exact hfirst.append (ih tail.length hshort tail rfl)
      · have hno : startsSgr (c :: rest) = false := by
          cases rest with
          | nil => rfl
          | cons b rest =>
            simp only [List.head?_cons, Option.some.injEq, not_and] at hesc
            by_cases hc : c = ESC
            · simp [startsSgr, hesc hc]
            · simp [startsSgr, hc]
        have hkept : kept none (c :: rest) = c :: kept none rest := by rw [kept]; simp only [hesc, if_false]
        have hseq : sequences none (c :: rest) = sequences none rest := by
          rw [sequences]; simp only [hesc, if_false]
        rw [hkept, plain_cons hno, AllFit, hseq]
        have hhead : EqualOrLess True [c] [c] := .inl ⟨trivial, rfl⟩
        simpa [AllFit] using hhead.append (ih rest.length (by simp [← hn]) rest rfl)

/-! ## Many texts -/

theorem whole_cons (text : List Char) (texts : List (List Char)) :
    Whole (text :: texts) ↔ ¬Cut text texts.flatten ∧ Whole texts := by
  constructor
  · intro h
    refine ⟨by simpa using h [text] texts rfl, ?_⟩
    rintro before after rfl ⟨p, q, hp, hq, hpb, hqa, hsgr⟩
    refine h (text :: before) after rfl ⟨p, q, hp, hq, ?_, hqa, hsgr⟩
    exact hpb.trans (List.suffix_append text before.flatten)
  · rintro ⟨hfirst, hrest⟩ before after heq ⟨p, q, hp, hq, hpb, hqa, hsgr⟩
    cases before with
    | nil => exact hp (List.suffix_nil.mp hpb)
    | cons t before =>
      obtain ⟨rfl, rfl⟩ := List.cons.inj heq
      rw [List.flatten_cons] at hpb
      rcases List.suffix_or_suffix_of_suffix hpb (List.suffix_append text before.flatten) with
        hsuffix | ⟨p', rfl⟩
      · exact hrest before after rfl ⟨p, q, hp, hq, hsuffix, hqa, hsgr⟩
      · -- the sequence begins in the first text already
        cases hp' : p' with
        | nil =>
          refine hrest before after rfl ⟨p' ++ before.flatten, q, hp, hq, ?_, hqa, hsgr⟩
          simp [hp']
        | cons d p'' =>
          refine hfirst ⟨p', before.flatten ++ q, by simp [hp'], by simp [hq], ?_, ?_, ?_⟩
          · obtain ⟨u, hu⟩ := hpb
            rw [← List.append_assoc, List.append_left_inj] at hu
            exact ⟨u, hu⟩
          · have hjoin : (before ++ after).flatten = before.flatten ++ after.flatten :=
              List.flatten_append
            exact hjoin ▸ (List.prefix_append_right_inj _).mpr hqa
          · rwa [← List.append_assoc]

/-- Texts that cut no sequence lose one by one what they lose together; others weigh less. -/
theorem plain_texts (texts : List (List Char)) :
    (Whole texts ∧ texts.flatMap plain = plain texts.flatten) ∨
      (¬Whole texts ∧ total (texts.flatMap plain) < total (plain texts.flatten)) := by
  induction texts with
  | nil =>
    refine .inl ⟨?_, rfl⟩
    rintro before after heq ⟨p, q, hp, -, hpb, -⟩
    obtain ⟨rfl, -⟩ := List.append_eq_nil_iff.mp heq.symm
    exact hp (List.suffix_nil.mp hpb)
  | cons text texts ih =>
    rw [List.flatMap_cons, List.flatten_cons, whole_cons, total_append]
    rcases plain_append text texts.flatten with ⟨hno, heq⟩ | ⟨hcut, hlt⟩
    · rw [heq, total_append]
      rcases ih with ⟨hwhole, heq'⟩ | ⟨hwhole, hlt⟩
      · exact .inl ⟨⟨hno, hwhole⟩, by rw [heq']⟩
      · exact .inr ⟨fun h => hwhole h.2, by omega⟩
    · refine .inr ⟨fun h => h.1 hcut, ?_⟩
      rcases ih with ⟨-, heq'⟩ | ⟨-, hlt'⟩
      · rw [heq']
        exact hlt
      · omega

theorem kept_texts (texts : List (List Char)) :
    EqualOrLess (∀ text ∈ texts, AllFit text) (texts.flatMap (kept none)) (texts.flatMap plain) := by
  induction texts with
  | nil => exact .inl ⟨by simp, rfl⟩
  | cons text texts ih =>
    simp only [List.forall_mem_cons, List.flatMap_cons]
    exact (kept_or_less text).append ih

/-- **Texts one after the other.** The filter keeps the plain text of all exactly where each
one's sequences fit and none is cut between two. -/
theorem kept_texts_iff (texts : List (List Char)) :
    texts.flatMap (kept none) = plain texts.flatten ↔
      (∀ text ∈ texts, AllFit text) ∧ Whole texts := by
  rcases plain_texts texts with ⟨hwhole, heq⟩ | ⟨hcut, hlt⟩
  · rw [← heq]
    rcases kept_texts texts with ⟨hfit, hkept⟩ | ⟨hfit, -, hshort⟩
    · exact ⟨fun _ => ⟨hfit, hwhole⟩, fun _ => hkept⟩
    · refine ⟨fun h => ?_, fun h => absurd h.1 hfit⟩
      rw [h] at hshort
      exact absurd hshort (lt_irrefl _)
  · refine ⟨fun h => ?_, fun h => absurd h.2 hcut⟩
    -- what the filter keeps weighs no more than the texts' own plain text
    have hle : total (texts.flatMap (kept none)) ≤ total (texts.flatMap plain) := by
      rcases kept_texts texts with ⟨-, hkept⟩ | ⟨-, hle, -⟩
      · rw [hkept]
      · exact hle
    rw [h] at hle
    omega

/-! ## The calls -/

/-- A short line goes out at once. -/
theorem write_str_short {line : List Char} (h : Short line) (depth : ℕ) :
    write_str false (depth + 1) line = some (onlcr (kept none line)) := by
  rw [write_str]
  by_cases hesc : ESC ∉ line
  · rw [if_pos (.inr hesc), send_eq, kept_of_no_esc hesc]
  · have hlen := h.resolve_left hesc
    have hstrip : strip_sgr line = kept none line := by
      rw [strip_sgr, strip_eq line none Text.new (by simp [Text.len]; omega)]
      rfl
    rw [if_neg (by simpa using hesc), if_pos hlen, send_eq, hstrip]

/-- A longer line is fed back to `write_str` for ever. -/
theorem write_str_stuck {line : List Char} (hline : split_inclusive line = [line]) (h : ¬Short line)
    (depth : ℕ) : write_str false depth line = none := by
  induction depth with
  | zero => rfl
  | succ depth ih =>
    rw [Short, not_or] at h
    rw [write_str, if_neg (by simpa using h.1), if_neg h.2, hline]
    simp [ih]

/-- What the calls of a list give, where each is known to give it. -/
theorem mapM_of_forall {f : List Char → Option (List Char)} {g : List Char → List Char}
    {texts : List (List Char)} (h : ∀ text ∈ texts, f text = some (g text)) :
    texts.mapM f = some (texts.map g) := by
  induction texts with
  | nil => rfl
  | cons text texts ih =>
    rw [List.forall_mem_cons] at h
    simp [List.mapM_cons, h.1, ih h.2]

theorem forall_of_mapM {f : List Char → Option (List Char)} {texts outs : List (List Char)}
    (h : texts.mapM f = some outs) : ∀ text ∈ texts, ∃ out, f text = some out := by
  induction texts generalizing outs with
  | nil => simp
  | cons text texts ih =>
    rw [List.mapM_cons] at h
    cases hf : f text with
    | none => simp [hf] at h
    | some out =>
      cases hrest : texts.mapM f with
      | none => simp [hf, hrest] at h
      | some rest => exact List.forall_mem_cons.mpr ⟨⟨out, hf⟩, ih hrest⟩

/-- A call whose lines are short needs no more than two open calls. -/
theorem write_str_two {s : List Char} (h : ∀ line ∈ split_inclusive s, Short line) (depth : ℕ) :
    write_str false (depth + 2) s = some (onlcr ((chunks s).flatMap (kept none))) := by
  by_cases hshort : Short s
  · rw [write_str_short hshort, chunks, if_pos hshort]
    simp
  · have hlong := hshort
    rw [Short, not_or] at hlong
    have hlines : (split_inclusive s).mapM (write_str false (depth + 1)) =
        some ((split_inclusive s).map fun line => onlcr (kept none line)) :=
      mapM_of_forall fun line hline => write_str_short (h line hline) depth
    rw [write_str, if_neg (by simpa using hlong.1), if_neg hlong.2, hlines, chunks, if_neg hshort,
      Option.map_some, onlcr, List.flatMap_assoc, List.flatMap_def]
    rfl

/-- A call ends, whatever the depth it has, only where its lines are short. -/
theorem short_of_write_str {depth : ℕ} {s out : List Char} (h : write_str false depth s = some out) :
    ∀ line ∈ split_inclusive s, Short line := by
  cases depth with
  | zero => simp [write_str] at h
  | succ depth =>
    intro line hline
    have hsub : line.Sublist s := by
      have := List.sublist_flatten_of_mem hline
      rwa [split_inclusive_flatten] at this
    by_cases hshort : Short s
    · rcases hshort with hesc | hlen
      · exact .inl fun hm => hesc (hsub.subset hm)
      · exact .inr ((bytes_le_of_sublist hsub).trans hlen)
    · rw [Short, not_or] at hshort
      rw [write_str, if_neg (by simpa using hshort.1), if_neg hshort.2,
        Option.map_eq_some_iff] at h
      obtain ⟨outs, houts, -⟩ := h
      by_contra hno
      obtain ⟨o, ho⟩ := forall_of_mapM houts line hline
      rw [write_str_stuck (split_inclusive_line hline) hno depth] at ho
      simp at ho

/-- Whatever the depth, a call that ends has sent what the filter keeps. -/
theorem write_str_some {depth : ℕ} {s out : List Char} (h : write_str false depth s = some out) :
    out = onlcr ((chunks s).flatMap (kept none)) := by
  have hlines := short_of_write_str h
  match depth with
  | 0 => simp [write_str] at h
  | 1 =>
    by_cases hshort : Short s
    · rw [write_str_short hshort, Option.some.injEq] at h
      rw [chunks, if_pos hshort, ← h]
      simp
    · -- a long text has a line, and no call is left for it
      have hlong := hshort
      rw [Short, not_or] at hlong
      rw [write_str, if_neg (by simpa using hlong.1), if_neg hlong.2,
        Option.map_eq_some_iff] at h
      obtain ⟨outs, houts, -⟩ := h
      cases hsplit : split_inclusive s with
      | nil =>
        have hflat := split_inclusive_flatten s
        rw [hsplit] at hflat
        exact absurd (.inl (by simp [← hflat])) hshort
      | cons line lines =>
        obtain ⟨o, ho⟩ := forall_of_mapM houts line (by rw [hsplit]; exact List.mem_cons_self)
        simp [write_str] at ho
  | depth + 2 =>
    rw [write_str_two hlines, Option.some.injEq] at h
    exact h.symm

/-- The texts of the calls are the calls. -/
theorem flatten_chunks (calls : List (List Char)) :
    (calls.flatMap chunks).flatten = calls.flatten := by
  induction calls with
  | nil => rfl
  | cons call calls ih =>
    have hcall : (chunks call).flatten = call := by
      rw [chunks]
      split
      · simp
      · exact split_inclusive_flatten call
    rw [List.flatMap_cons, List.flatten_append, ih, hcall, List.flatten_cons]

theorem onlcr_flatMap (texts : List (List Char)) :
    (texts.map fun s => onlcr ((chunks s).flatMap (kept none))).flatten =
      onlcr ((texts.flatMap chunks).flatMap (kept none)) := by
  induction texts with
  | nil => rfl
  | cons text texts ih =>
    rw [List.map_cons, List.flatten_cons, ih, List.flatMap_cons, List.flatMap_append, onlcr_append]

/-- Calls that all end have short lines, and have sent what the filter keeps. -/
theorem write_all_some {depth : ℕ} {calls : List (List Char)} {out : List Char}
    (h : write_all false depth calls = some out) :
    (∀ call ∈ calls, ∀ line ∈ split_inclusive call, Short line) ∧
      out = onlcr ((calls.flatMap chunks).flatMap (kept none)) := by
  rw [write_all, Option.map_eq_some_iff] at h
  obtain ⟨outs, houts, rfl⟩ := h
  have hsome := forall_of_mapM houts
  have hall : ∀ call ∈ calls,
      write_str false depth call = some (onlcr ((chunks call).flatMap (kept none))) := by
    intro call hcall
    obtain ⟨o, ho⟩ := hsome call hcall
    rw [ho, write_str_some ho]
  refine ⟨fun call hcall => short_of_write_str (hall call hcall), ?_⟩
  rw [mapM_of_forall hall, Option.some.injEq] at houts
  rw [← houts, onlcr_flatMap]

/-- **The output filter.** With colours off, two open calls are enough to send the whole text
without its SGR sequences and with its line ends, and no depth does it, unless every line is
short or holds no escape, every sequence a text begins is an SGR sequence or ends otherwise and
fits the look-ahead, and no SGR sequence is cut between two texts. -/
theorem write_all_exact_iff (calls : List (List Char)) :
    (write_all false 2 calls = some (onlcr (plain calls.flatten)) ↔ Kept calls) ∧
      ∀ depth, write_all false depth calls = some (onlcr (plain calls.flatten)) → Kept calls := by
  have hkept : ∀ depth, write_all false depth calls = some (onlcr (plain calls.flatten)) →
      Kept calls := by
    intro depth h
    obtain ⟨hlines, hout⟩ := write_all_some h
    rw [← flatten_chunks] at hout
    obtain ⟨hfit, hwhole⟩ := (kept_texts_iff _).mp (onlcr_injective hout).symm
    exact ⟨hlines, hfit, hwhole⟩
  refine ⟨⟨hkept 2, fun h => ?_⟩, hkept⟩
  have hall := mapM_of_forall fun call hcall => write_str_two (h.lines call hcall) 0
  rw [write_all, hall, Option.map_some, onlcr_flatMap,
    (kept_texts_iff _).mpr ⟨h.sequences, h.whole⟩, flatten_chunks]

/-- A colour cut between two calls goes out whole, an erase of the screen with many parameters
does not, and a line of 401 bytes with an escape ends the machine's stack. -/
theorem write_all_astray :
    (write_all false 2 [[ESC, '[', '3'], ['1', 'm']] = some [ESC, '[', '3', '1', 'm'] ∧
        onlcr (plain [[ESC, '[', '3'], ['1', 'm']].flatten) = []) ∧
      (write_all false 2 [ESC :: '[' :: List.replicate 31 '0' ++ ['K']] =
          some (ESC :: '[' :: List.replicate 30 '0') ∧
        onlcr (plain [ESC :: '[' :: List.replicate 31 '0' ++ ['K']].flatten) =
          ESC :: '[' :: List.replicate 31 '0' ++ ['K']) ∧
      ∀ depth, write_all false depth [ESC :: List.replicate 400 'a'] = none := by
  refine ⟨by decide, by decide +kernel, fun depth => ?_⟩
  obtain ⟨hline, hlong⟩ : split_inclusive (ESC :: List.replicate 400 'a') =
      [ESC :: List.replicate 400 'a'] ∧ ¬Short (ESC :: List.replicate 400 'a') := by
    decide +kernel
  generalize ESC :: List.replicate 400 'a' = line at hline hlong ⊢
  rw [write_all, List.mapM_cons, write_str_stuck hline hlong depth]
  rfl

end NanoChrono.Shell
