import Mathlib.Tactic

/-! # The transaction journal

Written before a transaction touches anything outside its own directory, it lists every step in
the order the steps run. `Journal.validate` is what reading one back checks. -/

/-! ## Names and paths

`Path` is an absolute path by its components, `[]` for `/`. `isComponent` is the one small alphabet
everything that becomes part of a path is checked against, and `isSystemPath` the check every
filesystem operation makes: every component passes, and the text is at most 1024 bytes long.

Components are checked character by character. Only ASCII characters pass, so for an accepted
text characters count bytes. -/

namespace NanoChrono.Ncpkg

/-- An absolute path: the list of its components. -/
abbrev Path := List String

/-- The longest single component, package id or name. -/
def maxName : Nat := 128

/-- The characters a component is made of: `[A-Za-z0-9._+-]`. -/
def componentChar (b : Char) : Bool :=
  b.isAlphanum || b == '.' || b == '_' || b == '+' || b == '-'

/-- Names Windows reserves, with or without an extension. -/
def reserved (component : List Char) : Bool :=
  let stem := (component.takeWhile (· != '.')).map Char.toUpper
  [['C', 'O', 'N'], ['P', 'R', 'N'], ['A', 'U', 'X'], ['N', 'U', 'L'],
    ['C', 'L', 'O', 'C', 'K', '$']].contains stem ||
  match stem with
  | [a, b, c, d] =>
    ([a, b, c] == ['C', 'O', 'M'] || [a, b, c] == ['L', 'P', 'T']) && '1' ≤ d && d ≤ '9'
  | _ => false

/-- One path component: 1 to 128 characters of the alphabet, not starting or ending with a dot,
not a reserved device name. -/
def isComponent (c : String) : Bool :=
  let s := c.toList
  !s.isEmpty && s.length ≤ maxName && s.head? != some '.' && s.getLast? != some '.' &&
    s.all componentChar && !reserved s

/-- A package id: at least two segments of `[a-z0-9]` joined by `-` inside a segment and `.`
between them, 3 to 128 characters. -/
def isPackageId (id : String) : Bool :=
  let s := id.toList
  3 ≤ s.length && s.length ≤ maxName && s.contains '.' &&
    (s.splitOn '.').all fun seg =>
      !seg.isEmpty && seg.head? != some '-' && seg.getLast? != some '-' &&
        seg.all fun b => b.isLower || b.isDigit || b == '-'

/-- A library, command or plugin-provided name: lower case `[a-z0-9][a-z0-9._+-]*`, at most 64
characters, a valid component. -/
def isName (name : String) : Bool :=
  let s := name.toList
  s.length ≤ 64 && (s.head?.any fun b => b.isLower || b.isDigit) &&
    (s.all fun b => b.isLower || b.isDigit || b == '.' || b == '_' || b == '+' || b == '-') &&
    isComponent name

namespace Path

/-- The length of a path's text: a `/` before each component. -/
def textLength (p : Path) : Nat :=
  (p.map fun c => c.toList.length + 1).sum

/-- A path's text. -/
def text (p : Path) : String :=
  String.join (p.map ("/" ++ ·))

/-- A path the installer's alphabet admits: `/`, then components. -/
def isSystemPath (p : Path) : Bool :=
  !p.isEmpty && p.textLength ≤ 1024 && p.all isComponent

/-- The parent of a path; `/` is its own. -/
def parent (p : Path) : Path :=
  p.dropLast

/-- `dir` and `name` joined. -/
def join (dir : Path) (name : String) : Path :=
  dir ++ [name]

/-- How deep a path lies. -/
def depth (p : Path) : Nat :=
  p.length

@[simp] theorem parent_nil : parent [] = [] := rfl

@[simp] theorem parent_join (d : Path) (n : String) : (d.join n).parent = d := by
  simp [parent, join]

@[simp] theorem join_ne_nil (d : Path) (n : String) : d.join n ≠ [] := by
  simp [join]

/-- A path other than `/` is its last component in its parent. -/
theorem join_parent {p : Path} (h : p ≠ []) : p.parent.join (p.getLast h) = p :=
  List.dropLast_append_getLast h

theorem parent_prefix (p : Path) : p.parent <+: p :=
  List.dropLast_prefix p

/-- A proper prefix of a path is a prefix of its parent. -/
theorem prefix_parent_of_ne {a p : Path} (h : a <+: p) (hne : a ≠ p) : a <+: p.parent := by
  obtain ⟨t, rfl⟩ := h
  have ht : t ≠ [] := by rintro rfl; simp at hne
  rw [parent, List.dropLast_append_of_ne_nil ht]
  exact List.prefix_append _ _

theorem parent_length_lt {p : Path} (h : p ≠ []) : p.parent.length < p.length := by
  rw [parent, List.length_dropLast]
  have := List.length_pos_iff.2 h
  omega

/-- Two paths that share an extension are comparable. -/
theorem prefix_total {a b p : Path} (ha : a <+: p) (hb : b <+: p) : a <+: b ∨ b <+: a :=
  List.prefix_or_prefix_of_prefix ha hb

@[simp] theorem textLength_nil : textLength [] = 0 := rfl

@[simp] theorem textLength_append (a b : Path) :
    textLength (a ++ b) = a.textLength + b.textLength := by
  simp [textLength]

theorem length_le_textLength (p : Path) : p.length ≤ p.textLength := by
  induction p with
  | nil => simp
  | cons c p ih => simp only [textLength, List.map_cons, List.sum_cons, List.length_cons] at *; omega

theorem isSystemPath_iff {p : Path} :
    p.isSystemPath = true ↔ p ≠ [] ∧ p.textLength ≤ 1024 ∧ ∀ c ∈ p, isComponent c = true := by
  simp [isSystemPath, and_assoc]

/-- The ancestors of an admitted path are admitted. -/
theorem isSystemPath_of_prefix {a p : Path} (hp : p.isSystemPath = true) (h : a <+: p)
    (hne : a ≠ []) : a.isSystemPath = true := by
  obtain ⟨t, rfl⟩ := h
  rw [isSystemPath_iff] at hp ⊢
  simp only [textLength_append, List.mem_append] at hp
  exact ⟨hne, by omega, fun c hc => hp.2.2 c (.inl hc)⟩

end Path

/-- One atomic step. -/
inductive Step where
  /-- Create a directory that did not exist. -/
  | mkdir (path : Path)
  /-- Move an existing file aside, into the transaction's backups. -/
  | backup (src dst : Path)
  /-- Move a staged file into place, where nothing is. -/
  | place (src dst : Path)
  deriving DecidableEq, Repr

/-- A transaction as the journal records it. -/
structure Journal where
  tx : String
  op : String
  package : String
  steps : List Step
  /-- Directories to remove after the commit if they ended up empty, deepest first. -/
  cleanup : List Path
  deriving DecidableEq, Repr

namespace Journal

/-- The journal file. -/
def PATH : Path := ["var", "lib", "ncpkg", "journal.json"]

/-- The journal while it is being written. -/
def TMP : Path := ["var", "lib", "ncpkg", "journal.json.tmp"]

/-- Staging and backups live in a directory of the transaction's own under this one. -/
def TX_DIR : Path := ["var", "lib", "ncpkg", "tx"]

/-- The transaction's own directory. -/
def txDir (j : Journal) : Path := TX_DIR.join j.tx

end Journal

namespace Step

/-- Whether every path a step names is in the installer's alphabet. -/
def pathsOk : Step → Bool
  | .mkdir p => p.isSystemPath
  | .backup src dst => src.isSystemPath && dst.isSystemPath
  | .place src dst => src.isSystemPath && dst.isSystemPath

end Step

namespace Journal

/-- What reading a journal back checks. -/
def validate (j : Journal) : Except String Journal :=
  if !j.steps.all Step.pathsOk then
    .error "journal: a step names a path outside the installer's alphabet"
  else if !j.cleanup.all Path.isSystemPath then .error "journal: bad cleanup entry"
  else if !isComponent j.tx then .error "journal: bad transaction id"
  else .ok j

/-- A journal whose paths and id are in the alphabet reads back as itself. -/
theorem validate_eq_ok {j : Journal} (hs : ∀ st ∈ j.steps, st.pathsOk = true)
    (hc : ∀ d ∈ j.cleanup, d.isSystemPath = true) (ht : isComponent j.tx = true) :
    j.validate = .ok j := by
  have hs' : j.steps.all Step.pathsOk = true := List.all_eq_true.2 hs
  have hc' : j.cleanup.all Path.isSystemPath = true := List.all_eq_true.2 hc
  simp [validate, hs', hc', ht]

end Journal

end NanoChrono.Ncpkg
