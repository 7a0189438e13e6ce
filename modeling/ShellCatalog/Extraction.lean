import ShellCatalog.AliasCommand.Basic
import ShellCatalog.Diagnostic
import ShellCatalog.Body
import ShellCatalog.Statement.Leading
import ShellCatalog.Word

/-!
# What a text defines

A text is cut into statements, and each statement is one of four things: a brace group, whose inside
is a text again; an alias command; a function header, with its body or with nothing behind it; or
nothing of interest.

**Only a brace group is looked into.** A function's body is one string of text, whatever it holds,
so nothing inside it is found.

**A header without a body dangles** when its statement is the last of its text. The body may begin
the next logical line, so the header is handed on.
-/

namespace ShellCatalog

/-- What has been found in a text. -/
structure Extraction where
  definitions : List Definition
  diagnostics : List Diagnostic
  /-- The last header that is still without its body, as the line that holds it. -/
  dangling : Option LogicalLine
  deriving DecidableEq, Repr

namespace Extraction

/-- Nothing found. -/
def empty : Extraction :=
  ⟨[], [], none⟩

/-- What two texts define, one after the other; a dangling header of the second replaces that of the
first. -/
def append (a b : Extraction) : Extraction :=
  ⟨a.definitions ++ b.definitions, a.diagnostics ++ b.diagnostics, b.dangling.or a.dangling⟩

/-- What a sequence of texts defines. -/
def concat (es : List Extraction) : Extraction :=
  es.foldr append empty

/-- Nothing to define, to report or to hand on. -/
def isEmpty (e : Extraction) : Bool :=
  e.definitions.isEmpty && e.diagnostics.isEmpty && e.dangling.isNone

theorem append_assoc (a b c : Extraction) : (a.append b).append c = a.append (b.append c) := by
  cases c with
  | mk _ _ dangling => cases dangling <;> simp [append]

@[simp] theorem empty_append (e : Extraction) : empty.append e = e := by
  cases e with
  | mk _ _ dangling => cases dangling <;> simp [append, empty]

@[simp] theorem append_empty (e : Extraction) : e.append empty = e := by
  simp [append, empty]

theorem concat_append (es fs : List Extraction) :
    concat (es ++ fs) = (concat es).append (concat fs) := by
  induction es with
  | nil => simp [concat]
  | cons e es ih => simp_all [concat, append_assoc]

theorem definitions_concat (es : List Extraction) :
    (concat es).definitions = es.flatMap definitions := by
  induction es with
  | nil => rfl
  | cons e es ih => rw [List.flatMap_cons, ← ih]; rfl

theorem diagnostics_concat (es : List Extraction) :
    (concat es).diagnostics = es.flatMap diagnostics := by
  induction es with
  | nil => rfl
  | cons e es ih => rw [List.flatMap_cons, ← ih]; rfl

end Extraction

/-- The name rule for a kind of definition. -/
def Profile.nameRule (p : Profile) : Kind → NameRule
  | .alias => p.aliasNames
  | .function => p.functionNames

/-- A definition with a good name is kept, one with a bad name is reported. -/
def define (p : Profile) (file : Path) (line : Nat) (kind : Kind) (name body : List Char) :
    Extraction :=
  if (p.nameRule kind).accepts name then
    ⟨[⟨.ofList name, kind, .ofList body, file, line⟩], [], none⟩
  else ⟨[], [.badName file line kind (.ofList name)], none⟩

/-- The inside of a statement that is a brace group. -/
def braceGroup? (p : Profile) (statement : List Char) : Option (List Char) :=
  if p.braceGroups ∧ statement.head? = some '{' then
    match Body.ofText p statement with
    | .block inner _ => some inner
    | .absent | .other => none
  else none

/-- A brace group is a block that begins with its brace. -/
theorem braceGroup?_eq_some_iff {p : Profile} {statement inner : List Char} :
    braceGroup? p statement = some inner ↔ p.braceGroups = true ∧
      statement.head? = some '{' ∧ ∃ offset, Body.ofText p statement = .block inner offset := by
  unfold braceGroup?
  rw [← and_assoc]
  split
  · next hbrace =>
    simp only [hbrace, true_and]
    cases Body.ofText p statement <;> simp
  · next hbrace => simp [hbrace]

theorem length_lt_of_braceGroup? {p : Profile} {statement inner : List Char}
    (h : braceGroup? p statement = some inner) : inner.length < statement.length := by
  obtain ⟨-, -, offset, hbody⟩ := braceGroup?_eq_some_iff.1 h
  exact Body.length_inner_lt hbody

namespace Extraction

/-- What a function header defines; `isLast` when no statement follows in its text. -/
def ofFunction (p : Profile) (file : Path) (s : Statement) (isLast : Bool) (h : Header) :
    Extraction :=
  match Body.ofText p h.rest with
  | .block inner _ => define p file s.line .function h.name (Body.dedent inner)
  | .absent => ⟨[], [], if isLast then some ⟨s.text, s.line, none⟩ else none⟩
  | .other => .empty

/-- What a statement that is no brace group defines. -/
def ofCommand (p : Profile) (file : Path) (s : Statement) (isLast : Bool) : Extraction :=
  match proposedAliases? p (words p s.text) with
  | some proposed =>
    .concat (proposed.map fun a ↦ define p file s.line .alias a.name a.body)
  | none =>
    match p.header? s.text with
    | some h => ofFunction p file s isLast h
    | none => .empty

/-- What a text of `file` defines that starts on physical line `line`. -/
def ofText (p : Profile) (file : Path) (text : List Char) (line : Nat) : Extraction :=
  .concat ((statements p text line).attach.map fun ⟨s, _hs⟩ ↦
    match _h : braceGroup? p (s.command p).text with
    | some inner => ofText p file inner (s.command p).line
    | none => ofCommand p file (s.command p) ((statements p text line).getLast? = some s))
termination_by text.length
decreasing_by
  exact Nat.lt_of_lt_of_le (length_lt_of_braceGroup? _h)
    (Nat.le_trans (length_dropLeading_le p s.text) (length_le_of_mem_statements _hs))

/-- What one statement of a text defines. -/
def ofStatement (p : Profile) (file : Path) (s : Statement) (isLast : Bool) : Extraction :=
  match braceGroup? p (s.command p).text with
  | some inner => ofText p file inner (s.command p).line
  | none => ofCommand p file (s.command p) isLast

/-- Where a statement begins in its text does not matter to what it defines. -/
theorem ofStatement_offset (p : Profile) (file : Path) (offset line : Nat) (text : List Char)
    (isLast : Bool) :
    ofStatement p file ⟨offset, line, text⟩ isLast = ofStatement p file ⟨0, line, text⟩ isLast :=
  rfl

/-- A statement defines what its command defines, wherever the command stands on its line. -/
theorem ofStatement_congr {p : Profile} {s t : Statement} (file : Path) (isLast : Bool)
    (text : (s.command p).text = (t.command p).text)
    (line : (s.command p).line = (t.command p).line) :
    ofStatement p file s isLast = ofStatement p file t isLast := by
  have hs : s.command p =
      ⟨(s.command p).offset, (t.command p).line, (t.command p).text⟩ := by rw [← text, ← line]
  rw [ofStatement, hs]
  rfl

/-- A text defines what its statements define, one after the other. -/
theorem ofText_eq (p : Profile) (file : Path) (text : List Char) (line : Nat) :
    ofText p file text line =
      .concat ((statements p text line).map fun s ↦
        ofStatement p file s ((statements p text line).getLast? = some s)) := by
  rw [ofText]
  refine congrArg _ (Eq.trans (List.map_congr_left fun ⟨s, hs⟩ _ ↦ ?_) List.attach_map_val)
  simp only [ofStatement]
  split
  · next heq => rw [heq]
  · next heq => rw [heq]

/-- A text that holds a single statement, with nothing to drop and no group, defines what the
command defines. -/
theorem ofText_of_single {p : Profile} {text : List Char} {line : Nat} {s : Statement} (file : Path)
    (single : statements p text line = [s]) (leading : afterLeading? p s.text = none)
    (group : braceGroup? p s.text = none) : ofText p file text line = ofCommand p file s true := by
  have hcommand : s.command p = s := Statement.command_of_none leading
  rw [ofText_eq, single]
  simp [ofStatement, hcommand, group, concat]

/-- What a logical line of `file` defines. A truncated line defines nothing and is reported. -/
def ofLine (p : Profile) (file : Path) (l : LogicalLine) : Extraction :=
  match l.leftOpen with
  | some t => ⟨[], [.unterminated file t], none⟩
  | none => ofText p file l.text l.line

theorem ofLine_cases (p : Profile) (file : Path) (l : LogicalLine) :
    ofLine p file l = ofText p file l.text l.line ∨
      ∃ t, l.leftOpen = some t ∧ ofLine p file l = ⟨[], [.unterminated file t], none⟩ := by
  unfold ofLine
  split
  · next t hopen => exact .inr ⟨t, hopen, rfl⟩
  · exact .inl rfl

end Extraction

end ShellCatalog
