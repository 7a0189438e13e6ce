import ShellCatalog.Dialect.Profile
import ShellCatalog.Nesting.HereDoc

/-!
# Reading one character

`Nesting.step` takes the state, the next character and the text after it, and answers the new state
and the character's class. The text after it is looked at in two places only: a `<` in code may
begin a block comment, and it may announce a here-document.

An escape character makes the next character literal whatever the mode (`step_of_escaping`). In code
the first rule that applies wins: escape, block comment, quotes, comment, brackets, here-document,
end of the line.
-/

namespace ShellCatalog.Nesting

/-- A comment character begins a comment only where a word may begin. -/
def wordMayStart (s : Nesting) : Bool :=
  match s.lastChar? with
  | none => true
  | some c => isSpace c || c ∈ [';', '&', '|', '(', ')']

/-- Enters a mode that remembers the line of its opening. -/
def enter (s : Nesting) (mode : Mode) : Nesting :=
  { s with mode := mode, openedOn := s.line }

/-- Opens a group in code. -/
def openGroup (s : Nesting) (bracket : Bracket) : Nesting :=
  { s with groups := ⟨bracket, s.line, none⟩ :: s.groups }

/-- Closes the innermost group when its bracket matches, and resumes the double quote that the group
interrupted. A closer that does not match changes nothing. -/
def closeGroup (s : Nesting) (bracket : Bracket) : Nesting :=
  match s.groups with
  | [] => s
  | g :: outer =>
    if g.bracket = bracket then
      match g.quoteLine with
      | none => { s with groups := outer }
      | some line => { s with groups := outer, mode := .double, openedOn := line }
    else s

/-- The end of a line of code: the bodies of the announced here-documents begin. -/
def endCodeLine (s : Nesting) : Nesting :=
  if s.hereDocs.isEmpty then s else { s with mode := .hereDoc, lineSoFar := [] }

/-- The two innermost groups are parentheses, as in arithmetic, where `<<` is a shift. -/
def inArithmetic (s : Nesting) : Bool :=
  match s.groups with
  | g :: h :: _ => g.bracket = .paren ∧ h.bracket = .paren
  | _ => false

/-- Queues the here-document that `text` announces, if it announces one here. -/
def announceHereDoc (s : Nesting) (text : List Char) : Nesting :=
  if s.inArithmetic then s
  else
    match HereDoc.announced? s.line text with
    | none => s
    | some doc => { s with hereDocs := s.hereDocs ++ [doc] }

/-- The first here-document in the queue ends with the line read so far. -/
def atHereDocEnd (s : Nesting) : Bool :=
  match s.hereDocs with
  | [] => false
  | doc :: _ => doc.isEndedBy s.lineSoFar

/-- One character of code. -/
def inCode (p : Profile) (s : Nesting) (c : Char) (rest : List Char) : Nesting × CharRole :=
  if c = p.escape then ({ s with escaping := true }, .escape)
  else if p.blockComments ∧ c = '<' ∧ rest.head? = some '#' then
    (s.enter (.blockComment .opening), .comment)
  else if (c = '\'' ∨ c = '"') ∧ p.hereStrings ∧ s.lastChar? = some '@' then
    ({ s.enter (.hereString c) with lineSoFar := [] }, .quoteDelim)
  else if c = '\'' then
    (s.enter (if p.ansiQuotes ∧ s.lastChar? = some '$' then .ansi else .single), .quoteDelim)
  else if c = '"' then (s.enter .double, .quoteDelim)
  else if c = '\x60' ∧ p.backquotes then (s.enter .backquote, .quoteDelim)
  else if c = p.comment ∧ s.wordMayStart then ({ s with mode := .comment }, .comment)
  -- Only the first of two angle brackets announces: it has seen the second one coming.
  else if c = '<' ∧ p.hereDocs ∧ s.lastChar? ≠ some '<' then
    (s.announceHereDoc (c :: rest), .code)
  else if c = '\n' then (s.endCodeLine, .code)
  else
    match Bracket.ofOpener? c, Bracket.ofCloser? c with
    | some b, _ => (s.openGroup b, .code)
    | none, some b => (s.closeGroup b, .code)
    | none, none => (s, .code)

/-- One character inside a quote that ends with `quote` and in which `escape` is an escape
character. -/
def inQuotes (escape : Option Char) (quote : Char) (s : Nesting) (c : Char) :
    Nesting × CharRole :=
  if some c = escape then ({ s with escaping := true }, .escape)
  else if c = quote then ({ s with mode := .code }, .quoteDelim)
  else (s, .quoted)

/-- One character inside double quotes, which an opening parenthesis after a quoted dollar sign
interrupts. -/
def inDoubleQuotes (p : Profile) (s : Nesting) (c : Char) : Nesting × CharRole :=
  if c = p.escape then ({ s with escaping := true }, .escape)
  else if c = '(' ∧ s.last = some ('$', .quoted) then
    ({ s with groups := ⟨.paren, s.line, some s.openedOn⟩ :: s.groups, mode := .code }, .code)
  else inQuotes none '"' s c

/-- One character of a block comment. The pair that ends it shares no character with the pair that
opens it. -/
def inBlockComment (progress : BlockComment) (s : Nesting) (c : Char) : Nesting × CharRole :=
  match progress with
  | .opening => ({ s with mode := .blockComment (.inside false) }, .comment)
  | .inside closing =>
    if closing ∧ c = '>' then ({ s with mode := .code }, .comment)
    -- The comment goes on, and a hash may be the first half of its end.
    else ({ s with mode := .blockComment (.inside (c = '#')) }, .comment)

/-- One character of a here-document's body. The newline after the delimiter takes the document off
the queue, and the last one returns to code. -/
def inHereDoc (s : Nesting) (c : Char) : Nesting × CharRole :=
  if c = '\n' then
    let waiting := if s.atHereDocEnd then s.hereDocs.tail else s.hereDocs
    ({ s with
        hereDocs := waiting
        mode := if waiting.isEmpty then .code else .hereDoc
        lineSoFar := [] }, .hereBody)
  else ({ s with lineSoFar := s.lineSoFar ++ [c] }, .hereBody)

/-- One character of a here-string's body, which ends at its quote and `@` in front of a line. -/
def inHereString (quote : Char) (s : Nesting) (c : Char) : Nesting × CharRole :=
  if c = '\n' then ({ s with lineSoFar := [] }, .hereBody)
  else
    let line := s.lineSoFar ++ [c]
    ({ s with lineSoFar := line, mode := if line = [quote, '@'] then .code else s.mode }, .hereBody)

/-- One character in its mode, an escape that waits for it first. -/
def react (p : Profile) (s : Nesting) (c : Char) (rest : List Char) : Nesting × CharRole :=
  if s.escaping then ({ s with escaping := false }, .escaped)
  else
    match s.mode with
    | .code => inCode p s c rest
    | .single => inQuotes none '\'' s c
    | .double => inDoubleQuotes p s c
    | .ansi => inQuotes (some '\\') '\'' s c
    | .backquote => inQuotes (some '\\') '\x60' s c
    | .comment =>
      if c = '\n' then (({ s with mode := .code } : Nesting).endCodeLine, .code) else (s, .comment)
    | .blockComment progress => inBlockComment progress s c
    | .hereDoc => inHereDoc s c
    | .hereString quote => inHereString quote s c

/-- Reads one character: its class, and the state after it. -/
def step (p : Profile) (s : Nesting) (c : Char) (rest : List Char) : Nesting × CharRole :=
  let (t, role) := s.react p c rest
  ({ t with line := if c = '\n' then s.line + 1 else s.line, last := some (c, role) }, role)

/-! ### What the parts of a step change

Each part changes the fields that it is about and no other: the case lemma lists its outcomes, and
the lemmas on the other fields follow from it. -/

/-- An announced document goes to the end of the queue, and none is announced in arithmetic. -/
theorem announceHereDoc_cases (s : Nesting) (text : List Char) :
    s.announceHereDoc text = s ∨
      ∃ doc, s.inArithmetic = false ∧ HereDoc.announced? s.line text = some doc ∧
        s.announceHereDoc text = { s with hereDocs := s.hereDocs ++ [doc] } := by
  unfold announceHereDoc
  split
  · exact .inl rfl
  next harithmetic =>
  split
  · exact .inl rfl
  · next doc hdoc => exact .inr ⟨doc, by simpa using harithmetic, hdoc, rfl⟩

@[simp] theorem groups_announceHereDoc (s : Nesting) (text : List Char) :
    (s.announceHereDoc text).groups = s.groups := by
  rcases announceHereDoc_cases s text with h | ⟨doc, -, -, h⟩ <;> rw [h]

@[simp] theorem mode_announceHereDoc (s : Nesting) (text : List Char) :
    (s.announceHereDoc text).mode = s.mode := by
  rcases announceHereDoc_cases s text with h | ⟨doc, -, -, h⟩ <;> rw [h]

@[simp] theorem escaping_announceHereDoc (s : Nesting) (text : List Char) :
    (s.announceHereDoc text).escaping = s.escaping := by
  rcases announceHereDoc_cases s text with h | ⟨doc, -, -, h⟩ <;> rw [h]

@[simp] theorem lineSoFar_announceHereDoc (s : Nesting) (text : List Char) :
    (s.announceHereDoc text).lineSoFar = s.lineSoFar := by
  rcases announceHereDoc_cases s text with h | ⟨doc, -, -, h⟩ <;> rw [h]

/-- A body begins behind a line of code if and only if a document waits for one. -/
theorem endCodeLine_cases (s : Nesting) :
    s.hereDocs = [] ∧ s.endCodeLine = s ∨
      s.hereDocs ≠ [] ∧ s.endCodeLine = { s with mode := .hereDoc, lineSoFar := [] } := by
  unfold endCodeLine
  split
  · next hdocs => exact .inl ⟨List.isEmpty_iff.1 hdocs, rfl⟩
  · next hdocs => exact .inr ⟨fun h ↦ hdocs (List.isEmpty_iff.2 h), rfl⟩

@[simp] theorem groups_endCodeLine (s : Nesting) : s.endCodeLine.groups = s.groups := by
  rcases endCodeLine_cases s with ⟨-, h⟩ | ⟨-, h⟩ <;> rw [h]

@[simp] theorem hereDocs_endCodeLine (s : Nesting) : s.endCodeLine.hereDocs = s.hereDocs := by
  rcases endCodeLine_cases s with ⟨-, h⟩ | ⟨-, h⟩ <;> rw [h]

@[simp] theorem escaping_endCodeLine (s : Nesting) : s.endCodeLine.escaping = s.escaping := by
  rcases endCodeLine_cases s with ⟨-, h⟩ | ⟨-, h⟩ <;> rw [h]

/-- A closing bracket closes the innermost group if that is its own, and resumes the quote that the
group interrupted. -/
theorem closeGroup_cases (s : Nesting) (b : Bracket) :
    s.closeGroup b = s ∨
      ∃ g outer, s.groups = g :: outer ∧ g.bracket = b ∧
        (g.quoteLine = none ∧ s.closeGroup b = { s with groups := outer } ∨
          ∃ line, g.quoteLine = some line ∧
            s.closeGroup b = { s with groups := outer, mode := .double, openedOn := line }) := by
  unfold closeGroup
  split
  · exact .inl rfl
  next g outer hgroups =>
  split
  · next hbracket =>
    refine .inr ⟨g, outer, hgroups, hbracket, ?_⟩
    split
    · next hquote => exact .inl ⟨hquote, rfl⟩
    · next line hquote => exact .inr ⟨line, hquote, rfl⟩
  · exact .inl rfl

@[simp] theorem hereDocs_closeGroup (s : Nesting) (b : Bracket) :
    (s.closeGroup b).hereDocs = s.hereDocs := by
  rcases closeGroup_cases s b with h | ⟨g, outer, -, -, ⟨-, h⟩ | ⟨line, -, h⟩⟩ <;> rw [h]

@[simp] theorem escaping_closeGroup (s : Nesting) (b : Bracket) :
    (s.closeGroup b).escaping = s.escaping := by
  rcases closeGroup_cases s b with h | ⟨g, outer, -, -, ⟨-, h⟩ | ⟨line, -, h⟩⟩ <;> rw [h]

@[simp] theorem lineSoFar_closeGroup (s : Nesting) (b : Bracket) :
    (s.closeGroup b).lineSoFar = s.lineSoFar := by
  rcases closeGroup_cases s b with h | ⟨g, outer, -, -, ⟨-, h⟩ | ⟨line, -, h⟩⟩ <;> rw [h]

/-- A closing bracket of code stays in code, or it resumes a double quote. -/
theorem mode_closeGroup (s : Nesting) (b : Bracket) :
    (s.closeGroup b).mode = s.mode ∨ (s.closeGroup b).mode = .double := by
  rcases closeGroup_cases s b with h | ⟨g, outer, -, -, ⟨-, h⟩ | ⟨line, -, h⟩⟩ <;> simp [h]

/-- What stands inside a block comment, its end as well, is comment and changes the mode only. -/
theorem exists_inBlockComment (progress : BlockComment) (s : Nesting) (c : Char) :
    ∃ mode, (c = '>' ∧ mode = .code ∨ ∃ next, mode = .blockComment next) ∧
      inBlockComment progress s c = ({ s with mode := mode }, .comment) := by
  unfold inBlockComment
  split
  · exact ⟨_, .inr ⟨_, rfl⟩, rfl⟩
  split
  · next hend => exact ⟨_, .inl ⟨hend.2, rfl⟩, rfl⟩
  · exact ⟨_, .inr ⟨_, rfl⟩, rfl⟩

/-! ### What a step fixes whatever the mode -/

@[simp] theorem line_step (p : Profile) (s : Nesting) (c : Char) (rest : List Char) :
    (s.step p c rest).1.line = if c = '\n' then s.line + 1 else s.line := rfl

@[simp] theorem last_step (p : Profile) (s : Nesting) (c : Char) (rest : List Char) :
    (s.step p c rest).1.last = some (c, (s.step p c rest).2) := rfl

/-- A waiting escape takes the next character literally and nothing else happens. -/
theorem step_of_escaping {p : Profile} {s : Nesting} (c : Char) (rest : List Char)
    (h : s.escaping = true) :
    s.step p c rest =
      ({ s with
          escaping := false
          line := if c = '\n' then s.line + 1 else s.line
          last := some (c, .escaped) }, .escaped) := by
  simp [step, react, h]

end ShellCatalog.Nesting
