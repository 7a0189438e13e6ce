import ShellCatalog.Nesting.Step

/-!
# What a text leaves open

At the end of a text at most one construct is reported as open: the outermost one, which is the one
opened on the earliest line. Two candidates are compared, the current quote, comment or
here-document and the outermost open group; of two opened on one line the group is reported.

`allOpen` lists everything that is open, whatever is reported.
-/

namespace ShellCatalog

/-- The construct that a bracket opens. -/
def Bracket.construct : Bracket → Construct
  | .brace => .brace
  | .paren => .paren

namespace Nesting

/-- The open quote, comment or body, outside of which only groups can be open. The body of the last
announced here-document is not open when the line read so far ends it, although no newline
follows. -/
def openSpan? (s : Nesting) : Option OpenConstruct :=
  match s.mode with
  | .single => some ⟨.singleQuote, s.openedOn⟩
  | .double => some ⟨.doubleQuote, s.openedOn⟩
  | .ansi => some ⟨.ansiQuote, s.openedOn⟩
  | .backquote => some ⟨.backquote, s.openedOn⟩
  | .blockComment _ => some ⟨.blockComment, s.openedOn⟩
  | .hereString _ => some ⟨.hereString, s.openedOn⟩
  | .hereDoc =>
    if s.hereDocs.length = 1 ∧ s.atHereDocEnd then none
    else s.hereDocs.head?.map fun doc ↦ ⟨.hereDoc, doc.line⟩
  | .code | .comment => s.hereDocs.head?.map fun doc ↦ ⟨.hereDoc, doc.line⟩

/-- The outermost open group: the double quote that it interrupts, or its own bracket. -/
def openGroup? (s : Nesting) : Option OpenConstruct :=
  s.groups.getLast?.map fun g ↦
    match g.quoteLine with
    | some line => ⟨.doubleQuote, line⟩
    | none => ⟨g.bracket.construct, g.line⟩

/-- The construct that is reported as open. -/
def outermostOpen? (s : Nesting) : Option OpenConstruct :=
  match s.openGroup?, s.openSpan? with
  | some g, some i => if i.line < g.line then some i else some g
  | some g, none => some g
  | none, i => i

/-- A balanced state leaves nothing open. -/
theorem outermostOpen?_of_isBalanced {s : Nesting} (h : s.isBalanced = true) :
    s.outermostOpen? = none := by
  obtain ⟨hm, hg, hd, -⟩ := isBalanced_iff.1 h
  simp [outermostOpen?, openGroup?, openSpan?, hm, hg, hd]

/-! ### All open constructs -/

/-- The open quote, block comment or here-string. -/
def openQuotes (s : Nesting) : List OpenConstruct :=
  match s.mode with
  | .single => [⟨.singleQuote, s.openedOn⟩]
  | .double => [⟨.doubleQuote, s.openedOn⟩]
  | .ansi => [⟨.ansiQuote, s.openedOn⟩]
  | .backquote => [⟨.backquote, s.openedOn⟩]
  | .blockComment _ => [⟨.blockComment, s.openedOn⟩]
  | .hereString _ => [⟨.hereString, s.openedOn⟩]
  | .code | .comment | .hereDoc => []

/-- The here-documents whose ends have not been read; the line read so far may be the end of the
first. -/
def openHereDocs (s : Nesting) : List HereDoc :=
  if s.mode = .hereDoc ∧ s.atHereDocEnd then s.hereDocs.tail else s.hereDocs

/-- All constructs that are open, each with the line of its opening. -/
def allOpen (s : Nesting) : List OpenConstruct :=
  s.groups.map (fun g ↦ ⟨g.bracket.construct, g.line⟩) ++
    s.groups.filterMap (fun g ↦ g.quoteLine.map (⟨.doubleQuote, ·⟩)) ++
    s.openQuotes ++
    s.openHereDocs.map (fun doc ↦ ⟨.hereDoc, doc.line⟩)

end Nesting

end ShellCatalog
