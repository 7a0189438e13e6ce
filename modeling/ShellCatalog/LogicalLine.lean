import ShellCatalog.Mark

/-!
# Logical lines

A logical line is one or more physical lines that belong together because a quote, a group, a
here-document or an escaped newline was open where a physical line ended. It is the smallest part of
a file that definitions are looked for in.

Lines are the pieces of a text between the newlines that end a complete statement. Blank lines are
passed over. Only the last line can be truncated: it is when the text leaves a construct open.
-/

namespace ShellCatalog

/-- Physical lines that belong together, joined by newlines. -/
structure LogicalLine where
  text : List Char
  /-- The first physical line, counted from 1. -/
  line : Nat
  /-- The construct that the end of the text left open. -/
  leftOpen : Option OpenConstruct
  deriving DecidableEq, Repr

namespace LogicalLine

/-- The last physical line, counted by the newlines of the text. It is the line on which the reader
of the file stands at the end of the logical line (`LineStream.Tiles.counted`). Of a line that is
joined to a header only the first line is ever used. -/
def lastLine (l : LogicalLine) : Nat :=
  lineAfter l.line l.text

/-- The text ends inside a construct of the line. -/
def isOpen (l : LogicalLine) : Bool :=
  l.leftOpen.isSome

/-- The line made of a run of marks that starts on `line` if it is empty. -/
def ofMarks (line : Nat) (leftOpen : Option OpenConstruct) (ms : List Mark) : LogicalLine where
  text := Mark.text ms
  line := (ms.head?.map Mark.line).getD line
  leftOpen := leftOpen

end LogicalLine

/-- A newline that ends a complete statement: not escaped, and the state after it is balanced. -/
def Mark.endsLine (m : Mark) : Bool :=
  m.char = '\n' ∧ m.role ≠ .escaped ∧ m.after.isBalanced

theorem Mark.endsLine_iff {m : Mark} :
    m.endsLine = true ↔ m.char = '\n' ∧ m.role ≠ .escaped ∧ m.after.isBalanced = true := by
  simp [endsLine]

/-- The logical lines of a text. -/
def logicalLines (p : Profile) (text : List Char) : List LogicalLine :=
  let ms := marks p text
  let runs := pieces (fun m _ ↦ m.endsLine) ms
  let open? := ((Nesting.start 1).afterMarks ms).outermostOpen?
  let complete := runs.dropLast.filter fun run ↦ !isBlank (Mark.text run)
  -- What follows the last newline is a line too; a blank one counts if it leaves something open.
  let rest := runs.getLast?.toList.filter fun run ↦ !isBlank (Mark.text run) || open?.isSome
  complete.map (.ofMarks 1 none) ++ rest.map (.ofMarks 1 open?)

/-- A place in the sequence of logical lines of a text. Going on does not change the text, so a copy
of a stream goes its own way and every stream can start again. -/
structure LineStream where
  profile : Profile
  text : List Char
  /-- The lines not yet read. -/
  remaining : List LogicalLine

namespace LineStream

/-- The stream in front of the first line. -/
def ofText (p : Profile) (text : List Char) : LineStream :=
  ⟨p, text, logicalLines p text⟩

/-- The next line and the stream behind it. Behind the last line a stream stays where it is. -/
def next (r : LineStream) : Option LogicalLine × LineStream :=
  (r.remaining.head?, { r with remaining := r.remaining.tail })

/-- The same text from its first line. -/
def restart (r : LineStream) : LineStream :=
  ofText r.profile r.text

end LineStream

end ShellCatalog
