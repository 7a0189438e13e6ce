import ShellCatalog.Text.Space

/-!
# Quotes, groups and here-documents as a state

Shell text is read one character at a time without being parsed. What has to be remembered between
two characters is a `Nesting`: the quote or comment that is open, the stack of open groups, the
queue of here-documents whose bodies are still to come.

**The state holds no position.** A character's byte offset is known to whoever walks the text; the
state carries only the physical line. So the state reached after a text can be continued with any
other text, and two states can be compared without saying where they were reached.

**Quotes do not nest, with one exception.** A single quote, a backquote or an ANSI-C quote is a
value of `Mode` and not a level of a stack. Only a dollar sign and an opening parenthesis inside a
double quote interrupt it: the group then remembers the line on which the double quote was opened
(`Group.quoteLine`), and closing the group resumes it.
-/

namespace ShellCatalog

/-- A construct that can be left open at the end of a text. -/
inductive Construct
  | singleQuote
  | doubleQuote
  | ansiQuote
  | backquote
  | brace
  | paren
  | hereDoc
  | blockComment
  | hereString
  deriving DecidableEq, Repr

/-- A construct's name in a report. -/
def Construct.label : Construct → String
  | .singleQuote => "single quote"
  | .doubleQuote => "double quote"
  | .ansiQuote => "$'...' quote"
  | .backquote => "backquote"
  | .brace => "brace"
  | .paren => "parenthesis"
  | .hereDoc => "here-document"
  | .blockComment => "block comment"
  | .hereString => "here-string"

/-- A construct that was not closed, and the line on which it was opened. -/
structure OpenConstruct where
  construct : Construct
  line : Nat
  deriving DecidableEq, Repr

/-- What one character is: shell code, or one of the kinds of text that code does not look at. -/
inductive CharRole
  /-- Unquoted and unescaped. -/
  | code
  /-- A quote character that opens or closes. -/
  | quoteDelim
  /-- Between quotes. -/
  | quoted
  /-- A character that takes the next one literally. -/
  | escape
  /-- A character taken literally. -/
  | escaped
  | comment
  /-- The body of a here-document or here-string. -/
  | hereBody
  deriving DecidableEq, Repr

/-- How far a block comment has been read. -/
inductive BlockComment
  /-- Only the first of its two opening characters. -/
  | opening
  /-- Past the opening; `closing` when the last character can begin the closing pair. -/
  | inside (closing : Bool)
  deriving DecidableEq, Repr

/-- The quote, comment or body that the next character stands in. -/
inductive Mode
  | code
  | single
  | double
  | ansi
  | backquote
  | comment
  | blockComment (progress : BlockComment)
  | hereDoc
  | hereString (quote : Char)
  deriving DecidableEq, Repr

/-- The two kinds of bracket that group code. -/
inductive Bracket
  | brace
  | paren
  deriving DecidableEq, Repr

/-- An open group: its bracket and its line and, when it interrupts a quote, the line of that quote.
Groups are opened in code and in double quotes and nowhere else, so the quote that goes on behind
the group is a double quote, and its mode is not stored beside its line. -/
structure Group where
  bracket : Bracket
  line : Nat
  quoteLine : Option Nat
  deriving DecidableEq, Repr

/-- A here-document that has been announced: the line that ends its body, whether tabs in front of
that line do not count, and the line of its announcement. -/
structure HereDoc where
  delimiter : List Char
  ignoresTabs : Bool
  line : Nat
  deriving DecidableEq, Repr

/-- Everything that reading a text so far leaves behind for the next character. -/
structure Nesting where
  /-- The physical line of the next character. -/
  line : Nat
  mode : Mode
  /-- The line on which the current quote, block comment or here-string was opened. -/
  openedOn : Nat
  /-- Whether the next character is taken literally. -/
  escaping : Bool
  /-- The last character and its class; nothing at the start of a text. -/
  last : Option (Char × CharRole)
  /-- The open groups, innermost first. -/
  groups : List Group
  /-- The announced here-documents in the order in which their bodies follow. -/
  hereDocs : List HereDoc
  /-- What has been read of the current line of a here-document or here-string. -/
  lineSoFar : List Char
  deriving DecidableEq, Repr

namespace Nesting

/-- The state before the first character of a text that starts on `line`. -/
def start (line : Nat) : Nesting where
  line := line
  mode := .code
  openedOn := line
  escaping := false
  last := none
  groups := []
  hereDocs := []
  lineSoFar := []

/-- The number of open groups. -/
def depth (s : Nesting) : Nat :=
  s.groups.length

/-- The last character, whatever it was taken for. -/
def lastChar? (s : Nesting) : Option Char :=
  s.last.map Prod.fst

/-- A newline here ends a complete statement: code, no open group, no announced here-document, no
escape waiting for its character. -/
def isBalanced (s : Nesting) : Bool :=
  s.mode = .code ∧ s.groups = [] ∧ s.hereDocs = [] ∧ s.escaping = false

@[simp] theorem isBalanced_start (line : Nat) : (start line).isBalanced = true := rfl

theorem isBalanced_iff {s : Nesting} :
    s.isBalanced = true ↔
      s.mode = .code ∧ s.groups = [] ∧ s.hereDocs = [] ∧ s.escaping = false := by
  simp [isBalanced]

end Nesting

/-- The bracket that a character opens. -/
def Bracket.ofOpener? (c : Char) : Option Bracket :=
  if c = '{' then some .brace else if c = '(' then some .paren else none

/-- The bracket that a character closes. -/
def Bracket.ofCloser? (c : Char) : Option Bracket :=
  if c = '}' then some .brace else if c = ')' then some .paren else none

theorem Bracket.eq_of_ofOpener? {c : Char} {b : Bracket} (hc : Bracket.ofOpener? c = some b) :
    c = '{' ∨ c = '(' := by
  unfold Bracket.ofOpener? at hc
  split at hc
  · next h => exact .inl h
  · split at hc
    · next h => exact .inr h
    · simp at hc

theorem Bracket.eq_of_ofCloser? {c : Char} {b : Bracket} (hc : Bracket.ofCloser? c = some b) :
    c = '}' ∨ c = ')' := by
  unfold Bracket.ofCloser? at hc
  split at hc
  · next h => exact .inl h
  · split at hc
    · next h => exact .inr h
    · simp at hc

end ShellCatalog
