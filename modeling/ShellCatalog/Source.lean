import ShellCatalog.Path
import ShellCatalog.Text.Space

/-!
# Source files

The text of a file as it is read from: without a byte-order mark at its start, and with every
carriage return that stands in front of a newline taken out (`cleanText`). A carriage return
anywhere else is a character like any other, and so is a mark that does not begin the text.

A `Source` holds the text that is read from, so whoever has only what a file holds goes through
`Source.ofText`. A text that has neither is left as it is (`cleanText_eq_self`), which is how a text
that was written by hand in a statement is recognised as the text of its file.

The first line can name an interpreter (`Source.shebang?`). It is taken without its line end, which
may be a newline behind a carriage return, since a source may be given with any text.
-/

namespace ShellCatalog

/-- A text without the byte-order mark that may begin it. -/
def dropByteOrderMark : List Char → List Char
  | '\ufeff' :: rest => rest
  | text => text

/-- A text with every carriage return that stands directly in front of a newline taken out. -/
def unixNewlines : List Char → List Char
  | [] => []
  | '\r' :: '\n' :: rest => '\n' :: unixNewlines rest
  | c :: rest => c :: unixNewlines rest

/-- The text that is read when `text` is what a file holds. -/
def cleanText (text : List Char) : List Char :=
  unixNewlines (dropByteOrderMark text)

/-- A file and its text. -/
structure Source where
  path : Path
  text : List Char
  deriving DecidableEq, Repr

namespace Source

/-- The file that holds `text`. -/
def ofText (path : Path) (text : List Char) : Source :=
  ⟨path, cleanText text⟩

/-- The first line of a text without its line end, which may be a newline behind a carriage
return. -/
def firstLine (text : List Char) : List Char :=
  match cutWhile (· != '\n') text with
  | (line, []) => line
  | (line, _ :: _) => if line.getLast? = some '\r' then line.dropLast else line

/-- The first line when it names an interpreter. -/
def shebang? (s : Source) : Option (List Char) :=
  match firstLine s.text with
  | '#' :: '!' :: rest => some ('#' :: '!' :: rest)
  | _ => none

end Source

/-! ### Normal texts -/

theorem unixNewlines_cons {c : Char} (h : c ≠ '\r') (rest : List Char) :
    unixNewlines (c :: rest) = c :: unixNewlines rest := by
  rw [unixNewlines]
  rintro r rfl
  exact absurd rfl h

/-- A text without carriage returns is left as it is. -/
theorem unixNewlines_eq_self {text : List Char} (h : '\r' ∉ text) : unixNewlines text = text := by
  induction text with
  | nil => rfl
  | cons c rest ih =>
    simp only [List.mem_cons, not_or] at h
    rw [unixNewlines_cons (Ne.symm h.1), ih h.2]

theorem dropByteOrderMark_eq_self {text : List Char} (h : text.head? ≠ some '\ufeff') :
    dropByteOrderMark text = text := by
  unfold dropByteOrderMark
  split
  · exact absurd rfl h
  · rfl

/-- A text without a byte-order mark at its start and without carriage returns is read as it is. -/
theorem cleanText_eq_self {text : List Char} (mark : text.head? ≠ some '\ufeff')
    (returns : '\r' ∉ text) : cleanText text = text := by
  rw [cleanText, dropByteOrderMark_eq_self mark, unixNewlines_eq_self returns]

end ShellCatalog
