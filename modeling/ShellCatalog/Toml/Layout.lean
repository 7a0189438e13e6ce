import ShellCatalog.Text.Space

/-!
# Blanks, comments and line ends of a settings file

What may stand between the words of a document. A line ends with a newline, which a carriage return
may precede; a carriage return anywhere else is an error. Control characters stand nowhere, not even
in a comment.

Readers take a text and answer the text behind what they read, which is never longer
(`length_skipBlanks_le`, `length_of_newline?`, `length_of_foldedLine?`).
-/

namespace ShellCatalog.Toml

/-- A character that may stand in a comment or between quotes. -/
def isTextChar (c : Char) : Bool :=
  c == '\t' || 0x20 ≤ c.toNat && c.toNat != 0x7F

/-- The text behind spaces and tabs. -/
def skipBlanks (text : List Char) : List Char :=
  text.dropWhile isIndent

/-- The text behind a comment, if one begins it. A comment runs to the end of the line and holds no
control character but the tab. -/
def skipComment : List Char → List Char
  | '#' :: rest => rest.dropWhile isTextChar
  | text => text

/-- The text behind a newline, which a carriage return may precede. -/
def newline? : List Char → Option (List Char)
  | '\n' :: rest => some rest
  | '\r' :: '\n' :: rest => some rest
  | _ => none

/-- The text behind the rest of a line that holds nothing more. -/
def endOfLine? (text : List Char) : Option (List Char) :=
  match skipComment (skipBlanks text) with
  | [] => some []
  | rest => newline? rest

/-- The text behind blanks, comments and newlines. -/
def skipGaps : Nat → List Char → List Char
  | 0, text => text
  | bound + 1, text =>
    let rest := skipComment (skipBlanks text)
    match newline? rest with
    | some rest => skipGaps bound rest
    | none => rest

/-- The text behind blanks and newlines. -/
def skipBlankLines : List Char → List Char
  | [] => []
  | c :: rest =>
    if isIndent c || c == '\n' || c == '\r' && rest.head? == some '\n' then skipBlankLines rest
    else c :: rest

/-- The text that goes on behind the end of a line and all that is blank after it. -/
def foldedLine? (text : List Char) : Option (List Char) :=
  (newline? (skipBlanks text)).map skipBlankLines

/-! ### What reading leaves -/

theorem length_skipBlanks_le (text : List Char) : (skipBlanks text).length ≤ text.length :=
  (List.dropWhile_suffix _).length_le

theorem length_skipBlankLines_le (text : List Char) :
    (skipBlankLines text).length ≤ text.length := by
  induction text with
  | nil => exact Nat.le_refl _
  | cons c rest ih =>
    rw [skipBlankLines]
    split
    · exact Nat.le_succ_of_le ih
    · exact Nat.le_refl _

/-- A newline has at least one character. -/
theorem length_of_newline? {text rest : List Char} (h : newline? text = some rest) :
    rest.length < text.length := by
  unfold newline? at h
  split at h
  · cases h
    exact Nat.lt_succ_self _
  · cases h
    simp only [List.length_cons]
    omega
  · simp at h

theorem length_of_foldedLine? {text rest : List Char} (h : foldedLine? text = some rest) :
    rest.length < text.length := by
  obtain ⟨next, hnext, rfl⟩ := Option.map_eq_some_iff.1 h
  have hblanks := length_skipBlanks_le text
  have hnewline := length_of_newline? hnext
  have hlines := length_skipBlankLines_le next
  omega

end ShellCatalog.Toml
