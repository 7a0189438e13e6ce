import ShellCatalog.Mark
import ShellCatalog.Text.Split

/-!
# Words of a statement

Words stand between the blanks of code outside every group. An escape character in front of a
newline continues the line, and the two separate words like one blank, inside quotes as well. A
comment ends the list of words; a word that is open where the comment begins takes the rest of the
text with it.

**An assignment** is a word that holds an equals sign in code outside every group. The first such
sign divides it into a name and a value.

**Quotes** come off a word only when the whole word is one quoted segment: single or double quotes,
or ANSI-C quotes where the dialect has them. Where a quote may be written twice to stand for itself,
such pairs may occur inside. Everything else keeps its quotes, and nothing inside is interpreted.
-/

namespace ShellCatalog

/-- The mark stands between words and belongs to none; `next` is the mark after it. -/
def Mark.separatesWords (m : Mark) (next : Option Mark) : Bool :=
  m.isTopCode && isSpace m.char ||
    m.depth = 0 &&
      (m.role = .escape && next.map Mark.char = some '\n' || m.role = .escaped && m.char = '\n')

/-- The words of a text. -/
def words (p : Profile) (text : List Char) : List (List Char) :=
  let ms := marks p text
  let top := ms.takeWhile fun m ↦ !m.isTopComment
  let behind := ms.dropWhile fun m ↦ !m.isTopComment
  let runs := pieces Mark.separatesWords top
  -- The last run is a word only if it holds a character; then it takes the comment with it.
  let last := (runs.getLast?.toList.filter fun run ↦ !run.isEmpty).map fun run ↦
    trimEnd (Mark.text (run ++ behind))
  (runs.dropLast.map Mark.text ++ last).filter fun word ↦ !word.isEmpty

/-! ### Assignments -/

/-- The name and the value of an assignment. -/
def splitAssignment? (p : Profile) (word : List Char) : Option (List Char × List Char) :=
  match cutWhile (fun m ↦ !(m.isTopCode && m.char == '=')) (marks p word) with
  | (_, []) => none
  | (name, _ :: value) => some (Mark.text name, Mark.text value)

/-- The byte offset of the sign that divides an assignment. -/
def assignmentOffset? (p : Profile) (word : List Char) : Option Nat :=
  (splitAssignment? p word).map fun parts ↦ byteLength parts.1

/-! ### Quoted words -/

/-- The quote that a word begins with, and how many characters stand before it. -/
def openingQuote? (p : Profile) (word : List Char) : Option (Nat × Char) :=
  match word with
  | '$' :: '\'' :: _ => if p.ansiQuotes then some (1, '\'') else none
  | '\'' :: _ => some (0, '\'')
  | '"' :: _ => some (0, '"')
  | _ => none

/-- Consecutive offsets pair up as neighbours. -/
def pairedUp : List Nat → Bool
  | [] => true
  | [_] => false
  | i :: j :: rest => j = i + 1 && pairedUp rest

/-- The offsets of the marks that open or close `quote` outside every group. -/
def quoteOffsets (quote : Char) (ms : List Mark) : List Nat :=
  (ms.filter fun m ↦ m.role = .quoteDelim && m.depth = 0 && m.char = quote).map Mark.offset

/-- The word is one segment of `quote`, which opens at byte `start`: the quote delimits first
there, last at the end of the word, and between only in pairs where pairs are allowed. -/
def isQuotedSegment (p : Profile) (word : List Char) (start : Nat) (quote : Char) : Bool :=
  match quoteOffsets quote (marks p word) with
  | first :: second :: others =>
    first = start &&
      (second :: others).getLast? = some (byteLength word - 1) &&
      word.getLast? = some quote &&
      match (second :: others).dropLast with
      | [] => true
      | inner => p.doubledQuotes && pairedUp inner
  | _ => false

/-- The word without its layer of quotes, or as it is. -/
def unquote (p : Profile) (word : List Char) : List Char :=
  match openingQuote? p word with
  | some (start, quote) =>
    if isQuotedSegment p word start quote then (word.drop (start + 1)).dropLast else word
  | none => word

end ShellCatalog
