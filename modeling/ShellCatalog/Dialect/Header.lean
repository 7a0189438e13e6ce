import ShellCatalog.Dialect.Profile
import ShellCatalog.Text.Space
import ShellCatalog.Text.Split

/-!
# Function headers and the head of a case command

Each reader takes the text of a statement and answers what it recognised at the start and the text
behind it. A header yields a name as it is written; whether the name is a good one is decided
later, so that a bad name can be reported.

Every part of a header ends at a character that the next part cannot begin with, so each reader goes
forward only.
-/

namespace ShellCatalog

/-- A function header at the start of a statement: the name in it and the text behind it. -/
structure Header where
  name : List Char
  rest : List Char
  deriving DecidableEq, Repr

/-- The text behind at least one blank. -/
def skipSpaces? : List Char → Option (List Char)
  | [] => none
  | c :: rest => if isSpace c then some (trimStart rest) else none

/-- A character that may stand in the name of a header. -/
def isHeaderNameChar (c : Char) : Bool :=
  !isSpace c && c ∉ ['(', ')', '{', '}', ';', '|', '&', '<', '>']

/-- The text behind an opening parenthesis, a blank text and a closing parenthesis. -/
def emptyParens? : List Char → Option (List Char)
  | '(' :: rest =>
    match trimStart rest with
    | ')' :: rest => some rest
    | _ => none
  | _ => none

/-- The text behind an opening parenthesis and the first closing one. -/
def parameterList? : List Char → Option (List Char)
  | '(' :: rest => (splitAt? ')' rest).map Prod.snd
  | _ => none

/-- Reads the name of a header and an optional part behind it. -/
def nameAndOptional (optional : List Char → Option (List Char)) (text : List Char) :
    Option Header :=
  match cutWhile isHeaderNameChar text with
  | ([], _) => none
  | (name, rest) =>
    let rest := trimStart rest
    some ⟨name, trimStart ((optional rest).getD rest)⟩

namespace FunctionKeyword

/-- The text behind the keyword. -/
def keyword? : FunctionKeyword → List Char → Option (List Char)
  | function, text => after? "function".toList text
  | functionOrFilter, text =>
    if sameWord (text.take 8) "function".toList then some (text.drop 8)
    else if sameWord (text.take 6) "filter".toList then some (text.drop 6)
    else none

/-- What may stand between the name and the body. -/
def optional? : FunctionKeyword → List Char → Option (List Char)
  | function => emptyParens?
  | functionOrFilter => parameterList?

/-- Reads a header that a keyword introduces. -/
def read? (form : FunctionKeyword) (text : List Char) : Option Header := do
  let rest ← form.keyword? text
  let rest ← skipSpaces? rest
  nameAndOptional form.optional? rest

end FunctionKeyword

/-- Reads a header of a name and an empty pair of parentheses. -/
def readParensHeader? (text : List Char) : Option Header :=
  match cutWhile (fun c ↦ isHeaderNameChar c && c != '=') text with
  | ([], _) => none
  | (name, rest) => (emptyParens? (trimStart rest)).map fun rest ↦ ⟨name, trimStart rest⟩

/-- The header at the start of a statement, a keyword first. The name has lost its scope
qualifier. -/
def Profile.header? (p : Profile) (statement : List Char) : Option Header :=
  let keyword := p.functionKeyword.bind fun form ↦ form.read? statement
  let parens := if p.parensHeader then readParensHeader? statement else none
  (keyword.or parens).map fun h ↦ { h with name := p.dropScope h.name }

/-- The ways to write the word that a case command looks at: between double quotes, between single
quotes, or a run of visible characters. -/
def caseSubjects (text : List Char) : List (List Char) :=
  let quoted :=
    match text with
    | c :: rest => if c = '"' ∨ c = '\'' then ((splitAt? c rest).map Prod.snd).toList else []
    | [] => []
  let plain :=
    match cutWhile (fun c ↦ !isSpace c) text with
    | ([], _) => []
    | (_, rest) => [rest]
  quoted ++ plain

/-- The text behind the keyword `in`, in front of which a blank stands, and behind which a blank or
the end of the text. -/
def afterIn? (text : List Char) : Option (List Char) :=
  match (skipSpaces? text).bind (after? "in".toList) with
  | some [] => some []
  | some (c :: rest) => skipSpaces? (c :: rest)
  | none => none

/-- The text behind the head of a case command: the keyword, a word and the keyword `in`. Of the
ways to write the word, the first that fits is taken. -/
def caseHead? (text : List Char) : Option (List Char) :=
  ((after? "case".toList text).bind skipSpaces?).bind fun rest ↦
    (caseSubjects rest).findSome? afterIn?

/-! ### Headers go forward -/

theorem length_skipSpaces?_lt {text rest : List Char} (h : skipSpaces? text = some rest) :
    rest.length < text.length := by
  cases text with
  | nil => simp [skipSpaces?] at h
  | cons c text =>
    rw [skipSpaces?] at h
    split at h
    · cases h
      exact Nat.lt_succ_of_le (length_trimStart_le text)
    · simp at h

end ShellCatalog
