import ShellCatalog.Statement.CasePattern

/-!
# The grammar of case patterns

A case pattern is said here as a shape of marks, with no reader in sight: alternatives separated by
bars and ended by a closing parenthesis, an opening one allowed in front. An alternative is one
word with blanks around it, and a word is a run of characters that are quoted or escaped, or stand
in code and neither separate nor group.

A bar or a blank belongs to the grammar only in code; between quotes it is a character of a word.
-/

namespace ShellCatalog

/-- The mark is the character `c`, in code. -/
def Mark.isCode (c : Char) (m : Mark) : Prop :=
  m.role = .code ∧ m.char = c

/-- The mark is a blank, in code. -/
def Mark.isCodeSpace (m : Mark) : Prop :=
  m.role = .code ∧ isSpace m.char = true

/-- The mark is a character of a word of a case pattern. -/
def Mark.isInPatternWord (m : Mark) : Prop :=
  m.role ≠ .comment ∧
    (m.role = .code →
      isSpace m.char = false ∧ m.char ∉ ['(', ')', '{', '}', ';', '&', '|', '<', '>', '='])

/-- The marks are one word with blanks around it. -/
def IsAlternative (ms : List Mark) : Prop :=
  ∃ lead word trail, ms = lead ++ word ++ trail ∧ word ≠ [] ∧
    (∀ m ∈ lead, m.isCodeSpace) ∧ (∀ m ∈ word, m.isInPatternWord) ∧ ∀ m ∈ trail, m.isCodeSpace

/-- The marks are alternatives with bars between them. -/
inductive IsAlternatives : List Mark → Prop
  | one {ms : List Mark} : IsAlternative ms → IsAlternatives ms
  | more {ms others : List Mark} {bar : Mark} : IsAlternative ms → bar.isCode '|' →
      IsAlternatives others → IsAlternatives (ms ++ bar :: others)

/-- The marks are alternatives and the closing parenthesis behind them. -/
def IsClosedPattern (ms : List Mark) : Prop :=
  ∃ alternatives closing, ms = alternatives ++ [closing] ∧ IsAlternatives alternatives ∧
    closing.isCode ')' ∧ closing.depth = 0

/-- The marks are a case pattern, which may begin with an opening parenthesis. -/
def IsCasePattern (ms : List Mark) : Prop :=
  IsClosedPattern ms ∨ ∃ opening rest, ms = opening :: rest ∧ opening.isCode '(' ∧
    IsClosedPattern rest

/-- No case pattern is empty. -/
theorem IsCasePattern.ne_nil {ms : List Mark} (h : IsCasePattern ms) : ms ≠ [] := by
  rcases h with ⟨alternatives, closing, rfl, -⟩ | ⟨opening, rest, rfl, -⟩ <;> simp

end ShellCatalog
