import ShellCatalog.Text.Space
import ShellCatalog.Text.WordChar

/-!
# Names of aliases and functions

Which names a dialect accepts is a rule on characters: one test for the first character and one for
the others (`NameRule.accepts_iff`). No rule accepts the empty name (`NameRule.ne_nil_of_accepts`).

Three rules list what a name may not hold, since those shells take nearly any word for a name; two
list what it may hold. Characters that end a word, quote or expand are excluded everywhere, so the
name of a definition can be written as a word without quotes.

The rules judge a name after it was read. A name that no rule accepts is reported and not defined.
-/

namespace ShellCatalog

/-- The name rules of the dialects. -/
inductive NameRule
  /-- Alias names outside PowerShell. -/
  | shAlias
  /-- Function names of bash and zsh. -/
  | shFunction
  /-- Portable function names. -/
  | portable
  /-- Alias names of PowerShell. -/
  | pwshAlias
  /-- Function names of PowerShell. -/
  | pwshFunction
  deriving DecidableEq, Repr

namespace NameRule

/-- Characters that end a word, quote or expand in the shells outside PowerShell. -/
def shSpecial : List Char :=
  ['=', '$', '\x60', '\'', '"', '\\', ';', '|', '&', '<', '>', '(', ')', '{', '}', '[', ']', '#']

/-- Characters that end a word, quote, expand or list in PowerShell. -/
def pwshSpecial : List Char :=
  ['\'', '"', '\x60', '$', ';', '|', '&', '<', '>', '(', ')', '{', '}', '[', ']', '@', '#', ',',
    '=']

/-- A character that a name may begin with. -/
def acceptsFirst : NameRule → Char → Bool
  | shAlias, c => !isSpace c && c ∉ shSpecial && c != '/'
  | shFunction, c => !isSpace c && c ∉ shSpecial
  | portable, c => c.isAlpha || c == '_'
  | pwshAlias, c => !isSpace c && c ∉ pwshSpecial
  | pwshFunction, c => isWordChar c

/-- A character that may follow in a name. -/
def acceptsRest : NameRule → Char → Bool
  | portable, c => c.isAlphanum || c == '_'
  | pwshFunction, c => isWordChar c || c == '.' || c == '-'
  | rule, c => rule.acceptsFirst c

/-- The names that a rule accepts. -/
def accepts (rule : NameRule) : List Char → Bool
  | [] => false
  | c :: rest => rule.acceptsFirst c && rest.all rule.acceptsRest

@[simp] theorem accepts_nil (rule : NameRule) : rule.accepts [] = false := rfl

theorem ne_nil_of_accepts {rule : NameRule} {name : List Char} (h : rule.accepts name = true) :
    name ≠ [] := by
  rintro rfl
  simp at h

/-- A name is accepted by its first character and by every other one. -/
theorem accepts_iff {rule : NameRule} {name : List Char} :
    rule.accepts name = true ↔
      ∃ c rest, name = c :: rest ∧ rule.acceptsFirst c = true ∧
        ∀ d ∈ rest, rule.acceptsRest d = true := by
  constructor
  · intro h
    cases name with
    | nil => simp at h
    | cons c rest => exact ⟨c, rest, rfl, by simpa [accepts] using h⟩
  · rintro ⟨c, rest, rfl, hc, hrest⟩
    simpa [accepts] using ⟨hc, hrest⟩

end NameRule

end ShellCatalog
