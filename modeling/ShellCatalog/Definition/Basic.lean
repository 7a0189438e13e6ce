import ShellCatalog.Path

/-!
# Definitions

What the catalogue holds: an alias or a function, with its name, its body and the place where it was
found. The place is a file, by the path under which it was read, and the physical line on which the
defining statement starts.

Two definitions can be compared in two ways. They are equal if all their fields are, the spelling of
the path included. They are the same (`Definition.same`) if they agree in everything but the
spelling: that is how inventories are compared, since one file can be given under two spellings.
-/

namespace ShellCatalog

/-- What a definition defines. -/
inductive Kind
  | alias
  | function
  deriving DecidableEq, Repr

namespace Kind

/-- The word for a kind in messages and in the table. -/
def label : Kind → String
  | .alias => "alias"
  | .function => "func"

/-- The word for a kind in a structured listing. -/
def fullName : Kind → String
  | .alias => "alias"
  | .function => "function"

end Kind

/-- An alias or a function found in a file. -/
structure Definition where
  name : String
  kind : Kind
  /-- The alias's value without its quotes, or the function's block without its delimiters. -/
  body : String
  file : Path
  /-- The physical line on which the defining statement starts. -/
  line : Nat
  deriving DecidableEq, Repr

/-- Both definitions say the same of the same file, however its path is spelled. -/
def Definition.same (a b : Definition) : Bool :=
  a.name == b.name && a.kind == b.kind && a.body == b.body && a.file.same b.file && a.line == b.line

end ShellCatalog
