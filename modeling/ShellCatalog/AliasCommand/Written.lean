import ShellCatalog.AliasCommand.Basic

/-!
# Writing alias commands

The other direction of `proposedAliases?`: a proposed alias is written as a word, with quotes around
its body, around all of it or nowhere, and a command is written as words with single spaces between
them. The arguments of a command with parameters are written in groups (`Argument`) that cannot be
taken apart: a parameter and what it takes, in one word or in two, or a word that stands for itself.

Nothing is escaped, so not every alias is read back from every way of writing it.
-/

namespace ShellCatalog

/-- Where quotes stand in an assignment. -/
inductive Quoting
  | nowhere
  | body (quote : Char)
  | whole (quote : Char)
  deriving DecidableEq, Repr

/-- The word that assigns the body to the name. -/
def ProposedAlias.word (c : ProposedAlias) : Quoting → List Char
  | .nowhere => c.name ++ '=' :: c.body
  | .body quote => c.name ++ '=' :: quote :: (c.body ++ [quote])
  | .whole quote => quote :: (c.name ++ '=' :: (c.body ++ [quote]))

/-- A part of the arguments of a command with parameters. -/
inductive Argument
  /-- A word that begins with no hyphen. -/
  | positional (word : List Char)
  /-- A parameter without an argument. -/
  | switch (param : List Char)
  /-- A parameter and its argument, which stands behind a colon or is the next word. -/
  | pair (param arg : List Char) (colon : Bool)
  deriving DecidableEq, Repr

/-- The words of an argument. -/
def Argument.words : Argument → List (List Char)
  | positional word => [word]
  | switch param => [param]
  | pair param arg true => [param ++ ':' :: arg]
  | pair param arg false => [param, arg]

/-- The text of a command on a line of its own. -/
def writeCommand (command : List Char) (args : List (List Char)) : List Char :=
  command ++ args.flatMap (' ' :: ·) ++ ['\n']

end ShellCatalog
