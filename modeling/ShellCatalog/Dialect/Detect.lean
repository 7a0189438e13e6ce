import ShellCatalog.Dialect.Basic
import ShellCatalog.Source
import ShellCatalog.Text.Split

/-!
# Telling a file's dialect

The interpreter that a file names comes first, the name of the file second (`Source.dialect?`).

* A first line `#!` names an interpreter by a path, of which the last segment counts. Where this is
  `env`, the program is the first of its arguments that is neither an option nor an assignment.
* A file name counts when it is that of a startup file, with or without its leading dot, or by its
  extension, in any case.

An interpreter that is not known decides nothing, so the name of the file is asked as well. A file
that neither tells is reported and skipped.

The words by which a user names a dialect on the command line stand here too
(`Dialect.ofUserName?`); they are not the names in a settings file.
-/

namespace ShellCatalog

/-- What follows the last slash. -/
def lastSegment (path : List Char) : List Char :=
  (splitOn '/' path).getLast?.getD []

namespace Dialect

/-- The dialect of the interpreter that a line names. Where the interpreter is `env`, the program is
the first of its arguments that is neither an option nor an assignment. -/
def ofShebang? (line : List Char) : Option Dialect := do
  let rest ← after? ['#', '!'] line
  let first :: args := spaceSeparated rest | none
  let program ←
    if lastSegment first = "env".toList then
      (args.find? fun arg ↦ arg.head? != some '-' && !arg.contains '=').map lastSegment
    else some (lastSegment first)
  ofInterpreter? (.ofList program)

/-- The names of startup files without their leading dot. -/
def ofStartupName? (stem : String) : Option Dialect :=
  if stem ∈ ["bashrc", "bash_profile", "bash_login", "bash_logout", "bash_aliases"] then some .bash
  else if stem ∈ ["zshrc", "zshenv", "zprofile", "zlogin", "zlogout"] then some .zsh
  else if stem ∈ ["profile", "shrc", "kshrc", "mkshrc"] then some .sh
  else if ".bashrc".toList.isSuffixOf stem.toList then some .bash
  else none

/-- The dialect that an extension stands for, in any case. -/
def ofExtension? (extension : List Char) : Option Dialect :=
  let word := String.ofList (lowerWord extension)
  if word = "bash" then some .bash
  else if word = "zsh" then some .zsh
  else if word ∈ ["sh", "ksh"] then some .sh
  else if word ∈ ["ps1", "psm1"] then some .pwsh
  else none

/-- The dialect that a path tells by its file name. -/
def ofPath? (path : Path) : Option Dialect := do
  let name ← path.fileName?
  let stem := (after? ['.'] name).getD name
  (ofStartupName? (.ofList stem)).or (path.extension?.bind ofExtension?)

/-- The dialect that a word typed by a user names, in any case. -/
def ofUserName? (text : String) : Option Dialect :=
  let word := String.ofList (lowerWord text.toList)
  if word = "bash" then some .bash
  else if word = "zsh" then some .zsh
  else if word ∈ ["sh", "posix", "dash", "ksh"] then some .sh
  else if word ∈ ["pwsh", "powershell"] then some .pwsh
  else none

/-- The answer to a word that names no dialect. -/
def unknownMessage (text : String) : String :=
  "Unknown shell dialect: " ++ text

end Dialect

/-- The dialect that a file tells by itself. -/
def Source.dialect? (s : Source) : Option Dialect :=
  (s.shebang?.bind Dialect.ofShebang?).or (Dialect.ofPath? s.path)

end ShellCatalog
