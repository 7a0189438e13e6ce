import ShellCatalog.Definition.Basic
import ShellCatalog.Nesting.Basic

/-!
# Diagnostics

What can go wrong with a file or with one definition in it. None of these stops a scan; each is
reported and the scan goes on behind it.

* A file cannot be read, or no rule tells its dialect: it defines nothing, and nothing more is said
  of it.
* A file ends inside a construct. What stands in front of the construct's logical line is defined as
  usual.
* A definition has a name that its dialect does not accept. It alone is left out.

Every finding names its file (`Diagnostic.path`), by the path under which the file was given. The
words of a finding (`Diagnostic.message`) begin with that path and, where there is one, with the
line.
-/

namespace ShellCatalog

/-- Why a file cannot be read. -/
inductive ReadError
  | notFound
  | isDirectory
  /-- A step on the way is no directory. -/
  | notDirectory
  /-- Another cause, in the system's words. -/
  | other (words : String)
  deriving DecidableEq, Repr

/-- The system's words for a cause, with its number. -/
def ReadError.message : ReadError → String
  | .notFound => "No such file or directory (os error 2)"
  | .isDirectory => "Is a directory (os error 21)"
  | .notDirectory => "Not a directory (os error 20)"
  | .other words => words

/-- A finding about one file. -/
inductive Diagnostic
  | unreadable (path : Path) (cause : ReadError)
  /-- No rule tells the file's dialect. -/
  | unknownDialect (path : Path)
  /-- The file ends inside a construct. -/
  | unterminated (path : Path) (leftOpen : OpenConstruct)
  /-- A definition whose name the dialect does not accept. -/
  | badName (path : Path) (line : Nat) (kind : Kind) (name : String)
  deriving DecidableEq, Repr

namespace Diagnostic

/-- The file that the finding is about. -/
def path : Diagnostic → Path
  | unreadable path _ => path
  | unknownDialect path => path
  | unterminated path _ => path
  | badName path _ _ _ => path

/-- The words of a finding. -/
def message : Diagnostic → String
  | unreadable path cause => path.text ++ ": cannot read file: " ++ cause.message
  | unknownDialect path => path.text ++ ": unsupported shell dialect, file skipped"
  | unterminated path t =>
    path.text ++ ":" ++ toString t.line ++ ": unterminated " ++ t.construct.label ++
      ", rest of file ignored"
  | badName path line kind name =>
    path.text ++ ":" ++ toString line ++ ": malformed " ++ kind.label ++ " name \x60" ++ name ++
      "\x60, definition skipped"

end Diagnostic

end ShellCatalog
