/-!
# Shell dialects

The four families of shell text that the catalogue reads, with the names by which each is known: the
name that is printed, the interpreters that run it (`Dialect.ofInterpreter?`), and the name in a
settings file (`Dialect.ofSettingName?`). The last is the printed name but for PowerShell, which is
written out there.

The rules of a dialect stand elsewhere (`ShellCatalog.Dialect.Profile`). Nothing that reads text
distinguishes dialects by these names.
-/

namespace ShellCatalog

/-- A family of shell text. `sh` stands for the portable shell and its close relatives. -/
inductive Dialect
  | bash
  | zsh
  | sh
  | pwsh
  deriving DecidableEq, Repr

namespace Dialect

/-- All dialects, in their fixed order. -/
def all : List Dialect :=
  [.bash, .zsh, .sh, .pwsh]

/-- The name under which a dialect is printed. -/
def name : Dialect → String
  | .bash => "bash"
  | .zsh => "zsh"
  | .sh => "sh"
  | .pwsh => "pwsh"

/-- The dialect of the program that runs a script. -/
def ofInterpreter? (program : String) : Option Dialect :=
  if program = "bash" then some .bash
  else if program = "zsh" then some .zsh
  else if program ∈ ["sh", "dash", "ksh", "mksh", "ash", "busybox"] then some .sh
  else if program ∈ ["pwsh", "powershell", "pwsh-preview"] then some .pwsh
  else none

/-- The name of a dialect in a settings file. -/
def settingName : Dialect → String
  | .pwsh => "powershell"
  | d => d.name

/-- The dialect that a settings file names. -/
def ofSettingName? (text : String) : Option Dialect :=
  all.find? fun d ↦ d.settingName == text

end Dialect

end ShellCatalog
