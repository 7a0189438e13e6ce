import ShellCatalog.Dialect.Basic
import ShellCatalog.Dialect.Name
import ShellCatalog.Text.Split

/-!
# What a dialect's text looks like

One record per dialect lists the rules on which reading its text depends (`Profile`): which quotes,
comments and bodies it has, how aliases and functions are spelled, which names are good. Everything
that reads text takes the record and no dialect by name, so a dialect is described in this module
alone.

Bash, zsh and the portable shell share one record but for a few fields; PowerShell has one of its
own. That is why many theorems are said of the dialects other than PowerShell, or of it alone.

Two functions belong to the record: how a word is compared with a keyword (`Profile.isKeyword`),
which does not regard case where the dialect does not, and how a name loses the scope qualifier in
front of it (`Profile.dropScope`).
-/

namespace ShellCatalog

/-- A command with parameters that defines an alias. -/
structure ParameterForm where
  /-- The names of the command. -/
  commands : List String
  /-- The parameter that gives the alias's name. -/
  forName : String
  /-- The parameter that gives its value. -/
  forValue : String
  /-- Further parameters that take one argument. -/
  valued : List String
  deriving DecidableEq, Repr

/-- The form of a dialect's alias definitions. -/
inductive AliasForm
  /-- A keyword followed by words `name=value`. -/
  | assignments (keyword : String)
  /-- A command that takes a name and a value as parameters. -/
  | parameters (spec : ParameterForm)
  deriving DecidableEq, Repr

/-- The keywords that introduce a function, and with them the form of the header. -/
inductive FunctionKeyword
  /-- The keyword `function`, then a name and an optional empty pair of parentheses. -/
  | function
  /-- The keyword `function` or `filter` in any case, then a name and an optional parameter list. -/
  | functionOrFilter
  deriving DecidableEq, Repr

/-- The rules of one dialect. -/
structure Profile where
  dialect : Dialect
  comment : Char
  /-- Takes the next character literally, outside single quotes. -/
  escape : Char
  /-- Comments between `<#` and `#>`. -/
  blockComments : Bool
  /-- Quotes that open with a dollar sign and a single quote and know backslash escapes. -/
  ansiQuotes : Bool
  /-- Command substitution between backquotes. -/
  backquotes : Bool
  hereDocs : Bool
  hereStrings : Bool
  /-- A quote written twice inside a quoted string stands for itself. -/
  doubledQuotes : Bool
  /-- A brace group as a statement runs in the current shell. -/
  braceGroups : Bool
  /-- Keywords and commands are the same in any case. -/
  caseInsensitive : Bool
  aliasForm : AliasForm
  /-- The names that an alias may have. -/
  aliasNames : NameRule
  /-- The names that a function may have. -/
  functionNames : NameRule
  functionKeyword : Option FunctionKeyword
  /-- A name and an empty pair of parentheses introduce a function. -/
  parensHeader : Bool
  /-- A function body may stand between parentheses. -/
  subshellBodies : Bool
  /-- Keywords of conditionals and loops behind which a command may stand in the same statement. -/
  clauseWords : List String
  /-- The head of a case command and the patterns of its arms may stand before a command in the same
  statement. -/
  casePatterns : Bool
  /-- Qualifiers that may stand before a function's name. -/
  scopes : List String
  deriving DecidableEq, Repr

namespace Profile

/-- The rules of bash. -/
def bash : Profile where
  dialect := .bash
  comment := '#'
  escape := '\\'
  blockComments := false
  ansiQuotes := true
  backquotes := true
  hereDocs := true
  hereStrings := false
  doubledQuotes := false
  braceGroups := true
  caseInsensitive := false
  aliasForm := .assignments "alias"
  aliasNames := .shAlias
  functionNames := .shFunction
  functionKeyword := some .function
  parensHeader := true
  subshellBodies := true
  clauseWords := ["then", "else", "do"]
  casePatterns := true
  scopes := []

/-- The rules of zsh, as far as definitions go, are those of bash. -/
def zsh : Profile :=
  { bash with dialect := .zsh }

/-- The portable shell has neither ANSI-C quotes nor the keyword `function`, and narrower names. -/
def sh : Profile :=
  { bash with
    dialect := .sh
    ansiQuotes := false
    functionNames := .portable
    functionKeyword := none }

/-- The rules of PowerShell. -/
def pwsh : Profile where
  dialect := .pwsh
  comment := '#'
  escape := '\x60'
  blockComments := true
  ansiQuotes := false
  backquotes := false
  hereDocs := false
  hereStrings := true
  doubledQuotes := true
  braceGroups := false
  caseInsensitive := true
  aliasForm := .parameters
    { commands := ["Set-Alias", "New-Alias", "sal", "nal"]
      forName := "-Name"
      forValue := "-Value"
      valued := ["-Scope", "-Option", "-Description"] }
  aliasNames := .pwshAlias
  functionNames := .pwshFunction
  functionKeyword := some .functionOrFilter
  parensHeader := false
  subshellBodies := false
  clauseWords := []
  casePatterns := false
  scopes := ["global:", "script:", "local:", "private:"]

/-- The delimiters of a block comment, where the dialect has one. -/
def blockDelimiters? (p : Profile) : Option (String × String) :=
  if p.blockComments then some ("<#", "#>") else none

/-- The word is the keyword by the dialect's rule on case. -/
def isKeyword (p : Profile) (word : List Char) (keyword : String) : Bool :=
  if p.caseInsensitive then sameWord word keyword.toList else word == keyword.toList

/-- The scope qualifier that a name begins with, in any case and with more of the name behind it. -/
def scope? (p : Profile) (name : List Char) : Option String :=
  p.scopes.find? fun scope ↦
    sameWord (name.take scope.length) scope.toList && scope.length < name.length

/-- A name without its scope qualifier. -/
def dropScope (p : Profile) (name : List Char) : List Char :=
  match p.scope? name with
  | some scope => name.drop scope.length
  | none => name

end Profile

/-- The rules of a dialect. -/
def Dialect.profile : Dialect → Profile
  | .bash => .bash
  | .zsh => .zsh
  | .sh => .sh
  | .pwsh => .pwsh

end ShellCatalog
