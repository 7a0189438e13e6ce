import ShellCatalog.Dialect.Profile
import ShellCatalog.Word

/-!
# Alias commands

An alias command is read word by word into proposed aliases. Their names are not yet judged, so that
a bad name can be reported with its place. There are two spellings, and `Profile.aliasForm` says
which one a dialect has.

* A keyword is followed by any number of **assignments**. Each word proposes an alias on its own
  (`ProposedAlias.ofWord?`): its name and its value lose the quotes around them, or the quotes stand
  around the assignment as a whole. Options and names without a value propose none.
* A command takes one name and one value as **parameters** (`ParameterForm.proposal?`). Parameters
  may be abbreviated and may stand in any order, and an argument follows behind a colon or as the
  next word. Words that belong to no parameter are taken for the name and the value in this order,
  as long as these are not given.

`proposedAliases?` answers no list at all for a command of another kind. A list without an alias is
another answer: the command is an alias command, and is not looked at for a function header.
-/

namespace ShellCatalog

/-- A name and a body as an alias command gives them. -/
structure ProposedAlias where
  name : List Char
  body : List Char
  deriving DecidableEq, Repr

/-! ### Assignments -/

/-- The alias that a word of an alias command proposes. The whole assignment may stand in quotes;
options and names alone propose none. -/
def ProposedAlias.ofWord? (p : Profile) (word : List Char) : Option ProposedAlias :=
  match splitAssignment? p word with
  | some (name, value) => some ⟨unquote p name, unquote p value⟩
  | none =>
    let inner := unquote p word
    if inner = word then none
    else (splitAt? '=' inner).map fun parts ↦ ⟨parts.1, parts.2⟩

/-! ### Parameters -/

/-- What a parameter of an alias command is for. -/
inductive ParamRole
  | name
  | value
  /-- Takes one argument that does not matter. -/
  | valued
  /-- Takes no argument. -/
  | switch
  deriving DecidableEq, Repr

/-- The word abbreviates the parameter: it begins it, in any case, with at least two characters. -/
def abbreviates (word : List Char) (param : String) : Bool :=
  2 ≤ word.length && word.length ≤ param.length && sameWord (param.toList.take word.length) word

namespace ParameterForm

/-- What a parameter is for, by the first of the known parameters that it abbreviates. -/
def role (spec : ParameterForm) (param : List Char) : ParamRole :=
  if abbreviates param spec.forName then .name
  else if abbreviates param spec.forValue then .value
  else if spec.valued.any (abbreviates param) then .valued
  else .switch

/-- The name and the value that the arguments have given so far. -/
structure Binding where
  name : Option (List Char)
  value : Option (List Char)
  deriving DecidableEq, Repr

/-- A positional word is the name, or the value when the name is given. -/
def Binding.positional (b : Binding) (word : List Char) : Binding :=
  match b.name, b.value with
  | none, _ => { b with name := some word }
  | some _, none => { b with value := some word }
  | some _, some _ => b

/-- A word of at least two characters that begins with a hyphen, divided at its first colon. -/
def splitParam? : List Char → Option (List Char × Option (List Char))
  | '-' :: c :: rest =>
    match splitAt? ':' ('-' :: c :: rest) with
    | some (param, inline) => some (param, some inline)
    | none => some ('-' :: c :: rest, none)
  | _ => none

/-- Reads arguments into a binding. A parameter that takes an argument takes it from behind its own
colon, or it takes the next word, and it is bound to nothing when there is none. -/
def bind (spec : ParameterForm) (b : Binding) : List (List Char) → Binding
  | [] => b
  | word :: rest =>
    match splitParam? word with
    | none => spec.bind (b.positional word) rest
    | some (param, inline) =>
      match spec.role param, inline, rest with
      | .switch, _, rest => spec.bind b rest
      | .valued, none, _ :: rest => spec.bind b rest
      | .valued, _, rest => spec.bind b rest
      | .name, none, arg :: rest => spec.bind { b with name := some arg } rest
      | .name, inline, rest => spec.bind { b with name := inline } rest
      | .value, none, arg :: rest => spec.bind { b with value := some arg } rest
      | .value, inline, rest => spec.bind { b with value := inline } rest

/-- The alias that the arguments propose, when they give both a name and a value. -/
def proposal? (p : Profile) (spec : ParameterForm) (args : List (List Char)) :
    Option ProposedAlias :=
  match spec.bind ⟨none, none⟩ args with
  | ⟨some name, some value⟩ => some ⟨unquote p name, unquote p value⟩
  | _ => none

end ParameterForm

/-- The aliases that a command proposes, given by its words; no list at all when it is no alias
command. -/
def proposedAliases? (p : Profile) : List (List Char) → Option (List ProposedAlias)
  | [] => none
  | command :: args =>
    match p.aliasForm with
    | .assignments keyword =>
      if p.isKeyword command keyword then some (args.filterMap (ProposedAlias.ofWord? p)) else none
    | .parameters spec =>
      if spec.commands.any (p.isKeyword command) then some (spec.proposal? p args).toList
      else none

end ShellCatalog
