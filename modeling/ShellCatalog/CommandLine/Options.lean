import ShellCatalog.Definition.Basic
import ShellCatalog.Dialect.Basic
import ShellCatalog.Text.Split

/-!
# The options of a run

Arguments are read one by one (`Reading.step`). An option that takes a value may have to wait for
the next argument, and a value or a list of files is judged only when something else follows it;
until then it is **pending**.

* A switch is carried out at once, and so is a value that is attached to its option.
* An unknown option, and a value given to an option that takes none, are reported before what is
  pending is judged. Every other error is reported in the order of the arguments.
* Letters may be written together. The first of them that takes a value takes the rest.
* Behind two hyphens there are only files.

Help and the version are asked for by options and are answers instead of options, so they end the
reading as an error does (`UsageError.help`, `UsageError.version`).
-/

namespace ShellCatalog

/-- What the arguments ask for. -/
structure Options where
  files : List Path
  dialect : Option Dialect
  kind : Option Kind
  name : Option String
  shadowed : Bool
  json : Bool
  jobs : Option Nat
  sort : Bool
  quiet : Bool
  verbose : Bool
  config : Option Path
  deriving DecidableEq, Repr

/-- Why arguments are not carried out. -/
inductive UsageError
  /-- A value is missing, empty where it must not be, or not one of the known ones. -/
  | invalidValue
  /-- A value is no number. -/
  | notANumber
  | unknownArgument
  /-- An option is given twice. -/
  | repeatedOption
  /-- A value is given to an option that takes none. -/
  | unexpectedValue
  /-- The user asks for help. -/
  | help
  /-- The user asks for the version. -/
  | version
  deriving DecidableEq, Repr

/-- The answer to a user who asks for the version. -/
def versionText : String :=
  "lscmd 0.1.0\n"

/-- An option without a value. -/
inductive Switch
  | shadowed
  | json
  | sort
  | quiet
  | verbose
  | help
  | version
  deriving DecidableEq, Repr

/-- An option with a value. -/
inductive ValueOption
  | shell
  | kind
  | name
  | jobs
  | config
  deriving DecidableEq, Repr

/-- An option of either sort. -/
inductive CommandOption
  | switch (s : Switch)
  | valued (v : ValueOption)
  deriving DecidableEq, Repr

namespace CommandOption

/-- The option of a long name. -/
def ofLong? (name : String) : Option CommandOption :=
  [("shell", valued .shell), ("type", .valued .kind), ("name", .valued .name),
    ("shadowed", .switch .shadowed), ("json", .switch .json), ("jobs", .valued .jobs),
    ("sort", .switch .sort), ("quiet", .switch .quiet), ("verbose", .switch .verbose),
    ("config", .valued .config), ("help", .switch .help), ("version", .switch .version)].lookup name

/-- The option of a letter. -/
def ofShort? (letter : Char) : Option CommandOption :=
  [('s', valued .shell), ('t', .valued .kind), ('n', .valued .name), ('j', .valued .jobs),
    ('q', .switch .quiet), ('v', .switch .verbose), ('h', .switch .help),
    ('V', .switch .version)].lookup letter

end CommandOption

namespace Options

/-- Nothing asked for. -/
def none : Options where
  files := []
  dialect := .none
  kind := .none
  name := .none
  shadowed := false
  json := false
  jobs := .none
  sort := false
  quiet := false
  verbose := false
  config := .none

/-! ### Values -/

/-- The dialect that a value names. -/
def dialectOf? (text : String) : Option Dialect :=
  [("bash", Dialect.bash), ("zsh", .zsh), ("sh", .sh), ("posix", .sh), ("pwsh", .pwsh),
    ("powershell", .pwsh)].lookup text

/-- The kind that a value names. -/
def kindOf? (text : String) : Option Kind :=
  [("alias", Kind.alias), ("a", .alias), ("func", .function), ("f", .function),
    ("function", .function)].lookup text

/-- A number of 64 bits in decimal digits, which a plus sign may precede. -/
def numberOf? (text : List Char) : Option Nat :=
  let digits := (after? ['+'] text).getD text
  let n := digits.foldl (fun acc c ↦ acc * 10 + (c.toNat - 48)) 0
  if !digits.isEmpty && digits.all Char.isDigit && n < 0x10000000000000000 then some n else .none

/-- Whether a value has been set. -/
def has (o : Options) : ValueOption → Bool
  | .shell => o.dialect.isSome
  | .kind => o.kind.isSome
  | .name => o.name.isSome
  | .jobs => o.jobs.isSome
  | .config => o.config.isSome

/-- Sets a value, once and if it is a good one. -/
def set (o : Options) (v : ValueOption) (text : String) : Except UsageError Options :=
  if o.has v then .error .repeatedOption
  else
    match v with
    | .shell =>
      match dialectOf? text with
      | some d => .ok { o with dialect := some d }
      | .none => .error .invalidValue
    | .kind =>
      match kindOf? text with
      | some k => .ok { o with kind := some k }
      | .none => .error .invalidValue
    | .name => .ok { o with name := some text }
    | .jobs =>
      match numberOf? text.toList with
      | some n => .ok { o with jobs := some n }
      | .none => .error .notANumber
    | .config => if text.isEmpty then .error .invalidValue else .ok { o with config := some ⟨text⟩ }

/-- Turns a switch on that is off. -/
def turnOn (o : Options) : Switch → Except UsageError Options
  | .shadowed => if o.shadowed then .error .repeatedOption else .ok { o with shadowed := true }
  | .json => if o.json then .error .repeatedOption else .ok { o with json := true }
  | .sort => if o.sort then .error .repeatedOption else .ok { o with sort := true }
  | .quiet => if o.quiet then .error .repeatedOption else .ok { o with quiet := true }
  | .verbose => if o.verbose then .error .repeatedOption else .ok { o with verbose := true }
  | .help => .error .help
  | .version => .error .version

/-- Adds files, none of which may be without a name. -/
def addFiles (o : Options) (files : List String) : Except UsageError Options :=
  if files.any String.isEmpty then .error .invalidValue
  else .ok { o with files := o.files ++ files.map Path.mk }

end Options

/-- What has been given and not been judged. -/
inductive Pending
  | nothing
  /-- An option with its value, or still without it. -/
  | value (v : ValueOption) (text : Option String)
  | files (files : List String)
  deriving DecidableEq, Repr

/-- Arguments that have been read so far. -/
structure Reading where
  options : Options
  pending : Pending
  /-- Everything that follows is a file. -/
  onlyFiles : Bool
  deriving DecidableEq, Repr

namespace Reading

/-- Judges what is pending. -/
def settle (r : Reading) : Except UsageError Options :=
  match r.pending with
  | .nothing => .ok r.options
  | .value _ none => .error .invalidValue
  | .value v (some text) => r.options.set v text
  | .files files => r.options.addFiles files

/-- Carries out an option, which `attached` is a value for. -/
def option (r : Reading) (c : CommandOption) (attached : Option String) :
    Except UsageError Reading := do
  match c, attached with
  | .switch _, some _ => .error .unexpectedValue
  | .switch s, none => return { r with options := ← (← r.settle).turnOn s, pending := .nothing }
  | .valued v, some text =>
    return { r with options := ← (← r.settle).set v text, pending := .nothing }
  | .valued v, none => return { r with options := ← r.settle, pending := .value v none }

/-- Reads a run of letters. The first that takes a value takes the rest of the run, without an
equals sign in front, or the next argument. -/
def letters (r : Reading) : List Char → Except UsageError Reading
  | [] => .ok r
  | c :: rest =>
    match CommandOption.ofShort? c with
    | none => .error .unknownArgument
    | some (.switch s) => do
      let r ← r.option (.switch s) none
      r.letters rest
    | some (.valued v) =>
      r.option (.valued v)
        (if rest.isEmpty then none else some (.ofList ((after? ['='] rest).getD rest)))

/-- Reads a long option, whose value may follow an equals sign. -/
def long (r : Reading) (text : List Char) : Except UsageError Reading :=
  let (name, attached) :=
    match splitAt? '=' text with
    | some (name, value) => (name, some (String.ofList value))
    | none => (text, none)
  match CommandOption.ofLong? (.ofList name) with
  | some c => r.option c attached
  | none => .error .unknownArgument

/-- Reads a file, which goes to the files in front of it. -/
def file (r : Reading) (text : String) : Except UsageError Reading :=
  match r.pending with
  | .files files => .ok { r with pending := .files (files ++ [text]) }
  | _ => r.settle.map fun o ↦ { r with options := o, pending := .files [text] }

/-- Reads one argument. -/
def step (r : Reading) (arg : String) : Except UsageError Reading :=
  if r.onlyFiles then r.file arg
  else
    match arg.toList with
    | ['-', '-'] => .ok { r with onlyFiles := true }
    | '-' :: '-' :: text => r.long text
    | '-' :: c :: rest => r.letters (c :: rest)
    | _ =>
      -- The argument is a value if an option waits for one, and a file otherwise.
      match r.pending with
      | .value v none => .ok { r with pending := .value v (some arg) }
      | _ => r.file arg

end Reading

/-- Reads the arguments of a run. -/
def Options.ofArguments (args : List String) : Except UsageError Options := do
  (← args.foldlM Reading.step ⟨.none, .nothing, false⟩).settle

end ShellCatalog
