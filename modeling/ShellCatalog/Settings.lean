import ShellCatalog.Environment
import ShellCatalog.Toml.Reader

/-!
# Settings

What a user can set once for all runs, how it is read from a settings file, and where that file is
looked for.

* A setting that is not given keeps its default (`Settings.default`).
* A setting that is given must have the right type. There are few types, and a reader for each:
  texts, lists of texts, numbers that are not negative, truth values and names of dialects.
* A setting that is not known is passed over.

`Settings.setting?` puts the first two together for a setting of any type. Settings stand in two
groups, and a group can be written as a table or as an array that gives its settings in order
(`Settings.group?`).

## Settings files

A file that is asked for must exist; the user's own settings file need not, and then everything
keeps its default (`Settings.load`). A file that exists and cannot be read, is not UTF-8 or is no
well-formed document with values of the right types is an error, and never a file that sets nothing.
-/

namespace ShellCatalog

/-- Settings about what is scanned. -/
structure ScanSettings where
  /-- The dialect of every file, instead of the one it tells. -/
  dialect : Option Dialect
  /-- The files to scan when none are given; none means the startup files. -/
  files : List String
  /-- The number of workers; zero leaves it to the system. -/
  jobs : Nat
  sort : Bool
  deriving DecidableEq, Repr

/-- Settings about what is shown. -/
structure UiSettings where
  showShadowed : Bool
  color : Bool
  /-- The largest width of the body column; zero sets no limit. -/
  maxBodyWidth : Nat
  deriving DecidableEq, Repr

/-- All settings. -/
structure Settings where
  scan : ScanSettings
  ui : UiSettings
  deriving DecidableEq, Repr

/-- What is scanned when nothing is set. -/
def ScanSettings.default : ScanSettings :=
  ⟨none, [], 0, false⟩

/-- What is shown when nothing is set. -/
def UiSettings.default : UiSettings :=
  ⟨false, true, 0⟩

/-- The settings of a user who has set nothing. -/
def Settings.default : Settings :=
  ⟨.default, .default⟩

namespace Settings

open Toml (Value Table)

/-! ### Values of the right type -/

/-- A text. -/
def text? : Value → Option String
  | .string text => some (.ofList text)
  | _ => none

/-- A value that says nothing more than its name. -/
def isBare : Value → Bool
  | .array vs => vs.isEmpty
  | .table _ entries => entries.isEmpty
  | _ => false

/-- The name of a dialect, as a text or as the only name in a table. -/
def dialect? : Value → Option Dialect
  | .string text => Dialect.ofSettingName? (.ofList text)
  | .table _ [(name, v)] => if isBare v then Dialect.ofSettingName? (.ofList name) else none
  | _ => none

/-- A number that is not negative. -/
def size? : Value → Option Nat
  | .integer n => if 0 ≤ n then some n.toNat else none
  | _ => none

/-- A truth value. -/
def flag? : Value → Option Bool
  | .boolean b => some b
  | _ => none

/-- A list of texts. -/
def texts? : Value → Option (List String)
  | .array vs => vs.mapM text?
  | _ => none

/-- A group of settings by name. A group can be written as a table, or as an array or repeated
tables that give its settings in order. A moment is a group without a setting. -/
def group? (names : List String) : Value → Option Table
  | .table _ entries => some entries
  | .array vs => some ((names.map String.toList).zip vs)
  | .tables ts => some ((names.map String.toList).zip (ts.map (Value.table .header)))
  | .moment => some []
  | _ => none

/-- The value of a setting, which is the default when the setting is not given. -/
def setting? {α : Type} (t : Table) (name : String) (read : Value → Option α) (otherwise : α) :
    Option α :=
  match t.get? name.toList with
  | some v => read v
  | none => some otherwise

/-- The group of settings about what is scanned. -/
def scan? (v : Value) : Option ScanSettings := do
  let t ← group? ["dialect", "files", "jobs", "sort"] v
  let d := ScanSettings.default
  some
    { dialect := ← setting? t "dialect" (fun v ↦ (dialect? v).map some) d.dialect
      files := ← setting? t "files" texts? d.files
      jobs := ← setting? t "jobs" size? d.jobs
      sort := ← setting? t "sort" flag? d.sort }

/-- The group of settings about what is shown. -/
def ui? (v : Value) : Option UiSettings := do
  let t ← group? ["show_shadowed", "color", "max_body_width"] v
  let d := UiSettings.default
  some
    { showShadowed := ← setting? t "show_shadowed" flag? d.showShadowed
      color := ← setting? t "color" flag? d.color
      maxBodyWidth := ← setting? t "max_body_width" size? d.maxBodyWidth }

/-- The settings that a text gives, if it is a well-formed document with values of the right
types. -/
def ofText? (text : List Char) : Option Settings := do
  let t ← Toml.readDocument? text
  some { scan := ← setting? t "scan" scan? .default, ui := ← setting? t "ui" ui? .default }

end Settings

/-! ### Settings files -/

/-- Why there are no settings. -/
inductive SettingsError
  /-- The file that was asked for is none. -/
  | notFound (path : Path)
  /-- The file holds no settings. -/
  | invalid (path : Path)
  deriving DecidableEq, Repr

/-- The words of a failure. -/
def SettingsError.message : SettingsError → String
  | notFound path => "Config file not found: " ++ path.text
  | invalid path => "Invalid config file: " ++ path.text

namespace Settings

/-- The settings in a file. A file that does not exist sets nothing. -/
def ofFile (contents : FileContents) (path : Path) : Except SettingsError Settings :=
  if !contents.isPresent path then .ok .default
  else
    match contents path with
    | .error _ => .error (.invalid path)
    | .ok bytes =>
      match (decodeBytes? bytes).bind ofText? with
      | some s => .ok s
      | none => .error (.invalid path)

/-- The settings of a run: from the file that is asked for, which must exist, or from the user's
own settings file. -/
def load (env : Environment) (contents : FileContents) :
    Option Path → Except SettingsError Settings
  | some path => if contents.isFile path then ofFile contents path else .error (.notFound path)
  | none => ofFile contents env.settingsPath

/-- The files that are scanned when none are given: those of the settings, or the startup files that
exist. -/
def filesToScan (s : Settings) (env : Environment) (contents : FileContents) : List Path :=
  if s.scan.files.isEmpty then env.presentStartupFiles contents env.home
  else s.scan.files.map env.pathOf

end Settings

end ShellCatalog
