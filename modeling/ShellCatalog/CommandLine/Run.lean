import ShellCatalog.CommandLine.Options
import ShellCatalog.Definition.Filter
import ShellCatalog.Listing.Json
import ShellCatalog.Listing.Table
import ShellCatalog.Settings

/-!
# A run of the command

Options and settings together say what is scanned and how it is shown. `Plan.ofOptions` puts them
together once: an option counts before a setting, and a switch is on if either switches it on. What
follows reads the plan and neither of the two.

A run writes its listing to the standard output and a warning for each finding to the standard error
(`run`). Or it fails before it writes anything: the settings are bad, or no file could be read.

* `Plan.visible` chooses the records that are shown. A record is shown by the name and the kind of
  its live definition; the definitions that this one shadows are shown with it or not at all.
* `Plan.listing` is the listing, a table or a structured text.
* `Plan.warnings` are the findings in the order of the files, and behind them that the scan was
  called off.
-/

namespace ShellCatalog

/-- What a run writes. -/
structure Output where
  stdout : String
  stderr : String
  deriving DecidableEq, Repr

/-- Why a run fails. -/
inductive RunError
  | settings (e : SettingsError)
  | noInput
  deriving DecidableEq, Repr

/-- The words of a failure. -/
def RunError.message : RunError → String
  | settings e => e.message
  | noInput => NoInput.message

/-- What a run does, by its options and settings. -/
structure Plan where
  /-- The files to scan. -/
  files : List Path
  scan : ScanOptions
  /-- The definitions to show. -/
  filter : Filter
  /-- Shadowed definitions are shown. -/
  showShadowed : Bool
  /-- The listing is structured, instead of a table. -/
  json : Bool
  /-- No warnings are written. -/
  quiet : Bool
  colors : Bool
  /-- The largest width of the body column; zero sets no limit. -/
  maxBodyWidth : Nat
  deriving DecidableEq, Repr

namespace Plan

/-- The plan of a run. -/
def ofOptions (env : Environment) (contents : FileContents) (colors : Bool) (o : Options)
    (s : Settings) : Plan where
  files := if o.files.isEmpty then s.filesToScan env contents else o.files
  scan := ⟨o.dialect.or s.scan.dialect, if o.sort || s.scan.sort then .byPath else .given, false⟩
  filter := ⟨o.kind, o.name⟩
  showShadowed := o.shadowed || s.ui.showShadowed
  json := o.json
  quiet := o.quiet
  colors := colors && s.ui.color
  maxBodyWidth := s.ui.maxBodyWidth

/-- The records that are shown, with shadowed definitions only when they are asked for. -/
def visible (p : Plan) (inv : Inventory) : List Record :=
  (inv.records.filter fun r ↦ p.filter.accepts r.kind r.name).map fun r ↦
    { r with shadows := if p.showShadowed then r.shadows else [] }

/-- The lines of the listing. -/
def listing (p : Plan) (home : Path) (width : Nat) (r : Report) : List (List Char) :=
  let records := p.visible r.inventory
  if p.json then [Listing.json records]
  else
    Listing.tableLines home ⟨width, p.colors⟩
      ⟨records, r.filesRead, r.inventory.redefined.length, p.showShadowed, p.maxBodyWidth⟩

/-- The warnings, unless the run is to be quiet. -/
def warnings (p : Plan) (r : Report) : List (List Char) :=
  if p.quiet then []
  else
    let texts := r.diagnostics.map Diagnostic.message ++
      if r.cancelled then ["scan cancelled, listing is incomplete"] else []
    texts.map fun text ↦
      (Listing.Style.colored .yellow).paint p.colors ['⚠'] ++ ' ' :: text.toList

end Plan

/-- Lines as a text, each ended by a newline. -/
def joinLines (lines : List (List Char)) : String :=
  .ofList (lines.flatMap (· ++ ['\n']))

/-- Carries out a run. -/
def run (env : Environment) (contents : FileContents) (t : Listing.Terminal) (o : Options) :
    Except RunError Output :=
  match Settings.load env contents o.config with
  | .error e => .error (.settings e)
  | .ok s =>
    let p := Plan.ofOptions env contents t.colors o s
    match Report.ofPaths p.scan contents p.files with
    | .error _ => .error .noInput
    | .ok r => .ok ⟨joinLines (p.listing env.home t.width r), joinLines (p.warnings r)⟩

end ShellCatalog
