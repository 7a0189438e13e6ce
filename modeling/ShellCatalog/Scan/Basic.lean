import ShellCatalog.Findings
import ShellCatalog.Inventory.Basic
import ShellCatalog.Text.Utf8

/-!
# Scanning files

Every file has an **outcome**: what it defines, or why it defines nothing. A scan merges outcomes in
the order of the files, and the merged report depends on nothing else.

* `Report.merge` adds one outcome: its definitions go into the inventory, where the last definition
  of a name wins, and its findings behind those that are there.
* `Report.ofMerged` merges the outcomes of the files in front of some place in the order. A scan
  that is called off ends at such a place, and is reported as called off exactly if files are left
  out.
* `MergeOrder.arrange` is the order: as the files are given, or by path. Sorting is stable, so of
  two spellings of one path the one that is given first comes first.
* `Report.ofPaths` reads the files. It fails when not one of them can be read, since a listing of
  nothing would look like the listing of files without definitions.

How workers come to the outcomes, and when a scan is called off, is another matter
(`ShellCatalog.Scan.Schedule`). What a file holds is a parameter (`FileContents`), so nothing here
touches the file system.
-/

namespace ShellCatalog

/-- What became of one file: whether its bytes could be read, and what it defines. -/
structure Outcome where
  read : Bool
  result : Except Diagnostic Findings

/-- The order in which files are merged. -/
inductive MergeOrder
  | given
  /-- By path. -/
  | byPath
  deriving DecidableEq, Repr

/-- How a scan is carried out. -/
structure ScanOptions where
  /-- The dialect of every file, instead of the one it tells. -/
  dialect : Option Dialect
  order : MergeOrder
  /-- The scan is called off before it starts. -/
  cancelled : Bool
  deriving DecidableEq, Repr

/-- What a scan found. -/
structure Report where
  inventory : Inventory
  /-- The findings, in the order of the files. -/
  diagnostics : List Diagnostic
  /-- The number of files whose bytes were read. -/
  filesRead : Nat
  /-- The number of files that were given. -/
  filesGiven : Nat
  /-- Some files were left out because the scan was called off. -/
  cancelled : Bool
  deriving DecidableEq, Repr

namespace Report

/-- The report on `given` files before the first is merged. -/
def start (given : Nat) : Report :=
  ⟨.empty, [], 0, given, false⟩

/-- Merges one outcome. -/
def merge (r : Report) (o : Outcome) : Report :=
  let r := if o.read then { r with filesRead := r.filesRead + 1 } else r
  match o.result with
  | .ok e =>
    { r with
      inventory := r.inventory.extend e.definitions
      diagnostics := r.diagnostics ++ e.diagnostics }
  | .error d => { r with diagnostics := r.diagnostics ++ [d] }

/-- The report on `given` files of which the first ones, with these outcomes, were merged. -/
def ofMerged (given : Nat) (merged : List Outcome) : Report :=
  { merged.foldl merge (start given) with cancelled := merged.length < given }

end Report

/-- The files in the order in which they are merged. -/
def MergeOrder.arrange {α : Type} (order : MergeOrder) (path : α → Path) (files : List α) :
    List α :=
  match order with
  | .given => files
  | .byPath => files.mergeSort fun a b ↦ (path a).le (path b)

/-- The report on files whose outcomes are known, in order. -/
def Report.ofFiles {α : Type} (opts : ScanOptions) (path : α → Path) (outcome : α → Outcome)
    (files : List α) : Report :=
  let files := opts.order.arrange path files
  .ofMerged files.length (if opts.cancelled then [] else files.map outcome)

/-- The outcome of a file whose text is known. -/
def Source.outcome (opts : ScanOptions) (s : Source) : Outcome :=
  ⟨true, Source.findings opts.dialect s⟩

/-- Scans files whose texts are known. -/
def Report.ofSources (opts : ScanOptions) (sources : List Source) : Report :=
  Report.ofFiles opts Source.path (Source.outcome opts) sources

/-! ### Files that have to be read -/

/-- What reading a path yields. -/
abbrev FileContents :=
  Path → Except ReadError (List UInt8)

/-- The outcome of the file at a path. -/
def Path.outcome (opts : ScanOptions) (contents : FileContents) (path : Path) : Outcome :=
  match contents path with
  | .ok bytes => (Source.ofText path (decodeBytes bytes)).outcome opts
  | .error cause => ⟨false, .error (.unreadable path cause)⟩

/-- Not a single file could be read. -/
structure NoInput where
  /-- What would have been reported. -/
  report : Report
  deriving DecidableEq, Repr

/-- The words of the failure. -/
def NoInput.message : String :=
  "no input files could be read"

/-- Scans the files at some paths. It fails when none of them can be read, unless the scan was
called off. -/
def Report.ofPaths (opts : ScanOptions) (contents : FileContents) (paths : List Path) :
    Except NoInput Report :=
  let report := Report.ofFiles opts id (Path.outcome opts contents) paths
  if report.filesRead = 0 ∧ ¬ report.cancelled then .error ⟨report⟩ else .ok report

end ShellCatalog
