import ShellCatalog.Scan.Basic

/-!
# What a scan logs

One line says how a scan ended, in numbers that can be read off its report (`Report.summary`). When
nothing could be read, each finding follows as a warning in the words in which a run would report
it: there is no listing that it could stand beside (`NoInput.log`).
-/

namespace ShellCatalog

/-- How much a record matters. -/
inductive LogLevel
  | info
  | warn
  deriving DecidableEq, Repr

/-- The word for a level. -/
def LogLevel.label : LogLevel → String
  | .info => "INFO"
  | .warn => "WARN"

/-- A line of a log. -/
structure LogRecord where
  level : LogLevel
  text : String
  deriving DecidableEq, Repr

/-- The record with its level in front. -/
def LogRecord.line (r : LogRecord) : String :=
  r.level.label ++ " " ++ r.text

/-- How a scan ended, in numbers. -/
def Report.summary (r : Report) : String :=
  "scanned " ++ toString r.filesRead ++ " of " ++ toString r.filesGiven ++ " files: " ++
    toString r.inventory.size ++ " definitions, " ++ toString r.diagnostics.length ++
    " diagnostics" ++ if r.cancelled then " (cancelled)" else ""

/-- The records of a scan that read some file or was called off. -/
def Report.log (r : Report) : List LogRecord :=
  [⟨.info, r.summary⟩]

/-- The records of a scan that could read nothing. -/
def NoInput.log (n : NoInput) : List LogRecord :=
  n.report.log ++ n.report.diagnostics.map fun d ↦ ⟨.warn, d.message⟩

end ShellCatalog
