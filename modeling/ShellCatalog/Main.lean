import ShellCatalog.CommandLine.Run

/-!
# The command

Reads what a run needs from the system, carries the run out, and prints what it says.

Every file that a run can look at is read beforehand, so the run itself (`run`) is a function of
what was read, and this module is all there is of input and output. The settings file is read first,
since it can name files to scan; then the files of the command line, those of the settings and the
startup files are read together.

Bad arguments exit with code 2, a run that fails exits with 1, and findings about single files do
not make a run fail.
-/

namespace ShellCatalog

/-- What reading a file from the system yields. -/
def readFile (path : Path) : IO (Except ReadError (List UInt8)) := do
  try
    let bytes ← IO.FS.readBinFile path.text
    return .ok bytes.toList
  catch e =>
    match e with
    | .noFileOrDirectory .. => return .error .notFound
    | .inappropriateType _ 21 _ => return .error .isDirectory
    | .inappropriateType .. => return .error .notDirectory
    | _ => return .error (.other (toString e))

/-- Reads files once, for a run to look at. -/
def readFiles (paths : List Path) : IO FileContents := do
  let read ← paths.mapM fun path ↦ do return (path, ← readFile path)
  return fun path ↦ (read.lookup path).getD (.error .notFound)

/-- The answer to a user who asks for help. -/
def usageText : String :=
  "Usage: lscmd [OPTIONS] [FILES]...\n\n" ++
  "Options:\n" ++
  "  -s, --shell <SHELL>  Parse every file as this shell instead of detecting it\n" ++
  "  -t, --type <KIND>    Only list this kind of definition: alias|func\n" ++
  "  -n, --name <NAME>    Only list definitions whose name contains this text\n" ++
  "      --shadowed       Also list definitions that were overridden by a later one\n" ++
  "      --json           Print the inventory as JSON\n" ++
  "  -j, --jobs <JOBS>    Worker threads\n" ++
  "      --sort           Merge files in path order instead of the order given\n" ++
  "  -q, --quiet          Do not print warnings\n" ++
  "  -v, --verbose        Enable debug logging\n" ++
  "      --config <PATH>  Use this configuration file\n" ++
  "  -h, --help           Print help\n" ++
  "  -V, --version        Print version\n"

/-- The first words of the answer to arguments that cannot be carried out. -/
def usageProblem : UsageError → String
  | .invalidValue => "error: a value is missing or not one of the possible values"
  | .notANumber => "error: a value is not a number"
  | .unknownArgument => "error: unexpected argument"
  | .repeatedOption => "error: an option cannot be used multiple times"
  | .unexpectedValue => "error: an option takes no value"
  | .help | .version => ""

/-- Carries out what the arguments ask for, and answers the exit code. -/
def runOptions (o : Options) : IO UInt32 := do
  let home := (← IO.getEnv "HOME").getD "~"
  let env : Environment :=
    ⟨⟨home⟩, (← IO.getEnv "ZDOTDIR").map Path.mk, (← IO.getEnv "XDG_CONFIG_HOME").map Path.mk⟩
  let stdout ← IO.getStdout
  let stderr ← IO.getStderr
  let settingsFiles := o.config.getD env.settingsPath
  let settings := (Settings.load env (← readFiles [settingsFiles]) o.config).toOption
  let named := ((settings.map fun s ↦ s.scan.files).getD []).map env.pathOf
  let contents ← readFiles ([settingsFiles] ++ o.files ++ named ++ env.startupFiles env.home)
  let width := ((← IO.getEnv "COLUMNS").bind String.toNat?).getD 0
  match run env contents (.ofWidth width (← stdout.isTty)) o with
  | .ok out =>
    stderr.putStr out.stderr
    stdout.putStr out.stdout
    return 0
  | .error e =>
    stderr.putStrLn ("✗ " ++ e.message)
    return 1

/-- The command. Bad arguments exit with code 2; help and the version are no failure. -/
def command (args : List String) : IO UInt32 := do
  match Options.ofArguments args with
  | .ok o => runOptions o
  | .error .help => IO.print usageText; return 0
  | .error .version => IO.print versionText; return 0
  | .error e => IO.eprintln (usageProblem e); return 2

end ShellCatalog

def main (args : List String) : IO UInt32 :=
  ShellCatalog.command args
