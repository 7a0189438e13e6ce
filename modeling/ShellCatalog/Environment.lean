import ShellCatalog.Dialect.Basic
import ShellCatalog.Scan.Basic

/-!
# The user's environment

The directories that the environment names, and the files that they lead to: the startup files of
each dialect (`Dialect.startupFiles`), and the settings file (`Environment.settingsPath`).

A directory of settings counts only if it is absolute, otherwise it is the usual one below the home
directory. The directory of zsh counts as it is. The startup files of a shell are listed in the
order in which it reads them, so that of two definitions of a name the later one is live; those that
do not exist are left out.

What exists is a question to the contents of files (`FileContents.isFile`), which answer for the
file system. Nothing here reads the environment itself.
-/

namespace ShellCatalog

/-- The directories that the environment names. -/
structure Environment where
  home : Path
  /-- Where zsh keeps its startup files instead of the home directory. -/
  zshDir : Option Path
  /-- Where programs keep their settings. -/
  configHome : Option Path
  deriving DecidableEq, Repr

/-- The path names a file that can be read. -/
def FileContents.isFile (contents : FileContents) (path : Path) : Bool :=
  match contents path with
  | .ok _ => true
  | .error _ => false

/-- The path names a file or a directory. -/
def FileContents.isPresent (contents : FileContents) (path : Path) : Bool :=
  match contents path with
  | .ok _ | .error .isDirectory => true
  | .error _ => false

namespace Environment

/-- The directory of settings: the one that the environment names, if it names an absolute one. -/
def settingsDir (env : Environment) : Path :=
  match env.configHome with
  | some dir => if dir.isAbsolute then dir else env.home.join ⟨".config"⟩
  | none => env.home.join ⟨".config"⟩

/-- The settings file that is read when none is given. -/
def settingsPath (env : Environment) : Path :=
  (env.settingsDir.join ⟨"lscmd"⟩).join ⟨"config.toml"⟩

/-- A path with a leading tilde replaced by the home directory. The tilde of another user stays. -/
def pathOf (env : Environment) (path : String) : Path :=
  match path.toList with
  | ['~'] => env.home.join ⟨""⟩
  | '~' :: '/' :: rest => env.home.join ⟨.ofList (rest.dropWhile (· == '/'))⟩
  | _ => ⟨path⟩

end Environment

/-- The startup files of a dialect, in the order in which the shell reads them, for a user whose
home directory is `root`. -/
def Dialect.startupFiles (env : Environment) (root : Path) : Dialect → List Path
  | .sh => [root.join ⟨".profile"⟩]
  | .bash =>
    [".bash_profile", ".bash_login", ".bashrc", ".bash_aliases"].map fun f ↦ root.join ⟨f⟩
  | .zsh =>
    [".zshenv", ".zprofile", ".zshrc", ".zlogin"].map fun f ↦ (env.zshDir.getD root).join ⟨f⟩
  | .pwsh =>
    [(env.settingsDir.join ⟨"powershell"⟩).join ⟨"Microsoft.PowerShell_profile.ps1"⟩]

namespace Environment

/-- The startup files of all dialects, in the order of a login. -/
def startupFiles (env : Environment) (root : Path) : List Path :=
  [Dialect.sh, .bash, .zsh, .pwsh].flatMap (Dialect.startupFiles env root)

/-- Those of them that exist. -/
def presentStartupFiles (env : Environment) (contents : FileContents) (root : Path) : List Path :=
  (env.startupFiles root).filter contents.isFile

end Environment

end ShellCatalog
