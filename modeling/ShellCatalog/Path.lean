import ShellCatalog.Text.Split

/-!
# Paths

A path is kept as it is spelled, and two spellings can name one file: repeated slashes, a slash at
the end and `.` inside do not count. What counts are the **components** (`Path.components`), and
everything that compares paths reads them:

* `Path.same`, equality up to spelling;
* `Path.le`, the order in which files are merged: that of a dictionary whose letters are components,
  the root before `.`, `..` and the names, and names by the code points of their characters;
* `Path.fileName?` and `Path.extension?`, by which the dialect of a file can be told;
* `Path.below?`, the rest of a path behind a directory that it leads through.

Nothing is looked up here. In particular `..` is a component like any other and is never taken
together with the name in front of it, since where it leads depends on the files.

The spelling itself is used where a path is shown or read, and by `Path.join`.
-/

namespace ShellCatalog

/-- A path as it is spelled. -/
structure Path where
  text : String
  deriving DecidableEq, Repr

namespace Path

/-- A step of a path. -/
inductive Component
  | root
  /-- A `.` at the start. -/
  | here
  | up
  | name (text : List Char)
  deriving DecidableEq, Repr

/-- The component that a segment between slashes stands for, when it stands for one. -/
def Component.ofSegment? (segment : List Char) : Option Component :=
  if segment = [] ∨ segment = ['.'] then none
  else if segment = ['.', '.'] then some .up
  else some (.name segment)

/-- The components of a spelling. A `.` counts only where a relative path begins with it. -/
def componentsOf (text : List Char) : List Component :=
  let segments := splitOn '/' text
  let first : List Component :=
    if text.head? = some '/' then [.root]
    else if segments.head? = some ['.'] then [.here]
    else []
  first ++ segments.filterMap Component.ofSegment?

/-- The components of a path. -/
def components (p : Path) : List Component :=
  componentsOf p.text.toList

/-- Both paths have the same components. -/
def same (p q : Path) : Bool :=
  p.components == q.components

/-- The path begins with a slash. -/
def isAbsolute (p : Path) : Bool :=
  p.text.toList.head? == some '/'

/-- The last component, when it is a name. -/
def fileName? (p : Path) : Option (List Char) :=
  match p.components.getLast? with
  | some (.name text) => some text
  | _ => none

/-- What follows the last dot of a file name, unless the dot begins the name. -/
def extension? (p : Path) : Option (List Char) :=
  p.fileName?.bind fun name ↦
    match (splitOn '.' name).reverse with
    | last :: stem :: more => if stem = [] ∧ more = [] then none else some last
    | _ => none

/-- The path `q` taken from `p` on: `q` itself when it is absolute. -/
def join (p q : Path) : Path :=
  if q.isAbsolute then q
  else if p.text.isEmpty || p.text.endsWith "/" then ⟨p.text ++ q.text⟩
  else ⟨p.text ++ "/" ++ q.text⟩

/-! ### Order -/

/-- The place of a component's kind among the kinds. -/
def Component.rank : Component → Nat
  | .root => 0
  | .here => 1
  | .up => 2
  | .name _ => 3

/-- The order of a dictionary: the first place where two lists differ decides, and a list comes
before those that go on behind it. -/
def dictionaryLe {α : Type} [DecidableEq α] (le : α → α → Bool) : List α → List α → Bool
  | [], _ => true
  | _ :: _, [] => false
  | a :: as, b :: bs => if a = b then dictionaryLe le as bs else le a b

/-- Components are ordered by kind, and names by the code points of their characters. -/
def Component.le (a b : Component) : Bool :=
  match a, b with
  | .name s, .name t => dictionaryLe (fun c d ↦ c.toNat ≤ d.toNat) s t
  | _, _ => a.rank ≤ b.rank

/-- The order of paths, which looks at components and not at the spelling. -/
def le (p q : Path) : Bool :=
  dictionaryLe Component.le p.components q.components

/-! ### A path seen from a directory -/

/-- A segment that steps nowhere. -/
def isIdle (segment : List Char) : Bool :=
  segment == [] || segment == ['.']

/-- The segments behind those that make up some components. -/
def dropComponents : List Component → List (List Char) → List (List Char)
  | [], segments => segments
  | .root :: cs, segments => dropComponents cs segments.tail
  | .here :: cs, segments => dropComponents cs segments.tail
  | _ :: cs, segments => dropComponents cs (segments.dropWhile isIdle).tail

/-- The spelling of a path from a directory on, when the path leads through it. Steps to nowhere are
left out at both ends and kept between. -/
def below? (p dir : Path) : Option (List Char) :=
  if dir.components.isPrefixOf p.components then
    let rest := (dropComponents dir.components (splitOn '/' p.text.toList)).dropWhile isIdle
    some (['/'].intercalate (rest.reverse.dropWhile isIdle).reverse)
  else none

end Path

end ShellCatalog
