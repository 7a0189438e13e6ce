import ShellCatalog.Scan.Basic

/-!
# A tree of files in memory

Directories and files by their place below one directory. It stands in for the file system wherever
a scan is to be carried out on given files, and answers what the system would (`FileTree.contents`).

A path is followed step by step (`FileTree.follow`). Every name must exist where it is looked up,
and every step but the last must be made in a directory, a slash at the end included: a file with a
slash behind it is no file. So a path is not brought to its components first, and `a/..` is found
only if `a` is a directory.

The directories above the tree hold nothing that can be read (`FileTree.above`). A path that leaves
the tree by `..` or begins at the root finds directories there and nothing else.
-/

namespace ShellCatalog

/-- What stands at a place in the tree. -/
inductive FileNode
  | file (bytes : List UInt8)
  | directory
  deriving DecidableEq, Repr

/-- The nodes of a tree by their place, given as the names on the way to it. -/
structure FileTree where
  nodes : List (List (List Char) × FileNode)
  deriving DecidableEq, Repr

namespace FileTree

/-- A tree without files. -/
def empty : FileTree :=
  ⟨[([], .directory)]⟩

/-- The place that a path without symbolic names leads to. -/
def place (path : Path) : List (List Char) :=
  path.components.foldl (fun spot c ↦
    match c with
    | .name text => spot ++ [text]
    | .up => spot.dropLast
    | .root | .here => spot) []

/-- The tree with a node put at a path, and with the directories on the way to it. A node put later
replaces an earlier one. -/
def put (tree : FileTree) (path : Path) (node : FileNode) : FileTree :=
  let spot := place path
  let parents := (List.range spot.length).map fun n ↦ (spot.take n, FileNode.directory)
  ⟨(spot, node) :: parents ++ tree.nodes⟩

/-- What stands at a place. -/
def node? (tree : FileTree) (spot : List (List Char)) : Option FileNode :=
  (tree.nodes.find? fun entry ↦ entry.1 == spot).map Prod.snd

/-- What reading yields when the segments are followed above the tree, where only directories
are. -/
def above (segments : List (List Char)) : Except ReadError (List UInt8) :=
  if segments.all fun segment ↦ Path.isIdle segment || segment == ['.', '.'] then
    .error .isDirectory
  else .error .notFound

/-- Follows the segments of a path from a place. -/
def follow (tree : FileTree) (spot : List (List Char)) :
    List (List Char) → Except ReadError (List UInt8)
  | [] =>
    match tree.node? spot with
    | none => .error .notFound
    | some .directory => .error .isDirectory
    | some (.file bytes) => .ok bytes
  | segment :: rest =>
    match tree.node? spot with
    | none => .error .notFound
    | some (.file _) => .error .notDirectory
    | some .directory =>
      -- A step to nowhere has been made in a directory, so it is no error.
      if Path.isIdle segment then tree.follow spot rest
      else if segment = ['.', '.'] then
        if spot = [] then above rest else tree.follow spot.dropLast rest
      else tree.follow (spot ++ [segment]) rest

/-- What reading a path of the tree yields. -/
def contents (tree : FileTree) : FileContents := fun path ↦
  let segments := splitOn '/' path.text.toList
  if path.text.isEmpty then .error .notFound
  else if path.isAbsolute then above segments
  else tree.follow [] segments

end FileTree

end ShellCatalog
