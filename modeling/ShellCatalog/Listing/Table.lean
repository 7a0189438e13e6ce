import ShellCatalog.Inventory.Basic
import ShellCatalog.Listing.Style
import ShellCatalog.Path

/-!
# The table

Definitions in a frame of four columns, whose widths follow from the width of the terminal
(`columns`): the kind has a fixed width, the name a fifth and the location three tenths of what
remains, both within limits, and the body gets the rest, up to a limit that a user can set.

Every cell is cut and padded to its column, so all rows of definitions have one width; headings are
padded only, and a heading can be longer than its column. The lines around the rows are drawn for
the sum of the columns, but for the title, which is filled up to the width of the terminal.

A live definition is followed by those that it shadows, the latest first (`recordRows`). Where these
are not shown, the last line says of how many names there are any.
-/

namespace ShellCatalog.Listing

/-- Where the listing is shown. -/
structure Terminal where
  width : Nat
  /-- Colours are shown unless the settings switch them off. -/
  colors : Bool
  deriving DecidableEq, Repr

/-- The terminal of a given width; no width at all is taken for eighty columns. -/
def Terminal.ofWidth (width : Nat) (colors : Bool) : Terminal :=
  ⟨if width = 0 then 80 else width, colors⟩

/-- What is shown of a scan. -/
structure View where
  records : List Record
  filesRead : Nat
  /-- The number of names that were defined more than once, in the whole inventory. -/
  redefined : Nat
  /-- Shadowed definitions are shown. -/
  showShadowed : Bool
  /-- The largest width of the body column; zero sets no limit. -/
  maxBodyWidth : Nat
  deriving DecidableEq, Repr

/-- The widths of the columns. -/
structure Columns where
  kind : Nat
  name : Nat
  location : Nat
  body : Nat
  deriving DecidableEq, Repr

/-- A number brought between two limits. -/
def clamp (low high n : Nat) : Nat :=
  max low (min high n)

/-- The widths of the columns for a terminal and a largest body width. Seven characters go to the
frame and to the gaps between columns. -/
def columns (width maxBody : Nat) : Columns :=
  let available := width - (7 + 5)
  let name := clamp 8 24 (available * 20 / 100)
  let location := clamp 12 40 (available * 30 / 100)
  let body := max 10 (available - (name + location))
  ⟨5, name, location, if maxBody = 0 then body else min body maxBody⟩

/-- The width between the blanks inside the frame. -/
def Columns.inner (c : Columns) : Nat :=
  c.kind + 1 + c.name + 1 + c.location + 1 + c.body

/-- A path below the home directory, with a tilde for that directory. -/
def shownPath (home path : Path) : List Char :=
  match path.below? home with
  | some rest => '~' :: '/' :: rest
  | none => path.text.toList

/-- The place of a definition: its file and its line. -/
def location (home : Path) (d : Definition) : List Char :=
  shownPath home d.file ++ ':' :: (toString d.line).toList

/-- A cell: a text cut to the width of its column, in a style. -/
def cell (colors : Bool) (style : Style) (width : Nat) (text : List Char) : List Char :=
  style.paint colors (cutTo width text) width

/-- A row of the table from its four cells. -/
def row (kind name location body : List Char) : List Char :=
  ['│', ' '] ++ kind ++ [' '] ++ name ++ [' '] ++ location ++ [' '] ++ body ++ [' ', '│']

/-- A horizontal line. -/
def rule (colors : Bool) (width : Nat) : List Char :=
  Style.dimmed.paint colors (List.replicate width '─')

/-- The style in which the kind of a live definition is shown. -/
def kindStyle : Kind → Style
  | .alias => .boldColored .green
  | .function => .boldColored .blue

/-- The row of the column headings. -/
def headingRow (colors : Bool) (c : Columns) : List Char :=
  let heading (width : Nat) (text : String) :=
    (Style.boldColored .cyan).paint colors text.toList width
  row (heading c.kind "TYPE") (heading c.name "NAME") (heading c.location "LOCATION")
    (heading c.body "BODY")

/-- The line under the headings. -/
def ruleRow (colors : Bool) (c : Columns) : List Char :=
  ['│', ' '] ++ rule colors c.inner ++ [' ', '│']

/-- The lower edge of the frame. -/
def bottomRow (colors : Bool) (c : Columns) : List Char :=
  ['└'] ++ rule colors (c.inner + 2) ++ ['┘']

/-- The row of a live definition. -/
def liveRow (home : Path) (colors : Bool) (c : Columns) (d : Definition) : List Char :=
  row ((kindStyle d.kind).paint colors d.kind.label.toList c.kind)
    (cell colors (.colored .white) c.name d.name.toList)
    (cell colors .dimmed c.location (location home d))
    (cell colors .plain c.body (onOneLine d.body.toList))

/-- The row of a shadowed definition, with a mark in place of its name. -/
def shadowedRow (home : Path) (colors : Bool) (c : Columns) (d : Definition) : List Char :=
  row (Style.dimmed.paint colors d.kind.label.toList c.kind)
    (cell colors (.colored .yellow) c.name "↳ shadowed".toList)
    (cell colors .dimmed c.location (location home d))
    (cell colors .dimmed c.body (onOneLine d.body.toList))

/-- The rows of a name: its live definition, then the shadowed ones, latest first. -/
def recordRows (home : Path) (colors : Bool) (c : Columns) (r : Record) : List (List Char) :=
  liveRow home colors c r.toDefinition :: r.shadows.reverse.map (shadowedRow home colors c)

/-- The line above the frame, filled up to the width of the terminal. -/
def titleLine (t : Terminal) (v : View) : List Char :=
  let title := toString v.records.length ++ " definitions from " ++ toString v.filesRead ++ " files"
  ['┌', '─', ' '] ++ Style.bold.paint t.colors title.toList ++ [' '] ++
    rule t.colors (t.width - (title.length + 4))

/-- The line that tells of shadowed definitions which are not shown. -/
def hintLine (t : Terminal) (v : View) : List Char :=
  Style.dimmed.paint t.colors
    (toString v.redefined ++
      " names defined more than once; use --shadowed to see overrides").toList

/-- The lines of the table. -/
def tableLines (home : Path) (t : Terminal) (v : View) : List (List Char) :=
  if v.records.isEmpty then [Style.dimmed.paint t.colors "No definitions found".toList]
  else
    let c := columns t.width v.maxBodyWidth
    [titleLine t v, headingRow t.colors c, ruleRow t.colors c] ++
      v.records.flatMap (recordRows home t.colors c) ++
      [bottomRow t.colors c] ++
      if 0 < v.redefined ∧ ¬ v.showShadowed then [hintLine t v] else []

end ShellCatalog.Listing
