import ShellCatalog.Inventory.Basic

/-!
# The structured listing

The definitions as a JSON text with one field a line, indented by two spaces for each level. Fields
stand in a fixed order, and the list of shadowed definitions is left out where it is empty.

Names, bodies and paths are put between quotes (`quote`), where quotes, backslashes and control
characters are escaped and all others stand for themselves. Objects and lists are laid out by one
function (`bracketed`), which writes an empty one on one line. A record is the object of its
definition with the list of shadowed definitions as its last field (`recordJson`).
-/

namespace ShellCatalog.Listing

/-- A hexadecimal digit. -/
def hexDigit (n : Nat) : Char :=
  if n < 10 then Char.ofNat (48 + n) else Char.ofNat (87 + n)

/-- A character between quotes. Quotes, backslashes and control characters are escaped. -/
def quoteChar (c : Char) : List Char :=
  if c = '"' ∨ c = '\\' then ['\\', c]
  else if c = '\n' then ['\\', 'n']
  else if c = '\r' then ['\\', 'r']
  else if c = '\t' then ['\\', 't']
  else if c = '\x08' then ['\\', 'b']
  else if c = '\x0c' then ['\\', 'f']
  else if c.toNat < 0x20 then
    ['\\', 'u', '0', '0', hexDigit (c.toNat / 16), hexDigit (c.toNat % 16)]
  else [c]

/-- A text between quotes. -/
def quote (text : String) : List Char :=
  ['"'] ++ text.toList.flatMap quoteChar ++ ['"']

/-- Items between brackets, one a line, where the brackets stand at `indent` spaces. -/
def bracketed (opener closer : Char) (indent : Nat) (items : List (List Char)) : List Char :=
  if items.isEmpty then [opener, closer]
  else
    let lineStart (n : Nat) := '\n' :: List.replicate n ' '
    [opener] ++ List.intercalate [','] (items.map (lineStart (indent + 2) ++ ·)) ++
      lineStart indent ++ [closer]

/-- A field of an object. -/
def field (name : String) (value : List Char) : List Char :=
  quote name ++ [':', ' '] ++ value

/-- The fields of a definition. -/
def definitionFields (d : Definition) : List (List Char) :=
  [field "name" (quote d.name), field "kind" (quote d.kind.fullName), field "body" (quote d.body),
    field "file" (quote d.file.text), field "line" (toString d.line).toList]

/-- A live definition with the ones that it shadows. -/
def recordJson (r : Record) : List Char :=
  let shadows :=
    if r.shadows.isEmpty then []
    else
      [field "shadows" (bracketed '[' ']' 4
        (r.shadows.map fun d ↦ bracketed '{' '}' 6 (definitionFields d)))]
  bracketed '{' '}' 2 (definitionFields r.toDefinition ++ shadows)

/-- The listing of some records. -/
def json (records : List Record) : List Char :=
  bracketed '[' ']' 0 (records.map recordJson)

end ShellCatalog.Listing
