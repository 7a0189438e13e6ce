/-!
# Values of a settings file

A settings file is a table of named values. Tables come about in four ways, and the way decides what
may still be added: a table that was only passed through on the way to another can be given a header
of its own, one that dotted keys made can be extended by dotted keys, and all others are finished
when they are written.
-/

namespace ShellCatalog.Toml

/-- How a table came about. -/
inductive Origin
  /-- On the way to a table with a header. -/
  | implied
  /-- By a dotted key. -/
  | dotted
  /-- By a header of its own. -/
  | header
  /-- Between braces. -/
  | inline
  deriving DecidableEq, Repr

/-- The name of a value in a table. -/
abbrev Key :=
  List Char

/-- A value. Of a float and of a moment in time it is not kept which one it is. -/
inductive Value
  | string (text : List Char)
  | integer (n : Int)
  | float
  | boolean (b : Bool)
  | moment
  | array (vs : List Value)
  | table (origin : Origin) (entries : List (Key × Value))
  /-- Tables under one repeated header. -/
  | tables (ts : List (List (Key × Value)))

/-- The named values of a table. -/
abbrev Table :=
  List (Key × Value)

namespace Table

/-- The value of a key. -/
def get? (t : Table) (k : Key) : Option Value :=
  (t.find? fun entry ↦ entry.1 == k).map Prod.snd

/-- Gives a key a value, in the place of the value that it has. -/
def set (k : Key) (v : Value) : Table → Table
  | [] => [(k, v)]
  | entry :: rest => if entry.1 = k then (k, v) :: rest else entry :: set k v rest

/-- Gives a new key a value; a key that has one is refused. -/
def add? (t : Table) (k : Key) (v : Value) : Option Table :=
  if (t.get? k).isSome then none else some (t.set k v)

/-- Changes the table at the end of a path of headers. Tables that do not exist yet are implied; of
repeated tables the last is meant. -/
def updateAt? (f : Table → Option Table) : List Key → Table → Option Table
  | [], t => f t
  | k :: path, t =>
    match t.get? k with
    | none => (updateAt? f path []).map fun sub ↦ t.set k (.table .implied sub)
    | some (.table .inline _) => none
    | some (.table origin sub) =>
      (updateAt? f path sub).map fun sub ↦ t.set k (.table origin sub)
    | some (.tables ts) =>
      (updateAt? f path (ts.getLast?.getD [])).map fun sub ↦
        t.set k (.tables (ts.dropLast ++ [sub]))
    | some _ => none

/-- Gives a dotted key a value. The table that holds the last part must have been made by a dotted
key, and those on the way to it must be implied or made by one. Repeated tables may be passed
through as well; of them the last is meant. -/
def addDotted? (v : Value) : List Key → Table → Option Table
  | [], _ => none
  | [k], t => t.add? k v
  | k :: path, t =>
    match t.get? k with
    | none => (addDotted? v path []).map fun sub ↦ t.set k (.table .dotted sub)
    | some (.table .dotted sub) =>
      (addDotted? v path sub).map fun sub ↦ t.set k (.table .dotted sub)
    | some (.table .implied sub) =>
      if path.length = 1 then none
      else (addDotted? v path sub).map fun sub ↦ t.set k (.table .implied sub)
    | some (.tables ts) =>
      if path.length = 1 then none
      else
        (addDotted? v path (ts.getLast?.getD [])).map fun sub ↦
          t.set k (.tables (ts.dropLast ++ [sub]))
    | some _ => none

/-- Opens the table of a header. A table can be opened once. -/
def open? (k : Key) (t : Table) : Option Table :=
  match t.get? k with
  | none => some (t.set k (.table .header []))
  | some (.table .implied sub) => some (t.set k (.table .header sub))
  | some _ => none

/-- Opens a further table of a repeated header. -/
def openNext? (k : Key) (t : Table) : Option Table :=
  match t.get? k with
  | none => some (t.set k (.tables [[]]))
  | some (.tables ts) => some (t.set k (.tables (ts ++ [[]])))
  | some _ => none

end Table

end ShellCatalog.Toml
