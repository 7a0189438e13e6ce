import ShellCatalog.Toml.Moment
import ShellCatalog.Toml.Number
import ShellCatalog.Toml.Value

/-!
# Reading a settings file

Settings are written in TOML: tables with headers, plain and dotted keys, strings, numbers,
booleans, dates and times, arrays, tables between braces, and comments.

Readers take a text and answer what they read and the text behind it. Keys and values are limited in
depth. Values have parts side by side as well, so the reader of values also carries a bound on the
number of calls; `readDocument?` gives it more than the text has characters, and every call takes
one.
-/

namespace ShellCatalog.Toml

/-! ### Keys -/

/-- A character of a key without quotes. -/
def isBareKeyChar (c : Char) : Bool :=
  c.isAlphanum || c == '_' || c == '-'

/-- Reads one part of a key, with quotes or without. -/
def readKeyPart? : List Char → Option (Key × List Char)
  | '"' :: rest => readBasic? rest
  | '\'' :: rest => readLiteral? rest
  | text =>
    match cutWhile isBareKeyChar text with
    | ([], _) => none
    | (key, rest) => some (key, rest)

/-- How many parts a key can have, and how many arrays and tables between braces can be open around
a value. -/
def depthLimit : Nat :=
  79

/-- Reads a key of at most `room` parts with dots between them, and the blanks behind it. -/
def readKeyParts? : Nat → List Char → Option (List Key × List Char)
  | 0, _ => none
  | room + 1, text => do
    let (key, rest) ← readKeyPart? (skipBlanks text)
    match skipBlanks rest with
    | '.' :: rest => do
      let (keys, rest) ← readKeyParts? room rest
      some (key :: keys, rest)
    | rest => some ([key], rest)

/-- Reads a key and the blanks behind it. -/
def readKey? (text : List Char) : Option (List Key × List Char) :=
  readKeyParts? depthLimit text

/-! ### Values -/

/-- A character of a boolean or a number. -/
def isScalarChar (c : Char) : Bool :=
  c.isAlphanum || c ∈ ['+', '-', '.', '_']

/-- The boolean or the number that a word writes. -/
def scalar? (word : List Char) : Option Value :=
  if word = "true".toList then some (.boolean true)
  else if word = "false".toList then some (.boolean false)
  else
    match integer? word with
    | some n => some (.integer n)
    | none => if isFloat word then some .float else none

/-- Reads a moment, a boolean or a number. -/
def readScalar? (text : List Char) : Option (Value × List Char) :=
  match skipMoment? text with
  | some rest => some (.moment, rest)
  | none =>
    let (word, rest) := cutWhile isScalarChar text
    (scalar? word).map fun v ↦ (v, rest)

mutual

/-- Reads a value around which `room` more arrays and tables can be open. -/
def readValue? : Nat → Nat → List Char → Option (Value × List Char)
  | 0, _, _ => none
  | bound + 1, room, text =>
    match text, room with
    | '"' :: _, _ => (readString? text).map fun r ↦ (.string r.1, r.2)
    | '\'' :: _, _ => (readString? text).map fun r ↦ (.string r.1, r.2)
    | '[' :: _, 0 => none
    | '{' :: _, 0 => none
    | '[' :: rest, room + 1 =>
      (readElements? bound room (skipGaps bound rest)).map fun r ↦ (.array r.1, r.2)
    | '{' :: rest, room + 1 =>
      match skipBlanks rest with
      | '}' :: rest => some (.table .inline [], rest)
      | rest => (readFields? bound room [] rest).map fun r ↦ (.table .inline r.1, r.2)
    | text, _ => readScalar? text

/-- Reads the elements of an array up to its closing bracket, in front of which a comma may
stand. -/
def readElements? : Nat → Nat → List Char → Option (List Value × List Char)
  | 0, _, _ => none
  | bound + 1, room, text =>
    match text with
    | ']' :: rest => some ([], rest)
    | text => do
      let (v, rest) ← readValue? bound room text
      match skipGaps bound rest with
      | ',' :: rest => do
        let (vs, rest) ← readElements? bound room (skipGaps bound rest)
        some (v :: vs, rest)
      | ']' :: rest => some ([v], rest)
      | _ => none

/-- Reads the entries of a table between braces, onto those read so far. -/
def readFields? : Nat → Nat → Table → List Char → Option (Table × List Char)
  | 0, _, _, _ => none
  | bound + 1, room, t, text => do
    let (key, rest) ← readKey? text
    let '=' :: rest := rest | none
    let (v, rest) ← readValue? bound room (skipBlanks rest)
    let t ← t.addDotted? v key
    match skipBlanks rest with
    | ',' :: rest => readFields? bound room t rest
    | '}' :: rest => some (t, rest)
    | _ => none

end

/-! ### Documents -/

/-- What a line of a document says. -/
inductive Line
  | entry (key : List Key) (v : Value)
  | header (path : List Key)
  | repeatedHeader (path : List Key)

/-- Reads a line that is neither blank nor a comment, up to the rest of the line. -/
def readLine? (bound : Nat) : List Char → Option (Line × List Char)
  | '[' :: '[' :: rest => do
    let (path, rest) ← readKey? rest
    let ']' :: ']' :: rest := rest | none
    some (.repeatedHeader path, rest)
  | '[' :: rest => do
    let (path, rest) ← readKey? rest
    let ']' :: rest := rest | none
    some (.header path, rest)
  | text => do
    let (key, rest) ← readKey? text
    let '=' :: rest := rest | none
    let (v, rest) ← readValue? bound depthLimit (skipBlanks rest)
    some (.entry key v, rest)

/-- Reads at most `bound` lines, passing over blank lines and comments. -/
def readLines? : Nat → List Char → Option (List Line)
  | 0, _ => none
  | bound + 1, text =>
    match skipGaps bound text with
    | [] => some []
    | text => do
      let (line, rest) ← readLine? bound text
      let rest ← endOfLine? rest
      let lines ← readLines? bound rest
      some (line :: lines)

/-- A document that has been read so far, and the path of the table that entries belong to. -/
structure Draft where
  root : Table
  current : List Key

/-- Adds what a line says. -/
def Draft.add? (d : Draft) : Line → Option Draft
  | .entry key v =>
    (d.root.updateAt? (fun t ↦ t.addDotted? v key) d.current).map fun root ↦ { d with root := root }
  | .header path =>
    path.getLast?.bind fun k ↦
      (d.root.updateAt? (Table.open? k) path.dropLast).map fun root ↦ ⟨root, path⟩
  | .repeatedHeader path =>
    path.getLast?.bind fun k ↦
      (d.root.updateAt? (Table.openNext? k) path.dropLast).map fun root ↦ ⟨root, path⟩

/-- Reads a document. -/
def readDocument? (text : List Char) : Option Table := do
  let text := match text with
    | '\ufeff' :: rest => rest
    | text => text
  let lines ← readLines? (text.length + 2) text
  let draft ← lines.foldlM Draft.add? ⟨[], []⟩
  some draft.root

end ShellCatalog.Toml
