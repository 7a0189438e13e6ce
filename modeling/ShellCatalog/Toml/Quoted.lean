import ShellCatalog.Text.Split
import ShellCatalog.Toml.Layout

/-!
# Strings of a settings file

A string stands between double quotes, where a backslash escapes, or between single quotes, where
nothing does. One quote at either end keeps it on a line; three let it run over several. A string
over several lines begins behind the newline that follows its opening quotes, every newline in it
counts as a bare one, and up to two quotes may stand directly in front of the three that close it.
Between double quotes, a backslash at the end of a line takes away the newline and all that is blank
behind it.
-/

namespace ShellCatalog.Toml

/-! ### Escapes -/

/-- The value of a hexadecimal digit. -/
def hexValue? (c : Char) : Option Nat :=
  if c.isDigit then some (c.toNat - 48)
  else if 'a' ≤ c ∧ c ≤ 'f' then some (c.toNat - 87)
  else if 'A' ≤ c ∧ c ≤ 'F' then some (c.toNat - 55)
  else none

/-- The character of a code point in hexadecimal. -/
def hexChar? (digits : List Char) : Option Char := do
  let values ← digits.mapM hexValue?
  let n := values.foldl (fun acc d ↦ acc * 16 + d) 0
  if n.isValidChar then some (Char.ofNat n) else none

/-- The character that a letter behind a backslash stands for. -/
def escapeChar? (c : Char) : Option Char :=
  if c = 'b' then some '\x08'
  else if c = 't' then some '\t'
  else if c = 'n' then some '\n'
  else if c = 'f' then some '\x0c'
  else if c = 'r' then some '\r'
  else if c = '"' ∨ c = '\\' then some c
  else none

/-- Reads a code point of `width` hexadecimal digits. -/
def readCodePoint? (width : Nat) (text : List Char) : Option (Char × List Char) :=
  if width ≤ text.length then (hexChar? (text.take width)).map fun c ↦ (c, text.drop width)
  else none

/-- Reads what stands behind a backslash. -/
def readEscape? : List Char → Option (Char × List Char)
  | [] => none
  | 'u' :: rest => readCodePoint? 4 rest
  | 'U' :: rest => readCodePoint? 8 rest
  | c :: rest => (escapeChar? c).map fun e ↦ (e, rest)

theorem length_of_readCodePoint? {width : Nat} {text rest : List Char} {c : Char}
    (h : readCodePoint? width text = some (c, rest)) : rest.length ≤ text.length := by
  unfold readCodePoint? at h
  split at h
  · obtain ⟨_, _, heq⟩ := Option.map_eq_some_iff.1 h
    cases heq
    simp
  · simp at h

/-- An escape has at least one character. -/
theorem length_of_readEscape? {text rest : List Char} {c : Char}
    (h : readEscape? text = some (c, rest)) : rest.length < text.length := by
  unfold readEscape? at h
  split at h
  · simp at h
  · exact Nat.lt_succ_of_le (length_of_readCodePoint? h)
  · exact Nat.lt_succ_of_le (length_of_readCodePoint? h)
  · obtain ⟨_, _, heq⟩ := Option.map_eq_some_iff.1 h
    cases heq
    exact Nat.lt_succ_self _

/-! ### On one line -/

/-- Reads a string up to its closing double quote. -/
def readBasic? : List Char → Option (List Char × List Char)
  | [] => none
  | '"' :: rest => some ([], rest)
  | '\\' :: escape =>
    match _h : readEscape? escape with
    | some (c, rest) => (readBasic? rest).map fun r ↦ (c :: r.1, r.2)
    | none => none
  | c :: rest => if isTextChar c then (readBasic? rest).map fun r ↦ (c :: r.1, r.2) else none
termination_by text => text.length
decreasing_by
  · have := length_of_readEscape? _h
    simp only [List.length_cons]
    omega
  · simp

/-- Reads a string up to its closing single quote; nothing in it is escaped. -/
def readLiteral? (text : List Char) : Option (List Char × List Char) :=
  match cutWhile (fun c ↦ isTextChar c && c != '\'') text with
  | (inner, '\'' :: rest) => some (inner, rest)
  | _ => none

/-! ### Over several lines -/

/-- Reads the quotes that close a string over several lines: three, and up to two in front of them
that belong to the string. -/
def readClosing? (quote : Char) (text : List Char) : Option (List Char × List Char) :=
  (after? [quote, quote, quote] text).map fun rest ↦
    let inner := (rest.takeWhile (· == quote)).take 2
    (inner, rest.drop inner.length)

/-- Reads a string over several lines up to its closing double quotes. -/
def readBasicLines? : List Char → Option (List Char × List Char)
  | [] => none
  | '\\' :: escape =>
    match _hfold : foldedLine? escape with
    | some rest => readBasicLines? rest
    | none =>
      match _h : readEscape? escape with
      | some (c, rest) => (readBasicLines? rest).map fun r ↦ (c :: r.1, r.2)
      | none => none
  | '\r' :: rest => if rest.head? = some '\n' then readBasicLines? rest else none
  | c :: rest =>
    (if c = '"' then readClosing? '"' (c :: rest) else none).or <|
      if isTextChar c || c == '\n' then (readBasicLines? rest).map fun r ↦ (c :: r.1, r.2)
      else none
termination_by text => text.length
decreasing_by
  · have := length_of_foldedLine? _hfold
    simp only [List.length_cons]
    omega
  · have := length_of_readEscape? _h
    simp only [List.length_cons]
    omega
  · simp
  · simp

/-- Reads a string over several lines up to its closing single quotes. -/
def readLiteralLines? : List Char → Option (List Char × List Char)
  | [] => none
  | c :: rest =>
    (if c = '\'' then readClosing? '\'' (c :: rest) else none).or <|
      if isTextChar c || c == '\n' then (readLiteralLines? rest).map fun r ↦ (c :: r.1, r.2)
      else if c = '\r' ∧ rest.head? = some '\n' then readLiteralLines? rest
      else none

/-- Reads a string of any form, from its opening quotes on. -/
def readString? : List Char → Option (List Char × List Char)
  | '"' :: '"' :: '"' :: rest => readBasicLines? ((newline? rest).getD rest)
  | '"' :: rest => readBasic? rest
  | '\'' :: '\'' :: '\'' :: rest => readLiteralLines? ((newline? rest).getD rest)
  | '\'' :: rest => readLiteral? rest
  | _ => none

end ShellCatalog.Toml
