import ShellCatalog.Text.Split

/-!
# Dates and times of a settings file

A moment is a day, a time of day, or both with a `T` or one blank between them; a day with its time
may name its distance from universal time. Days are those of the Gregorian calendar, and a minute
may have a sixty-first second. No setting is a moment, so only the form is read.
-/

namespace ShellCatalog.Toml

/-- Reads a number of exactly `width` digits, at least `low` and at most `high`. -/
def readBetween? (width low high : Nat) (text : List Char) : Option (Nat × List Char) :=
  let digits := text.take width
  let n := digits.foldl (fun acc c ↦ acc * 10 + (c.toNat - 48)) 0
  if digits.length = width ∧ digits.all Char.isDigit ∧ low ≤ n ∧ n ≤ high then
    some (n, text.drop width)
  else none

/-- A year with a twenty-ninth of February. -/
def IsLeapYear (year : Nat) : Prop :=
  year % 4 = 0 ∧ (year % 100 ≠ 0 ∨ year % 400 = 0)

instance (year : Nat) : Decidable (IsLeapYear year) :=
  inferInstanceAs (Decidable (_ ∧ _))

/-- The last day of a month. -/
def lastDay (year month : Nat) : Nat :=
  if month = 2 then if IsLeapYear year then 29 else 28
  else if month ∈ [4, 6, 9, 11] then 30
  else 31

/-- The text behind a day: year, month and day of the month. -/
def skipDay? (text : List Char) : Option (List Char) := do
  let (year, rest) ← readBetween? 4 0 9999 text
  let (month, rest) ← readBetween? 2 1 12 (← after? ['-'] rest)
  let (_, rest) ← readBetween? 2 1 (lastDay year month) (← after? ['-'] rest)
  some rest

/-- The text behind an hour and a minute. -/
def skipMinute? (text : List Char) : Option (List Char) := do
  let (_, rest) ← readBetween? 2 0 23 text
  let (_, rest) ← readBetween? 2 0 59 (← after? [':'] rest)
  some rest

/-- The text behind a time of day, which may have a fraction of a second. -/
def skipTime? (text : List Char) : Option (List Char) := do
  let rest ← skipMinute? text
  let (_, rest) ← readBetween? 2 0 60 (← after? [':'] rest)
  match rest with
  | '.' :: fraction =>
    let (digits, behind) := cutWhile Char.isDigit fraction
    if digits.isEmpty then none else some behind
  | rest => some rest

/-- The text behind the distance from universal time, if one begins it. -/
def skipDistance : List Char → List Char
  | 'Z' :: rest => rest
  | 'z' :: rest => rest
  | '+' :: rest => (skipMinute? rest).getD ('+' :: rest)
  | '-' :: rest => (skipMinute? rest).getD ('-' :: rest)
  | text => text

/-- The text behind a moment. -/
def skipMoment? (text : List Char) : Option (List Char) :=
  match skipDay? text with
  | none => skipTime? text
  | some [] => some []
  | some (c :: rest) =>
    if c ∈ ['T', 't', ' '] then some (((skipTime? rest).map skipDistance).getD (c :: rest))
    else some (c :: rest)

end ShellCatalog.Toml
