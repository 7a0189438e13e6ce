import ShellCatalog.Text.Split
import ShellCatalog.Toml.Quoted

/-!
# Numbers of a settings file

Digits may have single underscores between them, and a decimal number has no superfluous zero in
front. Integers have 64 bits. A float is a decimal number with a fraction, an exponent or both; one
above zero must not be so large that the nearest number of double precision is infinity, which
`Scientific.isInfinite` tells by exact arithmetic on the digits.
-/

namespace ShellCatalog.Toml

/-! ### Digits -/

/-- The number of digits of a base, with single underscores between digits. -/
def digits? (base : Nat) (text : List Char) : Option Nat :=
  go none false text
where
  /-- Continues with `acc` as the value so far and `gap` when an underscore came last. -/
  go (acc : Option Nat) (gap : Bool) : List Char → Option Nat
    | [] => if gap then none else acc
    | c :: rest =>
      if c = '_' then if acc.isNone || gap then none else go acc true rest
      else
        match hexValue? c with
        | some d => if d < base then go (some (acc.getD 0 * base + d)) false rest else none
        | none => none

/-- A decimal number without a superfluous zero in front. -/
def decimal? : List Char → Option Nat
  | ['0'] => some 0
  | '0' :: _ => none
  | text => digits? 10 text

/-- A text without its sign, and whether the sign is negative. -/
def splitSign : List Char → Bool × List Char
  | '-' :: rest => (true, rest)
  | '+' :: rest => (false, rest)
  | text => (false, text)

/-- A number with a sign. -/
def signed (negative : Bool) (n : Nat) : Int :=
  if negative then -(n : Int) else n

/-- An integer of 64 bits. -/
def integer? (text : List Char) : Option Int :=
  let n? : Option Int :=
    match text with
    | '0' :: 'x' :: rest => (digits? 16 rest).map Int.ofNat
    | '0' :: 'o' :: rest => (digits? 8 rest).map Int.ofNat
    | '0' :: 'b' :: rest => (digits? 2 rest).map Int.ofNat
    | _ =>
      let (negative, rest) := splitSign text
      (decimal? rest).map (signed negative)
  n?.filter fun n ↦ -0x8000000000000000 ≤ n && n < 0x8000000000000000

/-! ### Floats -/

/-- A decimal number that is not negative, as its digits and the power of ten they are counted
in. -/
structure Scientific where
  digits : Nat
  exponent : Int
  deriving DecidableEq, Repr

namespace Scientific

/-- The least number that rounds to infinity in double precision. It lies halfway between the
greatest finite number, with fifty-three bits that are all set, and the power of two above it. -/
def overflow : Nat :=
  (Nat.shiftLeft 1 54 - 1).shiftLeft 970

/-- The number of digits in front of the decimal point, when the number is not zero. -/
def order (s : Scientific) : Int :=
  (Nat.toDigits 10 s.digits).length + s.exponent

/-- The number rounds to infinity in double precision. The bound has 309 digits, so only a number of
that order has to be compared with it. -/
def isInfinite (s : Scientific) : Bool :=
  s.digits != 0 &&
    (309 < s.order || s.order == 309 &&
      overflow * Nat.pow 10 (-s.exponent).toNat ≤ s.digits * Nat.pow 10 s.exponent.toNat)

/-- The number that a text without sign writes with a fraction, an exponent or both. -/
def ofText? (text : List Char) : Option Scientific :=
  let (mantissa, exponent) := cutWhile (fun c ↦ c != 'e' && c != 'E') text
  let shift? :=
    match exponent with
    | [] => some 0
    | _ :: power =>
      let (negative, rest) := splitSign power
      (digits? 10 rest).map (signed negative)
  match splitAt? '.' mantissa with
  | some (whole, fraction) => do
    let places := fraction.countP Char.isDigit
    some ⟨(← decimal? whole) * Nat.pow 10 places + (← digits? 10 fraction), (← shift?) - places⟩
  | none => if exponent.isEmpty then none else do some ⟨← decimal? mantissa, ← shift?⟩

end Scientific

/-- The text is a float: a decimal number that is not too large, or one of the words for infinity
and for no number. -/
def isFloat (text : List Char) : Bool :=
  let (negative, body) := splitSign text
  body == "inf".toList || body == "nan".toList ||
    match Scientific.ofText? body with
    | some s => negative || !s.isInfinite
    | none => false

end ShellCatalog.Toml
