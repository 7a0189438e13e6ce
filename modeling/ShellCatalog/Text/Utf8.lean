/-!
# Reading bytes as text

Bytes that are not UTF-8 are no reason to refuse a file. A sequence that breaks off, together with
the bytes that could still have been continued, is read as one replacement character; a byte that
cannot begin a sequence is one as well.

`readChar` reads one character or one ill-formed part. The first byte says how many bytes follow and
in which range the second one lies (`continuation?`). The range excludes overlong forms, surrogates
and code points beyond the last, so what is read is always a character.

Every part takes at least its first byte (`length_readChar_le`), so reading ends (`readChars`). A
source file is read with replacement characters (`decodeBytes`), a settings file only if every part
is well formed (`decodeBytes?`).
-/

namespace ShellCatalog

/-- The bytes of a text in UTF-8. -/
def utf8Bytes (text : List Char) : List UInt8 :=
  text.flatMap String.utf8EncodeChar

/-- Stands for bytes that are no character. -/
def replacementChar : Char := '\ufffd'

/-- How a sequence goes on behind its first byte: the range of the second byte, and how many
continuation bytes follow that. -/
structure Continuation where
  low : UInt8
  high : UInt8
  more : Nat
  deriving DecidableEq, Repr

/-- The sequences that a first byte of at least 128 can begin. Overlong forms, surrogates and code
points beyond the last are excluded by the range of the second byte. -/
def continuation? (b : UInt8) : Option Continuation :=
  if b < 0xC2 then none
  else if b ≤ 0xDF then some ⟨0x80, 0xBF, 0⟩
  else if b = 0xE0 then some ⟨0xA0, 0xBF, 1⟩
  else if b = 0xED then some ⟨0x80, 0x9F, 1⟩
  else if b ≤ 0xEF then some ⟨0x80, 0xBF, 1⟩
  else if b = 0xF0 then some ⟨0x90, 0xBF, 2⟩
  else if b ≤ 0xF3 then some ⟨0x80, 0xBF, 2⟩
  else if b = 0xF4 then some ⟨0x80, 0x8F, 2⟩
  else none

/-- A byte that can only continue a sequence. -/
def isContinuation (b : UInt8) : Bool :=
  0x80 ≤ b && b ≤ 0xBF

/-- The payload bits of a first byte that announces `n` continuation bytes. -/
def leadBits (b : UInt8) (n : Nat) : Nat :=
  b.toNat % Nat.pow 2 (6 - n)

/-- Reads up to `n` continuation bytes onto the payload `acc`: the character, or nothing when the
sequence breaks off, and the bytes behind what was read. -/
def readContinuation (acc : Nat) : Nat → List UInt8 → Option Char × List UInt8
  | 0, bytes => (some (Char.ofNat acc), bytes)
  | _ + 1, [] => (none, [])
  | n + 1, b :: bytes =>
    if isContinuation b then readContinuation (acc * 64 + b.toNat % 64) n bytes
    else (none, b :: bytes)

/-- Reads one character or one ill-formed part, and the bytes behind it. -/
def readChar (b : UInt8) (bytes : List UInt8) : Option Char × List UInt8 :=
  if b < 0x80 then (some (Char.ofNat b.toNat), bytes)
  else
    match continuation? b, bytes with
    | none, bytes => (none, bytes)
    | some _, [] => (none, [])
    | some c, d :: bytes =>
      if c.low ≤ d && d ≤ c.high then
        readContinuation (leadBits b (c.more + 1) * 64 + d.toNat % 64) c.more bytes
      else (none, d :: bytes)

theorem length_readContinuation_le (acc n : Nat) (bytes : List UInt8) :
    (readContinuation acc n bytes).2.length ≤ bytes.length := by
  induction n generalizing acc bytes with
  | zero => simp [readContinuation]
  | succ n ih =>
    cases bytes with
    | nil => simp [readContinuation]
    | cons b bytes =>
      rw [readContinuation]
      split
      · exact Nat.le_succ_of_le (ih _ _)
      · simp

theorem length_readChar_le (b : UInt8) (bytes : List UInt8) :
    (readChar b bytes).2.length ≤ bytes.length := by
  unfold readChar
  split
  · simp
  · split
    · simp
    · simp
    · split
      · exact Nat.le_succ_of_le (length_readContinuation_le _ _ _)
      · simp

/-- The characters that bytes stand for, with nothing in place of an ill-formed part. -/
def readChars : List UInt8 → List (Option Char)
  | [] => []
  | b :: bytes => (readChar b bytes).1 :: readChars (readChar b bytes).2
termination_by bytes => bytes.length
decreasing_by exact Nat.lt_succ_of_le (length_readChar_le b bytes)

/-- The text that bytes stand for. -/
def decodeBytes (bytes : List UInt8) : List Char :=
  (readChars bytes).map (·.getD replacementChar)

/-- The text that bytes stand for, if every part is well formed. -/
def decodeBytes? (bytes : List UInt8) : Option (List Char) :=
  (readChars bytes).mapM id

end ShellCatalog
