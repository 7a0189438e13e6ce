/-!
# Fitting text into a cell

A cell is one line of a fixed number of characters. Newlines are spelled out (`onOneLine`), text
that is too long is cut (`cutTo`), text that is too short is padded (`pad`).

Cutting leaves at most the width (`length_cutTo_le`). Padding leaves at least the width and cuts
nothing (`length_pad_eq_max`), so only a text that was cut before fills its cell exactly
(`length_pad`). The width is counted in characters, whatever space a character takes on the screen.
-/

namespace ShellCatalog.Listing

/-- A body on one line: a newline at its end is dropped and every other is spelled as a backslash
and an `n`. -/
def onOneLine (body : List Char) : List Char :=
  let text := if body.getLast? = some '\n' then body.dropLast else body
  text.flatMap fun c ↦ if c = '\n' then ['\\', 'n'] else [c]

/-- A text cut to `width` characters. Where more than three fit, the last three are dots. -/
def cutTo (width : Nat) (text : List Char) : List Char :=
  if text.length ≤ width then text
  else if width ≤ 3 then text.take width
  else text.take (width - 3) ++ ['.', '.', '.']

/-- A text followed by blanks up to `width` characters. -/
def pad (width : Nat) (text : List Char) : List Char :=
  text ++ List.replicate (width - text.length) ' '

theorem length_cutTo_le (width : Nat) (text : List Char) :
    (cutTo width text).length ≤ width := by
  unfold cutTo
  split
  · assumption
  · split
    · exact List.length_take_le _ _
    · simp only [List.length_append, List.length_take, List.length_cons, List.length_nil]
      omega

/-- Padding makes a text no shorter. -/
theorem length_pad_eq_max (width : Nat) (text : List Char) :
    (pad width text).length = max width text.length := by
  simp only [pad, List.length_append, List.length_replicate]
  omega

/-- A text that is not too long is padded to the width exactly. -/
theorem length_pad {width : Nat} {text : List Char} (h : text.length ≤ width) :
    (pad width text).length = width := by
  rw [length_pad_eq_max, Nat.max_eq_left h]

end ShellCatalog.Listing
