/-!
# How far a text reaches

A text is measured twice: in bytes of its UTF-8 form, which is what offsets count, and in physical
lines. Both measures add up over concatenation (`byteLength_append`, `lineAfter_append`), so an
offset or a line number inside a text is the measure of what stands before it.

A line is left by its newline and by nothing else. So a text without one stays on its line
(`lineAfter_of_not_mem`), and what is left out of a text never takes its end to a later line
(`lineAfter_mono`).
-/

namespace ShellCatalog

/-- The number of bytes of the text in UTF-8. -/
def byteLength : List Char → Nat
  | [] => 0
  | c :: text => c.utf8Size + byteLength text

/-- The physical line on which a text ends that starts on `line`. -/
def lineAfter (line : Nat) (text : List Char) : Nat :=
  line + text.count '\n'

@[simp] theorem byteLength_nil : byteLength [] = 0 := rfl

@[simp] theorem byteLength_cons (c : Char) (text : List Char) :
    byteLength (c :: text) = c.utf8Size + byteLength text := rfl

@[simp] theorem byteLength_append (s t : List Char) :
    byteLength (s ++ t) = byteLength s + byteLength t := by
  induction s with
  | nil => simp
  | cons c s ih => simp [ih, Nat.add_assoc]

@[simp] theorem lineAfter_nil (line : Nat) : lineAfter line [] = line := rfl

theorem lineAfter_cons (line : Nat) (c : Char) (text : List Char) :
    lineAfter line (c :: text) = lineAfter (if c = '\n' then line + 1 else line) text := by
  split
  · next h =>
    simp only [h, lineAfter, List.count_cons_self]
    omega
  · next h => simp only [lineAfter, List.count_cons_of_ne h]

/-- A text without a line end stays on its line. -/
theorem lineAfter_of_not_mem {text : List Char} (line : Nat) (single : '\n' ∉ text) :
    lineAfter line text = line := by
  rw [lineAfter, List.count_eq_zero_of_not_mem single, Nat.add_zero]

theorem lineAfter_append (line : Nat) (s t : List Char) :
    lineAfter line (s ++ t) = lineAfter (lineAfter line s) t := by
  simp [lineAfter, Nat.add_assoc]

theorem lineAfter_mono {line : Nat} {text more : List Char} (h : text.Sublist more) :
    lineAfter line text ≤ lineAfter line more :=
  Nat.add_le_add_left (h.count_le '\n') line

end ShellCatalog
