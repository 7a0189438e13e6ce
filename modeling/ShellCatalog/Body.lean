import ShellCatalog.Mark
import ShellCatalog.Text.Split

/-!
# Function bodies

A body is what stands between an opening bracket and the character after which no group is open any
more. `Body.ofText` tells three cases apart, since a header means something else in front of each.

* A **block** is closed within its text. It carries its inside, and the byte offset at which the
  inside begins: one byte behind the bracket's own, whatever blanks stand in front.
* **Nothing** but blanks: the body may still stand on the next line.
* **Something else**, and a block that is not closed is something else.

`Body.ofText_eq_block_iff` says in terms of marks what a block is. Everything that is proved about
blocks starts there.

## Dedenting

A body is reported **dedented** (`Body.dedent`). A body on one line is trimmed. From one on several
lines the indentation goes that all its visible lines share, as do blanks at line ends, and every
line ends with a newline. The remainders of the two lines that hold the brackets are dropped where
they are blank, one at each end and no more, so further blank lines belong to the body. Indentation
is compared character by character: a tab is never taken for spaces.
-/

namespace ShellCatalog

/-- What stands where a body is expected. -/
inductive Body
  /-- A block: the text between its brackets, and the byte offset at which this text begins. -/
  | block (inner : List Char) (innerOffset : Nat)
  /-- Nothing but blanks. -/
  | absent
  /-- No block, or one that is not closed. -/
  | other
  deriving DecidableEq, Repr

/-- A body may begin with this character. -/
def Profile.beginsBody (p : Profile) (c : Char) : Bool :=
  c == '{' || p.subshellBodies && c == '('

/-- The body at the start of a text. -/
def Body.ofText (p : Profile) (text : List Char) : Body :=
  match trimStart text with
  | [] => .absent
  | c :: rest =>
    if p.beginsBody c then
      -- The opening bracket itself is left out; the inside runs to the bracket that closes it.
      match cutWhile (fun m ↦ m.depth != 0) (marks p (c :: rest)).tail with
      | (_, []) => .other
      | (inner, _ :: _) => .block (Mark.text inner) (byteLength (text.takeWhile isSpace) + 1)
    else .other

/-! ### Dedenting -/

/-- The longest text that begins both texts. -/
def sharedStart : List Char → List Char → List Char
  | c :: s, d :: t => if c = d then c :: sharedStart s t else []
  | _, _ => []

/-- The longest run of spaces and tabs that begins every visible line. -/
def sharedIndent (lines : List (List Char)) : List Char :=
  match (lines.filter fun line ↦ !isBlank line).map (·.takeWhile isIndent) with
  | [] => []
  | first :: others => others.foldl sharedStart first

/-- The lines without a blank first line and without a blank last line. -/
def dropBlankEnds (lines : List (List Char)) : List (List Char) :=
  let lines := if (lines.head?.map isBlank).getD false then lines.tail else lines
  if (lines.getLast?.map isBlank).getD false then lines.dropLast else lines

/-- A body as it is reported. On one line it is trimmed; on several it is dedented and every line
ends with a newline. -/
def Body.dedent (inner : List Char) : List Char :=
  if '\n' ∉ inner then trim inner
  else
    let lines := dropBlankEnds (splitOn '\n' inner)
    let indent := sharedIndent lines
    lines.flatMap fun line ↦
      (if isBlank line then [] else trimEnd (line.drop indent.length)) ++ ['\n']

/-! ### Where a block stands -/

/-- A block stands behind the blanks of its text. Its inside is what is read behind the opening
bracket up to the first mark at which no group is open. -/
theorem Body.ofText_eq_block_iff {p : Profile} {text inner : List Char} {innerOffset : Nat} :
    Body.ofText p text = .block inner innerOffset ↔
      innerOffset = byteLength (text.takeWhile isSpace) + 1 ∧ ∃ c rest, trimStart text = c :: rest ∧
        p.beginsBody c = true ∧ ∃ opening run closing others,
          marks p (c :: rest) = opening :: (run ++ closing :: others) ∧ Mark.text run = inner ∧
            (∀ m ∈ run, m.depth ≠ 0) ∧ closing.depth = 0 := by
  unfold ofText
  constructor
  · intro h
    split at h
    · simp at h
    next c rest htrim =>
    split at h
    · next hbegins =>
      split at h
      · simp at h
      · next run closing others hcut =>
        cases h
        obtain ⟨htail, hrun, hclosing⟩ := cutWhile_eq_iff.1 hcut
        obtain ⟨opening, hmarks⟩ : ∃ opening,
            marks p (c :: rest) = opening :: (marks p (c :: rest)).tail := ⟨_, rfl⟩
        refine ⟨rfl, c, rest, htrim, hbegins, opening, run, closing, others, ?_, rfl,
          fun m hm ↦ by simpa using hrun m hm, by simpa using hclosing closing rfl⟩
        rw [← htail]
        exact hmarks
    · simp at h
  · rintro ⟨rfl, c, rest, htrim, hbegins, opening, run, closing, others, hmarks, rfl, hrun,
      hclosing⟩
    have hcut : cutWhile (fun m ↦ m.depth != 0) (marks p (c :: rest)).tail =
        (run, closing :: others) := by
      rw [hmarks, List.tail_cons]
      exact cutWhile_append (fun m hm ↦ by simpa using hrun m hm) (by simp [hclosing])
    rw [htrim]
    dsimp only
    rw [if_pos hbegins, hcut]

/-- The inside of a block is shorter than the text. -/
theorem Body.length_inner_lt {p : Profile} {text inner : List Char} {innerOffset : Nat}
    (h : Body.ofText p text = .block inner innerOffset) : inner.length < text.length := by
  obtain ⟨-, c, rest, htrim, -, opening, run, closing, others, hmarks, rfl, -, -⟩ :=
    ofText_eq_block_iff.1 h
  have hlength := congrArg List.length hmarks
  have htext : rest.length + 1 ≤ text.length := by
    rw [← List.length_cons, ← htrim]
    exact length_trimStart_le text
  rw [length_marks] at hlength
  simp only [List.length_cons, List.length_append] at hlength
  rw [Mark.text, List.length_map]
  omega

end ShellCatalog
