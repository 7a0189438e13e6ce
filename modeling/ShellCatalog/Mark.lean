import ShellCatalog.Nesting.Unclosed
import ShellCatalog.Text.Extent

/-!
# A text with every character marked

`marks` reads a text from a state and lists, for every character, its byte offset, its class and the
states around it. Lines, statements and words are all cut out of this list by one operation,
`pieces`: the runs between the marks that separate.

**Reading is compositional** (`marksFrom_append`): the marks of a text in two parts are those of the
first part, read with the second in sight, and then those of the second, read from the state that
the first leaves.
-/

namespace ShellCatalog

/-- One character of a text that has been read. -/
structure Mark where
  /-- The byte offset of the character. -/
  offset : Nat
  char : Char
  role : CharRole
  /-- The state in which the character was met. -/
  before : Nesting
  /-- The state that it leaves. -/
  after : Nesting
  deriving DecidableEq, Repr

namespace Mark

/-- The physical line of the character. -/
def line (m : Mark) : Nat :=
  m.before.line

/-- The number of groups open after the character. -/
def depth (m : Mark) : Nat :=
  m.after.depth

/-- A character of code outside every group. -/
def isTopCode (m : Mark) : Bool :=
  m.role = .code ∧ m.depth = 0

/-- A character of a comment outside every group. -/
def isTopComment (m : Mark) : Bool :=
  m.role = .comment ∧ m.depth = 0

/-- The text of a run of marks. -/
def text (ms : List Mark) : List Char :=
  ms.map Mark.char

end Mark

/-- The marks of `text`, read from state `s` at byte `offset`. -/
def marksFrom (p : Profile) (s : Nesting) (offset : Nat) : List Char → List Mark
  | [] => []
  | c :: rest =>
    let (t, role) := s.step p c rest
    ⟨offset, c, role, s, t⟩ :: marksFrom p t (offset + c.utf8Size) rest

/-- The marks of a text that starts on physical line `line`. -/
def marks (p : Profile) (text : List Char) (line : Nat := 1) : List Mark :=
  marksFrom p (.start line) 0 text

/-- The state after a run of marks that was read from `s`. -/
def Nesting.afterMarks (s : Nesting) (ms : List Mark) : Nesting :=
  (ms.getLast?.map Mark.after).getD s

/-- The runs of marks between those that separate, in order, empty runs included. Whether a mark
separates may depend on the mark after it. -/
def pieces (separates : Mark → Option Mark → Bool) : List Mark → List (List Mark)
  | [] => [[]]
  | m :: rest =>
    if separates m rest.head? then [] :: pieces separates rest
    else
      match pieces separates rest with
      | [] => [[m]]
      | piece :: others => (m :: piece) :: others

/-! ### Marks and their text -/

@[simp] theorem marksFrom_nil (p : Profile) (s : Nesting) (offset : Nat) :
    marksFrom p s offset [] = [] := rfl

theorem marksFrom_cons (p : Profile) (s : Nesting) (offset : Nat) (c : Char) (rest : List Char) :
    marksFrom p s offset (c :: rest) =
      ⟨offset, c, (s.step p c rest).2, s, (s.step p c rest).1⟩ ::
        marksFrom p (s.step p c rest).1 (offset + c.utf8Size) rest := rfl

/-- Marking keeps the text. -/
@[simp] theorem text_marksFrom (p : Profile) (s : Nesting) (offset : Nat) (text : List Char) :
    Mark.text (marksFrom p s offset text) = text := by
  induction text generalizing s offset with
  | nil => rfl
  | cons c rest ih =>
    rw [marksFrom_cons]
    exact congrArg (c :: ·) (ih _ _)

@[simp] theorem text_marks (p : Profile) (text : List Char) (line : Nat) :
    Mark.text (marks p text line) = text :=
  text_marksFrom ..

@[simp] theorem length_marks (p : Profile) (text : List Char) (line : Nat) :
    (marks p text line).length = text.length := by
  simpa [Mark.text] using congrArg List.length (text_marks p text line)

@[simp] theorem Nesting.afterMarks_nil (s : Nesting) : s.afterMarks [] = s := rfl

theorem Nesting.afterMarks_cons (s : Nesting) (m : Mark) (ms : List Mark) :
    s.afterMarks (m :: ms) = m.after.afterMarks ms := by
  cases ms with
  | nil => rfl
  | cons n ms => simp [Nesting.afterMarks, List.getLast?_cons]

/-! ### Reading in two parts -/

/-- The marks of `text` when `ahead` follows it. -/
def marksAhead (p : Profile) (ahead : List Char) (s : Nesting) (offset : Nat) :
    List Char → List Mark
  | [] => []
  | c :: rest =>
    let (t, role) := s.step p c (rest ++ ahead)
    ⟨offset, c, role, s, t⟩ :: marksAhead p ahead t (offset + c.utf8Size) rest

theorem marksAhead_nil (p : Profile) (s : Nesting) (offset : Nat) (text : List Char) :
    marksAhead p [] s offset text = marksFrom p s offset text := by
  induction text generalizing s offset with
  | nil => rfl
  | cons c rest ih => simp [marksAhead, marksFrom, ih]

theorem marksFrom_append (p : Profile) (s : Nesting) (offset : Nat) (text ahead : List Char) :
    marksFrom p s offset (text ++ ahead) =
      marksAhead p ahead s offset text ++
        marksFrom p (s.afterMarks (marksAhead p ahead s offset text))
          (offset + byteLength text) ahead := by
  induction text generalizing s offset with
  | nil => simp [marksAhead]
  | cons c rest ih =>
    simp [marksAhead, marksFrom_cons, ih, Nesting.afterMarks_cons, Nat.add_assoc]

theorem marksAhead_cons (p : Profile) (ahead : List Char) (s : Nesting) (offset : Nat) (c : Char)
    (rest : List Char) :
    marksAhead p ahead s offset (c :: rest) =
      ⟨offset, c, (s.step p c (rest ++ ahead)).2, s, (s.step p c (rest ++ ahead)).1⟩ ::
        marksAhead p ahead (s.step p c (rest ++ ahead)).1 (offset + c.utf8Size) rest := rfl

@[simp] theorem text_marksAhead (p : Profile) (ahead : List Char) (s : Nesting) (offset : Nat)
    (text : List Char) : Mark.text (marksAhead p ahead s offset text) = text := by
  induction text generalizing s offset with
  | nil => rfl
  | cons c rest ih =>
    rw [marksAhead_cons]
    exact congrArg (c :: ·) (ih _ _)

theorem Nesting.afterMarks_append (s : Nesting) (ms ns : List Mark) :
    s.afterMarks (ms ++ ns) = (s.afterMarks ms).afterMarks ns := by
  induction ms generalizing s with
  | nil => rfl
  | cons m ms ih => rw [List.cons_append, afterMarks_cons, afterMarks_cons, ih]

/-- The marks of a text that is followed by another, when both are followed by a third. -/
theorem marksAhead_append (p : Profile) (s : Nesting) (offset : Nat) (text more ahead : List Char) :
    marksAhead p ahead s offset (text ++ more) =
      marksAhead p (more ++ ahead) s offset text ++
        marksAhead p ahead (s.afterMarks (marksAhead p (more ++ ahead) s offset text))
          (offset + byteLength text) more := by
  induction text generalizing s offset with
  | nil => simp [marksAhead]
  | cons c rest ih =>
    simp [marksAhead, ih, Nesting.afterMarks_cons, Nat.add_assoc]

/-- What is said of a mark, its offset apart, does not depend on where reading starts. -/
theorem exists_mem_marksAhead {p : Profile} {ahead : List Char} {s : Nesting} {offset : Nat}
    {text : List Char} {m : Mark} (offset' : Nat) (h : m ∈ marksAhead p ahead s offset text) :
    ∃ n ∈ marksAhead p ahead s offset' text,
      n.char = m.char ∧ n.role = m.role ∧ n.before = m.before ∧ n.after = m.after := by
  induction text generalizing s offset offset' with
  | nil => simp [marksAhead] at h
  | cons c rest ih =>
    rw [marksAhead_cons] at h
    rcases List.mem_cons.1 h with rfl | h
    · exact ⟨_, List.mem_cons_self, rfl, rfl, rfl, rfl⟩
    · obtain ⟨n, hn, hsame⟩ := ih (offset' + c.utf8Size) h
      exact ⟨n, List.mem_cons_of_mem _ hn, hsame⟩

@[simp] theorem Mark.text_append (ms ns : List Mark) :
    Mark.text (ms ++ ns) = Mark.text ms ++ Mark.text ns :=
  List.map_append

/-! ### Pieces -/

/-- A run in which nothing separates is one piece. -/
theorem pieces_of_forall {separates : Mark → Option Mark → Bool} {run : List Mark}
    (h : ∀ m ∈ run, ∀ next, separates m next = false) : pieces separates run = [run] := by
  induction run with
  | nil => rfl
  | cons m run ih =>
    rw [pieces, if_neg (by simp [h m List.mem_cons_self]),
      ih fun n hn ↦ h n (List.mem_cons_of_mem _ hn)]

/-- The first piece ends at the first mark that separates. -/
theorem pieces_append_cons {separates : Mark → Option Mark → Bool} {run : List Mark} {m : Mark}
    {rest : List Mark} (h : ∀ n ∈ run, ∀ next, separates n next = false)
    (hm : separates m rest.head? = true) :
    pieces separates (run ++ m :: rest) = run :: pieces separates rest := by
  induction run with
  | nil => rw [List.nil_append, pieces, if_pos hm]
  | cons n run ih =>
    rw [List.cons_append, pieces, if_neg (by simp [h n List.mem_cons_self]),
      ih fun k hk ↦ h k (List.mem_cons_of_mem _ hk)]

/-- A run in which nothing separates goes to the first piece of what follows. -/
theorem pieces_append {separates : Mark → Option Mark → Bool} {run rest piece : List Mark}
    {others : List (List Mark)} (h : ∀ m ∈ run, ∀ next, separates m next = false)
    (hrest : pieces separates rest = piece :: others) :
    pieces separates (run ++ rest) = (run ++ piece) :: others := by
  induction run with
  | nil => exact hrest
  | cons m run ih =>
    rw [List.cons_append, pieces, if_neg (by simp [h m List.mem_cons_self]),
      ih fun n hn ↦ h n (List.mem_cons_of_mem _ hn), List.cons_append]

theorem pieces_ne_nil (separates : Mark → Option Mark → Bool) (ms : List Mark) :
    pieces separates ms ≠ [] := by
  cases ms with
  | nil => simp [pieces]
  | cons m rest =>
    rw [pieces]
    split
    · simp
    · split <;> simp

/-- Where two runs meet, the last piece of the first goes on with the first piece of the second, if
the last mark of the first does not look ahead. -/
theorem exists_pieces_append {separates : Mark → Option Mark → Bool} {ms ns : List Mark}
    (blind : ∀ m ∈ ms.getLast?, separates m ns.head? = separates m none) :
    ∃ init last first rest, pieces separates ms = init ++ [last] ∧
      pieces separates ns = first :: rest ∧
      pieces separates (ms ++ ns) = init ++ (last ++ first) :: rest := by
  induction ms with
  | nil =>
    obtain ⟨first, rest, hns⟩ := List.exists_cons_of_ne_nil (pieces_ne_nil separates ns)
    exact ⟨[], [], first, rest, rfl, hns, hns⟩
  | cons m ms ih =>
    obtain ⟨init, last, first, rest, hms, hns, happend⟩ := ih fun n hn ↦ blind n (by
      rw [List.getLast?_cons, Option.mem_def.1 hn]
      rfl)
    have hnext : separates m (ms ++ ns).head? = separates m ms.head? := by
      cases ms with
      | nil => exact blind m rfl
      | cons n ms => rfl
    rw [List.cons_append, pieces, pieces, hnext, hms, happend]
    split
    · exact ⟨[] :: init, last, first, rest, rfl, hns, rfl⟩
    · cases init with
      | nil => exact ⟨[], m :: last, first, rest, rfl, hns, rfl⟩
      | cons piece init => exact ⟨(m :: piece) :: init, last, first, rest, rfl, hns, rfl⟩

/-- Where a piece stands in the run that is cut: the first piece begins the run and every other one
stands behind a mark that separates; the last piece ends the run and every other one stands in front
of such a mark. -/
theorem exists_of_pieces_eq {separates : Mark → Option Mark → Bool} {ms piece : List Mark}
    {before after : List (List Mark)} (h : pieces separates ms = before ++ piece :: after) :
    ∃ front behind, ms = front ++ piece ++ behind ∧
      (before = [] → front = []) ∧
      (before ≠ [] → ∃ m ∈ front.getLast?, ∃ next, separates m next = true) ∧
      (after = [] → behind = []) ∧
      (after ≠ [] → ∃ m ∈ behind.head?, ∃ next, separates m next = true) := by
  induction ms generalizing before piece with
  | nil =>
    cases before with
    | nil =>
      obtain ⟨rfl, rfl⟩ := List.cons.inj h
      exact ⟨[], [], rfl, by simp⟩
    | cons first before => simp [pieces] at h
  | cons m rest ih =>
    rw [pieces] at h
    split at h
    · next hm =>
      cases before with
      | nil =>
        obtain ⟨rfl, rfl⟩ := List.cons.inj h
        exact ⟨[], m :: rest, rfl, by simp, by simp, fun hnil ↦ absurd hnil (pieces_ne_nil _ _),
          fun _ ↦ ⟨m, rfl, _, hm⟩⟩
      | cons first before =>
        obtain ⟨front, behind, rfl, hfirst, hfront, hbehind⟩ := ih (List.cons.inj h).2
        refine ⟨m :: front, behind, rfl, by simp, fun _ ↦ ?_, hbehind⟩
        by_cases hbefore : before = []
        · exact ⟨m, by simp [hfirst hbefore], _, hm⟩
        · obtain ⟨n, hn, hseparates⟩ := hfront hbefore
          exact ⟨n, by simp [List.getLast?_cons, Option.mem_def.1 hn], hseparates⟩
    · split at h
      · next hnil => exact absurd hnil (pieces_ne_nil _ _)
      · next first others heq =>
        cases before with
        | nil =>
          obtain ⟨rfl, rfl⟩ := List.cons.inj h
          obtain ⟨front, behind, hrest, hfirst, -, hbehind⟩ := @ih _ [] heq
          obtain rfl := hfirst rfl
          exact ⟨[], behind, congrArg (m :: ·) hrest, by simp, by simp, hbehind⟩
        | cons start before =>
          have hothers : pieces separates rest = (first :: before) ++ piece :: after :=
            heq.trans (congrArg (first :: ·) (List.cons.inj h).2)
          obtain ⟨front, behind, rfl, -, hfront, hbehind⟩ := ih hothers
          obtain ⟨n, hn, hseparates⟩ := hfront (by simp)
          exact ⟨m :: front, behind, rfl, by simp,
            fun _ ↦ ⟨n, by simp [List.getLast?_cons, Option.mem_def.1 hn], hseparates⟩, hbehind⟩

/-- A mark that separates, whatever follows it, cuts what stands in front of it from what stands
behind it. -/
theorem pieces_append_separator {test : Mark → Bool} {m : Mark} (front behind : List Mark)
    (h : test m = true) :
    pieces (fun m _ ↦ test m) (front ++ m :: behind) =
      pieces (fun m _ ↦ test m) front ++ pieces (fun m _ ↦ test m) behind := by
  induction front with
  | nil => simp [pieces, h]
  | cons n front ih =>
    rw [List.cons_append, pieces, pieces]
    split
    · rw [ih, List.cons_append]
    · rw [ih]
      cases hfront : pieces (fun m _ ↦ test m) front with
      | nil => exact absurd hfront (pieces_ne_nil _ _)
      | cons piece others => rfl

/-- A mark that does not separate from what stands behind it belongs to a piece. -/
theorem exists_mem_pieces_append {separates : Mark → Option Mark → Bool} {m : Mark}
    (front : List Mark) {behind : List Mark} (h : separates m behind.head? = false) :
    ∃ piece ∈ pieces separates (front ++ m :: behind), m ∈ piece := by
  induction front with
  | nil =>
    rw [List.nil_append, pieces, if_neg (by simp [h])]
    split
    · exact ⟨[m], List.mem_cons_self, List.mem_cons_self⟩
    · next piece others _ => exact ⟨m :: piece, List.mem_cons_self, List.mem_cons_self⟩
  | cons n front ih =>
    obtain ⟨piece, hpiece, hm⟩ := ih
    rw [List.cons_append, pieces]
    split
    · exact ⟨piece, List.mem_cons_of_mem _ hpiece, hm⟩
    · split
      · next hnil => simp [hnil] at hpiece
      · next first others heq =>
        rw [heq] at hpiece
        rcases List.mem_cons.1 hpiece with rfl | hpiece
        · exact ⟨n :: piece, List.mem_cons_self, List.mem_cons_of_mem _ hm⟩
        · exact ⟨piece, List.mem_cons_of_mem _ hpiece, hm⟩

theorem exists_mem_pieces {test : Mark → Bool} {ms : List Mark} {m : Mark} (hm : m ∈ ms)
    (h : test m = false) : ∃ piece ∈ pieces (fun m _ ↦ test m) ms, m ∈ piece := by
  obtain ⟨front, behind, rfl⟩ := List.append_of_mem hm
  exact exists_mem_pieces_append front h

/-- No mark of a piece separates from what stands behind it. -/
theorem exists_eq_false_of_mem_piece {separates : Mark → Option Mark → Bool}
    {ms piece : List Mark} {m : Mark} (h : piece ∈ pieces separates ms) (hm : m ∈ piece) :
    ∃ next, separates m next = false := by
  induction ms generalizing piece with
  | nil => simp_all [pieces]
  | cons n rest ih =>
    rw [pieces] at h
    split at h
    · rcases List.mem_cons.1 h with rfl | h
      · simp at hm
      · exact ih h hm
    · next hn =>
      split at h
      · next hnil => exact absurd hnil (pieces_ne_nil _ _)
      · next first others heq =>
        rcases List.mem_cons.1 h with rfl | h
        · rcases List.mem_cons.1 hm with rfl | hm
          · exact ⟨_, by simpa using hn⟩
          · exact ih (heq ▸ List.mem_cons_self) hm
        · exact ih (heq ▸ List.mem_cons_of_mem _ h) hm

theorem eq_false_of_mem_piece {test : Mark → Bool} {ms piece : List Mark} {m : Mark}
    (h : piece ∈ pieces (fun m _ ↦ test m) ms) (hm : m ∈ piece) : test m = false := by
  obtain ⟨_, htest⟩ := exists_eq_false_of_mem_piece h hm
  exact htest

/-- Every piece is a part of the run that is cut. -/
theorem sublist_of_mem_pieces {separates : Mark → Option Mark → Bool} {ms piece : List Mark}
    (h : piece ∈ pieces separates ms) : piece.Sublist ms := by
  induction ms generalizing piece with
  | nil => simp_all [pieces]
  | cons m rest ih =>
    rw [pieces] at h
    split at h
    · rcases List.mem_cons.1 h with rfl | h
      · exact List.nil_sublist _
      · exact (ih h).cons m
    · split at h
      · next hnil => exact absurd hnil (pieces_ne_nil _ _)
      · next first others heq =>
        rcases List.mem_cons.1 h with rfl | h
        · exact (ih (heq ▸ List.mem_cons_self)).cons_cons m
        · exact (ih (heq ▸ List.mem_cons_of_mem _ h)).cons m

end ShellCatalog
