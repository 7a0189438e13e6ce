import ShellCatalog.Proofs.CutFile
import ShellCatalog.Proofs.LineTiling

/-!
# A text is what its lines are

A text that is read as a whole, as the inside of a group is, holds the statements of its logical
lines, as long as it leaves nothing open, and so it defines what its lines define one by one. A text
has the same findings read in one piece and read in lines, apart from headers that dangle: those are
handed from line to line, and a text in one piece hands nothing on.

**Cutting twice is cutting once** (`pieces_eq_flatMap`): a newline that ends a line also ends a
statement, so the statements of a text may be cut out of its lines.

**A line is read as it stands** (`LogicalLine.StandsAt.forall₂_marks`): the marks of a line are
those of its own text, read from its own first line. Only offsets differ, by what stands in front of
the line, and no finding depends on them.
-/

namespace ShellCatalog

/-! ### Findings gathered -/

namespace Findings

variable {α β : Type}

/-- The findings of the members of a list, one behind the other. -/
def gather (f : α → Findings) (l : List α) : Findings :=
  ⟨l.flatMap fun a ↦ (f a).definitions, l.flatMap fun a ↦ (f a).diagnostics⟩

theorem gather_map (f : β → Findings) (g : α → β) (l : List α) :
    gather f (l.map g) = gather (fun a ↦ f (g a)) l := by
  simp [gather, List.flatMap_map]

theorem gather_flatMap (f : β → Findings) (g : α → List β) (l : List α) :
    gather f (l.flatMap g) = gather (fun a ↦ gather f (g a)) l := by
  simp [gather, List.flatMap_assoc]

theorem gather_congr {f g : α → Findings} {l : List α} (h : ∀ a ∈ l, f a = g a) :
    gather f l = gather g l := by
  simp only [gather, Findings.mk.injEq]
  exact ⟨List.flatMap_congr fun a ha ↦ congrArg _ (h a ha),
    List.flatMap_congr fun a ha ↦ congrArg _ (h a ha)⟩

theorem gather_later (n : Nat) (f : α → Findings) (l : List α) :
    (gather f l).later n = gather (fun a ↦ (f a).later n) l := by
  simp [gather, later, List.map_flatMap]

end Findings

/-! ### What is found, apart from headers -/

/-- The findings in a text, without the header that is handed on. -/
def Extraction.found (e : Extraction) : Findings :=
  ⟨e.definitions, e.diagnostics⟩

theorem Extraction.found_later (n : Nat) (e : Extraction) : (e.later n).found = e.found.later n :=
  rfl

/-- The findings in a statement. -/
def Statement.found (p : Profile) (file : Path) (s : Statement) : Findings :=
  (Extraction.ofStatement p file s true).found

/-- The findings in each of the lines, read by itself. -/
def Findings.separately (p : Profile) (file : Path) (ls : List LogicalLine) : Findings :=
  .gather (fun l ↦ (Extraction.ofLine p file l).found) ls

section Found

variable {p : Profile} {file : Path}

theorem Extraction.found_concat {α : Type} (f : α → Extraction) (l : List α) :
    (concat (l.map f)).found = .gather (fun a ↦ (f a).found) l := by
  rw [found, definitions_concat, diagnostics_concat, List.flatMap_map, List.flatMap_map]
  rfl

theorem Extraction.found_ofFunction (s : Statement) (isLast : Bool) (h : Header) :
    (ofFunction p file s isLast h).found = (ofFunction p file s true h).found := by
  unfold ofFunction
  split <;> rfl

theorem Extraction.found_ofCommand (s : Statement) (isLast : Bool) :
    (ofCommand p file s isLast).found = (ofCommand p file s true).found := by
  unfold ofCommand
  split
  · rfl
  · split
    · exact found_ofFunction s isLast _
    · rfl

/-- Whether a statement is the last of its text decides only whether a header is handed on. -/
theorem Extraction.found_ofStatement (s : Statement) (isLast : Bool) :
    (ofStatement p file s isLast).found = s.found p file := by
  unfold Statement.found ofStatement
  split
  · rfl
  · exact found_ofCommand _ isLast

/-- A text defines what its statements define. -/
theorem Extraction.found_ofText (text : List Char) (line : Nat) :
    (ofText p file text line).found =
      .gather (Statement.found p file) (statements p text line) := by
  rw [ofText_eq, found_concat]
  exact Findings.gather_congr fun s _ ↦ found_ofStatement s _

/-- Where a statement begins in its text does not matter to its findings. -/
theorem Statement.found_moved (bytes : Nat) (s : Statement) :
    (s.moved bytes 0).found p file = s.found p file :=
  congrArg Extraction.found ((Extraction.ofStatement_offset p file _ s.line s.text true).trans
    (Extraction.ofStatement_offset p file s.offset s.line s.text true).symm)

/-- A single line has no header in front of it. -/
theorem Findings.ofLines_singleton (l : LogicalLine) :
    ofLines p file none [l] = (Extraction.ofLine p file l).found := by
  simp only [ofLines, LogicalLine.behind, Extraction.found, List.append_nil]

theorem Findings.separately_later (n : Nat) (ls : List LogicalLine) :
    separately p file (ls.map (LogicalLine.later n)) = (separately p file ls).later n := by
  rw [separately, separately, gather_map, gather_later]
  exact gather_congr fun l _ ↦ by rw [Extraction.ofLine_later, Extraction.found_later]

end Found

/-! ### Cutting twice -/

/-- The first piece begins the run, unless the run begins with a mark that separates. -/
theorem head?_first_piece {coarse : Mark → Bool} {ms piece : List Mark} {others : List (List Mark)}
    (h : pieces (fun m _ ↦ coarse m) ms = piece :: others) :
    piece.head? = ms.head? ∨ piece = [] ∧ ∃ m ∈ ms.head?, coarse m = true := by
  cases ms with
  | nil =>
    obtain ⟨rfl, -⟩ := List.cons.inj h
    exact .inl rfl
  | cons m rest =>
    rw [pieces] at h
    split at h
    · next hm =>
      obtain ⟨rfl, -⟩ := List.cons.inj h
      exact .inr ⟨rfl, m, rfl, hm⟩
    · split at h <;> obtain ⟨rfl, -⟩ := List.cons.inj h <;> exact .inl rfl

/-- A cut may be made in two stages: where the coarse marks are, and then where the fine ones are.
The fine cut must not see whether a coarse mark comes next or nothing. -/
theorem pieces_eq_flatMap {coarse : Mark → Bool} {fine : Mark → Option Mark → Bool}
    (refines : ∀ m next, coarse m = true → fine m next = true)
    (blind : ∀ m n, coarse n = true → fine m (some n) = fine m none) (ms : List Mark) :
    pieces fine ms = (pieces (fun m _ ↦ coarse m) ms).flatMap (pieces fine) := by
  induction ms with
  | nil => rfl
  | cons m rest ih =>
    by_cases hm : coarse m = true
    · rw [pieces, pieces, if_pos (refines m _ hm), if_pos hm, ih]
      rfl
    · obtain ⟨piece, others, hpieces⟩ :=
        List.exists_cons_of_ne_nil (pieces_ne_nil (fun m _ ↦ coarse m) rest)
      obtain ⟨first, more, hfirst⟩ := List.exists_cons_of_ne_nil (pieces_ne_nil fine piece)
      have hcoarse : pieces (fun m _ ↦ coarse m) (m :: rest) = (m :: piece) :: others := by
        rw [pieces, if_neg hm, hpieces]
      -- The mark sees the same behind it in the whole run and in its coarse piece.
      have hnext : fine m rest.head? = fine m piece.head? := by
        rcases head?_first_piece hpieces with hhead | ⟨rfl, n, hn, hcut⟩
        · rw [hhead]
        · rw [Option.mem_def.1 hn]
          exact blind m n hcut
      rw [hpieces, List.flatMap_cons] at ih
      rw [hcoarse, List.flatMap_cons, pieces, pieces, ih, hnext]
      split
      · rfl
      · rw [hfirst]
        rfl

/-- No statement looks at the end of its line. -/
theorem Mark.separatesStatements_congr_endsLine {m n : Mark} (h : n.endsLine = true) :
    m.separatesStatements (some n) = m.separatesStatements none := by
  simp [separatesStatements, (endsLine_iff.1 h).1]

/-- A newline that ends a line ends a statement, so statements may be cut out of lines. -/
theorem pieces_separatesStatements_eq_flatMap (ms : List Mark) :
    pieces Mark.separatesStatements ms =
      (pieces (fun m _ ↦ m.endsLine) ms).flatMap (pieces Mark.separatesStatements) :=
  pieces_eq_flatMap (fun m next h ↦ m.separatesStatements_of_endsLine next h)
    (fun _ _ h ↦ Mark.separatesStatements_congr_endsLine h) ms

/-! ### Where a line begins -/

/-- The byte offset at which a physical line of a text begins; lines are counted from 1. -/
def lineStart (text : List Char) (line : Nat) : Nat :=
  byteLength (((splitOn '\n' text).take (line - 1)).flatMap (· ++ ['\n']))

/-- What follows the last newline of a part begins behind the part. -/
theorem lineStart_of_place {front : List Char} (ends : ∀ c ∈ front.getLast?, c = '\n')
    (more : List Char) : lineStart (front ++ more) (lineAfter 1 front) = byteLength front := by
  obtain ⟨parts, hlength, hfront, hparts⟩ := exists_splitOn_append ends
  have habove : lineAfter 1 front - 1 = parts.length := by
    rw [hlength]
    exact Nat.add_sub_cancel_left ..
  rw [lineStart, habove, hparts, List.take_left, hfront]

/-- The statements of a line, at their places in the text of which it is a line. -/
def LogicalLine.statementsIn (p : Profile) (text : List Char) (l : LogicalLine) : List Statement :=
  (statements p l.text l.line).map (Statement.moved (lineStart text l.line) 0)

/-! ### The lines of a text -/

section Lines

variable {p : Profile} {file : Path} {text : List Char}

section StandsAt

variable {l : LogicalLine} {front run behind : List Mark}

/-- A logical line begins where its first physical line does. -/
theorem LogicalLine.StandsAt.lineStart_eq (h : l.StandsAt p text front run behind) :
    lineStart text l.line = byteLength (Mark.text front) := by
  have htext := congrArg Mark.text h.marks_eq
  rw [text_marks, Mark.text_append, Mark.text_append, List.append_assoc] at htext
  rw [htext, h.line_eq]
  exact lineStart_of_place (eq_newline_of_endsLine h.front_ends) _

/-- The marks of a complete line are those of its text, read from its first line and so many bytes
later. -/
theorem LogicalLine.StandsAt.forall₂_marks (h : l.StandsAt p text front run behind)
    (complete : l.leftOpen = none) (full : run ≠ []) :
    List.Forall₂ (Mark.Related (Nesting.LaterBy 0) (lineStart text l.line)) (marks p l.text l.line)
      run := by
  obtain ⟨s, offset, hs, hread, -⟩ := h.exists_start complete
  obtain ⟨m, rest, rfl⟩ := List.exists_cons_of_ne_nil full
  have hfirst : m.offset = offset ∧ m.line = s.line := by
    rw [h.text_eq, Mark.text, List.map_cons, marksFrom_cons, List.cons.injEq] at hread
    rw [Mark.line, hread.1]
    exact ⟨rfl, rfl⟩
  have hoffset : offset = lineStart text l.line := by
    have hmarks := h.marks_eq
    rw [List.append_assoc] at hmarks
    have hplace := offset_eq_of_marksFrom hmarks
    rw [hfirst.1, Nat.zero_add] at hplace
    rw [h.lineStart_eq, hplace]
  have hline : s.line = l.line := by
    have hm : (LogicalLine.ofMarks 1 none (m :: rest)).line = lineAfter 1 (Mark.text front) :=
      line_ofMarks h.marks_eq h.front_ends full
    rw [h.line_eq, ← hm, ← hfirst.2]
    rfl
  have hsame := forall₂_marksFrom (fun h c rest ↦ h.step c rest)
    ((Nesting.atWord_start s.line).laterBy hs (Nat.add_zero _).symm) 0 offset l.text (p := p)
  rw [Nat.zero_add, ← hread, hline, hoffset] at hsame
  exact hsame

end StandsAt

/-- The statements in a run between two ends of lines are those of the line, if the run is one. -/
theorem filterMap_ofMarks?_of_run {run : List Mark}
    (closed : ((Nesting.start 1).afterText p text []).outermostOpen? = none)
    (hrun : run ∈ pieces (fun m _ ↦ m.endsLine) (marks p text)) :
    (pieces Mark.separatesStatements run).filterMap Statement.ofMarks? =
      (LogicalLine.ofRun? run).toList.flatMap (LogicalLine.statementsIn p text) := by
  cases hblank : isBlank (Mark.text run) with
  | true =>
    have hnone : (pieces Mark.separatesStatements run).filterMap Statement.ofMarks? = [] := by
      refine List.filterMap_eq_nil_iff.2 fun piece hpiece ↦ Statement.ofMarks?_of_isBlank ?_
      rw [isBlank_iff] at hblank ⊢
      exact fun c hc ↦ hblank c (((sublist_of_mem_pieces hpiece).map Mark.char).subset hc)
    simp [hnone, LogicalLine.ofRun?, hblank]
  | false =>
    have hfull : run ≠ [] := fun h ↦ absurd (h ▸ hblank) (by decide)
    obtain ⟨before, after, hpieces⟩ := List.append_of_mem hrun
    obtain ⟨front, behind, hmarks, hfront, hbehind, -⟩ := exists_of_pieces_endsLine hpieces
    have hstands : (LogicalLine.ofMarks 1 none run).StandsAt p text front run behind :=
      ⟨hmarks, hfront, hbehind, rfl, line_ofMarks hmarks hfront hfull, by
        rw [closed]
        split <;> rfl⟩
    have hline : LogicalLine.ofRun? run = some (.ofMarks 1 none run) := by
      simp [LogicalLine.ofRun?, hblank]
    rw [hline, Option.toList_some, List.flatMap_singleton, LogicalLine.statementsIn]
    exact filterMap_ofMarks?_moved (hstands.forall₂_marks rfl hfull)

/-- The statements of a text that leaves nothing open are those of its lines. -/
theorem statements_of_closed
    (closed : ((Nesting.start 1).afterText p text []).outermostOpen? = none) :
    statements p text = (logicalLines p text).flatMap (LogicalLine.statementsIn p text) := by
  rw [statements, pieces_separatesStatements_eq_flatMap, List.filterMap_flatMap,
    logicalLines_of_complete closed, List.filterMap_eq_flatMap_toList, List.flatMap_assoc]
  exact List.flatMap_congr fun run hrun ↦ filterMap_ofMarks?_of_run closed hrun

/-- A text whose lines are all complete holds the statements of its lines, one line after the other,
each statement as far behind the start of its line as the line read by itself has it. -/
theorem statements_eq_flatMap (complete : ∀ l ∈ logicalLines p text, l.leftOpen = none) :
    statements p text = (logicalLines p text).flatMap fun l ↦
      (statements p l.text l.line).map (Statement.moved (lineStart text l.line) 0) :=
  statements_of_closed (outermostOpen?_of_complete complete)

/-- The quote, the document and the escaped newline go on over the ends of their lines, and the
blank line between them is none. -/
theorem statements_eq_flatMap_of_openLines :
    statements Dialect.zsh.profile "a 'x\n' ; é\n\ncat <<E && b\n;\nE\nc \\\n d|e".toList =
      (logicalLines Dialect.zsh.profile
        "a 'x\n' ; é\n\ncat <<E && b\n;\nE\nc \\\n d|e".toList).flatMap fun l ↦
          (statements Dialect.zsh.profile l.text l.line).map
            (Statement.moved (lineStart
              "a 'x\n' ; é\n\ncat <<E && b\n;\nE\nc \\\n d|e".toList l.line) 0) :=
  statements_eq_flatMap (by decide +kernel)

/-- A text that leaves nothing open defines, in one piece, what its lines define. -/
theorem Extraction.found_ofText_eq_separately
    (closed : ((Nesting.start 1).afterText p text []).outermostOpen? = none) :
    (ofText p file text 1).found = .separately p file (logicalLines p text) := by
  rw [found_ofText, statements_of_closed closed, Findings.gather_flatMap, Findings.separately]
  refine Findings.gather_congr fun l hl ↦ ?_
  rw [LogicalLine.statementsIn, Findings.gather_map, ofLine, complete_of_outermostOpen? closed l hl,
    found_ofText]
  exact Findings.gather_congr fun s _ ↦ Statement.found_moved _ s

end Lines

end ShellCatalog
