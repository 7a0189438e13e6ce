import ShellCatalog.LogicalLine

/-!
# Statements

A statement is what stands between two separators outside every group: `;`, `|`, `&`, a newline that
ends a complete statement, or a comment (`Mark.separatesStatements`). An ampersand that belongs to a
redirection, beside `<` or `>`, does not separate. Separators belong to no statement.

A text is cut into the runs of marks between separators, and each run that holds a visible character
is a statement: the run without the blanks at its ends (`Statement.exists_of_ofMarks?`). So every
statement knows where it starts, as a byte offset and as a physical line, namely where its first
visible mark stands. Where it starts does not depend on how the run goes on
(`Statement.ofMarks?_of_visible`).

A statement is no longer than its text (`length_le_of_mem_statements`), which is what lets a
statement be looked into as a text of its own.
-/

namespace ShellCatalog

/-- A part of a text that holds one command, without blanks at its ends. -/
structure Statement where
  /-- The byte offset of its first character. -/
  offset : Nat
  /-- The physical line of its first character. -/
  line : Nat
  text : List Char
  deriving DecidableEq, Repr

/-- The mark stands between statements and belongs to none; `next` is the mark after it. -/
def Mark.separatesStatements (m : Mark) (next : Option Mark) : Bool :=
  m.isTopComment ||
    m.depth = 0 &&
      match m.char with
      | ';' | '|' => m.role = .code
      -- In `>&`, `<&` and `&>` the ampersand belongs to a redirection.
      | '&' =>
        m.role = .code && m.before.lastChar? ≠ some '>' && m.before.lastChar? ≠ some '<' &&
          next.map Mark.char ≠ some '>'
      | '\n' => m.endsLine
      | _ => false

/-- The statement of a run of marks, if the run holds a visible character. -/
def Statement.ofMarks? (run : List Mark) : Option Statement :=
  match run.dropWhile fun m ↦ isSpace m.char with
  | [] => none
  | m :: rest => some ⟨m.offset, m.line, trimEnd (Mark.text (m :: rest))⟩

/-- The statements of a text that starts on physical line `line`. -/
def statements (p : Profile) (text : List Char) (line : Nat := 1) : List Statement :=
  (pieces Mark.separatesStatements (marks p text line)).filterMap Statement.ofMarks?

/-- A blank run holds no statement. -/
theorem Statement.ofMarks?_of_isBlank {run : List Mark} (h : isBlank (Mark.text run) = true) :
    ofMarks? run = none := by
  have hnone : (run.dropWhile fun m ↦ isSpace m.char).map Mark.char = [] := by
    have htrim := trimStart_eq_nil_iff.2 h
    rwa [trimStart, Mark.text, List.dropWhile_map] at htrim
  rw [ofMarks?, List.map_eq_nil_iff.1 hnone]

/-- The end of a line is between statements. -/
theorem Mark.separatesStatements_of_endsLine {m : Mark} (next : Option Mark)
    (h : m.endsLine = true) : m.separatesStatements next = true := by
  obtain ⟨hchar, -, hbalanced⟩ := endsLine_iff.1 h
  have hdepth : m.depth = 0 := by
    rw [depth, Nesting.depth, (Nesting.isBalanced_iff.1 hbalanced).2.1, List.length_nil]
  simp [separatesStatements, hdepth, hchar, h]

/-- A mark that does not stand between statements is no comment, no end of a line and neither a
semicolon nor a bar. -/
theorem Mark.of_separatesStatements_eq_false {m : Mark} {next : Option Mark}
    (h : m.separatesStatements next = false) :
    m.isTopComment = false ∧ m.endsLine = false ∧ (m.isTopCode = true → m.char ∉ [';', '|']) := by
  refine ⟨?_, ?_, fun hcode hchar ↦ ?_⟩
  · rw [separatesStatements, Bool.or_eq_false_iff] at h
    exact h.1
  · cases hends : m.endsLine with
    | false => rfl
    | true =>
      rw [m.separatesStatements_of_endsLine next hends] at h
      exact Bool.noConfusion h
  · simp only [isTopCode, decide_eq_true_eq] at hcode
    simp only [List.mem_cons, List.not_mem_nil, or_false] at hchar
    rcases hchar with hchar | hchar <;> simp [separatesStatements, hcode, hchar] at h

/-- A run that is not blank has a first visible mark. -/
theorem Mark.exists_dropWhile_of_visible {run : List Mark} (h : isBlank (text run) = false) :
    ∃ m more, (run.dropWhile fun m ↦ isSpace m.char) = m :: more := by
  cases hrun : run.dropWhile fun m ↦ isSpace m.char with
  | cons m more => exact ⟨m, more, rfl⟩
  | nil =>
    have hblank : trimStart (text run) = [] := by
      rw [trimStart, text, List.dropWhile_map]
      exact List.map_eq_nil_iff.2 hrun
    rw [trimStart_eq_nil_iff.1 hblank] at h
    exact Bool.noConfusion h

/-- A statement begins at the first visible mark of its run, and no later mark changes where. -/
theorem Statement.ofMarks?_of_visible {head : List Mark} (h : isBlank (Mark.text head) = false) :
    ∃ m more, (head.dropWhile fun m ↦ isSpace m.char) = m :: more ∧
      ∀ rest, ofMarks? (head ++ rest) =
        some ⟨m.offset, m.line, trimEnd (trimStart (Mark.text head) ++ Mark.text rest)⟩ := by
  obtain ⟨m, more, hm⟩ := Mark.exists_dropWhile_of_visible h
  refine ⟨m, more, hm, fun rest ↦ ?_⟩
  have htext : trimStart (Mark.text head) = Mark.text (m :: more) := by
    rw [← hm, trimStart, Mark.text, Mark.text, List.dropWhile_map]
    rfl
  have hdrop : ((head ++ rest).dropWhile fun m ↦ isSpace m.char) = m :: (more ++ rest) := by
    rw [List.dropWhile_append, hm]
    rfl
  rw [ofMarks?, hdrop, htext, ← Mark.text_append]
  rfl

/-- A run that is not blank holds a statement, its text without the blanks at its ends. -/
theorem Statement.exists_ofMarks?_of_visible {run : List Mark}
    (h : isBlank (Mark.text run) = false) :
    ∃ m more, (run.dropWhile fun m ↦ isSpace m.char) = m :: more ∧
      ofMarks? run = some ⟨m.offset, m.line, trimEnd (trimStart (Mark.text run))⟩ := by
  obtain ⟨m, more, hm, hof⟩ := ofMarks?_of_visible h
  refine ⟨m, more, hm, ?_⟩
  have hempty : Mark.text [] = [] := rfl
  have hwhole := hof []
  rwa [hempty, List.append_nil, List.append_nil] at hwhole

/-- The statement of a run is the run without the blanks at its ends. -/
theorem Statement.exists_of_ofMarks? {run : List Mark} {s : Statement}
    (h : ofMarks? run = some s) :
    ∃ lead m rest trail, run = lead ++ (m :: rest ++ trail) ∧
      isBlank (Mark.text lead) = true ∧ isBlank (Mark.text trail) = true ∧
      s = ⟨m.offset, m.line, Mark.text (m :: rest)⟩ ∧ isSpace m.char = false ∧
      ∀ c ∈ s.text.getLast?, isSpace c = false := by
  unfold ofMarks? at h
  split at h
  · simp at h
  · next m rest heq =>
    cases h
    have hvisible : isSpace m.char = false := by
      have hd := List.head?_dropWhile_not (fun m : Mark ↦ isSpace m.char) run
      rwa [heq] at hd
    have hlead : isBlank (Mark.text (run.takeWhile fun m ↦ isSpace m.char)) = true := by
      rw [isBlank_iff]
      intro c hc
      obtain ⟨n, hn, rfl⟩ := List.mem_map.1 hc
      exact List.all_eq_true.1 List.all_takeWhile n hn
    have hfull : trimEnd (Mark.text (m :: rest)) ≠ [] := by
      rw [ne_eq, trimEnd_eq_nil_iff]
      simp [isBlank, Mark.text, hvisible]
    obtain ⟨blanks, hblank, htext⟩ := exists_trimEnd_append (Mark.text (m :: rest))
    -- The marks are cut where the text is trimmed.
    obtain ⟨body, trail, hmarks, hbody, rfl⟩ := List.map_eq_append_iff.1 htext
    cases body with
    | nil => exact absurd hbody.symm hfull
    | cons n body =>
      have hcut : run.takeWhile (fun m ↦ isSpace m.char) ++ (n :: body ++ trail) = run := by
        rw [← hmarks, ← heq, List.takeWhile_append_dropWhile]
      obtain rfl : m = n := (List.cons.inj hmarks).1
      refine ⟨_, m, body, trail, hcut.symm, hlead, hblank, ?_, hvisible, fun c ↦ getLast?_trimEnd⟩
      rw [Statement.mk.injEq]
      exact ⟨rfl, rfl, hbody.symm⟩

/-- A statement is no longer than the text it is cut from. -/
theorem length_le_of_mem_statements {p : Profile} {text : List Char} {line : Nat} {s : Statement}
    (h : s ∈ statements p text line) : s.text.length ≤ text.length := by
  obtain ⟨run, hrun, hs⟩ := List.mem_filterMap.1 h
  have hlen : run.length ≤ text.length :=
    length_marks p text line ▸ (sublist_of_mem_pieces hrun).length_le
  unfold Statement.ofMarks? at hs
  split at hs
  · simp at hs
  · next m rest heq =>
    cases hs
    have hle : (m :: rest).length ≤ run.length := heq ▸ (List.dropWhile_suffix _).length_le
    calc (trimEnd (Mark.text (m :: rest))).length
        ≤ (Mark.text (m :: rest)).length := length_trimEnd_le _
      _ = (m :: rest).length := by simp [Mark.text]
      _ ≤ text.length := Nat.le_trans hle hlen

end ShellCatalog
