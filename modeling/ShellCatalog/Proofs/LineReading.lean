import Mathlib.Data.List.Forall2
import ShellCatalog.Proofs.RewrittenLines

/-!
# A logical line read on its own

Whoever looks into a logical line reads its text from a fresh state, and has forgotten what the
reading of the file knew where the line begins. Nothing that was forgotten is missed: every
character is read as it was read in the file, and behind the last one nothing is open.

**Behind the line** the file goes on, and a delimiter may have been read past the end of the line.
Then its document waits for ever, and the line is truncated; so in a complete line nothing behind
the line was looked at (`Nesting.marksAhead_congr`). **In front of the line** stands a newline that
ends a statement, and the state behind it is one in which a word may begin, as is a fresh one
(`LogicalLine.StandsAt.exists_start`); no text tells such states apart (`Nesting.Like`).
-/

namespace ShellCatalog

/-! ### Marks of states that stay related -/

/-- The second mark is the first, met in a related state and so many bytes later. -/
structure Mark.Related (R : Nesting → Nesting → Prop) (bytes : Nat) (m n : Mark) : Prop where
  offset : n.offset = m.offset + bytes
  char : m.char = n.char
  role : m.role = n.role
  before : R m.before n.before
  after : R m.after n.after

/-- Two readings of a text stay side by side when every step keeps their states related and gives
its character the same class. -/
theorem forall₂_marksAhead {p : Profile} {R : Nesting → Nesting → Prop}
    (step : ∀ {s t : Nesting}, R s t → ∀ c rest,
      (s.step p c rest).2 = (t.step p c rest).2 ∧ R (s.step p c rest).1 (t.step p c rest).1)
    {s t : Nesting} (h : R s t) (offset bytes : Nat) (text ahead : List Char) :
    List.Forall₂ (Mark.Related R bytes) (marksAhead p ahead s offset text)
      (marksAhead p ahead t (offset + bytes) text) := by
  induction text generalizing s t offset with
  | nil => exact .nil
  | cons c rest ih =>
    obtain ⟨hrole, hnext⟩ := step h c (rest ++ ahead)
    rw [marksAhead_cons, marksAhead_cons, Nat.add_right_comm]
    exact .cons ⟨rfl, rfl, hrole, h, hnext⟩ (ih hnext _)

theorem forall₂_marksFrom {p : Profile} {R : Nesting → Nesting → Prop}
    (step : ∀ {s t : Nesting}, R s t → ∀ c rest,
      (s.step p c rest).2 = (t.step p c rest).2 ∧ R (s.step p c rest).1 (t.step p c rest).1)
    {s t : Nesting} (h : R s t) (offset bytes : Nat) (text : List Char) :
    List.Forall₂ (Mark.Related R bytes) (marksFrom p s offset text)
      (marksFrom p t (offset + bytes) text) := by
  rw [← marksAhead_nil, ← marksAhead_nil]
  exact forall₂_marksAhead step h offset bytes text []

/-! ### A part of the marks of a text -/

theorem length_marksAhead (p : Profile) (ahead : List Char) (s : Nesting) (offset : Nat)
    (text : List Char) : (marksAhead p ahead s offset text).length = text.length := by
  have htext := congrArg List.length (text_marksAhead p ahead s offset text)
  rwa [Mark.text, List.length_map] at htext

/-- Where the marks of a text are divided, the text is, and each part of the marks is a reading of
its part of the text. -/
theorem marksFrom_eq_append {p : Profile} {s : Nesting} {offset : Nat} {text : List Char}
    {front behind : List Mark} (h : marksFrom p s offset text = front ++ behind) :
    text = Mark.text front ++ Mark.text behind ∧
      front = marksAhead p (Mark.text behind) s offset (Mark.text front) ∧
      behind = marksFrom p (s.afterText p (Mark.text front) (Mark.text behind))
        (offset + byteLength (Mark.text front)) (Mark.text behind) := by
  have htext := congrArg Mark.text h
  rw [text_marksFrom, Mark.text_append] at htext
  rw [htext, marksFrom_append, Nesting.afterMarks_marksAhead] at h
  have hlength : (marksAhead p (Mark.text behind) s offset (Mark.text front)).length =
      front.length := by
    rw [length_marksAhead, Mark.text, List.length_map]
  obtain ⟨hfront, hbehind⟩ := List.append_inj h hlength
  exact ⟨htext, hfront.symm, hbehind.symm⟩

theorem last_of_mem_marksAhead {p : Profile} {ahead : List Char} {s : Nesting} {offset : Nat}
    {text : List Char} {m : Mark} (h : m ∈ marksAhead p ahead s offset text) :
    m.after.last = some (m.char, m.role) := by
  obtain ⟨_, behind, -, -, hstep⟩ := Nesting.exists_of_mem_marksAhead h
  show (m.after, m.role).1.last = some (m.char, (m.after, m.role).2)
  rw [← hstep]
  rfl

/-- Behind a text that is empty or goes as far as the end of a line, a word may begin. -/
theorem Nesting.atWord_afterText {p : Profile} {ahead : List Char} {s : Nesting}
    {text : List Char} (hs : s.AtWord)
    (ends : ∀ m ∈ (marksAhead p ahead s 0 text).getLast?, m.endsLine = true) :
    (s.afterText p text ahead).AtWord := by
  rw [afterText, afterMarks]
  cases hlast : (marksAhead p ahead s 0 text).getLast? with
  | none => exact hs
  | some m =>
    rw [ Option.map_some, Option.getD_some]
    exact Mark.atWord_of_endsLine (ends m hlast)
      (last_of_mem_marksAhead (List.mem_of_getLast? hlast))

/-! ### Where a logical line stands -/

/-- The logical line stands in a text between the marks `front` and `behind`, each of which is
nothing or goes as far as the end of a line. Only what the end of the text leaves open is left open
by a line. -/
structure LogicalLine.StandsAt (p : Profile) (text : List Char) (l : LogicalLine)
    (front run behind : List Mark) : Prop where
  marks_eq : marks p text = front ++ run ++ behind
  front_ends : ∀ m ∈ front.getLast?, m.endsLine = true
  behind_ends : ∀ m ∈ behind.head?, m.endsLine = true
  text_eq : l.text = Mark.text run
  line_eq : l.line = lineAfter 1 (Mark.text front)
  leftOpen_eq : l.leftOpen =
    if behind = [] then ((Nesting.start 1).afterText p text []).outermostOpen? else none

theorem LogicalLine.StandsAt.append_eq {p : Profile} {text : List Char} {l : LogicalLine}
    {front run behind : List Mark} (h : l.StandsAt p text front run behind) :
    text = Mark.text front ++ l.text ++ Mark.text behind := by
  have htext := congrArg Mark.text h.marks_eq
  rwa [text_marks, Mark.text_append, Mark.text_append, ← h.text_eq] at htext

/-- A logical line ends in front of a newline or at the end of the text. -/
theorem LogicalLine.StandsAt.eq_newline_of_behind {p : Profile} {text : List Char}
    {l : LogicalLine} {front run behind : List Mark} (h : l.StandsAt p text front run behind) :
    ∀ c ∈ (Mark.text behind).head?, c = '\n' := by
  intro c hc
  rw [Mark.text, List.head?_map] at hc
  obtain ⟨m, hm, rfl⟩ := Option.map_eq_some_iff.1 hc
  exact (Mark.endsLine_iff.1 (h.behind_ends m hm)).1

/-- The state in which a part of a text begins that stands between marks, and what is read from
there. -/
theorem exists_start_of_marks {p : Profile} {text : List Char} {front run behind : List Mark}
    (h : marks p text = front ++ run ++ behind) (ends : ∀ m ∈ front.getLast?, m.endsLine = true) :
    ∃ s offset, s.AtWord ∧ '\n' ∉ s.lineSoFar ∧ s.line = lineAfter 1 (Mark.text front) ∧
      run = marksAhead p (Mark.text behind) s offset (Mark.text run) ∧
      behind = marksFrom p (s.afterText p (Mark.text run) (Mark.text behind))
        (offset + byteLength (Mark.text run)) (Mark.text behind) ∧
      (Nesting.start 1).afterText p text [] =
        (s.afterText p (Mark.text run) (Mark.text behind)).afterText p (Mark.text behind) [] := by
  rw [List.append_assoc] at h
  obtain ⟨htext, hfront, hrest⟩ := marksFrom_eq_append h
  obtain ⟨-, hrun, hbehind⟩ := marksFrom_eq_append hrest.symm
  refine ⟨_, _, Nesting.atWord_afterText (Nesting.atWord_start 1) (hfront ▸ ends),
    Nesting.newline_not_mem_lineSoFar_afterText List.not_mem_nil, Nesting.line_afterText .., hrun,
    hbehind, ?_⟩
  rw [htext, Nesting.afterText_append, List.append_nil, Mark.text_append,
    Nesting.afterText_append, List.append_nil]

theorem exists_of_pieces_endsLine {ms run : List Mark} {before after : List (List Mark)}
    (h : pieces (fun m _ ↦ m.endsLine) ms = before ++ run :: after) :
    ∃ front behind, ms = front ++ run ++ behind ∧ (∀ m ∈ front.getLast?, m.endsLine = true) ∧
      (∀ m ∈ behind.head?, m.endsLine = true) ∧ (behind = [] ↔ after = []) := by
  obtain ⟨front, behind, hms, hfirst, hfront, hlast, hbehind⟩ := exists_of_pieces_eq h
  refine ⟨front, behind, hms, fun m hm ↦ ?_, fun m hm ↦ ?_, fun hnil ↦ ?_, hlast⟩
  · by_cases hbefore : before = []
    · simp [hfirst hbefore] at hm
    · obtain ⟨n, hn, -, hends⟩ := hfront hbefore
      rwa [Option.mem_unique hm hn]
  · by_cases hafter : after = []
    · simp [hlast hafter] at hm
    · obtain ⟨n, hn, -, hends⟩ := hbehind hafter
      rwa [Option.mem_unique hm hn]
  · by_contra hafter
    obtain ⟨n, hn, -⟩ := hbehind hafter
    simp [hnil] at hn

/-- What stands in front of a line is empty or ends with a newline. -/
theorem eq_newline_of_endsLine {front : List Mark}
    (ends : ∀ m ∈ front.getLast?, m.endsLine = true) :
    ∀ c ∈ (Mark.text front).getLast?, c = '\n' := by
  intro c hc
  rw [Mark.text, List.getLast?_map] at hc
  obtain ⟨m, hm, rfl⟩ := Option.map_eq_some_iff.1 hc
  exact (Mark.endsLine_iff.1 (ends m hm)).1

/-- Behind the end of a line nothing is open. -/
theorem Nesting.isBalanced_afterMarks {s : Nesting} {ms : List Mark}
    (balanced : s.isBalanced = true) (ends : ∀ m ∈ ms.getLast?, m.endsLine = true) :
    (s.afterMarks ms).isBalanced = true := by
  cases hlast : ms.getLast? with
  | none => rwa [afterMarks, hlast]
  | some m =>
    rw [afterMarks, hlast]
    exact (Mark.endsLine_iff.1 (ends m hlast)).2.2

/-- A run that is not blank has a mark. -/
theorem ne_nil_of_visible {run : List Mark} (h : (!isBlank (Mark.text run)) = true) :
    run ≠ [] := by
  rintro rfl
  exact absurd h (by decide)

/-- What follows the last end of a line counts as a line only if it has a character, since nothing
is open behind the end of a line. -/
theorem ne_nil_of_counts {s : Nesting} {ms run : List Mark} (balanced : s.isBalanced = true)
    (last : (pieces (fun m _ ↦ m.endsLine) ms).getLast? = some run)
    (counts : (!isBlank (Mark.text run) || (s.afterMarks ms).outermostOpen?.isSome) = true) :
    run ≠ [] := by
  rintro rfl
  obtain ⟨before, hpieces⟩ := List.getLast?_eq_some_iff.1 last
  obtain ⟨front, behind, hms, hfront, -, hnil⟩ := exists_of_pieces_endsLine hpieces
  rw [hnil.2 rfl, List.append_nil, List.append_nil] at hms
  rw [← hms] at hfront
  have hbalanced := Nesting.isBalanced_afterMarks balanced hfront
  rw [Nesting.outermostOpen?_of_isBalanced hbalanced] at counts
  exact absurd counts (by decide)

/-- A run of marks that is a line of its own begins where what stands in front of it ends. -/
theorem line_ofMarks {p : Profile} {text : List Char} {front run behind : List Mark} {line : Nat}
    {leftOpen : Option OpenConstruct} (h : marks p text = front ++ run ++ behind)
    (ends : ∀ m ∈ front.getLast?, m.endsLine = true) (full : run ≠ []) :
    (LogicalLine.ofMarks line leftOpen run).line = lineAfter 1 (Mark.text front) := by
  obtain ⟨s, offset, -, -, hline, hrun, -⟩ := exists_start_of_marks h ends
  rw [hrun, LogicalLine.ofMarks_marksAhead, hline]
  simpa [Mark.text] using full

/-- Every logical line of a text stands in it. -/
theorem exists_standsAt {p : Profile} {text : List Char} {l : LogicalLine}
    (h : l ∈ logicalLines p text) : ∃ front run behind, l.StandsAt p text front run behind := by
  have hne := pieces_ne_nil (fun m _ ↦ m.endsLine) (marks p text)
  have hsplit := List.dropLast_append_getLast hne
  simp only [logicalLines, List.mem_append, List.mem_map, List.mem_filter, Option.mem_toList] at h
  rcases h with ⟨run, ⟨hrun, hvisible⟩, rfl⟩ | ⟨run, ⟨hrun, hcounts⟩, rfl⟩
  · obtain ⟨before, after, hdropLast⟩ := List.append_of_mem hrun
    rw [hdropLast, List.append_assoc, List.cons_append] at hsplit
    obtain ⟨front, behind, hmarks, hfront, hbehind, hnil⟩ := exists_of_pieces_endsLine hsplit.symm
    have hinner : behind ≠ [] := fun h ↦ absurd (hnil.1 h) (by simp)
    exact ⟨front, run, behind, hmarks, hfront, hbehind, rfl,
      line_ofMarks hmarks hfront (ne_nil_of_visible hvisible), (if_neg hinner).symm⟩
  · have hfull := ne_nil_of_counts (Nesting.isBalanced_start 1) hrun hcounts
    obtain rfl := Option.some_inj.1 ((List.getLast?_eq_some_getLast hne).symm.trans hrun)
    rw [outermostOpen?_afterMarks]
    obtain ⟨front, behind, hmarks, hfront, hbehind, hnil⟩ := exists_of_pieces_endsLine hsplit.symm
    obtain rfl := hnil.2 rfl
    exact ⟨front, _, [], hmarks, hfront, hbehind, rfl, line_ofMarks hmarks hfront hfull,
      (if_pos rfl).symm⟩

/-! ### The end of a line -/

namespace Nesting

variable {p : Profile} {s t : Nesting}

theorem outermostOpen?_eq_none_iff :
    s.outermostOpen? = none ↔ s.groups = [] ∧ s.openSpan? = none := by
  have hgroup : s.openGroup? = none ↔ s.groups = [] := by
    rw [openGroup?, Option.map_eq_none_iff, List.getLast?_eq_none_iff]
  rw [← hgroup, outermostOpen?]
  cases s.openGroup? with
  | none => simp
  | some g =>
    cases s.openSpan? with
    | none => simp
    | some i =>
      dsimp only
      split <;> simp

/-- A newline that ends a line has nothing open in front of it. -/
theorem outermostOpen?_of_endsLine {rest : List Char}
    (literal : (s.step p '\n' rest).2 ≠ .escaped)
    (balanced : (s.step p '\n' rest).1.isBalanced = true) : s.outermostOpen? = none := by
  obtain ⟨hmode, hgroups, hdocs, hready⟩ := isBalanced_iff.1 balanced
  rw [outermostOpen?_eq_none_iff]
  obtain ⟨t, role, hreaction, hstep⟩ := exists_reaction p s '\n' rest
  simp only [hstep] at literal hmode hgroups hdocs hready
  cases hreaction with
  | endLine _ hcode =>
    rw [groups_endCodeLine] at hgroups
    rw [hereDocs_endCodeLine] at hdocs
    refine ⟨hgroups, ?_⟩
    rcases hcode with hcode | hcode <;> simp [openSpan?, hcode, show s.hereDocs = [] from hdocs]
  | endHereDocLine _ hinside =>
    simp only [inHereDoc, if_true] at hgroups hdocs
    refine ⟨hgroups, ?_⟩
    -- The line in front of the newline is the end of the only document, or there was none.
    by_cases hend : s.atHereDocEnd = true
    · cases hwaiting : s.hereDocs with
      | nil => simp [openSpan?, hinside, hwaiting]
      | cons doc docs => simp_all [openSpan?]
    · simp_all [openSpan?]
  | _ => simp_all [enter, openGroup, Bracket.ofCloser?]

theorem Like.depth (h : s.Like t) : s.depth = t.depth := by
  simpa [Nesting.depth] using congrArg List.length h.groups

/-- If one of two states that are alike leaves nothing open, neither does the other. -/
theorem Like.outermostOpen?_eq_none (h : s.Like t) (closed : s.outermostOpen? = none) :
    t.outermostOpen? = none := by
  rw [outermostOpen?_eq_none_iff] at closed ⊢
  obtain ⟨hgroups, hspan⟩ := closed
  have hhead : s.hereDocs.head? = none → t.hereDocs.head? = none := by
    rw [List.head?_eq_none_iff, List.head?_eq_none_iff, ← List.length_eq_zero_iff,
      ← List.length_eq_zero_iff, h.length_hereDocs]
    exact id
  refine ⟨List.isEmpty_iff.1 (h.isEmpty_groups ▸ List.isEmpty_iff.2 hgroups), ?_⟩
  unfold openSpan? at hspan ⊢
  rw [← h.mode, ← h.length_hereDocs]
  cases hmode : s.mode with
  | code | comment =>
    simp only [hmode, Option.map_eq_none_iff] at hspan ⊢
    exact hhead hspan
  | hereDoc =>
    have hline := h.lineSoFar.resolve_left (by simp [hmode, Mode.IsOutsideBodies])
    simp only [hmode] at hspan ⊢
    rw [← h.atHereDocEnd hline]
    split
    · rfl
    · next hwaits =>
      rw [if_neg hwaits, Option.map_eq_none_iff] at hspan
      rw [Option.map_eq_none_iff]
      exact hhead hspan
  | _ => simp [hmode] at hspan

end Nesting

/-! ### The line on its own -/

/-- What reading answers: the character, its class, and how many groups are open behind it. -/
def Mark.answer (m : Mark) : Char × CharRole × Nat :=
  (m.char, m.role, m.depth)

theorem Mark.Related.answer {bytes : Nat} {m n : Mark} (h : Mark.Related Nesting.Like bytes m n) :
    m.answer = n.answer := by
  rw [Mark.answer, Mark.answer, h.char, h.role, depth, depth, h.after.depth]

namespace LogicalLine.StandsAt

variable {p : Profile} {text : List Char} {l : LogicalLine} {front run behind : List Mark}

/-- In front of a complete line a word may begin, behind it nothing is open, and what stands behind
it was not looked at. -/
theorem exists_start (h : l.StandsAt p text front run behind) (complete : l.leftOpen = none) :
    ∃ s offset, s.AtWord ∧ run = marksFrom p s offset l.text ∧
      (s.afterText p l.text []).outermostOpen? = none := by
  obtain ⟨s, offset, hs, hline, -, hrun, hbehind, hafter⟩ :=
    exists_start_of_marks h.marks_eq h.front_ends
  rw [← h.text_eq] at hrun hbehind hafter
  refine ⟨s, offset, hs, ?_⟩
  -- At the end of the text nothing is open because the line is complete, and anywhere else because
  -- the newline behind the line ends a statement.
  cases behind with
  | nil =>
    have hopen := h.leftOpen_eq
    rw [if_pos rfl, complete] at hopen
    rw [show Mark.text [] = [] from rfl] at hrun hafter
    rw [marksAhead_nil] at hrun
    refine ⟨hrun, ?_⟩
    rw [hopen, hafter, Nesting.afterText_nil]
  | cons m behind =>
    obtain ⟨hchar, hliteral, hbalanced⟩ := Mark.endsLine_iff.1 (h.behind_ends m rfl)
    set u := s.afterText p l.text (Mark.text (m :: behind)) with hu
    have htext : Mark.text (m :: behind) = '\n' :: Mark.text behind := by
      rw [← hchar]
      rfl
    rw [htext, marksFrom_cons, List.cons.injEq] at hbehind
    rw [hbehind.1] at hliteral hbalanced
    have hclosed : u.outermostOpen? = none :=
      Nesting.outermostOpen?_of_endsLine hliteral hbalanced
    have hdone : ¬ u.Waits :=
      Nesting.not_waits_of_outermostOpen? (Nesting.newline_not_mem_lineSoFar_afterText hline)
        hclosed
    rw [hu, htext] at hdone
    rw [htext, Nesting.marksAhead_congr offset _ atLineEnd_nil hline hdone, marksAhead_nil] at hrun
    exact ⟨hrun,
      by rw [← Nesting.afterText_congr _ atLineEnd_nil hline hdone, ← htext, ← hu, hclosed]⟩

end LogicalLine.StandsAt

/-- A complete logical line, read on its own from whatever line, is read as it was read in its
text, and its end leaves nothing open. -/
theorem answers_logicalLine {p : Profile} {text : List Char} {l : LogicalLine}
    (h : l ∈ logicalLines p text) (complete : l.leftOpen = none) :
    ∃ front run behind, l.StandsAt p text front run behind ∧
      ∀ line, (marks p l.text line).map Mark.answer = run.map Mark.answer ∧
        ((Nesting.start line).afterMarks (marks p l.text line)).outermostOpen? = none := by
  obtain ⟨front, run, behind, hstands⟩ := exists_standsAt h
  obtain ⟨s, offset, hs, hrun, hclosed⟩ := hstands.exists_start complete
  refine ⟨front, run, behind, hstands, fun line ↦ ?_⟩
  have alike := (Nesting.atWord_start line).like hs
  have hmarks := forall₂_marksFrom (fun h c rest ↦ h.step c rest) alike 0 offset l.text (p := p)
  rw [Nat.zero_add, ← hrun] at hmarks
  constructor
  · refine List.forall₂_eq_eq_eq ▸ ?_
    exact List.forall₂_map_left_iff.2
      (List.forall₂_map_right_iff.2 (hmarks.imp fun _ _ h ↦ h.answer))
  · have alike' := (hs.like (Nesting.atWord_start line)).afterText (p := p) l.text []
    have hafter := alike'.outermostOpen?_eq_none hclosed
    rwa [Nesting.afterText, marksAhead_nil] at hafter

/-- A document that ends with its delimiter has ended, in the file behind a newline and on its own
at the end of the text. -/
theorem answers_logicalLine_of_hereDoc :
    ∃ front run behind,
      (⟨"cat <<E\n\x7d\nE".toList, 2, none⟩ : LogicalLine).StandsAt Dialect.bash.profile
          "ls\ncat <<E\n\x7d\nE\nls\n".toList front run behind ∧
        ∀ line,
          (marks Dialect.bash.profile "cat <<E\n\x7d\nE".toList line).map Mark.answer =
              run.map Mark.answer ∧
            ((Nesting.start line).afterMarks
              (marks Dialect.bash.profile "cat <<E\n\x7d\nE".toList line)).outermostOpen? = none :=
  answers_logicalLine (by decide +kernel) rfl

end ShellCatalog
