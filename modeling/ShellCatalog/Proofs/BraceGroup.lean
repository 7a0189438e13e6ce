import ShellCatalog.Proofs.InsideGroup
import ShellCatalog.Proofs.LineByLine
import ShellCatalog.Proofs.NeutralLines

/-!
# A brace group around a file

A brace group runs in the current shell, so a file in a brace group should define what the file
defines, one line later. It does, with one exception.

**The group is a single statement** (`Extraction.ofText_groupText`): nothing ends in it, because its
brace stays open up to the last character. So the inside of the group is read as a text in one
piece, and the file in lines.

**Both ways find the same in every line** (`Extraction.found_ofText_eq_separately`), but only a file
hands a header on that dangles at the end of a line. Where a file joins such a header with the body
that begins the next line, the group reads the two as statements of their own: the function is lost,
and a body between braces is looked into as if it were a group.
-/

namespace ShellCatalog

/-! ### Lines without a header between them -/

namespace Findings

/-- No header is joined with a body: wherever the lines are divided, no header dangles in front or
no body begins behind. -/
def JoinsNone (p : Profile) (file : Path) (dangling : Option LogicalLine)
    (ls : List LogicalLine) : Prop :=
  ∀ i, danglingAfter p file dangling (ls.take i) = none ∨ opensBody p (ls.drop i) = false

variable {p : Profile} {file : Path}

/-- If no header is joined with a body, lines are read one by one. -/
theorem ofLines_eq_separately {dangling : Option LogicalLine} {ls : List LogicalLine}
    (settled : JoinsNone p file dangling ls) :
    ofLines p file dangling ls = separately p file ls := by
  induction ls generalizing dangling with
  | nil => rfl
  | cons l ls ih =>
    have hrest : JoinsNone p file (Extraction.ofLine p file (l.behind p dangling)).dangling ls :=
      fun i ↦ settled (i + 1)
    have hfirst : l.behind p dangling = l := LogicalLine.behind_of_not_opensBody (settled 0)
    rw [ofLines, ih hrest, hfirst]
    rfl

end Findings

/-! ### The text of a group -/

section Group

variable {d : Dialect} {text : List Char}

/-- The text of a group without the end of its line: a text between braces. -/
def groupText (text : List Char) : List Char :=
  '{' :: '\n' :: (text ++ ['}'])

/-- Nothing ends inside the text of a group, and nothing is open behind it. -/
theorem isUnbroken_groupText {ahead : List Char} (inside : IsInside d.profile text ('}' :: ahead)) :
    (∀ m ∈ marksAhead d.profile ahead (.start 1) 0 (groupText text), m.IsUnbroken) ∧
      ((Nesting.start 1).afterText d.profile (groupText text) ahead).isBalanced = true := by
  obtain ⟨run, closing, hmarks, -, hrun, hchar, hrole, hbalanced⟩ :=
    marksAhead_block (s := .start 1) inside Nesting.justStarted_start 0
  constructor
  · intro m hm
    rw [groupText, hmarks] at hm
    rcases List.mem_append.1 hm with hm | hm
    · exact Mark.isUnbroken_of_depth (hrun m hm)
    · rw [List.mem_singleton.1 hm]
      exact Mark.isUnbroken_of_code hrole (by rw [hchar]; decide)
  · rw [Nesting.afterText, groupText, hmarks, Nesting.afterMarks_append]
    exact hbalanced

/-- A file that is the text of a group is one logical line. -/
theorem logicalLines_groupText (inside : IsInside d.profile text ['}', '\n']) :
    logicalLines d.profile (groupText text ++ ['\n']) = [⟨groupText text, 1, none⟩] := by
  obtain ⟨hunbroken, hbalanced⟩ := isUnbroken_groupText inside
  exact logicalLines_of_isBalanced rfl hunbroken hbalanced

/-- The text of a group is one statement. -/
theorem statements_groupText (inside : IsInside d.profile text ['}']) :
    statements d.profile (groupText text) 1 = [⟨0, 1, groupText text⟩] := by
  refine statements_of_isUnbroken (fun m hm ↦ (isUnbroken_groupText inside).1 m ?_) (by decide) ?_
  · rwa [marksAhead_nil]
  · exact trimEnd_concat ('{' :: '\n' :: text) (by decide)

/-- An opening brace is no keyword, no head of a case command and no pattern, so nothing is dropped
in front of it. -/
theorem afterLeading?_groupText (d : Dialect) (text : List Char) :
    afterLeading? d.profile (groupText text) = none := by
  have hbrace := d.escape_ne_of_mem (c := '{') (by decide)
  have hkeyword : afterKeyword? d.profile (groupText text) = none := by
    have hcut : cutWhile (fun c ↦ !isSpace c && c != ';') (groupText text) =
        (['{'], '\n' :: (text ++ ['}'])) := rfl
    rw [afterKeyword?, hcut]
    cases d <;> rfl
  have hpattern : casePatternLength? d.profile (groupText text) = none := by
    rw [groupText, casePatternLength?_of_ne (by decide), marks, marksFrom_cons,
      Nesting.step_opener _ rfl rfl rfl hbrace.1 hbrace.2]
    exact @casePatternFrom_stopped .before [] _ _ (by decide) (by simp) rfl (by decide)
  have hhead : caseHead? (groupText text) = none := rfl
  rw [afterLeading?, hkeyword, afterCase?, hhead, hpattern]
  split <;> rfl

/-- The inside of a group is the text with the newline in front of it. -/
theorem braceGroup?_groupText (sh : d ≠ .pwsh) (inside : IsInside d.profile text ['}']) :
    braceGroup? d.profile (groupText text) = some ('\n' :: text) := by
  have hgroups : d.profile.braceGroups = true := by
    cases d with
    | pwsh => exact absurd rfl sh
    | bash | zsh | sh => rfl
  rw [braceGroup?, if_pos ⟨hgroups, rfl⟩, groupText, Body.ofText_block inside]

/-- A group defines what its inside defines. -/
theorem Extraction.ofText_groupText (sh : d ≠ .pwsh) (file : Path)
    (inside : IsInside d.profile text ['}']) :
    ofText d.profile file (groupText text) 1 = ofText d.profile file ('\n' :: text) 1 := by
  have hcommand : (⟨0, 1, groupText text⟩ : Statement).command d.profile =
      ⟨0, 1, groupText text⟩ :=
    Statement.command_of_none (afterLeading?_groupText d text)
  rw [ofText_eq, statements_groupText inside]
  simp [ofStatement, hcommand, braceGroup?_groupText sh inside, concat]

end Group

/-- A brace group around a file of whole lines that leaves nothing open, and in which every closing
brace stands in a group, defines what the lines of the file define one by one, one line later. It
defines what the file does if no header in the file is joined with a body on another line. -/
theorem findings_braceGroup {d : Dialect} {path : Path} {text : List Char} (sh : d ≠ .pwsh)
    (ends : ∀ c ∈ text.getLast?, c = '\n')
    (balanced : ((Nesting.start 1).afterText d.profile text []).isBalanced = true)
    (paired : ∀ m ∈ marks d.profile text, m.IsPaired) :
    ∃ f g,
      (⟨path, text⟩ : Source).findings (some d) = .ok f ∧
      (⟨path, "\x7b\n".toList ++ text ++ "\x7d\n".toList⟩ : Source).findings (some d) = .ok g ∧
      g = (Findings.separately d.profile path (logicalLines d.profile text)).later 1 ∧
      (Findings.JoinsNone d.profile path none (logicalLines d.profile text) → g = f.later 1) := by
  have inside := isInside_of_balanced ends balanced paired
  have hlines : logicalLines d.profile ('\n' :: text) =
      (logicalLines d.profile text).map (LogicalLine.later 1) :=
    logicalLines_blank_append List.not_mem_nil rfl text
  have hclosed :
      ((Nesting.start 1).afterText d.profile ('\n' :: text) []).outermostOpen? = none := by
    refine outermostOpen?_of_complete fun l hl ↦ ?_
    rw [hlines] at hl
    obtain ⟨k, hk, rfl⟩ := List.mem_map.1 hl
    have hopen := complete_of_outermostOpen? (Nesting.outermostOpen?_of_isBalanced balanced) k hk
    simp [LogicalLine.later, hopen]
  have hgroup : Findings.ofSource d.profile ⟨path, "\x7b\n".toList ++ text ++ "\x7d\n".toList⟩ =
      (Findings.separately d.profile path (logicalLines d.profile text)).later 1 := by
    have hfile : "\x7b\n".toList ++ text ++ "\x7d\n".toList = groupText text ++ ['\n'] := by
      simp [groupText]
    rw [Findings.ofSource, hfile, logicalLines_groupText (inside _), Findings.ofLines_singleton]
    show (Extraction.ofText d.profile path (groupText text) 1).found = _
    rw [Extraction.ofText_groupText sh path (inside _),
      Extraction.found_ofText_eq_separately hclosed, hlines, Findings.separately_later]
  refine ⟨_, _, rfl, rfl, hgroup, fun settled ↦ ?_⟩
  rw [hgroup, Findings.ofSource, Findings.ofLines_eq_separately settled]

/-- In a group, a function is found one line later, and lost if its body begins on the line behind
its header. -/
theorem findings_braceGroup_of_functions :
    (⟨⟨"rc"⟩, "\x7b\n".toList ++ "f() \x7b :; \x7d\nalias a=1\n".toList ++ "\x7d\n".toList⟩ :
          Source).findings (some .bash) =
        .ok ⟨[⟨"f", .function, ":;", ⟨"rc"⟩, 2⟩, ⟨"a", .alias, "1", ⟨"rc"⟩, 3⟩], []⟩ ∧
      (⟨⟨"rc"⟩, "f()\n\x7b alias b=2; \x7d\n".toList⟩ : Source).findings (some .bash) =
        .ok ⟨[⟨"f", .function, "alias b=2;", ⟨"rc"⟩, 1⟩], []⟩ ∧
      (⟨⟨"rc"⟩, "\x7b\n".toList ++ "f()\n\x7b alias b=2; \x7d\n".toList ++ "\x7d\n".toList⟩ :
          Source).findings (some .bash) =
        .ok ⟨[⟨"b", .alias, "2", ⟨"rc"⟩, 3⟩], []⟩ := by
  refine ⟨?_, by decide +kernel, ?_⟩
  · obtain ⟨f, g, hf, hg, -, hsettled⟩ := @findings_braceGroup .bash ⟨"rc"⟩
      "f() \x7b :; \x7d\nalias a=1\n".toList (by decide)
      (fun c hc ↦ (Option.some_inj.1 hc).symm) (by decide +kernel) (by decide +kernel)
    have hlines : logicalLines Dialect.bash.profile "f() \x7b :; \x7d\nalias a=1\n".toList =
        [⟨"f() \x7b :; \x7d".toList, 1, none⟩, ⟨"alias a=1".toList, 2, none⟩] := by decide +kernel
    have hfile : (⟨⟨"rc"⟩, "f() \x7b :; \x7d\nalias a=1\n".toList⟩ : Source).findings
        (some .bash) =
        .ok ⟨[⟨"f", .function, ":;", ⟨"rc"⟩, 1⟩, ⟨"a", .alias, "1", ⟨"rc"⟩, 2⟩], []⟩ := by
      decide +kernel
    rw [hlines] at hsettled
    rw [hfile] at hf
    cases hf
    rw [hg, hsettled fun i ↦ ?_]
    · rfl
    · -- Behind the first line no header dangles, and behind the second there is no line.
      match i with
      | 0 => exact .inl rfl
      | 1 => exact .inl (by decide +kernel)
      | i + 2 => exact .inr (by simp [opensBody])
  · obtain ⟨f, g, -, hg, hlines, -⟩ := @findings_braceGroup .bash ⟨"rc"⟩
      "f()\n\x7b alias b=2; \x7d\n".toList (by decide)
      (fun c hc ↦ (Option.some_inj.1 hc).symm) (by decide +kernel) (by decide +kernel)
    have hseparately : Findings.separately Dialect.bash.profile ⟨"rc"⟩
        (logicalLines Dialect.bash.profile "f()\n\x7b alias b=2; \x7d\n".toList) =
          ⟨[⟨"b", .alias, "2", ⟨"rc"⟩, 2⟩], []⟩ := by decide +kernel
    rw [hlines, hseparately] at hg
    exact hg

end ShellCatalog
