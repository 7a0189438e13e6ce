import ShellCatalog.Findings
import ShellCatalog.Proofs.Dedent
import ShellCatalog.Proofs.FunctionHeader
import ShellCatalog.Proofs.Lookahead

/-!
# Functions are read back

A function that is written with its header, an opening brace, the lines of its body under one
indentation, and a closing brace is read back as one definition, whose body is the lines without
their indentation. Nothing inside the body is found.

**What is asked of the body is asked of one reading** (`IsInside`): behind an opening brace and a
newline, the lines never leave the group and leave nothing else open. The file, the statement and
the body are read separately, with different text behind the lines, but whole lines that leave
nothing open are read alike whatever follows (`IsInside.congr`). So the three readings meet the same
closing brace.
-/

namespace ShellCatalog

/-! ### The inside of a body -/

/-- The state behind an opening brace and a newline at the start of a text. -/
def bodyStart : Nesting :=
  { Nesting.start 1 with
    line := 2
    last := some ('\n', .code)
    groups := [⟨.brace, 1, none⟩] }

/-- An opening brace, a newline and the text are read without leaving the group of the brace, and
nothing but this group is open behind them. -/
structure IsInside (p : Profile) (text ahead : List Char) : Prop where
  within : ∀ m ∈ marksAhead p ahead (.start 1) 0 ('{' :: '\n' :: text), m.depth ≠ 0
  code : ((Nesting.start 1).afterText p ('{' :: '\n' :: text) ahead).mode = .code
  depth : ((Nesting.start 1).afterText p ('{' :: '\n' :: text) ahead).depth = 1
  docs : ((Nesting.start 1).afterText p ('{' :: '\n' :: text) ahead).hereDocs = []
  ready : ((Nesting.start 1).afterText p ('{' :: '\n' :: text) ahead).escaping = false

section Inside

variable {d : Dialect} {s : Nesting} {text : List Char}

/-- An opening brace and a newline in code lead into a body. -/
theorem marksAhead_brace (hs : s.JustStarted) (ahead : List Char) (offset : Nat)
    (text : List Char) :
    ∃ brace newline,
      marksAhead d.profile ahead s offset ('{' :: '\n' :: text) =
        brace :: newline :: marksAhead d.profile ahead bodyStart (offset + 2) text ∧
      brace.depth = 1 ∧ newline.depth = 1 := by
  obtain ⟨last, rfl⟩ := hs
  have hbrace := d.escape_ne_of_mem (c := '{') (by decide)
  have hline := d.escape_ne_of_mem (c := '\n') (by decide)
  rw [marksAhead_cons, Nesting.step_opener _ rfl rfl rfl hbrace.1 hbrace.2, marksAhead_cons,
    Nesting.step_newline _ rfl rfl rfl hline.1 hline.2]
  exact ⟨_, _, rfl, rfl, rfl⟩

theorem afterText_brace (hs : s.JustStarted) (text ahead : List Char) :
    s.afterText d.profile ('{' :: '\n' :: text) ahead =
      bodyStart.afterText d.profile text ahead := by
  obtain ⟨last, rfl⟩ := hs
  have hbrace := d.escape_ne_of_mem (c := '{') (by decide)
  have hline := d.escape_ne_of_mem (c := '\n') (by decide)
  rw [Nesting.afterText_cons, Nesting.step_opener _ rfl rfl rfl hbrace.1 hbrace.2,
    Nesting.afterText_cons, Nesting.step_newline _ rfl rfl rfl hline.1 hline.2]
  rfl

/-- Whole lines that are the inside of a body in front of one text are so in front of every
text. -/
theorem IsInside.congr_of_ends {ahead : List Char} (h : IsInside d.profile text ahead)
    (ends : ∀ c ∈ text.getLast?, c = '\n') (more : List Char) : IsInside d.profile text more := by
  obtain ⟨lines, hlines⟩ : ∃ lines, '{' :: '\n' :: text = lines ++ ['\n'] := by
    rcases List.eq_nil_or_concat text with rfl | ⟨lines, c, rfl⟩
    · exact ⟨['{'], rfl⟩
    · rw [List.concat_eq_append] at ends ⊢
      obtain rfl := ends c List.getLast?_concat
      exact ⟨'{' :: '\n' :: lines, rfl⟩
  have hline : '\n' ∉ (Nesting.start 1).lineSoFar := List.not_mem_nil
  have hdone : ¬ ((Nesting.start 1).afterText d.profile (lines ++ ['\n']) ahead).Waits := by
    rintro ⟨doc, hdoc, -⟩
    rw [← hlines, h.docs] at hdoc
    exact absurd hdoc List.not_mem_nil
  have hmarks := Nesting.marksAhead_lines_congr 0 ahead more hline hdone
  rw [← hlines] at hmarks
  have hafter : (Nesting.start 1).afterText d.profile ('{' :: '\n' :: text) ahead =
      (Nesting.start 1).afterText d.profile ('{' :: '\n' :: text) more :=
    congrArg (Nesting.start 1).afterMarks hmarks
  exact ⟨hmarks ▸ h.within, hafter ▸ h.code, hafter ▸ h.depth, hafter ▸ h.docs, hafter ▸ h.ready⟩

theorem IsInside.congr {ahead : List Char} (h : IsInside d.profile (text ++ ['\n']) ahead)
    (more : List Char) : IsInside d.profile (text ++ ['\n']) more :=
  h.congr_of_ends (by simp) more

/-- No mark of the inside of a body is outside the group. -/
theorem IsInside.depth_ne_zero {ahead : List Char} {offset : Nat} {m : Mark}
    (h : IsInside d.profile text ahead)
    (hm : m ∈ marksAhead d.profile ahead bodyStart offset text) : m.depth ≠ 0 := by
  obtain ⟨brace, newline, hmarks, -, -⟩ :=
    marksAhead_brace (d := d) Nesting.justStarted_start ahead 0 text
  obtain ⟨n, hn, -, -, -, hafter⟩ := exists_mem_marksAhead (0 + 2) hm
  have hdepth := h.within n (by
    rw [hmarks]
    exact List.mem_cons_of_mem _ (List.mem_cons_of_mem _ hn))
  rwa [Mark.depth, hafter] at hdepth

/-- Behind the inside of a body only the group of its brace is open. -/
theorem IsInside.groups {ahead : List Char} (h : IsInside d.profile text ahead) :
    (bodyStart.afterText d.profile text ahead).groups = [⟨.brace, 1, none⟩] := by
  have hwithin : bodyStart.StaysWithin d.profile text ahead :=
    fun m hm ↦ Nat.one_le_iff_ne_zero.2 (h.depth_ne_zero hm)
  obtain ⟨inner, hinner⟩ := Nesting.exists_groups_afterText hwithin
  have hdepth := h.depth
  rw [afterText_brace Nesting.justStarted_start, Nesting.depth, hinner,
    List.length_append] at hdepth
  have hnil : inner = [] := List.length_eq_zero_iff.1 (Nat.succ.inj hdepth)
  rw [hinner, hnil]
  rfl

/-- A block is a run of marks inside its group and the brace that closes it, behind which nothing is
open. -/
theorem marksAhead_block {ahead : List Char} (h : IsInside d.profile text ('}' :: ahead))
    (hs : s.JustStarted) (offset : Nat) :
    ∃ run closing,
      marksAhead d.profile ahead s offset ('{' :: '\n' :: (text ++ ['}'])) = run ++ [closing] ∧
      Mark.text run = '{' :: '\n' :: text ∧ (∀ m ∈ run, m.depth ≠ 0) ∧
      closing.char = '}' ∧ closing.role = .code ∧ closing.after.isBalanced = true := by
  have hbrace := d.escape_ne_of_mem (c := '}') (by decide)
  have hcode := h.code
  have hdocs := h.docs
  have hready := h.ready
  rw [afterText_brace Nesting.justStarted_start] at hcode hdocs hready
  set t := bodyStart.afterText d.profile text ('}' :: ahead) with ht
  have hclosing (offset : Nat) : marksAhead d.profile ahead t offset ['}'] =
      [⟨offset, '}', .code, t, { t with groups := [], last := some ('}', .code) }⟩] := by
    rw [marksAhead_cons, Nesting.step_closer _ hcode hready rfl h.groups hbrace.1 hbrace.2]
    rfl
  have hsplit : '{' :: '\n' :: (text ++ ['}']) = ('{' :: '\n' :: text) ++ ['}'] := rfl
  rw [hsplit, marksAhead_append, List.singleton_append, Nesting.afterMarks_marksAhead,
    afterText_brace hs, ← ht, hclosing]
  refine ⟨_, _, rfl, text_marksAhead .., fun m hm ↦ ?_, rfl, rfl, ?_⟩
  · obtain ⟨brace, newline, hmarks, hdepth, hdepth'⟩ :=
      marksAhead_brace hs ('}' :: ahead) offset text
    rw [hmarks] at hm
    rcases List.mem_cons.1 hm with rfl | hm
    · simp [hdepth]
    · rcases List.mem_cons.1 hm with rfl | hm
      · simp [hdepth']
      · exact h.depth_ne_zero hm
  · exact Nesting.isBalanced_iff.2 ⟨hcode, rfl, hdocs, hready⟩

/-- A brace, marks inside its group and a closing mark behind which nothing is open are a block. -/
theorem Body.ofText_of_marks {run : List Mark} {closing : Mark}
    (hmarks : marksAhead d.profile [] (.start 1) 0 ('{' :: text) = run ++ [closing])
    (hrun : ∀ m ∈ run, m.depth ≠ 0) (hbalanced : closing.after.isBalanced = true)
    {inner : List Char} (hinner : Mark.text run = '{' :: inner) :
    Body.ofText d.profile ('{' :: text) = .block inner 1 := by
  have hclosing : closing.depth = 0 := by
    rw [Mark.depth, Nesting.depth, (Nesting.isBalanced_iff.1 hbalanced).2.1, List.length_nil]
  have hbrace : d.profile.beginsBody '{' = true := by simp [Profile.beginsBody]
  cases run with
  | nil => exact absurd hinner (by simp [Mark.text])
  | cons brace run =>
    have hown : marks d.profile ('{' :: text) = brace :: (run ++ [closing]) := by
      rw [marks, ← marksAhead_nil, hmarks, List.cons_append]
    exact Body.ofText_eq_block_iff.2 ⟨rfl, '{', text, trimStart_cons _ (by decide), hbrace, brace,
      run, closing, [], hown, (List.cons.inj hinner).2,
      fun m hm ↦ hrun m (List.mem_cons_of_mem _ hm), hclosing⟩

/-- The body at the start of a block is the text between its braces. -/
theorem Body.ofText_block (h : IsInside d.profile text ['}']) :
    Body.ofText d.profile ('{' :: '\n' :: (text ++ ['}'])) = .block ('\n' :: text) 1 := by
  obtain ⟨run, closing, hmarks, htext, hrun, -, -, hbalanced⟩ :=
    marksAhead_block (s := .start 1) h Nesting.justStarted_start 0
  exact Body.ofText_of_marks hmarks hrun hbalanced htext

end Inside

/-! ### The text of a function -/

section Function

variable {d : Dialect} {style : HeaderStyle} {name text : List Char}

/-- The text of a function without the end of its line: the header, and the body between braces. -/
def functionText (style : HeaderStyle) (name text : List Char) : List Char :=
  style.write name ++ ' ' :: '{' :: '\n' :: (text ++ ['}'])

/-- Nothing ends inside the text of a function, and nothing is open behind it. -/
theorem isUnbroken_functionText {ahead : List Char} (style : HeaderStyle)
    (named : d.profile.functionNames.accepts name = true)
    (inside : IsInside d.profile text ('}' :: ahead)) :
    (∀ m ∈ marksAhead d.profile ahead (.start 1) 0 (functionText style name text), m.IsUnbroken) ∧
      ((Nesting.start 1).afterText d.profile (functionText style name text) ahead).isBalanced =
        true := by
  have hsolid := solidWord_of_mem_headerWords style named
  set more := '{' :: '\n' :: (text ++ ['}']) with hmore
  obtain ⟨last, hstarted⟩ := justStarted_afterText_write style (' ' :: more ++ ahead) named
  have hspace : ({ Nesting.start 1 with last := some (' ', .code) } : Nesting).JustStarted :=
    ⟨_, rfl⟩
  obtain ⟨run, closing, hmarks, htext, hrun, hchar, hrole, hbalanced⟩ :=
    marksAhead_block inside hspace (0 + byteLength (style.write name) + ' '.utf8Size)
  rw [← hmore] at hmarks
  have hafter : ({ Nesting.start 1 with last := some (' ', .code) } : Nesting).afterText d.profile
      more ahead = closing.after := by
    rw [← Nesting.afterMarks_marksAhead _ _ _ (0 + byteLength (style.write name) + ' '.utf8Size),
      hmarks, Nesting.afterMarks_append]
    rfl
  constructor
  · intro m hm
    rw [functionText, marksAhead_append, Nesting.afterMarks_marksAhead, hstarted, marksAhead_cons,
      Nesting.step_plain _ rfl rfl d.isPlain_space, hmarks] at hm
    rcases List.mem_append.1 hm with hm | hm
    · exact isUnbroken_of_mem_row d.isPlain_space hsolid (Nesting.atWord_start 1) hm
    · rcases List.mem_cons.1 hm with rfl | hm
      · exact Mark.isUnbroken_of_code rfl (by simp)
      · rcases List.mem_append.1 hm with hm | hm
        · exact Mark.isUnbroken_of_depth (hrun m hm)
        · rw [List.mem_singleton.1 hm]
          exact Mark.isUnbroken_of_code hrole (by rw [hchar]; decide)
  · rw [functionText, Nesting.afterText_append, hstarted, Nesting.afterText_cons,
      Nesting.step_plain _ rfl rfl d.isPlain_space, hafter, hbalanced]

/-- The text of a function defines it, and nothing else. -/
theorem Extraction.ofText_functionText (hstyle : style.isOf d = true) (file : Path)
    (named : d.profile.functionNames.accepts name = true)
    (inside : IsInside d.profile text ['}']) :
    ofText d.profile file (functionText style name text) 1 =
      ⟨[⟨.ofList name, .function, .ofList (Body.dedent ('\n' :: text)), file, 1⟩], [], none⟩ := by
  have hunbroken := (isUnbroken_functionText style named inside).1
  obtain ⟨c, rest, hword, hvisible⟩ :=
    (solidWord_of_mem_headerWords style named _ List.mem_cons_self).visible
  obtain ⟨more, htext⟩ : ∃ more, functionText style name text = c :: more :=
    ⟨_, by rw [functionText, HeaderStyle.write, row, hword]; rfl⟩
  have hkept : trimEnd (functionText style name text) = functionText style name text := by
    have hclosing : functionText style name text =
        (style.write name ++ ' ' :: '{' :: '\n' :: text) ++ ['}'] := by
      rw [functionText, List.append_assoc]
      rfl
    rw [hclosing]
    exact trimEnd_concat _ (by decide)
  have hsingle : statements d.profile (functionText style name text) 1 =
      [⟨0, 1, functionText style name text⟩] := by
    rw [htext] at hunbroken hkept ⊢
    refine statements_of_isUnbroken (fun m hm ↦ hunbroken m ?_) hvisible hkept
    rwa [marksAhead_nil]
  have hleading : afterLeading? d.profile (functionText style name text) = none :=
    afterLeading?_header style _ named
  have hgroup : braceGroup? d.profile (functionText style name text) = none :=
    braceGroup?_header style _ named
  obtain ⟨others, hwords⟩ := exists_words_header style ('{' :: '\n' :: (text ++ ['}'])) named
  rw [← functionText] at hwords
  have hheader : d.profile.header? (functionText style name text) =
      some ⟨name, '{' :: '\n' :: (text ++ ['}'])⟩ :=
    header?_write _ hstyle named
  rw [ofText_of_single file hsingle hleading hgroup, ofCommand]
  simp only [hwords, proposedAliases?_header, hheader, ofFunction, Body.ofText_block inside, define,
    Profile.nameRule, named, if_true]

/-- A file that is the text of a function is one logical line. -/
theorem logicalLines_functionText (style : HeaderStyle)
    (named : d.profile.functionNames.accepts name = true)
    (inside : IsInside d.profile text ['}', '\n']) :
    logicalLines d.profile (functionText style name text ++ ['\n']) =
      [⟨functionText style name text, 1, none⟩] := by
  obtain ⟨hunbroken, hbalanced⟩ := isUnbroken_functionText style named inside
  obtain ⟨c, rest, hword, hvisible⟩ :=
    (solidWord_of_mem_headerWords style named _ List.mem_cons_self).visible
  have hshown : isBlank (functionText style name text) = false := by
    rw [functionText, HeaderStyle.write, row, hword, isBlank]
    simp [hvisible]
  exact logicalLines_of_isBalanced hshown hunbroken hbalanced

end Function

/-- A function is read back from its text: one definition, with the lines of its body without their
indentation, and nothing else. -/
theorem findings_function {d : Dialect} {style : HeaderStyle} {name w : List Char}
    {lines : List (List Char)} {ahead : List Char} (path : Path) (hstyle : style.isOf d = true)
    (named : d.profile.functionNames.accepts name = true) (hw : ∀ c ∈ w, isIndent c = true)
    (single : ∀ line ∈ lines, '\n' ∉ line) (kept : ∀ line ∈ lines, trimEnd line = line)
    (flush : ∀ c, isIndent c = true → ∃ line ∈ lines, isBlank line = false ∧
      line.head? ≠ some c)
    (inside : IsInside d.profile (lines.flatMap (w ++ · ++ ['\n'])) ahead) :
    (⟨path, style.write name ++ " \x7b\n".toList ++ lines.flatMap (w ++ · ++ ['\n']) ++
        "\x7d\n".toList⟩ : Source).findings (some d) =
      .ok ⟨[⟨.ofList name, .function, .ofList (lines.flatMap (· ++ ['\n'])), path, 1⟩], []⟩ := by
  obtain ⟨text, htext⟩ : ∃ text, lines.flatMap (w ++ · ++ ['\n']) = text ++ ['\n'] := by
    obtain ⟨line, hline, -, -⟩ := flush ' ' rfl
    obtain ⟨others, last, rfl⟩ :=
      (List.eq_nil_or_concat' lines).resolve_left (List.ne_nil_of_mem hline)
    exact ⟨_, by rw [List.flatMap_append, List.flatMap_singleton, ← List.append_assoc]⟩
  have hbody : Body.dedent ('\n' :: (text ++ ['\n'])) = lines.flatMap (· ++ ['\n']) := by
    rw [← htext]
    exact Body.dedent_indented hw single kept flush
  rw [htext] at inside ⊢
  have hfile : style.write name ++ " \x7b\n".toList ++ (text ++ ['\n']) ++ "\x7d\n".toList =
      functionText style name (text ++ ['\n']) ++ ['\n'] := by
    simp [functionText]
  have hline : Extraction.ofLine d.profile path
      ⟨functionText style name (text ++ ['\n']), 1, none⟩ =
      ⟨[⟨.ofList name, .function, .ofList (lines.flatMap (· ++ ['\n'])), path, 1⟩], [], none⟩ := by
    rw [← hbody]
    exact Extraction.ofText_functionText hstyle path named (inside.congr _)
  show Except.ok (Findings.ofSource d.profile ⟨path, _⟩) = _
  rw [Findings.ofSource, hfile, logicalLines_functionText style named (inside.congr _),
    Findings.ofLines_of_forall (by simp [hline])]
  simp [hline]

/-- A body with a blank line and an inner function under two spaces. -/
theorem findings_function_of_inner_function :
    (⟨⟨"rc"⟩, "f() \x7b\n  if x\n  \n  \tg() \x7b a; \x7d\n\x7d\n".toList⟩ : Source).findings
        (some .bash) =
      .ok ⟨[⟨"f", .function, "if x\n\n\tg() \x7b a; \x7d\n", ⟨"rc"⟩, 1⟩], []⟩ := by
  let lines : List (List Char) := ["if x".toList, [], "\tg() \x7b a; \x7d".toList]
  have flush : ∀ c, isIndent c = true → ∃ line ∈ lines, isBlank line = false ∧
      line.head? ≠ some c := by
    intro c hc
    refine ⟨"if x".toList, List.mem_cons_self, by decide, ?_⟩
    rintro ⟨⟩
    exact absurd hc (by decide)
  have hdepths : (marksAhead Dialect.bash.profile [] (.start 1) 0
      ('{' :: '\n' :: lines.flatMap ("  ".toList ++ · ++ ['\n']))).all (·.depth != 0) = true := by
    decide
  have inside : IsInside Dialect.bash.profile (lines.flatMap ("  ".toList ++ · ++ ['\n'])) [] :=
    ⟨fun m hm ↦ by simpa using List.all_eq_true.1 hdepths m hm, by decide, by decide, by decide,
      by decide⟩
  have hwritten : HeaderStyle.parens.write ['f'] ++ " \x7b\n".toList ++
      lines.flatMap ("  ".toList ++ · ++ ['\n']) ++ "\x7d\n".toList =
        "f() \x7b\n  if x\n  \n  \tg() \x7b a; \x7d\n\x7d\n".toList := by decide
  have hbody : String.ofList (lines.flatMap (· ++ ['\n'])) = "if x\n\n\tg() \x7b a; \x7d\n" := by
    decide
  have h : (⟨⟨"rc"⟩, HeaderStyle.parens.write ['f'] ++ " \x7b\n".toList ++
      lines.flatMap ("  ".toList ++ · ++ ['\n']) ++ "\x7d\n".toList⟩ : Source).findings
        (some .bash) = _ :=
    findings_function ⟨"rc"⟩ rfl (by decide) (List.all_eq_true.1 (by decide)) (by decide)
      (by decide) flush inside
  rw [hwritten, hbody] at h
  exact h

end ShellCatalog
