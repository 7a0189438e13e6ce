import ShellCatalog.Proofs.EndOfText
import ShellCatalog.Proofs.FunctionHeader
import ShellCatalog.Proofs.TruncatedFile

/-!
# A missing final newline

Editors differ on whether the last line of a file ends with a newline. It makes no difference to
what the file defines, nor to whether its end is reported as inside a construct, unless the text
ends with an escape that would take the newline.

**Two predicates agree.** The end of a text is judged by what it leaves open
(`Nesting.outermostOpen?`), the end of a line by whether the state behind its newline is balanced
(`Nesting.isBalanced`). A newline closes comments and the body of a document whose delimiter stands
in front of it, and nothing else (`Nesting.isBalanced_step_newline`).

**An open end is open on the same line.** The newline may change which construct is reported, since
it takes an ended document off the queue. The logical line that is left open still begins where it
did (`length_le_of_cut`), so the same text stands in front of it.
-/

namespace ShellCatalog

namespace Nesting

variable {p : Profile} {s : Nesting}

/-! ### The newline behind a text -/

/-- Nothing is open when there is no group, no quote, and no document but one that ends here. -/
theorem outermostOpen?_eq_none_iff_openHereDocs :
    s.outermostOpen? = none ↔ s.groups = [] ∧ s.mode.IsQuiet ∧ s.openHereDocs = [] := by
  rw [outermostOpen?_eq_none_iff]
  refine and_congr_right fun _ ↦ ?_
  cases hmode : s.mode with
  | code | comment => simp [openSpan?, openHereDocs, Mode.IsQuiet, hmode]
  | hereDoc =>
    cases hdocs : s.hereDocs with
    | nil => simp [openSpan?, openHereDocs, Mode.IsQuiet, hmode, hdocs]
    | cons doc docs =>
      by_cases hend : s.atHereDocEnd = true <;>
        simp [openSpan?, openHereDocs, Mode.IsQuiet, hmode, hdocs, hend]
  | _ => simp [openSpan?, Mode.IsQuiet, hmode]

/-- Behind a newline outside quotes a line of code begins, or a line of a body. -/
structure AtLineStart (s : Nesting) : Prop where
  mode : s.mode = if s.hereDocs = [] then .code else .hereDoc
  lineSoFar : s.hereDocs ≠ [] → s.lineSoFar = []

theorem atLineStart_endCodeLine (code : s.mode = .code) : s.endCodeLine.AtLineStart := by
  rcases endCodeLine_cases s with ⟨hdocs, h⟩ | ⟨hdocs, h⟩ <;> rw [h]
  · exact ⟨by rw [code, if_pos hdocs], fun h ↦ absurd hdocs h⟩
  · exact ⟨(if_neg hdocs).symm, fun _ ↦ rfl⟩

theorem atLineStart_inHereDoc (s : Nesting) : (inHereDoc s '\n').1.AtLineStart := by
  refine ⟨?_, fun _ ↦ by simp [inHereDoc]⟩
  simp [inHereDoc, List.isEmpty_iff]

/-- A newline ends code and comments alike. -/
theorem react_newline {d : Dialect} (ready : s.escaping = false)
    (hmode : s.mode = .code ∨ s.mode = .comment) (rest : List Char) :
    s.react d.profile '\n' rest = (({ s with mode := .code } : Nesting).endCodeLine, .code) := by
  obtain ⟨hescape, hcomment⟩ := d.escape_ne_of_mem (c := '\n') (by decide)
  rcases hmode with hmode | hmode
  · have hs : ({ s with mode := .code } : Nesting) = s := by rw [← hmode]
    rw [hs]
    simp [react, inCode, ready, hmode, hescape.symm, hcomment.symm]
  · simp [react, ready, hmode]

/-- A newline that is not escaped ends comments and documents, and nothing else. -/
theorem step_newline_of_ready {d : Dialect} (ready : s.escaping = false) (rest : List Char) :
    (s.step d.profile '\n' rest).1.escaping = false ∧
      (s.step d.profile '\n' rest).1.groups = s.groups ∧
      (s.mode.IsQuiet ∧ (s.step d.profile '\n' rest).1.AtLineStart ∧
          (s.step d.profile '\n' rest).1.hereDocs = s.openHereDocs ∨
        ¬ s.mode.IsQuiet ∧ ¬ (s.step d.profile '\n' rest).1.mode.IsQuiet) := by
  obtain ⟨hescape, hcomment⟩ := d.escape_ne_of_mem (c := '\n') (by decide)
  cases hmode : s.mode with
  | code | comment =>
    have hstart := atLineStart_endCodeLine (s := { s with mode := .code }) rfl
    have hready : ({ s with mode := .code } : Nesting).endCodeLine.escaping = false := by
      rw [escaping_endCodeLine, ready]
    have hopen : s.openHereDocs = s.hereDocs := by simp [openHereDocs, hmode]
    rw [step, react_newline ready (by simp [hmode]), hopen]
    exact ⟨hready, groups_endCodeLine _, .inl ⟨by simp [Mode.IsQuiet],
      ⟨hstart.mode, hstart.lineSoFar⟩, hereDocs_endCodeLine _⟩⟩
  | hereDoc =>
    have hstart := atLineStart_inHereDoc s
    have hreact : s.react d.profile '\n' rest = inHereDoc s '\n' := by simp [react, ready, hmode]
    rw [step, hreact]
    refine ⟨by simp [inHereDoc, ready], by simp [inHereDoc],
      .inl ⟨.inr (.inr rfl), ⟨hstart.mode, hstart.lineSoFar⟩, ?_⟩⟩
    simp [inHereDoc, openHereDocs, hmode]
  | single => simp [step, react, inQuotes, ready, hmode, Mode.IsQuiet]
  | double =>
    simp [step, react, inDoubleQuotes, inQuotes, ready, hmode, Mode.IsQuiet, hescape.symm]
  | ansi => simp [step, react, inQuotes, ready, hmode, Mode.IsQuiet]
  | backquote => simp [step, react, inQuotes, ready, hmode, Mode.IsQuiet]
  | blockComment progress =>
    cases progress <;> simp [step, react, inBlockComment, ready, hmode, Mode.IsQuiet]
  | hereString quote => simp [step, react, inHereString, ready, hmode, Mode.IsQuiet]

/-- Behind the newline the state is balanced if and only if nothing was open in front of it. -/
theorem isBalanced_step_newline {d : Dialect} (ready : s.escaping = false) (rest : List Char) :
    (s.step d.profile '\n' rest).1.isBalanced = true ↔ s.outermostOpen? = none := by
  obtain ⟨hready, hgroups, hcases⟩ := step_newline_of_ready ready rest (d := d)
  set t := (s.step d.profile '\n' rest).1
  rw [isBalanced_iff, outermostOpen?_eq_none_iff_openHereDocs, hgroups]
  rcases hcases with ⟨hquiet, hstart, hdocs⟩ | ⟨hquoted, hquoted'⟩
  · rw [← hdocs]
    refine ⟨fun h ↦ ⟨h.2.1, hquiet, h.2.2.1⟩, fun h ↦ ⟨?_, h.1, h.2.2, hready⟩⟩
    rw [hstart.mode, if_pos h.2.2]
  · exact ⟨fun h ↦ absurd (.inl h.1) hquoted', fun h ↦ absurd h.2.1 hquoted⟩

/-- Behind the newline something is open if and only if something was open in front of it. -/
theorem outermostOpen?_step_newline {d : Dialect} (ready : s.escaping = false)
    (full : ∀ doc ∈ s.hereDocs, doc.delimiter ≠ []) (rest : List Char) :
    (s.step d.profile '\n' rest).1.outermostOpen? = none ↔ s.outermostOpen? = none := by
  rw [← isBalanced_step_newline ready rest (d := d)]
  refine ⟨fun hclosed ↦ ?_, outermostOpen?_of_isBalanced⟩
  obtain ⟨hready, hgroups, hcases⟩ := step_newline_of_ready ready rest (d := d)
  set t := (s.step d.profile '\n' rest).1
  obtain ⟨hnone, hquiet, hopen⟩ := outermostOpen?_eq_none_iff_openHereDocs.1 hclosed
  obtain ⟨hstart, hdocs⟩ : t.AtLineStart ∧ t.hereDocs = s.openHereDocs := by
    rcases hcases with ⟨-, hstart, hdocs⟩ | ⟨-, hquoted⟩
    · exact ⟨hstart, hdocs⟩
    · exact absurd hquiet hquoted
  -- No line of a body has been read behind the newline, so no document ends there.
  have hnil : t.hereDocs = [] := by
    by_contra hwaiting
    cases hqueue : t.hereDocs with
    | nil => exact hwaiting hqueue
    | cons doc docs =>
      have hdoc : doc ∈ s.hereDocs := by
        have hmem : doc ∈ s.openHereDocs := hdocs ▸ hqueue ▸ List.mem_cons_self
        unfold openHereDocs at hmem
        split at hmem
        · exact List.mem_of_mem_tail hmem
        · exact hmem
      have hgoes : t.atHereDocEnd = false := by
        simpa [atHereDocEnd, hqueue, HereDoc.isEndedBy, hstart.lineSoFar hwaiting] using
          (full doc hdoc).symm
      simp [openHereDocs, hgoes, hqueue] at hopen
  rw [isBalanced_iff]
  exact ⟨by rw [hstart.mode, if_pos hnil], hnone, hnil, hready⟩

/-- Every announced document has a word to wait for. -/
theorem delimiter_ne_nil_step {c : Char} {rest : List Char}
    (full : ∀ doc ∈ s.hereDocs, doc.delimiter ≠ []) :
    ∀ doc ∈ (s.step p c rest).1.hereDocs, doc.delimiter ≠ [] := by
  intro doc hdoc
  rcases hereDocs_step p s c rest with heq | ⟨new, hnew, heq⟩ | ⟨-, heq⟩
  · exact full doc (heq ▸ hdoc)
  · rw [heq, List.mem_append, List.mem_singleton] at hdoc
    rcases hdoc with hdoc | rfl
    · exact full doc hdoc
    · exact (HereDoc.of_announced? hnew).1
  · exact full doc (List.mem_of_mem_tail (heq ▸ hdoc))

theorem delimiter_ne_nil_afterText {text ahead : List Char}
    (full : ∀ doc ∈ s.hereDocs, doc.delimiter ≠ []) :
    ∀ doc ∈ (s.afterText p text ahead).hereDocs, doc.delimiter ≠ [] :=
  afterText_invariant (motive := fun t ↦ ∀ doc ∈ t.hereDocs, doc.delimiter ≠ [])
    (fun _ _ h ↦ delimiter_ne_nil_step h) full text ahead

/-- Only an escape makes a character literal. -/
theorem role_ne_escaped {c : Char} {rest : List Char} (ready : s.escaping = false) :
    (s.step p c rest).2 ≠ .escaped := by
  obtain ⟨t, role, hreaction, hstep⟩ := exists_reaction p s c rest
  rw [hstep]
  show role ≠ .escaped
  cases hreaction with
  | escaped h => exact absurd (h.symm.trans ready) (by decide)
  | _ => decide

end Nesting

/-! ### The end of a text and the end of its last line -/

section Text

variable {d : Dialect} {text : List Char}

/-- A text leaves something open if and only if the state behind its last line is not balanced, and
if and only if the text with its last newline leaves something open. -/
theorem outermostOpen?_finalNewline
    (literal : ((Nesting.start 1).afterText d.profile text []).escaping = false) :
    (((Nesting.start 1).afterText d.profile (text ++ ['\n']) []).isBalanced = true ↔
        ((Nesting.start 1).afterText d.profile text []).outermostOpen? = none) ∧
      (((Nesting.start 1).afterText d.profile (text ++ ['\n']) []).outermostOpen? = none ↔
        ((Nesting.start 1).afterText d.profile text []).outermostOpen? = none) := by
  have hstart : '\n' ∉ (Nesting.start 1).lineSoFar := List.not_mem_nil
  have hline (ahead : List Char) :
      '\n' ∉ ((Nesting.start 1).afterText d.profile text ahead).lineSoFar :=
    Nesting.newline_not_mem_lineSoFar_afterText hstart
  rw [Nesting.afterText_append, Nesting.afterText_cons, Nesting.afterText_nil, List.append_nil,
    List.append_nil]
  by_cases hwaits : ((Nesting.start 1).afterText d.profile text ['\n']).Waits
  · -- The look-ahead met the newline, and then both ends are inside something.
    have hopen : ((Nesting.start 1).afterText d.profile text []).outermostOpen? ≠ none := by
      intro hclosed
      rw [Nesting.afterText, Nesting.marksAhead_newline 0 hstart literal hclosed] at hwaits
      exact Nesting.not_waits_of_outermostOpen? (hline []) hclosed hwaits
    have hopen' : (((Nesting.start 1).afterText d.profile text ['\n']).step d.profile '\n'
        []).1.outermostOpen? ≠ none := fun hclosed ↦
      Nesting.not_waits_of_outermostOpen? (Nesting.newline_not_mem_lineSoFar_step (hline _)) hclosed
        (Nesting.waits_step (hline _) hwaits)
    exact ⟨iff_of_false (mt Nesting.outermostOpen?_of_isBalanced hopen') hopen,
      iff_of_false hopen' hopen⟩
  · have full : ∀ doc ∈ ((Nesting.start 1).afterText d.profile text []).hereDocs,
        doc.delimiter ≠ [] := Nesting.delimiter_ne_nil_afterText (by simp [Nesting.start])
    rw [Nesting.afterText_congr [] atLineEnd_nil hstart hwaits]
    exact ⟨Nesting.isBalanced_step_newline literal [],
      Nesting.outermostOpen?_step_newline literal full []⟩

/-- The newline behind a text that leaves nothing open ends its last line. -/
theorem exists_marks_newline
    (literal : ((Nesting.start 1).afterText d.profile text []).escaping = false)
    (closed : ((Nesting.start 1).afterText d.profile text []).outermostOpen? = none) :
    ∃ m, marks d.profile (text ++ ['\n']) = marks d.profile text ++ [m] ∧ m.endsLine = true := by
  have hbalanced := (outermostOpen?_finalNewline literal).1.2 closed
  rw [Nesting.afterText_append, Nesting.afterText_cons, Nesting.afterText_nil, List.append_nil,
    List.append_nil, Nesting.afterText,
    Nesting.marksAhead_newline 0 List.not_mem_nil literal closed,
    Nesting.afterMarks_marksAhead] at hbalanced
  have hmarks := marksFrom_append d.profile (.start 1) 0 text ['\n']
  rw [Nesting.marksAhead_newline 0 List.not_mem_nil literal closed, Nesting.afterMarks_marksAhead,
    marksAhead_nil, marksFrom_cons, marksFrom_nil] at hmarks
  exact ⟨_, hmarks, Mark.endsLine_iff.2 ⟨rfl, Nesting.role_ne_escaped literal, hbalanced⟩⟩

/-- A text that leaves nothing open holds the same lines with its last newline. -/
theorem logicalLines_newline
    (literal : ((Nesting.start 1).afterText d.profile text []).escaping = false)
    (closed : ((Nesting.start 1).afterText d.profile text []).outermostOpen? = none) :
    logicalLines d.profile (text ++ ['\n']) = logicalLines d.profile text := by
  obtain ⟨m, hmarks, hm⟩ := exists_marks_newline literal closed
  have hblank : LogicalLine.ofRun? [] = none := rfl
  rw [logicalLines_of_complete ((outermostOpen?_finalNewline literal).2.2 closed),
    logicalLines_of_complete closed, hmarks, pieces_append_separator _ _ hm, List.filterMap_append]
  simp [pieces, hblank]

/-! ### Ends inside a construct -/

/-- A text that ends inside a construct is cut nowhere behind the beginning of its last line. -/
theorem length_le_of_cut {p : Profile} {text start front more : List Char} {l : LogicalLine}
    (last : (logicalLines p text).getLast? = some l) (isOpen : l.leftOpen ≠ none)
    (hstart : text = start ++ l.text) (hfront : text = front ++ more)
    (cut : ∀ m ∈ (marks p front).getLast?, m.endsLine = true) : front.length ≤ start.length := by
  have hclosed : ((Nesting.start 1).afterText p front []).outermostOpen? = none :=
    Nesting.outermostOpen?_of_isBalanced (atWord_of_cut cut).balanced
  have hl := List.mem_of_getLast? last
  rw [hfront, logicalLines_append cut, List.mem_append] at hl
  rcases hl with hl | hl
  · exact absurd (complete_of_outermostOpen? hclosed l hl) isOpen
  · obtain ⟨k, hk, rfl⟩ := List.mem_map.1 hl
    obtain ⟨before, run, behind, hstands⟩ := exists_standsAt hk
    have hmore := congrArg (List.length ∘ Mark.text) hstands.marks_eq
    have hlength := congrArg List.length (hstart.symm.trans hfront)
    have htext : (k.later (front.count '\n')).text = Mark.text run := hstands.text_eq
    simp only [Function.comp_apply, text_marks, Mark.text_append, List.length_append] at hmore
    simp only [htext, List.length_append] at hlength
    omega

/-- The last line of a text that ends inside a construct. -/
theorem exists_getLast?_of_open {p : Profile} {text : List Char}
    (isOpen : ((Nesting.start 1).afterText p text []).outermostOpen? ≠ none) :
    ∃ l, (logicalLines p text).getLast? = some l ∧ l.leftOpen ≠ none := by
  obtain ⟨complete, rest, hlines, -, -, hrest, hnil⟩ := exists_logicalLines_eq p text
  have hfull : rest ≠ [] := fun h ↦ isOpen (hnil h)
  refine ⟨rest.getLast hfull, ?_, ?_⟩
  · rw [hlines, List.getLast?_append_of_ne_nil _ hfull, List.getLast?_eq_some_getLast hfull]
  · rwa [hrest _ (List.getLast_mem hfull)]

/-- The newline behind a text that ends inside a construct goes to its last line. -/
theorem logicalLines_newline_of_open
    (literal : ((Nesting.start 1).afterText d.profile text []).escaping = false)
    (isOpen : ((Nesting.start 1).afterText d.profile text []).outermostOpen? ≠ none) :
    ∃ ls l l', logicalLines d.profile text = ls ++ [l] ∧
      logicalLines d.profile (text ++ ['\n']) = ls ++ [l'] ∧
      l.leftOpen ≠ none ∧ l'.leftOpen ≠ none := by
  obtain ⟨l, last, hl⟩ := exists_getLast?_of_open isOpen
  obtain ⟨l', last', hl'⟩ :=
    exists_getLast?_of_open (mt (outermostOpen?_finalNewline literal).2.1 isOpen)
  obtain ⟨start, htext, -, cut, hlines⟩ := logicalLines_eq_concat last hl
  obtain ⟨start', htext', -, cut', hlines'⟩ := logicalLines_eq_concat last' hl'
  -- The last line of the longer text is more than a newline, so its beginning lies in the text.
  have hvisible : isBlank l'.text = false :=
    visible_of_mem_logicalLines (List.mem_of_getLast? last')
  obtain ⟨rest, hrest⟩ : ∃ rest, l'.text = rest ++ ['\n'] := by
    rcases List.eq_nil_or_concat l'.text with hnil | ⟨rest, c, hconcat⟩
    · exact absurd (hnil ▸ hvisible) (by decide)
    · rw [List.concat_eq_append] at hconcat
      have hend := congrArg List.getLast? htext'
      rw [hconcat, ← List.append_assoc, List.getLast?_concat, List.getLast?_concat] at hend
      exact ⟨rest, by rw [hconcat, Option.some.inj hend]⟩
  have hfront : text = start' ++ rest := by
    rw [hrest, ← List.append_assoc] at htext'
    exact List.append_cancel_right htext'
  have hshort := length_le_of_cut last hl htext hfront cut'
  have hlong := length_le_of_cut last' hl' htext' (by rw [← List.append_assoc, ← htext]) cut
  obtain rfl : start = start' :=
    (List.append_inj (htext.symm.trans hfront) (Nat.le_antisymm hlong hshort)).1
  exact ⟨_, l, l', hlines, hlines', hl, hl'⟩

end Text

/-! ### The findings -/

/-- Behind complete lines, a line that is left open adds one report and nothing else. -/
theorem Findings.ofLines_concat_of_open {p : Profile} {file : Path} {l : LogicalLine}
    {t : OpenConstruct} (ls : List LogicalLine) (isOpen : l.leftOpen = some t) :
    ofLines p file none (ls ++ [l]) =
      ⟨(ofLines p file none ls).definitions,
        (ofLines p file none ls).diagnostics ++ [.unterminated file t]⟩ := by
  rw [ofLines_append]
  simp only [ofLines, LogicalLine.behind_of_leftOpen p _ isOpen, Extraction.ofLine, isOpen, append,
    List.append_nil]

/-- A missing final newline changes neither what a file defines nor what it reports, apart from the
name of the construct that its end is inside of: the end of the text is inside one if and only if
the state behind the newline is not balanced. The text may not end with an escape, which would take
the newline. -/
theorem findings_finalNewline {d : Dialect} (path : Path) {text : List Char}
    (literal : ((Nesting.start 1).afterText d.profile text []).escaping = false) :
    ∃ f g, (⟨path, text⟩ : Source).findings (some d) = .ok f ∧
      (⟨path, text ++ ['\n']⟩ : Source).findings (some d) = .ok g ∧
      f.definitions = g.definitions ∧
      f.diagnostics.filter (!·.isUnterminated) = g.diagnostics.filter (!·.isUnterminated) ∧
      ((∃ c ∈ f.diagnostics, c.isUnterminated = true) ↔
        ∃ c ∈ g.diagnostics, c.isUnterminated = true) ∧
      (((Nesting.start 1).afterText d.profile text []).outermostOpen? = none ↔
        ((Nesting.start 1).afterText d.profile (text ++ ['\n']) []).isBalanced = true) := by
  have hends := (outermostOpen?_finalNewline literal).1.symm
  by_cases hclosed : ((Nesting.start 1).afterText d.profile text []).outermostOpen? = none
  · have hsame : Findings.ofSource d.profile ⟨path, text ++ ['\n']⟩ =
        Findings.ofSource d.profile ⟨path, text⟩ := by
      rw [Findings.ofSource, Findings.ofSource, logicalLines_newline literal hclosed]
    exact ⟨_, _, rfl, congrArg Except.ok hsame, rfl, rfl, Iff.rfl, hends⟩
  · obtain ⟨ls, l, l', hlines, hlines', hl, hl'⟩ := logicalLines_newline_of_open literal hclosed
    obtain ⟨t, ht⟩ := Option.ne_none_iff_exists'.1 hl
    obtain ⟨t', ht'⟩ := Option.ne_none_iff_exists'.1 hl'
    have hfirst : Findings.ofSource d.profile ⟨path, text⟩ = _ :=
      (congrArg _ hlines).trans (Findings.ofLines_concat_of_open ls ht)
    have hsecond : Findings.ofSource d.profile ⟨path, text ++ ['\n']⟩ = _ :=
      (congrArg _ hlines').trans (Findings.ofLines_concat_of_open ls ht')
    refine ⟨_, _, congrArg Except.ok hfirst, congrArg Except.ok hsecond, rfl, ?_, ?_, hends⟩
    · simp [Diagnostic.isUnterminated]
    · simp [Diagnostic.isUnterminated]

/-- The delimiter on the last line ends its document with a newline and without one. -/
theorem findings_finalNewline_of_hereDoc :
    ∃ g, (⟨⟨"rc"⟩, "alias a=1\ncat <<E\nalias b=2\nE".toList ++ ['\n']⟩ : Source).findings
        (some .bash) = .ok g ∧
      g.definitions = [⟨"a", .alias, "1", ⟨"rc"⟩, 1⟩] ∧
      ¬ ∃ c ∈ g.diagnostics, c.isUnterminated = true := by
  obtain ⟨f, g, hf, hg, hdefinitions, -, hreports, -⟩ :=
    @findings_finalNewline .bash ⟨"rc"⟩ "alias a=1\ncat <<E\nalias b=2\nE".toList
      (by decide +kernel)
  have hfirst : (⟨⟨"rc"⟩, "alias a=1\ncat <<E\nalias b=2\nE".toList⟩ : Source).findings
      (some .bash) = .ok ⟨[⟨"a", .alias, "1", ⟨"rc"⟩, 1⟩], []⟩ := by decide +kernel
  rw [hfirst] at hf
  cases hf
  refine ⟨g, hg, hdefinitions.symm, ?_⟩
  rw [← hreports]
  simp

end ShellCatalog
