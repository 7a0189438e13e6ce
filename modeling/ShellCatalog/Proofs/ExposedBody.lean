import ShellCatalog.Findings
import ShellCatalog.Proofs.SettledFront

/-!
# Bodies that are read as code

Where a front does not settle its statement, the body behind it is **exposed**. The files here put
one command line between the announcement of a here-document and its body. The document ends at a
line of blanks, so nothing visible stands behind the body.

**Such a file defines what its command would define if the body were code behind it**
(`findings_exposedFile`). So it hides its body from the reader of definitions only if the command
line settles its statement, whatever the body is.

## When a command covers its body

`SettlesLine` asks of a command line that its statement defines the same whatever lines follow, and
`IsCovering` that the bodies in these files may be exchanged. **The two are the same**
(`settlesLine_iff_isCovering`).

* Behind a blank command line the body begins a statement of its own, so such a line covers nothing
  (`IsCovering.not_isBlank`).
* Two bodies that a visible command tells apart need not have equally many lines. The shorter one is
  filled up with empty lines, which trimming takes away again (`trimEnd_emptyLines`), and the line
  of blanks is made longer than any line of either. Then one file is a rewriting of the other
  (`rewritten_exposedFile`), and they define different things.
-/

namespace ShellCatalog

/-- A command that awaits a document whose body ends at `width` spaces. -/
def announcement (width : Nat) : List Char :=
  "cat <<".toList ++ '\'' :: (List.replicate width ' ' ++ ['\''])

theorem announcement_eq (width : Nat) :
    announcement width = "cat <<".toList ++ '\'' :: (List.replicate width ' ' ++ ['\'']) := rfl

/-- The document that is awaited. -/
def announced (width : Nat) : HereDoc :=
  ⟨List.replicate width ' ', false, 1⟩

/-- What an extraction adds to the findings of its file. -/
def Extraction.findings (e : Extraction) : Findings :=
  ⟨e.definitions, e.diagnostics⟩

/-- Lines with their ends. -/
def linesText (lines : List (List Char)) : List Char :=
  lines.flatMap (· ++ ['\n'])

/-- The line that holds the announcement and `command`, the body, and the blanks that end it. -/
def exposedLine (width : Nat) (command : List Char) (lines : List (List Char)) : List Char :=
  announcement width ++ ';' :: (command ++ '\n' :: (linesText lines ++ List.replicate width ' '))

/-- The file that consists of this line. -/
def exposedFile (width : Nat) (command : List Char) (lines : List (List Char)) : List Char :=
  exposedLine width command lines ++ ['\n']

/-- A command line that nothing ends but a newline: plain characters that separate nothing. -/
def IsFlat (p : Profile) (command : List Char) : Prop :=
  ∀ c ∈ command, p.isPlain c = true ∧ c ∉ [';', '|', '&']

/-- Lines that are shorter than the one that ends the body. -/
def AreShort (width : Nat) (lines : List (List Char)) : Prop :=
  ∀ line ∈ lines, '\n' ∉ line ∧ line.length < width

instance (width : Nat) (lines : List (List Char)) : Decidable (AreShort width lines) :=
  inferInstanceAs (Decidable (∀ line ∈ lines, '\n' ∉ line ∧ line.length < width))

namespace Nesting

variable {p : Profile} {s : Nesting}

/-! ### Reading the announcement -/

/-- The first of two angle brackets in code announces a document. -/
theorem step_announce {rest : List Char} {doc : HereDoc} (code : s.mode = .code)
    (ready : s.escaping = false) (escape : p.escape ≠ '<') (comment : p.comment ≠ '<')
    (blocks : p.blockComments = false) (docs : p.hereDocs = true) (groups : s.groups = [])
    (first : s.lastChar? ≠ some '<') (hdoc : HereDoc.announced? s.line ('<' :: rest) = some doc) :
    s.step p '<' rest =
      ({ s with hereDocs := s.hereDocs ++ [doc], last := some ('<', .code) }, .code) := by
  simp [step, react, inCode, announceHereDoc, inArithmetic, code, ready, escape.symm,
    comment.symm, blocks, docs, groups, first, hdoc]

/-- The second one is code. -/
theorem step_secondBar (rest : List Char) (code : s.mode = .code) (ready : s.escaping = false)
    (escape : p.escape ≠ '<') (comment : p.comment ≠ '<') (blocks : p.blockComments = false)
    (second : s.lastChar? = some '<') :
    s.step p '<' rest = ({ s with last := some ('<', .code) }, .code) := by
  simp [step, react, inCode, code, ready, escape.symm, comment.symm, blocks, second,
    Bracket.ofOpener?, Bracket.ofCloser?]

/-- The end of a line of code behind which a body begins. -/
theorem step_lastNewline (rest : List Char) (code : s.mode = .code) (ready : s.escaping = false)
    (waiting : s.hereDocs ≠ []) (escape : p.escape ≠ '\n') (comment : p.comment ≠ '\n') :
    s.step p '\n' rest =
      ({ s with
          line := s.line + 1, mode := .hereDoc, lineSoFar := [], last := some ('\n', .code) },
        .code) := by
  have hempty : s.hereDocs.isEmpty = false := by simpa using waiting
  simp [step, react, inCode, endCodeLine, code, ready, hempty, escape.symm, comment.symm]

/-- The newline behind the line that ends the only body. -/
theorem step_endBody {doc : HereDoc} (rest : List Char) (inside : s.mode = .hereDoc)
    (ready : s.escaping = false) (docs : s.hereDocs = [doc]) (ended : s.atHereDocEnd = true) :
    s.step p '\n' rest =
      ({ s with
          line := s.line + 1, mode := .code, hereDocs := [], lineSoFar := []
          last := some ('\n', .hereBody) },
        .hereBody) := by
  obtain ⟨line, mode, openedOn, escaping, last, groups, hereDocs, lineSoFar⟩ := s
  dsimp only at inside ready docs
  subst inside ready docs
  simp [step, react, inHereDoc, ended]

end Nesting

/-- A delimiter between single quotes is the text between them. -/
theorem HereDoc.announced?_singleQuoted {line : Nat} {delimiter : List Char} {c : Char}
    (rest : List Char) (full : delimiter ≠ []) (unquoted : '\'' ∉ delimiter)
    (hc : HereDoc.endsWord c = true) :
    HereDoc.announced? line ("<<".toList ++ '\'' :: (delimiter ++ '\'' :: c :: rest)) =
      some ⟨delimiter, false, line⟩ := by
  have hend : HereDoc.delimiterFrom none (c :: rest) = [] := by
    have hne : c ≠ '\\' ∧ c ≠ '\'' ∧ c ≠ '"' := by
      refine ⟨?_, ?_, ?_⟩ <;> (rintro rfl; exact absurd hc (by decide))
    rw [HereDoc.delimiterFrom_of_ne rest hne.1]
    simp [hne, hc]
  have hquoted (text : List Char) (h : '\'' ∉ text) :
      HereDoc.delimiterFrom (some '\'') (text ++ '\'' :: c :: rest) = text := by
    induction text with
    | nil => rw [List.nil_append, HereDoc.delimiterFrom_quoted, if_pos rfl, hend]
    | cons d text ih =>
      rw [List.mem_cons, not_or] at h
      rw [List.cons_append, HereDoc.delimiterFrom_quoted, if_neg (Ne.symm h.1), ih h.2]
  have hword : HereDoc.delimiterFrom none
      (('\'' :: (delimiter ++ '\'' :: c :: rest)).dropWhile isIndent) = delimiter := by
    rw [List.dropWhile_cons_of_neg (by decide), HereDoc.delimiterFrom_of_ne _ (by decide),
      if_pos (.inl rfl), hquoted delimiter unquoted]
  show HereDoc.announced? line ('<' :: '<' :: '\'' :: (delimiter ++ '\'' :: c :: rest)) = _
  rw [HereDoc.announced?_of_head_ne (by simp) (by simp), HereDoc.await?, hword]
  cases delimiter with
  | nil => exact absurd rfl full
  | cons => rfl

namespace Nesting

/-- The state behind the announcement. -/
def behindAnnouncement (width : Nat) : Nesting :=
  { start 1 with last := some ('\'', .quoteDelim), hereDocs := [announced width] }

variable {d : Dialect} {width : Nat}

/-- The state behind the operator of the announcement. -/
def behindOperator (width : Nat) : Nesting :=
  { start 1 with last := some ('<', .code), hereDocs := [announced width] }

/-- The operator announces the document that the quoted blanks behind it end. -/
theorem reads_operator (rest : List Char) (sh : d ≠ .pwsh) (wide : 0 < width) (offset : Nat) :
    let ahead := '\'' :: (List.replicate width ' ' ++ '\'' :: ';' :: rest)
    (start 1).afterText d.profile "cat <<".toList ahead = behindOperator width ∧
      ∀ m ∈ marksAhead d.profile ahead (start 1) offset "cat <<".toList, m.IsUnbroken := by
  intro ahead
  have hprofile : d.profile.escape = '\\' ∧ d.profile.comment = '#' ∧
      d.profile.blockComments = false ∧ d.profile.hereDocs = true := by
    cases d with
    | pwsh => exact absurd rfl sh
    | bash | zsh | sh => exact ⟨rfl, rfl, rfl, rfl⟩
  obtain ⟨hescape, hcomment, hblocks, hdocs⟩ := hprofile
  have hfull : List.replicate width ' ' ≠ [] := by simp [Nat.ne_of_gt wide]
  have hunquoted : '\'' ∉ List.replicate width ' ' :=
    fun h ↦ absurd (List.eq_of_mem_replicate h) (by decide)
  have hplain : ∀ c ∈ "cat ".toList, d.profile.isPlain c = true := by
    have hall : "cat ".toList.all d.profile.isPlain = true := by cases d <;> decide
    exact List.all_eq_true.1 hall
  set s : Nesting := { start 1 with last := some (' ', .code) } with hs
  have hcat (ahead : List Char) : (start 1).afterText d.profile "cat ".toList ahead = s :=
    afterText_plain ahead rfl rfl hplain
  have hfirst : s.step d.profile '<' ('<' :: ahead) = (behindOperator width, .code) :=
    step_announce rfl rfl (by simp [hescape]) (by simp [hcomment]) hblocks hdocs rfl (by decide)
      (HereDoc.announced?_singleQuoted rest hfull hunquoted (by decide))
  have hsecond : (behindOperator width).step d.profile '<' ahead = (behindOperator width, .code) :=
    step_secondBar ahead rfl rfl (by simp [hescape]) (by simp [hcomment]) hblocks rfl
  have htext : "cat <<".toList = "cat ".toList ++ ['<', '<'] := rfl
  have hfree : "cat ".toList.all (· ∉ [';', '|', '&', '\n']) = true := by decide
  rw [htext, afterText_append, hcat, afterText_cons, marksAhead_append, afterMarks_marksAhead, hcat,
    marksAhead_cons, List.singleton_append, hfirst, afterText_cons, marksAhead_cons,
    List.nil_append, hsecond]
  refine ⟨rfl, fun m hm ↦ ?_⟩
  rw [List.mem_append, List.mem_cons, List.mem_cons] at hm
  rcases hm with hm | rfl | rfl | hm
  · obtain ⟨hrole, hchar, -⟩ := mem_marksAhead_plain rfl rfl hplain hm
    exact Mark.isUnbroken_of_code hrole (of_decide_eq_true (List.all_eq_true.1 hfree m.char hchar))
  · exact Mark.isUnbroken_of_code rfl (by simp)
  · exact Mark.isUnbroken_of_code rfl (by simp)
  · simp [marksAhead] at hm

/-- Behind the announcement its document is awaited, and no statement ends in it. -/
theorem reads_announcement (rest : List Char) (sh : d ≠ .pwsh) (wide : 0 < width) :
    (start 1).afterText d.profile (announcement width) (';' :: rest) = behindAnnouncement width ∧
      ∀ m ∈ marksAhead d.profile (';' :: rest) (start 1) 0 (announcement width),
        m.IsUnbroken := by
  obtain ⟨hoperator, hunbroken⟩ := reads_operator rest sh wide 0
  have hescape : d.profile.escape ≠ '\'' := by cases d <;> decide
  have hunquoted : '\'' ∉ List.replicate width ' ' :=
    fun h ↦ absurd (List.eq_of_mem_replicate h) (by decide)
  have hline : lineAfter 1 (List.replicate width ' ') = 1 := lineAfter_of_not_mem 1 fun h ↦
    absurd (List.eq_of_mem_replicate h) (by decide)
  have hahead : '\'' :: (List.replicate width ' ' ++ ['\'']) ++ ';' :: rest =
      '\'' :: (List.replicate width ' ' ++ '\'' :: ';' :: rest) := by simp
  have hdollar : (behindOperator width).lastChar? ≠ some '$' := by simp [behindOperator, lastChar?]
  have hat : (behindOperator width).lastChar? ≠ some '@' := by simp [behindOperator, lastChar?]
  rw [announcement_eq, afterText_append, marksAhead_append, afterMarks_marksAhead, hahead,
    hoperator]
  constructor
  · rw [afterText_singleQuoted _ rfl rfl hescape hdollar hat hunquoted]
    show ({ behindOperator width with
      line := lineAfter 1 (List.replicate width ' '), openedOn := 1, last := _ } : Nesting) = _
    rw [hline]
    rfl
  · intro m hm
    rcases List.mem_append.1 hm with hm | hm
    · exact hunbroken m hm
    · exact (isSolid_of_mem_singleQuoted rfl rfl hescape hdollar hat hunquoted hm).1

/-- A line of a body may begin: the document is awaited, and nothing else is open. -/
structure AtBody (width : Nat) (s : Nesting) : Prop where
  inside : s.mode = .hereDoc
  ready : s.escaping = false
  fresh : s.lineSoFar = []
  last : s.lastChar? = some '\n'
  docs : s.hereDocs = [announced width]
  groups : s.groups = []

theorem AtBody.outerBody? {s : Nesting} (h : s.AtBody width) :
    s.outerBody? [true] = some (announced width) := by
  rw [Nesting.outerBody?, if_pos ⟨h.inside, h.ready, h.fresh, h.last, rfl⟩, h.docs]
  rfl

theorem AtBody.behindBodyLine {s : Nesting} (h : s.AtBody width) :
    s.behindBodyLine.AtBody width :=
  { h with fresh := rfl, last := rfl }

/-- The first line is read up to the body, and no statement ends in the command. -/
theorem reads_command {p : Profile} {command : List Char} (width : Nat) (ahead : List Char)
    (offset : Nat) (flat : IsFlat p command) (escape : p.escape ≠ '\n')
    (comment : p.comment ≠ '\n') (separator : p.isPlain ';' = true) :
    (∃ sep : Mark, ∃ run : List Mark,
      marksAhead p ahead (behindAnnouncement width) offset (';' :: (command ++ ['\n'])) =
        sep :: run ∧
      Mark.text run = command ++ ['\n'] ∧ sep.endsLine = false ∧
      (∀ next, sep.separatesStatements next = true) ∧ ∀ m ∈ run, m.IsUnbroken ∧ m.line = 1) ∧
    ((behindAnnouncement width).afterText p (';' :: (command ++ ['\n'])) ahead).AtBody width := by
  set s : Nesting := { behindAnnouncement width with last := some (';', .code) } with hs
  have hplain : ∀ c ∈ command, p.isPlain c = true := fun c hc ↦ (flat c hc).1
  have hsep (rest : List Char) : (behindAnnouncement width).step p ';' rest = (s, .code) :=
    step_plain rest rfl rfl separator
  have hcommand := afterText_plain (p := p) (s := s) (['\n'] ++ ahead) rfl rfl hplain
  set t := s.afterText p command (['\n'] ++ ahead) with ht
  have hnewline := step_lastNewline (p := p) (s := t) ([] ++ ahead) (by rw [hcommand]; rfl)
    (by rw [hcommand]; rfl) (by rw [hcommand]; simp [hs, behindAnnouncement]) escape comment
  rw [marksAhead_cons, hsep, afterText_cons, hsep, marksAhead_append, afterText_append,
    afterMarks_marksAhead, ← ht, marksAhead_cons, afterText_cons, hnewline]
  refine ⟨⟨_, _, rfl, ?_, by simp [Mark.endsLine], fun next ↦ ?_, fun m hm ↦ ?_⟩, ?_⟩
  · rw [Mark.text_append, text_marksAhead]
    rfl
  · simp [Mark.separatesStatements, Mark.depth, Nesting.depth, hs, behindAnnouncement, start]
  · rcases List.mem_append.1 hm with hm | hm
    · obtain ⟨hrole, hchar, -⟩ := mem_marksAhead_plain rfl rfl hplain hm
      obtain ⟨hcplain, hseparator⟩ := flat m.char hchar
      have hnewline : m.char ≠ '\n' := Profile.ne_newline_of_isPlain hcplain
      refine ⟨Mark.isUnbroken_of_code hrole ?_, line_eq_of_mem_marksAhead ?_ hm⟩
      · simp only [List.mem_cons, List.not_mem_nil, or_false, not_or] at hseparator ⊢
        exact ⟨hseparator.1, hseparator.2.1, hseparator.2.2, hnewline⟩
      · exact fun h ↦ Profile.ne_newline_of_isPlain (hplain _ h) rfl
    · obtain rfl := List.mem_singleton.1 hm
      refine ⟨fun next ↦ ?_, ?_⟩
      · simp [Mark.separatesStatements, Mark.isTopComment, Mark.endsLine, Nesting.isBalanced]
      · show t.line = 1
        rw [hcommand]
        rfl
  · rw [afterText_nil, hcommand]
    exact ⟨rfl, rfl, rfl, rfl, rfl, rfl⟩

theorem isEndedBy_announced_of_short {line : List Char} (short : line.length < width) :
    (announced width).isEndedBy line = false := by
  have hne : line ≠ List.replicate width ' ' := by
    intro h
    rw [h, List.length_replicate] at short
    exact Nat.lt_irrefl _ short
  simpa [HereDoc.isEndedBy, announced] using hne

/-- Short lines are all in the body, and another may begin behind them. -/
theorem reads_lines {p : Profile} {s : Nesting} {lines : List (List Char)} (ahead : List Char)
    (offset : Nat) (hs : s.AtBody width) (short : AreShort width lines) :
    (∀ m ∈ marksAhead p ahead s offset (linesText lines), m.IsInBody [announced width]) ∧
      (s.afterText p (linesText lines) ahead).AtBody width := by
  induction lines generalizing s offset with
  | nil => exact ⟨by simp [linesText, marksAhead], hs⟩
  | cons line lines ih =>
    obtain ⟨hsingle, hshort⟩ := short line List.mem_cons_self
    obtain ⟨hmarks, hafter⟩ := marksAhead_bodyLine (p := p) (linesText lines ++ ahead) offset
      hs.outerBody? hsingle (isEndedBy_announced_of_short hshort)
    obtain ⟨hothers, hbehind⟩ := ih (offset + byteLength (line ++ ['\n'])) hs.behindBodyLine
      fun other hother ↦ short other (List.mem_cons_of_mem _ hother)
    have htext : linesText (line :: lines) = (line ++ ['\n']) ++ linesText lines := rfl
    rw [htext, marksAhead_append, afterMarks_marksAhead,
      afterText_append p s (line ++ ['\n']) (linesText lines), hafter]
    refine ⟨fun m hm ↦ ?_, hbehind⟩
    rcases List.mem_append.1 hm with hm | hm
    · exact hs.docs ▸ hmarks m hm
    · exact hothers m hm

/-- The blanks behind the body are a part of it, and the newline behind them ends it. -/
theorem reads_end {p : Profile} {s : Nesting} (ahead : List Char) (offset : Nat)
    (hs : s.AtBody width) :
    (∀ m ∈ marksAhead p ahead s offset (List.replicate width ' '), m.IsInBody [announced width]) ∧
      ∀ rest, ∃ t role,
        (s.afterText p (List.replicate width ' ') ahead).step p '\n' rest = (t, role) ∧
          t.isBalanced = true ∧ role ≠ .escaped := by
  have hsingle : '\n' ∉ List.replicate width ' ' :=
    fun h ↦ absurd (List.eq_of_mem_replicate h) (by decide)
  obtain ⟨hmarks, hafter⟩ := marksAhead_bodyText (p := p) ahead offset hs.inside hs.ready hsingle
  refine ⟨hs.docs ▸ hmarks, fun rest ↦ ?_⟩
  set t := s.afterText p (List.replicate width ' ') ahead with ht
  have hend : t.atHereDocEnd = true := by
    rw [hafter, hs.docs, hs.fresh]
    simp [atHereDocEnd, HereDoc.isEndedBy, announced]
  have hdocs : t.hereDocs = [announced width] := by rw [hafter]; exact hs.docs
  have hstep := step_endBody (p := p) rest (by rw [hafter]; exact hs.inside)
    (by rw [hafter]; exact hs.ready) hdocs hend
  refine ⟨_, _, hstep, ?_, by simp⟩
  rw [isBalanced_iff, hafter]
  exact ⟨rfl, hs.groups, rfl, hs.ready⟩

end Nesting

/-! ### The file as a whole -/

/-- The parts of the line: the announcement, the separator, the command up to its newline, and the
body with the blanks that end it. -/
structure ExposedMarks (width : Nat) (command : List Char) (lines : List (List Char))
    (head : List Mark) (sep : Mark) (run body : List Mark) : Prop where
  text_head : Mark.text head = announcement width
  head : ∀ m ∈ head, m.IsUnbroken
  sep_endsLine : sep.endsLine = false
  sep : ∀ next, sep.separatesStatements next = true
  text_run : Mark.text run = command ++ ['\n']
  run : ∀ m ∈ run, m.IsUnbroken ∧ m.line = 1
  text_body : Mark.text body = linesText lines ++ List.replicate width ' '
  body : ∀ m ∈ body, m.IsUnbroken

section File

variable {d : Dialect} {width : Nat} {command : List Char} {lines : List (List Char)}

theorem exists_exposedMarks (ahead : List Char) (sh : d ≠ .pwsh) (wide : 0 < width)
    (flat : IsFlat d.profile command) (short : AreShort width lines) :
    (∃ head sep run body,
      marksAhead d.profile ahead (.start 1) 0 (exposedLine width command lines) =
        head ++ sep :: (run ++ body) ∧ ExposedMarks width command lines head sep run body) ∧
    ∀ rest, ∃ t role,
      ((Nesting.start 1).afterText d.profile (exposedLine width command lines) ahead).step
        d.profile '\n' rest = (t, role) ∧ t.isBalanced = true ∧ role ≠ .escaped := by
  have hnewline := d.escape_ne_of_mem (c := '\n') (by decide)
  have hseparator : d.profile.isPlain ';' = true := by cases d <;> decide
  set blanks := List.replicate width ' ' with hblanks
  have htext : exposedLine width command lines =
      announcement width ++ ((';' :: (command ++ ['\n'])) ++ (linesText lines ++ blanks)) := by
    simp [exposedLine, hblanks]
  have htail : (';' :: (command ++ ['\n']) ++ (linesText lines ++ blanks)) ++ ahead =
      ';' :: (command ++ ['\n'] ++ (linesText lines ++ blanks) ++ ahead) := rfl
  obtain ⟨hannounced, hhead⟩ :=
    Nesting.reads_announcement (command ++ ['\n'] ++ (linesText lines ++ blanks) ++ ahead) sh wide
  obtain ⟨⟨sep, run, hrun, htextRun, hsepLine, hsep, hunbroken⟩, hbody⟩ :=
    Nesting.reads_command width (linesText lines ++ blanks ++ ahead)
      (0 + byteLength (announcement width)) flat hnewline.1 hnewline.2 hseparator
  set s := (Nesting.behindAnnouncement width).afterText d.profile (';' :: (command ++ ['\n']))
    (linesText lines ++ blanks ++ ahead) with hs
  have hblanksAhead (offset : Nat) := Nesting.reads_lines (p := d.profile) (blanks ++ ahead)
    offset hbody short
  set t := s.afterText d.profile (linesText lines) (blanks ++ ahead) with ht
  have hend (offset : Nat) := Nesting.reads_end (p := d.profile) ahead offset (hblanksAhead 0).2
  have hwaiting : [announced width] ≠ [] := by simp
  constructor
  · refine ⟨marksAhead d.profile _ (.start 1) 0 (announcement width), sep, run,
      marksAhead d.profile ahead s
        (0 + byteLength (announcement width) + byteLength (';' :: (command ++ ['\n'])))
        (linesText lines ++ blanks), ?_,
      text_marksAhead .., hhead, hsepLine, hsep, htextRun, hunbroken, text_marksAhead .., ?_⟩
    · rw [htext, marksAhead_append, Nesting.afterMarks_marksAhead, htail, hannounced,
        marksAhead_append, Nesting.afterMarks_marksAhead, hrun, List.cons_append]
    · intro m hm
      rw [marksAhead_append, Nesting.afterMarks_marksAhead, ← ht, List.mem_append] at hm
      rcases hm with hm | hm
      · exact ((hblanksAhead _).1 m hm).isUnbroken hwaiting
      · exact ((hend _).1 m hm).isUnbroken hwaiting
  · intro rest
    rw [htext, Nesting.afterText_append, htail, hannounced, Nesting.afterText_append,
      Nesting.afterText_append, ← hs, ← ht]
    exact (hend 0).2 rest

theorem isBlank_exposedLine (width : Nat) (command : List Char) (lines : List (List Char)) :
    isBlank (exposedLine width command lines) = false := by
  have hvisible : isSpace 'c' = false := by decide
  simp [isBlank, exposedLine, announcement_eq, hvisible]

/-- The file is one logical line. -/
theorem logicalLines_exposedFile (sh : d ≠ .pwsh) (wide : 0 < width)
    (flat : IsFlat d.profile command) (short : AreShort width lines) :
    logicalLines d.profile (exposedFile width command lines) =
      [⟨exposedLine width command lines, 1, none⟩] := by
  obtain ⟨⟨head, sep, run, body, hmarks, hparts⟩, hend⟩ :=
    exists_exposedMarks ['\n'] sh wide flat short
  obtain ⟨t, role, hstep, hbalanced, hrole⟩ := hend []
  refine logicalLines_of_line (isBlank_exposedLine ..) (fun m hm ↦ ?_) hstep hbalanced hrole
  rw [hmarks, List.mem_append, List.mem_cons, List.mem_append] at hm
  rcases hm with hm | rfl | hm | hm
  · exact (hparts.head m hm).endsLine
  · exact hparts.sep_endsLine
  · exact (hparts.run m hm).1.endsLine
  · exact (hparts.body m hm).endsLine

theorem trimEnd_trimStart_announcement (width : Nat) :
    trimEnd (trimStart (announcement width)) = announcement width := by
  have hstart : trimStart (announcement width) = announcement width := trimStart_cons _ (by decide)
  have hlast : announcement width =
      ("cat <<".toList ++ '\'' :: List.replicate width ' ') ++ ['\''] := by simp [announcement_eq]
  rw [hstart, hlast, trimEnd_concat _ (by decide)]

namespace ExposedMarks

variable {head run body : List Mark} {sep : Mark}

/-- The announcement is a statement. -/
theorem exists_ofMarks?_head (h : ExposedMarks width command lines head sep run body) :
    ∃ offset line, Statement.ofMarks? head = some ⟨offset, line, announcement width⟩ := by
  have hvisible : isSpace 'c' = false := by decide
  have hhead : isBlank (Mark.text head) = false := by
    simp [h.text_head, isBlank, announcement_eq, hvisible]
  obtain ⟨m, -, -, hm⟩ := Statement.exists_ofMarks?_of_visible hhead
  rw [h.text_head, trimEnd_trimStart_announcement] at hm
  exact ⟨_, _, hm⟩

/-- The command and the body are a statement, on the first line if it begins in the command. -/
theorem exists_ofMarks?_body (h : ExposedMarks width command lines head sep run body)
    (visible : isBlank (command ++ '\n' :: linesText lines) = false) :
    ∃ offset line, (isBlank command = false → line = 1) ∧
      Statement.ofMarks? (run ++ body) =
        some ⟨offset, line, trimEnd (trimStart (command ++ '\n' :: linesText lines))⟩ := by
  have hblanks : isBlank (List.replicate width ' ') = true := by
    rw [isBlank_iff]
    intro c hc
    rw [List.eq_of_mem_replicate hc]
    decide
  have htext : Mark.text (run ++ body) =
      command ++ '\n' :: linesText lines ++ List.replicate width ' ' := by
    rw [Mark.text_append, h.text_run, h.text_body]
    simp
  have hvisible : isBlank (Mark.text (run ++ body)) = false := by
    rw [htext, isBlank, List.all_append, ← isBlank, visible, Bool.false_and]
  obtain ⟨m, more, hm, hof⟩ := Statement.exists_ofMarks?_of_visible hvisible
  rw [htext, trimStart_append _ visible, trimEnd_append_of_isBlank _ hblanks] at hof
  refine ⟨_, _, fun hcommand ↦ ?_, hof⟩
  have hrun : isBlank (Mark.text run) = false := by
    rw [h.text_run, isBlank, List.all_append, ← isBlank, hcommand, Bool.false_and]
  obtain ⟨k, rest, hk⟩ := Mark.exists_dropWhile_of_visible hrun
  rw [List.dropWhile_append, hk, List.isEmpty_cons, if_neg (by simp), List.cons_append,
    List.cons.injEq] at hm
  have hmem : k ∈ run := (List.dropWhile_suffix _).subset (hk ▸ List.mem_cons_self)
  rw [← hm.1]
  exact (h.run k hmem).2

end ExposedMarks

/-- It has two statements, and the body belongs to the second. -/
theorem exists_statements_exposedLine (sh : d ≠ .pwsh) (wide : 0 < width)
    (flat : IsFlat d.profile command) (short : AreShort width lines)
    (visible : isBlank (command ++ '\n' :: linesText lines) = false) :
    ∃ offset offset' line line',
      statements d.profile (exposedLine width command lines) =
        [⟨offset, line, announcement width⟩,
          ⟨offset', line', trimEnd (trimStart (command ++ '\n' :: linesText lines))⟩] ∧
      (isBlank command = false → line' = 1) := by
  obtain ⟨⟨head, sep, run, body, hmarks, hparts⟩, -⟩ := exists_exposedMarks [] sh wide flat short
  have hpieces :
      pieces Mark.separatesStatements (marks d.profile (exposedLine width command lines)) =
        [head, run ++ body] := by
    rw [marks, ← marksAhead_nil, hmarks, pieces_append_cons (fun m hm ↦ hparts.head m hm)
      (hparts.sep _), pieces_of_forall fun m hm ↦ ?_]
    rcases List.mem_append.1 hm with hm | hm
    · exact (hparts.run m hm).1
    · exact hparts.body m hm
  obtain ⟨offset, line, hfirst⟩ := hparts.exists_ofMarks?_head
  obtain ⟨offset', line', hline, hsecond⟩ := hparts.exists_ofMarks?_body visible
  refine ⟨offset, offset', line, line', ?_, hline⟩
  rw [statements, hpieces, List.filterMap_cons_some hfirst, List.filterMap_cons_some hsecond,
    List.filterMap_nil]

/-- The announcement defines nothing. -/
theorem ofStatement_announcement (file : Path) (offset line : Nat) (isLast : Bool)
    (sh : d ≠ .pwsh) :
    Extraction.ofStatement d.profile file ⟨offset, line, announcement width⟩ isLast = .empty := by
  show Extraction.ofStatement d.profile file ⟨0, line,
    "cat".toList ++ ' ' :: '<' :: '<' :: '\'' :: (List.replicate width ' ' ++ ['\''])⟩ isLast = _
  exact Extraction.ofStatement_twoWords file line _ isLast sh (by decide)
    (List.all_eq_true.1 (by decide)) (by decide) (by decide)

/-- The file defines and reports what the command would with the body as code behind it. -/
theorem findings_exposedFile (path : Path) (sh : d ≠ .pwsh) (wide : 0 < width)
    (flat : IsFlat d.profile command) (short : AreShort width lines)
    (visible : isBlank (command ++ '\n' :: linesText lines) = false) :
    ∃ line, (isBlank command = false → line = 1) ∧
      (⟨path, exposedFile width command lines⟩ : Source).findings (some d) =
        .ok (Extraction.ofStatement d.profile path
          ⟨0, line, trimEnd (trimStart (command ++ '\n' :: linesText lines))⟩ true).findings := by
  obtain ⟨offset, offset', line, line', hstatements, hline⟩ :=
    exists_statements_exposedLine sh wide flat short visible
  refine ⟨line', hline, ?_⟩
  set e := Extraction.ofStatement d.profile path
    ⟨0, line', trimEnd (trimStart (command ++ '\n' :: linesText lines))⟩ true with he
  have htext : Extraction.ofText d.profile path (exposedLine width command lines) 1 = e := by
    rw [Extraction.ofText_eq, hstatements]
    simp only [List.map_cons, List.map_nil, ofStatement_announcement path _ _ _ sh,
      List.getLast?_cons_cons, List.getLast?_singleton, decide_true]
    rw [Extraction.concat, List.foldr_cons, List.foldr_cons, List.foldr_nil,
      Extraction.empty_append, Extraction.append_empty]
    rfl
  show Except.ok (Findings.ofSource d.profile ⟨path, _⟩) = _
  rw [Findings.ofSource, logicalLines_exposedFile sh wide flat short]
  show Except.ok ((⟨_ ++ [], _ ++ []⟩ : Findings)) = _
  rw [List.append_nil, List.append_nil]
  show Except.ok (Extraction.ofText d.profile path (exposedLine width command lines) 1).findings = _
  rw [htext]

/-- Short lines may be exchanged for as many short lines. -/
theorem rewritten_lines {p : Profile} {s : Nesting} {lines' : List (List Char)} (rest : List Char)
    (hs : s.AtBody width) (short : AreShort width lines)
    (short' : AreShort width lines') (same : lines.length = lines'.length) :
    Rewritten p s [true] (linesText lines ++ rest) (linesText lines' ++ rest) := by
  induction lines generalizing s lines' with
  | nil =>
    obtain rfl := List.length_eq_zero_iff.1 same.symm
    exact .refl ..
  | cons line lines ih =>
    obtain ⟨line', lines', rfl⟩ := List.exists_cons_of_length_eq_add_one same.symm
    obtain ⟨hsingle, hshort⟩ := short line List.mem_cons_self
    obtain ⟨hsingle', hshort'⟩ := short' line' List.mem_cons_self
    have htext (first : List Char) (others : List (List Char)) :
        linesText (first :: others) ++ rest = first ++ '\n' :: (linesText others ++ rest) := by
      simp [linesText]
    rw [htext, htext]
    refine .line hs.outerBody? hsingle hsingle' (Nesting.isEndedBy_announced_of_short hshort)
      (Nesting.isEndedBy_announced_of_short hshort') (ih hs.behindBodyLine ?_ ?_ ?_)
    · exact fun other hother ↦ short other (List.mem_cons_of_mem _ hother)
    · exact fun other hother ↦ short' other (List.mem_cons_of_mem _ hother)
    · simpa using same

/-- Two such files differ in their bodies only. -/
theorem rewritten_exposedFile {lines' : List (List Char)} (sh : d ≠ .pwsh) (wide : 0 < width)
    (flat : IsFlat d.profile command) (short : AreShort width lines)
    (short' : AreShort width lines') (same : lines.length = lines'.length) :
    Rewritten d.profile (.start 1) [] (exposedFile width command lines)
      (exposedFile width command lines') := by
  have hnewline := d.escape_ne_of_mem (c := '\n') (by decide)
  have hseparator : d.profile.isPlain ';' = true := by cases d <;> decide
  set kept := announcement width ++ ';' :: (command ++ ['\n']) with hkept
  have htext (body : List (List Char)) : exposedFile width command body =
      kept ++ (linesText body ++ (List.replicate width ' ' ++ ['\n'])) := by
    simp [exposedFile, exposedLine, hkept]
  have hcat : "cat <<".toList.all (fun c ↦ c ≠ '(' ∧ c ≠ '{') = true := by decide
  have hopeners : ∀ c ∈ kept, c ≠ '(' ∧ c ≠ '{' := by
    intro c hc
    simp only [hkept, announcement_eq, List.mem_append, List.mem_cons, List.mem_replicate,
      List.not_mem_nil, or_false] at hc
    rcases hc with (hc | rfl | ⟨-, rfl⟩ | rfl) | rfl | hc | rfl
    · exact of_decide_eq_true (List.all_eq_true.1 hcat c hc)
    · decide
    · decide
    · decide
    · decide
    · have hplain := (flat c hc).1
      constructor <;> (rintro rfl; simp [Profile.isPlain] at hplain)
    · decide
  rw [htext, htext]
  refine Rewritten.append ?_
  set ahead := linesText lines ++ (List.replicate width ' ' ++ ['\n']) with hahead
  have hbody : ((Nesting.start 1).afterText d.profile kept ahead).AtBody width := by
    rw [hkept, Nesting.afterText_append]
    show (((Nesting.start 1).afterText d.profile (announcement width)
      (';' :: (command ++ ['\n'] ++ ahead))).afterText d.profile _ ahead).AtBody width
    rw [(Nesting.reads_announcement (command ++ ['\n'] ++ ahead) sh wide).1]
    exact (Nesting.reads_command width ahead 0 flat hnewline.1 hnewline.2 hseparator).2
  have houter : (Nesting.start 1).outerAfterText d.profile [] kept ahead = [true] := by
    have sync : ([] : List Bool).length = (Nesting.start 1).hereDocs.length := rfl
    have hlength := Nesting.length_outerAfterText (p := d.profile) kept ahead sync
    rw [hbody.docs, List.length_singleton, List.length_eq_one_iff] at hlength
    obtain ⟨b, hb⟩ := hlength
    have htop : ∀ b ∈ (Nesting.start 1).outerAfterText d.profile [] kept ahead, b = true :=
      Nesting.outerAfterText_eq_true ahead rfl hopeners (by simp)
    rw [hb, htop b (hb ▸ List.mem_singleton_self b)]
  rw [houter]
  exact rewritten_lines _ hbody short short' same

/-! ### Commands that leave the body open -/

/-- Lines that hold no newlines. -/
def AreSingle (lines : List (List Char)) : Prop :=
  ∀ line ∈ lines, '\n' ∉ line

/-- The command line settles what its statement defines, whatever lines follow. -/
def SettlesLine (p : Profile) (command : List Char) : Prop :=
  isBlank command = false ∧ ∀ (path : Path) (lines lines' : List (List Char)), AreSingle lines →
    AreSingle lines' →
      (Extraction.ofStatement p path
          ⟨0, 1, trimEnd (trimStart (command ++ '\n' :: linesText lines))⟩ true).findings =
        (Extraction.ofStatement p path
          ⟨0, 1, trimEnd (trimStart (command ++ '\n' :: linesText lines'))⟩ true).findings

theorem length_lt_of_mem_lines {line : List Char} (h : line ∈ lines) :
    line.length < (linesText lines).length := by
  obtain ⟨front, behind, rfl⟩ := List.append_of_mem h
  simp [linesText]
  omega

/-- Lines stay short when empty ones follow them. -/
theorem areShort_filled (single : AreSingle lines) (count : Nat)
    (wide : (linesText lines).length < width) :
    AreShort width (lines ++ List.replicate count []) := by
  intro line hline
  rcases List.mem_append.1 hline with hline | hline
  · have hlength := length_lt_of_mem_lines hline
    exact ⟨single line hline, by omega⟩
  · rw [List.eq_of_mem_replicate hline]
    exact ⟨List.not_mem_nil, by rw [List.length_nil]; omega⟩

/-- Empty lines behind a text are trimmed away. -/
theorem trimEnd_emptyLines (text : List Char) (lines : List (List Char)) (count : Nat) :
    trimEnd (text ++ linesText (lines ++ List.replicate count [])) =
      trimEnd (text ++ linesText lines) := by
  have hblank : isBlank (linesText (List.replicate count [])) = true := by
    rw [isBlank_iff]
    intro c hc
    obtain ⟨line, hline, hmem⟩ := List.mem_flatMap.1 hc
    rw [List.eq_of_mem_replicate hline, List.nil_append, List.mem_singleton] at hmem
    rw [hmem]
    decide
  rw [linesText, List.flatMap_append, ← linesText, ← linesText, ← List.append_assoc,
    trimEnd_append_of_isBlank _ hblank]

/-- The body behind the command changes nothing in any file of this form. -/
def IsCovering (d : Dialect) (command : List Char) : Prop :=
  ∀ (path : Path) (width : Nat) (lines lines' : List (List Char)), 0 < width →
    AreShort width lines → AreShort width lines' →
    (∀ l ∈ logicalLines d.profile (exposedFile width command lines), l.leftOpen = none) →
    Rewritten d.profile (.start 1) [] (exposedFile width command lines)
      (exposedFile width command lines') →
    (⟨path, exposedFile width command lines'⟩ : Source).findings (some d) =
      (⟨path, exposedFile width command lines⟩ : Source).findings (some d)

/-- Behind a command that covers it, as many short lines give the same findings. -/
theorem IsCovering.findings_eq {lines' : List (List Char)} (h : IsCovering d command)
    (path : Path) (sh : d ≠ .pwsh) (wide : 0 < width) (flat : IsFlat d.profile command)
    (short : AreShort width lines) (short' : AreShort width lines')
    (same : lines.length = lines'.length) :
    (⟨path, exposedFile width command lines'⟩ : Source).findings (some d) =
      (⟨path, exposedFile width command lines⟩ : Source).findings (some d) := by
  refine h path width lines lines' wide short short' (fun l hl ↦ ?_)
    (rewritten_exposedFile sh wide flat short short' same)
  rw [logicalLines_exposedFile sh wide flat short, List.mem_singleton] at hl
  rw [hl]

/-- A line that defines an alias where it stands as code. -/
theorem ofStatement_alias (file : Path) (line : Nat) (sh : d ≠ .pwsh) :
    Extraction.ofStatement d.profile file ⟨0, line, "alias y=2".toList⟩ true =
      ⟨[⟨"y", .alias, "2", file, line⟩], [], none⟩ := by
  have hleading : afterLeading? d.profile "alias y=2".toList = none := by cases d <;> decide +kernel
  have hgroup : braceGroup? d.profile "alias y=2".toList = none := by cases d <;> decide +kernel
  have haliases : proposedAliases? d.profile (words d.profile "alias y=2".toList) =
      some [⟨['y'], ['2']⟩] := by
    cases d with
    | pwsh => exact absurd rfl sh
    | bash | zsh | sh => decide +kernel
  have hname : d.profile.aliasNames.accepts ['y'] = true := by cases d <;> decide
  have hcommand : (⟨0, line, "alias y=2".toList⟩ : Statement).command d.profile =
      ⟨0, line, "alias y=2".toList⟩ := Statement.command_of_none hleading
  rw [Extraction.ofStatement, hcommand]
  simp only [hgroup, Extraction.ofCommand, haliases, List.map_cons, List.map_nil]
  rw [Extraction.concat, List.foldr_cons, List.foldr_nil, Extraction.append_empty, define]
  exact if_pos hname

/-- Behind a blank command line the body is all of the second statement. -/
theorem exists_findings_of_isBlank (path : Path) (sh : d ≠ .pwsh) (wide : 0 < width)
    (flat : IsFlat d.profile command) (short : AreShort width lines)
    (blank : isBlank command = true) (visible : isBlank (linesText lines) = false) :
    ∃ line, (⟨path, exposedFile width command lines⟩ : Source).findings (some d) =
      .ok (Extraction.ofStatement d.profile path
        ⟨0, line, trimEnd (trimStart (linesText lines))⟩ true).findings := by
  have hspaces : ∀ c ∈ command ++ ['\n'], isSpace c = true := by
    intro c hc
    rcases List.mem_append.1 hc with hc | hc
    · exact isBlank_iff.1 blank c hc
    · rw [List.mem_singleton.1 hc]
      decide
  have htrim : trimStart (command ++ '\n' :: linesText lines) = trimStart (linesText lines) := by
    rw [List.append_cons, trimStart, List.dropWhile_append_of_pos hspaces, ← trimStart]
  have hvisible : isBlank (command ++ '\n' :: linesText lines) = false := by
    rw [List.append_cons, isBlank, List.all_append, ← isBlank, ← isBlank, visible, Bool.and_false]
  obtain ⟨line, -, hfindings⟩ := findings_exposedFile path sh wide flat short hvisible
  exact ⟨line, htrim ▸ hfindings⟩

/-- A blank command line leaves the body to be read as code. -/
theorem IsCovering.not_isBlank (h : IsCovering d command) (sh : d ≠ .pwsh)
    (flat : IsFlat d.profile command) : isBlank command = false := by
  by_contra blank
  rw [Bool.not_eq_false] at blank
  let lines : List (List Char) := ["cat x".toList]
  let lines' : List (List Char) := ["alias y=2".toList]
  have hcat (line : Nat) : (Extraction.ofStatement d.profile ⟨""⟩
      ⟨0, line, trimEnd (trimStart (linesText lines))⟩ true).definitions = [] := by
    have htext : trimEnd (trimStart (linesText lines)) = "cat".toList ++ ' ' :: 'x' :: [] := by
      decide
    rw [htext, Extraction.ofStatement_twoWords _ line [] true sh (by decide)
      (List.all_eq_true.1 (by decide)) (by decide) (by decide)]
    rfl
  have halias (line : Nat) : (Extraction.ofStatement d.profile ⟨""⟩
      ⟨0, line, trimEnd (trimStart (linesText lines'))⟩ true).definitions =
        [⟨"y", .alias, "2", ⟨""⟩, line⟩] := by
    have htext : trimEnd (trimStart (linesText lines')) = "alias y=2".toList := by decide
    rw [htext]
    exact congrArg Extraction.definitions (ofStatement_alias ⟨""⟩ line sh)
  have hshort : AreShort 10 lines := by decide
  have hshort' : AreShort 10 lines' := by decide
  obtain ⟨line, hfindings⟩ :=
    exists_findings_of_isBlank ⟨""⟩ sh (by decide) flat hshort blank (by decide)
  obtain ⟨line', hfindings'⟩ :=
    exists_findings_of_isBlank ⟨""⟩ sh (by decide) flat hshort' blank (by decide)
  have heq := h.findings_eq ⟨""⟩ sh (by decide) flat hshort hshort' rfl
  rw [hfindings, hfindings', Except.ok.injEq] at heq
  exact absurd ((halias line').symm.trans ((congrArg Findings.definitions heq).trans (hcat line)))
    (by simp)

theorem isBlank_append_of_left {text : List Char} (more : List Char) (h : isBlank text = false) :
    isBlank (text ++ more) = false := by
  rw [isBlank, List.all_append, ← isBlank, h, Bool.false_and]

/-- A command covers the body behind it exactly if it settles its statement. -/
theorem settlesLine_iff_isCovering (sh : d ≠ .pwsh) (flat : IsFlat d.profile command) :
    SettlesLine d.profile command ↔ IsCovering d command := by
  constructor
  · rintro ⟨visible, settled⟩ path width lines lines' wide short short' - -
    obtain ⟨line, hline, hfindings⟩ :=
      findings_exposedFile path sh wide flat short (isBlank_append_of_left _ visible)
    obtain ⟨line', hline', hfindings'⟩ :=
      findings_exposedFile path sh wide flat short' (isBlank_append_of_left _ visible)
    rw [hfindings, hfindings', hline visible, hline' visible]
    exact congrArg Except.ok (settled path lines' lines (fun l hl ↦ (short' l hl).1)
      fun l hl ↦ (short l hl).1)
  · intro h
    have visible := h.not_isBlank sh flat
    refine ⟨visible, fun path lines lines' single single' ↦ ?_⟩
    -- The shorter body is filled up with empty lines, and the end of both is wider than any line.
    set filled := lines ++ List.replicate (lines'.length - lines.length) [] with hfilled
    set filled' := lines' ++ List.replicate (lines.length - lines'.length) [] with hfilled'
    set width := (linesText lines).length + (linesText lines').length + 1 with hwidth
    have hshort : AreShort width filled := areShort_filled single _ (by omega)
    have hshort' : AreShort width filled' := areShort_filled single' _ (by omega)
    have hsame : filled.length = filled'.length := by
      simp only [hfilled, hfilled', List.length_append, List.length_replicate]
      omega
    have hwide : 0 < width := Nat.succ_pos _
    have htrim (body : List (List Char)) (count : Nat) :
        trimEnd (trimStart (command ++ '\n' :: linesText (body ++ List.replicate count []))) =
          trimEnd (trimStart (command ++ '\n' :: linesText body)) := by
      rw [trimStart_append _ visible, trimStart_append _ visible, List.append_cons,
        trimEnd_emptyLines, ← List.append_cons]
    obtain ⟨line, hline, hfindings⟩ :=
      findings_exposedFile path sh hwide flat hshort (isBlank_append_of_left _ visible)
    obtain ⟨line', hline', hfindings'⟩ :=
      findings_exposedFile path sh hwide flat hshort' (isBlank_append_of_left _ visible)
    have heq := h.findings_eq path sh hwide flat hshort hshort' hsame
    rw [hfindings, hfindings', hline visible, hline' visible, Except.ok.injEq, hfilled, hfilled',
      htrim, htrim] at heq
    exact heq.symm

end File

end ShellCatalog
