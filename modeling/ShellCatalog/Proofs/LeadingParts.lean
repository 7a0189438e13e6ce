import ShellCatalog.Proofs.AliasRoundTrip
import ShellCatalog.Proofs.FunctionHeader

/-!
# A command behind keywords, case heads and patterns

In front of a command may stand the keywords of conditionals and loops, the heads of case commands
and the patterns of their arms, in any order and any number. Written with single spaces they are
read over, **each as one part and none further than its end**, and the alias command behind them is
read as if it stood alone.

**Every part is a run of solid words** (`LeadingPart.solidWord`): a closing parenthesis that no
group waits for changes nothing, and a bar between parentheses separates nothing. So the whole line
is one row of words, hence one statement and one logical line, and it is left to see that each part
is found at the front of the statement by its own reader and by no other (`dropLeading_part`).
-/

namespace ShellCatalog

/-! ### The parts -/

/-- The keywords behind which a command may stand. -/
inductive ClauseKeyword
  | thenBranch
  | elseBranch
  | loopBody
  deriving DecidableEq, Repr

/-- How the keyword is written. -/
def ClauseKeyword.text : ClauseKeyword → List Char
  | thenBranch => "then".toList
  | elseBranch => "else".toList
  | loopBody => "do".toList

/-- A letter or a digit of any script, the underscore, a wildcard, a point or a hyphen. -/
def isCaseChar (c : Char) : Bool :=
  isWordChar c || c ∈ ['*', '?', '.', '-']

theorem isOrdinary_of_isCaseChar {c : Char} (h : isCaseChar c = true) : isOrdinary c = true := by
  have hothers : ['*', '?', '.', '-'].all isOrdinary = true := by decide
  rcases Bool.or_eq_true_iff.1 h with h | h
  · exact isOrdinary_of_isWordChar h
  · exact List.all_eq_true.1 hothers c (of_decide_eq_true h)

/-- A word that a case command can look at, or that can be an alternative of a pattern. -/
structure CaseWord where
  text : List Char
  full : text ≠ []
  chars : ∀ c ∈ text, isCaseChar c = true

theorem CaseWord.ordinary (w : CaseWord) : ∀ c ∈ w.text, isOrdinary c = true :=
  fun c hc ↦ isOrdinary_of_isCaseChar (w.chars c hc)

/-- A part that may stand in front of a command. -/
inductive LeadingPart
  /-- A keyword of a conditional or a loop. -/
  | keyword (word : ClauseKeyword)
  /-- The head of a case command. -/
  | caseHead (subject : CaseWord)
  /-- A pattern of one alternative without an opening parenthesis. -/
  | pattern (word : CaseWord)
  /-- A pattern between parentheses, its alternatives divided by bars. -/
  | alternatives (first : CaseWord) (others : List CaseWord)

/-- Alternatives with bars between them. -/
def barred (first : CaseWord) (others : List CaseWord) : List Char :=
  first.text ++ others.flatMap fun w ↦ '|' :: w.text

theorem barred_cons (first w : CaseWord) (others : List CaseWord) :
    barred first (w :: others) = first.text ++ '|' :: barred w others := by
  simp [barred]

namespace LeadingPart

/-- The text of a part. -/
def text : LeadingPart → List Char
  | keyword word => word.text
  | caseHead subject => "case ".toList ++ subject.text ++ " in".toList
  | pattern word => word.text ++ [')']
  | alternatives first others => '(' :: (barred first others ++ [')'])

theorem text_keyword (word : ClauseKeyword) : (keyword word).text = word.text := rfl

theorem text_caseHead (subject : CaseWord) :
    (caseHead subject).text = "case ".toList ++ subject.text ++ " in".toList := rfl

theorem text_pattern (word : CaseWord) : (pattern word).text = word.text ++ [')'] := rfl

theorem text_alternatives (first : CaseWord) (others : List CaseWord) :
    (alternatives first others).text = '(' :: (barred first others ++ [')']) := rfl

/-- Parts in front of a command, each with a space behind it. -/
def front (parts : List LeadingPart) : List Char :=
  parts.flatMap fun q ↦ q.text ++ [' ']

theorem front_cons (q : LeadingPart) (parts : List LeadingPart) :
    front (q :: parts) = q.text ++ ' ' :: front parts := by
  simp [front]

end LeadingPart

section Parts

variable {d : Dialect}

theorem Dialect.casePatterns_eq_true (hd : d ≠ .pwsh) : d.profile.casePatterns = true := by
  cases d
  case pwsh => exact absurd rfl hd
  all_goals rfl

theorem CaseWord.isPlain (w : CaseWord) (d : Dialect) :
    ∀ c ∈ w.text, d.profile.isPlain c = true :=
  fun c hc ↦ d.isPlain_of_isOrdinary (w.ordinary c hc)

theorem CaseWord.solidWord (w : CaseWord) (d : Dialect) : SolidWord d.profile w.text :=
  solidWord_bare w.full fun c hc ↦ d.isBare_of_isOrdinary (w.ordinary c hc)

theorem isCaseChar_of_mem_barred {c : Char} {first : CaseWord} {others : List CaseWord}
    (h : c ∈ barred first others) : isCaseChar c = true ∨ c = '|' := by
  rcases List.mem_append.1 h with h | h
  · exact .inl (first.chars c h)
  · obtain ⟨w, -, h⟩ := List.mem_flatMap.1 h
    exact (List.mem_cons.1 h).symm.imp_left (w.chars c)

theorem isPlain_of_mem_barred {c : Char} (d : Dialect) {first : CaseWord}
    {others : List CaseWord} (h : c ∈ barred first others) : d.profile.isPlain c = true := by
  rcases isCaseChar_of_mem_barred h with h | rfl
  · exact d.isPlain_of_isOrdinary (isOrdinary_of_isCaseChar h)
  · cases d <;> decide

/-! ### A line of parts is a row of words -/

/-- A closing parenthesis behind a solid word belongs to it. -/
theorem SolidWord.closingParen {word : List Char} (solid : SolidWord d.profile word) :
    SolidWord d.profile (word ++ [')']) := by
  obtain ⟨hescape, hcomment⟩ := d.escape_ne_of_mem (c := ')') (by decide)
  have hstep {s : Nesting} (hs : s.AtWord) (ahead : List Char) :
      (s.afterText d.profile word (')' :: ahead)).step d.profile ')' ahead =
        ({ s.afterText d.profile word (')' :: ahead) with last := some (')', .code) }, .code) := by
    obtain ⟨hmode, hgroups, -, hready⟩ := Nesting.isBalanced_iff.1 (solid.balanced hs)
    exact Nesting.step_strayCloser ahead hmode hready rfl hgroups hescape hcomment
  refine ⟨?_, trimEnd_concat _ (by decide), fun {s ahead offset} hs m hm ↦ ?_,
    fun {s ahead} hs ↦ ?_⟩
  · obtain ⟨c, rest, rfl, hc⟩ := solid.visible
    exact ⟨c, rest ++ [')'], rfl, hc⟩
  · rw [marksAhead_append, Nesting.afterMarks_marksAhead] at hm
    rcases List.mem_append.1 hm with hm | hm
    · exact solid.solid hs m hm
    · rw [List.singleton_append, marksAhead_cons, List.nil_append, hstep hs] at hm
      obtain rfl := List.mem_singleton.1 hm
      exact Mark.isSolid_of_paren rfl (.inr rfl)
  · rw [Nesting.afterText_append, List.singleton_append, Nesting.afterText_cons, List.nil_append,
      hstep hs, Nesting.afterText_nil]
    exact Nesting.isBalanced_iff.2 (Nesting.isBalanced_iff.1 (solid.balanced hs))

/-- A part in front of a row is a longer row. -/
theorem LeadingPart.exists_row (q : LeadingPart) {first : List Char} {others : List (List Char)}
    (solid : ∀ w ∈ first :: others, SolidWord d.profile w) :
    ∃ first' others', q.text ++ ' ' :: row first others = row first' others' ∧
      ∀ w ∈ first' :: others', SolidWord d.profile w := by
  have hone {word : List Char} (hword : SolidWord d.profile word) :
      ∃ first' others', word ++ ' ' :: row first others = row first' others' ∧
        ∀ w ∈ first' :: others', SolidWord d.profile w :=
    ⟨word, first :: others, (row_cons ..).symm, List.forall_mem_cons.2 ⟨hword, solid⟩⟩
  have hcode {word : List Char} (full : word ≠ []) (ordinary : word.all isOrdinary = true) :
      SolidWord d.profile word :=
    solidWord_bare full fun c hc ↦ d.isBare_of_isOrdinary (List.all_eq_true.1 ordinary c hc)
  cases q with
  | keyword word => exact hone (by cases word <;> exact hcode (by decide) (by decide))
  | caseHead subject =>
    refine ⟨"case".toList, subject.text :: "in".toList :: first :: others, ?_, ?_⟩
    · simp [text_caseHead, row]
    · exact List.forall_mem_cons.2 ⟨hcode (by decide) (by decide),
        List.forall_mem_cons.2 ⟨subject.solidWord d,
          List.forall_mem_cons.2 ⟨hcode (by decide) (by decide), solid⟩⟩⟩
  | pattern word => exact hone (word.solidWord d).closingParen
  | alternatives first others => exact hone (@solidWord_bare_parens d [] _
      (List.forall_mem_nil _) fun c ↦ isPlain_of_mem_barred d)

theorem LeadingPart.exists_row_front (parts : List LeadingPart) {first : List Char}
    {others : List (List Char)} (solid : ∀ w ∈ first :: others, SolidWord d.profile w) :
    ∃ first' others', front parts ++ row first others = row first' others' ∧
      ∀ w ∈ first' :: others', SolidWord d.profile w := by
  induction parts with
  | nil => exact ⟨first, others, rfl, solid⟩
  | cons q parts ih =>
    obtain ⟨first', others', hrow, hsolid⟩ := ih
    rw [front_cons, List.append_assoc, List.cons_append, hrow]
    exact q.exists_row hsolid

/-! ### Each part is found by its reader -/

/-- A part begins with a visible character. -/
theorem LeadingPart.exists_visible (q : LeadingPart) :
    ∃ c rest, q.text = c :: rest ∧ isSpace c = false := by
  have hword (w : CaseWord) : ∃ c rest, w.text = c :: rest ∧ isSpace c = false := by
    obtain ⟨c, rest, hw⟩ := List.exists_cons_of_ne_nil w.full
    exact ⟨c, rest, hw, (isOrdinary_iff.1 (w.ordinary c (by simp [hw]))).1⟩
  cases q with
  | keyword word => cases word <;> exact ⟨_, _, rfl, by decide⟩
  | caseHead subject => exact ⟨_, _, rfl, by decide⟩
  | pattern word =>
    obtain ⟨c, rest, hw, hc⟩ := hword word
    exact ⟨c, rest ++ [')'], by rw [text_pattern, hw, List.cons_append], hc⟩
  | alternatives first others => exact ⟨_, _, rfl, by decide⟩

/-- The marks of a word are read to its end. -/
theorem casePatternFrom_caseWord {s : Nesting} (w : CaseWord) (ahead : List Char)
    (offset : Nat) (rest : List Mark) (code : s.mode = .code) (ready : s.escaping = false) :
    casePatternFrom .before (marksAhead d.profile ahead s offset w.text ++ rest) =
      (casePatternFrom .inWord rest).map (· + w.text.length) := by
  have htext := text_marksAhead d.profile ahead s offset w.text
  have hlength : (marksAhead d.profile ahead s offset w.text).length = w.text.length := by
    simpa [Mark.text] using congrArg List.length htext
  have hfull : marksAhead d.profile ahead s offset w.text ≠ [] := by
    intro h
    rw [h] at htext
    exact w.full htext.symm
  rw [casePatternFrom_word rest (by decide) hfull
    fun m hm ↦ continuesPattern_of_mem code ready w.ordinary hm, hlength]

/-- The marks of alternatives are read to the end of the last one. -/
theorem casePatternFrom_barred {s : Nesting} {first : CaseWord} {others : List CaseWord}
    (ahead : List Char) (offset : Nat) (rest : List Mark) (code : s.mode = .code)
    (ready : s.escaping = false) :
    casePatternFrom .before (marksAhead d.profile ahead s offset (barred first others) ++ rest) =
      (casePatternFrom .inWord rest).map (· + (barred first others).length) := by
  induction others generalizing first s offset with
  | nil => simpa [barred] using casePatternFrom_caseWord first ahead offset rest code ready
  | cons w others ih =>
    have hafter := Nesting.afterText_plain ('|' :: barred w others ++ ahead) code ready
      (first.isPlain d)
    have hbar : d.profile.isPlain '|' = true := by cases d <;> decide
    rw [barred_cons, marksAhead_append, Nesting.afterMarks_marksAhead, hafter, List.append_assoc,
      casePatternFrom_caseWord first _ _ _ code ready, marksAhead_cons,
      Nesting.step_plain _ (by exact code) (by exact ready) hbar, List.cons_append,
      casePatternFrom_bar _ (by decide) rfl rfl, ih _ (by exact code) (by exact ready),
      Option.map_map, Option.map_map]
    congr 1
    funext n
    simp only [Function.comp_apply, List.length_append, List.length_cons]
    omega

/-- A pattern without an opening parenthesis is found with its closing one. -/
theorem casePatternLength?_pattern (word : CaseWord) (more : List Char) :
    casePatternLength? d.profile ((LeadingPart.pattern word).text ++ more) =
      some (LeadingPart.pattern word).text.length := by
  obtain ⟨hescape, hcomment⟩ := d.escape_ne_of_mem (c := ')') (by decide)
  have hclose := Nesting.step_strayCloser (p := d.profile) (b := .paren) (c := ')')
    (s := { Nesting.start 1 with last := word.text.getLast?.map fun c ↦ (c, CharRole.code) })
    more rfl rfl rfl rfl hescape hcomment
  rw [LeadingPart.text_pattern, List.append_assoc, List.singleton_append,
    casePatternLength?_of_isOrdinary word.full word.ordinary,
    marks_plain_append _ (word.isPlain d), casePatternFrom_caseWord word _ _ _ rfl rfl,
    marksFrom_cons, hclose, casePatternFrom_closing _ (by decide) rfl rfl rfl]
  simp [Nat.add_comm]

/-- Alternatives between parentheses are found with both parentheses. -/
theorem casePatternLength?_alternatives (first : CaseWord) (others : List CaseWord)
    (more : List Char) :
    casePatternLength? d.profile ((LeadingPart.alternatives first others).text ++ more) =
      some (LeadingPart.alternatives first others).text.length := by
  have hplain : ∀ c ∈ barred first others, d.profile.isPlain c = true :=
    fun c ↦ isPlain_of_mem_barred d
  obtain ⟨opening, t, closing, hmarks, -, ⟨hmode, hready, -⟩, hchar, hrole, hafter⟩ :=
    Nesting.marksAhead_parens (s := .start 1) more 0 rfl rfl hplain
  have hdepth : closing.depth = 0 := by
    rw [Mark.depth, hafter]
    rfl
  show (casePatternFrom .before (marks d.profile _).tail).map (· + 1) = _
  rw [marks, marksFrom_append, LeadingPart.text_alternatives, hmarks, List.cons_append,
    List.tail_cons, List.append_assoc, casePatternFrom_barred _ _ _ hmode hready,
    List.singleton_append, casePatternFrom_closing _ (by decide) hrole hchar hdepth]
  simp [Nat.add_comm]

/-- A keyword is found up to the space behind it. -/
theorem afterLeading?_keyword (hd : d ≠ .pwsh) (word : ClauseKeyword) (rest : List Char) :
    afterLeading? d.profile (word.text ++ ' ' :: rest) = some (' ' :: rest) := by
  have hvisible : ∀ c ∈ word.text, (!isSpace c && c != ';') = true := by
    cases word <;> exact List.all_eq_true.1 (by decide)
  have hkeyword : d.profile.clauseWords.any (d.profile.isKeyword word.text) = true := by
    cases d
    case pwsh => exact absurd rfl hd
    all_goals cases word <;> decide
  have hcut : cutWhile (fun c ↦ !isSpace c && c != ';') (word.text ++ ' ' :: rest) =
      (word.text, ' ' :: rest) :=
    cutWhile_append hvisible (by simp [show isSpace ' ' = true by decide])
  have hfound : afterKeyword? d.profile (word.text ++ ' ' :: rest) = some (' ' :: rest) := by
    unfold afterKeyword?
    rw [hcut]
    split
    · next heq => cases word <;> simp [ClauseKeyword.text] at heq
    · next heq =>
      cases heq
      exact if_pos hkeyword
  rw [afterLeading?, hfound]
  rfl

theorem skipSpaces?_space {c : Char} (rest : List Char) (visible : isSpace c = false) :
    skipSpaces? (' ' :: c :: rest) = some (c :: rest) := by
  rw [skipSpaces?, if_pos (by decide), trimStart_cons rest visible]

/-- A word without quotes is the subject of a case command in one way. -/
theorem caseSubjects_caseWord (subject : CaseWord) (rest : List Char) :
    caseSubjects (subject.text ++ ' ' :: rest) = [' ' :: rest] := by
  have hcut : cutWhile (fun c ↦ !isSpace c) (subject.text ++ ' ' :: rest) =
      (subject.text, ' ' :: rest) :=
    cutWhile_append (fun e he ↦ by simp [(isOrdinary_iff.1 (subject.ordinary e he)).1])
      (by simp [show isSpace ' ' = true by decide])
  obtain ⟨c, more, hsubject⟩ := List.exists_cons_of_ne_nil subject.full
  have hc := subject.ordinary c (by simp [hsubject])
  have hquote : ¬ (c = '"' ∨ c = '\'') := by
    rintro (h | h) <;> exact ne_of_isOrdinary hc (by decide) h
  unfold caseSubjects
  rw [hcut, hsubject]
  simp [hquote]

/-- The keyword `in` is found up to the visible character behind it. -/
theorem afterIn?_in {c : Char} (rest : List Char) (visible : isSpace c = false) :
    afterIn? (" in ".toList ++ c :: rest) = some (c :: rest) := by
  have hin : skipSpaces? (" in ".toList ++ c :: rest) = some ("in".toList ++ ' ' :: c :: rest) :=
    skipSpaces?_space ('n' :: ' ' :: c :: rest) (by decide)
  rw [afterIn?, hin, Option.bind_some, after?_eq_some_iff.2 rfl]
  exact skipSpaces?_space rest visible

/-- The head of a case command is found up to the visible character behind it. -/
theorem afterLeading?_caseHead (hd : d ≠ .pwsh) (subject : CaseWord) {c : Char}
    (rest : List Char) (visible : isSpace c = false) :
    afterLeading? d.profile ((LeadingPart.caseHead subject).text ++ ' ' :: c :: rest) =
      some (c :: rest) := by
  have htext : (LeadingPart.caseHead subject).text ++ ' ' :: c :: rest =
      "case".toList ++ ' ' :: (subject.text ++ (" in ".toList ++ c :: rest)) := by
    simp [LeadingPart.text_caseHead]
  have hcase : ∀ e ∈ "case".toList, isSpace e = false ∧ e ≠ ';' := by
    have hall : "case".toList.all (fun e ↦ !isSpace e && e != ';') = true := by decide
    simpa using hall
  have hkeyword : afterKeyword? d.profile
      ("case".toList ++ ' ' :: (subject.text ++ (" in ".toList ++ c :: rest))) = none :=
    afterKeyword?_of_word _ hcase (d.any_clauseWords_eq_false (by decide))
  have hskip := skipSpaces?_name (" in ".toList ++ c :: rest) subject.full subject.ordinary
  have hhead : caseHead? ("case".toList ++ ' ' :: (subject.text ++ (" in ".toList ++ c :: rest))) =
      some (c :: rest) := by
    have hsubjects := caseSubjects_caseWord subject ("in ".toList ++ c :: rest)
    rw [caseHead?, after?_eq_some_iff.2 rfl, Option.bind_some, hskip, Option.bind_some]
    exact (congrArg (List.findSome? afterIn?) hsubjects).trans (by
      rw [List.findSome?_singleton]
      exact afterIn?_in rest visible)
  rw [htext, afterLeading?, hkeyword, afterCase?, if_pos (Dialect.casePatterns_eq_true hd), hhead]
  rfl

/-- A visible text with a closing parenthesis in which the pattern reader finds a pattern is dropped
as one. -/
theorem afterLeading?_of_casePattern (hd : d ≠ .pwsh) {pattern : List Char} (rest : List Char)
    (hvisible : ∀ c ∈ pattern, isSpace c = false ∧ c ≠ ';') (paren : ')' ∈ pattern)
    (found : casePatternLength? d.profile (pattern ++ ' ' :: rest) = some pattern.length) :
    afterLeading? d.profile (pattern ++ ' ' :: rest) = some (' ' :: rest) := by
  have hkeyword : afterKeyword? d.profile (pattern ++ ' ' :: rest) = none := by
    refine afterKeyword?_of_word rest hvisible (d.any_clauseWords_eq_false fun h ↦ ?_)
    have hnone : ["then".toList, "else".toList, "do".toList].all (fun w ↦ ')' ∉ w) = true := by
      decide
    exact absurd paren (by simpa using List.all_eq_true.1 hnone pattern h)
  have hhead : caseHead? (pattern ++ ' ' :: rest) = none := by
    have hcase : "case".toList ≠ pattern := by
      rintro rfl
      exact absurd paren (by decide)
    rw [caseHead?, bind_skipSpaces?_after? (x := ' ') (by decide) (fun c hc ↦ (hvisible c hc).1)
      fun h ↦ absurd h hcase]
    rfl
  rw [afterLeading?, hkeyword, afterCase?, if_pos (Dialect.casePatterns_eq_true hd), hhead, found]
  simp

/-- A part is dropped, and nothing of what follows it. -/
theorem dropLeading_part (hd : d ≠ .pwsh) (q : LeadingPart) {c : Char} (rest : List Char)
    (visible : isSpace c = false) :
    dropLeading d.profile (q.text ++ ' ' :: c :: rest) = dropLeading d.profile (c :: rest) := by
  have hkept : trimStart (c :: rest) = c :: rest := trimStart_cons rest visible
  have hblank : trimStart (' ' :: c :: rest) = c :: rest := by
    simp [trimStart, visible, show isSpace ' ' = true by decide]
  have hordinary {e : Char} (h : isOrdinary e = true) : isSpace e = false ∧ e ≠ ';' :=
    ⟨(isOrdinary_iff.1 h).1, ne_of_isOrdinary h (by decide)⟩
  cases q with
  | keyword word =>
    rw [LeadingPart.text_keyword, dropLeading_of_some (afterLeading?_keyword hd word _), hblank]
  | caseHead subject =>
    rw [dropLeading_of_some (afterLeading?_caseHead hd subject rest visible), hkept]
  | pattern word =>
    have hpattern : ∀ e ∈ (LeadingPart.pattern word).text, isSpace e = false ∧ e ≠ ';' := by
      intro e he
      rcases List.mem_append.1 he with he | he
      · exact hordinary (word.ordinary e he)
      · rw [List.mem_singleton.1 he]
        decide
    rw [dropLeading_of_some (afterLeading?_of_casePattern hd _ hpattern
      (by simp [LeadingPart.text_pattern]) (casePatternLength?_pattern word _)), hblank]
  | alternatives first others =>
    have hpattern : ∀ e ∈ (LeadingPart.alternatives first others).text,
        isSpace e = false ∧ e ≠ ';' := by
      intro e he
      simp only [LeadingPart.text_alternatives, List.mem_cons, List.mem_append, List.not_mem_nil,
        or_false] at he
      rcases he with rfl | he | rfl
      · decide
      · rcases isCaseChar_of_mem_barred he with he | rfl
        · exact hordinary (isOrdinary_of_isCaseChar he)
        · decide
      · decide
    rw [dropLeading_of_some (afterLeading?_of_casePattern hd _ hpattern
      (by simp [LeadingPart.text_alternatives]) (casePatternLength?_alternatives first others _)),
      hblank]

/-- All parts in front of a visible text are dropped. -/
theorem dropLeading_front (hd : d ≠ .pwsh) (parts : List LeadingPart) {c : Char} (rest : List Char)
    (visible : isSpace c = false) :
    dropLeading d.profile (LeadingPart.front parts ++ c :: rest) =
      dropLeading d.profile (c :: rest) := by
  induction parts with
  | nil => rfl
  | cons q parts ih =>
    obtain ⟨e, more, hnext, he⟩ : ∃ e more,
        LeadingPart.front parts ++ c :: rest = e :: more ∧ isSpace e = false := by
      cases parts with
      | nil => exact ⟨c, rest, rfl, visible⟩
      | cons k parts =>
        obtain ⟨e, more, hk, he⟩ := k.exists_visible
        exact ⟨e, _, by rw [LeadingPart.front_cons, hk]; rfl, he⟩
    rw [LeadingPart.front_cons, List.append_assoc, List.cons_append, hnext,
      dropLeading_part hd q more he, ← hnext, ih]

/-- The characters of parts, and of the spaces behind them. -/
theorem LeadingPart.of_mem_front {parts : List LeadingPart} {c : Char} (h : c ∈ front parts) :
    isCaseChar c = true ∨ c ∈ [' ', '(', ')', '|'] := by
  have hfixed (text : List Char)
      (hall : text.all (fun c ↦ isCaseChar c || c ∈ [' ', '(', ')', '|']) = true) (h : c ∈ text) :
      isCaseChar c = true ∨ c ∈ [' ', '(', ')', '|'] := by
    simpa using List.all_eq_true.1 hall c h
  obtain ⟨q, -, h⟩ := List.mem_flatMap.1 h
  rcases List.mem_append.1 h with h | h
  · cases q with
    | keyword word => cases word <;> exact hfixed _ (by decide +kernel) h
    | caseHead subject =>
      rcases List.mem_append.1 h with h | h
      · exact (List.mem_append.1 h).elim (hfixed _ (by decide +kernel)) fun h ↦
          .inl (subject.chars c h)
      · exact hfixed _ (by decide +kernel) h
    | pattern word =>
      exact (List.mem_append.1 h).elim (fun h ↦ .inl (word.chars c h)) (hfixed _ (by decide))
    | alternatives first others =>
      rcases List.mem_cons.1 h with rfl | h
      · exact .inr (by decide)
      · exact (List.mem_append.1 h).elim
          (fun h ↦ (isCaseChar_of_mem_barred h).imp_right (by simp [·])) (hfixed _ (by decide))
  · exact hfixed _ (by decide) h

/-- Parts in front of a visible text do not change what the text defines as a statement. -/
theorem Extraction.ofStatement_front (hd : d ≠ .pwsh) (file : Path) (line : Nat) (isLast : Bool)
    (parts : List LeadingPart) {c : Char} (rest : List Char) (visible : isSpace c = false) :
    ofStatement d.profile file ⟨0, line, LeadingPart.front parts ++ c :: rest⟩ isLast =
      ofStatement d.profile file ⟨0, line, c :: rest⟩ isLast := by
  set s : Statement := ⟨0, line, LeadingPart.front parts ++ c :: rest⟩ with hs
  set t : Statement := ⟨0, line, c :: rest⟩ with ht
  obtain ⟨leading, htext, -, hline⟩ := s.exists_leading d.profile
  obtain ⟨leading', htext', -, hline'⟩ := t.exists_leading d.profile
  have hcommand : (s.command d.profile).text = (t.command d.profile).text :=
    dropLeading_front hd parts rest visible
  -- The same text is dropped behind the parts, and no part holds a newline.
  have hleading : leading = LeadingPart.front parts ++ leading' := by
    rw [hcommand] at htext
    refine List.append_cancel_right (htext.symm.trans ?_)
    rw [List.append_assoc, ← htext']
  have hnewline : '\n' ∉ LeadingPart.front parts :=
    fun h ↦ absurd (LeadingPart.of_mem_front h) (by decide +kernel)
  have hsame : (s.command d.profile).line = (t.command d.profile).line := by
    rw [hline, hline', hleading, lineAfter_append, hs, ht, lineAfter_of_not_mem line hnewline]
  exact ofStatement_congr file isLast hcommand hsame

/-- A line of parts and an alias command defines what the command defines. -/
theorem Extraction.ofText_front (hd : d ≠ .pwsh) (file : Path) (line : Nat)
    (parts : List LeadingPart) {command : List (ProposedAlias × Bool)} (full : command ≠ [])
    (quotable : ∀ a ∈ command, a.1.IsQuotable) :
    ofText d.profile file (LeadingPart.front parts ++ aliasLine command) line =
      concat (command.map fun a ↦ define d.profile file line .alias a.1.name a.1.body) := by
  obtain ⟨first, others, hrow, hsolid⟩ :=
    LeadingPart.exists_row_front parts (solidWord_of_mem_aliasLine (d := d) quotable)
  have hsingle : statements d.profile (LeadingPart.front parts ++ aliasLine command) line =
      [⟨0, line, LeadingPart.front parts ++ aliasLine command⟩] := by
    rw [aliasLine, hrow]
    exact statements_row d.isPlain_space hsolid
  have hcommand : (⟨0, line, aliasLine command⟩ : Statement).command d.profile =
      ⟨0, line, aliasLine command⟩ :=
    Statement.command_of_none (afterLeading?_aliasLine full quotable)
  have hgroup : braceGroup? d.profile (aliasLine command) = none := braceGroup?_alias d _
  have hfront : ofStatement d.profile file ⟨0, line, LeadingPart.front parts ++ aliasLine command⟩
      true = ofStatement d.profile file ⟨0, line, aliasLine command⟩ true :=
    ofStatement_front hd file line true parts _ (by decide)
  rw [ofText_eq, hsingle, List.map_singleton, List.getLast?_singleton, decide_eq_true rfl, hfront,
    ofStatement, hcommand, hgroup, ofCommand_aliasLine hd file 0 line true quotable]
  exact append_empty _

/-- A line of parts and an alias command is one logical line. -/
theorem logicalLines_front (parts : List LeadingPart) {command : List (ProposedAlias × Bool)}
    (quotable : ∀ a ∈ command, a.1.IsQuotable) :
    logicalLines d.profile (LeadingPart.front parts ++ aliasCommand command) =
      [⟨LeadingPart.front parts ++ aliasLine command, 1, none⟩] := by
  obtain ⟨first, others, hrow, hsolid⟩ :=
    LeadingPart.exists_row_front parts (solidWord_of_mem_aliasLine (d := d) quotable)
  have hline : SolidLine d.profile (LeadingPart.front parts ++ aliasLine command) := by
    rw [aliasLine, hrow]
    exact solidLine_row d.isPlain_space hsolid
  have hlines := logicalLines_lines (by cases d <;> decide) (by cases d <;> decide)
    (List.forall_mem_singleton.2 hline)
  rw [aliasCommand_eq, ← List.append_assoc]
  simpa [numberedFrom] using hlines

/-- Nothing is taken out of a line of parts and an alias command when a file is read. -/
theorem cleanText_front (parts : List LeadingPart) {command : List (ProposedAlias × Bool)}
    (quotable : ∀ a ∈ command, a.1.IsQuotable ∧ '\r' ∉ a.1.body) :
    cleanText (LeadingPart.front parts ++ aliasCommand command) =
      LeadingPart.front parts ++ aliasCommand command := by
  refine cleanText_eq_self ?_ fun h ↦ ?_
  · cases hfront : LeadingPart.front parts with
    | nil =>
      show some 'a' ≠ some '\ufeff'
      decide
    | cons c rest =>
      rintro ⟨⟩
      have hmark := @LeadingPart.of_mem_front parts '\ufeff' (by simp [hfront])
      exact absurd hmark (by decide +kernel)
  · rcases List.mem_append.1 h with h | h
    · exact absurd (LeadingPart.of_mem_front h) (by decide +kernel)
    · exact return_not_mem_aliasCommand quotable h

end Parts

/-- Keywords, heads of case commands and patterns in front of an alias command, any number of them
in any order, are read over: the alias is defined as if the command stood alone, and there is
nothing else. -/
theorem findings_leadingParts {d : Dialect} (hd : d ≠ .pwsh) (path : Path)
    (parts : List LeadingPart) {a : ProposedAlias}
    (accepted : d.profile.aliasNames.accepts a.name = true)
    (body : '\'' ∉ a.body ∧ '\r' ∉ a.body) :
    (Source.ofText path (LeadingPart.front parts ++ aliasCommand [(a, false)])).findings (some d) =
      .ok ⟨[⟨.ofList a.name, .alias, .ofList a.body, path, 1⟩], []⟩ := by
  have hquotable : ∀ b ∈ [(a, false)], b.1.IsQuotable ∧ '\r' ∉ b.1.body :=
    List.forall_mem_singleton.2 ⟨⟨NameRule.ne_nil_of_accepts accepted,
      Dialect.isOrdinary_aliasName hd accepted, body.1⟩, body.2⟩
  have hlines := logicalLines_front (d := d) parts fun b hb ↦ (hquotable b hb).1
  have hfound : Extraction.ofLine d.profile path
      ⟨LeadingPart.front parts ++ aliasLine [(a, false)], 1, none⟩ =
        ⟨[⟨.ofList a.name, .alias, .ofList a.body, path, 1⟩], [], none⟩ := by
    refine (Extraction.ofText_front hd path 1 parts (List.cons_ne_nil _ _)
      fun b hb ↦ (hquotable b hb).1).trans ?_
    simp [Extraction.concat, define, Profile.nameRule, accepted]
  show Except.ok (Findings.ofSource d.profile ⟨path, cleanText _⟩) = _
  rw [cleanText_front parts hquotable, Findings.ofSource, hlines, Findings.ofLines,
    Findings.ofLines, LogicalLine.behind, hfound]
  rfl

/-- The pattern `then)` is no keyword, `case` and `in` may be subjects, and a quoted bar is text. -/
theorem findings_leadingParts_of_mixed :
    (Source.ofText ⟨"rc"⟩
        "do case in in (*.t?r|x-1|_) then then) else case) alias ll='ls | wc'\n".toList).findings
          (some .zsh) =
      .ok ⟨[⟨"ll", .alias, "ls | wc", ⟨"rc"⟩, 1⟩], []⟩ := by
  let word (text : String) (full : text.toList ≠ []) (chars : text.toList.all isCaseChar = true) :
      CaseWord := ⟨text.toList, full, List.all_eq_true.1 chars⟩
  let parts : List LeadingPart :=
    [.keyword .loopBody, .caseHead (word "in" (by decide) (by decide +kernel)),
      .alternatives (word "*.t?r" (by decide) (by decide +kernel))
        [word "x-1" (by decide) (by decide +kernel), word "_" (by decide) (by decide +kernel)],
      .keyword .thenBranch, .pattern (word "then" (by decide) (by decide +kernel)),
      .keyword .elseBranch, .pattern (word "case" (by decide) (by decide +kernel))]
  exact @findings_leadingParts .zsh (by decide) ⟨"rc"⟩ parts ⟨"ll".toList, "ls | wc".toList⟩
    (by decide) (by decide)

end ShellCatalog
