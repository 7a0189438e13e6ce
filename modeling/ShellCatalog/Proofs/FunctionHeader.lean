import ShellCatalog.Extraction
import ShellCatalog.Proofs.CommandStart

/-!
# Headers of functions are read back

A header is written as a name and an empty pair of parentheses, or as a keyword and a name. Either
way it is a row of solid words (`solidWord_of_mem_headerWords`), so it is read without leaving
anything open.

**Four readers look at the start of a statement before the header is tried**: for a keyword, for the
head of a case command, for a pattern and for an alias command. None of them takes a header with a
good name for its own, whatever name it is: the parenthesis behind the name, or the keyword in front
of it, is what they meet first.
-/

namespace ShellCatalog

/-- The ways to write the header of a function. -/
inductive HeaderStyle
  /-- The name and an empty pair of parentheses. -/
  | parens
  /-- The keyword `function` and the name. -/
  | keyword
  deriving DecidableEq, Repr

/-- The state is that in front of a text, but for the last character. -/
def Nesting.JustStarted (s : Nesting) : Prop :=
  ∃ last, s = { start 1 with last := last }

theorem Nesting.justStarted_start : (start 1).JustStarted :=
  ⟨none, rfl⟩

namespace HeaderStyle

/-- The dialect has this way to write a header. -/
def isOf (d : Dialect) : HeaderStyle → Bool
  | parens => d.profile.parensHeader
  | keyword => d.profile.functionKeyword.isSome

/-- The first word of a header, and the words behind it. -/
def parts (name : List Char) : HeaderStyle → List Char × List (List Char)
  | parens => (name ++ ['(', ')'], [])
  | keyword => ("function".toList, [name])

/-- The text of a header. -/
def write (style : HeaderStyle) (name : List Char) : List Char :=
  row (style.parts name).1 (style.parts name).2

theorem write_parens (name : List Char) : parens.write name = name ++ ['(', ')'] :=
  row_nil _

theorem write_keyword (name : List Char) :
    keyword.write name = "function".toList ++ ' ' :: name := by
  show row "function".toList [name] = _
  rw [row_cons, row_nil]

end HeaderStyle

section Header

variable {d : Dialect} {name : List Char}

theorem isBare_of_mem_functionName (named : d.profile.functionNames.accepts name = true) :
    ∀ c ∈ name, d.profile.isBare c = true :=
  fun c hc ↦ d.isBare_of_isOrdinary (Dialect.isOrdinary_functionName named c hc)

theorem Dialect.escape_ne_of_mem (d : Dialect) {c : Char} (hc : c ∈ ['(', ')', '{', '}', '\n']) :
    d.profile.escape ≠ c ∧ d.profile.comment ≠ c := by
  have hall : ['(', ')', '{', '}', '\n'].all (fun c ↦
      d.profile.escape ≠ c && d.profile.comment ≠ c) = true := by
    cases d <;> decide
  simpa using List.all_eq_true.1 hall c hc

/-- A parenthesis in code belongs to its word. -/
theorem Mark.isSolid_of_paren {m : Mark} (role : m.role = .code)
    (char : m.char = '(' ∨ m.char = ')') : m.IsSolid :=
  Mark.isSolid_of_code role (by rcases char with h | h <;> rw [h] <;> decide)

/-- The marks of plain text between parentheses: the text is read inside one more group, and behind
it the state is the one in front but for the last character. -/
theorem Nesting.marksAhead_parens {s : Nesting} {inner : List Char} (ahead : List Char)
    (offset : Nat) (code : s.mode = .code) (ready : s.escaping = false)
    (plain : ∀ c ∈ inner, d.profile.isPlain c = true) :
    ∃ opening t closing,
      marksAhead d.profile ahead s offset ('(' :: (inner ++ [')'])) =
        opening :: (marksAhead d.profile (')' :: ahead) t (offset + 1) inner ++ [closing]) ∧
      (opening.char = '(' ∧ opening.role = .code) ∧
      (t.mode = .code ∧ t.escaping = false ∧ t.depth = s.depth + 1) ∧
      closing.char = ')' ∧ closing.role = .code ∧
        closing.after = { s with last := some (')', .code) } := by
  obtain ⟨hescape, hcomment⟩ := d.escape_ne_of_mem (c := '(') (by decide)
  obtain ⟨hescape', hcomment'⟩ := d.escape_ne_of_mem (c := ')') (by decide)
  have hopen := step_opener (b := .paren) (inner ++ [')'] ++ ahead) code ready rfl hescape hcomment
  set t : Nesting :=
    { s with groups := ⟨.paren, s.line, none⟩ :: s.groups, last := some ('(', .code) } with ht
  have hinner := afterText_plain (s := t) (')' :: ahead) code ready plain
  have hclose := step_closer (s := t.afterText d.profile inner (')' :: ahead)) (c := ')')
    ahead (by rw [hinner]; exact code) (by rw [hinner]; exact ready) rfl (by rw [hinner])
    hescape' hcomment'
  refine ⟨⟨offset, '(', .code, s, t⟩, t, ⟨offset + 1 + byteLength inner, ')', .code,
    t.afterText d.profile inner (')' :: ahead), { s with last := some (')', .code) }⟩, ?_,
    ⟨rfl, rfl⟩, ⟨code, ready, rfl⟩, rfl, rfl, rfl⟩
  rw [marksAhead_cons, hopen, marksAhead_append, afterMarks_marksAhead, List.singleton_append,
    marksAhead_cons, List.nil_append, hclose, hinner]
  rfl

/-- A bare text and plain text between parentheses are one word, blanks and separators between the
parentheses included. -/
theorem solidWord_bare_parens {inner : List Char} (bare : ∀ c ∈ name, d.profile.isBare c = true)
    (plain : ∀ c ∈ inner, d.profile.isPlain c = true) :
    SolidWord d.profile (name ++ '(' :: (inner ++ [')'])) := by
  have hname : ∀ c ∈ name, d.profile.isPlain c = true :=
    fun c hc ↦ (Profile.isBare_iff.1 (bare c hc)).1
  refine ⟨?_, ?_, fun {s ahead offset} hs m hm ↦ ?_, fun {s ahead} hs ↦ ?_⟩
  · cases name with
    | nil => exact ⟨'(', _, rfl, by decide⟩
    | cons c rest => exact ⟨c, _, rfl, (Profile.isBare_iff.1 (bare c List.mem_cons_self)).2.1⟩
  · have hkept := trimEnd_concat (c := ')') (name ++ '(' :: inner) (by decide)
    rwa [List.append_assoc] at hkept
  · obtain ⟨hmode, -, -, hready⟩ := Nesting.isBalanced_iff.1 hs.balanced
    rw [marksAhead_append, Nesting.afterMarks_marksAhead,
      Nesting.afterText_plain _ hmode hready hname] at hm
    obtain ⟨opening, t, closing, hmarks, hopening, ⟨hmode', hready', hinside⟩, hchar, hrole, -⟩ :=
      Nesting.marksAhead_parens (s := { s with
        last := (name.getLast?.map fun c ↦ (c, CharRole.code)).or s.last }) ahead
        (offset + byteLength name) hmode hready plain
    rw [hmarks] at hm
    rcases List.mem_append.1 hm with hm | hm
    · exact isSolid_of_mem_bare hmode hready bare hm
    rcases List.mem_cons.1 hm with rfl | hm
    · exact Mark.isSolid_of_paren hopening.2 (.inl hopening.1)
    rcases List.mem_append.1 hm with hm | hm
    · obtain ⟨-, -, hgroups⟩ := Nesting.mem_marksAhead_plain hmode' hready' plain hm
      have hdepth : m.depth ≠ 0 := by
        rw [Mark.depth, Nesting.depth, hgroups, ← Nesting.depth, hinside]
        exact Nat.succ_ne_zero _
      exact ⟨Mark.isUnbroken_of_depth hdepth, fun next ↦ by
        simp [Mark.separatesWords, Mark.isTopCode, hdepth]⟩
    · obtain rfl := List.mem_singleton.1 hm
      exact Mark.isSolid_of_paren hrole (.inr hchar)
  · obtain ⟨hmode, hgroups, hdocs, hready⟩ := Nesting.isBalanced_iff.1 hs.balanced
    rw [Nesting.afterText_append, Nesting.afterText_plain _ hmode hready hname]
    obtain ⟨opening, t, closing, hmarks, -, -, -, -, hafter⟩ :=
      Nesting.marksAhead_parens (s := { s with
        last := (name.getLast?.map fun c ↦ (c, CharRole.code)).or s.last }) ahead 0 hmode hready
        plain
    rw [← Nesting.afterMarks_marksAhead d.profile ahead _ 0, hmarks, Nesting.afterMarks_cons,
      Nesting.afterMarks_append, Nesting.afterMarks_cons, Nesting.afterMarks_nil, hafter]
    exact Nesting.isBalanced_iff.2 ⟨hmode, hgroups, hdocs, hready⟩

/-- The words of a header are solid. -/
theorem solidWord_of_mem_headerWords (style : HeaderStyle)
    (named : d.profile.functionNames.accepts name = true) :
    ∀ w ∈ (style.parts name).1 :: (style.parts name).2, SolidWord d.profile w := by
  have full := NameRule.ne_nil_of_accepts named
  have bare := isBare_of_mem_functionName named
  intro w hw
  cases style with
  | parens =>
    obtain rfl := List.mem_singleton.1 hw
    exact solidWord_bare_parens bare (List.forall_mem_nil _)
  | keyword =>
    have hkeyword : ∀ c ∈ "function".toList, d.profile.isBare c = true := by
      cases d <;> exact List.all_eq_true.1 (by decide)
    rcases List.mem_cons.1 hw with rfl | hw
    · exact solidWord_bare (List.cons_ne_nil _ _) hkeyword
    · obtain rfl := List.mem_singleton.1 hw
      exact solidWord_bare full bare

/-- The first word of a text that begins with a header is that of the header. -/
theorem exists_words_header (style : HeaderStyle) (rest : List Char)
    (named : d.profile.functionNames.accepts name = true) :
    ∃ others, words d.profile (style.write name ++ ' ' :: rest) =
      (style.parts name).1 :: others := by
  have hfirst := solidWord_of_mem_headerWords style named _ List.mem_cons_self
  obtain ⟨more, hmore⟩ : ∃ more, style.write name ++ ' ' :: rest =
      (style.parts name).1 ++ ' ' :: more := by
    cases style with
    | parens => exact ⟨_, by rw [HeaderStyle.write_parens]; rfl⟩
    | keyword => exact ⟨_, by rw [HeaderStyle.write_keyword, List.append_assoc]; rfl⟩
  rw [hmore]
  exact exists_words_solidWord more d.isPlain_space hfirst

/-- A header leaves nothing behind but its last character. -/
theorem justStarted_afterText_write (style : HeaderStyle) (ahead : List Char)
    (named : d.profile.functionNames.accepts name = true) :
    ((Nesting.start 1).afterText d.profile (style.write name) ahead).JustStarted := by
  have plain : ∀ c ∈ name, d.profile.isPlain c = true :=
    fun c hc ↦ (Profile.isBare_iff.1 (isBare_of_mem_functionName named c hc)).1
  cases style with
  | parens =>
    have hopen := d.escape_ne_of_mem (c := '(') (by decide)
    have hclose := d.escape_ne_of_mem (c := ')') (by decide)
    rw [HeaderStyle.write_parens, Nesting.afterText_append, Nesting.afterText_plain _ rfl rfl plain,
      Nesting.afterText_cons, Nesting.step_opener _ rfl rfl rfl hopen.1 hopen.2,
      Nesting.afterText_cons, Nesting.step_closer _ rfl rfl rfl rfl hclose.1 hclose.2]
    exact ⟨_, rfl⟩
  | keyword =>
    have hlead : ∀ c ∈ "function".toList ++ [' '], d.profile.isPlain c = true := by
      cases d <;> exact List.all_eq_true.1 (by decide)
    have hkeyword : ∀ c ∈ "function".toList ++ ' ' :: name, d.profile.isPlain c = true := by
      intro c hc
      rw [List.append_cons] at hc
      exact (List.mem_append.1 hc).elim (hlead c) (plain c)
    rw [HeaderStyle.write_keyword, Nesting.afterText_plain _ rfl rfl hkeyword]
    exact ⟨_, rfl⟩

/-! ### The readers in front -/

/-- The first word of a header is no keyword but `function`, since otherwise it holds a
parenthesis. -/
theorem isKeyword_header (d : Dialect) (name : List Char) (style : HeaderStyle) {keyword : String}
    (paren : '(' ∉ keyword.toList) (other : sameWord "function".toList keyword.toList = false) :
    d.profile.isKeyword (style.parts name).1 keyword = false := by
  have hsame : sameWord (style.parts name).1 keyword.toList = false := by
    cases style with
    | parens =>
      have hmem : '(' ∈ (HeaderStyle.parens.parts name).1 :=
        List.mem_append_right name List.mem_cons_self
      by_contra h
      rw [Bool.not_eq_false, sameWord_comm] at h
      exact paren (mem_of_sameWord (by decide) (by decide) h hmem)
    | keyword => exact other
  have hne : ((style.parts name).1 == keyword.toList) = false := by
    by_contra h
    rw [Bool.not_eq_false, beq_iff_eq] at h
    rw [h, sameWord_self] at hsame
    exact Bool.noConfusion hsame
  unfold Profile.isKeyword
  split
  · exact hsame
  · exact hne

theorem afterKeyword?_header (style : HeaderStyle) (rest : List Char)
    (named : d.profile.functionNames.accepts name = true) :
    afterKeyword? d.profile (style.write name ++ ' ' :: rest) = none := by
  have hclause : d.profile.clauseWords.any (d.profile.isKeyword (style.parts name).1) = false := by
    have hwords : d.profile.clauseWords.all (fun keyword ↦ '(' ∉ keyword.toList &&
        !sameWord "function".toList keyword.toList) = true := by
      cases d <;> decide
    rw [List.any_eq_false]
    intro keyword hkeyword
    have h := List.all_eq_true.1 hwords keyword hkeyword
    rw [Bool.and_eq_true, decide_eq_true_eq, Bool.not_eq_true'] at h
    rw [isKeyword_header d name style h.1 h.2]
    exact Bool.false_ne_true
  cases style with
  | parens =>
    rw [HeaderStyle.write_parens]
    refine afterKeyword?_of_word rest (fun c hc ↦ ?_) hclause
    rcases List.mem_append.1 hc with hc | hc
    · have hordinary := Dialect.isOrdinary_functionName named c hc
      exact ⟨(isOrdinary_iff.1 hordinary).1, ne_of_isOrdinary hordinary (by decide)⟩
    · have hall : ['(', ')'].all (fun c ↦ !isSpace c && c ≠ ';') = true := by decide
      simpa using List.all_eq_true.1 hall c hc
  | keyword =>
    rw [HeaderStyle.write_keyword, List.append_assoc, List.cons_append]
    have hall : "function".toList.all (fun c ↦ !isSpace c && c ≠ ';') = true := by decide
    exact afterKeyword?_of_word _ (fun c hc ↦ by simpa using List.all_eq_true.1 hall c hc) hclause

theorem HeaderStyle.write_parens_append (name rest : List Char) :
    parens.write name ++ ' ' :: rest = name ++ '(' :: ')' :: ' ' :: rest := by
  rw [write_parens, List.append_assoc]
  rfl

theorem caseHead?_header (style : HeaderStyle) (rest : List Char)
    (named : d.profile.functionNames.accepts name = true) :
    caseHead? (style.write name ++ ' ' :: rest) = none := by
  cases style with
  | parens =>
    have hvisible : ∀ c ∈ name, isSpace c = false :=
      fun c hc ↦ (isOrdinary_iff.1 (Dialect.isOrdinary_functionName named c hc)).1
    rw [HeaderStyle.write_parens_append, caseHead?,
      bind_skipSpaces?_after? (by decide) hvisible fun _ ↦ by decide]
    rfl
  | keyword =>
    rw [HeaderStyle.write_keyword]
    rfl

theorem casePatternLength?_header (style : HeaderStyle) (rest : List Char)
    (named : d.profile.functionNames.accepts name = true) :
    casePatternLength? d.profile (style.write name ++ ' ' :: rest) = none := by
  have full := NameRule.ne_nil_of_accepts named
  have ordinary := Dialect.isOrdinary_functionName named
  cases style with
  | parens =>
    rw [HeaderStyle.write_parens_append]
    exact casePatternLength?_paren d _ full ordinary
  | keyword =>
    rw [HeaderStyle.write_keyword, List.append_assoc, List.cons_append]
    cases name with
    | nil => exact absurd rfl full
    | cons c name =>
      exact casePatternLength?_twoWords d _ (List.cons_ne_nil _ _) (List.all_eq_true.1 (by decide))
        (endsNoPattern_of_isOrdinary (ordinary c List.mem_cons_self))

/-- A header does not begin a group. -/
theorem head?_header_ne_brace (style : HeaderStyle)
    (named : d.profile.functionNames.accepts name = true) :
    (style.parts name).1.head? ≠ some '{' := by
  cases style with
  | parens =>
    cases name with
    | nil => exact absurd rfl (NameRule.ne_nil_of_accepts named)
    | cons c name =>
      intro h
      obtain rfl : c = '{' := Option.some.inj h
      have hordinary := Dialect.isOrdinary_functionName named _ List.mem_cons_self
      exact absurd hordinary (by decide)
  | keyword =>
    show "function".toList.head? ≠ some '{'
    decide

theorem braceGroup?_header (style : HeaderStyle) (rest : List Char)
    (named : d.profile.functionNames.accepts name = true) :
    braceGroup? d.profile (style.write name ++ ' ' :: rest) = none := by
  obtain ⟨c, more, hword, -⟩ :=
    (solidWord_of_mem_headerWords style named _ List.mem_cons_self).visible
  refine if_neg fun h ↦ head?_header_ne_brace style named ?_
  rw [← h.2, HeaderStyle.write, row, hword]
  rfl

/-- Nothing that could be dropped stands in front of a header. -/
theorem afterLeading?_header (style : HeaderStyle) (rest : List Char)
    (named : d.profile.functionNames.accepts name = true) :
    afterLeading? d.profile (style.write name ++ ' ' :: rest) = none := by
  rw [afterLeading?, afterKeyword?_header style rest named, afterCase?,
    caseHead?_header style rest named, casePatternLength?_header style rest named]
  split <;> rfl

/-- A command that begins with a header is no alias command. -/
theorem proposedAliases?_header (style : HeaderStyle) (others : List (List Char)) :
    proposedAliases? d.profile ((style.parts name).1 :: others) = none := by
  cases d with
  | pwsh =>
    have hcommands : ["Set-Alias", "New-Alias", "sal", "nal"].any
        (Profile.pwsh.isKeyword (style.parts name).1) = false := by
      have hall : ["Set-Alias", "New-Alias", "sal", "nal"].all (fun keyword ↦
          '(' ∉ keyword.toList && !sameWord "function".toList keyword.toList) = true := by decide
      rw [List.any_eq_false]
      intro keyword hkeyword
      have h := List.all_eq_true.1 hall keyword hkeyword
      rw [Bool.and_eq_true, decide_eq_true_eq, Bool.not_eq_true'] at h
      have hnot := isKeyword_header .pwsh name style h.1 h.2
      exact fun hyes ↦ Bool.noConfusion (hyes.symm.trans hnot)
    exact if_neg fun hyes ↦ Bool.noConfusion (hyes.symm.trans hcommands)
  | bash | zsh | sh =>
    have hnot : Profile.bash.isKeyword (style.parts name).1 "alias" = false :=
      isKeyword_header .bash name style (by decide) (by decide)
    exact if_neg fun hyes ↦ Bool.noConfusion (hyes.symm.trans hnot)

/-! ### The header itself -/

theorem isHeaderNameChar_of_isOrdinary {c : Char} (h : isOrdinary c = true) :
    isHeaderNameChar c = true ∧ c ≠ '=' := by
  obtain ⟨hvisible, hspecial⟩ := isOrdinary_iff.1 h
  simp only [specialChars, List.mem_cons, List.not_mem_nil, or_false, not_or] at hspecial
  exact ⟨by simp [isHeaderNameChar, hvisible, hspecial], by simp [hspecial]⟩

theorem trimStart_space_brace (rest : List Char) :
    trimStart (' ' :: '{' :: rest) = '{' :: rest := by
  rw [trimStart, List.dropWhile_cons, if_pos (by decide), List.dropWhile_cons, if_neg (by decide)]

/-- A name behind a keyword ends where no part of a name stands. -/
theorem nameAndOptional_of_isOrdinary {c : Char} (optional : List Char → Option (List Char))
    (rest : List Char) (full : name ≠ []) (ordinary : ∀ c ∈ name, isOrdinary c = true)
    (ends : isHeaderNameChar c = false) :
    nameAndOptional optional (name ++ c :: rest) =
      some ⟨name, trimStart ((optional (trimStart (c :: rest))).getD (trimStart (c :: rest)))⟩ := by
  have hcut : cutWhile isHeaderNameChar (name ++ c :: rest) = (name, c :: rest) :=
    cutWhile_append (fun c hc ↦ (isHeaderNameChar_of_isOrdinary (ordinary c hc)).1)
      (by simp [ends])
  unfold nameAndOptional
  rw [hcut]
  split
  · next heq =>
    cases heq
    exact absurd rfl full
  · next heq =>
    cases heq
    rfl

/-- A blank in front of a name is dropped. -/
theorem skipSpaces?_name (rest : List Char) (full : name ≠ [])
    (ordinary : ∀ c ∈ name, isOrdinary c = true) :
    skipSpaces? (' ' :: (name ++ rest)) = some (name ++ rest) := by
  cases name with
  | nil => exact absurd rfl full
  | cons c name =>
    exact congrArg some (trimStart_cons _ (isOrdinary_iff.1 (ordinary c List.mem_cons_self)).1)

/-- A keyword in front of a name introduces a header, in both forms. -/
theorem FunctionKeyword.read?_keyword (form : FunctionKeyword) (rest : List Char)
    (full : name ≠ []) (ordinary : ∀ c ∈ name, isOrdinary c = true) :
    form.read? (HeaderStyle.keyword.write name ++ ' ' :: '{' :: rest) =
      some ⟨name, '{' :: rest⟩ := by
  have hname (optional : List Char → Option (List Char)) (none : optional ('{' :: rest) = none) :
      nameAndOptional optional (name ++ ' ' :: '{' :: rest) = some ⟨name, '{' :: rest⟩ := by
    rw [nameAndOptional_of_isOrdinary optional _ full ordinary (by decide),
      trimStart_space_brace, none, Option.getD_none, trimStart_cons rest (by decide)]
  rw [HeaderStyle.write_keyword, List.append_assoc, List.cons_append]
  cases form with
  | function =>
    show (skipSpaces? (' ' :: (name ++ ' ' :: '{' :: rest))).bind (nameAndOptional emptyParens?) = _
    rw [skipSpaces?_name _ full ordinary]
    exact hname emptyParens? rfl
  | functionOrFilter =>
    show (skipSpaces? (' ' :: (name ++ ' ' :: '{' :: rest))).bind
      (nameAndOptional parameterList?) = _
    rw [skipSpaces?_name _ full ordinary]
    exact hname parameterList? rfl

/-- A name and a parenthesis are no keyword in front of a name. -/
theorem FunctionKeyword.read?_parens (rest : List Char)
    (ordinary : ∀ c ∈ name, isOrdinary c = true) :
    function.read? (name ++ '(' :: rest) = none := by
  show (after? "function".toList (name ++ '(' :: rest)).bind
    (fun text ↦ (skipSpaces? text).bind (nameAndOptional emptyParens?)) = none
  rw [← Option.bind_assoc, bind_skipSpaces?_after? (by decide)
    (fun c hc ↦ (isOrdinary_iff.1 (ordinary c hc)).1) fun _ ↦ by decide]
  rfl

theorem readParensHeader?_write (rest : List Char) (full : name ≠ [])
    (ordinary : ∀ c ∈ name, isOrdinary c = true) :
    readParensHeader? (name ++ '(' :: ')' :: ' ' :: '{' :: rest) = some ⟨name, '{' :: rest⟩ := by
  have hcut : cutWhile (fun c ↦ isHeaderNameChar c && c != '=')
      (name ++ '(' :: ')' :: ' ' :: '{' :: rest) = (name, '(' :: ')' :: ' ' :: '{' :: rest) :=
    cutWhile_append (fun c hc ↦ by simp [isHeaderNameChar_of_isOrdinary (ordinary c hc)])
      (by simp [show isHeaderNameChar '(' = false by decide])
  unfold readParensHeader?
  rw [hcut]
  split
  · next heq =>
    cases heq
    exact absurd rfl full
  · next heq =>
    cases heq
    rw [trimStart_cons _ (by decide), emptyParens?, trimStart_cons _ (by decide)]
    exact congrArg (fun rest ↦ some (Header.mk name rest)) (trimStart_space_brace rest)

/-- A header in front of a body is read as its name and the text from the body on. -/
theorem header?_write {style : HeaderStyle} (rest : List Char) (hstyle : style.isOf d = true)
    (named : d.profile.functionNames.accepts name = true) :
    d.profile.header? (style.write name ++ ' ' :: '{' :: rest) = some ⟨name, '{' :: rest⟩ := by
  have full := NameRule.ne_nil_of_accepts named
  have ordinary := Dialect.isOrdinary_functionName named
  have hread : ((d.profile.functionKeyword.bind fun form ↦
      form.read? (style.write name ++ ' ' :: '{' :: rest)).or
        (if d.profile.parensHeader then readParensHeader? (style.write name ++ ' ' :: '{' :: rest)
          else none)) = some ⟨name, '{' :: rest⟩ := by
    cases style with
    | keyword =>
      obtain ⟨form, hform⟩ := Option.isSome_iff_exists.1 hstyle
      rw [hform, Option.bind_some, form.read?_keyword rest full ordinary]
      rfl
    | parens =>
      have hnone : (d.profile.functionKeyword.bind fun form ↦
          form.read? (name ++ '(' :: ')' :: ' ' :: '{' :: rest)) = none := by
        cases d with
        | bash | zsh => exact FunctionKeyword.read?_parens _ ordinary
        | sh => rfl
        | pwsh => exact absurd hstyle (by decide)
      have hparens : d.profile.parensHeader = true := hstyle
      rw [HeaderStyle.write_parens_append, hnone, if_pos hparens,
        readParensHeader?_write rest full ordinary]
      rfl
  rw [Profile.header?]
  simp only [hread, Option.map_some, Dialect.dropScope_functionName named]

end Header

end ShellCatalog
