import ShellCatalog.Proofs.GroupReading
import ShellCatalog.Proofs.ParameterRoundTrip

/-!
# Parameter lists of functions

In PowerShell a list of parameters may stand between the name of a function and its body. Two
readers look at it. Reading the file counts brackets, so the file is one statement up to the brace
that closes the body, whatever the list holds (`isUnbroken_parameterFunction`). Reading the header
does not count: the list ends at its first closing parenthesis (`header?_parameterList`).

**The two agree on lists without a closing parenthesis**, and such a function is read back. In any
other list the header ends too early, and the body is looked for in the rest of the list. It is
found there only if the rest begins with a brace; otherwise the function is passed over, and nothing
is reported.
-/

namespace ShellCatalog

/-- What a file defines whose only statement is a function header and, behind it, this body. -/
def Findings.ofBody (path : Path) (name : List Char) : Body → Findings
  | .block inner _ =>
    ⟨[⟨.ofList name, .function, .ofList (Body.dedent inner), path, 1⟩], []⟩
  | .absent | .other => ⟨[], []⟩

/-- The text of a function with a parameter list, without the end of its last line. -/
def parameterFunction (name params body : List Char) : List Char :=
  HeaderStyle.keyword.write name ++ ('(' :: (params ++ [')']) ++ ' ' :: '{' :: (body ++ ['}']))

/-- The state behind the parenthesis that opens the list. -/
def insideList (name : List Char) : Nesting :=
  (Nesting.start 1).afterText Dialect.pwsh.profile (HeaderStyle.keyword.write name ++ ['(']) []

/-- The state behind the brace that opens the body. -/
def insideBody (name params : List Char) : Nesting :=
  (Nesting.start 1).afterText Dialect.pwsh.profile
    (HeaderStyle.keyword.write name ++ ('(' :: (params ++ [')']) ++ [' ', '{'])) []

/-! ### The header -/

section Header

variable {name : List Char}

/-- The header ends behind the first closing parenthesis. -/
theorem header?_parameterList {first : List Char}
    (named : Dialect.pwsh.profile.functionNames.accepts name = true) (single : ')' ∉ first)
    (rest : List Char) :
    Dialect.pwsh.profile.header? (HeaderStyle.keyword.write name ++ '(' :: (first ++ ')' :: rest)) =
      some ⟨name, trimStart rest⟩ := by
  have full := NameRule.ne_nil_of_accepts named
  have ordinary := Dialect.isOrdinary_functionName named
  have hlist : parameterList? ('(' :: (first ++ ')' :: rest)) = some rest := by
    rw [parameterList?, splitAt?_eq_some_iff.2 ⟨rfl, single⟩]
    rfl
  have hread : FunctionKeyword.functionOrFilter.read?
      (HeaderStyle.keyword.write name ++ '(' :: (first ++ ')' :: rest)) =
        some ⟨name, trimStart rest⟩ := by
    rw [HeaderStyle.write_keyword, List.append_assoc, List.cons_append]
    show (skipSpaces? (' ' :: (name ++ '(' :: (first ++ ')' :: rest)))).bind
      (nameAndOptional parameterList?) = _
    rw [skipSpaces?_name _ full ordinary, Option.bind_some,
      nameAndOptional_of_isOrdinary _ _ full ordinary (by decide), trimStart_cons _ (by decide),
      hlist]
    rfl
  have hkeyword : (Dialect.pwsh.profile.functionKeyword.bind fun form ↦
      form.read? (HeaderStyle.keyword.write name ++ '(' :: (first ++ ')' :: rest))) =
        some ⟨name, trimStart rest⟩ := hread
  rw [Profile.header?]
  simp only [hkeyword, Option.some_or, Option.map_some, Dialect.dropScope_functionName named]

end Header

/-! ### The text of a function -/

section Function

variable {name params body : List Char}

/-- The state behind the name. -/
def behindName (name : List Char) : Nesting :=
  (Nesting.start 1).afterText Dialect.pwsh.profile (HeaderStyle.keyword.write name) []

/-- The state behind the parenthesis that closes the list and a blank. -/
def behindList (name params : List Char) : Nesting :=
  ((behindName name).afterText Dialect.pwsh.profile ('(' :: (params ++ [')'])) []).afterText
    Dialect.pwsh.profile [' '] []

theorem insideList_eq (name : List Char) :
    insideList name = ((behindName name).step Dialect.pwsh.profile '(' []).1 := by
  rw [insideList, Nesting.afterText_append_of_noHereDocs rfl (by simp), ← behindName]
  rfl

theorem insideBody_eq (name params : List Char) :
    insideBody name params = ((behindList name params).step Dialect.pwsh.profile '{' []).1 := by
  rw [insideBody, Nesting.afterText_append_of_noHereDocs rfl (by simp), ← behindName,
    Nesting.afterText_append_of_noHereDocs rfl (by simp),
    show [' ', '{'] = [' '] ++ ['{'] from rfl,
    Nesting.afterText_append_of_noHereDocs rfl (by simp), ← behindList]
  rfl

theorem isBalanced_behindName (named : Dialect.pwsh.profile.functionNames.accepts name = true) :
    (behindName name).isBalanced = true := by
  obtain ⟨last, hstarted⟩ := justStarted_afterText_write .keyword [] named
  rw [behindName, hstarted]
  rfl

section Reading

variable (named : Dialect.pwsh.profile.functionNames.accepts name = true)
  (inParams : (insideList name).StaysInside Dialect.pwsh.profile params)

include named inParams

/-- The list is a group, so nothing is open behind it. -/
theorem isUnbroken_list :
    (∀ offset, ∀ m ∈ marksAhead Dialect.pwsh.profile [] (behindName name) offset
        ('(' :: (params ++ [')'])), m.IsUnbroken) ∧
      ((behindName name).afterText Dialect.pwsh.profile ('(' :: (params ++ [')'])) []).isBalanced =
        true := by
  rw [insideList_eq] at inParams
  exact isUnbroken_group (b := .paren) rfl (isBalanced_behindName named) inParams []

theorem isBalanced_behindList : (behindList name params).isBalanced = true := by
  obtain ⟨hmode, hgroups, hdocs, hready⟩ :=
    Nesting.isBalanced_iff.1 (isUnbroken_list named inParams).2
  rw [behindList, Nesting.afterText_cons,
    Nesting.step_plain _ hmode hready Dialect.pwsh.isPlain_space]
  exact Nesting.isBalanced_iff.2 ⟨hmode, hgroups, hdocs, hready⟩

variable (inBody : (insideBody name params).StaysInside Dialect.pwsh.profile body)

include inBody

/-- Nothing ends inside the text of a function, and nothing is open behind it. -/
theorem isUnbroken_parameterFunction (ahead : List Char) :
    (∀ m ∈ marksAhead Dialect.pwsh.profile ahead (.start 1) 0 (parameterFunction name params body),
        m.IsUnbroken) ∧
      ((Nesting.start 1).afterText Dialect.pwsh.profile (parameterFunction name params body)
        ahead).isBalanced = true := by
  have hname (offset : Nat) : ∀ m ∈ marksAhead Dialect.pwsh.profile [] (.start 1) offset
      (HeaderStyle.keyword.write name), m.IsUnbroken := fun m hm ↦
    isUnbroken_of_mem_row Dialect.pwsh.isPlain_space (solidWord_of_mem_headerWords .keyword named)
      (Nesting.atWord_start 1) hm
  obtain ⟨hlist, hclosed⟩ := isUnbroken_list named inParams
  obtain ⟨hmode, -, -, hready⟩ := Nesting.isBalanced_iff.1 hclosed
  have hblank (offset : Nat) : ∀ m ∈ marksAhead Dialect.pwsh.profile []
      ((behindName name).afterText Dialect.pwsh.profile ('(' :: (params ++ [')'])) []) offset [' '],
        m.IsUnbroken := by
    intro m hm
    obtain ⟨hrole, hchar, -⟩ := Nesting.mem_marksAhead_plain hmode hready
      (by simpa using Dialect.pwsh.isPlain_space) hm
    exact Mark.isUnbroken_of_code hrole (by rw [List.mem_singleton.1 hchar]; decide)
  rw [insideBody_eq] at inBody
  obtain ⟨hblock, hbalanced⟩ := isUnbroken_group (b := .brace) rfl
    (isBalanced_behindList named inParams) inBody ahead
  constructor
  · refine Nesting.forall_marksAhead_append rfl (by simp) hname ?_ 0
    refine Nesting.forall_marksAhead_append rfl (by simp) hlist ?_
    exact Nesting.forall_marksAhead_append rfl (by simp) hblank hblock
  · rw [parameterFunction, Nesting.afterText_append_of_noHereDocs rfl (by simp), ← behindName,
      Nesting.afterText_append_of_noHereDocs rfl (by simp),
      show ' ' :: '{' :: (body ++ ['}']) = [' '] ++ '{' :: (body ++ ['}']) from rfl,
      Nesting.afterText_append_of_noHereDocs rfl (by simp), ← behindList]
    exact hbalanced

/-- The text of a function with a parameter list is one command. -/
theorem ofSource_parameterFunction (path : Path) {rest : List Char}
    (header : Dialect.pwsh.profile.header? (parameterFunction name params body) =
      some ⟨name, rest⟩) :
    Findings.ofSource Dialect.pwsh.profile ⟨path, parameterFunction name params body ++ ['\n']⟩ =
      .ofBody path name (Body.ofText Dialect.pwsh.profile rest) := by
  obtain ⟨more, htext⟩ : ∃ more, parameterFunction name params body =
      "function".toList ++ ' ' :: more :=
    ⟨_, by rw [parameterFunction, HeaderStyle.write_keyword, List.append_assoc, List.cons_append]⟩
  have hkept : trimEnd (parameterFunction name params body) =
      parameterFunction name params body := by
    have hclosing : parameterFunction name params body =
        (HeaderStyle.keyword.write name ++ ('(' :: (params ++ [')']) ++ ' ' :: '{' :: body)) ++
          ['}'] := by
      simp [parameterFunction]
    rw [hclosing]
    exact trimEnd_concat _ (by decide)
  have hunbroken (ahead : List Char) := isUnbroken_parameterFunction named inParams inBody ahead
  have hsolid : SolidWord Dialect.pwsh.profile "function".toList :=
    solidWord_of_mem_headerWords .keyword named _ List.mem_cons_self
  obtain ⟨others, hwords⟩ := exists_words_solidWord more Dialect.pwsh.isPlain_space hsolid
  have halias : proposedAliases? Dialect.pwsh.profile
      (words Dialect.pwsh.profile (parameterFunction name params body)) = none := by
    rw [htext, hwords]
    have hkeyword : (HeaderStyle.keyword.parts name).1 = "function".toList := rfl
    rw [← hkeyword]
    exact proposedAliases?_header HeaderStyle.keyword others
  have hcommand : Extraction.ofCommand Dialect.pwsh.profile path
      ⟨0, 1, parameterFunction name params body⟩ true =
        Extraction.ofFunction Dialect.pwsh.profile path ⟨0, 1, parameterFunction name params body⟩
          true ⟨name, rest⟩ := by
    simp only [Extraction.ofCommand, halias, header]
  have hfunction : "function".toList ++ ' ' :: more =
      'f' :: ("unction".toList ++ ' ' :: more) := rfl
  have hbalanced := (hunbroken ['\n']).2
  have hmarks (ahead : List Char) := (hunbroken ahead).1
  rw [htext, hfunction] at hkept hbalanced hmarks hcommand ⊢
  rw [Findings.ofSource_of_isUnbroken path (by decide) hkept hmarks hbalanced (afterLeading?_pwsh _)
    (if_neg fun h ↦ Bool.false_ne_true h.1), hcommand, Extraction.ofFunction]
  cases Body.ofText Dialect.pwsh.profile rest with
  | block inner offset => simp [define, Profile.nameRule, named, Findings.ofBody]
  | absent => rfl
  | other => rfl

/-- The body is read alike on its own. -/
theorem ofText_parameterBody :
    Body.ofText Dialect.pwsh.profile ('{' :: (body ++ ['}'])) = .block body 1 := by
  rw [insideBody_eq] at inBody
  have alike : ((behindList name params).step Dialect.pwsh.profile '{' []).1.Like
      ((Nesting.start 1).step Dialect.pwsh.profile '{' []).1 :=
    like_step_opening (isBalanced_behindList named inParams) rfl .brace
  exact Body.ofText_group rfl (inBody.of_like alike)

end Reading

/-- No body begins where something visible other than a brace stands. -/
theorem ofText_pwsh_other {text : List Char} (visible : isBlank text = false)
    (other : (trimStart text).head? ≠ some '{') :
    Body.ofText Dialect.pwsh.profile (trimStart text) = .other := by
  cases htrim : trimStart text with
  | nil => exact absurd htrim (trimStart_ne_nil_iff.2 visible)
  | cons c rest =>
    have hspace : isSpace c = false := head?_trimStart (by rw [htrim, List.head?_cons])
    have hbegins : Dialect.pwsh.profile.beginsBody c = false := by
      have hc : c ≠ '{' := fun h ↦ other (by rw [htrim, h, List.head?_cons])
      simp [Profile.beginsBody, hc, Dialect.profile, Profile.pwsh]
    rw [Body.ofText, trimStart_cons rest hspace]
    simp only [hbegins, Bool.false_eq_true, if_false]

/-- Behind a text that does not begin with a brace stands something else, if need be the closing
parenthesis. -/
theorem head?_trimStart_closed {text : List Char} (more : List Char)
    (other : (trimStart text).head? ≠ some '{') :
    (trimStart (text ++ ')' :: more)).head? ≠ some '{' := by
  cases hblank : isBlank text with
  | false =>
    rw [trimStart_append _ hblank]
    cases htrim : trimStart text with
    | nil => exact absurd htrim (trimStart_ne_nil_iff.2 hblank)
    | cons c rest => rwa [htrim] at other
  | true =>
    have hskip : trimStart (text ++ ')' :: more) = trimStart (')' :: more) :=
      List.dropWhile_append_of_pos (isBlank_iff.1 hblank)
    rw [hskip, trimStart_cons more (by decide)]
    simp

/-- A function with a list of parameters is read back when no closing parenthesis stands in the
list. Otherwise its body is looked for behind the first of them, and unless a brace stands there
nothing is found and nothing is reported. -/
theorem findings_parameterList (path : Path)
    (named : Dialect.pwsh.profile.functionNames.accepts name = true)
    (inParams : (insideList name).StaysInside Dialect.pwsh.profile params)
    (inBody : (insideBody name params).StaysInside Dialect.pwsh.profile body) :
    ∃ found : Findings,
      (⟨path, parameterFunction name params body ++ ['\n']⟩ : Source).findings (some .pwsh) =
        .ok found ∧
      (')' ∉ params →
        found = ⟨[⟨.ofList name, .function, .ofList (Body.dedent body), path, 1⟩], []⟩) ∧
      ∀ first rest, params = first ++ ')' :: rest → ')' ∉ first →
        found = .ofBody path name (Body.ofText Dialect.pwsh.profile
          (trimStart (rest ++ ')' :: ' ' :: '{' :: (body ++ ['}'])))) ∧
        ((trimStart rest).head? ≠ some '{' → found = ⟨[], []⟩) := by
  refine ⟨Findings.ofSource Dialect.pwsh.profile
    ⟨path, parameterFunction name params body ++ ['\n']⟩, rfl, fun single ↦ ?_,
    fun first rest hparams single ↦ ?_⟩
  · have htext : parameterFunction name params body = HeaderStyle.keyword.write name ++
        '(' :: (params ++ ')' :: ' ' :: '{' :: (body ++ ['}'])) := by
      simp [parameterFunction]
    have header := header?_parameterList named single (' ' :: '{' :: (body ++ ['}']))
    rw [← htext, trimStart_space_brace] at header
    rw [ofSource_parameterFunction named inParams inBody path header,
      ofText_parameterBody named inParams inBody]
    rfl
  · have htext : parameterFunction name params body = HeaderStyle.keyword.write name ++
        '(' :: (first ++ ')' :: (rest ++ ')' :: ' ' :: '{' :: (body ++ ['}']))) := by
      simp [parameterFunction, hparams]
    have header := header?_parameterList named single
      (rest ++ ')' :: ' ' :: '{' :: (body ++ ['}']))
    rw [← htext] at header
    have hfound := ofSource_parameterFunction named inParams inBody path header
    refine ⟨hfound, fun other ↦ ?_⟩
    have hvisible : isBlank (rest ++ ')' :: ' ' :: '{' :: (body ++ ['}'])) = false := by
      simp [isBlank, show isSpace ')' = false by decide]
    rw [hfound, ofText_pwsh_other hvisible (head?_trimStart_closed _ other)]
    rfl

/-- A list with an attribute that is called with parentheses: the function is not found. -/
theorem findings_parameterList_of_attribute :
    (⟨⟨"rc.ps1"⟩, "function n([Parameter(Mandatory=$true)][string]$x) \x7ba\x7d\n".toList⟩ :
        Source).findings (some .pwsh) = .ok ⟨[], []⟩ := by
  let first : List Char := "[Parameter(Mandatory=$true".toList
  let rest : List Char := "][string]$x".toList
  have inParams : (insideList ['n']).StaysInside Dialect.pwsh.profile (first ++ ')' :: rest) := by
    refine ⟨?_, by decide +kernel, by decide +kernel, by decide +kernel⟩
    show ∀ m ∈ _, _
    decide +kernel
  have inBody : (insideBody ['n'] (first ++ ')' :: rest)).StaysInside Dialect.pwsh.profile
      ['a'] := by
    refine ⟨?_, by decide +kernel, by decide +kernel, by decide +kernel⟩
    show ∀ m ∈ _, _
    decide +kernel
  obtain ⟨found, hread, -, hnested⟩ :=
    findings_parameterList ⟨"rc.ps1"⟩ (by decide) inParams inBody
  have hnone : found = ⟨[], []⟩ := (hnested first rest rfl (by decide)).2 (by decide)
  rw [hnone] at hread
  exact hread

end Function

end ShellCatalog
