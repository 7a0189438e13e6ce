import ShellCatalog.Proofs.LeadingParts
import ShellCatalog.Proofs.SettledFront

/-!
# Fronts that settle by their form

That a front settles its statement is said of everything that could follow it. Here are forms of a
front that show it on their own (`IsSettling`), and one that shows the contrary.

* **A command of two words** defines nothing, if the first word is ordinary and opens nothing. A
  redirection is a second word, so a command that announces the document itself has this form.
* **A function header with its body** defines the function, if the body is closed on the line.
* **A brace group** that is closed on the line defines what stands in it.
* **Keywords, heads of case commands and patterns** in front change nothing
  (`Extraction.ofStatement_front`), so behind them everything depends on the command.
* **An alias command behind the announcement never settles** (`not_settled_of_alias`): a word on the
  next line is one more argument, and an assignment there defines one more alias.

What is closed on a line stays so, because reading looks ahead only as far as the end of the line
(`Body.IsClosed.ofText_append`). A delimiter that is not finished on its line is the one exception,
and a line that leaves such a document waiting is not called closed.

## What the forms leave open

They are enough, and not necessary. A function with a body between parentheses and a command of
quoted words can settle as well, and have to be looked at through `Settled` itself. A front of one
word is decided by what follows: the next line can be the parentheses of a function header.
-/

namespace ShellCatalog

/-! ### Closed blocks -/

/-- A line begins with a block that is closed on it. -/
structure Body.IsClosed (p : Profile) (line : List Char) : Prop where
  brace : line.head? = some '{'
  closed : ∃ inner offset, Body.ofText p line = .block inner offset
  done : ¬ ((Nesting.start 1).afterText p line ['\n']).Waits
  /-- No blanks stand at the end of the line. -/
  kept : trimEnd line = line

/-- What is left of the end of a line. -/
theorem atLineEnd_trimEnd (more : List Char) : AtLineEnd (trimEnd ('\n' :: more)) := by
  rw [trimEnd_cons]
  split
  · exact atLineEnd_nil
  · exact atLineEnd_newline _

/-- A line on which no blanks stand at the end is kept by trimming, whatever stands below it. -/
theorem trimEnd_line {line : List Char} (full : line ≠ []) (kept : trimEnd line = line)
    (front more : List Char) :
    trimEnd (front ++ (line ++ '\n' :: more)) = front ++ (line ++ trimEnd ('\n' :: more)) := by
  have hline : trimEnd (line ++ '\n' :: more) = line ++ trimEnd ('\n' :: more) := by
    by_cases hblank : trimEnd ('\n' :: more) = []
    · rw [trimEnd_append_of_isBlank _ (trimEnd_eq_nil_iff.1 hblank), kept, hblank, List.append_nil]
    · exact trimEnd_append hblank
  rw [trimEnd_append (by simp [hline, full]), hline]

/-- A block that is closed on its line is the same block, whatever follows the line. -/
theorem Body.IsClosed.ofText_append {p : Profile} {line behind : List Char} (h : IsClosed p line)
    (stop : AtLineEnd behind) : Body.ofText p (line ++ behind) = Body.ofText p line := by
  obtain ⟨inner, offset, hclosed⟩ := h.closed
  obtain ⟨rest, rfl⟩ := List.head?_eq_some_iff.1 h.brace
  obtain ⟨hoffset, c, more, htrim, hbegins, opening, run, closing, others, hmarks, hinner, hrun,
    hclosing⟩ := ofText_eq_block_iff.1 hclosed
  rw [trimStart_cons rest (by decide)] at htrim
  obtain ⟨rfl, rfl⟩ := List.cons.inj htrim
  have hread : marksAhead p behind (.start 1) 0 ('{' :: rest) = marks p ('{' :: rest) := by
    rw [← Nesting.marksAhead_congr 0 [] stop List.not_mem_nil h.done,
      Nesting.marksAhead_congr 0 [] atLineEnd_nil List.not_mem_nil h.done, marksAhead_nil, marks]
  obtain ⟨others', hmarks'⟩ : ∃ others', marks p ('{' :: (rest ++ behind)) =
      opening :: (run ++ closing :: others') := by
    rw [marks, ← List.cons_append, marksFrom_append, hread, hmarks, List.cons_append,
      List.append_assoc, List.cons_append]
    exact ⟨_, rfl⟩
  rw [hclosed]
  exact ofText_eq_block_iff.2 ⟨hoffset, '{', rest ++ behind, trimStart_cons _ (by decide), hbegins,
    opening, run, closing, others', hmarks', hinner, hrun, hclosing⟩

/-- A statement that holds the line keeps the block, and its trimming takes nothing of it. -/
theorem Body.IsClosed.exists_block {p : Profile} {line : List Char} (h : IsClosed p line) :
    ∃ inner offset, ∀ more, ∃ body,
      (∀ front, trimEnd (front ++ (line ++ '\n' :: more)) = front ++ '{' :: body) ∧
        Body.ofText p ('{' :: body) = .block inner offset := by
  obtain ⟨inner, offset, hblock⟩ := h.closed
  obtain ⟨body, hline⟩ := List.head?_eq_some_iff.1 h.brace
  refine ⟨inner, offset, fun more ↦ ⟨body ++ trimEnd ('\n' :: more), fun front ↦ ?_, ?_⟩⟩
  · rw [trimEnd_line (by simp [hline]) h.kept, hline, List.cons_append]
  · rw [← List.cons_append, ← hline, h.ofText_append (atLineEnd_trimEnd more), hblock]

/-! ### The forms -/

/-- The forms of a front that settle its statement. -/
inductive IsSettling (d : Dialect) : List Char → Prop
  /-- An ordinary word that opens nothing, and a second word. -/
  | command {front word rest : List Char} {c : Char}
      (front_eq : trimStart front = word ++ ' ' :: c :: rest) (full : word ≠ [])
      (ordinary : ∀ c ∈ word, isOrdinary c = true) (other : word ∉ openingWords)
      (second : isSpace c = false ∧ c ∉ ['(', ')', '|']) : IsSettling d front
  /-- The header of a function and its body. -/
  | function {front name line rest : List Char} {style : HeaderStyle}
      (front_eq : trimStart front = style.write name ++ ' ' :: (line ++ '\n' :: rest))
      (allowed : style.isOf d = true) (named : d.profile.functionNames.accepts name = true)
      (closed : Body.IsClosed d.profile line) : IsSettling d front
  /-- A brace group. -/
  | group {front line rest : List Char} (front_eq : trimStart front = line ++ '\n' :: rest)
      (closed : Body.IsClosed d.profile line) : IsSettling d front
  /-- Parts in front of a front that settles its statement. -/
  | behind {front rest : List Char} {c : Char} (parts : List LeadingPart)
      (front_eq : trimStart front = LeadingPart.front parts ++ c :: rest)
      (visible : isSpace c = false) (settling : IsSettling d (c :: rest)) : IsSettling d front

section Forms

variable {d : Dialect} {front : List Char}

/-- A header and its body define the function, and nothing behind them counts. -/
theorem Settled.function {name line rest : List Char} {style : HeaderStyle}
    (front_eq : trimStart front = style.write name ++ ' ' :: (line ++ '\n' :: rest))
    (allowed : style.isOf d = true) (named : d.profile.functionNames.accepts name = true)
    (closed : Body.IsClosed d.profile line) : Settled d.profile front := by
  obtain ⟨inner, offset, hclosed⟩ := closed.exists_block
  refine .of_forall (trimStart_ne_nil_iff.1 (by simp [front_eq])) fun file number isLast more ↦
    show _ = define d.profile file number .function name (Body.dedent inner) from ?_
  obtain ⟨body, htrim, hbody⟩ := hclosed (rest ++ more)
  have htext : trimEnd (trimStart front ++ more) = style.write name ++ ' ' :: '{' :: body := by
    simpa [front_eq] using htrim (style.write name ++ [' '])
  obtain ⟨others, hwords⟩ := exists_words_header style ('{' :: body) named
  have hcommand : (⟨0, number, style.write name ++ ' ' :: '{' :: body⟩ :
      Statement).command d.profile = ⟨0, number, _⟩ :=
    Statement.command_of_none (afterLeading?_header style _ named)
  rw [htext, Extraction.ofStatement, hcommand]
  simp only [braceGroup?_header style _ named, Extraction.ofCommand, hwords,
    proposedAliases?_header, header?_write _ allowed named, Extraction.ofFunction, hbody]

/-- A group defines what stands in it, and nothing behind it counts. -/
theorem Settled.group {line rest : List Char} (sh : d ≠ .pwsh)
    (front_eq : trimStart front = line ++ '\n' :: rest) (closed : Body.IsClosed d.profile line) :
    Settled d.profile front := by
  obtain ⟨inner, offset, hclosed⟩ := closed.exists_block
  refine .of_forall (trimStart_ne_nil_iff.1 (by simp [front_eq])) fun file number isLast more ↦
    show _ = Extraction.ofText d.profile file inner number from ?_
  obtain ⟨body, htrim, hbody⟩ := hclosed (rest ++ more)
  have htext : trimEnd (trimStart front ++ more) = '{' :: body := by
    simpa [front_eq] using htrim []
  have hgroups : d.profile.braceGroups = true := by
    cases d
    case pwsh => exact absurd rfl sh
    all_goals rfl
  have hgroup : braceGroup? d.profile ('{' :: body) = some inner :=
    braceGroup?_eq_some_iff.2 ⟨hgroups, rfl, offset, hbody⟩
  have hcommand : (⟨0, number, '{' :: body⟩ : Statement).command d.profile =
      ⟨0, number, '{' :: body⟩ :=
    Statement.command_of_none (afterLeading?_brace d _)
  rw [htext, Extraction.ofStatement, hcommand]
  simp only [hgroup]

/-- Parts in front of a settled front settle nothing and unsettle nothing. -/
theorem Settled.behind {rest : List Char} {c : Char} (sh : d ≠ .pwsh) (parts : List LeadingPart)
    (front_eq : trimStart front = LeadingPart.front parts ++ c :: rest)
    (visible : isSpace c = false) (h : Settled d.profile (c :: rest)) :
    Settled d.profile front where
  visible := trimStart_ne_nil_iff.1 (by simp [front_eq])
  decided file line isLast more more' := by
    have hparts (k : List Char) : Extraction.ofStatement d.profile file
        ⟨0, line, trimEnd (trimStart front ++ k)⟩ isLast = Extraction.ofStatement d.profile file
          ⟨0, line, trimEnd (trimStart (c :: rest) ++ k)⟩ isLast := by
      have hrest : trimEnd (c :: (rest ++ k)) = c :: trimEnd (rest ++ k) :=
        trimEnd_cons_of_visible _ visible
      rw [front_eq, List.append_assoc, List.cons_append, trimEnd_append (by simp [hrest]), hrest,
        trimStart_cons rest visible, List.cons_append, hrest]
      exact Extraction.ofStatement_front sh file line isLast parts _ visible
    rw [hparts, hparts]
    exact h.decided file line isLast more more'

/-- A front of one of these forms settles its statement. -/
theorem IsSettling.settled (sh : d ≠ .pwsh) (h : IsSettling d front) : Settled d.profile front := by
  induction h with
  | command front_eq full ordinary other second =>
    exact settled_of_twoWords sh front_eq full ordinary other second
  | function front_eq allowed named closed => exact .function front_eq allowed named closed
  | group front_eq closed => exact .group sh front_eq closed
  | behind parts front_eq visible _ ih => exact .behind sh parts front_eq visible ih

end Forms

/-! ### Alias commands -/

/-- A command whose first word is the keyword defines an alias for each of the other words that
assigns something. -/
theorem Extraction.ofStatement_aliasWords {d : Dialect} (sh : d ≠ .pwsh) (file : Path) (line : Nat)
    (isLast : Bool) (parts : List LeadingPart) {text : List Char} {args : List (List Char)}
    (begins : ∃ c rest, text = "alias".toList ++ ' ' :: c :: rest ∧
      isSpace c = false ∧ c ≠ ')' ∧ c ≠ '|')
    (hwords : words d.profile text = "alias".toList :: args) :
    ofStatement d.profile file ⟨0, line, LeadingPart.front parts ++ text⟩ isLast =
      concat ((args.filterMap (ProposedAlias.ofWord? d.profile)).map fun a ↦
        define d.profile file line .alias a.name a.body) := by
  obtain ⟨c, rest, rfl, hc⟩ := begins
  have hcommand : (⟨0, line, "alias".toList ++ ' ' :: c :: rest⟩ : Statement).command d.profile =
      ⟨0, line, "alias".toList ++ ' ' :: c :: rest⟩ :=
    Statement.command_of_none (afterLeading?_alias d rest hc)
  have hfront : ofStatement d.profile file
      ⟨0, line, LeadingPart.front parts ++ ("alias".toList ++ ' ' :: c :: rest)⟩ isLast =
        ofStatement d.profile file ⟨0, line, "alias".toList ++ ' ' :: c :: rest⟩ isLast :=
    ofStatement_front sh file line isLast parts _ (by decide)
  rw [hfront, ofStatement, hcommand]
  simp only [braceGroup?_alias, ofCommand, hwords, proposedAliases?_alias sh]

/-- A word on the line below an alias command is one more of its arguments. -/
theorem Extraction.ofStatement_aliasLine {d : Dialect} (sh : d ≠ .pwsh) (file : Path) (line : Nat)
    (isLast : Bool) (parts : List LeadingPart) {arg last : List Char} {args : List (List Char)}
    (solid : ∀ w ∈ arg :: args, SolidWord d.profile w) (solid' : SolidWord d.profile last)
    (first : arg.head? ≠ some ')' ∧ arg.head? ≠ some '|') :
    ofStatement d.profile file ⟨0, line, LeadingPart.front parts ++
        (row "alias".toList (arg :: args) ++ '\n' :: last)⟩ isLast =
      (ofStatement d.profile file
          ⟨0, line, LeadingPart.front parts ++ row "alias".toList (arg :: args)⟩ isLast).append
        (concat (([last].filterMap (ProposedAlias.ofWord? d.profile)).map fun a ↦
          define d.profile file line .alias a.name a.body)) := by
  have hsolid : ∀ w ∈ "alias".toList :: arg :: args, SolidWord d.profile w :=
    List.forall_mem_cons.2 ⟨solidWord_alias d, solid⟩
  obtain ⟨c, rest, rfl, hc⟩ := (solid arg List.mem_cons_self).visible
  set command := row "alias".toList ((c :: rest) :: args) with hcommand
  have hbegins (k : List Char) : ∃ e more, command ++ k = "alias".toList ++ ' ' :: e :: more ∧
      isSpace e = false ∧ e ≠ ')' ∧ e ≠ '|' := by
    refine ⟨c, rest ++ args.flatMap (' ' :: ·) ++ k, ?_, by simpa [hc] using first⟩
    simp [hcommand, row]
  obtain ⟨escape, comment⟩ := d.escape_ne_of_mem (c := '\n') (by decide)
  have hwords : words d.profile (command ++ []) = "alias".toList :: (c :: rest) :: args := by
    rw [List.append_nil, hcommand, words_row d.isPlain_space hsolid]
  have hwords' : words d.profile (command ++ '\n' :: last) =
      "alias".toList :: ((c :: rest) :: args ++ [last]) :=
    words_row_line d.isPlain_space escape comment hsolid solid'
  have halone := ofStatement_aliasWords sh file line isLast parts (hbegins _) hwords
  rw [List.append_nil] at halone
  rw [halone, ofStatement_aliasWords sh file line isLast parts (hbegins _) hwords',
    List.filterMap_append, List.map_append, concat_append]

/-- An alias command that announces nothing never settles its statement: an assignment on the next
line is one more of its arguments. -/
theorem not_settled_of_alias {d : Dialect} {front arg : List Char} {args : List (List Char)}
    (sh : d ≠ .pwsh) (parts : List LeadingPart)
    (front_eq : trimStart front =
      LeadingPart.front parts ++ (row "alias".toList (arg :: args) ++ ['\n']))
    (solid : ∀ w ∈ arg :: args, SolidWord d.profile w)
    (first : arg.head? ≠ some ')' ∧ arg.head? ≠ some '|') : ¬ Settled d.profile front := by
  intro h
  have hkept : trimEnd (row "alias".toList (arg :: args)) = row "alias".toList (arg :: args) :=
    trimEnd_row (List.forall_mem_cons.2 ⟨solidWord_alias d, solid⟩)
  have hbelow (k : List Char) : trimEnd (trimStart front ++ k) =
      LeadingPart.front parts ++ (row "alias".toList (arg :: args) ++ trimEnd ('\n' :: k)) := by
    rw [front_eq, List.append_assoc, List.append_assoc]
    exact trimEnd_line (by simp [row]) hkept _ k
  have hlast : SolidWord d.profile "q=1".toList :=
    solidWord_bare (by decide) (by cases d <;> exact List.all_eq_true.1 (by decide))
  -- The command is read alone, and then with an assignment on the line below.
  have hsame := h.decided ⟨"rc"⟩ 1 true [] "q=1".toList
  rw [hbelow, hbelow, show trimEnd ['\n'] = [] by decide, List.append_nil,
    show trimEnd ('\n' :: "q=1".toList) = '\n' :: "q=1".toList by decide,
    Extraction.ofStatement_aliasLine sh _ _ _ parts solid hlast first] at hsame
  have hmore : Extraction.definitions (.concat
      ((["q=1".toList].filterMap (ProposedAlias.ofWord? d.profile)).map fun a ↦
        define d.profile ⟨"rc"⟩ 1 .alias a.name a.body)) = [⟨"q", .alias, "1", ⟨"rc"⟩, 1⟩] := by
    cases d
    case pwsh => exact absurd rfl sh
    all_goals decide +kernel
  have hnone := List.self_eq_append_right.1 (congrArg Extraction.definitions hsame)
  rw [hmore] at hnone
  exact List.cons_ne_nil _ _ hnone

end ShellCatalog
