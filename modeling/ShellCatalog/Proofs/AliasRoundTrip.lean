import ShellCatalog.AliasCommand.Written
import ShellCatalog.Findings
import ShellCatalog.Proofs.CommandStart

/-!
# Alias commands are read back

Outside PowerShell an alias command whose bodies stand between single quotes is read back as it was
written, whatever the bodies hold: newlines, separators, comment characters, braces and
here-document operators are text like any other.

**A quoted alias is a solid word** (`solidWord_singleQuoted`), so the command is a row of words, one
statement and one logical line. The readers that remain look at the words alone: none of them finds
a leading part to drop, and each word gives back the alias that it was written for.

A name that the dialect does not accept costs its own pair and nothing else.
-/

namespace ShellCatalog

/-! ### Aliases between single quotes -/

namespace ProposedAlias

/-- The alias can be written between single quotes: its name has no quotes to lose and nothing that
ends a word, and its body does not end the quotes. -/
structure IsQuotable (a : ProposedAlias) : Prop where
  named : a.name ≠ []
  ordinary : ∀ c ∈ a.name, isOrdinary c = true
  unquoted : '\'' ∉ a.body

/-- No single quote ends the quotes around the whole assignment. -/
theorem IsQuotable.quote_not_mem {a : ProposedAlias} (h : a.IsQuotable) :
    '\'' ∉ a.name ++ '=' :: a.body := by
  intro hmem
  rcases List.mem_append.1 hmem with hmem | hmem
  · exact absurd (h.ordinary _ hmem) (by decide)
  · rcases List.mem_cons.1 hmem with hmem | hmem
    · exact absurd hmem (by decide)
    · exact h.unquoted hmem

/-- The word for an alias with single quotes around its body, or around the whole assignment. -/
def singleQuoted (a : ProposedAlias) (whole : Bool) : List Char :=
  a.word (if whole then .whole '\'' else .body '\'')

theorem singleQuoted_true (a : ProposedAlias) :
    a.singleQuoted true = '\'' :: ((a.name ++ '=' :: a.body) ++ ['\'']) := by
  simp [singleQuoted, word]

theorem singleQuoted_false (a : ProposedAlias) :
    a.singleQuoted false = (a.name ++ ['=']) ++ '\'' :: (a.body ++ ['\'']) := by
  simp [singleQuoted, word]

end ProposedAlias

section Reading

variable {d : Dialect}

theorem Dialect.escape_ne_quote (d : Dialect) : d.profile.escape ≠ '\'' := by
  cases d <;> decide

/-- A quoted alias begins with the quote or with a character of its name. -/
theorem ProposedAlias.IsQuotable.head_singleQuoted {a : ProposedAlias} (ha : a.IsQuotable)
    (whole : Bool) :
    ∃ c rest, a.singleQuoted whole = c :: rest ∧ isSpace c = false ∧ c ≠ ')' ∧ c ≠ '|' := by
  cases whole with
  | true => exact ⟨'\'', _, a.singleQuoted_true, by decide⟩
  | false =>
    rw [singleQuoted_false]
    cases hname : a.name with
    | nil => exact absurd hname ha.named
    | cons c rest =>
      exact ⟨c, _, rfl, endsNoPattern_of_isOrdinary (ha.ordinary c (by simp [hname]))⟩

/-- A quoted alias is one word, wherever its quotes stand. -/
theorem ProposedAlias.solidWord {a : ProposedAlias} (ha : a.IsQuotable) (whole : Bool) :
    SolidWord d.profile (a.singleQuoted whole) := by
  cases whole with
  | true =>
    rw [singleQuoted_true]
    exact solidWord_singleQuoted d.escape_ne_quote ha.quote_not_mem
  | false =>
    rw [singleQuoted_false]
    exact solidWord_bare_singleQuoted d.escape_ne_quote (d.isBare_of_mem_assigned ha.ordinary)
      (by decide) (by decide) ha.unquoted

/-! ### A word gives back its alias -/

theorem quoteOffsets_append (quote : Char) (ms ns : List Mark) :
    quoteOffsets quote (ms ++ ns) = quoteOffsets quote ms ++ quoteOffsets quote ns := by
  simp [quoteOffsets]

theorem quoteOffsets_of_forall {quote : Char} {ms : List Mark}
    (h : ∀ m ∈ ms, m.role ≠ .quoteDelim) : quoteOffsets quote ms = [] := by
  rw [quoteOffsets, List.filter_eq_nil_iff.2 fun m hm ↦ by simp [h m hm], List.map_nil]

theorem quoteOffsets_singleton {m : Mark} (role : m.role = .quoteDelim)
    (top : m.after.groups = []) : quoteOffsets m.char [m] = [m.offset] := by
  simp [quoteOffsets, role, Mark.depth, Nesting.depth, top]

/-- A text between two quotes loses them when no quote opens or closes in it. -/
theorem unquote_of_marks {p : Profile} {quote : Char} {text : List Char} {opening closing : Mark}
    {inner : List Mark} (single : quote.utf8Size = 1)
    (begins : openingQuote? p (quote :: (text ++ [quote])) = some (0, quote))
    (hmarks : marks p (quote :: (text ++ [quote])) = opening :: (inner ++ [closing]))
    (hinner : ∀ m ∈ inner, m.role ≠ .quoteDelim)
    (hopening : opening.offset = 0 ∧ opening.char = quote ∧ opening.role = .quoteDelim ∧
      opening.after.groups = [])
    (hclosing : closing.offset = 1 + byteLength text ∧ closing.char = quote ∧
      closing.role = .quoteDelim ∧ closing.after.groups = []) :
    unquote p (quote :: (text ++ [quote])) = text := by
  obtain ⟨ho, hchar, hrole, hgroups⟩ := hopening
  obtain ⟨ho', hchar', hrole', hgroups'⟩ := hclosing
  have hoffsets : quoteOffsets quote (marks p (quote :: (text ++ [quote]))) =
      [0, 1 + byteLength text] := by
    have hfirst := quoteOffsets_singleton hrole hgroups
    have hlast := quoteOffsets_singleton hrole' hgroups'
    rw [hchar, ho] at hfirst
    rw [hchar', ho'] at hlast
    rw [hmarks, ← List.singleton_append, quoteOffsets_append, hfirst, quoteOffsets_append, hlast,
      quoteOffsets_of_forall hinner]
    rfl
  have hsegment : isQuotedSegment p (quote :: (text ++ [quote])) 0 quote = true := by
    have hlast : (quote :: (text ++ [quote])).getLast? = some quote := by
      rw [← List.cons_append, List.getLast?_concat]
    simp [isQuotedSegment, hoffsets, single, hlast, Nat.add_comm]
  rw [unquote, begins]
  simp [hsegment]

/-- A text between single quotes loses them. -/
theorem unquote_singleQuoted {p : Profile} {text : List Char} (escape : p.escape ≠ '\'')
    (unquoted : '\'' ∉ text) : unquote p ('\'' :: (text ++ ['\''])) = text := by
  obtain ⟨opening, inner, closing, hmarks, -, hinner, hopening, ho', hclosing⟩ :=
    Nesting.marksAhead_singleQuoted (s := .start 1) [] 0 rfl rfl escape
      (by simp [Nesting.start, Nesting.lastChar?]) (by simp [Nesting.start, Nesting.lastChar?])
      unquoted
  rw [marksAhead_nil] at hmarks
  exact unquote_of_marks (by decide) rfl hmarks (fun m hm ↦ by simp [(hinner m hm).1]) hopening
    ⟨by rw [ho', Nat.zero_add], hclosing⟩

/-- A name without quotes has no quotes to lose. -/
theorem unquote_of_not_mem {p : Profile} {text : List Char} (single : '\'' ∉ text)
    (double : '"' ∉ text) : unquote p text = text := by
  have hopening : openingQuote? p text = none := by
    unfold openingQuote?
    split <;> simp_all
  rw [unquote, hopening]

/-- Where no character is code there is no sign that assigns. -/
theorem splitAssignment?_of_forall {p : Profile} {word : List Char}
    (h : ∀ m ∈ marks p word, m.role ≠ .code) : splitAssignment? p word = none := by
  have hdrop : (marks p word).dropWhile (fun m ↦ !(m.isTopCode && m.char == '=')) = [] :=
    List.dropWhile_eq_nil_iff.2 fun m hm ↦ by simp [Mark.isTopCode, h m hm]
  simp only [splitAssignment?, cutWhile, hdrop]

/-- The first equals sign behind plain text divides an assignment. -/
theorem splitAssignment?_plain {p : Profile} {name value : List Char}
    (plain : ∀ c ∈ name ++ ['='], p.isPlain c = true) (single : '=' ∉ name) :
    splitAssignment? p (name ++ '=' :: value) = some (name, value) := by
  have hname : ∀ c ∈ name, p.isPlain c = true := fun c hc ↦ plain c (List.mem_append_left _ hc)
  have hequals : p.isPlain '=' = true := plain '=' (by simp)
  have hmarks : ∀ m ∈ marksAhead p ('=' :: value) (.start 1) 0 name,
      (!(m.isTopCode && m.char == '=')) = true := by
    intro m hm
    have hchar := (Nesting.mem_marksAhead_plain rfl rfl hname hm).2.1
    have hne : m.char ≠ '=' := fun h ↦ single (h ▸ hchar)
    simp [hne]
  rw [splitAssignment?, marks, marksFrom_append, Nesting.afterMarks_marksAhead,
    Nesting.afterText_plain _ rfl rfl hname, marksFrom_cons, Nesting.step_plain _ rfl rfl hequals,
    cutWhile_append hmarks
      (by simp [Mark.isTopCode, Mark.depth, Nesting.depth, Nesting.start])]
  simp

/-- A word that assigns to an ordinary name proposes the name and the value without its quotes. -/
theorem ProposedAlias.ofWord?_assignment {name : List Char}
    (ordinary : ∀ c ∈ name, isOrdinary c = true) (value : List Char) :
    ofWord? d.profile (name ++ '=' :: value) = some ⟨name, unquote d.profile value⟩ := by
  have hplain : ∀ c ∈ name ++ ['='], d.profile.isPlain c = true :=
    fun c hc ↦ (Profile.isBare_iff.1 (d.isBare_of_mem_assigned ordinary c hc)).1
  have hsplit : splitAssignment? d.profile (name ++ '=' :: value) = some (name, value) :=
    splitAssignment?_plain hplain fun h ↦ absurd (ordinary _ h) (by decide)
  have hname : unquote d.profile name = name :=
    unquote_of_not_mem (fun h ↦ absurd (ordinary _ h) (by decide))
      fun h ↦ absurd (ordinary _ h) (by decide)
  simp only [ofWord?, hsplit, hname]

/-- The word of a quoted alias is read as that alias. -/
theorem ProposedAlias.ofWord?_singleQuoted {a : ProposedAlias} (ha : a.IsQuotable) (whole : Bool) :
    ofWord? d.profile (a.singleQuoted whole) = some a := by
  have hequals : '=' ∉ a.name := fun h ↦ absurd (ha.ordinary _ h) (by decide)
  cases whole with
  | true =>
    have hunquote : unquote d.profile (a.singleQuoted true) = a.name ++ '=' :: a.body := by
      rw [singleQuoted_true]
      exact unquote_singleQuoted d.escape_ne_quote ha.quote_not_mem
    have hnone : splitAssignment? d.profile (a.singleQuoted true) = none := by
      rw [singleQuoted_true]
      refine splitAssignment?_of_forall fun m hm ↦ ?_
      obtain ⟨opening, inner, closing, hmarks, -, hinner, ⟨-, -, hrole, -⟩, -, -, hrole', -⟩ :=
        Nesting.marksAhead_singleQuoted (s := .start 1) [] 0 rfl rfl d.escape_ne_quote
          (by simp [Nesting.start, Nesting.lastChar?]) (by simp [Nesting.start, Nesting.lastChar?])
          ha.quote_not_mem
      rw [marks, ← marksAhead_nil, hmarks] at hm
      rcases List.mem_cons.1 hm with rfl | hm
      · simp [hrole]
      · rcases List.mem_append.1 hm with hm | hm
        · simp [(hinner m hm).1]
        · simp [List.mem_singleton.1 hm, hrole']
    have hsplit : splitAt? '=' (a.name ++ '=' :: a.body) = some (a.name, a.body) :=
      splitAt?_eq_some_iff.2 ⟨rfl, hequals⟩
    have hne : a.name ++ '=' :: a.body ≠ a.singleQuoted true := by
      rw [singleQuoted_true]
      intro h
      have hlength := congrArg List.length h
      simp only [List.length_append, List.length_cons, List.length_nil] at hlength
      omega
    rw [ofWord?, hnone]
    simp [hunquote, hsplit, hne]
  | false =>
    rw [singleQuoted_false, List.append_assoc, List.singleton_append,
      ofWord?_assignment ha.ordinary, unquote_singleQuoted d.escape_ne_quote ha.unquoted]

/-! ### Nothing stands in front of the keyword -/

theorem solidWord_alias (d : Dialect) : SolidWord d.profile "alias".toList :=
  solidWord_bare (by decide) (by cases d <;> exact List.all_eq_true.1 (by decide))

/-- Nothing that could be dropped stands in front of an alias command. -/
theorem afterLeading?_alias {c : Char} (d : Dialect) (rest : List Char)
    (hc : isSpace c = false ∧ c ≠ ')' ∧ c ≠ '|') :
    afterLeading? d.profile ("alias".toList ++ ' ' :: c :: rest) = none := by
  have hordinary : ∀ c ∈ "alias".toList, isOrdinary c = true := List.all_eq_true.1 (by decide)
  exact afterLeading?_twoWords d rest (List.cons_ne_nil _ _) hordinary (by decide) hc

theorem braceGroup?_alias (d : Dialect) (rest : List Char) :
    braceGroup? d.profile ("alias".toList ++ rest) = none :=
  if_neg (by rintro ⟨-, h⟩; exact absurd h (by simp))

/-! ### Reading a command -/

/-- Outside PowerShell the words behind the keyword are read one by one. -/
theorem proposedAliases?_alias (hd : d ≠ .pwsh) (args : List (List Char)) :
    proposedAliases? d.profile ("alias".toList :: args) =
      some (args.filterMap (ProposedAlias.ofWord? d.profile)) := by
  cases d
  case pwsh => exact absurd rfl hd
  all_goals rfl

/-- A text in which nothing ends is read as one command, without the blanks at its end, if there is
nothing to drop in the command and it is no group. -/
theorem Findings.ofSource_eq_ofCommand {c : Char} {rest : List Char} (path : Path)
    (visible : isSpace c = false)
    (unbroken : ∀ ahead, ∀ m ∈ marksAhead d.profile ahead (.start 1) 0 (c :: rest), m.IsUnbroken)
    (balanced : ((Nesting.start 1).afterText d.profile (c :: rest) ['\n']).isBalanced = true)
    (leading : afterLeading? d.profile (trimEnd (c :: rest)) = none)
    (group : braceGroup? d.profile (trimEnd (c :: rest)) = none) :
    ofSource d.profile ⟨path, c :: rest ++ ['\n']⟩ =
      ⟨(Extraction.ofCommand d.profile path ⟨0, 1, trimEnd (c :: rest)⟩ true).definitions,
        (Extraction.ofCommand d.profile path ⟨0, 1, trimEnd (c :: rest)⟩ true).diagnostics⟩ := by
  have hlines : logicalLines d.profile (c :: rest ++ ['\n']) = [⟨c :: rest, 1, none⟩] :=
    logicalLines_of_isBalanced (by simp [isBlank, visible]) (unbroken _) balanced
  have hsingle : statements d.profile (c :: rest) 1 = [⟨0, 1, trimEnd (c :: rest)⟩] := by
    refine statements_eq_trimEnd (fun m hm ↦ unbroken [] m ?_) visible
    rwa [marksAhead_nil]
  have hline : Extraction.ofLine d.profile path ⟨c :: rest, 1, none⟩ =
      Extraction.ofCommand d.profile path ⟨0, 1, trimEnd (c :: rest)⟩ true :=
    Extraction.ofText_of_single path hsingle leading group
  rw [ofSource, hlines, ofLines, ofLines, LogicalLine.behind, hline, List.append_nil,
    List.append_nil]

/-- A text in which nothing ends, with nothing to drop and no group, is read as one command. -/
theorem Findings.ofSource_of_isUnbroken {c : Char} {rest : List Char} (path : Path)
    (visible : isSpace c = false) (kept : trimEnd (c :: rest) = c :: rest)
    (unbroken : ∀ ahead, ∀ m ∈ marksAhead d.profile ahead (.start 1) 0 (c :: rest), m.IsUnbroken)
    (balanced : ((Nesting.start 1).afterText d.profile (c :: rest) ['\n']).isBalanced = true)
    (leading : afterLeading? d.profile (c :: rest) = none)
    (group : braceGroup? d.profile (c :: rest) = none) :
    ofSource d.profile ⟨path, c :: rest ++ ['\n']⟩ =
      ⟨(Extraction.ofCommand d.profile path ⟨0, 1, c :: rest⟩ true).definitions,
        (Extraction.ofCommand d.profile path ⟨0, 1, c :: rest⟩ true).diagnostics⟩ := by
  rw [← kept] at leading group
  rw [ofSource_eq_ofCommand path visible unbroken balanced leading group, kept]

/-- A row of words with nothing to drop and no group is read as one command. -/
theorem Findings.ofSource_writeCommand {first : List Char} {others : List (List Char)} (path : Path)
    (solid : ∀ w ∈ first :: others, SolidWord d.profile w)
    (leading : afterLeading? d.profile (row first others) = none)
    (group : braceGroup? d.profile (row first others) = none) :
    ofSource d.profile ⟨path, writeCommand first others⟩ =
      ⟨(Extraction.ofCommand d.profile path ⟨0, 1, row first others⟩ true).definitions,
        (Extraction.ofCommand d.profile path ⟨0, 1, row first others⟩ true).diagnostics⟩ := by
  have hstart := Nesting.atWord_start 1
  have hunbroken (ahead : List Char) :
      ∀ m ∈ marksAhead d.profile ahead (.start 1) 0 (row first others), m.IsUnbroken :=
    fun m hm ↦ isUnbroken_of_mem_row d.isPlain_space solid hstart hm
  have hbalanced : ((Nesting.start 1).afterText d.profile (row first others) ['\n']).isBalanced =
      true :=
    isBalanced_afterText_row d.isPlain_space solid hstart
  have hkept := trimEnd_row solid
  have hwritten : writeCommand first others = row first others ++ ['\n'] := rfl
  obtain ⟨c, rest, hfirst, visible⟩ := (solid first List.mem_cons_self).visible
  obtain ⟨more, hrow⟩ : ∃ more, row first others = c :: more := ⟨_, by rw [row, hfirst]; rfl⟩
  rw [hwritten]
  rw [hrow] at hunbroken hbalanced hkept leading group ⊢
  exact ofSource_of_isUnbroken path visible hkept hunbroken hbalanced leading group

/-- The text of an alias command, each alias with the place of its quotes. -/
def aliasLine (command : List (ProposedAlias × Bool)) : List Char :=
  row "alias".toList (command.map fun a ↦ a.1.singleQuoted a.2)

/-- The text of an alias command on a line of its own, each alias with the place of its quotes. -/
def aliasCommand (command : List (ProposedAlias × Bool)) : List Char :=
  writeCommand "alias".toList (command.map fun a ↦ a.1.singleQuoted a.2)

/-- The aliases of a sequence of commands, each with the line on which its command starts, when the
first command starts on `line`. -/
def placedFrom (line : Nat) : List (List (ProposedAlias × Bool)) → List (Nat × ProposedAlias)
  | [] => []
  | command :: others =>
    command.map (fun a ↦ (line, a.1)) ++ placedFrom (lineAfter line (aliasCommand command)) others

/-- An alias command defines its aliases with good names and reports the others. -/
theorem Extraction.concat_define (p : Profile) (file : Path) (line : Nat)
    (proposed : List ProposedAlias) :
    concat (proposed.map fun a ↦ define p file line .alias a.name a.body) =
      ⟨(proposed.filter fun a ↦ p.aliasNames.accepts a.name).map fun a ↦
          ⟨.ofList a.name, .alias, .ofList a.body, file, line⟩,
        (proposed.filter fun a ↦ !p.aliasNames.accepts a.name).map fun a ↦
          .badName file line .alias (.ofList a.name), none⟩ := by
  induction proposed with
  | nil => rfl
  | cons a proposed ih =>
    have hcons : concat ((a :: proposed).map fun a ↦ define p file line .alias a.name a.body) =
        (define p file line .alias a.name a.body).append
          (concat (proposed.map fun a ↦ define p file line .alias a.name a.body)) := rfl
    rw [hcons, ih]
    by_cases h : p.aliasNames.accepts a.name = true <;>
      simp [define, Profile.nameRule, append, h]

variable {command : List (ProposedAlias × Bool)}

/-- The words of an alias command are solid. -/
theorem solidWord_of_mem_aliasLine (quotable : ∀ a ∈ command, a.1.IsQuotable) :
    ∀ w ∈ "alias".toList :: command.map (fun a ↦ a.1.singleQuoted a.2),
      SolidWord d.profile w := by
  intro w hw
  rcases List.mem_cons.1 hw with rfl | hw
  · exact solidWord_alias d
  · obtain ⟨a, ha, rfl⟩ := List.mem_map.1 hw
    exact a.1.solidWord (quotable a ha) a.2

/-- Nothing that could be dropped stands in front of the line of an alias command. -/
theorem afterLeading?_aliasLine (full : command ≠ []) (quotable : ∀ a ∈ command, a.1.IsQuotable) :
    afterLeading? d.profile (aliasLine command) = none := by
  cases command with
  | nil => exact absurd rfl full
  | cons a others =>
    obtain ⟨c, rest, hword, hc⟩ := (quotable a List.mem_cons_self).head_singleQuoted a.2
    rw [aliasLine, List.map_cons, row_cons, row, hword, List.cons_append]
    exact afterLeading?_alias d _ hc

/-- The line of an alias command, wherever it stands, defines its aliases. -/
theorem Extraction.ofCommand_aliasLine (hd : d ≠ .pwsh) (file : Path) (offset line : Nat)
    (isLast : Bool) (quotable : ∀ a ∈ command, a.1.IsQuotable) :
    ofCommand d.profile file ⟨offset, line, aliasLine command⟩ isLast =
      concat (command.map fun a ↦ define d.profile file line .alias a.1.name a.1.body) := by
  set args := command.map fun a ↦ a.1.singleQuoted a.2 with hargs
  have hsolid : ∀ w ∈ "alias".toList :: args, SolidWord d.profile w :=
    solidWord_of_mem_aliasLine quotable
  have hwords : (args.filterMap (ProposedAlias.ofWord? d.profile)) = command.map Prod.fst := by
    rw [hargs, List.filterMap_map, ← List.filterMap_eq_map]
    refine List.filterMap_congr fun a ha ↦ ?_
    exact a.1.ofWord?_singleQuoted (quotable a ha) a.2
  have hproposed : proposedAliases? d.profile (words d.profile (aliasLine command)) =
      some (command.map Prod.fst) := by
    rw [aliasLine, ← hargs, words_row d.isPlain_space hsolid, proposedAliases?_alias hd, hwords]
  rw [ofCommand, hproposed]
  simp [Function.comp_def]

/-- The line of an alias command defines its aliases. -/
theorem Extraction.ofText_aliasLine (hd : d ≠ .pwsh) (file : Path) (line : Nat)
    (full : command ≠ []) (quotable : ∀ a ∈ command, a.1.IsQuotable) :
    ofText d.profile file (aliasLine command) line =
      concat (command.map fun a ↦ define d.profile file line .alias a.1.name a.1.body) := by
  have hsingle : statements d.profile (aliasLine command) line = [⟨0, line, aliasLine command⟩] :=
    statements_row d.isPlain_space (solidWord_of_mem_aliasLine quotable)
  rw [ofText_of_single file hsingle (afterLeading?_aliasLine full quotable)
    (braceGroup?_alias d _), ofCommand_aliasLine hd file 0 line true quotable]

theorem aliasCommand_eq (command : List (ProposedAlias × Bool)) :
    aliasCommand command = aliasLine command ++ ['\n'] := rfl

theorem return_not_mem_aliasCommand
    (quotable : ∀ a ∈ command, a.1.IsQuotable ∧ '\r' ∉ a.1.body) : '\r' ∉ aliasCommand command := by
  intro h
  rw [aliasCommand_eq, aliasLine, row] at h
  have hargs : '\r' ∈ (command.map fun a ↦ a.1.singleQuoted a.2).flatMap (' ' :: ·) := by
    simpa using h
  obtain ⟨word, hword, h⟩ := List.mem_flatMap.1 hargs
  obtain ⟨a, ha, rfl⟩ := List.mem_map.1 hword
  obtain ⟨hquotable, hbody⟩ := quotable a ha
  have hname : '\r' ∉ a.1.name := fun h ↦ absurd (hquotable.ordinary _ h) (by decide)
  cases hwhole : a.2 <;>
    simp [hwhole, ProposedAlias.singleQuoted_true, ProposedAlias.singleQuoted_false, hname,
      hbody] at h

/-- Nothing is taken out of alias commands when a file is read. -/
theorem cleanText_aliasCommands {commands : List (List (ProposedAlias × Bool))}
    (quotable : ∀ command ∈ commands, ∀ a ∈ command, a.1.IsQuotable ∧ '\r' ∉ a.1.body) :
    cleanText (commands.flatMap aliasCommand) = commands.flatMap aliasCommand := by
  refine cleanText_eq_self ?_ fun h ↦ ?_
  · cases commands with
    | nil => exact (Option.some_ne_none _).symm
    | cons command others =>
      show some 'a' ≠ some '\ufeff'
      decide
  · obtain ⟨command, hcommand, h⟩ := List.mem_flatMap.1 h
    exact return_not_mem_aliasCommand (quotable command hcommand) h

/-- The lines of alias commands, read one after the other, define the placed aliases. -/
theorem definitions_aliasLines {commands : List (List (ProposedAlias × Bool))} (hd : d ≠ .pwsh)
    (file : Path) (line : Nat) (full : ∀ command ∈ commands, command ≠ [])
    (quotable : ∀ command ∈ commands, ∀ a ∈ command, a.1.IsQuotable) :
    (∀ l ∈ numberedFrom line (commands.map aliasLine),
      (Extraction.ofLine d.profile file l).dangling = none) ∧
    ((numberedFrom line (commands.map aliasLine)).flatMap fun l ↦
      (Extraction.ofLine d.profile file l).definitions) =
        ((placedFrom line commands).filter fun a ↦ d.profile.aliasNames.accepts a.2.name).map
          (fun a ↦ ⟨.ofList a.2.name, .alias, .ofList a.2.body, file, a.1⟩) ∧
    ((numberedFrom line (commands.map aliasLine)).flatMap fun l ↦
      (Extraction.ofLine d.profile file l).diagnostics) =
        ((placedFrom line commands).filter fun a ↦ !d.profile.aliasNames.accepts a.2.name).map
          fun a ↦ .badName file a.1 .alias (.ofList a.2.name) := by
  induction commands generalizing line with
  | nil => simp [numberedFrom, placedFrom]
  | cons command commands ih =>
    have hline :
        lineAfter line (aliasCommand command) = lineAfter line (aliasLine command) + 1 := by
      rw [aliasCommand_eq, lineAfter_append]
      rfl
    obtain ⟨hdangling, hdefinitions, hdiagnostics⟩ :=
      ih (lineAfter line (aliasCommand command)) (fun c hc ↦ full c (List.mem_cons_of_mem _ hc))
        fun c hc ↦ quotable c (List.mem_cons_of_mem _ hc)
    rw [hline] at hdangling hdefinitions hdiagnostics
    have hfirst : Extraction.ofLine d.profile file ⟨aliasLine command, line, none⟩ =
        Extraction.concat ((command.map Prod.fst).map fun a ↦
          define d.profile file line .alias a.name a.body) := by
      rw [List.map_map]
      exact Extraction.ofText_aliasLine hd file line (full command List.mem_cons_self)
        (quotable command List.mem_cons_self)
    rw [Extraction.concat_define] at hfirst
    rw [List.map_cons, numberedFrom, List.flatMap_cons, List.flatMap_cons, hfirst, hdefinitions,
      hdiagnostics, placedFrom, hline]
    refine ⟨fun l hl ↦ ?_, ?_, ?_⟩
    · rcases List.mem_cons.1 hl with rfl | hl
      · rw [hfirst]
      · exact hdangling l hl
    · simp [List.filter_map, Function.comp_def]
    · simp [List.filter_map, Function.comp_def]

end Reading

/-- Alias commands are read back from their text: every pair whose name the dialect accepts is
defined, every other pair is reported, in the order of the pairs and each on the line on which its
command starts, and there is nothing else. -/
theorem findings_aliasCommands {d : Dialect} (hd : d ≠ .pwsh) (path : Path)
    {commands : List (List (ProposedAlias × Bool))} (full : ∀ command ∈ commands, command ≠ [])
    (quotable : ∀ command ∈ commands, ∀ a ∈ command, a.1.IsQuotable ∧ '\r' ∉ a.1.body) :
    (Source.ofText path (commands.flatMap aliasCommand)).findings (some d) =
      .ok
        ⟨((placedFrom 1 commands).filter fun a ↦ d.profile.aliasNames.accepts a.2.name).map fun a ↦
            ⟨.ofList a.2.name, .alias, .ofList a.2.body, path, a.1⟩,
          ((placedFrom 1 commands).filter fun a ↦ !d.profile.aliasNames.accepts a.2.name).map
            fun a ↦ .badName path a.1 .alias (.ofList a.2.name)⟩ := by
  have hquotable : ∀ command ∈ commands, ∀ a ∈ command, a.1.IsQuotable :=
    fun command hc a ha ↦ (quotable command hc a ha).1
  have hlines : logicalLines d.profile (commands.flatMap aliasCommand) =
      numberedFrom 1 (commands.map aliasLine) := by
    have hsolid : ∀ text ∈ commands.map aliasLine, SolidLine d.profile text := by
      intro text htext
      obtain ⟨command, hcommand, rfl⟩ := List.mem_map.1 htext
      exact solidLine_row d.isPlain_space
        (solidWord_of_mem_aliasLine (hquotable command hcommand))
    have htexts : commands.flatMap aliasCommand =
        (commands.map aliasLine).flatMap (· ++ ['\n']) := by
      rw [List.flatMap_map]
      rfl
    rw [htexts]
    exact logicalLines_lines (by cases d <;> decide) (by cases d <;> decide) hsolid
  obtain ⟨hdangling, hdefinitions, hdiagnostics⟩ :=
    definitions_aliasLines hd path 1 full hquotable
  show Except.ok (Findings.ofSource d.profile ⟨path, cleanText (commands.flatMap aliasCommand)⟩) = _
  rw [cleanText_aliasCommands quotable, Findings.ofSource, hlines,
    Findings.ofLines_of_forall hdangling, hdefinitions, hdiagnostics]

/-- A name that is not accepted costs its own pair only, and a body of two lines moves the command
behind it. -/
theorem findings_aliasCommands_of_badName :
    (Source.ofText ⟨"rc"⟩
        "alias ll='ls -l # \x7b\n;x' 'a/b=1'\nalias 'g=<<EOF'\n".toList).findings (some .sh) =
      .ok
        ⟨[⟨"ll", .alias, "ls -l # \x7b\n;x", ⟨"rc"⟩, 1⟩, ⟨"g", .alias, "<<EOF", ⟨"rc"⟩, 3⟩],
          [.badName ⟨"rc"⟩ 1 .alias "a/b"]⟩ := by
  let commands : List (List (ProposedAlias × Bool)) :=
    [[(⟨"ll".toList, "ls -l # \x7b\n;x".toList⟩, false), (⟨"a/b".toList, "1".toList⟩, true)],
      [(⟨"g".toList, "<<EOF".toList⟩, true)]]
  have quotable : ∀ command ∈ commands, ∀ a ∈ command, a.1.IsQuotable ∧ '\r' ∉ a.1.body := by
    have hall : commands.all (·.all fun a ↦ a.1.name ≠ [] && a.1.name.all isOrdinary &&
        '\'' ∉ a.1.body && '\r' ∉ a.1.body) = true := by decide
    intro command hcommand a ha
    have h := List.all_eq_true.1 (List.all_eq_true.1 hall command hcommand) a ha
    simp only [Bool.and_eq_true, decide_eq_true_eq, List.all_eq_true] at h
    exact ⟨⟨h.1.1.1, h.1.1.2, h.1.2⟩, h.2⟩
  have full : ∀ command ∈ commands, command ≠ [] := by decide
  exact findings_aliasCommands (by decide) ⟨"rc"⟩ full quotable

end ShellCatalog
