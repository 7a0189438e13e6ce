import ShellCatalog.Proofs.AliasRoundTrip
import ShellCatalog.Proofs.EscapedText

/-!
# Values between double quotes

Outside PowerShell the value of an alias may stand between double quotes, in which a backslash still
escapes and an opening parenthesis behind a dollar sign still groups. A value in which nothing
groups and no bare quote stands is read unit by unit (`Nesting.exists_runs_double`), so the line
reader and the statement reader keep the command in one piece.

**The word reader does not.** An escaped newline ends a word inside double quotes as it does outside
them, so a value is kept verbatim exactly if none of its newlines is escaped
(`findings_doubleQuoted`). Otherwise the first part alone is the value, with its quote, which no
longer stands around the whole word; and every part behind it is a word that may itself assign.
-/

namespace ShellCatalog

/-- Between double quotes the units stand for themselves: none is a quote or a backslash that
escapes nothing, and none opens a group. -/
structure IsDoubleQuotable (units : List CharUnit) : Prop where
  unquoted : .plain '"' ∉ units
  unescaped : .plain '\\' ∉ units
  ungrouped : ¬ [.plain '$', .plain '('] <:+: units

theorem IsDoubleQuotable.of_isInfix {units part : List CharUnit} (h : IsDoubleQuotable units)
    (hpart : part <:+: units) : IsDoubleQuotable part where
  unquoted hmem := h.unquoted (hpart.subset hmem)
  unescaped hmem := h.unescaped (hpart.subset hmem)
  ungrouped hinner := h.ungrouped (hinner.trans hpart)

/-! ### Reading between double quotes -/

namespace Nesting

variable {p : Profile} {s : Nesting}

/-- A double quote in code opens a double-quoted text, unless it belongs to the character in front
of it. -/
theorem step_openDouble (rest : List Char) (code : s.mode = .code) (ready : s.escaping = false)
    (escape : p.escape ≠ '"') (at_sign : s.lastChar? ≠ some '@') :
    s.step p '"' rest =
      ({ s with mode := .double, openedOn := s.line, last := some ('"', .quoteDelim) },
        .quoteDelim) := by
  simp [step, react, inCode, enter, code, ready, Ne.symm escape, at_sign]

/-- Between double quotes a character is quoted that neither escapes nor ends the quotes nor opens a
group. -/
theorem step_double {c : Char} (rest : List Char) (double : s.mode = .double)
    (ready : s.escaping = false) (escape : c ≠ p.escape) (quote : c ≠ '"')
    (group : ¬ (c = '(' ∧ s.last = some ('$', .quoted))) :
    s.step p c rest =
      ({ s with line := if c = '\n' then s.line + 1 else s.line, last := some (c, .quoted) },
        .quoted) := by
  simp [step, react, inDoubleQuotes, inQuotes, double, ready, escape, quote, group]

theorem step_doubleEscape (rest : List Char) (double : s.mode = .double)
    (ready : s.escaping = false) (escape : p.escape = '\\') :
    s.step p '\\' rest = ({ s with escaping := true, last := some ('\\', .escape) }, .escape) := by
  simp [step, react, inDoubleQuotes, double, ready, escape]

theorem step_closeDouble (rest : List Char) (double : s.mode = .double)
    (ready : s.escaping = false) (escape : p.escape ≠ '"') :
    s.step p '"' rest =
      ({ s with mode := .code, last := some ('"', .quoteDelim) }, .quoteDelim) := by
  simp [step, react, inDoubleQuotes, inQuotes, double, ready, Ne.symm escape]

/-- Between double quotes a unit is read as it is meant, unless it opens a group behind what stands
in front of it. -/
theorem exists_run_double {u : CharUnit} (escape : p.escape = '\\') (double : s.mode = .double)
    (ready : s.escaping = false) (top : s.groups = []) (quotable : IsDoubleQuotable [u])
    (dollar : s.last = some ('$', .quoted) → u ≠ .plain '(') (ahead : List Char) (offset : Nat) :
    u.IsReadAs (marksAhead p ahead s offset u.chars) ∧
      (∀ m ∈ marksAhead p ahead s offset u.chars, m.role ≠ .quoteDelim) ∧
      ∃ line last, s.afterText p u.chars ahead = { s with line := line, last := last } ∧
        (last = some ('$', .quoted) → u = .plain '$') := by
  cases u with
  | plain c =>
    have hescape : c ≠ '\\' := fun h ↦ quotable.unescaped (by simp [h])
    have hquote : c ≠ '"' := fun h ↦ quotable.unquoted (by simp [h])
    have hgroup : ¬ (c = '(' ∧ s.last = some ('$', .quoted)) := by
      rintro ⟨rfl, hlast⟩
      exact dollar hlast rfl
    have hstep : s.step p c ahead = _ :=
      step_double ahead double ready (escape ▸ hescape) hquote hgroup
    rw [CharUnit.chars, afterText_cons, marksAhead_cons, List.nil_append, hstep]
    refine ⟨.plain rfl (Mark.isSolid_of_quoted (.inl rfl) fun _ ↦ ?_), by simp [marksAhead], _, _,
      rfl, ?_⟩
    · simp [isBalanced, double]
    · rintro ⟨⟩
      rfl
  | escaped c =>
    have hstep : s.step p '\\' (c :: ahead) = _ := step_doubleEscape _ double ready escape
    set t : Nesting := { s with escaping := true, last := some ('\\', .escape) } with ht
    have hliteral : t.step p c ahead = _ := step_of_escaping c ahead rfl
    rw [CharUnit.chars, afterText_cons, afterText_cons, marksAhead_cons, marksAhead_cons,
      List.cons_append, List.nil_append, hstep, hliteral]
    refine ⟨.escaped rfl rfl ⟨rfl, ?_⟩ ⟨rfl, ?_⟩, by simp [marksAhead],
      if c = '\n' then s.line + 1 else s.line, some (c, .escaped), ?_, ?_⟩
    · simp [Mark.depth, depth, ht, top]
    · simp [Mark.depth, depth, ht, top]
    · rw [afterText_nil, ht, ready]
    · rintro ⟨⟩

/-- Between double quotes units are read one by one, and no quote opens or closes among them. What
stands in front of the units must not let the first of them open a group. -/
theorem exists_runs_double {units : List CharUnit} (escape : p.escape = '\\')
    (double : s.mode = .double) (ready : s.escaping = false) (top : s.groups = [])
    (quotable : IsDoubleQuotable units)
    (dollar : s.last = some ('$', .quoted) → units.head? ≠ some (.plain '('))
    (ahead : List Char) (offset : Nat) :
    ∃ runs, marksAhead p ahead s offset (unitText units) = runs.flatten ∧
      List.Forall₂ CharUnit.IsReadAs units runs ∧ (∀ m ∈ runs.flatten, m.role ≠ .quoteDelim) ∧
      ∃ line last, s.afterText p (unitText units) ahead =
        { s with line := line, last := last } := by
  induction units generalizing s offset with
  | nil => exact ⟨[], rfl, .nil, by simp, s.line, s.last, rfl⟩
  | cons u units ih =>
    obtain ⟨hread, hroles, line, last, hafter, hlast⟩ :=
      exists_run_double escape double ready top (quotable.of_isInfix ⟨[], units, rfl⟩)
        (fun h hu ↦ dollar h (by rw [hu, List.head?_cons])) (unitText units ++ ahead) offset
    set t : Nesting := { s with line := line, last := last }
    have hdollar : t.last = some ('$', .quoted) → units.head? ≠ some (.plain '(') := by
      intro h hhead
      obtain ⟨rest, rfl⟩ := List.head?_eq_some_iff.1 hhead
      exact quotable.ungrouped ⟨[], rest, by rw [hlast h]; rfl⟩
    obtain ⟨runs, hmarks, hruns, hroles', line', last', hafter'⟩ :=
      ih (by exact double) (by exact ready) (by exact top)
        (quotable.of_isInfix (List.infix_cons List.infix_rfl)) hdollar
        (offset + byteLength u.chars)
    refine ⟨_ :: runs, ?_, .cons hread hruns, fun m hm ↦ ?_, line', last', ?_⟩
    · rw [unitText_cons, marksAhead_append, afterMarks_marksAhead, hafter, hmarks,
        List.flatten_cons]
    · rw [List.flatten_cons, List.mem_append] at hm
      exact hm.elim (hroles m) (hroles' m)
    · rw [unitText_cons, afterText_append, hafter, hafter']

/-- Behind a double quote units are read one by one, and the quotes stay open. -/
theorem exists_marks_openDouble {units : List CharUnit} (escape : p.escape = '\\')
    (balanced : s.isBalanced = true) (at_sign : s.lastChar? ≠ some '@')
    (quotable : IsDoubleQuotable units) (ahead : List Char) (offset : Nat) :
    ∃ opening runs,
      marksAhead p ahead s offset ('"' :: unitText units) = opening :: runs.flatten ∧
      List.Forall₂ CharUnit.IsReadAs units runs ∧ (∀ m ∈ runs.flatten, m.role ≠ .quoteDelim) ∧
      (opening.offset = offset ∧ opening.char = '"' ∧ opening.role = .quoteDelim ∧
        opening.after.groups = []) ∧
      ∃ line last, s.afterText p ('"' :: unitText units) ahead =
        { s with mode := .double, openedOn := s.line, line := line, last := last } := by
  obtain ⟨hmode, hgroups, -, hready⟩ := isBalanced_iff.1 balanced
  have hstep : s.step p '"' (unitText units ++ ahead) = _ :=
    step_openDouble _ hmode hready (by rw [escape]; decide) at_sign
  set t : Nesting := { s with mode := .double, openedOn := s.line, last := some ('"', .quoteDelim) }
  have hdollar : t.last = some ('$', .quoted) → units.head? ≠ some (.plain '(') := by
    rintro ⟨⟩
  obtain ⟨runs, hmarks, hread, hroles, line, last, hafter⟩ :=
    exists_runs_double escape (s := t) rfl (by exact hready) (by exact hgroups) quotable hdollar
      ahead (offset + '"'.utf8Size)
  refine ⟨⟨offset, '"', .quoteDelim, s, t⟩, runs, ?_, hread, hroles, ⟨rfl, rfl, rfl, hgroups⟩, line,
    last, ?_⟩
  · rw [marksAhead_cons, hstep, hmarks]
  · rw [afterText_cons, hstep, hafter]

/-- Units between double quotes are read one by one, and nothing is open behind the quotes. -/
theorem exists_marks_doubleQuoted {units : List CharUnit} (escape : p.escape = '\\')
    (balanced : s.isBalanced = true) (at_sign : s.lastChar? ≠ some '@')
    (quotable : IsDoubleQuotable units) (ahead : List Char) (offset : Nat) :
    ∃ opening runs closing,
      marksAhead p ahead s offset ('"' :: (unitText units ++ ['"'])) =
        opening :: (runs.flatten ++ [closing]) ∧
      List.Forall₂ CharUnit.IsReadAs units runs ∧ (∀ m ∈ runs.flatten, m.role ≠ .quoteDelim) ∧
      (opening.offset = offset ∧ opening.char = '"' ∧ opening.role = .quoteDelim ∧
        opening.after.groups = []) ∧
      (closing.offset = offset + 1 + byteLength (unitText units) ∧ closing.char = '"' ∧
        closing.role = .quoteDelim ∧ closing.after.groups = []) ∧
      (s.afterText p ('"' :: (unitText units ++ ['"'])) ahead).isBalanced = true := by
  obtain ⟨hmode, hgroups, hdocs, hready⟩ := isBalanced_iff.1 balanced
  obtain ⟨opening, runs, hmarks, hread, hroles, hopening, line, last, hafter⟩ :=
    exists_marks_openDouble escape balanced at_sign quotable ('"' :: ahead) offset
  set t : Nesting := { s with mode := .double, openedOn := s.line, line := line, last := last }
  have hstep : t.step p '"' ahead = _ :=
    step_closeDouble ahead rfl hready (by rw [escape]; decide)
  set u : Nesting := { t with mode := .code, last := some ('"', .quoteDelim) } with hu
  have hwhole : '"' :: (unitText units ++ ['"']) = ('"' :: unitText units) ++ ['"'] := rfl
  refine ⟨opening, runs, ⟨offset + byteLength ('"' :: unitText units), '"', .quoteDelim, t, u⟩, ?_,
    hread, hroles, hopening, ⟨?_, rfl, rfl, hgroups⟩, ?_⟩
  · rw [hwhole, marksAhead_append, List.singleton_append, afterMarks_marksAhead, hafter, hmarks,
      marksAhead_cons, List.nil_append, hstep]
    rfl
  · have hsize : '"'.utf8Size = 1 := by decide
    rw [byteLength_cons, hsize, Nat.add_assoc]
  · rw [hwhole, afterText_append, List.singleton_append, hafter, afterText_cons, List.nil_append,
      hstep]
    exact isBalanced_iff.2 ⟨rfl, hgroups, hdocs, hready⟩

end Nesting

/-! ### Taking the quotes off -/

section Unquote

variable {p : Profile} {units : List CharUnit}

theorem lastChar?_start_ne (line : Nat) (c : Char) :
    (Nesting.start line).lastChar? ≠ some c := by
  simp [Nesting.start, Nesting.lastChar?]

/-- Units between double quotes lose the quotes. -/
theorem unquote_doubleQuoted (escape : p.escape = '\\') (quotable : IsDoubleQuotable units) :
    unquote p ('"' :: (unitText units ++ ['"'])) = unitText units := by
  obtain ⟨opening, runs, closing, hmarks, -, hroles, hopening, ⟨ho, hclosing⟩, -⟩ :=
    Nesting.exists_marks_doubleQuoted escape (Nesting.isBalanced_start 1) (lastChar?_start_ne 1 _)
      quotable [] 0
  rw [marksAhead_nil] at hmarks
  exact unquote_of_marks (by decide) rfl hmarks hroles hopening ⟨by rw [ho, Nat.zero_add], hclosing⟩

/-- A double quote that is not closed stays. -/
theorem unquote_openDouble (escape : p.escape = '\\') (quotable : IsDoubleQuotable units) :
    unquote p ('"' :: unitText units) = '"' :: unitText units := by
  obtain ⟨opening, runs, hmarks, -, hroles, ⟨-, hchar, hrole, hgroups⟩, -⟩ :=
    Nesting.exists_marks_openDouble escape (Nesting.isBalanced_start 1) (lastChar?_start_ne 1 _)
      quotable [] 0
  rw [marksAhead_nil] at hmarks
  have hoffsets : quoteOffsets '"' (marks p ('"' :: unitText units)) = [opening.offset] := by
    have hfirst := quoteOffsets_singleton hrole hgroups
    rw [hchar] at hfirst
    rw [marks, hmarks, ← List.singleton_append, quoteOffsets_append, hfirst,
      quoteOffsets_of_forall hroles, List.append_nil]
  simp [unquote, openingQuote?, isQuotedSegment, hoffsets]

end Unquote

/-! ### The words of the command -/

/-- The word that assigns to a name the units between double quotes. -/
def doubleQuotedWord (name : List Char) (units : List CharUnit) : List Char :=
  name ++ '=' :: '"' :: (unitText units ++ ['"'])

section Command

variable {d : Dialect} {name : List Char} {units : List CharUnit}

theorem Dialect.escape_of_ne_pwsh (hd : d ≠ .pwsh) : d.profile.escape = '\\' := by
  cases d
  case pwsh => exact absurd rfl hd
  all_goals rfl

/-- The word of the assignment is read unit by unit wherever a word may begin. -/
theorem exists_runs_doubleQuotedWord {s : Nesting} (hd : d ≠ .pwsh) (hs : s.AtWord)
    (ordinary : ∀ c ∈ name, isOrdinary c = true) (quotable : IsDoubleQuotable units)
    (ahead : List Char) (offset : Nat) :
    ∃ runs, marksAhead d.profile ahead s offset (doubleQuotedWord name units) = runs.flatten ∧
      List.Forall₂ CharUnit.IsReadAs
        ((name ++ ['=', '"']).map .plain ++ units ++ [.plain '"']) runs ∧
      (s.afterText d.profile (doubleQuotedWord name units) ahead).isBalanced = true := by
  have hbare := d.isBare_of_mem_assigned ordinary
  have hplain : ∀ c ∈ name ++ ['='], d.profile.isPlain c = true :=
    fun c hc ↦ (Profile.isBare_iff.1 (hbare c hc)).1
  obtain ⟨hmode, hgroups, hdocs, hready⟩ := Nesting.isBalanced_iff.1 hs.balanced
  set value := '"' :: (unitText units ++ ['"']) with hvalue
  have hword : doubleQuotedWord name units = (name ++ ['=']) ++ value := by
    rw [List.append_assoc]
    rfl
  set u := s.afterText d.profile (name ++ ['=']) (value ++ ahead) with hu
  have hafter : u = { s with last := some ('=', .code) } := by
    rw [hu, Nesting.afterText_plain _ hmode hready hplain]
    simp
  have hbalanced : u.isBalanced = true := by
    rw [hafter]
    exact Nesting.isBalanced_iff.2 ⟨hmode, hgroups, hdocs, hready⟩
  obtain ⟨opening, runs, closing, hmarks, hread, -, ⟨-, hchar, hrole, -⟩, ⟨-, hchar', hrole', -⟩,
      hend⟩ :=
    Nesting.exists_marks_doubleQuoted (Dialect.escape_of_ne_pwsh hd) hbalanced
      (by simp [hafter, Nesting.lastChar?]) quotable ahead
      (offset + byteLength (name ++ ['=']))
  set front := marksAhead d.profile (value ++ ahead) s offset (name ++ ['=']) with hfront
  have hsolid : ∀ m ∈ front, m.IsSolid := fun m hm ↦ isSolid_of_mem_bare hmode hready hbare hm
  have hopening : opening.IsSolid := Mark.isSolid_of_quoted (.inr hrole) (by simp [hchar])
  have hclosing : closing.IsSolid := Mark.isSolid_of_quoted (.inr hrole') (by simp [hchar'])
  refine ⟨front.map (fun m ↦ [m]) ++ [opening] :: (runs ++ [[closing]]), ?_, ?_, ?_⟩
  · have hflat : (front.map fun m ↦ [m]).flatten = front := List.flatMap_singleton' front
    rw [hword, marksAhead_append, Nesting.afterMarks_marksAhead, ← hu, ← hfront, hmarks]
    simp [hflat]
  · have hunits : (name ++ ['=', '"']).map CharUnit.plain ++ units ++ [.plain '"'] =
        (Mark.text front).map .plain ++ .plain '"' :: (units ++ [.plain '"']) := by
      rw [hfront, text_marksAhead]
      simp
    rw [hunits]
    exact List.rel_append (CharUnit.IsReadAs.forall₂_plain hsolid)
      (.cons (.plain hchar hopening) (List.rel_append hread (.cons (.plain hchar' hclosing) .nil)))
  · rw [hword, Nesting.afterText_append, ← hu]
    exact hend

/-- The text of the command without the end of its line. -/
def doubleQuotedLine (name : List Char) (units : List CharUnit) : List Char :=
  row "alias".toList [doubleQuotedWord name units]

/-- Nothing ends inside the command and nothing is open behind it; its words are its keyword and the
parts of the assignment between escaped newlines. -/
theorem words_doubleQuotedLine (hd : d ≠ .pwsh) (ordinary : ∀ c ∈ name, isOrdinary c = true)
    (quotable : IsDoubleQuotable units) :
    (∀ ahead, ∀ m ∈ marksAhead d.profile ahead (.start 1) 0 (doubleQuotedLine name units),
      m.IsUnbroken) ∧
    (∀ ahead, ((Nesting.start 1).afterText d.profile (doubleQuotedLine name units)
      ahead).isBalanced = true) ∧
    words d.profile (doubleQuotedLine name units) = "alias".toList ::
      ((continuedParts ((name ++ ['=', '"']).map .plain ++ units ++ [.plain '"'])).map
        unitText).filter fun w ↦ !w.isEmpty := by
  have hsolid := solidWord_alias d
  have hstart := Nesting.atWord_start 1
  have hread (ahead : List Char) : ∃ space runs,
      marksAhead d.profile ahead (.start 1) 0 (doubleQuotedLine name units) =
        marksAhead d.profile (' ' :: doubleQuotedWord name units ++ ahead) (.start 1) 0
          "alias".toList ++ space :: runs.flatten ∧
      space.IsUnbroken ∧ (∀ next, space.separatesWords next = true) ∧
      List.Forall₂ CharUnit.IsReadAs
        ((name ++ ['=', '"']).map .plain ++ units ++ [.plain '"']) runs ∧
      ((Nesting.start 1).afterText d.profile (doubleQuotedLine name units) ahead).isBalanced =
        true := by
    obtain ⟨space, t, hmarks, hafter, hspace, hseparates, ht⟩ :=
      @marksAhead_row_cons d.profile "alias".toList [] (doubleQuotedWord name units) (.start 1)
        ahead 0 d.isPlain_space hsolid hstart
    obtain ⟨runs, hruns, hread, hbalanced⟩ :=
      exists_runs_doubleQuotedWord hd ht ordinary quotable ahead
        (0 + byteLength "alias".toList + 1)
    rw [row_nil] at hmarks hafter
    exact ⟨space, runs, hruns ▸ hmarks, hspace, hseparates, hread, hafter ▸ hbalanced⟩
  refine ⟨fun ahead m hm ↦ ?_, fun ahead ↦ ?_, ?_⟩
  · obtain ⟨space, runs, hmarks, hspace, -, hruns, -⟩ := hread ahead
    rw [hmarks] at hm
    rcases List.mem_append.1 hm with hm | hm
    · exact (hsolid.solid hstart m hm).1
    · rcases List.mem_cons.1 hm with rfl | hm
      · exact hspace
      · exact CharUnit.IsReadAs.isUnbroken_flatten hruns m hm
  · obtain ⟨space, runs, -, -, -, -, hbalanced⟩ := hread ahead
    exact hbalanced
  · obtain ⟨space, runs, hmarks, -, hseparates, hruns, -⟩ := hread []
    rw [marksAhead_nil] at hmarks
    have hfull : marksAhead d.profile (' ' :: doubleQuotedWord name units ++ []) (.start 1) 0
        "alias".toList ≠ [] := List.cons_ne_nil _ _
    have hwords := words_of_units hmarks hfull (fun m hm ↦ hsolid.solid hstart m hm) hseparates
      hruns (by decide)
    rwa [text_marksAhead] at hwords

/-- An empty word proposes nothing. -/
theorem filterMap_ofWord?_filter (p : Profile) (words : List (List Char)) :
    (words.filter fun w ↦ !w.isEmpty).filterMap (ProposedAlias.ofWord? p) =
      words.filterMap (ProposedAlias.ofWord? p) := by
  have hnil : ProposedAlias.ofWord? p [] = none := rfl
  induction words with
  | nil => rfl
  | cons word words ih =>
    cases word with
    | nil => rw [List.filter_cons_of_neg (by simp), ih, List.filterMap_cons_none hnil]
    | cons c word =>
      rw [List.filter_cons_of_pos (by simp)]
      simp only [List.filterMap_cons, ih]

/-- The command is read as the aliases that the parts of its assignment propose. -/
theorem Findings.ofSource_doubleQuotedLine (hd : d ≠ .pwsh) (path : Path) (full : name ≠ [])
    (ordinary : ∀ c ∈ name, isOrdinary c = true) (quotable : IsDoubleQuotable units)
    {proposed : List ProposedAlias}
    (hproposed : ((continuedParts ((name ++ ['=', '"']).map .plain ++ units ++ [.plain '"'])).map
      unitText).filterMap (ProposedAlias.ofWord? d.profile) = proposed) :
    ofSource d.profile ⟨path, doubleQuotedLine name units ++ ['\n']⟩ =
      ⟨(Extraction.concat (proposed.map fun a ↦
          define d.profile path 1 .alias a.name a.body)).definitions,
        (Extraction.concat (proposed.map fun a ↦
          define d.profile path 1 .alias a.name a.body)).diagnostics⟩ := by
  obtain ⟨hunbroken, hbalanced, hwords⟩ := words_doubleQuotedLine hd ordinary quotable
  have hcommand : Extraction.ofCommand d.profile path ⟨0, 1, doubleQuotedLine name units⟩ true =
      Extraction.concat (proposed.map fun a ↦ define d.profile path 1 .alias a.name a.body) := by
    rw [Extraction.ofCommand, hwords, proposedAliases?_alias hd, filterMap_ofWord?_filter,
      hproposed]
  obtain ⟨c, rest, rfl⟩ := List.exists_cons_of_ne_nil full
  have hline : doubleQuotedLine (c :: rest) units =
      "alias".toList ++ ' ' :: c :: (rest ++ '=' :: '"' :: (unitText units ++ ['"'])) := by
    rw [doubleQuotedLine, row_cons, row_nil]
    rfl
  have hend : doubleQuotedLine (c :: rest) units =
      ("alias".toList ++ ' ' :: c :: (rest ++ '=' :: '"' :: unitText units)) ++ ['"'] := by
    rw [hline]
    simp
  have hkept : trimEnd (doubleQuotedLine (c :: rest) units) =
      doubleQuotedLine (c :: rest) units := by
    rw [hend]
    exact trimEnd_concat _ (by decide)
  have hleading : afterLeading? d.profile (doubleQuotedLine (c :: rest) units) = none := by
    rw [hline]
    exact afterLeading?_alias d _ (endsNoPattern_of_isOrdinary (ordinary c List.mem_cons_self))
  have hgroup : braceGroup? d.profile (doubleQuotedLine (c :: rest) units) = none := by
    rw [hline]
    exact braceGroup?_alias d _
  rw [← hcommand]
  rw [hline] at hunbroken hbalanced hkept hleading hgroup ⊢
  exact ofSource_of_isUnbroken path (by decide) hkept hunbroken (hbalanced _) hleading hgroup

/-- A good name is defined, whatever its body. -/
theorem define_alias_of_accepts (path : Path)
    (accepted : d.profile.aliasNames.accepts name = true) (body : List Char) :
    define d.profile path 1 .alias name body =
      ⟨[⟨.ofList name, .alias, .ofList body, path, 1⟩], [], none⟩ :=
  if_pos accepted

/-- A value without escaped newlines is one word and loses its quotes. -/
theorem Findings.ofSource_of_one_part (hd : d ≠ .pwsh) (path : Path)
    (accepted : d.profile.aliasNames.accepts name = true) (quotable : IsDoubleQuotable units)
    (joined : .escaped '\n' ∉ units) :
    ofSource d.profile ⟨path, doubleQuotedLine name units ++ ['\n']⟩ =
      ⟨[⟨.ofList name, .alias, .ofList (unitText units), path, 1⟩], []⟩ := by
  have ordinary := Dialect.isOrdinary_aliasName hd accepted
  have hparts : continuedParts ((name ++ ['=', '"']).map .plain ++ units ++ [.plain '"']) =
      [(name ++ ['=', '"']).map .plain ++ units ++ [.plain '"']] :=
    continuedParts_of_not_mem (by simp [joined])
  have hword : ProposedAlias.ofWord? d.profile
      (unitText ((name ++ ['=', '"']).map .plain ++ units ++ [.plain '"'])) =
        some ⟨name, unitText units⟩ := by
    have hassignment := ProposedAlias.ofWord?_assignment (d := d) ordinary
      ('"' :: (unitText units ++ ['"']))
    rw [unquote_doubleQuoted (Dialect.escape_of_ne_pwsh hd) quotable] at hassignment
    simpa [CharUnit.chars] using hassignment
  have hproposed : ((continuedParts ((name ++ ['=', '"']).map .plain ++ units ++ [.plain '"'])).map
      unitText).filterMap (ProposedAlias.ofWord? d.profile) = [⟨name, unitText units⟩] := by
    rw [hparts, List.map_singleton, List.filterMap_cons_some hword, List.filterMap_nil]
  rw [ofSource_doubleQuotedLine hd path (NameRule.ne_nil_of_accepts accepted) ordinary quotable
    hproposed, List.map_singleton, define_alias_of_accepts path accepted]
  rfl

/-- The first escaped newline of a value ends the word with the quote still open, so the quote
stays; the parts behind it are words on their own. -/
theorem Findings.ofSource_of_parts (hd : d ≠ .pwsh) (path : Path) {first rest : List CharUnit}
    (accepted : d.profile.aliasNames.accepts name = true) (quotable : IsDoubleQuotable units)
    (hunits : units = first ++ .escaped '\n' :: rest) (joined : .escaped '\n' ∉ first) :
    ∃ others, others = Extraction.concat
        ((((continuedParts (rest ++ [.plain '"'])).map unitText).filterMap
          (ProposedAlias.ofWord? d.profile)).map fun a ↦
            define d.profile path 1 .alias a.name a.body) ∧
      ofSource d.profile ⟨path, doubleQuotedLine name units ++ ['\n']⟩ =
        ⟨⟨.ofList name, .alias, .ofList ('"' :: unitText first), path, 1⟩ :: others.definitions,
          others.diagnostics⟩ := by
  have ordinary := Dialect.isOrdinary_aliasName hd accepted
  have hparts : continuedParts ((name ++ ['=', '"']).map .plain ++ units ++ [.plain '"']) =
      ((name ++ ['=', '"']).map .plain ++ first) :: continuedParts (rest ++ [.plain '"']) := by
    rw [hunits, ← List.append_assoc, List.append_assoc, List.cons_append]
    exact continuedParts_append (by simp [joined]) _
  have hword : ProposedAlias.ofWord? d.profile
      (unitText ((name ++ ['=', '"']).map .plain ++ first)) =
        some ⟨name, '"' :: unitText first⟩ := by
    have hfirst : IsDoubleQuotable first := quotable.of_isInfix ⟨[], _, hunits.symm⟩
    have hassignment := ProposedAlias.ofWord?_assignment (d := d) ordinary ('"' :: unitText first)
    rw [unquote_openDouble (Dialect.escape_of_ne_pwsh hd) hfirst] at hassignment
    simpa [CharUnit.chars] using hassignment
  have hproposed : ((continuedParts ((name ++ ['=', '"']).map .plain ++ units ++ [.plain '"'])).map
      unitText).filterMap (ProposedAlias.ofWord? d.profile) =
        ⟨name, '"' :: unitText first⟩ ::
          ((continuedParts (rest ++ [.plain '"'])).map unitText).filterMap
            (ProposedAlias.ofWord? d.profile) := by
    rw [hparts, List.map_cons, List.filterMap_cons_some hword]
  refine ⟨_, rfl, ?_⟩
  rw [ofSource_doubleQuotedLine hd path (NameRule.ne_nil_of_accepts accepted) ordinary quotable
    hproposed, List.map_cons, define_alias_of_accepts path accepted]
  rfl

end Command

/-- A value between double quotes is kept verbatim exactly if none of its newlines is escaped. An
escaped newline ends the word, so that its first part is the value, with its quote; every part
behind it is a word of the command that may itself define an alias. -/
theorem findings_doubleQuoted {d : Dialect} (hd : d ≠ .pwsh) (path : Path) {name : List Char}
    {units : List CharUnit} (accepted : d.profile.aliasNames.accepts name = true)
    (quotable : IsDoubleQuotable units) :
    (Findings.ofSource d.profile ⟨path, doubleQuotedLine name units ++ ['\n']⟩ =
        ⟨[⟨.ofList name, .alias, .ofList (unitText units), path, 1⟩], []⟩ ↔
      .escaped '\n' ∉ units) ∧
    ∀ first rest, units = first ++ .escaped '\n' :: rest → .escaped '\n' ∉ first →
      ∃ others, others = Extraction.concat
          ((((continuedParts (rest ++ [.plain '"'])).map unitText).filterMap
            (ProposedAlias.ofWord? d.profile)).map fun a ↦
              define d.profile path 1 .alias a.name a.body) ∧
        Findings.ofSource d.profile ⟨path, doubleQuotedLine name units ++ ['\n']⟩ =
          ⟨⟨.ofList name, .alias, .ofList ('"' :: unitText first), path, 1⟩ :: others.definitions,
            others.diagnostics⟩ := by
  refine ⟨⟨fun h hmem ↦ ?_, Findings.ofSource_of_one_part hd path accepted quotable⟩,
    fun first rest ↦ Findings.ofSource_of_parts hd path accepted quotable⟩
  obtain ⟨first, rest, hunits, hfirst⟩ := List.eq_append_cons_of_mem hmem
  obtain ⟨others, -, hfindings⟩ :=
    Findings.ofSource_of_parts hd path accepted quotable hunits hfirst
  rw [h] at hfindings
  -- The value that is found begins with a quote, which begins no unit.
  have hbody : unitText units = '"' :: unitText first := by
    simp only [Findings.mk.injEq, List.cons.injEq, Definition.mk.injEq] at hfindings
    exact String.ofList_injective hfindings.1.1.2.2.1
  cases first with
  | nil => simp [hunits, CharUnit.chars] at hbody
  | cons u first =>
    cases u with
    | escaped c => simp [hunits, CharUnit.chars] at hbody
    | plain c =>
      obtain rfl : c = '"' := by
        rw [hunits] at hbody
        exact (List.cons.inj hbody).1
      exact quotable.unquoted (by simp [hunits])

/-- A value of two lines: the words behind the escaped newline define an alias of their own. -/
theorem findings_doubleQuoted_of_escapedNewline :
    Findings.ofSource Dialect.bash.profile
        ⟨⟨"rc"⟩, "alias n=\"a \\\nb=1\"\n".toList⟩ =
      ⟨[⟨"n", .alias, "\"a ", ⟨"rc"⟩, 1⟩, ⟨"b", .alias, "1\"", ⟨"rc"⟩, 1⟩], []⟩ := by
  let first : List CharUnit := [.plain 'a', .plain ' ']
  let rest : List CharUnit := [.plain 'b', .plain '=', .plain '1']
  have quotable : IsDoubleQuotable (first ++ .escaped '\n' :: rest) :=
    ⟨by decide, by decide, by decide⟩
  have accepted : Dialect.bash.profile.aliasNames.accepts ['n'] = true := by decide
  obtain ⟨others, hothers, h⟩ :=
    (findings_doubleQuoted (by decide) ⟨"rc"⟩ accepted quotable).2 first rest rfl (by decide)
  have hdefined : others = ⟨[⟨"b", .alias, "1\"", ⟨"rc"⟩, 1⟩], [], none⟩ := by
    rw [hothers]
    decide +kernel
  rw [hdefined] at h
  exact h

end ShellCatalog
