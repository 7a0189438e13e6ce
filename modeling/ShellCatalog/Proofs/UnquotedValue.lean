import ShellCatalog.Proofs.DoubleQuotes

/-!
# Values without quotes

Outside PowerShell the value of an alias may stand without quotes, if a backslash stands in front of
every character that means something. Such a value is read unit by unit and is one word with its
name: no unit opens anything, and neither a statement nor a word ends at one (`Mark.IsWithinWord`).

**The end of the statement is trimmed all the same.** No blank at the end of a statement is kept,
not even one that is escaped. So a value is kept as it is written exactly if it does not end with an
escaped blank; a value that does loses the blank and keeps its backslash (`findings_unquoted`).
-/

namespace ShellCatalog

/-! ### Marks inside a word -/

/-- The mark belongs to a word on one line: no statement ends at it, and it is no newline and no
blank of code. -/
structure Mark.IsWithinWord (m : Mark) : Prop where
  unbroken : m.IsUnbroken
  single : m.char ≠ '\n'
  visible : (m.isTopCode && isSpace m.char) = false

theorem Mark.isWithinWord_of_code {m : Mark} (role : m.role = .code)
    (hchar : isSpace m.char = false ∧ m.char ∉ [';', '|', '&']) : m.IsWithinWord := by
  refine ⟨(isSolid_of_code role hchar).1, fun hline ↦ ?_, by simp [hchar.1]⟩
  rw [hline] at hchar
  exact absurd hchar.1 (by decide)

/-- An escape and what it escapes belong to a word, unless a newline is escaped. -/
theorem Mark.isWithinWord_of_escape {m : Mark} (role : m.role = .escape ∨ m.role = .escaped)
    (single : m.char ≠ '\n') : m.IsWithinWord := by
  refine ⟨fun next ↦ ?_, single, ?_⟩
  · rcases role with role | role
    all_goals
      simp only [separatesStatements, isTopComment, role]
      split <;> simp_all
  · rcases role with role | role <;> simp [isTopCode, role]

/-- Marks inside a word are cut into one piece. -/
theorem pieces_of_isWithinWord {ms : List Mark} (h : ∀ m ∈ ms, m.IsWithinWord) :
    pieces Mark.separatesWords ms = [ms] := by
  induction ms with
  | nil => rfl
  | cons m ms ih =>
    have hm := h m List.mem_cons_self
    have hnext : ms.head?.map Mark.char ≠ some '\n' := by
      intro hchar
      obtain ⟨n, hn, hnewline⟩ := Option.map_eq_some_iff.1 hchar
      exact (h n (List.mem_cons_of_mem _ (List.mem_of_head? hn))).single hnewline
    have hinside : m.separatesWords ms.head? = false := by
      simp [Mark.separatesWords, hm.visible, hm.single, hnext]
    rw [pieces, hinside, ih fun n hn ↦ h n (List.mem_cons_of_mem _ hn)]
    rfl

/-! ### Units without quotes -/

/-- Without quotes the unit stands for itself and stays on its line: it is a bare character, or any
character but a newline behind a backslash. -/
def CharUnit.isBare (p : Profile) : CharUnit → Bool
  | plain c => p.isBare c
  | escaped c => c != '\n'

namespace Nesting

variable {p : Profile} {s : Nesting}

/-- In code a backslash escapes the next character. -/
theorem step_codeEscape (rest : List Char) (code : s.mode = .code) (ready : s.escaping = false)
    (escape : p.escape = '\\') :
    s.step p '\\' rest = ({ s with escaping := true, last := some ('\\', .escape) }, .escape) := by
  simp [step, react, inCode, code, ready, escape]

/-- A bare unit is read inside a word, and leaves everything as it was but for the last
character. -/
theorem reads_bareUnit {u : CharUnit} (escape : p.escape = '\\') (code : s.mode = .code)
    (ready : s.escaping = false) (bare : u.isBare p = true) (ahead : List Char) (offset : Nat) :
    (∀ m ∈ marksAhead p ahead s offset u.chars, m.IsWithinWord) ∧
      ∃ last, s.afterText p u.chars ahead = { s with last := last } := by
  cases u with
  | plain c =>
    obtain ⟨hplain, hsolid⟩ := Profile.isBare_iff.1 bare
    have hstep : s.step p c ahead = _ := step_plain ahead code ready hplain
    rw [CharUnit.chars, afterText_cons, marksAhead_cons, List.nil_append, hstep]
    refine ⟨fun m hm ↦ ?_, _, rfl⟩
    obtain rfl := List.mem_singleton.1 hm
    exact Mark.isWithinWord_of_code rfl hsolid
  | escaped c =>
    have hc : c ≠ '\n' := by simpa [CharUnit.isBare] using bare
    have hstep : s.step p '\\' (c :: ahead) = _ := step_codeEscape _ code ready escape
    set t : Nesting := { s with escaping := true, last := some ('\\', .escape) } with ht
    have hliteral : t.step p c ahead = _ := step_of_escaping c ahead rfl
    rw [CharUnit.chars, afterText_cons, afterText_cons, marksAhead_cons, marksAhead_cons,
      List.cons_append, List.nil_append, hstep, hliteral]
    refine ⟨fun m hm ↦ ?_, some (c, .escaped), ?_⟩
    · rcases List.mem_cons.1 hm with rfl | hm
      · exact Mark.isWithinWord_of_escape (.inl rfl) (by simp)
      · obtain rfl := List.mem_singleton.1 hm
        exact Mark.isWithinWord_of_escape (.inr rfl) hc
    · rw [afterText_nil, if_neg hc, ht, ready]

/-- Bare units are read inside a word, one after the other. -/
theorem reads_bareUnits {units : List CharUnit} (escape : p.escape = '\\') (code : s.mode = .code)
    (ready : s.escaping = false) (bare : ∀ u ∈ units, u.isBare p = true) (ahead : List Char)
    (offset : Nat) :
    (∀ m ∈ marksAhead p ahead s offset (unitText units), m.IsWithinWord) ∧
      ∃ last, s.afterText p (unitText units) ahead = { s with last := last } := by
  induction units generalizing s offset with
  | nil => exact ⟨by simp [marksAhead], s.last, rfl⟩
  | cons u units ih =>
    obtain ⟨hread, last, hafter⟩ := reads_bareUnit escape code ready (bare u List.mem_cons_self)
      (unitText units ++ ahead) offset
    set t : Nesting := { s with last := last }
    obtain ⟨hread', last', hafter'⟩ := ih (s := t) code ready
      (fun v hv ↦ bare v (List.mem_cons_of_mem _ hv)) (offset + byteLength u.chars)
    refine ⟨fun m hm ↦ ?_, last', ?_⟩
    · rw [unitText_cons, marksAhead_append, afterMarks_marksAhead, hafter, List.mem_append] at hm
      exact hm.elim (hread m) (hread' m)
    · rw [unitText_cons, afterText_append, hafter, hafter']

/-- So are bare units that end in front of an escaped character. -/
theorem reads_cutUnits {units : List CharUnit} {tail : List Char} (escape : p.escape = '\\')
    (code : s.mode = .code) (ready : s.escaping = false) (bare : ∀ u ∈ units, u.isBare p = true)
    (cut : tail = [] ∨ tail = ['\\']) (ahead : List Char) (offset : Nat) :
    ∀ m ∈ marksAhead p ahead s offset (unitText units ++ tail), m.IsWithinWord := by
  intro m hm
  rcases cut with rfl | rfl
  · rw [List.append_nil] at hm
    exact (reads_bareUnits escape code ready bare ahead offset).1 m hm
  · obtain ⟨hread, last, hafter⟩ :=
      reads_bareUnits escape code ready bare (['\\'] ++ ahead) offset
    rw [marksAhead_append, afterMarks_marksAhead, hafter, List.mem_append] at hm
    rcases hm with hm | hm
    · exact hread m hm
    · set t : Nesting := { s with last := last }
      rw [marksAhead_cons, step_codeEscape (s := t) _ code ready escape] at hm
      obtain rfl := List.mem_singleton.1 hm
      exact Mark.isWithinWord_of_escape (.inl rfl) (by simp)

end Nesting

/-! ### The end of a value -/

/-- What is left of a unit at the end of a statement: an escaped blank loses the blank. -/
def CharUnit.atEnd : CharUnit → List Char
  | plain c => [c]
  | escaped c => if isSpace c then ['\\'] else ['\\', c]

section AtEnd

variable {p : Profile} {units : List CharUnit} {last : CharUnit}

/-- Only an escaped blank is changed at the end. -/
theorem CharUnit.atEnd_eq_chars_iff {u : CharUnit} :
    u.atEnd = u.chars ↔ ∀ c, u = escaped c → isSpace c = false := by
  cases u with
  | plain c => simp [atEnd, chars]
  | escaped c => by_cases hc : isSpace c = true <;> simp [atEnd, chars, hc]

theorem trimEnd_unitText (units : List CharUnit) (bare : last.isBare p = true) :
    trimEnd (unitText (units ++ [last])) = unitText units ++ last.atEnd := by
  cases last with
  | plain c =>
    rw [unitText_append]
    exact trimEnd_concat _ (Profile.isBare_iff.1 bare).2.1
  | escaped c =>
    have htext : unitText (units ++ [.escaped c]) = (unitText units ++ ['\\']) ++ [c] := by
      simp [CharUnit.chars]
    rw [htext, CharUnit.atEnd]
    split
    · next hc =>
      rw [trimEnd_append_of_isBlank _ (by simp [isBlank, hc])]
      exact trimEnd_concat _ (by decide)
    · next hc =>
      rw [trimEnd_concat _ (by simpa using hc), List.append_assoc]
      rfl

/-- What is left of bare units are bare units, and the backslash of an escaped blank. -/
theorem exists_units_atEnd (bare : ∀ u ∈ units ++ [last], u.isBare p = true) :
    ∃ kept tail, unitText units ++ last.atEnd = unitText kept ++ tail ∧
      (∀ u ∈ kept, u.isBare p = true) ∧ (tail = [] ∨ tail = ['\\']) := by
  by_cases h : last.atEnd = last.chars
  · exact ⟨units ++ [last], [], by simp [h], bare, .inl rfl⟩
  · refine ⟨units, ['\\'], ?_, fun u hu ↦ bare u (List.mem_append_left _ hu), .inr rfl⟩
    simp only [CharUnit.atEnd_eq_chars_iff, not_forall, Bool.not_eq_false] at h
    obtain ⟨c, rfl, hc⟩ := h
    rw [CharUnit.atEnd, if_pos hc]

/-- Bare units do not begin with a quote. -/
theorem head?_cutUnits_ne {tail : List Char} (quote : Char) (hquote : quote ∈ ['\'', '"'])
    (bare : ∀ u ∈ units, u.isBare p = true) (cut : tail = [] ∨ tail = ['\\']) :
    (unitText units ++ tail).head? ≠ some quote := by
  have hescape : '\\' ≠ quote := by
    rintro rfl
    exact absurd hquote (by decide)
  cases units with
  | nil => rcases cut with rfl | rfl <;> simp [hescape]
  | cons u units =>
    cases u with
    | escaped c => simpa [CharUnit.chars] using hescape
    | plain c =>
      have hplain := (Profile.isBare_iff.1 (bare _ List.mem_cons_self)).1
      simp only [unitText_cons, CharUnit.chars, List.cons_append, List.head?_cons,
        ne_eq, Option.some.injEq]
      rintro rfl
      simp only [List.mem_cons, List.not_mem_nil, or_false] at hquote
      rcases hquote with rfl | rfl <;> simp [Profile.isPlain] at hplain

theorem openingQuote?_cutUnits {tail : List Char} (bare : ∀ u ∈ units, u.isBare p = true)
    (cut : tail = [] ∨ tail = ['\\']) : openingQuote? p (unitText units ++ tail) = none := by
  have hsingle := head?_cutUnits_ne '\'' (by decide) bare cut
  have hdouble := head?_cutUnits_ne '"' (by decide) bare cut
  cases units with
  | nil => rcases cut with rfl | rfl <;> rfl
  | cons u units =>
    cases u with
    | escaped c => rfl
    | plain c =>
      have hnext := head?_cutUnits_ne '\'' (by decide)
        (fun v hv ↦ bare v (List.mem_cons_of_mem _ hv)) cut
      rw [unitText_cons, CharUnit.chars, List.append_assoc, List.singleton_append]
        at hsingle hdouble ⊢
      generalize unitText units ++ tail = rest at hnext
      unfold openingQuote?
      split <;> simp_all

/-- No value begins with a quote, so there are none to take off. -/
theorem unquote_atEnd (bare : ∀ u ∈ units ++ [last], u.isBare p = true) :
    unquote p (unitText units ++ last.atEnd) = unitText units ++ last.atEnd := by
  obtain ⟨kept, tail, hvalue, hkept, cut⟩ := exists_units_atEnd bare
  rw [hvalue, unquote, openingQuote?_cutUnits hkept cut]

end AtEnd

/-! ### The command -/

section Row

variable {p : Profile} {first : List Char} {units : List CharUnit} {tail : List Char}

/-- In a row of a word and bare units nothing ends, and nothing is open behind it. -/
theorem isUnbroken_row_bareUnits (escape : p.escape = '\\') (gap : p.isPlain ' ' = true)
    (solid : SolidWord p first) (bare : ∀ u ∈ units, u.isBare p = true) (ahead : List Char) :
    (∀ m ∈ marksAhead p ahead (.start 1) 0 (row first [unitText units]), m.IsUnbroken) ∧
      ((Nesting.start 1).afterText p (row first [unitText units]) ahead).isBalanced = true := by
  have hstart := Nesting.atWord_start 1
  obtain ⟨space, t, hmarks, hafter, hspace, -, ht⟩ :=
    @marksAhead_row_cons p first [] (unitText units) (.start 1) ahead 0 gap solid hstart
  obtain ⟨hmode, hgroups, hdocs, hready⟩ := Nesting.isBalanced_iff.1 ht.balanced
  obtain ⟨hword, last, hlast⟩ := Nesting.reads_bareUnits escape hmode hready bare ahead
    (0 + byteLength first + 1)
  rw [row_nil] at hmarks hafter
  refine ⟨fun m hm ↦ ?_, ?_⟩
  · rw [hmarks] at hm
    rcases List.mem_append.1 hm with hm | hm
    · exact (solid.solid hstart m hm).1
    · rcases List.mem_cons.1 hm with rfl | hm
      · exact hspace
      · exact (hword m hm).unbroken
  · rw [hafter, hlast]
    exact Nesting.isBalanced_iff.2 ⟨hmode, hgroups, hdocs, hready⟩

/-- A row of a word and bare units has two words, also if the last escaped character is missing. -/
theorem words_row_cutUnits (escape : p.escape = '\\') (gap : p.isPlain ' ' = true)
    (solid : SolidWord p first) (bare : ∀ u ∈ units, u.isBare p = true)
    (cut : tail = [] ∨ tail = ['\\']) (full : unitText units ++ tail ≠ [])
    (kept : trimEnd (unitText units ++ tail) = unitText units ++ tail) :
    words p (row first [unitText units ++ tail]) = [first, unitText units ++ tail] := by
  have hstart := Nesting.atWord_start 1
  obtain ⟨space, t, hmarks, -, -, hspace, ht⟩ :=
    @marksAhead_row_cons p first [] (unitText units ++ tail) (.start 1) [] 0 gap solid hstart
  obtain ⟨hmode, -, -, hready⟩ := Nesting.isBalanced_iff.1 ht.balanced
  have hword := Nesting.reads_cutUnits escape hmode hready bare cut []
    (0 + byteLength first + 1)
  rw [marksAhead_nil, row_nil] at hmarks
  refine words_eq_of_pieces (fun m hm ↦ ?_) ?_ (by simp [solid.ne_nil, full])
    (by simp [solid.kept, kept])
  · rw [marks, hmarks] at hm
    rcases List.mem_append.1 hm with hm | hm
    · exact (solid.solid hstart m hm).1.isTopComment
    · rcases List.mem_cons.1 hm with rfl | hm
      · exact Mark.isTopComment_of_separatesWords (hspace none)
      · exact (hword m hm).unbroken.isTopComment
  · rw [marks, hmarks, pieces_append_cons (fun m hm ↦ (solid.solid hstart m hm).2) (hspace _),
      pieces_of_isWithinWord hword, List.map_cons, List.map_singleton, text_marksAhead,
      text_marksAhead]

end Row

section Command

variable {d : Dialect} {name : List Char} {units : List CharUnit} {last : CharUnit}

/-- The command that assigns units to a name without quotes, without the end of its line. -/
def bareLine (name : List Char) (units : List CharUnit) : List Char :=
  row "alias".toList [name ++ '=' :: unitText units]

/-- The assignment is made of bare units. -/
theorem exists_units_assignment (ordinary : ∀ c ∈ name, isOrdinary c = true)
    (bare : ∀ u ∈ units, u.isBare d.profile = true) :
    ∃ assigned : List CharUnit, (∀ u ∈ assigned, u.isBare d.profile = true) ∧
      ∀ tail, name ++ '=' :: (unitText units ++ tail) = unitText assigned ++ tail := by
  refine ⟨(name ++ ['=']).map .plain ++ units, fun u hu ↦ ?_, fun tail ↦ by simp [CharUnit.chars]⟩
  rcases List.mem_append.1 hu with hu | hu
  · obtain ⟨c, hc, rfl⟩ := List.mem_map.1 hu
    exact d.isBare_of_mem_assigned ordinary c hc
  · exact bare u hu

/-- At the end of the command only an escaped blank is trimmed. -/
theorem trimEnd_bareLine (bare : last.isBare d.profile = true) :
    trimEnd (bareLine name (units ++ [last])) =
      row "alias".toList [name ++ '=' :: (unitText units ++ last.atEnd)] := by
  have hvalue : trimEnd ('=' :: unitText (units ++ [last])) =
      '=' :: (unitText units ++ last.atEnd) := by
    rw [trimEnd_cons_of_visible _ (by decide), trimEnd_unitText units bare]
  have hsplit (value : List Char) : row "alias".toList [name ++ '=' :: value] =
      ("alias".toList ++ ' ' :: name) ++ '=' :: value := by
    rw [row_cons, row_nil, List.append_assoc]
    rfl
  rw [bareLine, hsplit, trimEnd_append (by rw [hvalue]; exact List.cons_ne_nil _ _), hvalue,
    hsplit]

/-- The words of the command are its keyword and the assignment. -/
theorem words_bareLine (hd : d ≠ .pwsh) (ordinary : ∀ c ∈ name, isOrdinary c = true)
    (bare : ∀ u ∈ units ++ [last], u.isBare d.profile = true) :
    words d.profile (trimEnd (bareLine name (units ++ [last]))) =
      ["alias".toList, name ++ '=' :: (unitText units ++ last.atEnd)] := by
  have hlast := bare last (by simp)
  obtain ⟨kept, tail, hvalue, hkept, cut⟩ := exists_units_atEnd bare
  obtain ⟨assigned, hassigned, hword⟩ := exists_units_assignment ordinary hkept
  have htrim : trimEnd (unitText assigned ++ tail) = unitText assigned ++ tail := by
    have hshort : trimEnd (unitText units ++ last.atEnd) = unitText units ++ last.atEnd := by
      rw [← trimEnd_unitText units hlast, trimEnd_trimEnd]
    have hsign : trimEnd ('=' :: (unitText kept ++ tail)) = '=' :: (unitText kept ++ tail) := by
      rw [trimEnd_cons_of_visible _ (by decide), ← hvalue, hshort]
    rw [← hword, trimEnd_append (by rw [hsign]; exact List.cons_ne_nil _ _), hsign]
  rw [trimEnd_bareLine hlast, hvalue, hword]
  refine words_row_cutUnits (Dialect.escape_of_ne_pwsh hd) d.isPlain_space (solidWord_alias d)
    hassigned cut ?_ htrim
  rw [← hword]
  simp

/-- The command defines its name, with the value that is left of it at the end of the statement. -/
theorem Findings.ofSource_bareLine (hd : d ≠ .pwsh) (path : Path)
    (accepted : d.profile.aliasNames.accepts name = true)
    (bare : ∀ u ∈ units ++ [last], u.isBare d.profile = true) :
    ofSource d.profile ⟨path, bareLine name (units ++ [last]) ++ ['\n']⟩ =
      ⟨[⟨.ofList name, .alias, .ofList (unitText units ++ last.atEnd), path, 1⟩], []⟩ := by
  have ordinary := Dialect.isOrdinary_aliasName hd accepted
  obtain ⟨c, rest, hname⟩ := List.exists_cons_of_ne_nil (NameRule.ne_nil_of_accepts accepted)
  obtain ⟨assigned, hassigned, hword⟩ := exists_units_assignment ordinary bare
  have hline : bareLine name (units ++ [last]) = row "alias".toList [unitText assigned] := by
    have hvalue := hword []
    rw [List.append_nil, List.append_nil] at hvalue
    rw [bareLine, hvalue]
  have hread := isUnbroken_row_bareUnits (Dialect.escape_of_ne_pwsh hd) d.isPlain_space
    (solidWord_alias d) hassigned
  rw [← hline] at hread
  have htrim : trimEnd (bareLine name (units ++ [last])) = "alias".toList ++
      ' ' :: c :: (rest ++ '=' :: (unitText units ++ last.atEnd)) := by
    rw [trimEnd_bareLine (bare last (by simp)), hname, row_cons, row_nil, List.cons_append]
  have hleading : afterLeading? d.profile (trimEnd (bareLine name (units ++ [last]))) = none := by
    rw [htrim]
    exact afterLeading?_alias d _ (endsNoPattern_of_isOrdinary (ordinary c (by simp [hname])))
  have hgroup : braceGroup? d.profile (trimEnd (bareLine name (units ++ [last]))) = none := by
    rw [htrim]
    exact braceGroup?_alias d _
  have hcommand : Extraction.ofCommand d.profile path
      ⟨0, 1, trimEnd (bareLine name (units ++ [last]))⟩ true =
        ⟨[⟨.ofList name, .alias, .ofList (unitText units ++ last.atEnd), path, 1⟩], [], none⟩ := by
    have hproposed := ProposedAlias.ofWord?_assignment (d := d) ordinary
      (unitText units ++ last.atEnd)
    rw [unquote_atEnd bare] at hproposed
    rw [Extraction.ofCommand, words_bareLine hd ordinary bare, proposedAliases?_alias hd,
      List.filterMap_cons_some hproposed, List.filterMap_nil]
    dsimp only
    rw [List.map_singleton, define_alias_of_accepts path accepted]
    rfl
  obtain ⟨more, hmore⟩ : ∃ more, bareLine name (units ++ [last]) = 'a' :: more := ⟨_, rfl⟩
  rw [hmore] at hread hleading hgroup hcommand ⊢
  rw [ofSource_eq_ofCommand path (by decide) (fun ahead ↦ (hread ahead).1) (hread _).2 hleading
    hgroup, hcommand]

end Command

/-- A value without quotes is kept as it is written, but for an escaped blank at its end: there the
blank is trimmed and its backslash stays. So it is kept verbatim exactly if it does not end with an
escaped blank. -/
theorem findings_unquoted {d : Dialect} (hd : d ≠ .pwsh) (path : Path) {name : List Char}
    {units : List CharUnit} {last : CharUnit}
    (accepted : d.profile.aliasNames.accepts name = true)
    (bare : ∀ u ∈ units ++ [last], u.isBare d.profile = true) :
    Findings.ofSource d.profile ⟨path, bareLine name (units ++ [last]) ++ ['\n']⟩ =
        ⟨[⟨.ofList name, .alias, .ofList (unitText units ++ last.atEnd), path, 1⟩], []⟩ ∧
      (Findings.ofSource d.profile ⟨path, bareLine name (units ++ [last]) ++ ['\n']⟩ =
          ⟨[⟨.ofList name, .alias, .ofList (unitText (units ++ [last])), path, 1⟩], []⟩ ↔
        ∀ c, last = .escaped c → isSpace c = false) := by
  have hfindings := Findings.ofSource_bareLine hd path accepted bare
  refine ⟨hfindings, ?_⟩
  rw [hfindings, unitText_append, ← CharUnit.atEnd_eq_chars_iff]
  simp [String.ofList_inj]

/-- The blank behind the second semicolon is escaped and goes all the same; the one behind the first
stays. -/
theorem findings_unquoted_of_escapedBlank :
    Findings.ofSource Dialect.bash.profile ⟨⟨"rc"⟩, "alias n=a\\;\\ b\\;\\ \n".toList⟩ =
      ⟨[⟨"n", .alias, "a\\;\\ b\\;\\", ⟨"rc"⟩, 1⟩], []⟩ := by
  let units : List CharUnit :=
    [.plain 'a', .escaped ';', .escaped ' ', .plain 'b', .escaped ';']
  exact (@findings_unquoted .bash (by decide) ⟨"rc"⟩ ['n'] units (.escaped ' ') (by decide)
    (by decide)).1

end ShellCatalog
