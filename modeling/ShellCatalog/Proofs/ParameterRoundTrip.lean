import ShellCatalog.Proofs.AliasRoundTrip
import ShellCatalog.Proofs.ParameterBinding

/-!
# Commands with parameters are read back

In PowerShell an alias command names its alias with one parameter and gives its value with another,
and further parameters may stand before, between and behind the two. Whatever their order, the alias
is read back, and between single quotes its value may hold anything: here-strings, block comments
and backquotes are text like any other.

**Every word of the command is solid** (`Argument.bare_or_quoted_of_mem`), so the command is a row,
one statement and one logical line, and its words are the words of its arguments. What they bind is
`ParameterForm.proposal?_of_perm`, for which no argument may take a word of another: parameters are
told apart by two characters (`ParameterForm.isRegular_pwsh`).
-/

namespace ShellCatalog

/-! ### Parameters that do not matter -/

/-- The argument has no part in the alias: it is a parameter that begins none of those that the
command knows, or an abbreviation of one that takes an argument which does not matter, and that
argument. -/
def Argument.IsExtra (spec : ParameterForm) : Argument → Prop
  | switch param =>
    IsParam param ∧ (∀ c ∈ param, isOrdinary c = true) ∧
      ∀ known ∈ spec.params, ¬ BeginsParam param known
  | pair param arg false =>
    (∃ known ∈ spec.valued, abbreviates param known = true) ∧ arg ≠ [] ∧
      ∀ c ∈ arg, isOrdinary c = true
  | pair _ _ true | positional _ => False

namespace Argument

variable {spec : ParameterForm} {a : Argument}

/-- An argument without a part in the alias is complete and gives nothing. -/
theorem IsExtra.isComplete (regular : spec.IsRegular) (h : a.IsExtra spec) :
    a.IsNamed ∧ a.IsComplete spec ∧ a.given? spec .name = none ∧ a.given? spec .value = none := by
  match a, h with
  | switch param, ⟨hparam, _, hother⟩ =>
    exact ⟨trivial, ⟨hparam, ParameterForm.role_of_not_beginsParam hother⟩, rfl, rfl⟩
  | pair param arg false, ⟨⟨known, hknown, hbegins⟩, _⟩ =>
    have hrole := regular.role_of_abbreviates_valued hknown hbegins
    have hparam := (regular.isParam (by simp [ParameterForm.params, hknown]) hbegins).1
    exact ⟨trivial, ⟨hparam, by simp [hrole]⟩, by simp [given?, hrole], by simp [given?, hrole]⟩

theorem IsExtra.ordinary (regular : spec.IsRegular) (h : a.IsExtra spec) :
    ∀ w ∈ a.words, w ≠ [] ∧ ∀ c ∈ w, isOrdinary c = true := by
  intro w hw
  match a, h with
  | switch param, ⟨hparam, hordinary, _⟩ =>
    obtain rfl := List.mem_singleton.1 hw
    obtain ⟨c, rest, rfl, -⟩ := hparam
    exact ⟨List.cons_ne_nil _ _, hordinary⟩
  | pair param arg false, ⟨⟨known, hknown, hbegins⟩, hne, harg⟩ =>
    obtain ⟨hparam, hordinary⟩ := regular.isParam (by simp [ParameterForm.params, hknown]) hbegins
    simp only [words, List.mem_cons, List.not_mem_nil, or_false] at hw
    rcases hw with rfl | rfl
    · obtain ⟨c, rest, rfl, -⟩ := hparam
      exact ⟨List.cons_ne_nil _ _, hordinary⟩
    · exact ⟨hne, harg⟩

end Argument

/-- Whatever stands among them, the parameter for the name and the parameter for the value propose
the alias. -/
theorem ParameterForm.IsRegular.proposal?_of_extras {spec : ParameterForm} (p : Profile)
    (regular : spec.IsRegular) {args extras : List Argument}
    {nameParam valueParam name value : List Char}
    (perm : args.Perm (.pair nameParam name false :: .pair valueParam value false :: extras))
    (forName : abbreviates nameParam spec.forName = true)
    (forValue : abbreviates valueParam spec.forValue = true)
    (others : ∀ a ∈ extras, a.IsExtra spec) :
    spec.proposal? p (args.flatMap Argument.words) = some ⟨unquote p name, unquote p value⟩ := by
  have hname := role_of_abbreviates_forName forName
  have hvalue := regular.role_of_abbreviates_forValue forValue
  have hcomplete : ∀ a ∈ args, a.IsNamed ∧ a.IsComplete spec := by
    intro a ha
    rcases List.mem_cons.1 (perm.subset ha) with rfl | ha
    · exact ⟨trivial, (regular.isParam (by simp [params]) forName).1, by simp [hname]⟩
    · rcases List.mem_cons.1 ha with rfl | ha
      · exact ⟨trivial, (regular.isParam (by simp [params]) forValue).1, by simp [hvalue]⟩
      · obtain ⟨hnamed, hcomplete, -⟩ := (others a ha).isComplete regular
        exact ⟨hnamed, hcomplete⟩
  refine proposal?_of_perm p perm (fun a ha ↦ (hcomplete a ha).2) (fun a ha ↦ (hcomplete a ha).1)
    ?_ ?_ fun a ha ↦ ((others a ha).isComplete regular).2.2
  · simp [Argument.given?, hname]
  · simp [Argument.given?, hvalue]

/-! ### The rules of PowerShell -/

section PowerShell

variable {spec : ParameterForm}

/-- The parameters of PowerShell's alias commands can be told apart. -/
theorem ParameterForm.isRegular_pwsh (form : Dialect.pwsh.profile.aliasForm = .parameters spec) :
    spec.IsRegular := by
  cases form
  refine ⟨by decide, by decide, fun known hknown ↦ ?_, by decide⟩
  have hordinary : ["-Name", "-Value", "-Scope", "-Option", "-Description"].all
      (fun known ↦ known.toList.all fun c ↦ isOrdinary (lowerAscii c)) = true := by decide
  exact List.all_eq_true.1 (List.all_eq_true.1 hordinary known hknown)

/-- A character of a good alias name is bare in PowerShell. -/
theorem isBare_of_aliasName {name : List Char}
    (accepted : Dialect.pwsh.profile.aliasNames.accepts name = true) :
    ∀ c ∈ name, Dialect.pwsh.profile.isBare c = true ∧ c ∉ ['\'', '"'] := by
  intro c hc
  have hrest := NameRule.acceptsRest_of_mem accepted hc
  simp only [Dialect.profile, Profile.pwsh, NameRule.acceptsRest, NameRule.acceptsFirst,
    Bool.and_eq_true, Bool.not_eq_true', decide_eq_true_eq, NameRule.pwshSpecial, List.mem_cons,
    List.not_mem_nil, or_false, not_or] at hrest
  obtain ⟨visible, hspecial⟩ := hrest
  have hline : c ≠ '\n' := by
    rintro rfl
    exact absurd visible (by decide)
  rw [Profile.isBare_iff]
  simp [Profile.isPlain, Dialect.profile, Profile.pwsh, visible, hspecial, hline]

/-- Nothing is dropped in front of a command in PowerShell. -/
theorem afterLeading?_pwsh (text : List Char) : afterLeading? Dialect.pwsh.profile text = none := by
  have hkeyword : afterKeyword? Dialect.pwsh.profile text = none := by
    unfold afterKeyword?
    split
    · rfl
    · exact if_neg Bool.false_ne_true
  rw [afterLeading?, hkeyword]
  rfl

/-- The command words of PowerShell are ordinary, and none begins with a byte-order mark. -/
theorem ordinary_of_called {command : List Char}
    (form : Dialect.pwsh.profile.aliasForm = .parameters spec)
    (called : ∃ known ∈ spec.commands, sameWord command known.toList = true) :
    command ≠ [] ∧ command.head? ≠ some '\ufeff' ∧ ∀ c ∈ command, isOrdinary c = true := by
  cases form
  obtain ⟨known, hknown, hsame⟩ := called
  have hlower : ["Set-Alias", "New-Alias", "sal", "nal"].all (fun known ↦
      known.toList ≠ [] && known.toList.all fun c ↦
        isOrdinary (lowerAscii c) && lowerAscii c != '\ufeff') = true := by decide
  have hknown' := List.all_eq_true.1 hlower known hknown
  simp only [Bool.and_eq_true, decide_eq_true_eq, List.all_eq_true, bne_iff_ne] at hknown'
  obtain ⟨hne, hletters⟩ := hknown'
  have hheads : command.head?.map lowerAscii = known.toList.head?.map lowerAscii := by
    rw [sameWord, beq_iff_eq] at hsame
    rw [← List.head?_map, hsame, List.head?_map]
  refine ⟨?_, fun h ↦ ?_, ?_⟩
  · rintro rfl
    exact hne (List.length_eq_zero_iff.1 (length_of_sameWord hsame).symm)
  · rw [h, Option.map_some] at hheads
    obtain ⟨c, hc, hcmark⟩ := Option.map_eq_some_iff.1 hheads.symm
    exact (hletters c (List.mem_of_head? hc)).2 (hcmark.trans (by decide))
  · rw [sameWord_comm] at hsame
    exact isOrdinary_of_sameWord hsame fun c hc ↦ (hletters c hc).1

/-! ### The words of a command -/

variable {args extras : List Argument} {nameParam valueParam name body : List Char}

/-- The words of a command are bare, but for its value. -/
theorem Argument.bare_or_quoted_of_mem (regular : spec.IsRegular)
    (accepted : Dialect.pwsh.profile.aliasNames.accepts name = true)
    (perm : args.Perm (.pair nameParam name false ::
      .pair valueParam ('\'' :: (body ++ ['\''])) false :: extras))
    (forName : abbreviates nameParam spec.forName = true)
    (forValue : abbreviates valueParam spec.forValue = true)
    (others : ∀ a ∈ extras, a.IsExtra spec) :
    ∀ w ∈ args.flatMap words,
      (w ≠ [] ∧ ∀ c ∈ w, Dialect.pwsh.profile.isBare c = true) ∨ w = '\'' :: (body ++ ['\'']) := by
  have bare {w : List Char} (h : w ≠ [] ∧ ∀ c ∈ w, isOrdinary c = true) :
      w ≠ [] ∧ ∀ c ∈ w, Dialect.pwsh.profile.isBare c = true :=
    ⟨h.1, fun c hc ↦ Dialect.pwsh.isBare_of_isOrdinary (h.2 c hc)⟩
  have param {w : List Char} (h : IsParam w ∧ ∀ c ∈ w, isOrdinary c = true) :
      w ≠ [] ∧ ∀ c ∈ w, Dialect.pwsh.profile.isBare c = true := by
    obtain ⟨⟨c, rest, hw, -⟩, hordinary⟩ := h
    exact bare ⟨hw ▸ List.cons_ne_nil _ _, hordinary⟩
  intro w hw
  obtain ⟨a, ha, hw⟩ := List.mem_flatMap.1 hw
  rcases List.mem_cons.1 (perm.subset ha) with rfl | ha
  · simp only [words, List.mem_cons, List.not_mem_nil, or_false] at hw
    rcases hw with rfl | rfl
    · exact .inl (param (regular.isParam (by simp [ParameterForm.params]) forName))
    · exact .inl ⟨NameRule.ne_nil_of_accepts accepted,
        fun c hc ↦ (isBare_of_aliasName accepted c hc).1⟩
  · rcases List.mem_cons.1 ha with rfl | ha
    · simp only [words, List.mem_cons, List.not_mem_nil, or_false] at hw
      rcases hw with rfl | rfl
      · exact .inl (param (regular.isParam (by simp [ParameterForm.params]) forValue))
      · exact .inr rfl
    · exact .inl (bare ((others a ha).ordinary regular w hw))

/-- Without carriage returns in its value, nothing is taken out of a command when a file is read. -/
theorem cleanText_writeCommand {command : List Char} {words : List (List Char)}
    (hcommand : command ≠ [] ∧ command.head? ≠ some '\ufeff' ∧ ∀ c ∈ command, isOrdinary c = true)
    (hwords : ∀ w ∈ words, '\r' ∉ w) :
    cleanText (writeCommand command words) = writeCommand command words := by
  obtain ⟨hne, hmark, hordinary⟩ := hcommand
  have hfront : (writeCommand command words).head? ≠ some '\ufeff' := by
    obtain ⟨c, rest, rfl⟩ := List.exists_cons_of_ne_nil hne
    exact hmark
  have hreturn : '\r' ∉ writeCommand command words := by
    intro h
    rw [writeCommand, List.mem_append, List.mem_append] at h
    rcases h with (h | h) | h
    · exact absurd (hordinary _ h) (by decide)
    · obtain ⟨w, hw, h⟩ := List.mem_flatMap.1 h
      rcases List.mem_cons.1 h with h | h
      · exact absurd h (by decide)
      · exact hwords w hw h
    · exact absurd h (by decide)
  exact cleanText_eq_self hfront hreturn

end PowerShell

/-- In PowerShell an alias whose value stands between single quotes is read back from its command,
however the command word is spelled, in whatever order the parameters stand and whatever further
parameters stand among them. -/
theorem findings_parameterCommand {spec : ParameterForm}
    (form : Dialect.pwsh.profile.aliasForm = .parameters spec) (path : Path)
    {command nameParam valueParam name body : List Char} {args extras : List Argument}
    (called : ∃ known ∈ spec.commands, sameWord command known.toList = true)
    (accepted : Dialect.pwsh.profile.aliasNames.accepts name = true)
    (single : '\'' ∉ body) (noReturn : '\r' ∉ body)
    (perm : args.Perm (.pair nameParam name false ::
      .pair valueParam ('\'' :: (body ++ ['\''])) false :: extras))
    (forName : abbreviates nameParam spec.forName = true)
    (forValue : abbreviates valueParam spec.forValue = true)
    (others : ∀ a ∈ extras, a.IsExtra spec) :
    (Source.ofText path (writeCommand command (args.flatMap Argument.words))).findings
        (some .pwsh) =
      .ok ⟨[⟨.ofList name, .alias, .ofList body, path, 1⟩], []⟩ := by
  have regular := ParameterForm.isRegular_pwsh form
  obtain ⟨hne, hmark, hordinary⟩ := ordinary_of_called form called
  have hwords :=
    Argument.bare_or_quoted_of_mem regular accepted perm forName forValue others
  have hsolid : ∀ w ∈ command :: args.flatMap Argument.words, SolidWord Dialect.pwsh.profile w := by
    intro w hw
    rcases List.mem_cons.1 hw with rfl | hw
    · exact solidWord_bare hne fun c hc ↦ Dialect.pwsh.isBare_of_isOrdinary (hordinary c hc)
    · rcases hwords w hw with ⟨hfull, hbare⟩ | rfl
      · exact solidWord_bare hfull hbare
      · exact solidWord_singleQuoted Dialect.pwsh.escape_ne_quote single
  have hclean : cleanText (writeCommand command (args.flatMap Argument.words)) =
      writeCommand command (args.flatMap Argument.words) := by
    refine cleanText_writeCommand ⟨hne, hmark, hordinary⟩ fun w hw ↦ ?_
    rcases hwords w hw with ⟨-, hbare⟩ | rfl
    · exact fun h ↦ absurd (hbare _ h) (by decide)
    · simp [noReturn]
  have hunquoted : unquote Dialect.pwsh.profile name = name :=
    unquote_of_not_mem (fun h ↦ (isBare_of_aliasName accepted _ h).2 (by simp))
      fun h ↦ (isBare_of_aliasName accepted _ h).2 (by simp)
  have hproposal : spec.proposal? Dialect.pwsh.profile (args.flatMap Argument.words) =
      some ⟨name, body⟩ := by
    rw [regular.proposal?_of_extras _ perm forName forValue others, hunquoted,
      unquote_singleQuoted Dialect.pwsh.escape_ne_quote single]
  have hproposed : proposedAliases? Dialect.pwsh.profile
      (words Dialect.pwsh.profile (row command (args.flatMap Argument.words))) =
        some [⟨name, body⟩] := by
    have hany : spec.commands.any (Dialect.pwsh.profile.isKeyword command) = true := by
      obtain ⟨known, hknown, hsame⟩ := called
      exact List.any_eq_true.2 ⟨known, hknown, hsame⟩
    rw [words_row Dialect.pwsh.isPlain_space hsolid, proposedAliases?, form]
    simp [hany, hproposal]
  have hcommand : Extraction.ofCommand Dialect.pwsh.profile path
      ⟨0, 1, row command (args.flatMap Argument.words)⟩ true =
        ⟨[⟨.ofList name, .alias, .ofList body, path, 1⟩], [], none⟩ := by
    simp [Extraction.ofCommand, hproposed, define, Profile.nameRule, accepted, Extraction.concat]
  show Except.ok (Findings.ofSource Dialect.pwsh.profile ⟨path, cleanText _⟩) = _
  rw [hclean, Findings.ofSource_writeCommand path hsolid (afterLeading?_pwsh _)
    (if_neg fun h ↦ Bool.false_ne_true h.1), hcommand]

/-- A value of three lines that opens a comment, a here-string and a block comment, with a switch in
front of it and an abbreviated parameter behind. -/
theorem findings_parameterCommand_of_hereString :
    (Source.ofText ⟨"rc.ps1"⟩
        "sAL -Force -Value 'a # b\n@\"\n<# c' -sco Global -Name g.s\n".toList).findings
          (some .pwsh) =
      .ok ⟨[⟨"g.s", .alias, "a # b\n@\"\n<# c", ⟨"rc.ps1"⟩, 1⟩], []⟩ := by
  let body : List Char := "a # b\n@\"\n<# c".toList
  let extras : List Argument := [.switch "-Force".toList, .pair "-sco".toList "Global".toList false]
  let args : List Argument :=
    [.switch "-Force".toList, .pair "-Value".toList ('\'' :: (body ++ ['\''])) false,
      .pair "-sco".toList "Global".toList false, .pair "-Name".toList "g.s".toList false]
  have perm : args.Perm (.pair "-Name".toList "g.s".toList false ::
      .pair "-Value".toList ('\'' :: (body ++ ['\''])) false :: extras) :=
    List.isPerm_iff.1 (by decide)
  have called : sameWord "sAL".toList "sal".toList = true := by decide
  have hwritten : writeCommand "sAL".toList (args.flatMap Argument.words) =
      "sAL -Force -Value 'a # b\n@\"\n<# c' -sco Global -Name g.s\n".toList := by decide
  have h : (Source.ofText ⟨"rc.ps1"⟩
      (writeCommand "sAL".toList (args.flatMap Argument.words))).findings (some .pwsh) =
        .ok ⟨[⟨.ofList "g.s".toList, .alias, .ofList body, ⟨"rc.ps1"⟩, 1⟩], []⟩ := by
    refine findings_parameterCommand rfl ⟨"rc.ps1"⟩ ⟨"sal", by decide, called⟩ (by decide)
      (by decide) (by decide) perm (by decide) (by decide) fun a ha ↦ ?_
    simp only [extras, List.mem_cons, List.not_mem_nil, or_false] at ha
    rcases ha with rfl | rfl
    · exact ⟨⟨'F', "orce".toList, by decide⟩, List.all_eq_true.1 (by decide), by decide⟩
    · exact ⟨⟨"-Scope", by decide⟩, by decide, List.all_eq_true.1 (by decide)⟩
  rw [hwritten] at h
  exact h

end ShellCatalog
