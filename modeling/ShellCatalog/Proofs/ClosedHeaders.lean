import ShellCatalog.Proofs.ClosedStatements
import ShellCatalog.Proofs.ParameterRoundTrip

/-!
# A dangling header leaves nothing open

A header dangles if its body may begin the next logical line, and is then read together with that
line, a blank between the two. In PowerShell what dangles is a statement that begins with its
keyword (`exists_of_header?_pwsh`), so it begins with an ordinary character, and the header on its
own is read as in its line.

**Behind a header and a blank a word may begin** (`LogicalLine.LeavesNothing`), since a statement
leaves no group and no quote open, and an escape that waits goes with the blank. So the line that is
joined to the header is read as it is on its own (`LogicalLine.outermostOpen?_behind`), and this is
kept through a file: if the line leaves nothing open, what dangles behind it is again a statement of
a text that leaves nothing open (`leavesNothing_danglingAfter`).
-/

namespace ShellCatalog

/-! ### Headers -/

/-- A header of PowerShell begins with an ordinary character, the first of its keyword. -/
theorem exists_of_header?_pwsh {text : List Char} {h : Header}
    (header : Dialect.pwsh.profile.header? text = some h) :
    ∃ c rest, text = c :: rest ∧ isOrdinary c = true := by
  have ordinary {n : Nat} {word : List Char} (hsame : sameWord (text.take n) word = true)
      (hword : (word.all fun c ↦ isOrdinary (lowerAscii c)) = true) (full : word ≠ []) :
      ∃ c rest, text = c :: rest ∧ isOrdinary c = true := by
    rw [sameWord_comm] at hsame
    have hall := isOrdinary_of_sameWord hsame (List.all_eq_true.1 hword)
    cases text with
    | nil =>
      rw [List.take_nil, sameWord, beq_iff_eq, List.map_nil, List.map_eq_nil_iff] at hsame
      exact absurd hsame full
    | cons c rest =>
      cases n with
      | zero =>
        rw [List.take_zero, sameWord, beq_iff_eq, List.map_nil, List.map_eq_nil_iff] at hsame
        exact absurd hsame full
      | succ n => exact ⟨c, rest, rfl, hall c (by simp)⟩
  have hread : ∃ rest, FunctionKeyword.functionOrFilter.keyword? text = some rest := by
    cases hkeyword : FunctionKeyword.functionOrFilter.keyword? text with
    | some rest => exact ⟨rest, rfl⟩
    | none =>
      simp [Profile.header?, Dialect.profile, Profile.pwsh, FunctionKeyword.read?,
        hkeyword] at header
  obtain ⟨rest, hrest⟩ := hread
  simp only [FunctionKeyword.keyword?] at hrest
  split at hrest
  · next hsame => exact ordinary hsame (by decide) (by decide)
  · split at hrest
    · next hsame => exact ordinary hsame (by decide) (by decide)
    · exact absurd hrest (by simp)

namespace Nesting

variable {p : Profile} {s : Nesting} {c : Char} {rest : List Char}

/-- A hash behind a character that leaves code does not matter. -/
theorem step_of_code (docs : p.hereDocs = false) (code : (s.step p c rest).1.mode = .code)
    {rest' : List Char} (hash : rest'.head? ≠ some '#') : s.step p c rest' = s.step p c rest := by
  by_cases hrest : rest.head? = some '#'
  · have hreact : s.react p c rest' = s.react p c rest := by
      replace code : (s.react p c rest).1.mode = .code := code
      unfold react at code ⊢
      split
      · rfl
      · next hready =>
        rw [if_neg hready] at code
        split <;> try rfl
        next hmode =>
        simp only [hmode] at code
        by_cases hescape : c = p.escape
        · rw [inCode, inCode, if_pos hescape, if_pos hescape]
        · by_cases hblock : p.blockComments ∧ c = '<'
          · rw [inCode, if_neg hescape, if_pos ⟨hblock.1, hblock.2, hrest⟩] at code
            simp [enter] at code
          · have hnone (rest : List Char) : ¬ (p.blockComments ∧ c = '<' ∧ rest.head? = some '#') :=
              fun h ↦ hblock ⟨h.1, h.2.1⟩
            simp only [inCode, hnone, docs, if_false]
            simp
    rw [step, hreact, step]
  · exact step_congr_of_noHereDocs docs s c (by simp [hrest, hash])

/-- A text that leaves code behind is read alike in front of everything but a hash. -/
theorem afterText_of_code (docs : p.hereDocs = false) {text ahead ahead' : List Char}
    (code : (s.afterText p text ahead).mode = .code) (hash : ahead'.head? ≠ some '#') :
    s.afterText p text ahead' = s.afterText p text ahead := by
  induction text generalizing s with
  | nil => rfl
  | cons c rest ih =>
    rw [afterText_cons] at code
    rw [afterText_cons, afterText_cons]
    cases rest with
    | nil => exact congrArg Prod.fst (step_of_code docs code hash)
    | cons d rest =>
      have hsame : s.step p c (d :: rest ++ ahead') = s.step p c (d :: rest ++ ahead) :=
        step_congr_of_noHereDocs docs s c (by simp)
      rw [hsame]
      exact ih code

/-- Behind code outside every group, an escape that waits goes with the blank. -/
theorem atWord_step_blank {d : Dialect} (regular : s.IsRegular) (code : s.mode = .code)
    (top : s.groups = []) (rest : List Char) : (s.step d.profile ' ' rest).1.AtWord := by
  cases hready : s.escaping with
  | true =>
    rw [step_of_escaping _ _ hready]
    exact ⟨isBalanced_iff.2 ⟨code, top, regular.hereDocs, rfl⟩,
      by simp [AtBlank, lastChar?, isSpace]⟩
  | false =>
    have hbalanced := isBalanced_iff.2 ⟨code, top, regular.hereDocs, hready⟩
    rw [step_blank _ hbalanced (by decide)]
    exact ⟨hbalanced, by simp [AtBlank, lastChar?, isSpace]⟩

/-- An ordinary character is read alike wherever nothing is open. -/
theorem like_step_ordinary {d : Dialect} {t : Nesting} (hs : s.isBalanced = true)
    (ht : t.isBalanced = true) (hc : isOrdinary c = true) (rest : List Char) :
    (s.step d.profile c rest).1.Like (t.step d.profile c rest).1 := by
  obtain ⟨hmode, hgroups, hdocs, hready⟩ := isBalanced_iff.1 hs
  obtain ⟨hmode', hgroups', hdocs', hready'⟩ := isBalanced_iff.1 ht
  have hplain := d.isPlain_of_isOrdinary hc
  rw [step_plain rest hmode hready hplain, step_plain rest hmode' hready' hplain]
  exact
    { mode := hmode.trans hmode'.symm
      escaping := hready.trans hready'.symm
      groups := by simp [hgroups, hgroups']
      hereDocs := by simp [hdocs, hdocs']
      lineSoFar := .inl (by simp [hmode, Mode.IsOutsideBodies])
      last := .inl rfl }

end Nesting

/-- Nothing is open behind the text of the line and a blank, whatever follows. -/
def LogicalLine.LeavesNothing (p : Profile) (l : LogicalLine) : Prop :=
  ∀ ahead, ((Nesting.start l.line).afterText p (l.text ++ [' ']) ahead).AtWord

section Headers

variable {file : Path} {h : LogicalLine}

/-- A header that dangles behind a text that leaves nothing open leaves nothing open itself. -/
theorem Extraction.leavesNothing_of_dangling {text : List Char} {line : Nat}
    (closed : ((Nesting.start line).afterText Dialect.pwsh.profile text []).outermostOpen? = none)
    (hh : h ∈ (ofText Dialect.pwsh.profile file text line).dangling) :
    h.LeavesNothing Dialect.pwsh.profile := by
  have docs : Dialect.pwsh.profile.hereDocs = false := rfl
  rw [ofText_eq] at hh
  obtain ⟨e, he, hh⟩ := exists_of_mem_dangling_concat hh
  obtain ⟨s, hs, rfl⟩ := List.mem_map.1 he
  have hcommand : s.command Dialect.pwsh.profile = s :=
    Statement.command_of_none (afterLeading?_pwsh _)
  have hgroup : braceGroup? Dialect.pwsh.profile s.text = none :=
    if_neg (by simp [Dialect.profile, Profile.pwsh])
  rw [ofStatement, hcommand, hgroup] at hh
  obtain ⟨-, rfl, header, hheader⟩ := of_dangling_ofCommand hh
  obtain ⟨c, rest, htext, hc⟩ := exists_of_header?_pwsh hheader
  obtain ⟨t, more, ht, hgroups, hmode⟩ := Statement.exists_isTop docs closed hs
  -- Read on its own, the header leaves what it leaves in its line.
  have alike : (t.afterText Dialect.pwsh.profile s.text more).Like
      ((Nesting.start s.line).afterText Dialect.pwsh.profile s.text more) := by
    rw [htext, Nesting.afterText_cons, Nesting.afterText_cons]
    exact (Nesting.like_step_ordinary ht (Nesting.isBalanced_start s.line) hc _).afterText rest more
  have hcode := alike.mode.symm.trans hmode
  have htop : ((Nesting.start s.line).afterText Dialect.pwsh.profile s.text more).groups = [] :=
    List.isEmpty_iff.1 (alike.isEmpty_groups ▸ List.isEmpty_iff.2 hgroups)
  have hregular := (Nesting.isRegular_start s.line).afterText docs s.text more
  intro ahead
  rw [Nesting.afterText_append, Nesting.afterText_cons, Nesting.afterText_nil,
    Nesting.afterText_of_code docs hcode (by simp)]
  exact Nesting.atWord_step_blank hregular hcode htop _

/-- Behind a header that leaves nothing open, a line is read as it is on its own. -/
theorem LogicalLine.outermostOpen?_behind {dangling : Option LogicalLine} {l : LogicalLine}
    (settled : ∀ h ∈ dangling, h.LeavesNothing Dialect.pwsh.profile)
    (closed : ∀ line,
      ((Nesting.start line).afterText Dialect.pwsh.profile l.text []).outermostOpen? = none) :
    ((Nesting.start (l.behind Dialect.pwsh.profile dangling).line).afterText Dialect.pwsh.profile
      (l.behind Dialect.pwsh.profile dangling).text []).outermostOpen? = none := by
  rcases l.behind_cases Dialect.pwsh.profile dangling with
    halone | ⟨h, hh, -, -, hjoined⟩
  · rw [halone]
    exact closed l.line
  · have hword := settled h hh l.text
    have alike := ((Nesting.atWord_start h.line).like hword).afterText (p := Dialect.pwsh.profile)
      l.text []
    rw [hjoined]
    dsimp only
    rw [List.append_cons, Nesting.afterText_append, List.append_nil]
    exact alike.outermostOpen?_eq_none (closed h.line)

/-- Complete lines leave no header dangling but such as leave nothing open, however many lines were
joined to give it. -/
theorem leavesNothing_danglingAfter {ls : List LogicalLine} {dangling : Option LogicalLine}
    (complete : ∀ l ∈ ls, ∀ line,
      ((Nesting.start line).afterText Dialect.pwsh.profile l.text []).outermostOpen? = none)
    (settled : ∀ h ∈ dangling, h.LeavesNothing Dialect.pwsh.profile) :
    ∀ h ∈ Findings.danglingAfter Dialect.pwsh.profile file dangling ls,
      h.LeavesNothing Dialect.pwsh.profile := by
  induction ls generalizing dangling with
  | nil => exact settled
  | cons l ls ih =>
    refine ih (fun k hk ↦ complete k (List.mem_cons_of_mem _ hk)) fun h hh ↦ ?_
    have hclosed := LogicalLine.outermostOpen?_behind settled (complete l List.mem_cons_self)
    have hline : h ∈ (Extraction.ofLine Dialect.pwsh.profile file
        (l.behind Dialect.pwsh.profile dangling)).dangling := hh
    rcases Extraction.ofLine_cases Dialect.pwsh.profile file
      (l.behind Dialect.pwsh.profile dangling) with heq | ⟨t, -, heq⟩ <;> rw [heq] at hline
    · exact Extraction.leavesNothing_of_dangling hclosed hline
    · simp at hline

/-- A header that dangles behind the first lines of a file is complete. -/
theorem leavesNothing_of_logicalLines {text : List Char}
    (closed : ((Nesting.start 1).afterText Dialect.pwsh.profile text []).outermostOpen? = none) :
    ∀ h ∈ Findings.danglingAfter Dialect.pwsh.profile file none
        (logicalLines Dialect.pwsh.profile text), h.LeavesNothing Dialect.pwsh.profile := by
  refine leavesNothing_danglingAfter (fun l hl line ↦ ?_) (by simp)
  obtain ⟨front, run, behind, -, hanswers⟩ :=
    answers_logicalLine hl (complete_of_outermostOpen? closed l hl)
  rw [Nesting.afterText, marksAhead_nil]
  exact (hanswers line).2

end Headers

end ShellCatalog
