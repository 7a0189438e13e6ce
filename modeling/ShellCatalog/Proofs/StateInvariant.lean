import ShellCatalog.Proofs.ClosedStatements
import ShellCatalog.Proofs.OpeningLines

/-!
# What holds in every state

The fields of a state are not free of one another. An escape waits only in a mode that has an escape
character, the bodies of documents are read only while one is queued, and a group that interrupts a
double quote is a parenthesis and knows an earlier line than its own. `IsSound` lists what holds
wherever reading gets to (`isSound_of_reached`).

**Two halves, kept apart.** What is said without lines is `IsCoherent`, and each of its parts is
kept by a step on its own; the escape even needs nothing of the state in front
(`mode_of_escaping_step`). What is said of lines is the order in which constructs were opened
(`IsInOrder`): a quote, while it is interrupted, stands between two groups, so its line is bounded
by theirs only there.

**The depth counts brackets of code.** A step changes it by one or not at all, and closing a group
goes back to the quote that the group interrupted (`GroupChange`).
-/

namespace ShellCatalog.Nesting

variable {p : Profile} {s : Nesting} {ahead : List Char}

/-- What a state holds to, the lines left out. -/
structure IsCoherent (s : Nesting) : Prop where
  /-- An escape waits only where there are escape characters. -/
  escaping : s.escaping = true → s.mode ∈ [.code, .double, .ansi, .backquote]
  /-- A body is read only while its document is queued. -/
  waiting : s.mode = .hereDoc → s.hereDocs ≠ []
  /-- Every queued document has a word to wait for. -/
  delimiters : ∀ doc ∈ s.hereDocs, doc.delimiter ≠ []
  lineSoFar : '\n' ∉ s.lineSoFar
  /-- Only a parenthesis interrupts a quote. -/
  interrupting : ∀ g ∈ s.groups, g.quoteLine.isSome = true → g.bracket = .paren

/-- What a state holds to. -/
structure IsSound (s : Nesting) : Prop extends IsCoherent s where
  hereDocs_le : ∀ doc ∈ s.hereDocs, doc.line ≤ s.line
  /-- Groups were opened from the outside in. -/
  groups : s.groups.Pairwise fun inner outer ↦ outer.line ≤ inner.line
  groups_le : ∀ g ∈ s.groups, g.line ≤ s.line
  /-- A group was opened no earlier than the quote that it interrupts. -/
  quotes_le : ∀ g ∈ s.groups, ∀ line ∈ g.quoteLine, line ≤ g.line

/-! ### What is said without lines -/

/-- An escape waits only behind an escape character, and the mode is then one that has them. -/
theorem mode_of_escaping_step {c : Char} {rest : List Char}
    (h : (s.step p c rest).1.escaping = true) :
    (s.step p c rest).1.mode ∈ [.code, .double, .ansi, .backquote] := by
  obtain ⟨hrole, -⟩ := role_of_escaping_step h
  obtain ⟨t, role, hreaction, hstep⟩ := exists_reaction p s c rest
  rw [hstep] at hrole ⊢
  replace hrole : role = .escape := hrole
  cases hreaction with
  | escape _ hmode => exact hmode
  | _ => simp at hrole

theorem AtLineStart.hereDocs_ne_nil (h : s.AtLineStart) (inside : s.mode = .hereDoc) :
    s.hereDocs ≠ [] := by
  intro hnone
  have hmode := h.mode
  rw [if_pos hnone, inside] at hmode
  exact Mode.noConfusion hmode

/-- The bodies of documents are entered and gone on with only while one is queued. -/
theorem hereDocs_ne_nil_step (h : s.mode = .hereDoc → s.hereDocs ≠ []) {c : Char}
    {rest : List Char} (inside : (s.step p c rest).1.mode = .hereDoc) :
    (s.step p c rest).1.hereDocs ≠ [] := by
  obtain ⟨t, role, hreaction, hstep⟩ := exists_reaction p s c rest
  rw [hstep] at inside ⊢
  replace inside : t.mode = .hereDoc := inside
  show t.hereDocs ≠ []
  cases hreaction with
  | escaped | escape | quoted | comment | hereDoc | endHereStringLine => exact h inside
  | announce _ hmode => simp_all [mode_announceHereDoc]
  | endLine => exact (atLineStart_endCodeLine rfl).hereDocs_ne_nil inside
  | closeGroup b _ hmode => rcases mode_closeGroup s b with hsame | hdouble <;> simp_all
  | endHereDocLine _ _ hc =>
    rw [hc] at inside ⊢
    exact (atLineStart_inHereDoc s).hereDocs_ne_nil inside
  | enterQuote mode _ _ hquote => simp_all [enter]
  | blockComment _ mode _ _ hnext => rcases hnext with ⟨-, rfl⟩ | ⟨next, rfl⟩ <;> simp at inside
  | hereString _ mode _ _ _ hnext => rcases hnext with rfl | rfl <;> simp at inside
  | _ => simp_all [enter, openGroup]

/-- A step leaves nothing that is incoherent. -/
theorem IsCoherent.step (h : s.IsCoherent) (c : Char) (rest : List Char) :
    (s.step p c rest).1.IsCoherent where
  escaping := mode_of_escaping_step
  waiting := hereDocs_ne_nil_step h.waiting
  delimiters := delimiter_ne_nil_step h.delimiters
  lineSoFar := newline_not_mem_lineSoFar_step h.lineSoFar
  interrupting := by
    cases groupChange_step p s c rest with
    | kept hgroups => exact hgroups ▸ h.interrupting
    | opened g _ _ _ hquote hgroups =>
      rw [hgroups, List.forall_mem_cons]
      refine ⟨fun hsome ↦ ?_, h.interrupting⟩
      rcases hquote with hnone | ⟨hbracket, -⟩
      · simp [hnone] at hsome
      · exact hbracket
    | closed g _ _ _ hgroups =>
      exact fun g' hg' ↦ h.interrupting g' (hgroups ▸ List.mem_cons_of_mem g hg')

theorem isCoherent_start (line : Nat) : (start line).IsCoherent := by
  constructor <;> simp [start]

theorem isCoherent_of_reached (h : Reached p ahead s) : s.IsCoherent := by
  induction h with
  | start line ahead => exact isCoherent_start line
  | step _ ih => exact ih.step _ _

/-! ### Lines -/

/-- The lines of groups and of the quotes that they interrupt are in the order of their opening. -/
theorem IsInOrder.pairwise_groups (h : s.IsInOrder) :
    s.groups.Pairwise (fun inner outer ↦ outer.line ≤ inner.line) ∧
      ∀ g ∈ s.groups, g.line ≤ s.line ∧ ∀ line ∈ g.quoteLine, line ≤ g.line := by
  have hspans : (s.groups.flatMap Group.constructs).Pairwise fun inner outer ↦
      outer.line ≤ inner.line := (List.pairwise_append.1 h.spans).2.1
  rw [List.pairwise_flatMap] at hspans
  constructor
  · refine hspans.2.imp fun {inner outer} hle ↦ ?_
    exact hle ⟨_, inner.line⟩ List.mem_cons_self ⟨_, outer.line⟩ List.mem_cons_self
  · intro g hg
    have hmem : ⟨g.bracket.construct, g.line⟩ ∈ s.openSpans :=
      List.mem_append_right _ (List.mem_flatMap.2 ⟨g, hg, List.mem_cons_self⟩)
    refine ⟨h.spans_le _ hmem, fun line hline ↦ ?_⟩
    have hown := hspans.1 g hg
    rw [Group.constructs, Option.mem_def.1 hline] at hown
    exact (List.pairwise_cons.1 hown).1 ⟨.doubleQuote, line⟩ (by simp)

/-! ### The depth -/

/-- A bracket is one of four characters. -/
theorem GroupChange.mem_of_depth_ne {c : Char} {t : Nesting} {role : CharRole}
    (h : GroupChange s c t role) (changed : t.depth ≠ s.depth) :
    role = .code ∧ c ∈ ['(', ')', '{', '}'] := by
  cases h with
  | kept hgroups => exact absurd (congrArg List.length hgroups) changed
  | opened g hrole hopener =>
    rcases Bracket.eq_of_ofOpener? hopener with rfl | rfl <;> simp [hrole]
  | closed g hrole hcloser =>
    rcases Bracket.eq_of_ofCloser? hcloser with rfl | rfl <;> simp [hrole]

theorem GroupChange.depth_le {c : Char} {t : Nesting} {role : CharRole}
    (h : GroupChange s c t role) : t.depth ≤ s.depth + 1 ∧ s.depth ≤ t.depth + 1 := by
  cases h with
  | kept hgroups => simp [depth, hgroups]
  | opened g _ _ _ _ hgroups => simp [depth, hgroups]; omega
  | closed g _ _ _ hgroups => simp [depth, hgroups]; omega

/-- Closing a group goes back to the quote that it interrupted. -/
theorem GroupChange.resumes {c : Char} {t : Nesting} {role : CharRole} {g : Group}
    (h : GroupChange s c t role) (closed : s.groups = g :: t.groups) :
    ∀ line ∈ g.quoteLine, t.mode = .double ∧ t.openedOn = line := by
  have hlength := congrArg List.length closed
  rw [List.length_cons] at hlength
  cases h with
  | kept hgroups =>
    rw [hgroups] at hlength
    omega
  | opened g' _ _ _ _ hgroups =>
    rw [hgroups, List.length_cons] at hlength
    omega
  | closed g' _ _ hquote hgroups =>
    rwa [← (List.cons.inj (hgroups.symm.trans closed)).1]

/-- Wherever reading gets to, the state is sound, and whatever comes next changes the depth by one
at most and only as a bracket of code. A group that interrupts a double quote goes back to it when
it is closed. -/
theorem isSound_of_reached (reached : Reached p ahead s) :
    s.IsSound ∧ ∀ (c : Char) (rest : List Char),
      ((s.step p c rest).1.depth ≤ s.depth + 1 ∧ s.depth ≤ (s.step p c rest).1.depth + 1) ∧
      ((s.step p c rest).1.depth ≠ s.depth →
        (s.step p c rest).2 = .code ∧ c ∈ ['(', ')', '{', '}']) ∧
      ∀ g, s.groups = g :: (s.step p c rest).1.groups → ∀ line ∈ g.quoteLine,
        (s.step p c rest).1.mode = .double ∧ (s.step p c rest).1.openedOn = line := by
  have inOrder := isInOrder_of_reached reached
  obtain ⟨hgroups, hlines⟩ := inOrder.pairwise_groups
  refine ⟨⟨isCoherent_of_reached reached, inOrder.docs_le, hgroups, fun g hg ↦ (hlines g hg).1,
    fun g hg ↦ (hlines g hg).2⟩, fun c rest ↦ ?_⟩
  have hchange := groupChange_step p s c rest
  exact ⟨hchange.depth_le, hchange.mem_of_depth_ne, fun g hclosed ↦ hchange.resumes hclosed⟩

/-- A substitution on the second line of a double quote, with a document announced in it: its
parenthesis goes back to the quote of the first line. -/
theorem isSound_of_reached_of_substitution :
    let s := (start 1).afterText Dialect.bash.profile "x=\"a\n$(cat <<E".toList [')']
    let t := (s.step Dialect.bash.profile ')' []).1
    s.IsSound ∧ s.groups = [⟨.paren, 2, some 1⟩] ∧ s.hereDocs = [⟨['E'], false, 2⟩] ∧
      t.groups = [] ∧ t.mode = .double ∧ t.openedOn = 1 := by
  intro s t
  have reached : Reached Dialect.bash.profile [')'] s := reached_iff.2 ⟨1, _, rfl⟩
  have hgroups : s.groups = [⟨.paren, 2, some 1⟩] := by decide +kernel
  have hclosed : t.groups = [] := by decide +kernel
  have hdocs : s.hereDocs = [⟨['E'], false, 2⟩] := by decide +kernel
  obtain ⟨hsound, hstep⟩ := isSound_of_reached reached
  have hquote := (hstep ')' []).2.2 ⟨.paren, 2, some 1⟩ (by rw [hgroups, hclosed]) 1 rfl
  exact ⟨hsound, hgroups, hdocs, hclosed, hquote⟩

end ShellCatalog.Nesting
