import Mathlib.Data.List.Chain
import ShellCatalog.Proofs.FinalNewline
import ShellCatalog.Proofs.GroupReading

/-!
# Where statements begin and end

A separator counts only outside groups and quotes. So whatever stands between two separators is
closed in itself: a statement of a text that leaves nothing open is read from a state in which
nothing is open, and no group and no quote that it opens is open behind it
(`Statement.exists_isTop`). An escape may wait there for the blank that follows.

This is shown for dialects without here-documents, whose bodies may run on behind a separator.
**A separator is met outside** (`Mark.IsRead.isOutside`), and so is the end of a text that leaves
nothing open. **A run without separators goes on outside comments**
(`Mark.IsRead.mode_of_not_separates`), since comments separate. **Blanks close nothing**
(`Mark.IsRunOn.isTop_after`), so what holds behind the blanks at the end of a run holds in front of
them.
-/

namespace ShellCatalog

namespace Nesting

/-- The next character belongs to a comment, or ends one. -/
def InComment (s : Nesting) : Prop :=
  s.mode = .comment ∨ ∃ progress, s.mode = .blockComment progress

/-- The state is one that a text without here-documents leaves behind: no document waits for its
body, and no escape waits in a comment. -/
structure IsRegular (s : Nesting) : Prop where
  hereDocs : s.hereDocs = []
  mode : s.mode ≠ .hereDoc
  escaping : s.escaping = true → ¬ s.InComment

/-- No group and no quote is open; an escape may wait, and a comment may go on. -/
def IsOutside (s : Nesting) : Prop :=
  s.groups = [] ∧ (s.mode = .code ∨ s.InComment)

variable {p : Profile} {s : Nesting} {c : Char} {rest : List Char}

theorem isRegular_start (line : Nat) : (start line).IsRegular :=
  ⟨rfl, by simp [start], by simp [start]⟩

theorem InComment.mode_not_mem (h : s.InComment) :
    s.mode ∉ [.code, .single, .double, .ansi, .backquote] := by
  rcases h with h | ⟨progress, h⟩ <;> simp [h]

/-- An escape waits only where an escape character has been read. -/
theorem role_of_escaping_step (h : (s.step p c rest).1.escaping = true) :
    (s.step p c rest).2 = .escape ∧ ¬ (s.step p c rest).1.InComment := by
  obtain ⟨t, role, hreaction, hstep⟩ := exists_reaction p s c rest
  rw [hstep] at h ⊢
  replace h : t.escaping = true := h
  show role = .escape ∧ ¬ t.InComment
  cases hreaction with
  | escape _ hmode =>
    refine ⟨rfl, fun hcomment ↦ ?_⟩
    have hnone := InComment.mode_not_mem hcomment
    simp_all
  | endHereDocLine => simp_all [inHereDoc]
  | _ => simp_all [enter, openGroup]

/-- No escape waits in a comment, however a text is read. -/
theorem not_inComment_of_escaping (ready : s.escaping = true → ¬ s.InComment)
    (text ahead : List Char) (waits : (s.afterText p text ahead).escaping = true) :
    ¬ (s.afterText p text ahead).InComment :=
  afterText_invariant (motive := fun t ↦ t.escaping = true → ¬ t.InComment)
    (fun _ _ _ h ↦ (role_of_escaping_step h).2) ready text ahead waits

/-- Only the end of a line of code leads into the bodies of documents, and only if some wait. -/
theorem mode_step_ne_hereDoc (outside : s.mode ≠ .hereDoc)
    (line : c = '\n' → (s.step p c rest).2 = .code → s.hereDocs = []) :
    (s.step p c rest).1.mode ≠ .hereDoc := by
  obtain ⟨t, role, hreaction, hstep⟩ := exists_reaction p s c rest
  rw [hstep] at line ⊢
  replace line : c = '\n' → role = .code → s.hereDocs = [] := line
  show t.mode ≠ .hereDoc
  cases hreaction with
  | announce => rwa [mode_announceHereDoc]
  | endLine _ _ hc => simp [endCodeLine, line hc rfl]
  | closeGroup b => rcases mode_closeGroup s b with h | h <;> simp_all
  | endHereDocLine _ h => exact absurd h outside
  | enterQuote mode _ _ hquote =>
    show mode ≠ .hereDoc
    rintro rfl
    simp at hquote
  | blockComment _ mode _ _ hnext =>
    rcases hnext with ⟨-, rfl⟩ | ⟨next, rfl⟩ <;> simp
  | hereString _ mode _ _ _ hnext =>
    rcases hnext with rfl | rfl <;> simp
  | _ => simp_all [enter, openGroup]

/-- Here-strings are read only in a dialect that has them. -/
theorem mode_step_ne_hereString (strings : p.hereStrings = false)
    (outside : ∀ quote, s.mode ≠ .hereString quote) (quote : Char) :
    (s.step p c rest).1.mode ≠ .hereString quote := by
  obtain ⟨t, role, hreaction, hstep⟩ := exists_reaction p s c rest
  rw [hstep]
  show t.mode ≠ .hereString quote
  cases hreaction with
  | enterHereString _ _ _ h => simp [strings] at h
  | announce =>
    rw [mode_announceHereDoc]
    exact outside quote
  | endLine =>
    rcases endCodeLine_cases { s with mode := .code } with ⟨-, hend⟩ | ⟨-, hend⟩ <;> simp [hend]
  | closeGroup b => rcases mode_closeGroup s b with h | h <;> simp_all
  | endHereDocLine _ _ hc =>
    rw [hc, (atLineStart_inHereDoc s).mode]
    split <;> simp
  | hereString quote' _ _ h => exact absurd h (outside quote')
  | enterQuote mode _ _ hquote =>
    show mode ≠ .hereString quote
    rintro rfl
    simp at hquote
  | blockComment _ mode _ _ hnext =>
    rcases hnext with ⟨-, rfl⟩ | ⟨next, rfl⟩ <;> simp
  | _ => simp_all [enter, openGroup]

/-- A regular state leaves a regular state behind. -/
theorem IsRegular.step (docs : p.hereDocs = false) (h : s.IsRegular) (c : Char)
    (rest : List Char) : (s.step p c rest).1.IsRegular := by
  exact ⟨hereDocs_step_of_noHereDocs docs c rest h.hereDocs,
    mode_step_ne_hereDoc h.mode fun _ _ ↦ h.hereDocs,
    fun hescaping ↦ (role_of_escaping_step hescaping).2⟩

theorem IsRegular.afterText (docs : p.hereDocs = false) (h : s.IsRegular) (text ahead : List Char) :
    (s.afterText p text ahead).IsRegular :=
  afterText_invariant (fun c rest ht ↦ ht.step docs c rest) h text ahead

/-- What is read into a comment, or inside one, is comment. -/
theorem role_of_inComment (ready : s.escaping = true → ¬ s.InComment)
    (inside : (s.step p c rest).1.InComment) : (s.step p c rest).2 = .comment := by
  have hcomment := inside.mode_not_mem
  obtain ⟨t, role, hreaction, hstep⟩ := exists_reaction p s c rest
  rw [hstep] at inside hcomment ⊢
  replace inside : t.InComment := inside
  replace hcomment : t.mode ∉ [.code, .single, .double, .ansi, .backquote] := hcomment
  show role = .comment
  cases hreaction with
  | enterBlockComment | enterComment | comment | blockComment => rfl
  | escaped h => exact absurd inside (ready h)
  | announce => simp_all
  | endLine =>
    rcases endCodeLine_cases { s with mode := .code } with ⟨-, hend⟩ | ⟨-, hend⟩ <;>
      simp [InComment, hend] at inside
  | closeGroup b => rcases mode_closeGroup s b with h | h <;> simp_all
  | endHereDocLine _ _ hc =>
    rw [inHereDoc, if_pos hc] at hcomment inside
    dsimp only at hcomment inside
    split at inside <;> simp_all [InComment]
  | hereDoc _ hmode => simp_all [InComment]
  | hereString quote mode _ _ _ hmode => rcases hmode with rfl | rfl <;> simp_all [InComment]
  | _ => simp_all [enter, openGroup, InComment]

/-- A comment begins with a visible character. -/
theorem isSpace_of_entersComment {d : Dialect} (outside : ¬ s.InComment)
    (role : (s.step d.profile c rest).2 = .comment) : isSpace c = false := by
  have hready : s.escaping = false ∧ s.mode = .code := by
    obtain ⟨t, role', hreaction, hstep⟩ := exists_reaction d.profile s c rest
    rw [hstep] at role
    replace role : role' = .comment := role
    cases hreaction with
    | enterBlockComment hready hcode | enterComment hready hcode => exact ⟨hready, hcode⟩
    | comment _ hmode => exact absurd (.inl hmode) outside
    | blockComment progress _ _ hmode => exact absurd (.inr ⟨progress, hmode⟩) outside
    | _ => simp at role
  have hhash : d.profile.comment = '#' := by cases d <;> rfl
  by_contra hblank
  have hopen : c ≠ '<' ∧ c ≠ '#' := by
    constructor <;>
    · rintro rfl
      exact hblank (by decide)
  rw [step, react, if_neg (by simp [hready.1]), hready.2] at role
  simp only [inCode, hhash, hopen, false_and, and_false, if_false] at role
  repeat' split at role
  all_goals exact absurd role (by simp)

/-- What is read inside a block comment is comment, its end as well. -/
theorem step_blockComment {progress : BlockComment} (rest : List Char)
    (inside : s.mode = .blockComment progress) (ready : s.escaping = false) :
    s.step p c rest =
      ({ (inBlockComment progress s c).1 with
          line := if c = '\n' then s.line + 1 else s.line
          last := some (c, .comment) }, .comment) := by
  have hreact : s.react p c rest = inBlockComment progress s c := by
    rw [react, if_neg (by simp [ready]), inside]
  obtain ⟨mode, -, h⟩ := exists_inBlockComment progress s c
  rw [step, hreact, h]

/-- Outside groups, a character that is read inside a comment goes with it, or ends the line and
with it the comment. -/
theorem IsRegular.step_of_inComment (h : s.IsRegular) (inside : s.InComment) (c : Char)
    (rest : List Char) :
    (s.step p c rest).1.groups = s.groups ∧
      ((s.step p c rest).2 = .comment ∨
        c = '\n' ∧ (s.step p c rest).2 = .code ∧ (s.step p c rest).1.mode = .code ∧
          (s.step p c rest).1.escaping = false ∧ (s.step p c rest).1.hereDocs = []) := by
  have hready : s.escaping = false := by
    by_contra hwaits
    exact h.escaping (by simpa using hwaits) inside
  rcases inside with hmode | ⟨progress, hmode⟩
  · by_cases hc : c = '\n'
    · subst hc
      rw [step_commentEnd rest hmode hready h.hereDocs]
      exact ⟨rfl, .inr ⟨rfl, rfl, rfl, hready, h.hereDocs⟩⟩
    · rw [step_comment rest hmode hready hc]
      exact ⟨rfl, .inl rfl⟩
  · obtain ⟨mode, -, h⟩ := exists_inBlockComment progress s c
    rw [step_blockComment rest hmode hready, h]
    exact ⟨rfl, .inl rfl⟩

/-- Only an at sign ends a here-string. -/
theorem mode_step_of_hereString {quote : Char} (ready : s.escaping = false)
    (inside : s.mode = .hereString quote) (hc : c ≠ '@') :
    (s.step p c rest).1.mode = .hereString quote := by
  have hends : s.lineSoFar ++ [c] ≠ [quote, '@'] := by
    intro h
    have hlast := congrArg List.getLast? h
    rw [List.getLast?_concat] at hlast
    exact hc (Option.some.inj hlast)
  rw [Nesting.step, react, if_neg (by simp [ready]), inside]
  by_cases hline : c = '\n' <;> simp [inHereString, hline, hends, inside]

/-- Blanks close nothing: behind a blank the state is code outside every group only if it was so in
front of it, or a comment ended. -/
theorem IsRegular.isOutside_of_blank (h : s.IsRegular) (blank : isSpace c = true)
    (code : (s.step p c rest).1.mode = .code) (top : (s.step p c rest).1.groups = []) :
    s.IsOutside := by
  have visible : ∀ v, isSpace v = false → c ≠ v := by
    rintro v hv rfl
    exact absurd (hv.symm.trans blank) (by simp)
  have hstring {quote : Char} (hready : s.escaping = false) (hmode : s.mode = .hereString quote) :
      (s.step p c rest).1.mode = .hereString quote :=
    mode_step_of_hereString hready hmode (visible '@' (by decide))
  obtain ⟨t, role, hreaction, hstep⟩ := exists_reaction p s c rest
  rw [hstep] at code top
  replace code : t.mode = .code := code
  replace top : t.groups = [] := top
  cases hreaction with
  | escaped | escape | code => exact ⟨top, .inl code⟩
  | announce _ hmode => exact ⟨(groups_announceHereDoc ..).symm.trans top, .inl hmode⟩
  | endLine _ hmode => exact ⟨by rwa [groups_endCodeLine] at top, hmode.imp_right .inl⟩
  | closeGroup b _ _ hc =>
    simp [Bracket.ofCloser?, visible '}' (by decide), visible ')' (by decide)] at hc
  | closeQuote _ _ hc =>
    simp [visible '\'' (by decide), visible '"' (by decide), visible '\x60' (by decide)] at hc
  | blockComment progress mode _ hmode => exact ⟨top, .inr (.inr ⟨progress, hmode⟩)⟩
  | endHereDocLine _ hmode => exact absurd hmode h.mode
  | hereDoc _ hmode => exact absurd hmode h.mode
  | hereString quote mode hready hmode =>
    have hinside := hstring hready hmode
    rw [hstep] at hinside
    exact absurd (code.symm.trans hinside) (by simp)
  | _ => simp_all [enter, openGroup]

/-- What is comment, or code and no closing bracket, stands outside groups and quotes if it leaves
no group open. -/
theorem isOutside_of_role
    (role : (s.step p c rest).2 = .comment ∨
      (s.step p c rest).2 = .code ∧ Bracket.ofCloser? c = none)
    (top : (s.step p c rest).1.groups = []) : s.IsOutside := by
  obtain ⟨t, role', hreaction, hstep⟩ := exists_reaction p s c rest
  rw [hstep] at role top
  replace role : role' = .comment ∨ role' = .code ∧ Bracket.ofCloser? c = none := role
  replace top : t.groups = [] := top
  cases hreaction with
  | enterBlockComment _ hmode | enterComment _ hmode | code _ hmode => exact ⟨top, .inl hmode⟩
  | comment _ hmode => exact ⟨top, .inr (.inl hmode)⟩
  | blockComment progress mode _ hmode => exact ⟨top, .inr (.inr ⟨progress, hmode⟩)⟩
  | announce _ hmode => exact ⟨(groups_announceHereDoc ..).symm.trans top, .inl hmode⟩
  | endLine _ hmode => exact ⟨by rwa [groups_endCodeLine] at top, hmode.imp_right .inl⟩
  | closeGroup b _ _ hb => simp [hb] at role
  | openGroup | interruptQuote => simp [openGroup] at top
  | _ => simp at role

/-- What is comment, or code and no closing bracket, leaves code or a comment behind, and no
escape. -/
theorem IsRegular.step_of_role (h : s.IsRegular)
    (role : (s.step p c rest).2 = .comment ∨
      (s.step p c rest).2 = .code ∧ Bracket.ofCloser? c = none) :
    ((s.step p c rest).1.mode = .code ∨ (s.step p c rest).1.InComment) ∧
      (s.step p c rest).1.escaping = false := by
  have hdocs := h.hereDocs
  obtain ⟨t, role', hreaction, hstep⟩ := exists_reaction p s c rest
  rw [hstep] at role ⊢
  replace role : role' = .comment ∨ role' = .code ∧ Bracket.ofCloser? c = none := role
  show (t.mode = .code ∨ t.InComment) ∧ t.escaping = false
  cases hreaction with
  | enterBlockComment hready => exact ⟨.inr (.inr ⟨_, rfl⟩), hready⟩
  | enterComment hready => exact ⟨.inr (.inl rfl), hready⟩
  | comment hready hmode => exact ⟨.inr (.inl hmode), hready⟩
  | blockComment progress mode hready _ hmode =>
    exact ⟨hmode.imp (·.2) fun ⟨next, hnext⟩ ↦ .inr ⟨next, hnext⟩, hready⟩
  | announce hready hmode =>
    exact ⟨.inl (by rwa [mode_announceHereDoc]), by rwa [escaping_announceHereDoc]⟩
  | endLine hready =>
    exact ⟨.inl (by simp [endCodeLine, hdocs]), by simp [endCodeLine, hdocs, hready]⟩
  | openGroup _ hready hmode | code hready hmode => exact ⟨.inl hmode, hready⟩
  | interruptQuote hready => exact ⟨.inl rfl, hready⟩
  | closeGroup b _ _ hb => simp [hb] at role
  | _ => simp at role

/-- Where nothing is reported as open, no group and no quote is open. -/
theorem IsRegular.isOutside_of_closed (h : s.IsRegular) (closed : s.outermostOpen? = none) :
    s.IsOutside := by
  obtain ⟨hgroups, hquiet, -⟩ := outermostOpen?_eq_none_iff_openHereDocs.1 closed
  rcases hquiet with hmode | hmode | hmode
  · exact ⟨hgroups, .inl hmode⟩
  · exact ⟨hgroups, .inr (.inl hmode)⟩
  · exact absurd hmode h.mode

end Nesting

/-! ### Marks between separators -/

/-- The mark reads its character from a regular state. -/
def Mark.IsRead (p : Profile) (m : Mark) : Prop :=
  m.before.IsRegular ∧ ∃ rest, m.before.step p m.char rest = (m.after, m.role)

section Marks

variable {p : Profile} {m : Mark} {next : Option Mark}

theorem forall_isRead_marksAhead (docs : p.hereDocs = false) {s : Nesting} (hs : s.IsRegular)
    (offset : Nat) (text ahead : List Char) :
    ∀ m ∈ marksAhead p ahead s offset text, m.IsRead p := by
  intro m hm
  obtain ⟨front, behind, -, hbefore, hstep⟩ := Nesting.exists_of_mem_marksAhead hm
  exact ⟨hbefore ▸ hs.afterText docs front _, _, hstep⟩

/-- Each mark begins in the state that the mark in front of it leaves. -/
theorem isChain_marksAhead (p : Profile) (s : Nesting) (offset : Nat) (text ahead : List Char) :
    (marksAhead p ahead s offset text).IsChain fun m n ↦ m.after = n.before := by
  induction text generalizing s offset with
  | nil => exact .nil
  | cons c rest ih =>
    rw [marksAhead_cons]
    cases rest with
    | nil => exact .singleton _
    | cons d rest => exact .cons_cons rfl (ih _ _)

/-- At a mark that separates statements, no group and no quote is open, neither in front of it nor
behind it, and no escape waits behind it. -/
theorem Mark.IsRead.isOutside (h : m.IsRead p) (separates : m.separatesStatements next = true) :
    m.before.IsOutside ∧ m.after.IsOutside ∧ m.after.escaping = false := by
  obtain ⟨hregular, rest, hstep⟩ := h
  have houter (hrole : m.role = .comment ∨ m.role = .code ∧ Bracket.ofCloser? m.char = none)
      (hdepth : m.depth = 0) :
      m.before.IsOutside ∧ m.after.IsOutside ∧ m.after.escaping = false := by
    have htop : m.after.groups = [] := List.length_eq_zero_iff.1 hdepth
    have hbefore := @Nesting.isOutside_of_role p m.before m.char rest
    have hafter := @Nesting.IsRegular.step_of_role p m.before m.char rest hregular
    rw [hstep] at hbefore hafter
    exact ⟨hbefore hrole htop, ⟨htop, (hafter hrole).1⟩, (hafter hrole).2⟩
  rw [separatesStatements, Bool.or_eq_true, Bool.and_eq_true, decide_eq_true_eq] at separates
  rcases separates with hcomment | ⟨hdepth, hchar⟩
  · rw [isTopComment, decide_eq_true_eq] at hcomment
    exact houter (.inl hcomment.1) hcomment.2
  · split at hchar
    · next heq => exact houter (.inr ⟨by simpa using hchar, heq ▸ rfl⟩) hdepth
    · next heq => exact houter (.inr ⟨by simpa using hchar, heq ▸ rfl⟩) hdepth
    · next heq =>
      simp only [Bool.and_eq_true, decide_eq_true_eq] at hchar
      exact houter (.inr ⟨hchar.1.1.1, heq ▸ rfl⟩) hdepth
    · next heq =>
      obtain ⟨-, hliteral, hbalanced⟩ := endsLine_iff.1 hchar
      obtain ⟨hmode, hgroups, -, hready⟩ := Nesting.isBalanced_iff.1 hbalanced
      rw [heq] at hstep
      have hclosed := @Nesting.outermostOpen?_of_endsLine p m.before rest
      rw [hstep] at hclosed
      exact ⟨hregular.isOutside_of_closed (hclosed hliteral hbalanced), ⟨hgroups, .inl hmode⟩,
        hready⟩
    · exact absurd hchar Bool.false_ne_true

theorem Mark.IsRead.isRegular_after (docs : p.hereDocs = false) (h : m.IsRead p) :
    m.after.IsRegular := by
  obtain ⟨hregular, rest, hstep⟩ := h
  have hafter := hregular.step docs m.char rest
  rwa [hstep] at hafter

/-- A statement neither begins in a comment nor ends in one. -/
theorem Mark.IsRead.mode_of_not_separates (h : m.IsRead p)
    (inside : m.separatesStatements next = false) :
    (m.before.IsOutside → m.before.mode = .code) ∧ (m.after.IsOutside → m.after.mode = .code) := by
  obtain ⟨hregular, rest, hstep⟩ := h
  obtain ⟨hcomment, hends, -⟩ := of_separatesStatements_eq_false inside
  have hnone (hrole : m.role = .comment) (hgroups : m.after.groups = []) : False := by
    simp [isTopComment, depth, Nesting.depth, hrole, hgroups] at hcomment
  constructor
  · rintro ⟨hgroups, hmode⟩
    refine hmode.resolve_right fun hinside ↦ ?_
    have hread := hregular.step_of_inComment hinside m.char rest (p := p)
    rw [hstep] at hread
    obtain ⟨hsame, hrole | ⟨hchar, hrole, hcode, hready, hdocs⟩⟩ := hread
    · exact hnone hrole (hsame.trans hgroups)
    · refine absurd (endsLine_iff.2 ⟨hchar, ?_, ?_⟩) (by simp [hends])
      · simp only at hrole
        simp [hrole]
      · exact Nesting.isBalanced_iff.2 ⟨hcode, hsame.trans hgroups, hdocs, hready⟩
  · rintro ⟨hgroups, hmode⟩
    refine hmode.resolve_right fun hinside ↦ ?_
    have hrole := @Nesting.role_of_inComment p m.before m.char rest hregular.escaping
    rw [hstep] at hrole
    exact hnone (hrole hinside) hgroups

/-- A run of marks that is read from one state to the next, and in which no statement ends. -/
structure Mark.IsRunOn (p : Profile) (run : List Mark) : Prop where
  read : ∀ m ∈ run, m.IsRead p
  chain : run.IsChain fun m n ↦ m.after = n.before
  inside : ∀ m ∈ run, ∃ next, m.separatesStatements next = false

section Run

variable {lead body trail : List Mark}

theorem Mark.IsRunOn.left (h : IsRunOn p (body ++ trail)) : IsRunOn p body where
  read m hm := h.read m (List.mem_append_left _ hm)
  chain := h.chain.left_of_append
  inside m hm := h.inside m (List.mem_append_left _ hm)

theorem Mark.IsRunOn.right (h : IsRunOn p (lead ++ body)) : IsRunOn p body where
  read m hm := h.read m (List.mem_append_right _ hm)
  chain := h.chain.right_of_append
  inside m hm := h.inside m (List.mem_append_right _ hm)

/-- Behind the blanks at the start of a run nothing is open if nothing is open in front of them. -/
theorem Mark.IsRunOn.isBalanced_before {d : Dialect} (h : IsRunOn d.profile (lead ++ m :: body))
    (blank : isBlank (Mark.text lead) = true)
    (balanced : ∀ k ∈ (lead ++ m :: body).head?, k.before.isBalanced = true) :
    m.before.isBalanced = true := by
  induction lead with
  | nil => exact balanced m rfl
  | cons n lead ih =>
    have hbefore := balanced n rfl
    obtain ⟨-, rest, hstep⟩ := h.read n List.mem_cons_self
    have hblank := isBlank_iff.1 blank
    have hn : isSpace n.char = true := hblank _ List.mem_cons_self
    rw [Nesting.step_blank rest hbefore hn] at hstep
    refine ih (@IsRunOn.right _ [n] _ h)
      (isBlank_iff.2 fun c hc ↦ hblank c (List.mem_cons_of_mem _ hc)) fun k hk ↦ ?_
    have hchain := h.chain
    rw [List.cons_append] at hchain
    rw [← hchain.rel_head? hk, ← (Prod.mk.inj hstep).1]
    exact Nesting.isBalanced_iff.2 (Nesting.isBalanced_iff.1 hbefore)

/-- In front of the blanks at the end of a run no group and no quote is open if none is open behind
them. -/
theorem Mark.IsRunOn.isTop_after (h : IsRunOn p (body ++ trail))
    (blank : isBlank (Mark.text trail) = true)
    (outside : ∀ m ∈ (body ++ trail).getLast?, m.after.IsOutside) :
    ∀ m ∈ body.getLast?, m.after.groups = [] ∧ m.after.mode = .code := by
  induction trail using List.reverseRecOn with
  | nil =>
    intro m hm
    rw [List.append_nil] at h outside
    obtain ⟨next, hinside⟩ := h.inside m (List.mem_of_getLast? hm)
    have hread := h.read m (List.mem_of_getLast? hm)
    exact ⟨(outside m hm).1, (hread.mode_of_not_separates hinside).2 (outside m hm)⟩
  | append_singleton trail n ih =>
    rw [← List.append_assoc] at h outside
    have hn : n ∈ body ++ trail ++ [n] := by simp
    obtain ⟨hregular, rest, hstep⟩ := h.read n hn
    obtain ⟨next, hinside⟩ := h.inside n hn
    have hafter : n.after.IsOutside := outside n (by simp)
    rw [Mark.text_append, isBlank, List.all_append, Bool.and_eq_true] at blank
    have hblank : isSpace n.char = true := by simpa [Mark.text] using blank.2
    have hcode := ((h.read n hn).mode_of_not_separates hinside).2 hafter
    have hbefore := @Nesting.IsRegular.isOutside_of_blank p _ _ rest hregular hblank
    rw [hstep] at hbefore
    refine ih h.left blank.1 fun m hm ↦ ?_
    -- The blank begins where the mark in front of it ends.
    rw [(List.isChain_append.1 h.chain).2.2 m hm n rfl]
    exact hbefore hcode hafter.1

end Run

end Marks

/-! ### Statements of a text that leaves nothing open -/

section Closed

variable {d : Dialect} {text : List Char} {line : Nat} {s : Statement}
variable {front run behind : List Mark}

theorem forall_isRead_marks (docs : d.profile.hereDocs = false) (text : List Char) (line : Nat) :
    ∀ m ∈ marks d.profile text line, m.IsRead d.profile := by
  rw [marks, ← marksAhead_nil]
  exact forall_isRead_marksAhead docs (Nesting.isRegular_start line) 0 text []

theorem isChain_marks (p : Profile) (text : List Char) (line : Nat) :
    (marks p text line).IsChain fun m n ↦ m.after = n.before := by
  rw [marks, ← marksAhead_nil]
  exact isChain_marksAhead ..

/-- Nothing is open in front of a run that begins the text or stands behind a separator. -/
theorem Mark.IsRunOn.isBalanced_first (docs : d.profile.hereDocs = false)
    (h : IsRunOn d.profile run) (hmarks : marks d.profile text line = front ++ run ++ behind)
    (begins : front ≠ [] →
      ∃ k ∈ front.getLast?, ∃ next, k.separatesStatements next = true) :
    ∀ m ∈ run.head?, m.before.isBalanced = true := by
  intro m hm
  have hmem := List.mem_of_head? hm
  by_cases hstart : front = []
  · have hhead : (marks d.profile text line).head? = some m := by
      rw [hmarks, hstart, List.nil_append, List.head?_append, Option.mem_def.1 hm]
      rfl
    cases text with
    | nil => simp [marks] at hhead
    | cons c rest =>
      rw [marks, marksFrom_cons, List.head?_cons, Option.some_inj] at hhead
      rw [← hhead]
      exact Nesting.isBalanced_start line
  · obtain ⟨k, hk, next, hseparates⟩ := begins hstart
    have hchain := hmarks ▸ isChain_marks d.profile text line
    have hjoint := (List.isChain_append.1 hchain.left_of_append).2.2 k hk m hm
    have hread : k.IsRead d.profile :=
      forall_isRead_marks docs text line k (by simp [hmarks, List.mem_of_getLast? hk])
    obtain ⟨-, houter, hready⟩ := hread.isOutside hseparates
    obtain ⟨next', hnone⟩ := h.inside m hmem
    rw [hjoint] at houter hready
    exact Nesting.isBalanced_iff.2 ⟨((h.read m hmem).mode_of_not_separates hnone).1 houter,
      houter.1, (h.read m hmem).1.hereDocs, hready⟩

/-- In a text that leaves nothing open, no group and no quote is open behind a run that ends the
text or stands in front of a separator. -/
theorem Mark.IsRunOn.isOutside_last (docs : d.profile.hereDocs = false)
    (closed : ((Nesting.start line).afterText d.profile text []).outermostOpen? = none)
    (h : IsRunOn d.profile run) (hmarks : marks d.profile text line = front ++ run ++ behind)
    (ends : behind ≠ [] →
      ∃ n ∈ behind.head?, ∃ next, n.separatesStatements next = true) :
    ∀ m ∈ run.getLast?, m.after.IsOutside := by
  intro m hm
  by_cases hend : behind = []
  · have hlast : (marks d.profile text line).getLast? = some m := by
      rw [hmarks, hend, List.append_nil, List.getLast?_append, Option.mem_def.1 hm]
      rfl
    have hafter : (Nesting.start line).afterText d.profile text [] = m.after := by
      rw [Nesting.afterText, marksAhead_nil, ← marks, Nesting.afterMarks, hlast]
      rfl
    rw [hafter] at closed
    exact ((h.read m (List.mem_of_getLast? hm)).isRegular_after docs).isOutside_of_closed closed
  · obtain ⟨n, hn, next, hseparates⟩ := ends hend
    have hchain := hmarks ▸ isChain_marks d.profile text line
    have hread : n.IsRead d.profile :=
      forall_isRead_marks docs text line n (by simp [hmarks, List.mem_of_head? hn])
    rw [(List.isChain_append.1 hchain).2.2 m (by simp [Option.mem_def.1 hm]) n hn]
    exact (hread.isOutside hseparates).1

/-- Neighbouring marks of a text are a reading of their own characters. -/
theorem afterText_of_marks_eq {m : Mark} {body : List Mark}
    (hmarks : marks d.profile text line = front ++ (m :: body ++ behind)) :
    ∃ last ∈ (m :: body).getLast?,
      m.before.afterText d.profile (Mark.text (m :: body)) (Mark.text behind) = last.after := by
  obtain ⟨-, -, hrest⟩ := marksFrom_eq_append hmarks
  obtain ⟨-, hbody, -⟩ := marksFrom_eq_append hrest.symm
  set t := (Nesting.start line).afterText d.profile (Mark.text front)
    (Mark.text (m :: body ++ behind))
  have ht : m.before = t := by
    rw [show Mark.text (m :: body) = m.char :: Mark.text body from rfl, marksAhead_cons,
      List.cons.injEq] at hbody
    rw [hbody.1]
  refine ⟨_, List.getLast?_eq_some_getLast (List.cons_ne_nil m body), ?_⟩
  rw [ht, ← Nesting.afterMarks_marksAhead, ← hbody, Nesting.afterMarks,
    List.getLast?_eq_some_getLast (List.cons_ne_nil m body)]
  rfl

/-- A statement of a text that leaves nothing open is read from a state in which nothing is open,
and leaves no group and no quote open. -/
theorem Statement.exists_isTop (docs : d.profile.hereDocs = false)
    (closed : ((Nesting.start line).afterText d.profile text []).outermostOpen? = none)
    (hs : s ∈ statements d.profile text line) :
    ∃ (t : Nesting) (more : List Char), t.isBalanced = true ∧
      (t.afterText d.profile s.text more).groups = [] ∧
      (t.afterText d.profile s.text more).mode = .code := by
  obtain ⟨run, hrun, hs⟩ := List.mem_filterMap.1 hs
  obtain ⟨before, after, hpieces⟩ := List.append_of_mem hrun
  obtain ⟨front, behind, hmarks, hfirst, hfront, hlast, hbehind⟩ := exists_of_pieces_eq hpieces
  have hinside : Mark.IsRunOn d.profile run :=
    ⟨fun m hm ↦ forall_isRead_marks docs text line m (by simp [hmarks, hm]),
      (hmarks ▸ isChain_marks d.profile text line).left_of_append.right_of_append,
      fun m hm ↦ exists_eq_false_of_mem_piece hrun hm⟩
  have hbegins := hinside.isBalanced_first docs hmarks fun h ↦ hfront (mt hfirst h)
  have houtside := hinside.isOutside_last docs closed hmarks fun h ↦ hbehind (mt hlast h)
  -- The statement is the run without the blanks around it.
  obtain ⟨lead, m, body, trail, rfl, hlead, htrail, rfl, -, -⟩ := Statement.exists_of_ofMarks? hs
  have htop := hinside.right.isTop_after htrail fun k hk ↦ houtside k (by
    rw [List.getLast?_append, Option.mem_def.1 hk]
    rfl)
  have hplace : marks d.profile text line =
      (front ++ lead) ++ (m :: body ++ (trail ++ behind)) := by
    rw [hmarks]
    simp
  obtain ⟨last, hlast, hafter⟩ := afterText_of_marks_eq hplace
  refine ⟨m.before, Mark.text (trail ++ behind), hinside.isBalanced_before hlead hbegins, ?_⟩
  show (m.before.afterText d.profile (Mark.text (m :: body)) _).groups = [] ∧
    (m.before.afterText d.profile (Mark.text (m :: body)) _).mode = .code
  rw [hafter]
  exact htop last hlast

end Closed

end ShellCatalog
