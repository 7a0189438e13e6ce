import Mathlib.Tactic.Set
import ShellCatalog.Nesting.Reached

/-!
# What one character can do

`Nesting.react` is a table of cases by mode and character. `Reaction` lists the outcomes of the
table once, each with the guard under which it occurs, so that a rule about steps is proved by
looking at the outcomes and never at the table (`reaction`).

From the list follows what a step can do to each part of a state: a bracket of code lets the stack
of groups grow or shrink by one (`GroupChange`), the queue of here-documents grows at its back and
shrinks at its front, and the line read so far of a body holds no newline.
-/

namespace ShellCatalog.Nesting

/-- The state `t` and the class that a character can lead to, the line and the last character left
out. -/
inductive Reaction (p : Profile) (s : Nesting) (c : Char) (rest : List Char) :
    Nesting → CharRole → Prop
  | escaped : s.escaping = true → Reaction p s c rest { s with escaping := false } .escaped
  | escape : s.escaping = false → s.mode ∈ [.code, .double, .ansi, .backquote] →
      Reaction p s c rest { s with escaping := true } .escape
  | enterBlockComment : s.escaping = false → s.mode = .code →
      Reaction p s c rest (s.enter (.blockComment .opening)) .comment
  | enterQuote (mode : Mode) : s.escaping = false → s.mode = .code →
      mode ∈ [.single, .double, .ansi, .backquote] →
      Reaction p s c rest (s.enter mode) .quoteDelim
  | enterHereString : s.escaping = false → s.mode = .code → c = '\'' ∨ c = '"' →
      p.hereStrings = true →
      Reaction p s c rest { s.enter (.hereString c) with lineSoFar := [] } .quoteDelim
  | enterComment : s.escaping = false → s.mode = .code →
      Reaction p s c rest { s with mode := .comment } .comment
  | announce : s.escaping = false → s.mode = .code → c = '<' → p.hereDocs = true →
      Reaction p s c rest (s.announceHereDoc (c :: rest)) .code
  | endLine : s.escaping = false → s.mode = .code ∨ s.mode = .comment → c = '\n' →
      Reaction p s c rest ({ s with mode := .code } : Nesting).endCodeLine .code
  | openGroup (b : Bracket) : s.escaping = false → s.mode = .code →
      Bracket.ofOpener? c = some b → Reaction p s c rest (s.openGroup b) .code
  | closeGroup (b : Bracket) : s.escaping = false → s.mode = .code →
      Bracket.ofCloser? c = some b → Reaction p s c rest (s.closeGroup b) .code
  | code : s.escaping = false → s.mode = .code → c ≠ '\n' → Reaction p s c rest s .code
  | interruptQuote : s.escaping = false → s.mode = .double → c = '(' →
      Reaction p s c rest
        { s with groups := ⟨.paren, s.line, some s.openedOn⟩ :: s.groups, mode := .code } .code
  | closeQuote : s.escaping = false → s.mode ∈ [.single, .double, .ansi, .backquote] →
      c ∈ ['\'', '"', '\x60'] → Reaction p s c rest { s with mode := .code } .quoteDelim
  | quoted : s.escaping = false → s.mode ∈ [.single, .double, .ansi, .backquote] →
      Reaction p s c rest s .quoted
  | comment : s.escaping = false → s.mode = .comment → c ≠ '\n' → Reaction p s c rest s .comment
  | blockComment (progress : BlockComment) (mode : Mode) : s.escaping = false →
      s.mode = .blockComment progress →
      (c = '>' ∧ mode = .code ∨ ∃ next, mode = .blockComment next) →
      Reaction p s c rest { s with mode := mode } .comment
  | endHereDocLine : s.escaping = false → s.mode = .hereDoc → c = '\n' →
      Reaction p s c rest (inHereDoc s c).1 .hereBody
  | hereDoc : s.escaping = false → s.mode = .hereDoc → c ≠ '\n' →
      Reaction p s c rest { s with lineSoFar := s.lineSoFar ++ [c] } .hereBody
  | endHereStringLine (quote : Char) : s.escaping = false → s.mode = .hereString quote →
      c = '\n' → Reaction p s c rest { s with lineSoFar := [] } .hereBody
  | hereString (quote : Char) (mode : Mode) : s.escaping = false → s.mode = .hereString quote →
      c ≠ '\n' → (mode = .code ∨ mode = .hereString quote) →
      Reaction p s c rest { s with lineSoFar := s.lineSoFar ++ [c], mode := mode } .hereBody

variable {p : Profile} {s : Nesting} {c : Char} {rest : List Char}

theorem reaction_inCode (ready : s.escaping = false) (code : s.mode = .code) :
    Reaction p s c rest (inCode p s c rest).1 (inCode p s c rest).2 := by
  have hs : ({ s with mode := .code } : Nesting) = s := by rw [← code]
  have hmodes : s.mode ∈ [.code, .double, .ansi, .backquote] := by simp [code]
  unfold inCode
  split
  · exact .escape ready hmodes
  split
  · exact .enterBlockComment ready code
  split
  · next h => exact .enterHereString ready code h.1 h.2.1
  split
  · exact .enterQuote _ ready code (by split <;> decide)
  split
  · exact .enterQuote _ ready code (by decide)
  split
  · exact .enterQuote _ ready code (by decide)
  split
  · exact .enterComment ready code
  split
  · next h => exact .announce ready code h.1 h.2.1
  split
  · next h =>
    have hreaction : Reaction p s c rest ({ s with mode := .code } : Nesting).endCodeLine .code :=
      .endLine ready (.inl code) h
    rwa [hs] at hreaction
  next hline =>
  split
  · next b heq => exact .openGroup b ready code heq
  · next b _ heq => exact .closeGroup b ready code heq
  · exact .code ready code hline

theorem reaction_inQuotes (escape : Option Char) (quote : Char) (ready : s.escaping = false)
    (quotes : s.mode ∈ [.single, .double, .ansi, .backquote])
    (hquote : quote ∈ ['\'', '"', '\x60'])
    (hescape : some c = escape → s.mode ≠ .single) :
    Reaction p s c rest (inQuotes escape quote s c).1 (inQuotes escape quote s c).2 := by
  unfold inQuotes
  split
  · next h =>
    refine .escape ready ?_
    simp only [List.mem_cons, List.not_mem_nil, or_false] at quotes ⊢
    exact .inr (quotes.resolve_left (hescape h))
  split
  · next h => exact .closeQuote ready quotes (h ▸ hquote)
  · exact .quoted ready quotes

theorem reaction_inDoubleQuotes (ready : s.escaping = false) (double : s.mode = .double) :
    Reaction p s c rest (inDoubleQuotes p s c).1 (inDoubleQuotes p s c).2 := by
  unfold inDoubleQuotes
  split
  · exact .escape ready (by simp [double])
  split
  · next h => exact .interruptQuote ready double h.1
  · exact reaction_inQuotes none '"' ready (by simp [double]) (by simp) (by simp)

theorem reaction_inBlockComment {progress : BlockComment} (ready : s.escaping = false)
    (inside : s.mode = .blockComment progress) :
    Reaction p s c rest (inBlockComment progress s c).1 (inBlockComment progress s c).2 := by
  obtain ⟨mode, hmode, h⟩ := exists_inBlockComment progress s c
  rw [h]
  exact .blockComment progress mode ready inside hmode

theorem reaction_inHereString {quote : Char} (ready : s.escaping = false)
    (inside : s.mode = .hereString quote) :
    Reaction p s c rest (inHereString quote s c).1 (inHereString quote s c).2 := by
  unfold inHereString
  split
  · next h => exact .endHereStringLine quote ready inside h
  · next h =>
    refine .hereString quote _ ready inside h ?_
    split
    · exact .inl rfl
    · exact .inr inside

/-- What a character leads to is one of the outcomes. -/
theorem reaction (p : Profile) (s : Nesting) (c : Char) (rest : List Char) :
    Reaction p s c rest (s.react p c rest).1 (s.react p c rest).2 := by
  unfold react
  split
  · next h => exact .escaped h
  next h =>
  have ready : s.escaping = false := by simpa using h
  cases hmode : s.mode with
  | code => exact reaction_inCode ready hmode
  | single => exact reaction_inQuotes none '\'' ready (by simp [hmode]) (by simp) (by simp)
  | double => exact reaction_inDoubleQuotes ready hmode
  | ansi =>
    exact reaction_inQuotes (some '\\') '\'' ready (by simp [hmode]) (by simp) (by simp [hmode])
  | backquote =>
    exact reaction_inQuotes (some '\\') '\x60' ready (by simp [hmode]) (by simp) (by simp [hmode])
  | comment =>
    dsimp only
    split
    · next hc => exact .endLine ready (.inr hmode) hc
    · next hc => exact .comment ready hmode hc
  | blockComment progress => exact reaction_inBlockComment ready hmode
  | hereDoc =>
    by_cases hc : c = '\n'
    · have hrole : (inHereDoc s c).2 = .hereBody := by simp [inHereDoc, hc]
      rw [hrole]
      exact .endHereDocLine ready hmode hc
    · simp only [inHereDoc, hc, if_false]
      exact .hereDoc ready hmode hc
  | hereString quote => exact reaction_inHereString ready hmode

/-- A step is an outcome, with the line and the last character brought up to date. -/
theorem exists_reaction (p : Profile) (s : Nesting) (c : Char) (rest : List Char) :
    ∃ t role, Reaction p s c rest t role ∧
      s.step p c rest =
        ({ t with line := if c = '\n' then s.line + 1 else s.line, last := some (c, role) },
          role) :=
  ⟨_, _, reaction p s c rest, rfl⟩

/-! ### The stack of groups -/

/-- What a character of class `role` does to the groups of `s`, where it leaves `t` behind. -/
inductive GroupChange (s : Nesting) (c : Char) (t : Nesting) (role : CharRole) : Prop
  | kept : t.groups = s.groups → GroupChange s c t role
  /-- A bracket of code opens a group on its line, which interrupts nothing or, as a parenthesis,
  the current double quote. -/
  | opened (g : Group) : role = .code → Bracket.ofOpener? c = some g.bracket → g.line = s.line →
      (g.quoteLine = none ∨
        g.bracket = .paren ∧ s.mode = .double ∧ g.quoteLine = some s.openedOn) →
      t.groups = g :: s.groups → GroupChange s c t role
  /-- A bracket of code closes the innermost group and resumes the quote that it interrupted. -/
  | closed (g : Group) : role = .code → Bracket.ofCloser? c = some g.bracket →
      (∀ line ∈ g.quoteLine, t.mode = .double ∧ t.openedOn = line) → s.groups = g :: t.groups →
      GroupChange s c t role

/-- A step leaves the groups as they are, or its bracket opens one or closes the innermost. -/
theorem groupChange_step (p : Profile) (s : Nesting) (c : Char) (rest : List Char) :
    GroupChange s c (s.step p c rest).1 (s.step p c rest).2 := by
  obtain ⟨t, role, hreaction, hstep⟩ := exists_reaction p s c rest
  rw [hstep]
  cases hreaction with
  | announce => exact .kept (groups_announceHereDoc ..)
  | endLine => exact .kept (groups_endCodeLine _)
  | openGroup b _ _ hb => exact .opened _ rfl hb rfl (.inl rfl) rfl
  | closeGroup b _ _ hb =>
    rcases closeGroup_cases s b with
      hsame | ⟨g, outer, hgroups, hbracket, ⟨hquote, hclosed⟩ | ⟨line, hquote, hclosed⟩⟩
    · exact .kept (by rw [hsame])
    · exact .closed g rfl (hbracket ▸ hb) (by simp [hquote]) (by rw [hclosed, hgroups])
    · exact .closed g rfl (hbracket ▸ hb) (by simp [hquote, hclosed]) (by rw [hclosed, hgroups])
  | interruptQuote _ hmode hc =>
    exact .opened _ rfl (by rw [hc]; rfl) rfl (.inr ⟨rfl, hmode, rfl⟩) rfl
  | endHereDocLine _ _ hc => exact .kept (by simp [inHereDoc, hc])
  | _ => exact .kept rfl

/-- A step leaves the groups as they are, or it opens one, or it closes the innermost. -/
theorem groups_step (p : Profile) (s : Nesting) (c : Char) (rest : List Char) :
    (s.step p c rest).1.groups = s.groups ∨ (∃ g, (s.step p c rest).1.groups = g :: s.groups) ∨
      ∃ g, s.groups = g :: (s.step p c rest).1.groups := by
  cases groupChange_step p s c rest with
  | kept h => exact .inl h
  | opened g _ _ _ _ h => exact .inr (.inl ⟨g, h⟩)
  | closed g _ _ _ h => exact .inr (.inr ⟨g, h⟩)

/-- Outside every group, only an opening bracket opens one. -/
theorem groups_step_of_ne (rest : List Char) (outside : s.groups = []) (hc : c ≠ '(' ∧ c ≠ '{') :
    (s.step p c rest).1.groups = [] := by
  cases groupChange_step p s c rest with
  | kept h => exact h.trans outside
  | opened g _ hopener => simp [Bracket.ofOpener?, hc] at hopener
  | closed g _ _ _ h => simp [outside] at h

/-- The outermost group stays open until its own bracket closes it as the last one. -/
theorem getLast?_groups_step {g : Group} (p : Profile) (c : Char) (rest : List Char)
    (outer : s.groups.getLast? = some g) :
    (s.step p c rest).1.groups.getLast? = some g ∨
      s.groups = [g] ∧ (s.step p c rest).1.groups = [] ∧ (s.step p c rest).2 = .code ∧
        Bracket.ofCloser? c = some g.bracket ∧
        ∀ line ∈ g.quoteLine,
          (s.step p c rest).1.mode = .double ∧ (s.step p c rest).1.openedOn = line := by
  cases groupChange_step p s c rest with
  | kept h => exact .inl (h ▸ outer)
  | opened g' _ _ _ _ h => exact .inl (by rw [h, List.getLast?_cons, outer]; rfl)
  | closed g' hrole hcloser hquote h =>
    rw [h, List.getLast?_cons] at outer
    cases hbehind : (s.step p c rest).1.groups.getLast? with
    | none =>
      have hnil := List.getLast?_eq_none_iff.1 hbehind
      obtain rfl : g' = g := by simpa [hbehind] using outer
      exact .inr ⟨h.trans (by rw [hnil]), hnil, hrole, hcloser, hquote⟩
    | some g'' => exact .inl (by simpa [hbehind] using outer)

/-- A step that stays within the outer groups leaves them as they are. -/
theorem exists_groups_step {inner outer : List Group} (hs : s.groups = inner ++ outer)
    (within : outer.length ≤ (s.step p c rest).1.depth) :
    ∃ inner, (s.step p c rest).1.groups = inner ++ outer := by
  rcases groups_step p s c rest with h | ⟨g, h⟩ | ⟨g, h⟩
  · exact ⟨inner, h.trans hs⟩
  · exact ⟨g :: inner, h.trans (by rw [hs, List.cons_append])⟩
  · rw [hs] at h
    cases inner with
    | nil =>
      rw [List.nil_append] at h
      rw [h, List.length_cons, depth] at within
      omega
    | cons g' inner =>
      rw [List.cons_append, List.cons.injEq] at h
      exact ⟨inner, h.2.symm⟩

/-- A text that closes none of the groups in front of it leaves them as they are, below its own. -/
theorem exists_groups_afterText {text ahead : List Char} (within : StaysWithin p s text ahead) :
    ∃ inner, (s.afterText p text ahead).groups = inner ++ s.groups := by
  have key : ∀ (t : Nesting) (offset : Nat) (inner : List Group), t.groups = inner ++ s.groups →
      (∀ m ∈ marksAhead p ahead t offset text, s.depth ≤ m.depth) →
        ∃ inner, (t.afterText p text ahead).groups = inner ++ s.groups := by
    clear within
    induction text with
    | nil => exact fun t offset inner ht _ ↦ ⟨inner, ht⟩
    | cons c rest ih =>
      intro t offset inner ht hmarks
      rw [marksAhead_cons] at hmarks
      rw [afterText_cons]
      obtain ⟨inner, hinner⟩ := exists_groups_step ht (hmarks _ List.mem_cons_self)
      exact ih _ _ inner hinner fun m hm ↦ hmarks m (List.mem_cons_of_mem _ hm)
  exact key s 0 [] rfl within

/-! ### Here-documents -/

/-- The line read so far of a body holds no newline. -/
theorem newline_not_mem_lineSoFar_step (h : '\n' ∉ s.lineSoFar) :
    '\n' ∉ (s.step p c rest).1.lineSoFar := by
  obtain ⟨t, role, hreaction, hstep⟩ := exists_reaction p s c rest
  rw [hstep]
  cases hreaction with
  | enterHereString => exact List.not_mem_nil
  | announce =>
    show '\n' ∉ (s.announceHereDoc (c :: rest)).lineSoFar
    rwa [lineSoFar_announceHereDoc]
  | endLine =>
    show '\n' ∉ (endCodeLine _).lineSoFar
    rcases endCodeLine_cases { s with mode := .code } with ⟨-, hend⟩ | ⟨-, hend⟩ <;> rw [hend]
    · exact h
    · exact List.not_mem_nil
  | closeGroup b =>
    show '\n' ∉ (s.closeGroup b).lineSoFar
    rwa [lineSoFar_closeGroup]
  | endHereDocLine _ _ hc => simp [inHereDoc, hc]
  | hereDoc _ _ hc => simpa [hc, Ne.symm hc] using h
  | endHereStringLine => exact List.not_mem_nil
  | hereString _ _ _ _ hc => simpa [hc, Ne.symm hc] using h
  | _ => exact h

/-- A step leaves the queue of here-documents as it is, or it announces one more, or its newline
ends the first. -/
theorem hereDocs_step (p : Profile) (s : Nesting) (c : Char) (rest : List Char) :
    (s.step p c rest).1.hereDocs = s.hereDocs ∨
      (∃ doc, HereDoc.announced? s.line (c :: rest) = some doc ∧
        (s.step p c rest).1.hereDocs = s.hereDocs ++ [doc]) ∨
      s.atHereDocEnd = true ∧ (s.step p c rest).1.hereDocs = s.hereDocs.tail := by
  obtain ⟨t, role, hreaction, hstep⟩ := exists_reaction p s c rest
  rw [hstep]
  cases hreaction with
  | announce =>
    rcases announceHereDoc_cases s (c :: rest) with h | ⟨doc, -, hdoc, h⟩
    · exact .inl (by rw [h])
    · exact .inr (.inl ⟨doc, hdoc, by rw [h]⟩)
  | endLine => exact .inl (hereDocs_endCodeLine _)
  | closeGroup b => exact .inl (hereDocs_closeGroup s b)
  | endHereDocLine _ _ hc =>
    by_cases hend : s.atHereDocEnd = true
    · exact .inr (.inr ⟨hend, by simp [inHereDoc, hc, hend]⟩)
    · exact .inl (by simp [inHereDoc, hc, hend])
  | _ => exact .inl rfl

/-- The queue is entered at an angle bracket of code, in a dialect that has here-documents. -/
theorem angle_of_hereDocs_step (none : s.hereDocs = [])
    (queued : (s.step p c rest).1.hereDocs ≠ []) :
    p.hereDocs = true ∧ (s.step p c rest).2 = .code ∧ c = '<' := by
  obtain ⟨t, role, hreaction, hstep⟩ := exists_reaction p s c rest
  rw [hstep] at queued ⊢
  replace queued : t.hereDocs ≠ [] := queued
  cases hreaction with
  | announce _ _ hc hdocs => exact ⟨hdocs, rfl, hc⟩
  | endLine =>
    rw [hereDocs_endCodeLine] at queued
    exact absurd none queued
  | closeGroup =>
    rw [hereDocs_closeGroup] at queued
    exact absurd none queued
  | endHereDocLine _ _ hc => simp [inHereDoc, hc, none] at queued
  | _ => exact absurd none queued

/-- A document that a step adds to the queue is announced by the text there. -/
theorem announced?_of_hereDocs_step {doc : HereDoc}
    (added : (s.step p c rest).1.hereDocs = s.hereDocs ++ [doc]) :
    HereDoc.announced? s.line (c :: rest) = some doc := by
  rcases hereDocs_step p s c rest with hsame | ⟨doc', hdoc', hmore⟩ | ⟨-, hless⟩
  · rw [hsame] at added
    simp at added
  · rw [hmore, List.append_cancel_left_eq, List.singleton_inj] at added
    rw [hdoc', added]
  · have hlength := congrArg List.length (hless.symm.trans added)
    rw [List.length_tail, List.length_append, List.length_singleton] at hlength
    omega

end ShellCatalog.Nesting
