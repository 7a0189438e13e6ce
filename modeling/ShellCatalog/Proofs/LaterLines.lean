import ShellCatalog.Proofs.LineReading
import ShellCatalog.Statement.Basic

/-!
# Reading from a later line

A text that begins so many lines later is read in the same way, and everything that opens in it
opens so many lines later. `Nesting.LaterBy` places one state later than another: no text tells them
apart (`Nesting.Like`), and the lines that they remember differ by a constant.

**A step keeps the distance** (`LaterBy.step`). What it does is decided by the shapes of the two
states, which are the same; a line that it writes down is the line of the state, or one that the
state remembers. So the statements of a text, and what its end leaves open, only move
(`statements_later`, `LaterBy.outermostOpen?`).
-/

namespace ShellCatalog

/-! ### Later lines -/

/-- The group, opened `n` lines later. -/
def Group.later (n : Nat) (g : Group) : Group :=
  { g with line := g.line + n, quoteLine := g.quoteLine.map (· + n) }

/-- The here-document, announced `n` lines later. -/
def HereDoc.later (n : Nat) (doc : HereDoc) : HereDoc :=
  { doc with line := doc.line + n }

/-- The construct, opened `n` lines later. -/
def OpenConstruct.later (n : Nat) (c : OpenConstruct) : OpenConstruct :=
  { c with line := c.line + n }

/-- The statement, `n` lines later. -/
def Statement.later (n : Nat) (s : Statement) : Statement :=
  { s with line := s.line + n }

/-- The statement, so many bytes and lines later. -/
def Statement.moved (bytes lines : Nat) (s : Statement) : Statement :=
  { s with offset := s.offset + bytes, line := s.line + lines }

/-- A mode in which the line of an opening is not looked at. -/
def Mode.IsQuiet (mode : Mode) : Prop :=
  mode = .code ∨ mode = .comment ∨ mode = .hereDoc

theorem Group.eq_later {n : Nat} {g g' : Group} (shape : g.shape = g'.shape)
    (line : g'.line = g.line + n) (quote : ∀ a ∈ g.quoteLine, ∀ b ∈ g'.quoteLine, b = a + n) :
    g' = g.later n := by
  obtain ⟨bracket, first, quoteLine⟩ := g
  obtain ⟨bracket', first', quoteLine'⟩ := g'
  obtain ⟨rfl, hsome⟩ := Prod.mk.inj shape
  obtain rfl : first' = first + n := line
  cases quoteLine <;> cases quoteLine' <;> simp_all [later]

theorem HereDoc.eq_later {n : Nat} {doc doc' : HereDoc} (shape : doc.shape = doc'.shape)
    (line : doc'.line = doc.line + n) : doc' = doc.later n := by
  obtain ⟨delimiter, ignoresTabs, first⟩ := doc
  obtain ⟨delimiter', ignoresTabs', first'⟩ := doc'
  obtain ⟨rfl, rfl⟩ := Prod.mk.inj shape
  obtain rfl : first' = first + n := line
  rfl

namespace Nesting

variable {p : Profile} {n : Nat} {s t : Nesting}

/-- No text tells the two states apart, and the second stands `n` lines later. -/
structure LaterBy (n : Nat) (s t : Nesting) : Prop extends Like s t where
  line : t.line = s.line + n
  groups_later : t.groups = s.groups.map (Group.later n)
  hereDocs_later : t.hereDocs = s.hereDocs.map (HereDoc.later n)
  openedOn : s.mode.IsQuiet ∨ t.openedOn = s.openedOn + n

/-- Where nothing is open, only the line counts. -/
theorem AtWord.laterBy (hs : s.AtWord) (ht : t.AtWord) (line : t.line = s.line + n) :
    s.LaterBy n t := by
  obtain ⟨hmode, hgroups, hdocs, -⟩ := isBalanced_iff.1 hs.balanced
  obtain ⟨-, hgroups', hdocs', -⟩ := isBalanced_iff.1 ht.balanced
  exact
    { hs.like ht with
      line := line
      groups_later := by rw [hgroups, hgroups', List.map_nil]
      hereDocs_later := by rw [hdocs, hdocs', List.map_nil]
      openedOn := .inl (.inl hmode) }

/-! ### The lines that a step writes down -/

/-- A group that a step opens is opened on the line of the state, and interrupts nothing or the
current double quote. -/
theorem line_of_groups_step {c : Char} {rest : List Char} {g : Group}
    (h : (s.step p c rest).1.groups = g :: s.groups) :
    g.line = s.line ∧
      (g.quoteLine = none ∨ s.mode = .double ∧ g.quoteLine = some s.openedOn) := by
  cases groupChange_step p s c rest with
  | kept hsame => simp [hsame] at h
  | opened g' _ _ hline hquote hmore =>
    obtain rfl : g' = g := (List.cons.inj (hmore.symm.trans h)).1
    exact ⟨hline, hquote.imp_right And.right⟩
  | closed g' _ _ _ hless =>
    have hlength := congrArg List.length hless
    simp only [h, List.length_cons] at hlength
    omega

theorem isQuiet_endCodeLine (quiet : s.mode.IsQuiet) : s.endCodeLine.mode.IsQuiet := by
  rcases endCodeLine_cases s with ⟨-, h⟩ | ⟨-, h⟩ <;> rw [h]
  · exact quiet
  · exact .inr (.inr rfl)

theorem isQuiet_inHereDoc_newline (s : Nesting) : (inHereDoc s '\n').1.mode.IsQuiet := by
  have hends (last : Bool) : (if last then Mode.code else .hereDoc).IsQuiet := by
    cases last <;> simp [Mode.IsQuiet]
  rw [inHereDoc, if_pos rfl]
  exact hends _

/-- Behind a step, the line of an opening is not looked at, or it is as it was, or it is the line of
the state, or it is that of a double quote which is resumed. -/
theorem openedOn_step (p : Profile) (s : Nesting) (c : Char) (rest : List Char) :
    (s.step p c rest).1.mode.IsQuiet ∨
      (¬ s.mode.IsQuiet ∧ (s.step p c rest).1.openedOn = s.openedOn) ∨
      (s.mode = .code ∧ (s.step p c rest).1.openedOn = s.line ∧
        (s.step p c rest).1.groups = s.groups) ∨
      (s.mode = .code ∧ ∃ g, g.quoteLine = some (s.step p c rest).1.openedOn ∧
        s.groups = g :: (s.step p c rest).1.groups) := by
  obtain ⟨t, role, hreaction, hstep⟩ := exists_reaction p s c rest
  rw [hstep]
  show t.mode.IsQuiet ∨ (_ ∧ t.openedOn = _) ∨ (_ ∧ t.openedOn = _ ∧ t.groups = _) ∨
    (_ ∧ ∃ g, g.quoteLine = some t.openedOn ∧ s.groups = g :: t.groups)
  have stays (hmode : t.mode = s.mode) (hopened : t.openedOn = s.openedOn) :
      t.mode.IsQuiet ∨ ¬ s.mode.IsQuiet ∧ t.openedOn = s.openedOn := by
    rw [hmode]
    by_cases hquiet : s.mode.IsQuiet
    · exact .inl hquiet
    · exact .inr ⟨hquiet, hopened⟩
  cases hreaction with
  | escaped | escape | quoted | endHereStringLine => exact (stays rfl rfl).imp_right .inl
  | enterBlockComment _ hmode | enterQuote _ _ hmode | enterHereString _ hmode =>
    exact .inr (.inr (.inl ⟨hmode, rfl, rfl⟩))
  | announce _ hmode => exact .inl (.inl (by rwa [mode_announceHereDoc]))
  | endLine => exact .inl (isQuiet_endCodeLine (.inl rfl))
  | closeGroup b _ hmode =>
    rcases closeGroup_cases s b with
      hsame | ⟨g, outer, hgroups, -, ⟨-, hclosed⟩ | ⟨line, hquote, hclosed⟩⟩
    · exact .inl (.inl (by rw [hsame, hmode]))
    · exact .inl (.inl (by rw [hclosed, hmode]))
    · exact .inr (.inr (.inr ⟨hmode, g, by rw [hclosed, hquote], by rw [hclosed, hgroups]⟩))
  | openGroup _ _ hmode | code _ hmode => exact .inl (.inl hmode)
  | enterComment | interruptQuote | closeQuote => exact .inl (by simp [Mode.IsQuiet])
  | comment _ hmode => exact .inl (.inr (.inl hmode))
  | blockComment progress mode _ hmode hnext =>
    rcases hnext with ⟨-, rfl⟩ | ⟨next, rfl⟩
    · exact .inl (.inl rfl)
    · exact .inr (.inl ⟨by simp [hmode, Mode.IsQuiet], rfl⟩)
  | endHereDocLine _ _ hc => exact .inl (hc ▸ isQuiet_inHereDoc_newline s)
  | hereDoc _ hmode => exact .inl (.inr (.inr hmode))
  | hereString quote mode _ hmode _ hnext =>
    rcases hnext with rfl | rfl
    · exact .inl (.inl rfl)
    · exact .inr (.inl ⟨by simp [hmode, Mode.IsQuiet], rfl⟩)

/-! ### A step keeps the distance -/

/-- Two states with the same number of open groups make the same change to it. -/
theorem Like.groups_step (h : s.Like t) (c : Char) (rest : List Char) :
    (s.step p c rest).1.groups = s.groups ∧ (t.step p c rest).1.groups = t.groups ∨
      (∃ g g', (s.step p c rest).1.groups = g :: s.groups ∧
        (t.step p c rest).1.groups = g' :: t.groups) ∨
      ∃ g g', s.groups = g :: (s.step p c rest).1.groups ∧
        t.groups = g' :: (t.step p c rest).1.groups := by
  have hbefore : s.groups.length = t.groups.length := h.depth
  have hafter : (s.step p c rest).1.groups.length = (t.step p c rest).1.groups.length :=
    (h.step c rest).2.depth
  -- Of the nine pairs of changes, six disagree on the number of groups behind the step.
  rcases Nesting.groups_step p s c rest with hs | ⟨g, hs⟩ | ⟨g, hs⟩ <;>
    rcases Nesting.groups_step p t c rest with ht | ⟨g', ht⟩ | ⟨g', ht⟩ <;>
    grind

/-- Two states with the same number of announced here-documents make the same change to it. -/
theorem Like.hereDocs_step (h : s.Like t) (c : Char) (rest : List Char) :
    (s.step p c rest).1.hereDocs = s.hereDocs ∧ (t.step p c rest).1.hereDocs = t.hereDocs ∨
      (∃ doc doc', HereDoc.announced? s.line (c :: rest) = some doc ∧
        HereDoc.announced? t.line (c :: rest) = some doc' ∧
        (s.step p c rest).1.hereDocs = s.hereDocs ++ [doc] ∧
        (t.step p c rest).1.hereDocs = t.hereDocs ++ [doc']) ∨
      (s.step p c rest).1.hereDocs = s.hereDocs.tail ∧
        (t.step p c rest).1.hereDocs = t.hereDocs.tail := by
  have hafter := (h.step c rest (p := p)).2.length_hereDocs
  have hbefore := h.length_hereDocs
  have full {u : Nesting} (hend : u.atHereDocEnd = true) : 0 < u.hereDocs.length := by
    rw [List.length_pos_iff]
    intro hnil
    simp [atHereDocEnd, hnil] at hend
  rcases Nesting.hereDocs_step p s c rest with hs | ⟨doc, hdoc, hs⟩ | ⟨hend, hs⟩ <;>
    rcases Nesting.hereDocs_step p t c rest with ht | ⟨doc', hdoc', ht⟩ | ⟨hend', ht⟩ <;>
    grind

theorem LaterBy.groups_step (h : s.LaterBy n t) (c : Char) (rest : List Char) :
    (t.step p c rest).1.groups = (s.step p c rest).1.groups.map (Group.later n) := by
  have hshape := (h.toLike.step c rest (p := p)).2.groups
  rcases h.toLike.groups_step c rest (p := p) with ⟨hs, ht⟩ | ⟨g, g', hs, ht⟩ | ⟨g, g', hs, ht⟩
  · rw [hs, ht, h.groups_later]
  · rw [hs, ht, List.map_cons, List.map_cons, List.cons.injEq] at hshape
    obtain ⟨hline, hquote⟩ := line_of_groups_step hs
    obtain ⟨hline', hquote'⟩ := line_of_groups_step ht
    rw [hs, ht, h.groups_later, List.map_cons, List.cons.injEq]
    refine ⟨Group.eq_later hshape.1 (by rw [hline, hline', h.line]) fun a ha b hb ↦ ?_, rfl⟩
    rcases hquote with hnone | ⟨hmode, hsome⟩
    · simp [hnone] at ha
    · rcases hquote' with hnone' | ⟨-, hsome'⟩
      · simp [hnone'] at hb
      · obtain rfl := Option.mem_unique ha hsome
        obtain rfl := Option.mem_unique hb hsome'
        exact h.openedOn.resolve_left (by simp [hmode, Mode.IsQuiet])
  · have hlater := h.groups_later
    rw [hs, ht, List.map_cons, List.cons.injEq] at hlater
    exact hlater.2

theorem LaterBy.hereDocs_step (h : s.LaterBy n t) (c : Char) (rest : List Char) :
    (t.step p c rest).1.hereDocs = (s.step p c rest).1.hereDocs.map (HereDoc.later n) := by
  have hshape := (h.toLike.step c rest (p := p)).2.hereDocs
  rcases h.toLike.hereDocs_step c rest (p := p) with
    ⟨hs, ht⟩ | ⟨doc, doc', hdoc, hdoc', hs, ht⟩ | ⟨hs, ht⟩
  · rw [hs, ht, h.hereDocs_later]
  · rw [hs, ht, List.map_append, List.map_append, h.toLike.hereDocs, List.append_cancel_left_eq,
      List.map_singleton, List.map_singleton, List.singleton_inj] at hshape
    obtain ⟨-, hline⟩ := HereDoc.of_announced? hdoc
    obtain ⟨-, hline'⟩ := HereDoc.of_announced? hdoc'
    have hlater : doc' = doc.later n := HereDoc.eq_later hshape (by rw [hline, hline', h.line])
    rw [hs, ht, h.hereDocs_later, List.map_append, List.map_singleton, hlater]
  · rw [hs, ht, h.hereDocs_later, List.map_tail]

theorem LaterBy.openedOn_step (h : s.LaterBy n t) (c : Char) (rest : List Char) :
    (s.step p c rest).1.mode.IsQuiet ∨
      (t.step p c rest).1.openedOn = (s.step p c rest).1.openedOn + n := by
  have hmode := h.toLike.mode
  have hafter := (h.toLike.step c rest (p := p)).2.mode
  have hcode : Mode.IsQuiet .code := .inl rfl
  have hnext := h.groups_step c rest (p := p)
  rcases Nesting.openedOn_step p t c rest with ht | ⟨ht, hline'⟩ | ⟨ht, hline', hsame'⟩ |
    ⟨ht, g', hquote', hgroups'⟩
  · exact .inl (hafter ▸ ht)
  all_goals
    rcases Nesting.openedOn_step p s c rest with hs | ⟨hs, hline⟩ | ⟨hs, hline, hsame⟩ |
      ⟨hs, g, hquote, hgroups⟩
    · exact .inl hs
  -- Each state tells whether the step leaves code, so both are in the same of the three cases.
  · exact .inr (by rw [hline', hline, h.openedOn.resolve_left hs])
  · exact absurd (hmode ▸ hs ▸ hcode) ht
  · exact absurd (hmode ▸ hs ▸ hcode) ht
  · exact absurd (hmode ▸ ht ▸ hcode) hs
  · exact .inr (by rw [hline', hline, h.line])
  · have hlength := congrArg List.length (hnext.symm.trans (hsame'.trans h.groups_later))
    simp [hgroups] at hlength
  · exact absurd (hmode ▸ ht ▸ hcode) hs
  · have hlength := congrArg List.length (hgroups'.symm.trans h.groups_later)
    simp [hnext, hsame] at hlength
  · have hlater := h.groups_later
    rw [hgroups, hgroups', List.map_cons, List.cons.injEq] at hlater
    rw [hlater.1, Group.later, hquote, Option.map_some, Option.some_inj] at hquote'
    exact .inr hquote'.symm

/-- Reading goes on so many lines later. -/
theorem LaterBy.step (h : s.LaterBy n t) (c : Char) (rest : List Char) :
    (s.step p c rest).2 = (t.step p c rest).2 ∧
      (s.step p c rest).1.LaterBy n (t.step p c rest).1 := by
  obtain ⟨hrole, hlike⟩ := h.toLike.step c rest (p := p)
  refine ⟨hrole, ⟨hlike, ?_, h.groups_step c rest, h.hereDocs_step c rest,
    h.openedOn_step c rest⟩⟩
  rw [line_step, line_step, h.line]
  split <;> omega

/-! ### What is left open -/

theorem LaterBy.openSpan? (h : s.LaterBy n t) :
    t.openSpan? = s.openSpan?.map (OpenConstruct.later n) := by
  have hmode := h.toLike.mode
  have hdocs : t.hereDocs.head?.map (fun doc ↦ OpenConstruct.mk .hereDoc doc.line) =
      (s.hereDocs.head?.map fun doc ↦ OpenConstruct.mk .hereDoc doc.line).map
        (OpenConstruct.later n) := by
    rw [h.hereDocs_later, List.head?_map, Option.map_map, Option.map_map]
    rfl
  unfold Nesting.openSpan?
  rw [← hmode, hdocs]
  cases hs : s.mode with
  | code | comment => rfl
  | hereDoc =>
    have hline := h.lineSoFar.resolve_left (by simp [hs, Mode.IsOutsideBodies])
    dsimp only
    rw [← h.length_hereDocs, ← h.atHereDocEnd hline]
    split <;> rfl
  | _ =>
    have hopened := h.openedOn.resolve_left (by simp [hs, Mode.IsQuiet])
    simp [hopened, OpenConstruct.later]

theorem LaterBy.openGroup? (h : s.LaterBy n t) :
    t.openGroup? = s.openGroup?.map (OpenConstruct.later n) := by
  rw [Nesting.openGroup?, Nesting.openGroup?, h.groups_later, List.getLast?_map, Option.map_map,
    Option.map_map]
  refine congrArg (Option.map · _) (funext fun g ↦ ?_)
  cases hquote : g.quoteLine <;> simp [Group.later, OpenConstruct.later, hquote]

/-- The same construct is left open, so many lines later. -/
theorem LaterBy.outermostOpen? (h : s.LaterBy n t) :
    t.outermostOpen? = s.outermostOpen?.map (OpenConstruct.later n) := by
  rw [Nesting.outermostOpen?, Nesting.outermostOpen?, h.openSpan?, h.openGroup?]
  cases s.openGroup? with
  | none => rfl
  | some g =>
    cases s.openSpan? with
    | none => rfl
    | some i =>
      simp only [Option.map_some, OpenConstruct.later, Nat.add_lt_add_iff_right]
      split <;> rfl

theorem Like.isBalanced (h : s.Like t) : s.isBalanced = t.isBalanced := by
  have hdocs : s.hereDocs = [] ↔ t.hereDocs = [] := by
    rw [← List.length_eq_zero_iff, h.length_hereDocs, List.length_eq_zero_iff]
  have hgroups : s.groups = [] ↔ t.groups = [] := by
    rw [← List.isEmpty_iff, h.isEmpty_groups, List.isEmpty_iff]
  simp only [Nesting.isBalanced, h.mode, h.escaping, hdocs, hgroups]

end Nesting

/-! ### Marks and pieces -/

/-- Runs that correspond mark by mark are cut into pieces that do. -/
theorem forall₂_pieces {R : Mark → Mark → Prop} {separates : Mark → Option Mark → Bool}
    (same : ∀ {m n next next'}, R m n → Option.Rel R next next' →
      separates m next = separates n next')
    {ms ns : List Mark} (h : List.Forall₂ R ms ns) :
    List.Forall₂ (List.Forall₂ R) (pieces separates ms) (pieces separates ns) := by
  induction h with
  | nil => exact .cons .nil .nil
  | @cons m n ms ns hmn hrest ih =>
    have hnext : Option.Rel R ms.head? ns.head? := by
      cases hrest with
      | nil => exact .none
      | cons h _ => exact .some h
    rw [pieces, pieces, same hmn hnext]
    split
    · exact .cons .nil ih
    · generalize pieces separates ms = runs, pieces separates ns = runs' at ih
      cases ih with
      | nil => exact .cons (.cons hmn .nil) .nil
      | cons hfirst hothers => exact .cons (.cons hmn hfirst) hothers

theorem text_eq_of_forall₂ {R : Mark → Mark → Prop} (char : ∀ {m n}, R m n → m.char = n.char)
    {ms ns : List Mark} (h : List.Forall₂ R ms ns) : Mark.text ms = Mark.text ns := by
  induction h with
  | nil => rfl
  | cons hmn _ ih => exact congrArg₂ List.cons (char hmn) ih

namespace Mark.Related

variable {R : Nesting → Nesting → Prop} {bytes : Nat} {m n : Mark}

theorem endsLine (alike : ∀ {s t}, R s t → s.Like t) (h : Mark.Related R bytes m n) :
    m.endsLine = n.endsLine := by
  simp only [Mark.endsLine, h.char, h.role, (alike h.after).isBalanced]

/-- Two marks that no text tells apart both stand between statements, or neither does, if the same
character is next. -/
theorem separatesStatements_of_char (alike : ∀ {s t}, R s t → s.Like t)
    (h : Mark.Related R bytes m n) {next next' : Option Mark}
    (hchars : next.map Mark.char = next'.map Mark.char) :
    m.separatesStatements next = n.separatesStatements next' := by
  have hdepth : m.depth = n.depth := (alike h.after).depth
  have hmore := (alike h.before).lastChar?_iff (c := '>') (by decide)
  have hless := (alike h.before).lastChar?_iff (c := '<') (by decide)
  simp only [Mark.separatesStatements, isTopComment, h.role, hdepth, h.char, hchars,
    h.endsLine alike, ne_eq, hmore, hless]

theorem separatesStatements (alike : ∀ {s t}, R s t → s.Like t) (h : Mark.Related R bytes m n)
    {next next' : Option Mark} (hnext : Option.Rel (Mark.Related R bytes) next next') :
    m.separatesStatements next = n.separatesStatements next' := by
  refine h.separatesStatements_of_char alike ?_
  cases hnext with
  | none => rfl
  | some h => exact congrArg some h.char

end Mark.Related

/-! ### Statements -/

/-- The statement that a run of marks holds stands later when the run does. -/
theorem Statement.ofMarks?_moved {n bytes : Nat} {run run' : List Mark}
    (h : List.Forall₂ (Mark.Related (Nesting.LaterBy n) bytes) run run') :
    Statement.ofMarks? run' = (Statement.ofMarks? run).map (Statement.moved bytes n) := by
  induction h with
  | nil => rfl
  | @cons k m run run' hkm hrest ih =>
    by_cases hblank : isSpace k.char = true
    · have hblank' : isSpace m.char = true := hkm.char ▸ hblank
      simpa [Statement.ofMarks?, hblank, hblank'] using ih
    · have hblank' : ¬ isSpace m.char = true := hkm.char ▸ hblank
      have htext := text_eq_of_forall₂ Mark.Related.char (.cons hkm hrest)
      simp [Statement.ofMarks?, hblank, hblank', htext, Statement.moved, hkm.offset, Mark.line,
        hkm.before.line]

/-- The statements of two runs that correspond mark by mark. -/
theorem filterMap_ofMarks?_moved {n bytes : Nat} {ms ns : List Mark}
    (h : List.Forall₂ (Mark.Related (Nesting.LaterBy n) bytes) ms ns) :
    (pieces Mark.separatesStatements ns).filterMap Statement.ofMarks? =
      ((pieces Mark.separatesStatements ms).filterMap Statement.ofMarks?).map
        (Statement.moved bytes n) := by
  have hpieces := @forall₂_pieces _ Mark.separatesStatements
    (fun h hnext ↦ h.separatesStatements Nesting.LaterBy.toLike hnext) _ _ h
  generalize pieces Mark.separatesStatements ms = runs,
    pieces Mark.separatesStatements ns = runs' at hpieces
  induction hpieces with
  | nil => rfl
  | cons hrun _ ih =>
    rw [List.filterMap_cons, List.filterMap_cons, Statement.ofMarks?_moved hrun]
    cases Statement.ofMarks? _ with
    | none => exact ih
    | some s => simp [ih]

theorem marks_later (p : Profile) (text : List Char) (line n : Nat) :
    List.Forall₂ (Mark.Related (Nesting.LaterBy n) 0) (marks p text line)
      (marks p text (line + n)) :=
  forall₂_marksFrom (fun h c rest ↦ h.step c rest)
    ((Nesting.atWord_start line).laterBy (Nesting.atWord_start (line + n)) rfl) 0 0 text

/-- A text that begins later holds the same statements, so many lines later. -/
theorem statements_later (p : Profile) (text : List Char) (line n : Nat) :
    statements p text (line + n) = (statements p text line).map (Statement.later n) :=
  filterMap_ofMarks?_moved (marks_later p text line n)

end ShellCatalog
