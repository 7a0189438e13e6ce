import ShellCatalog.Proofs.WordRow

/-!
# States that no text tells apart

A logical line is read twice: once as a part of its file, and once on its own, from a fresh state.
The two states have nothing open, but they need not be equal: they may count lines differently, and
remember a different line of a body that is over and a different blank in front.

**None of this is looked at again** (`Like.step`). Two states that are alike in this sense give
every character the same class and stay alike. Line numbers are written down with everything that
opens, but no rule of reading asks for them.
-/

namespace ShellCatalog

/-- A group without its line numbers. -/
def Group.shape (g : Group) : Bracket × Bool :=
  (g.bracket, g.quoteLine.isSome)

/-- A here-document without its line number. -/
def HereDoc.shape (doc : HereDoc) : List Char × Bool :=
  (doc.delimiter, doc.ignoresTabs)

theorem HereDoc.isEndedBy_congr {doc doc' : HereDoc} (h : doc.shape = doc'.shape)
    (line : List Char) : doc.isEndedBy line = doc'.isEndedBy line := by
  obtain ⟨hdelimiter, htabs⟩ := Prod.mk.inj h
  rw [isEndedBy, isEndedBy, hdelimiter, htabs]

/-- The mode is outside the bodies of here-documents and here-strings. -/
def Mode.IsOutsideBodies (mode : Mode) : Prop :=
  mode ≠ .hereDoc ∧ ∀ quote, mode ≠ .hereString quote

namespace Nesting

/-- The same is open in two states, line numbers apart; what has been read of a line counts only
inside a body. -/
structure SameOpen (s t : Nesting) : Prop where
  mode : s.mode = t.mode
  escaping : s.escaping = t.escaping
  groups : s.groups.map Group.shape = t.groups.map Group.shape
  hereDocs : s.hereDocs.map HereDoc.shape = t.hereDocs.map HereDoc.shape
  lineSoFar : s.mode.IsOutsideBodies ∨ s.lineSoFar = t.lineSoFar

/-- Two states that no text tells apart. -/
structure Like (s t : Nesting) : Prop extends SameOpen s t where
  last : s.last = t.last ∨ s.mode = .code ∧ s.AtBlank ∧ t.AtBlank

variable {p : Profile} {s t : Nesting}

/-- States in which a word may begin are alike. -/
theorem AtWord.like (hs : s.AtWord) (ht : t.AtWord) : s.Like t := by
  obtain ⟨hmode, hgroups, hdocs, hescape⟩ := isBalanced_iff.1 hs.balanced
  obtain ⟨hmode', hgroups', hdocs', hescape'⟩ := isBalanced_iff.1 ht.balanced
  exact
    { mode := hmode.trans hmode'.symm
      escaping := hescape.trans hescape'.symm
      groups := by rw [hgroups, hgroups']
      hereDocs := by rw [hdocs, hdocs']
      lineSoFar := .inl (by simp [hmode, Mode.IsOutsideBodies])
      last := .inr ⟨hmode, hs.blank, ht.blank⟩ }

/-! ### What a reaction leaves open -/

namespace SameOpen

theorem enter (h : s.SameOpen t) {mode : Mode} (outside : mode.IsOutsideBodies) :
    (s.enter mode).SameOpen (t.enter mode) :=
  ⟨rfl, h.escaping, h.groups, h.hereDocs, .inl outside⟩

theorem toMode (h : s.SameOpen t) (mode : Mode) (outside : mode.IsOutsideBodies) :
    ({ s with mode := mode } : Nesting).SameOpen { t with mode := mode } :=
  ⟨rfl, h.escaping, h.groups, h.hereDocs, .inl outside⟩

theorem openGroup (h : s.SameOpen t) (b : Bracket) : (s.openGroup b).SameOpen (t.openGroup b) :=
  { h with groups := congrArg ((b, false) :: ·) h.groups }

/-- The innermost group is closed by its bracket, and resumes what it interrupted. -/
theorem closeGroup (h : s.SameOpen t) (b : Bracket) :
    (s.closeGroup b).SameOpen (t.closeGroup b) := by
  have hgroups := h.groups
  unfold Nesting.closeGroup
  cases hs : s.groups with
  | nil =>
    rw [hs, List.map_nil, eq_comm, List.map_eq_nil_iff] at hgroups
    rwa [hgroups]
  | cons g outer =>
    rw [hs, List.map_cons, eq_comm, List.map_eq_cons_iff] at hgroups
    obtain ⟨g', outer', ht, hshape, houter⟩ := hgroups
    obtain ⟨hbracket, hquote⟩ := Prod.mk.inj hshape
    simp only [ht, hbracket]
    by_cases hb : g.bracket = b
    · rw [if_pos hb, if_pos hb]
      cases hline : g.quoteLine with
      | none =>
        rw [hline, Option.isSome_none, Option.isSome_eq_false_iff, Option.isNone_iff_eq_none]
          at hquote
        rw [hquote]
        exact { h with groups := houter.symm }
      | some line =>
        rw [hline, Option.isSome_some, Option.isSome_iff_exists] at hquote
        obtain ⟨line', hline'⟩ := hquote
        rw [hline']
        exact ⟨rfl, h.escaping, houter.symm, h.hereDocs, .inl (by simp [Mode.IsOutsideBodies])⟩
    · rw [if_neg hb, if_neg hb]
      exact h

theorem endCodeLine (h : s.SameOpen t) : s.endCodeLine.SameOpen t.endCodeLine := by
  have hempty : s.hereDocs.isEmpty = t.hereDocs.isEmpty := by
    have hdocs := congrArg List.isEmpty h.hereDocs
    rwa [List.isEmpty_map, List.isEmpty_map] at hdocs
  unfold Nesting.endCodeLine
  rw [hempty]
  split
  · exact h
  · exact ⟨rfl, h.escaping, h.groups, h.hereDocs, .inr rfl⟩

theorem inArithmetic (h : s.SameOpen t) : s.inArithmetic = t.inArithmetic := by
  have hgroups := h.groups
  unfold Nesting.inArithmetic
  match hs : s.groups, ht : t.groups with
  | [], [] => rfl
  | [_], [_] => rfl
  | g :: k :: _, g' :: k' :: _ =>
    rw [hs, ht] at hgroups
    simp only [List.map_cons, List.cons.injEq, Group.shape, Prod.mk.injEq] at hgroups
    simp only [hgroups]
  | [], _ :: _ => simp [hs, ht] at hgroups
  | [_], [] => simp [hs, ht] at hgroups
  | [_], _ :: _ :: _ => simp [hs, ht] at hgroups
  | _ :: _ :: _, [] => simp [hs, ht] at hgroups
  | _ :: _ :: _, [_] => simp [hs, ht] at hgroups

end SameOpen

/-- What a text announces does not depend on the line but for its number. -/
theorem shape_announced? (line line' : Nat) (text : List Char) :
    (HereDoc.announced? line text).map HereDoc.shape =
      (HereDoc.announced? line' text).map HereDoc.shape := by
  have hawait (tabs : Bool) (rest : List Char) : (HereDoc.await? tabs line rest).map HereDoc.shape =
      (HereDoc.await? tabs line' rest).map HereDoc.shape := by
    unfold HereDoc.await?
    split <;> rfl
  unfold HereDoc.announced?
  split
  · rfl
  · exact hawait _ _
  · exact hawait _ _
  · rfl

theorem SameOpen.announceHereDoc (h : s.SameOpen t) (text : List Char) :
    (s.announceHereDoc text).SameOpen (t.announceHereDoc text) := by
  have hdoc := shape_announced? s.line t.line text
  unfold Nesting.announceHereDoc
  rw [h.inArithmetic]
  split
  · exact h
  · cases hs : HereDoc.announced? s.line text with
    | none =>
      rw [hs, Option.map_none, eq_comm, Option.map_eq_none_iff] at hdoc
      rwa [hdoc]
    | some doc =>
      rw [hs, Option.map_some, eq_comm, Option.map_eq_some_iff] at hdoc
      obtain ⟨doc', hdoc', hshape⟩ := hdoc
      rw [hdoc']
      refine { h with hereDocs := ?_ }
      rw [List.map_append, List.map_append, h.hereDocs, List.map_singleton, List.map_singleton,
        hshape]

/-! ### Reactions -/

/-- Two reactions answer the same class and leave the same open. -/
def SameReaction (a b : Nesting × CharRole) : Prop :=
  a.2 = b.2 ∧ a.1.SameOpen b.1

theorem SameReaction.ite {P : Prop} [Decidable P] {a b a' b' : Nesting × CharRole}
    (pos : SameReaction a b) (neg : SameReaction a' b') :
    SameReaction (if P then a else a') (if P then b else b') := by
  split
  · exact pos
  · exact neg

/-- Code looks at the last character only where it is visible, or to see where a word may begin. -/
theorem SameOpen.inCode (h : s.SameOpen t)
    (char : ∀ c, isSpace c = false → (s.lastChar? = some c ↔ t.lastChar? = some c))
    (word : s.wordMayStart = t.wordMayStart) (c : Char) (rest : List Char) :
    SameReaction (inCode p s c rest) (inCode p t c rest) := by
  have hat := char '@' (by decide)
  have hdollar := char '$' (by decide)
  have hbar := char '<' (by decide)
  unfold Nesting.inCode
  simp only [hat, hdollar]
  simp only [word, ne_eq, hbar]
  refine .ite ⟨rfl, { h with escaping := rfl }⟩ (.ite ⟨rfl, ?_⟩ (.ite ⟨rfl, ?_⟩ (.ite ⟨rfl, ?_⟩
    (.ite ⟨rfl, ?_⟩ (.ite ⟨rfl, ?_⟩ (.ite ⟨rfl, ?_⟩ (.ite ⟨rfl, h.announceHereDoc _⟩
      (.ite ⟨rfl, h.endCodeLine⟩ ?_))))))))
  · exact h.enter (by simp [Mode.IsOutsideBodies])
  · exact ⟨rfl, h.escaping, h.groups, h.hereDocs, .inr rfl⟩
  · exact h.enter (by split <;> simp [Mode.IsOutsideBodies])
  · exact h.enter (by simp [Mode.IsOutsideBodies])
  · exact h.enter (by simp [Mode.IsOutsideBodies])
  · exact h.toMode _ (by simp [Mode.IsOutsideBodies])
  · split
    · exact ⟨rfl, h.openGroup _⟩
    · exact ⟨rfl, h.closeGroup _⟩
    · exact ⟨rfl, h⟩

theorem SameOpen.inQuotes (h : s.SameOpen t) (escape : Option Char) (quote c : Char) :
    SameReaction (inQuotes escape quote s c) (inQuotes escape quote t c) :=
  .ite ⟨rfl, { h with escaping := rfl }⟩
    (.ite ⟨rfl, h.toMode _ (by simp [Mode.IsOutsideBodies])⟩ ⟨rfl, h⟩)

theorem SameOpen.inDoubleQuotes (h : s.SameOpen t) (last : s.last = t.last) (c : Char) :
    SameReaction (inDoubleQuotes p s c) (inDoubleQuotes p t c) := by
  unfold Nesting.inDoubleQuotes
  rw [last]
  refine .ite ⟨rfl, { h with escaping := rfl }⟩ (.ite ⟨rfl, ?_⟩ (h.inQuotes none '"' c))
  exact ⟨rfl, h.escaping, congrArg ((Bracket.paren, true) :: ·) h.groups, h.hereDocs,
    .inl (by simp [Mode.IsOutsideBodies])⟩

theorem SameOpen.inBlockComment (h : s.SameOpen t) (progress : BlockComment) (c : Char) :
    SameReaction (inBlockComment progress s c) (inBlockComment progress t c) := by
  cases progress with
  | opening => exact ⟨rfl, h.toMode _ (by simp [Mode.IsOutsideBodies])⟩
  | inside closing =>
    exact .ite ⟨rfl, h.toMode _ (by simp [Mode.IsOutsideBodies])⟩
      ⟨rfl, h.toMode _ (by simp [Mode.IsOutsideBodies])⟩

/-- The line read so far ends the first document in both states or in neither. -/
theorem SameOpen.atHereDocEnd (h : s.SameOpen t) (hline : s.lineSoFar = t.lineSoFar) :
    s.atHereDocEnd = t.atHereDocEnd := by
  have hdocs := h.hereDocs
  unfold Nesting.atHereDocEnd
  cases hs : s.hereDocs with
  | nil =>
    rw [hs, List.map_nil, eq_comm, List.map_eq_nil_iff] at hdocs
    rw [hdocs]
  | cons doc others =>
    rw [hs, List.map_cons, eq_comm, List.map_eq_cons_iff] at hdocs
    obtain ⟨doc', others', ht, hshape, -⟩ := hdocs
    simp only [ht, hline, HereDoc.isEndedBy_congr hshape]

theorem SameOpen.inHereDoc (h : s.SameOpen t) (inside : s.mode = .hereDoc) (c : Char) :
    SameReaction (inHereDoc s c) (inHereDoc t c) := by
  have hline : s.lineSoFar = t.lineSoFar :=
    h.lineSoFar.resolve_left (by simp [inside, Mode.IsOutsideBodies])
  have hwaiting : (if s.atHereDocEnd then s.hereDocs.tail else s.hereDocs).map HereDoc.shape =
      (if t.atHereDocEnd then t.hereDocs.tail else t.hereDocs).map HereDoc.shape := by
    rw [h.atHereDocEnd hline]
    split
    · rw [List.map_tail, List.map_tail, h.hereDocs]
    · exact h.hereDocs
  have hempty := congrArg List.isEmpty hwaiting
  rw [List.isEmpty_map, List.isEmpty_map] at hempty
  unfold Nesting.inHereDoc
  refine .ite ⟨rfl, ?_, h.escaping, h.groups, hwaiting, .inr rfl⟩
    ⟨rfl, h.mode, h.escaping, h.groups, h.hereDocs, .inr (congrArg (· ++ [c]) hline)⟩
  simp only [hempty]

theorem SameOpen.inHereString (h : s.SameOpen t) {quote : Char}
    (inside : s.mode = .hereString quote) (c : Char) :
    SameReaction (inHereString quote s c) (inHereString quote t c) := by
  have hline : s.lineSoFar = t.lineSoFar :=
    h.lineSoFar.resolve_left (by simp [inside, Mode.IsOutsideBodies])
  unfold Nesting.inHereString
  refine .ite ⟨rfl, { h with lineSoFar := .inr rfl }⟩ ⟨rfl, ?_⟩
  exact ⟨by simp only [hline, h.mode], h.escaping, h.groups, h.hereDocs,
    .inr (congrArg (· ++ [c]) hline)⟩

/-! ### Reading in states that are alike -/

theorem AtBlank.wordMayStart (h : s.AtBlank) : s.wordMayStart = true := by
  unfold Nesting.wordMayStart
  split
  · rfl
  · next c hc => simp [h c hc]

theorem Like.lastChar?_iff (h : s.Like t) {c : Char} (hc : isSpace c = false) :
    s.lastChar? = some c ↔ t.lastChar? = some c := by
  rcases h.last with heq | ⟨-, hs, ht⟩
  · rw [lastChar?, lastChar?, heq]
  · exact iff_of_false (hs.lastChar?_ne hc) (ht.lastChar?_ne hc)

theorem Like.wordMayStart (h : s.Like t) : s.wordMayStart = t.wordMayStart := by
  rcases h.last with heq | ⟨-, hs, ht⟩
  · rw [Nesting.wordMayStart, Nesting.wordMayStart, lastChar?, lastChar?, heq]
  · rw [hs.wordMayStart, ht.wordMayStart]

/-- States that are alike react alike. -/
theorem Like.react (h : s.Like t) (c : Char) (rest : List Char) :
    SameReaction (s.react p c rest) (t.react p c rest) := by
  have hopen := h.toSameOpen
  have hlast (hmode : s.mode ≠ .code) : s.last = t.last := h.last.resolve_right fun h ↦ hmode h.1
  have hescaping := hopen.escaping
  have hmodes := hopen.mode
  unfold Nesting.react
  cases hready : s.escaping with
  | true =>
    rw [hready] at hescaping
    simp only [← hescaping, if_true]
    exact ⟨rfl, { hopen with escaping := rfl }⟩
  | false =>
    rw [hready] at hescaping
    simp only [← hescaping, Bool.false_eq_true, if_false]
    cases hmode : s.mode with
    | code =>
      rw [hmode] at hmodes
      simp only [← hmodes]
      exact hopen.inCode (fun c hc ↦ h.lastChar?_iff hc) h.wordMayStart c rest
    | single | ansi | backquote =>
      rw [hmode] at hmodes
      simp only [← hmodes]
      exact hopen.inQuotes _ _ c
    | double =>
      rw [hmode] at hmodes
      simp only [← hmodes]
      exact hopen.inDoubleQuotes (hlast (by simp [hmode])) c
    | comment =>
      rw [hmode] at hmodes
      simp only [← hmodes]
      have hend := (hopen.toMode .code (by simp [Mode.IsOutsideBodies])).endCodeLine
      rw [hready, ← hescaping] at hend
      exact .ite ⟨rfl, hend⟩ ⟨rfl, hopen⟩
    | blockComment progress =>
      rw [hmode] at hmodes
      simp only [← hmodes]
      exact hopen.inBlockComment _ c
    | hereDoc =>
      rw [hmode] at hmodes
      simp only [← hmodes]
      exact hopen.inHereDoc hmode c
    | hereString quote =>
      rw [hmode] at hmodes
      simp only [← hmodes]
      exact hopen.inHereString hmode c

/-- States that are alike give a character the same class, and stay alike. -/
theorem Like.step (h : s.Like t) (c : Char) (rest : List Char) :
    (s.step p c rest).2 = (t.step p c rest).2 ∧ (s.step p c rest).1.Like (t.step p c rest).1 := by
  obtain ⟨hrole, hafter⟩ := h.react c rest (p := p)
  refine ⟨hrole, ⟨hafter.mode, hafter.escaping, hafter.groups, hafter.hereDocs, hafter.lineSoFar⟩,
    .inl ?_⟩
  exact congrArg (fun role ↦ some (c, role)) hrole

theorem Like.afterText (h : s.Like t) (text ahead : List Char) :
    (s.afterText p text ahead).Like (t.afterText p text ahead) := by
  induction text generalizing s t with
  | nil => exact h
  | cons c rest ih =>
    rw [afterText_cons, afterText_cons]
    exact ih (h.step c _).2

end Nesting

end ShellCatalog
