import ShellCatalog.Proofs.LaterLines

/-!
# The order in which constructs were opened

Quotes and groups are opened and closed as a stack, from the outside in, although they are kept in
two places: the mode knows the current quote, and a group knows the quote that it interrupts
(`openSpans_step`). So the outermost of them was opened on the earliest line. Here-documents are a
queue beside the stack, in the order of their announcements. Along every reading both stay in order
(`isInOrder_of_reached`).

**What is reported as open is the earliest of what is looked at**, and two things are not looked at.
Inside a quote, a block comment or a here-string the queue is passed over, also when its first
document was announced on an earlier line (`HidesHereDoc`). And the line that ends the first of
several bodies takes its document off the queue only with its newline, so at the end of the text the
ended document still stands for the others (`HoldsEnded`). In every other state the reported
construct is the earliest of all that are open (`outermostOpen?_isEarliest`).
-/

namespace ShellCatalog

/-- The construct is one of those that are open, and none of them was opened on an earlier line. -/
def OpenConstruct.IsEarliest (r : OpenConstruct) (others : List OpenConstruct) : Prop :=
  r ∈ others ∧ ∀ o ∈ others, r.line ≤ o.line

/-- What an open group stands for, from the inside out: its bracket, and the double quote that it
interrupts. -/
def Group.constructs (g : Group) : List OpenConstruct :=
  ⟨g.bracket.construct, g.line⟩ :: (g.quoteLine.map (⟨.doubleQuote, ·⟩)).toList

/-- The construct that a here-document leaves open. -/
def HereDoc.construct (doc : HereDoc) : OpenConstruct :=
  ⟨.hereDoc, doc.line⟩

namespace Nesting

variable {p : Profile} {s : Nesting}

/-- The open quotes and groups, from the innermost out. -/
def openSpans (s : Nesting) : List OpenConstruct :=
  s.openQuotes ++ s.groups.flatMap Group.constructs

/-- Quotes and groups were opened from the outside in, here-documents were announced in the order of
the queue, and nothing on a line that is still to come. -/
structure IsInOrder (s : Nesting) : Prop where
  spans : s.openSpans.Pairwise fun inner outer ↦ outer.line ≤ inner.line
  spans_le : ∀ o ∈ s.openSpans, o.line ≤ s.line
  docs : s.hereDocs.Pairwise fun first second ↦ first.line ≤ second.line
  docs_le : ∀ doc ∈ s.hereDocs, doc.line ≤ s.line

/-- A document is announced on an earlier line than the current quote, block comment or here-string
and everything around it. -/
def HidesHereDoc (s : Nesting) : Prop :=
  s.openQuotes ≠ [] ∧ ∃ doc ∈ s.hereDocs, ∀ o ∈ s.openSpans, doc.line < o.line

/-- The line read so far ends the first of several bodies, and everything that stays open was opened
on a later line. -/
def HoldsEnded (s : Nesting) : Prop :=
  s.mode = .hereDoc ∧ s.atHereDocEnd = true ∧
    ∃ first second others, s.hereDocs = first :: second :: others ∧
      ∀ o ∈ s.allOpen, first.line < o.line

/-! ### Quotes and groups are a stack -/

theorem openQuotes_of_isQuiet (h : s.mode.IsQuiet) : s.openQuotes = [] := by
  rcases h with h | h | h <;> rw [openQuotes, h]

/-- Each kind of quote is open as one construct, on the line of its opening. -/
theorem exists_openQuotes {mode : Mode} (quote : mode ∈ [.single, .double, .ansi, .backquote]) :
    ∃ kind, ∀ s : Nesting, s.mode = mode → s.openQuotes = [⟨kind, s.openedOn⟩] := by
  simp only [List.mem_cons, List.not_mem_nil, or_false] at quote
  rcases quote with rfl | rfl | rfl | rfl <;> exact ⟨_, fun s h ↦ by rw [openQuotes, h]⟩

/-- A step leaves the open quotes and groups as they are, or it opens one on its line, or it closes
the innermost. -/
theorem openSpans_step (p : Profile) (s : Nesting) (c : Char) (rest : List Char) :
    (s.step p c rest).1.openSpans = s.openSpans ∨
      (∃ o, o.line = s.line ∧ (s.step p c rest).1.openSpans = o :: s.openSpans) ∨
      ∃ o, s.openSpans = o :: (s.step p c rest).1.openSpans := by
  obtain ⟨t, role, hreaction, hstep⟩ := exists_reaction p s c rest
  rw [hstep]
  show t.openSpans = _ ∨ (∃ o, _ ∧ t.openSpans = _) ∨ ∃ o, _ = o :: t.openSpans
  have same (hquotes : t.openQuotes = s.openQuotes) (hgroups : t.groups = s.groups) :
      t.openSpans = s.openSpans := by
    rw [openSpans, hquotes, hgroups, openSpans]
  cases hreaction with
  | escaped | escape | code | quoted | comment | hereDoc | endHereStringLine =>
    exact .inl (same rfl rfl)
  | enterComment _ hmode => exact .inl (by simp [openSpans, openQuotes, hmode])
  | announce _ hmode =>
    refine .inl (same ?_ (groups_announceHereDoc ..))
    rw [openQuotes, mode_announceHereDoc, hmode, openQuotes, hmode]
  | endLine _ hmode =>
    refine .inl (same ?_ (groups_endCodeLine _))
    rw [openQuotes_of_isQuiet (hmode.imp_right .inl)]
    exact openQuotes_of_isQuiet (isQuiet_endCodeLine (.inl rfl))
  | endHereDocLine _ hmode hc =>
    subst hc
    refine .inl (same ?_ (by simp [inHereDoc]))
    rw [openQuotes_of_isQuiet (.inr (.inr hmode))]
    exact openQuotes_of_isQuiet (isQuiet_inHereDoc_newline s)
  | enterBlockComment _ hmode =>
    refine .inr (.inl ⟨⟨.blockComment, s.line⟩, rfl, ?_⟩)
    simp [openSpans, openQuotes, enter, hmode]
  | enterQuote mode _ hmode hquote =>
    obtain ⟨kind, hkind⟩ := exists_openQuotes hquote
    refine .inr (.inl ⟨⟨kind, s.line⟩, rfl, ?_⟩)
    rw [openSpans, hkind _ rfl, openSpans, openQuotes_of_isQuiet (.inl hmode)]
    rfl
  | enterHereString _ hmode =>
    refine .inr (.inl ⟨⟨.hereString, s.line⟩, rfl, ?_⟩)
    simp [openSpans, openQuotes, enter, hmode]
  | openGroup b _ hmode =>
    refine .inr (.inl ⟨⟨b.construct, s.line⟩, rfl, ?_⟩)
    simp [openSpans, openQuotes, openGroup, hmode, Group.constructs]
  | interruptQuote _ hmode =>
    -- The group takes the quote that it interrupts with it.
    refine .inr (.inl ⟨⟨.paren, s.line⟩, rfl, ?_⟩)
    simp [openSpans, openQuotes, hmode, Group.constructs, Bracket.construct]
  | closeGroup b _ hmode =>
    rcases closeGroup_cases s b with
      hsame | ⟨g, outer, hgroups, -, ⟨hquote, hclosed⟩ | ⟨line, hquote, hclosed⟩⟩
    · exact .inl (by rw [hsame])
    all_goals
      refine .inr (.inr ⟨⟨g.bracket.construct, g.line⟩, ?_⟩)
      simp [openSpans, openQuotes, hclosed, hgroups, hquote, hmode, Group.constructs]
  | closeQuote _ hquotes =>
    obtain ⟨kind, hkind⟩ := exists_openQuotes hquotes
    refine .inr (.inr ⟨⟨kind, s.openedOn⟩, ?_⟩)
    rw [openSpans, hkind s rfl]
    rfl
  | blockComment progress mode _ hmode hnext =>
    rcases hnext with ⟨-, rfl⟩ | ⟨next, rfl⟩
    · exact .inr (.inr ⟨⟨.blockComment, s.openedOn⟩, by simp [openSpans, openQuotes, hmode]⟩)
    · exact .inl (by simp [openSpans, openQuotes, hmode])
  | hereString quote mode _ hmode _ hnext =>
    rcases hnext with rfl | rfl
    · exact .inr (.inr ⟨⟨.hereString, s.openedOn⟩, by simp [openSpans, openQuotes, hmode]⟩)
    · exact .inl (by simp [openSpans, openQuotes, hmode])

theorem line_le_step (p : Profile) (s : Nesting) (c : Char) (rest : List Char) :
    s.line ≤ (s.step p c rest).1.line := by
  rw [line_step]
  split <;> omega

/-- A step opens and announces on its line, which is no earlier than any before it. -/
theorem IsInOrder.step (h : s.IsInOrder) (c : Char) (rest : List Char) :
    (s.step p c rest).1.IsInOrder := by
  have hline := line_le_step p s c rest
  have hspans : (s.step p c rest).1.openSpans.Pairwise (fun inner outer ↦ outer.line ≤ inner.line) ∧
      ∀ o ∈ (s.step p c rest).1.openSpans, o.line ≤ s.line := by
    rcases openSpans_step p s c rest with heq | ⟨o, ho, heq⟩ | ⟨o, heq⟩
    · rw [heq]
      exact ⟨h.spans, h.spans_le⟩
    · rw [heq, List.pairwise_cons, List.forall_mem_cons, ho]
      exact ⟨⟨h.spans_le, h.spans⟩, le_rfl, h.spans_le⟩
    · exact ⟨(heq ▸ h.spans).of_cons, fun k hk ↦ h.spans_le k (heq ▸ List.mem_cons_of_mem o hk)⟩
  have hdocs : (s.step p c rest).1.hereDocs.Pairwise (fun first second ↦ first.line ≤ second.line) ∧
      ∀ doc ∈ (s.step p c rest).1.hereDocs, doc.line ≤ s.line := by
    rcases hereDocs_step p s c rest with heq | ⟨doc, hdoc, heq⟩ | ⟨-, heq⟩
    · rw [heq]
      exact ⟨h.docs, h.docs_le⟩
    · have hnew : doc.line = s.line := (HereDoc.of_announced? hdoc).2
      rw [heq, List.pairwise_append, List.forall_mem_append, List.forall_mem_singleton, hnew]
      exact ⟨⟨h.docs, List.pairwise_singleton _ _, fun k hk k' hk' ↦ by
        rw [List.mem_singleton.1 hk', hnew]
        exact h.docs_le k hk⟩, h.docs_le, le_rfl⟩
    · rw [heq]
      exact ⟨h.docs.tail, fun k hk ↦ h.docs_le k (List.mem_of_mem_tail hk)⟩
  exact ⟨hspans.1, fun o ho ↦ (hspans.2 o ho).trans hline, hdocs.1,
    fun doc hdoc ↦ (hdocs.2 doc hdoc).trans hline⟩

/-- Whatever reading comes to, constructs are open in the order of their lines. -/
theorem isInOrder_of_reached {ahead : List Char} (h : Reached p ahead s) : s.IsInOrder := by
  induction h with
  | start line ahead => exact ⟨.nil, by simp [openSpans, openQuotes, start], .nil, by simp [start]⟩
  | step _ ih => exact ih.step _ _

/-! ### What is reported -/

theorem mem_allOpen {o : OpenConstruct} :
    o ∈ s.allOpen ↔ o ∈ s.openSpans ∨ o ∈ s.openHereDocs.map HereDoc.construct := by
  have hgroups : o ∈ s.groups.flatMap Group.constructs ↔
      o ∈ s.groups.map (fun g ↦ ⟨g.bracket.construct, g.line⟩) ∨
        o ∈ s.groups.filterMap fun g ↦ g.quoteLine.map (⟨.doubleQuote, ·⟩) := by
    simp only [List.mem_flatMap, Group.constructs, List.mem_cons, Option.mem_toList, List.mem_map,
      List.mem_filterMap, and_or_left, exists_or]
    simp only [eq_comm]
  rw [allOpen, openSpans, List.mem_append, List.mem_append, List.mem_append, List.mem_append,
    hgroups]
  have hdocs : (fun doc : HereDoc ↦ (⟨.hereDoc, doc.line⟩ : OpenConstruct)) =
      HereDoc.construct := rfl
  rw [hdocs]
  tauto

theorem isEarliest_allOpen_iff {r : OpenConstruct} :
    r.IsEarliest s.allOpen ↔
      r.IsEarliest (s.openSpans ++ s.openHereDocs.map HereDoc.construct) := by
  simp only [OpenConstruct.IsEarliest, mem_allOpen, List.mem_append]

/-- The outermost open group is the outermost of the open quotes and groups. -/
theorem openGroup?_eq : s.openGroup? = (s.groups.flatMap Group.constructs).getLast? := by
  rcases List.eq_nil_or_concat s.groups with h | ⟨inner, g, h⟩
  · rw [openGroup?, h]
    rfl
  · rw [openGroup?, h]
    cases hquote : g.quoteLine <;> simp [Group.constructs, hquote]

theorem IsInOrder.isEarliest_getLast? (h : s.IsInOrder) {r : OpenConstruct}
    (hr : s.openSpans.getLast? = some r) : r.IsEarliest s.openSpans := by
  obtain ⟨inner, hinner⟩ := List.getLast?_eq_some_iff.1 hr
  refine ⟨List.mem_of_getLast? hr, fun o ho ↦ ?_⟩
  have hspans := h.spans
  rw [hinner, List.pairwise_append] at hspans
  rw [hinner, List.mem_append, List.mem_singleton] at ho
  rcases ho with ho | rfl
  · exact hspans.2.2 o ho r List.mem_cons_self
  · exact le_rfl

/-- Inside quotes the outermost of the quotes and groups is reported. -/
theorem IsInOrder.outermostOpen?_of_openQuotes (h : s.IsInOrder) (quotes : s.openQuotes ≠ []) :
    ∃ r, s.outermostOpen? = some r ∧ r.IsEarliest s.openSpans := by
  obtain ⟨o, ho, hspan⟩ : ∃ o, s.openQuotes = [o] ∧ s.openSpan? = some o := by
    cases hmode : s.mode <;> simp_all [openQuotes, openSpan?]
  have hspans : s.openSpans = o :: s.groups.flatMap Group.constructs := by
    rw [openSpans, ho, List.singleton_append]
  suffices hlast : s.outermostOpen? = s.openSpans.getLast? by
    have hr := List.getLast?_eq_some_getLast (hspans ▸ List.cons_ne_nil _ _ : s.openSpans ≠ [])
    exact ⟨_, hlast.trans hr, h.isEarliest_getLast? hr⟩
  rw [hspans, outermostOpen?, openGroup?_eq, hspan, List.getLast?_cons]
  cases hg : (s.groups.flatMap Group.constructs).getLast? with
  | none => rfl
  | some g =>
    -- The group stands outside the quote, so it was opened no later.
    have hle : g.line ≤ o.line :=
      (List.pairwise_cons.1 (hspans ▸ h.spans)).1 g (List.mem_of_getLast? hg)
    simp [Nat.not_lt.2 hle]

/-- Outside quotes the outermost group is compared with the first of the documents that are looked
at, and reported unless the document was announced on an earlier line. -/
theorem IsInOrder.outermostOpen?_of_hereDocs (h : s.IsInOrder) (quiet : s.openQuotes = [])
    {docs : List HereDoc} (hspan : s.openSpan? = docs.head?.map HereDoc.construct)
    (hdocs : docs.Pairwise fun first second ↦ first.line ≤ second.line)
    (some_open : s.openSpans ++ docs.map HereDoc.construct ≠ []) :
    ∃ r, s.outermostOpen? = some r ∧ r.IsEarliest (s.openSpans ++ docs.map HereDoc.construct) ∧
      (r ∈ s.openSpans ∨ docs.head?.map HereDoc.construct = some r ∧
        ∀ o ∈ s.openSpans, r.line < o.line) := by
  have hspans : s.openSpans = s.groups.flatMap Group.constructs := by
    rw [openSpans, quiet, List.nil_append]
  rw [outermostOpen?, openGroup?_eq, ← hspans, hspan]
  have hfirst {doc : HereDoc} (hdoc : docs.head? = some doc) :
      doc ∈ docs ∧ ∀ doc' ∈ docs, doc.line ≤ doc'.line := by
    obtain ⟨others, rfl⟩ := List.head?_eq_some_iff.1 hdoc
    rw [List.forall_mem_cons]
    exact ⟨List.mem_cons_self, le_rfl, (List.pairwise_cons.1 hdocs).1⟩
  have earliest {r : OpenConstruct} (hmem : r ∈ s.openSpans ++ docs.map HereDoc.construct)
      (hle : ∀ o ∈ s.openSpans, r.line ≤ o.line) (hle' : ∀ doc ∈ docs, r.line ≤ doc.line) :
      r.IsEarliest (s.openSpans ++ docs.map HereDoc.construct) := by
    refine ⟨hmem, ?_⟩
    rw [List.forall_mem_append, List.forall_mem_map]
    exact ⟨hle, hle'⟩
  cases hg : s.openSpans.getLast? with
  | none =>
    have hnil : s.openSpans = [] := List.getLast?_eq_none_iff.1 hg
    cases hdoc : docs.head? with
    | none =>
      rw [List.head?_eq_none_iff.1 hdoc, hnil] at some_open
      exact absurd rfl some_open
    | some doc =>
      obtain ⟨hmem, hle⟩ := hfirst hdoc
      have hnone : ∀ o ∈ s.openSpans, doc.construct.line < o.line := by simp [hnil]
      exact ⟨doc.construct, rfl, earliest (List.mem_append_right _ (List.mem_map_of_mem hmem))
        (fun o ho ↦ (hnone o ho).le) hle, .inr ⟨rfl, hnone⟩⟩
  | some g =>
    obtain ⟨hg, hgroup⟩ := h.isEarliest_getLast? hg
    cases hdoc : docs.head? with
    | none =>
      rw [List.head?_eq_none_iff] at hdoc
      exact ⟨g, rfl, earliest (List.mem_append_left _ hg) hgroup (by simp [hdoc]), .inl hg⟩
    | some doc =>
      obtain ⟨hmem, hle⟩ := hfirst hdoc
      by_cases hlt : doc.line < g.line
      · refine ⟨doc.construct, if_pos hlt, ?_⟩
        have hbefore : ∀ o ∈ s.openSpans, doc.construct.line < o.line := fun o ho ↦
          hlt.trans_le (hgroup o ho)
        exact ⟨earliest (List.mem_append_right _ (List.mem_map_of_mem hmem))
          (fun o ho ↦ (hbefore o ho).le) hle, .inr ⟨rfl, hbefore⟩⟩
      · refine ⟨g, if_neg hlt, earliest (List.mem_append_left _ hg) hgroup ?_, .inl hg⟩
        exact fun doc' hdoc' ↦ (Nat.not_lt.1 hlt).trans (hle doc' hdoc')

theorem openHereDocs_of_openQuotes (quotes : s.openQuotes ≠ []) : s.openHereDocs = s.hereDocs := by
  refine if_neg fun h ↦ quotes ?_
  rw [openQuotes, h.1]

/-- Inside quotes the earliest of the quotes and groups is the earliest of all unless a document is
hidden. -/
theorem isEarliest_iff_of_openQuotes {r : OpenConstruct} (quotes : s.openQuotes ≠ [])
    (hr : r.IsEarliest s.openSpans) : r.IsEarliest s.allOpen ↔ ¬ s.HidesHereDoc := by
  rw [isEarliest_allOpen_iff, openHereDocs_of_openQuotes quotes]
  constructor
  · rintro ⟨-, hle⟩ ⟨-, doc, hdoc, hlt⟩
    have hdoc' : r.line ≤ doc.line :=
      hle doc.construct (List.mem_append_right _ (List.mem_map_of_mem hdoc))
    exact absurd (hlt r hr.1) (Nat.not_lt.2 hdoc')
  · intro hseen
    refine ⟨List.mem_append_left _ hr.1, ?_⟩
    rw [List.forall_mem_append, List.forall_mem_map]
    refine ⟨hr.2, fun doc hdoc ↦ Nat.not_lt.1 fun hlt ↦ hseen ⟨quotes, doc, hdoc, fun o ho ↦ ?_⟩⟩
    exact hlt.trans_le (hr.2 o ho)

/-- Outside quotes what is looked at is what is open, or the first of several documents has just
been ended and is looked at all the same. -/
theorem openSpan?_of_quiet (quiet : s.openQuotes = []) :
    s.openSpan? = s.openHereDocs.head?.map HereDoc.construct ∧ ¬ s.HoldsEnded ∨
      s.openSpan? = s.hereDocs.head?.map HereDoc.construct ∧
        s.mode = .hereDoc ∧ s.atHereDocEnd = true ∧
        ∃ first second others, s.hereDocs = first :: second :: others ∧
          s.openHereDocs = second :: others := by
  have outside (hmode : s.mode ≠ .hereDoc) : s.openHereDocs = s.hereDocs ∧ ¬ s.HoldsEnded :=
    ⟨if_neg fun h ↦ hmode h.1, fun h ↦ hmode h.1⟩
  cases hmode : s.mode with
  | code | comment =>
    obtain ⟨hdocs, hholds⟩ := outside (by simp [hmode])
    exact .inl ⟨by rw [openSpan?, hmode, hdocs]; rfl, hholds⟩
  | hereDoc =>
    by_cases hend : s.atHereDocEnd = true
    · have htail : s.openHereDocs = s.hereDocs.tail := if_pos ⟨hmode, hend⟩
      have hholds (short : s.hereDocs.length ≤ 1) : ¬ s.HoldsEnded := by
        rintro ⟨-, -, first, second, others, hdocs, -⟩
        simp [hdocs] at short
      rw [openSpan?, hmode, htail]
      cases hdocs : s.hereDocs with
      | nil => exact .inl ⟨rfl, hholds (by simp [hdocs])⟩
      | cons first rest =>
        cases rest with
        | nil => exact .inl ⟨by simp [hend], hholds (by simp [hdocs])⟩
        | cons second others =>
          exact .inr ⟨by simp; rfl, rfl, hend, first, second, others, rfl, rfl⟩
    · have hdocs : s.openHereDocs = s.hereDocs := if_neg fun h ↦ hend h.2
      exact .inl ⟨by simp [openSpan?, hmode, hend, hdocs]; rfl, fun h ↦ hend h.2.1⟩
  | _ => simp [openQuotes, hmode] at quiet

/-- When the first of several documents has just been ended, the construct that is the earliest with
it is the earliest without it, unless it is the ended document and no other is as early. -/
theorem isEarliest_iff_of_ended {r : OpenConstruct} {first second : HereDoc} {others : List HereDoc}
    (inside : s.mode = .hereDoc) (ended : s.atHereDocEnd = true)
    (docs : s.hereDocs = first :: second :: others) (rest : s.openHereDocs = second :: others)
    (inOrder : s.IsInOrder)
    (hr : r.IsEarliest (s.openSpans ++ s.hereDocs.map HereDoc.construct))
    (which : r ∈ s.openSpans ∨ s.hereDocs.head?.map HereDoc.construct = some r ∧
      ∀ o ∈ s.openSpans, r.line < o.line) :
    (r.IsEarliest s.allOpen ↔ ¬ s.HoldsEnded) ∧
      (s.HoldsEnded → s.hereDocs.head?.map HereDoc.construct = some r) := by
  have holds_iff : s.HoldsEnded ↔ ∀ o ∈ s.allOpen, first.line < o.line := by
    refine ⟨?_, fun h ↦ ⟨inside, ended, first, second, others, docs, h⟩⟩
    rintro ⟨-, -, first', second', others', docs', h⟩
    obtain ⟨rfl, -⟩ := List.cons.inj (docs.symm.trans docs')
    exact h
  have hfirst : r.line ≤ first.line := by
    refine hr.2 first.construct (List.mem_append_right _ (List.mem_map_of_mem ?_))
    rw [docs]
    exact List.mem_cons_self
  have hle : ∀ o ∈ s.allOpen, r.line ≤ o.line := by
    intro o ho
    refine hr.2 o (List.mem_append.2 ((mem_allOpen.1 ho).imp_right fun ho ↦ ?_))
    rw [docs, List.map_cons]
    exact List.mem_cons_of_mem _ (rest ▸ ho)
  rw [holds_iff]
  refine ⟨⟨fun h hlt ↦ absurd (hlt r h.1) (Nat.not_lt.2 hfirst), fun hnot ↦ ⟨?_, hle⟩⟩,
    fun hlt ↦ ?_⟩
  · rcases which with hspan | ⟨hhead, hbefore⟩
    · exact mem_allOpen.2 (.inl hspan)
    -- Something else is as early as the ended document, so it is a document of the same line.
    obtain rfl : first.construct = r := by simpa [docs] using hhead
    push Not at hnot
    obtain ⟨o, ho, hearly⟩ := hnot
    rcases mem_allOpen.1 ho with hspan | hqueued
    · exact absurd (hbefore o hspan) (Nat.not_lt.2 hearly)
    · obtain ⟨doc, hdoc, rfl⟩ := List.mem_map.1 hqueued
      have hlate : first.line ≤ doc.line :=
        (List.pairwise_cons.1 (docs ▸ inOrder.docs)).1 doc (rest ▸ hdoc)
      have hsame : doc.construct = first.construct :=
        congrArg (OpenConstruct.mk .hereDoc) (Nat.le_antisymm hearly hlate)
      exact hsame ▸ ho
  · refine (which.resolve_left fun hspan ↦ ?_).1
    exact absurd (hlt r (mem_allOpen.2 (.inl hspan))) (Nat.not_lt.2 hfirst)

theorem openHereDocs_suffix (s : Nesting) : s.openHereDocs <:+ s.hereDocs := by
  unfold openHereDocs
  split
  · exact List.tail_suffix _
  · exact List.suffix_rfl

/-- The construct that is reported as open is the earliest of all that are open, unless a quote
hides a document that was announced before it, or the first of several documents has just been
ended. In the first of these states the earliest of the quotes and groups is reported, in the second
the ended document. -/
theorem outermostOpen?_isEarliest {ahead : List Char} (reached : Reached p ahead s)
    (some_open : s.allOpen ≠ []) :
    ∃ r, s.outermostOpen? = some r ∧
      (r.IsEarliest s.allOpen ↔ ¬ s.HidesHereDoc ∧ ¬ s.HoldsEnded) ∧
      (s.HidesHereDoc → r.IsEarliest s.openSpans) ∧
      (s.HoldsEnded → s.hereDocs.head?.map HereDoc.construct = some r) := by
  have inOrder := isInOrder_of_reached reached
  by_cases quiet : s.openQuotes = []
  · have hseen : ¬ s.HidesHereDoc := fun h ↦ h.1 quiet
    rcases openSpan?_of_quiet quiet with ⟨hspan, hholds⟩ |
      ⟨hspan, hmode, hend, first, second, others, hdocs, hopen⟩
    · have hnonempty : s.openSpans ++ s.openHereDocs.map HereDoc.construct ≠ [] := by
        obtain ⟨o, ho⟩ := List.exists_mem_of_ne_nil _ some_open
        exact List.ne_nil_of_mem (List.mem_append.2 (mem_allOpen.1 ho))
      obtain ⟨r, hr, hearliest, -⟩ := inOrder.outermostOpen?_of_hereDocs quiet hspan
        (inOrder.docs.sublist (openHereDocs_suffix s).sublist) hnonempty
      exact ⟨r, hr, iff_of_true (isEarliest_allOpen_iff.2 hearliest) ⟨hseen, hholds⟩,
        fun h ↦ absurd h hseen, fun h ↦ absurd h hholds⟩
    · obtain ⟨r, hr, hearliest, hwhich⟩ := inOrder.outermostOpen?_of_hereDocs quiet hspan
        inOrder.docs (by simp [hdocs])
      obtain ⟨hiff, hended⟩ :=
        isEarliest_iff_of_ended hmode hend hdocs hopen inOrder hearliest hwhich
      exact ⟨r, hr, by rw [hiff, and_iff_right hseen], fun h ↦ absurd h hseen, hended⟩
  · have hholds : ¬ s.HoldsEnded := fun h ↦ quiet (by rw [openQuotes, h.1])
    obtain ⟨r, hr, hearliest⟩ := inOrder.outermostOpen?_of_openQuotes quiet
    have hiff := isEarliest_iff_of_openQuotes quiet hearliest
    exact ⟨r, hr, by rw [hiff, and_iff_left hholds], fun _ ↦ hearliest, fun h ↦ absurd h hholds⟩

/-- A quote on a continuation line hides the document that was announced on the line before, and an
ended document stands for one that was announced on the line behind it. -/
theorem outermostOpen?_isEarliest_of_continuedLine :
    (let s := (start 1).afterText Dialect.bash.profile "cat <<E \\\n'a\n".toList []
     s.outermostOpen? = some ⟨.singleQuote, 2⟩ ∧
       ¬ (⟨.singleQuote, 2⟩ : OpenConstruct).IsEarliest s.allOpen) ∧
    (let s := (start 1).afterText Dialect.bash.profile "cat <<A \\\n<<B\nA".toList []
     s.outermostOpen? = some ⟨.hereDoc, 1⟩ ∧
       ¬ (⟨.hereDoc, 1⟩ : OpenConstruct).IsEarliest s.allOpen) := by
  constructor
  · intro s
    have reached : Reached Dialect.bash.profile [] s := reached_iff.2 ⟨1, _, rfl⟩
    have hspans : s.openSpans = [⟨.singleQuote, 2⟩] := by decide +kernel
    have hides : s.HidesHereDoc := by
      refine ⟨by decide +kernel, ⟨['E'], false, 1⟩, by decide +kernel, ?_⟩
      simp [hspans]
    obtain ⟨r, hr, hiff, hearliest, -⟩ := outermostOpen?_isEarliest reached (by decide +kernel)
    obtain rfl : r = ⟨.singleQuote, 2⟩ := List.mem_singleton.1 (hspans ▸ (hearliest hides).1)
    exact ⟨hr, fun h ↦ (hiff.1 h).1 hides⟩
  · intro s
    have reached : Reached Dialect.bash.profile [] s := reached_iff.2 ⟨1, _, rfl⟩
    have hdocs : s.hereDocs = [⟨['A'], false, 1⟩, ⟨['B'], false, 2⟩] := by decide +kernel
    have hopen : s.allOpen = [⟨.hereDoc, 2⟩] := by decide +kernel
    have holds : s.HoldsEnded := by
      refine ⟨by decide +kernel, by decide +kernel, _, _, _, hdocs, ?_⟩
      simp [hopen]
    obtain ⟨r, hr, hiff, -, hended⟩ := outermostOpen?_isEarliest reached (by simp [hopen])
    obtain rfl : r = ⟨.hereDoc, 1⟩ := by
      simpa [hdocs, HereDoc.construct, eq_comm] using hended holds
    exact ⟨hr, fun h ↦ (hiff.1 h).2 holds⟩

end Nesting

end ShellCatalog
