import Mathlib.Data.List.Forall2
import ShellCatalog.LogicalLine
import ShellCatalog.Proofs.BodyRewrite

/-!
# Logical lines of rewritten texts

A line of a body ends no logical line, so a text and its rewriting are cut at the same places. Each
logical line of the rewritten text is a rewriting of the same line of the original
(`Rewritten.forall₂_logicalLines`), and is so as a text of its own, read from a fresh state.

* `RewrittenRun` says this of two runs of marks, and `RewrittenRuns` of all runs of two texts. The
  first run need not begin its line, so the induction on the rewriting can begin in any state.
* `RewrittenLine` says it of two logical lines, and of complete ones only.

Two facts carry the induction. Behind the end of a line a word may begin
(`Mark.atWord_of_endsLine`), and a rewriting is one in every state that is alike
(`Rewritten.of_like`), so each line can be read from its own start. And reading looks ahead no
further than the end of the line, unless a document waits whose delimiter no line can be
(`Nesting.Waits`). The texts that leave nothing open have no such document
(`Nesting.not_waits_of_outermostOpen?`).
-/

namespace ShellCatalog

/-- Runs of marks whose texts are rewritings of each other, when they are read from `s` on their
own. -/
structure RewrittenRun (p : Profile) (s : Nesting) (outer : List Bool) (run run' : List Mark) :
    Prop where
  text : Rewritten p s outer (Mark.text run) (Mark.text run')
  done : ¬ (s.afterText p (Mark.text run) []).Waits
  line : ∀ m ∈ run.head?, m.line = s.line
  line' : ∀ m ∈ run'.head?, m.line = s.line

theorem Nesting.length_outerAfter {p : Profile} {s : Nesting} {outer : List Bool} {c : Char}
    {rest : List Char} (sync : outer.length = s.hereDocs.length) :
    (s.outerAfter outer (s.step p c rest).1).length = (s.step p c rest).1.hereDocs.length := by
  unfold outerAfter
  rcases hereDocs_step p s c rest with h | ⟨doc, -, h⟩ | ⟨hend, h⟩
  · simp [h, sync]
  · simp [h, sync]
  · cases hdocs : s.hereDocs with
    | nil => simp [atHereDocEnd, hdocs] at hend
    | cons doc docs =>
      have hlength : ¬ docs.length + 1 < docs.length := by omega
      simp [h, hdocs, sync, hlength]

theorem Nesting.length_outerAfterText {p : Profile} {s : Nesting} {outer : List Bool}
    (text ahead : List Char) (sync : outer.length = s.hereDocs.length) :
    (s.outerAfterText p outer text ahead).length = (s.afterText p text ahead).hereDocs.length := by
  induction text generalizing s outer with
  | nil => exact sync
  | cons c rest ih =>
    rw [afterText_cons]
    exact ih (length_outerAfter sync)

/-- The first lines of a text leave no document waiting for ever when the text leaves none. -/
theorem Nesting.not_waits_of_lines {p : Profile} {s : Nesting} {text lines : List Char}
    (hline : '\n' ∉ s.lineSoFar) (done : ¬ (s.afterText p text []).Waits)
    (hlines : text = lines ∨ ∃ more, text = lines ++ '\n' :: more) :
    ¬ (s.afterText p lines []).Waits := by
  rcases hlines with rfl | ⟨more, rfl⟩
  · exact done
  · rw [afterText_append, List.append_nil] at done
    have hdone : ¬ (s.afterText p lines ('\n' :: more)).Waits :=
      fun h ↦ done (waits_afterText (newline_not_mem_lineSoFar_afterText hline) h)
    rwa [afterText_congr more atLineEnd_nil hline hdone] at hdone

/-- In front of its first lines a text is read as in front of all of it, if no document waits for
ever. -/
theorem Nesting.step_of_lines {p : Profile} {s : Nesting} {c : Char} {text lines : List Char}
    (hline : '\n' ∉ s.lineSoFar) (done : ¬ ((s.step p c text).1.afterText p text []).Waits)
    (hlines : text = lines ∨ ∃ more, text = lines ++ '\n' :: more) :
    s.step p c lines = s.step p c text := by
  rcases hlines with rfl | ⟨more, rfl⟩
  · rfl
  · have hahead := step_ahead p s c lines more atLineEnd_nil
    rw [List.append_nil] at hahead
    refine (hahead.resolve_left fun hwaits ↦ done ?_).symm
    exact waits_afterText (newline_not_mem_lineSoFar_step hline) hwaits

/-- A run that begins with the first marks of a text begins on the line of the text. -/
theorem line_of_mem_head? {p : Profile} {s : Nesting} {offset : Nat} {text line : List Char}
    {body behind run : List Mark} (hmarks : marksFrom p s offset text = body ++ behind)
    (hbody : Mark.text body = line ++ ['\n']) : ∀ m ∈ (body ++ run).head?, m.line = s.line := by
  cases body with
  | nil => simp [Mark.text] at hbody
  | cons n body =>
    intro m hm
    obtain rfl : n = m := Option.some.inj hm
    cases text with
    | nil => simp at hmarks
    | cons c text =>
      rw [marksFrom_cons, List.cons_append, List.cons.injEq] at hmarks
      rw [← hmarks.1, Mark.line]

/-- Behind the end of a line a word may begin. -/
theorem Mark.atWord_of_endsLine {m : Mark} (ends : m.endsLine = true)
    (last : m.after.last = some (m.char, m.role)) : m.after.AtWord := by
  obtain ⟨hchar, -, hbalanced⟩ := endsLine_iff.1 ends
  refine ⟨hbalanced, fun c hc ↦ ?_⟩
  rw [Nesting.lastChar?, last, Option.map_some, Option.some_inj] at hc
  rw [← hc]
  simp only [hchar, show isSpace '\n' = true by decide]

theorem Mark.IsInBody.endsLine {docs : List HereDoc} {m : Mark} (h : m.IsInBody docs)
    (waiting : docs ≠ []) : m.endsLine = false := by
  have hbalanced : m.after.isBalanced = false := by
    by_contra hb
    rw [Bool.not_eq_false] at hb
    exact waiting (h.after ▸ (Nesting.isBalanced_iff.1 hb).2.2.1)
  simp [Mark.endsLine, hbalanced]

namespace Nesting.Like

variable {s t : Nesting}

theorem length_hereDocs (h : s.Like t) : s.hereDocs.length = t.hereDocs.length := by
  have hdocs := congrArg List.length h.hereDocs
  rwa [List.length_map, List.length_map] at hdocs

theorem isEmpty_groups (h : s.Like t) : s.groups.isEmpty = t.groups.isEmpty := by
  have hgroups := congrArg List.isEmpty h.groups
  rwa [List.isEmpty_map, List.isEmpty_map] at hgroups

/-- Where a line of a body begins in one state, it does in the other. -/
theorem exists_outerBody? {outer : List Bool} {doc : HereDoc} (h : s.Like t)
    (hdoc : s.outerBody? outer = some doc) :
    ∃ doc', t.outerBody? outer = some doc' ∧ doc.shape = doc'.shape := by
  obtain ⟨hmode, hready, hfresh, hlast, houter, hfirst⟩ := outerBody?_eq_some hdoc
  have hcode : s.mode ≠ .code := by simp [hmode]
  have hlast' := h.last.resolve_right fun h ↦ hcode h.1
  have hline := h.lineSoFar.resolve_left fun h ↦ h.1 hmode
  have hdocs := congrArg List.head? h.hereDocs
  rw [List.head?_map, List.head?_map, hfirst, Option.map_some, eq_comm,
    Option.map_eq_some_iff] at hdocs
  obtain ⟨doc', hdoc', hshape⟩ := hdocs
  rw [lastChar?, hlast'] at hlast
  exact ⟨doc', by rw [outerBody?, if_pos ⟨h.mode ▸ hmode, h.escaping ▸ hready, hline ▸ hfresh,
    hlast, houter⟩, hdoc'], hshape.symm⟩

theorem waits_iff (h : s.Like t) : s.Waits ↔ t.Waits := by
  have hdelimiters : s.hereDocs.map HereDoc.delimiter = t.hereDocs.map HereDoc.delimiter := by
    have hdocs := congrArg (List.map Prod.fst) h.hereDocs
    rwa [List.map_map, List.map_map] at hdocs
  have hwaits (u : Nesting) :
      u.Waits ↔ ∃ delimiter ∈ u.hereDocs.map HereDoc.delimiter, '\n' ∈ delimiter := by
    simp [Waits]
  rw [hwaits, hwaits, hdelimiters]

end Nesting.Like

/-! ### Cut at the same places -/

/-- The logical lines of a text and of its rewriting, as runs of marks. The first of each is read
from `s` and need not begin its line; the others begin where a word may begin. -/
structure RewrittenRuns (p : Profile) (s : Nesting) (outer : List Bool) (text : List Char)
    (run run' : List Mark) (runs runs' : List (List Mark)) : Prop where
  front : text = Mark.text run ∨ ∃ more, text = Mark.text run ++ '\n' :: more
  first : RewrittenRun p s outer run run'
  others : List.Forall₂ (fun r r' ↦ ∃ t : Nesting, t.AtWord ∧ RewrittenRun p t [] r r') runs runs'

namespace RewrittenRuns

variable {p : Profile} {s t : Nesting} {outer : List Bool} {rest : List Char}
  {run run' : List Mark} {runs runs' : List (List Mark)}

/-- A newline that ends a line leaves the first line empty. -/
theorem newline (h : RewrittenRuns p t [] rest run run' runs runs') (word : t.AtWord)
    (outer : List Bool) (hline : '\n' ∉ s.lineSoFar)
    (done : ¬ (s.afterText p ('\n' :: rest) []).Waits) :
    RewrittenRuns p s outer ('\n' :: rest) [] [] (run :: runs) (run' :: runs') where
  front := .inr ⟨rest, rfl⟩
  first := ⟨.nil s outer, Nesting.not_waits_of_lines hline done (.inr ⟨rest, rfl⟩), by simp,
    by simp⟩
  others := .cons ⟨t, word, h.first⟩ h.others

/-- A character that ends no line goes to the first line of both. -/
theorem keep {c : Char} {role : CharRole} {offset offset' : Nat}
    (h : RewrittenRuns p (s.step p c rest).1 (s.outerAfter outer (s.step p c rest).1) rest run run'
      runs runs')
    (hline : '\n' ∉ s.lineSoFar) (done : ¬ (s.afterText p (c :: rest) []).Waits) :
    RewrittenRuns p s outer (c :: rest) (⟨offset, c, role, s, t⟩ :: run)
      (⟨offset', c, role, s, t⟩ :: run') runs runs' := by
  have hfront : c :: rest = c :: Mark.text run ∨
      ∃ more, c :: rest = c :: Mark.text run ++ '\n' :: more := by
    rcases h.front with heq | ⟨more, heq⟩
    · exact .inl (congrArg (c :: ·) heq)
    · exact .inr ⟨more, congrArg (c :: ·) heq⟩
  have hkept : Rewritten p s outer (c :: Mark.text run) (c :: Mark.text run') := by
    refine .keep ?_
    rw [Nesting.afterText_cons, List.append_nil] at done
    rw [Nesting.step_of_lines hline done h.front]
    exact h.first.text
  refine ⟨hfront, ⟨hkept, Nesting.not_waits_of_lines hline done hfront, ?_, ?_⟩, h.others⟩
  · exact fun m hm ↦ by cases hm; rfl
  · exact fun m hm ↦ by cases hm; rfl

/-- The first line goes on behind a line of a body. -/
theorem front_append {line : List Char} {body : List Mark}
    (h : RewrittenRuns p t outer rest run run' runs runs')
    (hbody : Mark.text body = line ++ ['\n']) :
    line ++ '\n' :: rest = Mark.text (body ++ run) ∨
      ∃ more, line ++ '\n' :: rest = Mark.text (body ++ run) ++ '\n' :: more := by
  rw [Mark.text_append, hbody, List.append_assoc, List.singleton_append]
  rcases h.front with heq | ⟨more, heq⟩
  · exact .inl (by rw [← heq])
  · exact .inr ⟨more, by rw [heq, List.append_assoc, List.cons_append]⟩

end RewrittenRuns

namespace Rewritten

variable {p : Profile} {s : Nesting} {outer : List Bool} {text text' : List Char}

/-- A text and its rewriting are cut into logical lines at the same places. -/
theorem exists_pieces_endsLine (h : Rewritten p s outer text text')
    (sync : outer.length = s.hereDocs.length) (hline : '\n' ∉ s.lineSoFar)
    (done : ¬ (s.afterText p text []).Waits) (offset offset' : Nat) :
    ∃ run runs run' runs',
      pieces (fun m _ ↦ m.endsLine) (marksFrom p s offset text) = run :: runs ∧
      pieces (fun m _ ↦ m.endsLine) (marksFrom p s offset' text') = run' :: runs' ∧
      RewrittenRuns p s outer text run run' runs runs' := by
  induction h generalizing offset offset' with
  | nil s outer =>
    exact ⟨[], [], [], [], rfl, rfl, .inl rfl, ⟨.nil s outer, done, by simp, by simp⟩, .nil⟩
  | @keep s outer c rest rest' h ih =>
    have hdone := done
    rw [Nesting.afterText_cons, List.append_nil] at hdone
    have hstep := h.step_eq hline hdone
    obtain ⟨run, runs, run', runs', hruns, hruns', hall⟩ :=
      ih (Nesting.length_outerAfter sync) (Nesting.newline_not_mem_lineSoFar_step hline) hdone
        (offset + c.utf8Size) (offset' + c.utf8Size)
    rw [marksFrom_cons, marksFrom_cons, ← hstep]
    cases hends : (⟨offset, c, (s.step p c rest).2, s, (s.step p c rest).1⟩ : Mark).endsLine with
    | true =>
      have hends' : (⟨offset', c, (s.step p c rest).2, s, (s.step p c rest).1⟩ : Mark).endsLine =
        true := hends
      obtain ⟨hc, -, hbalanced⟩ := Mark.endsLine_iff.1 hends
      replace hc : c = '\n' := hc
      subst hc
      have houter : s.outerAfter outer (s.step p '\n' rest).1 = [] := by
        rw [← List.length_eq_zero_iff, Nesting.length_outerAfter sync,
          (Nesting.isBalanced_iff.1 hbalanced).2.2.1, List.length_nil]
      rw [pieces, if_pos hends, hruns, pieces, if_pos hends', hruns']
      exact ⟨_, _, _, _, rfl, rfl,
        (houter ▸ hall).newline (Mark.atWord_of_endsLine hends rfl) outer hline done⟩
    | false =>
      have hends' : (⟨offset', c, (s.step p c rest).2, s, (s.step p c rest).1⟩ : Mark).endsLine =
        false := hends
      rw [pieces, if_neg (by simp [hends]), hruns, pieces, if_neg (by simp [hends']), hruns']
      exact ⟨_, _, _, _, rfl, rfl, hall.keep hline done⟩
  | @line s outer doc line line' rest rest' hdoc single single' goes_on goes_on' _ ih =>
    have waiting := Nesting.hereDocs_ne_nil_of_outerBody? hdoc
    have hdone := done
    rw [Nesting.afterText_bodyLine [] hdoc single goes_on] at hdone
    obtain ⟨body, behind, hmarks, hbody, hinside⟩ :=
      Nesting.exists_marksFrom_bodyLine (p := p) rest offset hdoc single goes_on
    obtain ⟨body', behind', hmarks', hbody', hinside'⟩ :=
      Nesting.exists_marksFrom_bodyLine (p := p) rest' offset' hdoc single' goes_on'
    obtain ⟨run, runs, run', runs', hruns, hruns', hall⟩ :=
      ih sync List.not_mem_nil hdone behind behind'
    rw [hmarks, hmarks', pieces_append (fun m hm _ ↦ (hinside m hm).endsLine waiting) hruns,
      pieces_append (fun m hm _ ↦ (hinside' m hm).endsLine waiting) hruns']
    refine ⟨_, _, _, _, rfl, rfl, ?_, ⟨?_, ?_, ?_, ?_⟩, hall.others⟩
    · exact hall.front_append hbody
    · rw [Mark.text_append, Mark.text_append, hbody, hbody', List.append_assoc, List.append_assoc]
      exact .line hdoc single single' goes_on goes_on' hall.first.text
    · exact Nesting.not_waits_of_lines hline done (hall.front_append hbody)
    · exact line_of_mem_head? hmarks hbody
    · exact line_of_mem_head? hmarks' hbody'

/-! ### On their own -/

/-- In front of the first exchanged line both texts have an angle bracket, when nothing was
announced before. -/
theorem exists_bar (h : Rewritten p s outer text text') (docs : s.hereDocs = []) :
    text = text' ∨
      ∃ front rest rest', text = front ++ '<' :: rest ∧ text' = front ++ '<' :: rest' := by
  induction h with
  | nil => exact .inl rfl
  | @keep s outer c rest rest' _ ih =>
    rcases Nesting.hereDocs_step p s c rest with hdocs | ⟨doc, hdoc, -⟩ | ⟨hend, -⟩
    · rcases ih (hdocs.trans docs) with rfl | ⟨front, more, more', rfl, rfl⟩
      · exact .inl rfl
      · exact .inr ⟨c :: front, more, more', rfl, rfl⟩
    · have hc : c = '<' := by
        by_contra hne
        rw [HereDoc.announced?_of_ne fun more heq ↦ hne (List.cons.inj heq).1] at hdoc
        exact absurd hdoc (by simp)
      exact .inr ⟨[], rest, rest', by rw [hc]; rfl, by rw [hc]; rfl⟩
    · simp [Nesting.atHereDocEnd, docs] at hend
  | line hdoc =>
    have hfirst := (Nesting.outerBody?_eq_some hdoc).2.2.2.2.2
    simp [docs] at hfirst

/-- A rewriting is a rewriting in every state that is alike. -/
theorem of_like {t : Nesting} (h : Rewritten p s outer text text') (alike : s.Like t) :
    Rewritten p t outer text text' := by
  induction h generalizing t with
  | nil s outer => exact .nil t outer
  | @keep s outer c rest rest' _ ih =>
    have hnext := (alike.step c rest (p := p)).2
    have houter : s.outerAfter outer (s.step p c rest).1 =
        t.outerAfter outer (t.step p c rest).1 := by
      rw [Nesting.outerAfter, Nesting.outerAfter, alike.length_hereDocs, alike.isEmpty_groups,
        hnext.length_hereDocs]
    refine .keep ?_
    rw [← houter]
    exact ih hnext
  | @line s outer doc line line' rest rest' hdoc single single' goes_on goes_on' _ ih =>
    obtain ⟨doc', hdoc', hshape⟩ := alike.exists_outerBody? hdoc
    rw [HereDoc.isEndedBy_congr hshape] at goes_on goes_on'
    refine .line hdoc' single single' goes_on goes_on' (ih ?_)
    exact
      { mode := alike.mode
        escaping := alike.escaping
        groups := alike.groups
        hereDocs := alike.hereDocs
        lineSoFar := .inr rfl
        last := .inl rfl }

end Rewritten

/-! ### The lines of a file -/

/-- A complete logical line and its rewriting, each read on its own. -/
structure RewrittenLine (p : Profile) (l l' : LogicalLine) : Prop where
  text : Rewritten p (.start l.line) [] l.text l'.text
  done : ¬ ((Nesting.start l.line).afterText p l.text []).Waits
  line : l'.line = l.line
  complete : l.leftOpen = none
  complete' : l'.leftOpen = none

/-- A text that leaves nothing open has no document that waits for ever. -/
theorem Nesting.not_waits_of_outermostOpen? {s : Nesting} (hline : '\n' ∉ s.lineSoFar)
    (h : s.outermostOpen? = none) : ¬ s.Waits := by
  rintro ⟨doc, hdoc, hnewline⟩
  have hspan : s.openSpan? = none := by
    unfold outermostOpen? at h
    split at h
    · split at h <;> simp at h
    · simp at h
    · exact h
  have hfull : s.hereDocs.head?.map (fun doc ↦ OpenConstruct.mk .hereDoc doc.line) ≠ none := by
    cases hdocs : s.hereDocs with
    | nil => simp [hdocs] at hdoc
    | cons first others => simp
  cases hmode : s.mode with
  | code => exact hfull (by simpa [openSpan?, hmode] using hspan)
  | comment => exact hfull (by simpa [openSpan?, hmode] using hspan)
  | hereDoc =>
    by_cases hend : s.hereDocs.length = 1 ∧ s.atHereDocEnd
    · obtain ⟨first, hfirst⟩ := List.length_eq_one_iff.1 hend.1
      have hended := hend.2
      rw [hfirst, List.mem_singleton] at hdoc
      rw [atHereDocEnd, hfirst, ← hdoc] at hended
      exact HereDoc.newline_not_mem_of_isEndedBy hended hline hnewline
    · refine hfull ?_
      rwa [openSpan?, hmode, if_neg hend] at hspan
  | _ => simp [openSpan?, hmode] at hspan

/-- The state at the end of a text is the one that decides what is left open. -/
theorem outermostOpen?_afterMarks (p : Profile) (text : List Char) :
    ((Nesting.start 1).afterMarks (marks p text)).outermostOpen? =
      ((Nesting.start 1).afterText p text []).outermostOpen? := by
  rw [Nesting.afterText, marksAhead_nil, marks]

/-- The complete logical line of a run of marks that is not blank. -/
def LogicalLine.ofRun? (run : List Mark) : Option LogicalLine :=
  if isBlank (Mark.text run) then none else some (.ofMarks 1 none run)

/-- A text that leaves nothing open consists of its lines that are not blank. -/
theorem logicalLines_of_complete {p : Profile} {text : List Char}
    (h : ((Nesting.start 1).afterText p text []).outermostOpen? = none) :
    logicalLines p text =
      (pieces (fun m _ ↦ m.endsLine) (marks p text)).filterMap LogicalLine.ofRun? := by
  have hne := pieces_ne_nil (fun m _ ↦ m.endsLine) (marks p text)
  have hfilter (runs : List (List Mark)) :
      (runs.filter fun run ↦ !isBlank (Mark.text run)).map (.ofMarks 1 none) =
        runs.filterMap LogicalLine.ofRun? := by
    rw [← List.filterMap_eq_map, List.filterMap_filter]
    refine List.filterMap_congr fun run _ ↦ ?_
    cases hblank : isBlank (Mark.text run) <;> simp [LogicalLine.ofRun?, hblank]
  simp only [logicalLines, outermostOpen?_afterMarks, h, Option.isSome_none, Bool.or_false]
  rw [← List.map_append, ← List.filter_append, List.getLast?_eq_some_getLast hne,
    Option.toList_some, List.dropLast_append_getLast, hfilter]

/-- If no line of a text is left open, the text leaves nothing open. -/
theorem outermostOpen?_of_complete {p : Profile} {text : List Char}
    (complete : ∀ l ∈ logicalLines p text, l.leftOpen = none) :
    ((Nesting.start 1).afterText p text []).outermostOpen? = none := by
  have hne := pieces_ne_nil (fun m _ ↦ m.endsLine) (marks p text)
  cases hopen : ((Nesting.start 1).afterText p text []).outermostOpen? with
  | none => rfl
  | some construct =>
    refine complete (.ofMarks 1 (some construct) (List.getLast _ hne)) ?_
    simp [logicalLines, outermostOpen?_afterMarks, hopen, List.getLast?_eq_some_getLast hne]

/-- Runs that are rewritings of each other are lines that are, or both are blank. -/
theorem RewrittenRun.rel_ofRun? {p : Profile} {t : Nesting} {run run' : List Mark}
    (h : RewrittenRun p t [] run run') (ht : t.AtWord) :
    Option.Rel (RewrittenLine p) (LogicalLine.ofRun? run) (LogicalLine.ofRun? run') := by
  have hdocs : t.hereDocs = [] := (Nesting.isBalanced_iff.1 ht.balanced).2.2.1
  have hbar : isSpace '<' = false := by decide
  have hblank : isBlank (Mark.text run) = isBlank (Mark.text run') := by
    rcases h.text.exists_bar hdocs with heq | ⟨front, rest, rest', heq, heq'⟩
    · rw [heq]
    · rw [heq, heq']
      simp [isBlank, hbar]
  have hof {r : List Mark} (visible : isBlank (Mark.text r) = false)
      (hline : ∀ m ∈ r.head?, m.line = t.line) :
      LogicalLine.ofMarks 1 none r = ⟨Mark.text r, t.line, none⟩ := by
    cases r with
    | nil => exact absurd visible (by decide)
    | cons m r => rw [LogicalLine.ofMarks, ← hline m rfl]; rfl
  unfold LogicalLine.ofRun?
  rw [hblank]
  split
  · exact .none
  · next hvisible =>
    rw [Bool.not_eq_true] at hvisible
    rw [hof (hblank ▸ hvisible) h.line, hof hvisible h.line']
    have alike := ht.like (Nesting.atWord_start t.line)
    exact .some ⟨h.text.of_like alike, mt (alike.afterText _ _).waits_iff.2 h.done, rfl, rfl, rfl⟩

/-- The logical lines of a complete text are those of its rewriting, rewritten. -/
theorem Rewritten.forall₂_logicalLines {p : Profile} {text text' : List Char}
    (h : Rewritten p (.start 1) [] text text')
    (complete : ∀ l ∈ logicalLines p text, l.leftOpen = none) :
    List.Forall₂ (RewrittenLine p) (logicalLines p text) (logicalLines p text') := by
  have hline : '\n' ∉ (Nesting.start 1).lineSoFar := List.not_mem_nil
  have hopen := outermostOpen?_of_complete complete
  have hdone := Nesting.not_waits_of_outermostOpen?
    (Nesting.newline_not_mem_lineSoFar_afterText hline) hopen
  have hopen' := hopen
  rw [h.afterText_eq hline hdone] at hopen'
  obtain ⟨run, runs, run', runs', hruns, hruns', -, hrun, hothers⟩ :=
    h.exists_pieces_endsLine rfl hline hdone 0 0
  have hall : List.Forall₂ (fun r r' ↦ ∃ t : Nesting, t.AtWord ∧ RewrittenRun p t [] r r')
      (run :: runs) (run' :: runs') :=
    .cons ⟨_, Nesting.atWord_start 1, hrun⟩ hothers
  rw [logicalLines_of_complete hopen, logicalLines_of_complete hopen', marks, marks, hruns, hruns']
  refine List.rel_filterMap (fun r r' ↦ ?_) hall
  rintro ⟨t, ht, hr⟩
  exact hr.rel_ofRun? ht

end ShellCatalog
