import ShellCatalog.Proofs.Reaction

/-!
# How far reading looks ahead

Reading a character looks at the text behind it in two places: for the second character of `<#`, and
for the delimiter of a here-document. The first stays on the line. The second may run past the end
of the line, inside quotes or behind a backslash, but then the delimiter holds a newline.

**A delimiter with a newline is never met** (`waits_step`): a line of a body holds none. So the
document waits for ever, and a text that leaves no document waiting is read in the same way whatever
follows it, as long as it ends with its line (`marksAhead_congr`). This is what allows a part of a
text to be read on its own.
-/

namespace ShellCatalog

/-- The text ends here, or a line does. -/
def AtLineEnd (ahead : List Char) : Prop :=
  ∀ c, ahead.head? = some c → c = '\n'

theorem atLineEnd_nil : AtLineEnd [] :=
  fun _ h ↦ absurd h (by simp)

theorem atLineEnd_newline (more : List Char) : AtLineEnd ('\n' :: more) :=
  fun _ h ↦ (Option.some.inj h).symm

namespace HereDoc

/-- A delimiter that is read up to the end of its line is read alike whatever follows the line;
otherwise it holds the newline. -/
theorem delimiterFrom_ahead {ahead : List Char} (more : List Char) (stop : AtLineEnd ahead) :
    ∀ (quote : Option Char) (text : List Char), quote ≠ some '\n' →
      '\n' ∈ delimiterFrom quote (text ++ '\n' :: more) ∨
        delimiterFrom quote (text ++ '\n' :: more) = delimiterFrom quote (text ++ ahead)
  | none, [], _ => by
    have hnewline (rest : List Char) : delimiterFrom none ('\n' :: rest) = [] :=
      delimiterFrom_of_ne rest (by decide)
    right
    rw [List.nil_append, hnewline]
    cases ahead with
    | nil => rfl
    | cons c rest =>
      obtain rfl := stop c rfl
      rw [List.nil_append, hnewline]
  | some q, [], hq => by
    left
    rw [List.nil_append, delimiterFrom_quoted, if_neg fun h ↦ hq (by rw [h])]
    exact List.mem_cons_self
  | some q, c :: text, hq => by
    rw [List.cons_append, List.cons_append, delimiterFrom_quoted, delimiterFrom_quoted]
    by_cases hc : c = q
    · rw [if_pos hc, if_pos hc]
      exact delimiterFrom_ahead more stop none text (by simp)
    · rw [if_neg hc, if_neg hc]
      exact (delimiterFrom_ahead more stop (some q) text hq).imp (List.mem_cons_of_mem c)
        (congrArg (c :: ·))
  | none, c :: text, _ => by
    by_cases hescape : c = '\\'
    · subst hescape
      match text with
      | [] =>
        left
        rw [List.cons_append, List.nil_append, delimiterFrom_backslash]
        exact List.mem_cons_self
      | d :: text =>
        simp only [List.cons_append, delimiterFrom_backslash]
        exact (delimiterFrom_ahead more stop none text (by simp)).imp (List.mem_cons_of_mem d)
          (congrArg (d :: ·))
    · rw [List.cons_append, List.cons_append, delimiterFrom_of_ne _ hescape,
        delimiterFrom_of_ne _ hescape]
      by_cases hquote : c = '\'' ∨ c = '"'
      · rw [if_pos hquote, if_pos hquote]
        refine delimiterFrom_ahead more stop (some c) text ?_
        rcases hquote with rfl | rfl <;> decide
      · rw [if_neg hquote, if_neg hquote]
        by_cases hends : endsWord c = true
        · rw [if_pos hends, if_pos hends]
          exact .inr rfl
        · rw [if_neg hends, if_neg hends]
          exact (delimiterFrom_ahead more stop none text (by simp)).imp (List.mem_cons_of_mem c)
            (congrArg (c :: ·))

/-- The end of a line is no indentation. -/
theorem dropWhile_isIndent_append {behind : List Char} (stop : AtLineEnd behind)
    (text : List Char) :
    (text ++ behind).dropWhile isIndent = text.dropWhile isIndent ++ behind := by
  have hnewline : isIndent '\n' = false := by decide
  rw [List.dropWhile_append]
  split
  · next hempty =>
    rw [List.isEmpty_iff.1 hempty, List.nil_append]
    cases behind with
    | nil => rfl
    | cons c rest =>
      obtain rfl := stop c rfl
      rw [List.dropWhile_cons, hnewline]
      rfl
  · rfl

/-- An announcement reads alike whatever follows its line, or it awaits a newline. -/
theorem await?_ahead {ahead : List Char} (more : List Char) (stop : AtLineEnd ahead)
    (ignoresTabs : Bool) (line : Nat) (text : List Char) :
    (∃ doc, await? ignoresTabs line (text ++ '\n' :: more) = some doc ∧ '\n' ∈ doc.delimiter) ∨
      await? ignoresTabs line (text ++ '\n' :: more) = await? ignoresTabs line (text ++ ahead) := by
  rw [await?, await?, dropWhile_isIndent_append (atLineEnd_newline more),
    dropWhile_isIndent_append stop]
  rcases delimiterFrom_ahead more stop none (text.dropWhile isIndent) (by simp) with h | h
  · left
    cases hword : delimiterFrom none (text.dropWhile isIndent ++ '\n' :: more) with
    | nil => simp [hword] at h
    | cons c word => exact ⟨_, rfl, hword ▸ h⟩
  · right
    rw [h]

theorem announced?_ahead {ahead : List Char} (more : List Char) (stop : AtLineEnd ahead)
    (line : Nat) (text : List Char) :
    (∃ doc, announced? line (text ++ '\n' :: more) = some doc ∧ '\n' ∈ doc.delimiter) ∨
      announced? line (text ++ '\n' :: more) = announced? line (text ++ ahead) := by
  by_cases htwo : ∃ rest, text = '<' :: '<' :: rest
  · obtain ⟨rest, rfl⟩ := htwo
    by_cases hbar : rest.head? = some '<'
    · obtain ⟨rest, rfl⟩ := List.head?_eq_some_iff.1 hbar
      exact .inr rfl
    · by_cases htabs : rest.head? = some '-'
      · obtain ⟨rest, rfl⟩ := List.head?_eq_some_iff.1 htabs
        exact await?_ahead more stop true line rest
      · have hhead (behind : List Char) (hbehind : AtLineEnd behind) {c : Char} (hc : c ≠ '\n')
            (hrest : rest.head? ≠ some c) : (rest ++ behind).head? ≠ some c := by
          cases rest with
          | nil => exact fun h ↦ hc (hbehind c h)
          | cons d rest => exact hrest
        have hmore : AtLineEnd ('\n' :: more) := atLineEnd_newline more
        simp only [List.cons_append]
        rw [announced?_of_head_ne (hhead _ hmore (by decide) hbar)
            (hhead _ hmore (by decide) htabs),
          announced?_of_head_ne (hhead _ stop (by decide) hbar) (hhead _ stop (by decide) htabs)]
        exact await?_ahead more stop false line rest
  · -- What follows cannot complete the operator, since it does not begin with an angle bracket.
    have hnone (behind : List Char) (hbehind : AtLineEnd behind) :
        announced? line (text ++ behind) = none := by
      refine announced?_of_ne fun rest heq ↦ htwo ?_
      match text with
      | [] =>
        have h := hbehind '<' (by rw [List.nil_append] at heq; rw [heq]; rfl)
        exact absurd h (by decide)
      | [c] =>
        have h := hbehind '<' (by rw [List.cons_append, List.nil_append] at heq; cases heq; rfl)
        exact absurd h (by decide)
      | c :: d :: text =>
        simp only [List.cons_append, List.cons.injEq] at heq
        exact ⟨text, by rw [heq.1, heq.2.1]⟩
    have hmore : AtLineEnd ('\n' :: more) := atLineEnd_newline more
    rw [hnone _ hmore, hnone _ stop]
    exact .inr rfl

/-- A line without a newline ends no document whose delimiter holds one. -/
theorem newline_not_mem_of_isEndedBy {doc : HereDoc} {line : List Char}
    (h : doc.isEndedBy line = true) (hline : '\n' ∉ line) : '\n' ∉ doc.delimiter := by
  unfold isEndedBy at h
  rw [beq_iff_eq] at h
  rw [← h]
  split
  · exact fun hmem ↦ hline ((List.dropWhile_suffix _).subset hmem)
  · exact hline

end HereDoc

namespace Nesting

/-- A document is announced whose delimiter no line can be. -/
def Waits (s : Nesting) : Prop :=
  ∃ doc ∈ s.hereDocs, '\n' ∈ doc.delimiter

/-- Code depends on the text behind its character in two places only: the second character of a
block comment's opening, and what the text announces. -/
theorem inCode_eq_or_announces (p : Profile) (s : Nesting) (c : Char) (rest : List Char) :
    (∀ rest', (rest'.head? = some '#' ↔ rest.head? = some '#') →
        inCode p s c rest' = inCode p s c rest) ∨
      c = '<' ∧ p.hereDocs = true ∧
        ∀ rest', (rest'.head? = some '#' ↔ rest.head? = some '#') →
          inCode p s c rest' = (s.announceHereDoc (c :: rest'), .code) := by
  by_cases hannounces : c = '<' ∧ p.hereDocs ∧ s.lastChar? ≠ some '<'
  · obtain ⟨rfl, hdocs, hlast⟩ := hannounces
    by_cases hescape : '<' = p.escape
    · exact .inl fun rest' _ ↦ by rw [inCode, inCode, if_pos hescape, if_pos hescape]
    by_cases hblock : p.blockComments ∧ rest.head? = some '#'
    · exact .inl fun rest' hash ↦ by simp [inCode, hescape, hash, hblock]
    by_cases hcomment : '<' = p.comment ∧ s.wordMayStart
    · refine .inl fun rest' hash ↦ ?_
      simp [inCode, hescape, hash, hblock, ← hcomment.1, hcomment.2]
    · refine .inr ⟨rfl, hdocs, fun rest' hash ↦ ?_⟩
      simp [inCode, hescape, hash, hblock, hcomment, hdocs, hlast]
  · refine .inl fun rest' hash ↦ ?_
    simp only [inCode, hash, hannounces, if_false]

/-- A step is the same whatever follows the line, or its character announces what the text behind it
says. -/
theorem step_eq_or_announces (p : Profile) (s : Nesting) (c : Char) (text : List Char) :
    (∀ behind behind', AtLineEnd behind → AtLineEnd behind' →
        s.step p c (text ++ behind) = s.step p c (text ++ behind')) ∨
      s.escaping = false ∧ s.mode = .code ∧ c = '<' ∧ p.hereDocs = true ∧
        ∀ behind, AtLineEnd behind →
          s.react p c (text ++ behind) = (s.announceHereDoc (c :: (text ++ behind)), .code) := by
  have hash {behind : List Char} (stop : AtLineEnd behind) :
      (text ++ behind).head? = some '#' ↔ text.head? = some '#' := by
    cases text with
    | nil =>
      have hbehind : behind.head? ≠ some '#' := fun h ↦ absurd (stop '#' h) (by decide)
      simp [hbehind]
    | cons d text => exact Iff.rfl
  by_cases hescaping : s.escaping = true
  · exact .inl fun behind behind' _ _ ↦ by simp [step, react, hescaping]
  rw [Bool.not_eq_true] at hescaping
  by_cases hmode : s.mode = .code
  · have hreact (rest : List Char) : s.react p c rest = inCode p s c rest := by
      simp [react, hescaping, hmode]
    rcases inCode_eq_or_announces p s c text with heq | ⟨hc, hdocs, hcode⟩
    · refine .inl fun behind behind' stop stop' ↦ ?_
      rw [step, step, hreact, hreact, heq _ (hash stop), heq _ (hash stop')]
    · refine .inr ⟨hescaping, hmode, hc, hdocs, fun behind stop ↦ ?_⟩
      rw [hreact, hcode _ (hash stop)]
  · left
    intro behind behind' _ _
    have hreact : s.react p c (text ++ behind) = s.react p c (text ++ behind') := by
      cases h : s.mode <;> simp_all [react]
    rw [step, step, hreact]

/-- A step is the same whatever follows the line, or it announces a document that waits for
ever. -/
theorem step_ahead {ahead : List Char} (p : Profile) (s : Nesting) (c : Char)
    (text more : List Char) (stop : AtLineEnd ahead) :
    (s.step p c (text ++ '\n' :: more)).1.Waits ∨
      s.step p c (text ++ '\n' :: more) = s.step p c (text ++ ahead) := by
  have hmore : AtLineEnd ('\n' :: more) := atLineEnd_newline more
  rcases step_eq_or_announces p s c text with heq | ⟨-, -, -, -, hreact⟩
  · exact .inr (heq _ _ hmore stop)
  rcases HereDoc.announced?_ahead more stop s.line (c :: text) with ⟨doc, hdoc, hnewline⟩ | heq
  · by_cases harithmetic : s.inArithmetic = true
    · right
      simp [step, hreact _ hmore, hreact _ stop, announceHereDoc, harithmetic]
    · left
      refine ⟨doc, ?_, hnewline⟩
      rw [List.cons_append] at hdoc
      simp [step, hreact _ hmore, announceHereDoc, harithmetic, hdoc]
  · right
    rw [List.cons_append, List.cons_append] at heq
    simp [step, hreact _ hmore, hreact _ stop, announceHereDoc, heq]

/-! ### Documents that wait for ever -/

/-- A document whose delimiter holds a newline stays. -/
theorem waits_step {p : Profile} {s : Nesting} {c : Char} {rest : List Char}
    (hline : '\n' ∉ s.lineSoFar) (h : s.Waits) : (s.step p c rest).1.Waits := by
  obtain ⟨doc, hdoc, hnewline⟩ := h
  refine ⟨doc, ?_, hnewline⟩
  rcases hereDocs_step p s c rest with heq | ⟨new, -, heq⟩ | ⟨hend, heq⟩
  · rwa [heq]
  · rw [heq]
    exact List.mem_append_left _ hdoc
  · rw [heq]
    cases hdocs : s.hereDocs with
    | nil => simp [hdocs] at hdoc
    | cons first others =>
      rw [hdocs] at hdoc
      -- The first document has just been ended by a line, so it is not the one that waits.
      rcases List.mem_cons.1 hdoc with rfl | hdoc
      · rw [atHereDocEnd, hdocs] at hend
        exact absurd (HereDoc.newline_not_mem_of_isEndedBy hend hline) (not_not_intro hnewline)
      · exact hdoc

theorem newline_not_mem_lineSoFar_afterText {p : Profile} {s : Nesting} {text ahead : List Char}
    (hline : '\n' ∉ s.lineSoFar) : '\n' ∉ (s.afterText p text ahead).lineSoFar :=
  afterText_invariant (motive := fun t ↦ '\n' ∉ t.lineSoFar)
    (fun _ _ h ↦ newline_not_mem_lineSoFar_step h) hline text ahead

theorem waits_afterText {p : Profile} {s : Nesting} {text ahead : List Char}
    (hline : '\n' ∉ s.lineSoFar) (h : s.Waits) : (s.afterText p text ahead).Waits :=
  (afterText_invariant (motive := fun t ↦ '\n' ∉ t.lineSoFar ∧ t.Waits)
    (fun _ _ ht ↦ ⟨newline_not_mem_lineSoFar_step ht.1, waits_step ht.1 ht.2⟩) ⟨hline, h⟩ text
    ahead).2

/-! ### Reading a part of a text on its own -/

/-- A text that leaves no document waiting for ever is read alike in front of a newline and in front
of any other end of its line. -/
theorem marksAhead_congr {p : Profile} {s : Nesting} {text ahead : List Char} (offset : Nat)
    (more : List Char) (stop : AtLineEnd ahead) (hline : '\n' ∉ s.lineSoFar)
    (done : ¬ (s.afterText p text ('\n' :: more)).Waits) :
    marksAhead p ('\n' :: more) s offset text = marksAhead p ahead s offset text := by
  induction text generalizing s offset with
  | nil => rfl
  | cons c rest ih =>
    rw [afterText_cons] at done
    have hnext : '\n' ∉ (s.step p c (rest ++ '\n' :: more)).1.lineSoFar :=
      newline_not_mem_lineSoFar_step hline
    have hstep : s.step p c (rest ++ '\n' :: more) = s.step p c (rest ++ ahead) :=
      (step_ahead p s c rest more stop).resolve_left fun h ↦ done (waits_afterText hnext h)
    rw [marksAhead_cons, marksAhead_cons, ih _ hnext done, hstep]

theorem afterText_congr {p : Profile} {s : Nesting} {text ahead : List Char} (more : List Char)
    (stop : AtLineEnd ahead) (hline : '\n' ∉ s.lineSoFar)
    (done : ¬ (s.afterText p text ('\n' :: more)).Waits) :
    s.afterText p text ('\n' :: more) = s.afterText p text ahead := by
  rw [afterText, marksAhead_congr 0 more stop hline done, afterText]

/-- Only an angle bracket looks ahead. -/
theorem step_of_ne {c : Char} (p : Profile) (s : Nesting) (rest rest' : List Char) (h : c ≠ '<') :
    s.step p c rest = s.step p c rest' := by
  have hcode : inCode p s c rest = inCode p s c rest' := by
    simp only [inCode, h, false_and, and_false, if_false]
  have hreact : s.react p c rest = s.react p c rest' := by
    unfold react
    rw [hcode]
  rw [step, hreact, step]

/-- A text of whole lines that leaves no document waiting for ever is read alike whatever
follows. -/
theorem marksAhead_lines_congr {p : Profile} {s : Nesting} {text : List Char} (offset : Nat)
    (ahead more : List Char) (hline : '\n' ∉ s.lineSoFar)
    (done : ¬ (s.afterText p (text ++ ['\n']) ahead).Waits) :
    marksAhead p ahead s offset (text ++ ['\n']) = marksAhead p more s offset (text ++ ['\n']) := by
  have hmore : AtLineEnd ('\n' :: more) := atLineEnd_newline more
  have hdone : ¬ (s.afterText p text ('\n' :: ahead)).Waits := by
    intro h
    rw [afterText_append] at done
    exact done (waits_afterText (newline_not_mem_lineSoFar_afterText hline) h)
  rw [marksAhead_append, marksAhead_append, List.singleton_append, List.singleton_append,
    afterMarks_marksAhead, afterMarks_marksAhead, marksAhead_congr offset ahead hmore hline hdone,
    afterText_congr ahead hmore hline hdone, marksAhead_cons, marksAhead_cons,
    step_of_ne p _ ([] ++ ahead) ([] ++ more) (by decide)]
  rfl

end Nesting

end ShellCatalog
