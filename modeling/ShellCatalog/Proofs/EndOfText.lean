import ShellCatalog.Proofs.LineReading
import ShellCatalog.Proofs.PlainText

/-!
# The end of a text and the end of its last line

A text whose last newline is missing is read as if the newline were there, unless it leaves
something open. Only an announcement looks far enough ahead to meet the newline
(`Nesting.step_eq_or_announces`), and it does so when the delimiter word runs to the end of the
text, inside quotes or behind a backslash.

**Then the document stays announced.** If the word has no other newline, no line of a body has begun
when the text ends (`Nesting.Announced`); if it has one, the document waits for ever. And **a word
that the newline alone begins** consists of empty quotes and one more quote, which opens a quote for
the reader of code too, so the text ends inside it (`Nesting.afterText_emptyWord`).
-/

namespace ShellCatalog

namespace HereDoc

/-! ### Words that run to the end of the text -/

/-- A delimiter word that a newline behind the text changes runs to the end of the text, so it holds
every newline of the text. -/
theorem newline_mem_delimiterFrom :
    ∀ (quote : Option Char) (text : List Char), quote ≠ some '\n' → '\n' ∈ text →
      delimiterFrom quote (text ++ ['\n']) ≠ delimiterFrom quote text →
      '\n' ∈ delimiterFrom quote text
  | _, [], _, inside, _ => absurd inside (by simp)
  | some q, c :: text, hq, inside, longer => by
    rw [List.cons_append, delimiterFrom_quoted, delimiterFrom_quoted] at longer
    rw [delimiterFrom_quoted]
    by_cases hc : c = q
    · rw [if_pos hc, if_pos hc] at longer
      rw [if_pos hc]
      have hnewline : '\n' ≠ c := fun h ↦ hq (by rw [← hc, h])
      exact newline_mem_delimiterFrom none text (by simp)
        (List.mem_of_ne_of_mem hnewline inside) longer
    · rw [if_neg hc, if_neg hc] at longer
      rw [if_neg hc]
      rcases List.mem_cons.1 inside with rfl | inside
      · exact List.mem_cons_self
      · exact List.mem_cons_of_mem _ (newline_mem_delimiterFrom (some q) text hq inside
          fun h ↦ longer (congrArg (c :: ·) h))
  | none, c :: text, _, inside, longer => by
    by_cases hescape : c = '\\'
    · subst hescape
      match text with
      | [] => exact absurd inside (by decide)
      | d :: text =>
        simp only [List.cons_append, delimiterFrom_backslash] at longer ⊢
        rcases List.mem_cons.1 (List.mem_of_ne_of_mem (by decide) inside) with rfl | inside
        · exact List.mem_cons_self
        · exact List.mem_cons_of_mem _ (newline_mem_delimiterFrom none text (by simp) inside
            fun h ↦ longer (congrArg (d :: ·) h))
    · rw [List.cons_append, delimiterFrom_of_ne _ hescape, delimiterFrom_of_ne _ hescape] at longer
      rw [delimiterFrom_of_ne _ hescape]
      by_cases hquote : c = '\'' ∨ c = '"'
      · have hnewline : '\n' ≠ c := by
          rintro rfl
          exact absurd hquote (by decide)
        rw [if_pos hquote, if_pos hquote] at longer
        rw [if_pos hquote]
        exact newline_mem_delimiterFrom (some c) text (by simpa using hnewline.symm)
          (List.mem_of_ne_of_mem hnewline inside) longer
      · rw [if_neg hquote, if_neg hquote] at longer
        rw [if_neg hquote]
        by_cases hends : endsWord c = true
        · rw [if_pos hends, if_pos hends] at longer
          exact absurd rfl longer
        · rw [if_neg hends, if_neg hends] at longer
          rw [if_neg hends]
          have hnewline : '\n' ≠ c := by
            rintro rfl
            exact hends (by decide)
          exact List.mem_cons_of_mem _ (newline_mem_delimiterFrom none text (by simp)
            (List.mem_of_ne_of_mem hnewline inside) fun h ↦ longer (congrArg (c :: ·) h))

/-- Behind an angle bracket stands an operator and a word that is awaited, or nothing is announced
whatever follows the line. -/
theorem announced?_eq_await? (rest : List Char) :
    (∀ line behind, AtLineEnd behind → announced? line ('<' :: (rest ++ behind)) = none) ∨
      ∃ marker word, rest = '<' :: (marker ++ word) ∧ (∀ c ∈ marker, c = '-') ∧
        ∃ ignoresTabs, ∀ line behind, AtLineEnd behind →
          announced? line ('<' :: (rest ++ behind)) = await? ignoresTabs line (word ++ behind) := by
  match rest with
  | [] =>
    refine .inl fun line behind stop ↦ announced?_of_ne fun more heq ↦ ?_
    rw [List.nil_append, List.cons.injEq] at heq
    exact absurd (stop '<' (by rw [heq.2]; rfl)) (by decide)
  | c :: rest =>
    by_cases hc : c = '<'
    · subst hc
      by_cases hbar : rest.head? = some '<'
      · obtain ⟨rest, rfl⟩ := List.head?_eq_some_iff.1 hbar
        exact .inl fun _ _ _ ↦ rfl
      by_cases htabs : rest.head? = some '-'
      · obtain ⟨rest, rfl⟩ := List.head?_eq_some_iff.1 htabs
        exact .inr ⟨['-'], rest, rfl, by simp, true, fun _ _ _ ↦ rfl⟩
      · refine .inr ⟨[], rest, rfl, by simp, false, fun line behind stop ↦ ?_⟩
        have hhead {c : Char} (hc : c ≠ '\n') (hrest : rest.head? ≠ some c) :
            (rest ++ behind).head? ≠ some c := by
          cases rest with
          | nil => exact fun h ↦ hc (stop c h)
          | cons d rest => exact hrest
        exact announced?_of_head_ne (hhead (by decide) hbar) (hhead (by decide) htabs)
    · refine .inl fun line behind _ ↦ announced?_of_ne fun more heq ↦ hc ?_
      rw [List.cons_append, List.cons.injEq, List.cons.injEq] at heq
      exact heq.2.1

end HereDoc

/-- The dialects that have here-documents quote alike. -/
theorem Dialect.of_hereDocs {d : Dialect} (h : d.profile.hereDocs = true) :
    d.profile.escape = '\\' ∧ d.profile.comment = '#' ∧ d.profile.hereStrings = false ∧
      d.profile.blockComments = false := by
  cases d with
  | pwsh => exact absurd h (by decide)
  | _ => exact ⟨rfl, rfl, rfl, rfl⟩

namespace Nesting

variable {p : Profile} {s : Nesting}

/-! ### Announced documents on one line -/

/-- A here-document has been announced, and no line of a body has begun. -/
def Announced (s : Nesting) : Prop :=
  s.hereDocs ≠ [] ∧ s.mode ≠ .hereDoc

/-- Bodies begin behind a newline only. -/
theorem announced_step {c : Char} {rest : List Char} (hc : c ≠ '\n') (h : s.Announced) :
    (s.step p c rest).1.Announced := by
  obtain ⟨hdocs, hmode⟩ := h
  obtain ⟨t, role, hreaction, hstep⟩ := exists_reaction p s c rest
  rw [hstep]
  show t.hereDocs ≠ [] ∧ t.mode ≠ .hereDoc
  cases hreaction with
  | announce =>
    rcases announceHereDoc_cases s (c :: rest) with h | ⟨doc, -, -, h⟩ <;> rw [h]
    · exact ⟨hdocs, hmode⟩
    · exact ⟨by simp, hmode⟩
  | closeGroup b =>
    refine ⟨by rwa [hereDocs_closeGroup], ?_⟩
    rcases mode_closeGroup s b with h | h <;> rw [h]
    · exact hmode
    · simp
  | enterQuote mode _ _ hquote => exact ⟨hdocs, by rintro rfl; simp at hquote⟩
  | blockComment _ mode _ _ hnext =>
    refine ⟨hdocs, ?_⟩
    rcases hnext with ⟨-, rfl⟩ | ⟨next, rfl⟩ <;> simp
  | hereDoc _ hinside => exact absurd hinside hmode
  | hereString _ mode _ _ _ hnext =>
    refine ⟨hdocs, ?_⟩
    rcases hnext with rfl | rfl <;> simp
  | endLine _ _ h | endHereDocLine _ _ h | endHereStringLine _ _ _ h => exact absurd h hc
  | enterBlockComment | enterHereString | enterComment | interruptQuote | closeQuote =>
    exact ⟨hdocs, by simp [enter]⟩
  | escaped | escape | openGroup | code | quoted | comment => exact ⟨hdocs, hmode⟩

theorem announced_afterText {text ahead : List Char} (single : '\n' ∉ text) (h : s.Announced) :
    (s.afterText p text ahead).Announced := by
  induction text generalizing s with
  | nil => exact h
  | cons c rest ih =>
    rw [afterText_cons]
    simp only [List.mem_cons, not_or] at single
    exact ih single.2 (announced_step (Ne.symm single.1) h)

/-- A document without a body is open. -/
theorem outermostOpen?_of_announced (h : s.Announced) : s.outermostOpen? ≠ none := by
  intro hclosed
  obtain ⟨-, hspan⟩ := outermostOpen?_eq_none_iff.1 hclosed
  obtain ⟨hdocs, hmode⟩ := h
  have hhead : s.hereDocs.head?.map (fun doc ↦ OpenConstruct.mk .hereDoc doc.line) ≠ none := by
    rwa [ne_eq, Option.map_eq_none_iff, List.head?_eq_none_iff]
  cases hs : s.mode with
  | code | comment => exact hhead (by simpa only [openSpan?, hs] using hspan)
  | hereDoc => exact hmode hs
  | _ => simp [openSpan?, hs] at hspan

/-- The quote that a delimiter word drops is a quote of code. -/
theorem exists_step_quote {d : Dialect} {c : Char} (docs : d.profile.hereDocs = true)
    (hc : c = '\'' ∨ c = '"') (code : s.mode = .code) (ready : s.escaping = false)
    (dollar : s.lastChar? ≠ some '$') (rest : List Char) :
    ∃ t, (s.step d.profile c rest).1 = t ∧ (t.mode = .single ∨ t.mode = .double) ∧
      ∀ rest', (t.step d.profile c rest').1.mode = .code ∧
        (t.step d.profile c rest').1.escaping = false := by
  obtain ⟨hescape, -, hstrings, -⟩ := Dialect.of_hereDocs docs
  refine ⟨_, rfl, ?_⟩
  rcases hc with rfl | rfl
  · simp [step, react, inCode, inQuotes, code, ready, hescape, hstrings, dollar, enter]
  · simp [step, react, inCode, inDoubleQuotes, inQuotes, code, ready, hescape, hstrings, enter]

/-- A text that ends between quotes leaves them open. -/
theorem outermostOpen?_of_quoted (h : s.mode = .single ∨ s.mode = .double) :
    s.outermostOpen? ≠ none := by
  intro hclosed
  obtain ⟨-, hspan⟩ := outermostOpen?_eq_none_iff.1 hclosed
  rcases h with h | h <;> simp [openSpan?, h] at hspan

/-! ### Words that the last newline begins -/

/-- A word that is empty until the newline behind the text begins it consists of quotes. The reader
of code comes to the last of them outside the others, so the text ends inside it, or behind an
escape. -/
theorem afterText_emptyWord {d : Dialect} (docs : d.profile.hereDocs = true) :
    ∀ (text : List Char) (s : Nesting), s.mode = .code → s.escaping = false →
      s.lastChar? ≠ some '$' → HereDoc.delimiterFrom none text = [] →
      HereDoc.delimiterFrom none (text ++ ['\n']) ≠ [] →
      (s.afterText d.profile text []).escaping = true ∨
        (s.afterText d.profile text []).outermostOpen? ≠ none
  | [], _, _, _, _, _, longer => absurd rfl longer
  | c :: rest, s, code, ready, dollar, word, longer => by
    by_cases hbackslash : c = '\\'
    · subst hbackslash
      cases rest with
      | nil =>
        left
        simp [afterText_cons, step, react, inCode, code, ready, (Dialect.of_hereDocs docs).1]
      | cons e rest => simp [HereDoc.delimiterFrom_backslash] at word
    rw [List.cons_append] at longer
    rw [HereDoc.delimiterFrom_of_ne _ hbackslash] at word longer
    by_cases hquote : c = '\'' ∨ c = '"'
    · rw [if_pos hquote] at word longer
      obtain ⟨t, ht, hopen, hcloses⟩ := exists_step_quote docs hquote code ready dollar (rest ++ [])
      rw [afterText_cons, ht]
      cases rest with
      | nil => exact .inr (outermostOpen?_of_quoted hopen)
      | cons e rest =>
        rw [HereDoc.delimiterFrom_quoted] at word
        split at word
        case isFalse => exact absurd word (by simp)
        case isTrue he =>
          subst he
          rw [List.cons_append, HereDoc.delimiterFrom_quoted, if_pos rfl] at longer
          have hlast : (t.step d.profile e (rest ++ [])).1.lastChar? ≠ some '$' := by
            intro h
            obtain rfl : e = '$' := Option.some.inj h
            exact absurd hquote (by decide)
          rw [afterText_cons]
          exact afterText_emptyWord docs rest _ (hcloses _).1 (hcloses _).2 hlast word longer
    · rw [if_neg hquote] at word longer
      by_cases hends : HereDoc.endsWord c = true
      · exact absurd (if_pos hends) longer
      · rw [if_neg hends] at word
        exact absurd word (by simp)

/-- An operator and the blanks behind it are read as code. -/
theorem afterText_operator {d : Dialect} (docs : d.profile.hereDocs = true)
    (code : s.mode = .code) (ready : s.escaping = false) (bar : s.lastChar? = some '<')
    {blanks : List Char} (hblanks : ∀ c ∈ blanks, c = '-' ∨ isIndent c = true)
    (ahead : List Char) :
    (s.afterText d.profile ('<' :: blanks) ahead).mode = .code ∧
      (s.afterText d.profile ('<' :: blanks) ahead).escaping = false ∧
      (s.afterText d.profile ('<' :: blanks) ahead).lastChar? ≠ some '$' := by
  obtain ⟨hescape, hcomment, hstrings, hblock⟩ := Dialect.of_hereDocs docs
  have hstep (rest : List Char) :
      s.step d.profile '<' rest = ({ s with last := some ('<', .code) }, .code) := by
    simp [step, react, inCode, code, ready, bar, hescape, hcomment, hblock, Bracket.ofOpener?,
      Bracket.ofCloser?]
  have hone {c : Char} (hc : c ∈ blanks) : c ∈ ['-', ' ', '\t'] := by
    simpa [isIndent] using hblanks c hc
  have hplain : ∀ c ∈ blanks, d.profile.isPlain c = true := by
    intro c hc
    have hall : ['-', ' ', '\t'].all d.profile.isPlain = true := by cases d <;> decide
    exact List.all_eq_true.1 hall c (hone hc)
  rw [afterText_cons, hstep, afterText_plain ahead (by exact code) (by exact ready) hplain]
  refine ⟨code, ready, ?_⟩
  cases hlast : blanks.getLast? with
  | none => simp [lastChar?]
  | some c =>
    have hdollar : c ≠ '$' := by
      rintro rfl
      exact absurd (hone (List.mem_of_getLast? hlast)) (by decide)
    simpa [lastChar?] using hdollar

/-- An operator and a word that is empty until the newline behind the text begins it. -/
theorem afterText_operator_emptyWord {d : Dialect} (docs : d.profile.hereDocs = true)
    (code : s.mode = .code) (ready : s.escaping = false) (bar : s.lastChar? = some '<')
    {blanks word : List Char} (hblanks : ∀ c ∈ blanks, c = '-' ∨ isIndent c = true)
    (hword : HereDoc.delimiterFrom none word = [])
    (longer : HereDoc.delimiterFrom none (word ++ ['\n']) ≠ []) :
    (s.afterText d.profile ('<' :: blanks ++ word) []).escaping = true ∨
      (s.afterText d.profile ('<' :: blanks ++ word) []).outermostOpen? ≠ none := by
  rw [afterText_append]
  obtain ⟨hcode, hready, hdollar⟩ := afterText_operator docs code ready bar hblanks (word ++ [])
  exact afterText_emptyWord docs word _ hcode hready hdollar hword longer

/-- A document whose word runs to the end of the text stays open: no line of a body has begun, or it
waits for ever. -/
theorem outermostOpen?_of_longWord {doc : HereDoc} {operator word : List Char}
    (hline : '\n' ∉ s.lineSoFar) (announced : s.Announced) (hdoc : doc ∈ s.hereDocs)
    (hword : doc.delimiter = HereDoc.delimiterFrom none word) (single : '\n' ∉ operator)
    (longer : HereDoc.delimiterFrom none (word ++ ['\n']) ≠ HereDoc.delimiterFrom none word) :
    (s.afterText p (operator ++ word) []).outermostOpen? ≠ none := by
  by_cases inside : '\n' ∈ word
  · intro hclosed
    have hnewline : '\n' ∈ doc.delimiter :=
      hword ▸ HereDoc.newline_mem_delimiterFrom none word (by simp) inside longer
    exact not_waits_of_outermostOpen? (newline_not_mem_lineSoFar_afterText hline) hclosed
      (waits_afterText hline ⟨doc, hdoc, hnewline⟩)
  · have hsingle : '\n' ∉ operator ++ word := by
      rw [List.mem_append, not_or]
      exact ⟨single, inside⟩
    exact outermostOpen?_of_announced (announced_afterText hsingle announced)

/-- If the newline behind a text makes the word behind an operator longer, the text ends inside
something or behind an escape, whether the operator announces a document there or not. -/
theorem escaping_or_open_of_longerWord {d : Dialect} {marker word : List Char} {tabs : Bool}
    (hline : '\n' ∉ s.lineSoFar) (docs : d.profile.hereDocs = true) (code : s.mode = .code)
    (ready : s.escaping = false) (outside : s.inArithmetic = false)
    (hmarker : ∀ c ∈ marker, c = '-')
    (hreact : s.react d.profile '<' ('<' :: (marker ++ word)) =
      (s.announceHereDoc ('<' :: '<' :: (marker ++ word)), .code))
    (hawait : HereDoc.announced? s.line ('<' :: '<' :: (marker ++ word)) =
      HereDoc.await? tabs s.line word)
    (longer : HereDoc.delimiterFrom none (word.dropWhile isIndent ++ ['\n']) ≠
      HereDoc.delimiterFrom none (word.dropWhile isIndent)) :
    (s.afterText d.profile ('<' :: '<' :: (marker ++ word)) []).escaping = true ∨
      (s.afterText d.profile ('<' :: '<' :: (marker ++ word)) []).outermostOpen? ≠ none := by
  set blanks := marker ++ word.takeWhile isIndent with hblanks
  set more := word.dropWhile isIndent with hmore
  have hrest : '<' :: (marker ++ word) = '<' :: blanks ++ more := by
    rw [hblanks, hmore, List.cons_append, List.append_assoc, List.takeWhile_append_dropWhile]
  have hoperator : ∀ c ∈ blanks, c = '-' ∨ isIndent c = true := by
    intro c hc
    rcases List.mem_append.1 hc with hc | hc
    · exact .inl (hmarker c hc)
    · exact .inr (List.mem_takeWhile_imp hc)
  rw [afterText_cons, List.append_nil]
  set t := (s.step d.profile '<' ('<' :: (marker ++ word))).1 with ht
  cases hdelimiter : HereDoc.delimiterFrom none more with
  | nil =>
    have hnone : HereDoc.announced? s.line ('<' :: '<' :: (marker ++ word)) = none := by
      rw [hawait, HereDoc.await?, ← hmore, hdelimiter]
    obtain ⟨hcode, hready, hbar⟩ :
        t.mode = .code ∧ t.escaping = false ∧ t.lastChar? = some '<' := by
      simp [ht, step, hreact, announceHereDoc, hnone, code, ready, lastChar?]
    rw [hrest]
    exact afterText_operator_emptyWord docs hcode hready hbar hoperator hdelimiter
      fun h ↦ longer (h.trans hdelimiter.symm)
  | cons first letters =>
    have hdoc : HereDoc.announced? s.line ('<' :: '<' :: (marker ++ word)) =
        some ⟨first :: letters, tabs, s.line⟩ := by
      rw [hawait, HereDoc.await?, ← hmore, hdelimiter]
    obtain ⟨hdocs, hmode⟩ :
        t.hereDocs = s.hereDocs ++ [⟨first :: letters, tabs, s.line⟩] ∧ t.mode = .code := by
      simp [ht, step, hreact, announceHereDoc, outside, hdoc, code]
    have single : '\n' ∉ '<' :: blanks := by
      rw [List.mem_cons, not_or]
      exact ⟨by decide, fun h ↦ absurd (hoperator _ h) (by decide)⟩
    have hannounced : t.Announced := by
      rw [Announced, hdocs, hmode]
      simp
    rw [hrest]
    exact .inr (outermostOpen?_of_longWord (newline_not_mem_lineSoFar_step hline) hannounced
      (hdocs ▸ List.mem_append_right _ List.mem_cons_self) hdelimiter.symm single longer)

/-! ### Reading up to the end -/

/-- A character of a text that leaves nothing open is read as if the last line had its newline. -/
theorem step_eq_of_closed {d : Dialect} {c : Char} {rest : List Char} (hline : '\n' ∉ s.lineSoFar)
    (literal : (s.afterText d.profile (c :: rest) []).escaping = false)
    (closed : (s.afterText d.profile (c :: rest) []).outermostOpen? = none) :
    s.step d.profile c (rest ++ ['\n']) = s.step d.profile c rest := by
  rcases step_eq_or_announces d.profile s c rest with heq | ⟨ready, code, rfl, docs, hreact⟩
  · simpa using heq ['\n'] [] (atLineEnd_newline []) atLineEnd_nil
  have hreact' := hreact [] atLineEnd_nil
  rw [List.append_nil] at hreact'
  rw [step, step, hreact _ (atLineEnd_newline []), hreact']
  by_cases harithmetic : s.inArithmetic = true
  · simp [announceHereDoc, harithmetic]
  rw [Bool.not_eq_true] at harithmetic
  rcases HereDoc.announced?_eq_await? rest with hnone | ⟨marker, word, rfl, hmarker, tabs, hawait⟩
  · have hnone' := hnone s.line [] atLineEnd_nil
    rw [List.append_nil] at hnone'
    simp [announceHereDoc, hnone s.line _ (atLineEnd_newline []), hnone']
  have hawait' := hawait s.line [] atLineEnd_nil
  rw [List.append_nil, List.append_nil] at hawait'
  by_cases hsame : HereDoc.delimiterFrom none (word.dropWhile isIndent ++ ['\n']) =
      HereDoc.delimiterFrom none (word.dropWhile isIndent)
  · simp only [announceHereDoc, hawait s.line _ (atLineEnd_newline []), hawait', HereDoc.await?,
      HereDoc.dropWhile_isIndent_append (atLineEnd_newline []), hsame]
  · rcases escaping_or_open_of_longerWord hline docs code ready harithmetic hmarker hreact' hawait'
      hsame with hescaping | hopen
    · exact absurd (literal.symm.trans hescaping) (by decide)
    · exact absurd closed hopen

/-- A text that leaves nothing open is read as if its last line had its newline. -/
theorem marksAhead_newline {d : Dialect} {text : List Char} (offset : Nat)
    (hline : '\n' ∉ s.lineSoFar) (literal : (s.afterText d.profile text []).escaping = false)
    (closed : (s.afterText d.profile text []).outermostOpen? = none) :
    marksAhead d.profile ['\n'] s offset text = marksAhead d.profile [] s offset text := by
  induction text generalizing s offset with
  | nil => rfl
  | cons c rest ih =>
    rw [marksAhead_cons, marksAhead_cons, step_eq_of_closed hline literal closed, List.append_nil]
    rw [afterText_cons, List.append_nil] at literal closed
    rw [ih _ (newline_not_mem_lineSoFar_step hline) literal closed]

end Nesting

end ShellCatalog
