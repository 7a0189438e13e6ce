import ShellCatalog.Proofs.GoodName
import ShellCatalog.Statement.Leading

/-!
# What stands at the start of a command

Before a statement is looked at as a command, keywords, the head of a case command and case patterns
are dropped from its front. Here are the reasons why nothing is dropped from a command that begins
with an ordinary word (`afterLeading?_twoWords`).

* The word is no keyword. The keywords of conditionals and loops are the same in every dialect that
  has some (`Dialect.any_clauseWords_eq_false`), so none of them has to be named.
* It is not `case`, and a keyword is never found at the start of a longer word
  (`bind_skipSpaces?_after?`).
* It begins no pattern, because the word behind it does not go on with one
  (`casePatternLength?_twoWords`), or because a parenthesis opens directly behind it
  (`casePatternLength?_paren`).

Nothing is dropped in front of a brace either (`afterLeading?_brace`).
-/

namespace ShellCatalog

section Ordinary

variable {d : Dialect} {word : List Char}

theorem Dialect.isPlain_of_isOrdinary {c : Char} (d : Dialect) (h : isOrdinary c = true) :
    d.profile.isPlain c = true :=
  (Profile.isBare_iff.1 (d.isBare_of_isOrdinary h)).1

/-- The marks of a text that begins with plain characters. -/
theorem marks_plain_append {p : Profile} {text : List Char} (more : List Char)
    (plain : ∀ c ∈ text, p.isPlain c = true) :
    marks p (text ++ more) =
      marksAhead p more (.start 1) 0 text ++
        marksFrom p { Nesting.start 1 with last := text.getLast?.map fun c ↦ (c, CharRole.code) }
          (0 + byteLength text) more := by
  rw [marks, marksFrom_append, Nesting.afterMarks_marksAhead,
    Nesting.afterText_plain _ rfl rfl plain]
  congr 2
  cases text.getLast? <;> rfl

/-- Ordinary characters go on with a word of a case pattern. -/
theorem continuesPattern_of_mem {s : Nesting} {m : Mark} {ahead : List Char} {offset : Nat}
    (code : s.mode = .code) (ready : s.escaping = false)
    (ordinary : ∀ c ∈ word, isOrdinary c = true)
    (hm : m ∈ marksAhead d.profile ahead s offset word) : m.continuesPattern := by
  obtain ⟨hrole, hchar, -⟩ := Nesting.mem_marksAhead_plain code ready
    (fun c hc ↦ d.isPlain_of_isOrdinary (ordinary c hc)) hm
  obtain ⟨hvisible, hspecial⟩ := isOrdinary_iff.1 (ordinary _ hchar)
  simp only [specialChars, List.mem_cons, List.not_mem_nil, or_false, not_or] at hspecial
  exact ⟨hrole, hvisible, by simp [hspecial]⟩

/-- A statement that does not begin with a parenthesis is searched from its first character for a
pattern. -/
theorem casePatternLength?_of_isOrdinary {p : Profile} {rest : List Char} (full : word ≠ [])
    (ordinary : ∀ c ∈ word, isOrdinary c = true) :
    casePatternLength? p (word ++ rest) = casePatternFrom .before (marks p (word ++ rest)) := by
  cases word with
  | nil => exact absurd rfl full
  | cons c word =>
    refine casePatternLength?_of_ne ?_
    rintro rfl
    exact absurd (ordinary '(' List.mem_cons_self) (by decide)

/-- Two words, the second of which begins neither with a bar nor with a closing parenthesis, begin
no pattern. -/
theorem casePatternLength?_twoWords {c : Char} (d : Dialect) (rest : List Char) (full : word ≠ [])
    (ordinary : ∀ c ∈ word, isOrdinary c = true) (hc : isSpace c = false ∧ c ≠ ')' ∧ c ≠ '|') :
    casePatternLength? d.profile (word ++ ' ' :: c :: rest) = none := by
  rw [casePatternLength?_of_isOrdinary full ordinary,
    marks_plain_append _ fun c hc ↦ d.isPlain_of_isOrdinary (ordinary c hc), marksFrom_cons,
    Nesting.step_plain _ rfl rfl d.isPlain_space, marksFrom_cons]
  refine casePatternFrom_twoWords (fun h ↦ ?_) (by simp)
    (fun m hm ↦ continuesPattern_of_mem rfl rfl ordinary hm) ⟨rfl, rfl⟩ hc
  have htext := congrArg Mark.text h
  rw [text_marksAhead] at htext
  exact absurd htext full

/-- A word and an opening parenthesis begin no pattern. -/
theorem casePatternLength?_paren (d : Dialect) (rest : List Char) (full : word ≠ [])
    (ordinary : ∀ c ∈ word, isOrdinary c = true) :
    casePatternLength? d.profile (word ++ '(' :: rest) = none := by
  have hopen : d.profile.escape ≠ '(' ∧ d.profile.comment ≠ '(' := by
    cases d <;> decide
  rw [casePatternLength?_of_isOrdinary full ordinary,
    marks_plain_append _ fun c hc ↦ d.isPlain_of_isOrdinary (ordinary c hc), marksFrom_cons,
    Nesting.step_opener _ rfl rfl rfl hopen.1 hopen.2]
  exact casePatternFrom_stopped (by simp)
    (fun m hm ↦ continuesPattern_of_mem rfl rfl ordinary hm) rfl (by simp)

/-- The keywords of conditionals and loops are the same in every dialect that has some. -/
theorem Dialect.any_clauseWords_eq_false (d : Dialect)
    (other : word ∉ ["then".toList, "else".toList, "do".toList]) :
    d.profile.clauseWords.any (d.profile.isKeyword word) = false := by
  simp only [List.mem_cons, List.not_mem_nil, or_false, not_or] at other
  cases d with
  | pwsh => rfl
  | bash | zsh | sh =>
    simpa [Dialect.profile, Profile.bash, Profile.zsh, Profile.sh, Profile.isKeyword] using other

/-- A word that is none of the keywords of conditionals and loops stays. -/
theorem afterKeyword?_of_word {p : Profile} (rest : List Char)
    (visible : ∀ c ∈ word, isSpace c = false ∧ c ≠ ';')
    (other : p.clauseWords.any (p.isKeyword word) = false) :
    afterKeyword? p (word ++ ' ' :: rest) = none := by
  have hcut : cutWhile (fun c ↦ !isSpace c && c != ';') (word ++ ' ' :: rest) =
      (word, ' ' :: rest) :=
    cutWhile_append (fun c hc ↦ by simp [visible c hc])
      (by simp [show isSpace ' ' = true by decide])
  unfold afterKeyword?
  rw [hcut]
  split
  · rfl
  · next heq =>
    cases heq
    exact if_neg (by rw [other]; exact Bool.false_ne_true)

/-- A word is not found, with a blank behind it, at the start of a visible text and a character that
is not in the word, unless it is the visible text. -/
theorem bind_skipSpaces?_after? {visible rest : List Char} {x : Char} (hword : x ∉ word)
    (hvisible : ∀ c ∈ visible, isSpace c = false) (hx : word = visible → isSpace x = false) :
    (after? word (visible ++ x :: rest)).bind skipSpaces? = none := by
  cases hafter : after? word (visible ++ x :: rest) with
  | none => rfl
  | some behind =>
    rw [after?_eq_some_iff] at hafter
    show skipSpaces? behind = none
    rcases List.append_eq_append_iff.1 hafter with ⟨more, rfl, heq⟩ | ⟨more, rfl, rfl⟩
    · cases more with
      | nil =>
        rw [List.nil_append] at heq
        rw [← heq]
        simp [skipSpaces?, hx (List.append_nil _)]
      | cons c more =>
        rw [List.cons_append, List.cons.injEq] at heq
        exact absurd (List.mem_append_right visible (heq.1 ▸ List.mem_cons_self)) hword
    · cases more with
      | nil => simp [skipSpaces?, hx (List.append_nil _).symm]
      | cons c more =>
        have hc : isSpace c = false := hvisible c (by simp)
        simp [skipSpaces?, hc]

/-- Nothing is dropped in front of an ordinary word and a second one, when the first is no keyword
and the second does not go on with a pattern. -/
theorem afterLeading?_twoWords {c : Char} (d : Dialect) (rest : List Char) (full : word ≠ [])
    (ordinary : ∀ c ∈ word, isOrdinary c = true)
    (other : word ∉ ["then".toList, "else".toList, "do".toList, "case".toList])
    (hc : isSpace c = false ∧ c ≠ ')' ∧ c ≠ '|') :
    afterLeading? d.profile (word ++ ' ' :: c :: rest) = none := by
  simp only [List.mem_cons, List.not_mem_nil, or_false, not_or] at other
  obtain ⟨hthen, helse, hdo, hcase⟩ := other
  have hclause : d.profile.clauseWords.any (d.profile.isKeyword word) = false :=
    d.any_clauseWords_eq_false (by
      simp only [List.mem_cons, List.not_mem_nil, or_false, not_or]
      exact ⟨hthen, helse, hdo⟩)
  have hkeyword : afterKeyword? d.profile (word ++ ' ' :: c :: rest) = none := by
    refine afterKeyword?_of_word _ (fun e he ↦ ?_) hclause
    exact ⟨(isOrdinary_iff.1 (ordinary e he)).1, ne_of_isOrdinary (ordinary e he) (by decide)⟩
  have hhead : caseHead? (word ++ ' ' :: c :: rest) = none := by
    rw [caseHead?, bind_skipSpaces?_after? (by decide)
      (fun e he ↦ (isOrdinary_iff.1 (ordinary e he)).1) fun h ↦ absurd h.symm hcase]
    rfl
  have hpattern := casePatternLength?_twoWords d rest full ordinary hc
  rw [afterLeading?, hkeyword, afterCase?, hhead, hpattern]
  split <;> rfl

end Ordinary

/-- Nothing is dropped in front of a brace. -/
theorem afterLeading?_brace (d : Dialect) (rest : List Char) :
    afterLeading? d.profile ('{' :: rest) = none := by
  have hkeyword : afterKeyword? d.profile ('{' :: rest) = none := by
    have hcut : cutWhile (fun c ↦ !isSpace c && c != ';') ('{' :: rest) =
        ('{' :: rest.takeWhile fun c ↦ !isSpace c && c != ';',
          rest.dropWhile fun c ↦ !isSpace c && c != ';') := rfl
    rw [afterKeyword?, hcut]
    exact if_neg (by simp [d.any_clauseWords_eq_false])
  have hhead : caseHead? ('{' :: rest) = none := rfl
  have hpattern : casePatternLength? d.profile ('{' :: rest) = none := by
    have hopen : d.profile.escape ≠ '{' ∧ d.profile.comment ≠ '{' := by cases d <;> decide
    rw [casePatternLength?_of_ne (by decide), marks, marksFrom_cons,
      Nesting.step_opener _ rfl rfl rfl hopen.1 hopen.2]
    have hnone : ∀ n ∈ ([] : List Mark), n.continuesPattern := List.forall_mem_nil _
    exact casePatternFrom_stopped (by simp) hnone rfl (by simp)
  rw [afterLeading?, hkeyword, afterCase?, hhead, hpattern]
  split <;> rfl

end ShellCatalog
