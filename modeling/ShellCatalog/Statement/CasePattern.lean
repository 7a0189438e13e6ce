import ShellCatalog.Mark

/-!
# Case patterns in front of a command

An arm of a `case` command begins with alternatives separated by `|` and ended by `)`, each a single
word, and an opening parenthesis may stand before the first. Statements are cut at bars as well, but
a bar in a pattern that stands in parentheses is inside a group, so such a pattern stays whole.

The recogniser walks the marks and remembers only where it is in the current alternative
(`PatternPlace`). What is quoted or escaped goes on with a word, whatever character it is; a comment
ends the search, and so does any code that cannot stand in a word. The closing parenthesis of the
pattern is the first one behind which no group is open.

The lemmas below say what one mark does and what a word of code does. A word is read to its end
(`casePatternFrom_word`); two words with nothing but a blank between them
(`casePatternFrom_twoWords`) and a word in front of a separator (`casePatternFrom_stopped`) begin no
pattern. What the patterns are is said by a grammar (`ShellCatalog.Statement.PatternGrammar`).
-/

namespace ShellCatalog

/-- Where a reader is in an alternative of a case pattern. -/
inductive PatternPlace
  /-- Before its word. -/
  | before
  /-- Within its word. -/
  | inWord
  /-- In the blanks after its word. -/
  | after
  deriving DecidableEq, Repr

/-- The length of the case pattern that the marks continue, in characters, its closing parenthesis
included. -/
def casePatternFrom (place : PatternPlace) : List Mark → Option Nat
  | [] => none
  | m :: rest =>
    let continuing (next : PatternPlace) := (casePatternFrom next rest).map (· + 1)
    if m.role = .comment then none
    else if m.role ≠ .code then
      if place = .after then none else continuing .inWord
    else if m.char = ')' ∧ m.depth = 0 then
      if place = .before then none else some 1
    else if m.char = '|' ∧ place ≠ .before then continuing .before
    else if isSpace m.char then continuing (if place = .before then .before else .after)
    else if m.char ∈ ['(', ')', '{', '}', ';', '&', '|', '<', '>', '='] then none
    else if place = .after then none
    else continuing .inWord

/-- The length in characters of the case pattern at the start of a statement. -/
def casePatternLength? (p : Profile) (statement : List Char) : Option Nat :=
  let ms := marks p statement
  match statement with
  | '(' :: _ => (casePatternFrom .before ms.tail).map (· + 1)
  | _ => casePatternFrom .before ms

theorem casePatternLength?_of_ne {p : Profile} {c : Char} {rest : List Char} (hc : c ≠ '(') :
    casePatternLength? p (c :: rest) = casePatternFrom .before (marks p (c :: rest)) := by
  unfold casePatternLength?
  split
  · next heq => exact absurd (List.cons.inj heq).1 hc
  · rfl

/-! ### One mark -/

section Mark

variable {place : PatternPlace} {m : Mark} (rest : List Mark)

/-- A mark that neither separates nor groups is read into a word. -/
theorem casePatternFrom_inWord (hafter : place ≠ .after) (visible : m.role ≠ .comment)
    (plain : m.role = .code → isSpace m.char = false ∧
      m.char ∉ ['(', ')', '{', '}', ';', '&', '|', '<', '>', '=']) :
    casePatternFrom place (m :: rest) = (casePatternFrom .inWord rest).map (· + 1) := by
  rw [casePatternFrom]
  by_cases hrole : m.role = .code
  · obtain ⟨hspace, hchar⟩ := plain hrole
    simp only [List.mem_cons, List.not_mem_nil, or_false, not_or] at hchar
    simp [hrole, hspace, hchar, hafter]
  · simp [hrole, visible, hafter]

/-- A blank leaves the word in front of it, if there is one. -/
theorem casePatternFrom_space (role : m.role = .code) (blank : isSpace m.char = true) :
    casePatternFrom place (m :: rest) =
      (casePatternFrom (if place = .before then .before else .after) rest).map (· + 1) := by
  have hclose : m.char ≠ ')' := fun h ↦ absurd blank (by rw [h]; decide)
  have hbar : m.char ≠ '|' := fun h ↦ absurd blank (by rw [h]; decide)
  simp [casePatternFrom, role, blank, hclose, hbar]

/-- Behind a bar the next alternative begins. -/
theorem casePatternFrom_bar (hbefore : place ≠ .before) (role : m.role = .code)
    (char : m.char = '|') :
    casePatternFrom place (m :: rest) = (casePatternFrom .before rest).map (· + 1) := by
  simp [casePatternFrom, role, char, hbefore]

/-- A closing parenthesis that leaves no group open ends the pattern. -/
theorem casePatternFrom_closing (hbefore : place ≠ .before) (role : m.role = .code)
    (char : m.char = ')') (depth : m.depth = 0) :
    casePatternFrom place (m :: rest) = some 1 := by
  simp [casePatternFrom, role, char, depth, hbefore]

end Mark

/-! ### Words of code -/

/-- A mark of code that goes on with a word of a case pattern. -/
def Mark.continuesPattern (m : Mark) : Prop :=
  m.role = .code ∧ isSpace m.char = false ∧
    m.char ∉ ['(', ')', '{', '}', ';', '&', '|', '<', '>', '=']

theorem Mark.continuesPattern.casePatternFrom_eq {place : PatternPlace} {m : Mark}
    (h : m.continuesPattern) (rest : List Mark) (hafter : place ≠ .after) :
    casePatternFrom place (m :: rest) = (casePatternFrom .inWord rest).map (· + 1) :=
  casePatternFrom_inWord rest hafter (by simp [h.1]) fun _ ↦ h.2

/-- A word in front is read to its end. -/
theorem casePatternFrom_word {place : PatternPlace} {run : List Mark} (rest : List Mark)
    (hafter : place ≠ .after) (full : run ≠ []) (hrun : ∀ n ∈ run, n.continuesPattern) :
    casePatternFrom place (run ++ rest) =
      (casePatternFrom .inWord rest).map (· + run.length) := by
  induction run generalizing place with
  | nil => exact absurd rfl full
  | cons n run ih =>
    have hnext : casePatternFrom .inWord (run ++ rest) =
        (casePatternFrom .inWord rest).map (· + run.length) := by
      cases run with
      | nil => simp
      | cons k run => exact ih (by simp) (by simp) fun l hl ↦ hrun l (List.mem_cons_of_mem _ hl)
    rw [List.cons_append, (hrun n List.mem_cons_self).casePatternFrom_eq _ hafter, hnext]
    simp [Function.comp_def, Nat.add_assoc]

/-! ### What is no pattern -/

/-- Behind the blank after a word only a bar or a closing parenthesis goes on with a case
pattern. -/
theorem casePatternFrom_twoWords {place : PatternPlace} {run : List Mark} {space m : Mark}
    {rest : List Mark} (hplace : run = [] → place = .inWord) (hafter : place ≠ .after)
    (hrun : ∀ n ∈ run, n.continuesPattern) (hspace : space.role = .code ∧ space.char = ' ')
    (hm : isSpace m.char = false ∧ m.char ≠ ')' ∧ m.char ≠ '|') :
    casePatternFrom place (run ++ space :: m :: rest) = none := by
  induction run generalizing place with
  | nil =>
    obtain ⟨hvisible, hclose, hbar⟩ := hm
    have hsecond : casePatternFrom .after (m :: rest) = none := by
      simp [casePatternFrom, hvisible, hclose, hbar]
    rw [List.nil_append, hplace rfl,
      casePatternFrom_space _ hspace.1 (by rw [hspace.2]; decide), if_neg (by decide), hsecond]
    rfl
  | cons n run ih =>
    have hnext : casePatternFrom .inWord (run ++ space :: m :: rest) = none :=
      ih (fun _ ↦ rfl) (by simp) fun k hk ↦ hrun k (List.mem_cons_of_mem _ hk)
    rw [List.cons_append, (hrun n List.mem_cons_self).casePatternFrom_eq _ hafter, hnext]
    rfl

/-- A bracket, a separator, a redirection or an equals sign in code ends what could be a pattern. -/
theorem casePatternFrom_stopped {place : PatternPlace} {run rest : List Mark} {m : Mark}
    (hafter : place ≠ .after) (hrun : ∀ n ∈ run, n.continuesPattern) (role : m.role = .code)
    (hm : m.char ∈ ['(', '{', '}', ';', '&', '<', '>', '=']) :
    casePatternFrom place (run ++ m :: rest) = none := by
  induction run generalizing place with
  | nil =>
    simp only [List.mem_cons, List.not_mem_nil, or_false] at hm
    rw [List.nil_append, casePatternFrom]
    rcases hm with h | h | h | h | h | h | h | h <;> simp [role, h, isSpace]
  | cons n run ih =>
    have hnext : casePatternFrom .inWord (run ++ m :: rest) = none :=
      ih (by simp) fun k hk ↦ hrun k (List.mem_cons_of_mem _ hk)
    rw [List.cons_append, (hrun n List.mem_cons_self).casePatternFrom_eq _ hafter, hnext]
    rfl

end ShellCatalog
