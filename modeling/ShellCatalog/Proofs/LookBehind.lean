import ShellCatalog.Proofs.GoodName
import ShellCatalog.Proofs.Reaction

/-!
# How far reading looks behind

Reading a character looks at one character behind it, the last. Inside double quotes it asks for the
last character and its class: only a dollar sign that is part of the quoted text makes the next
parenthesis a substitution. **Code asks for the character alone**, and so an escaped character is
taken for what it would be without its escape (`ReadTogether`): an escaped dollar sign and a quote
open an ANSI-C quote, an escaped `@` and a quote open a here-string, and an escaped blank lets a
comment begin. An escaped `<` is taken for the first half of an operator, so an announcement behind
it goes unseen.

**There is no other way to tell what was escaped** (`step_behind_escaped`). In every other place the
next character is read as if a letter stood in front of it.
-/

namespace ShellCatalog

/-- The first character changes how code reads the second, and hence what stands open behind it. -/
inductive ReadTogether (p : Profile) : Char → Char → Prop
  | ansiQuote : p.ansiQuotes = true → ReadTogether p '$' '\''
  | hereString {quote : Char} : p.hereStrings = true → quote = '\'' ∨ quote = '"' →
      ReadTogether p '@' quote
  | comment {x : Char} : isSpace x = true ∨ x ∈ [';', '&', '|', '(', ')'] →
      ReadTogether p x p.comment

/-- No angle bracket is read together with what stands in front of it. -/
theorem ReadTogether.ne_angle {d : Dialect} {x c : Char} (h : ReadTogether d.profile x c) :
    c ≠ '<' := by
  cases h with
  | ansiQuote => decide
  | hereString _ hquote => rcases hquote with rfl | rfl <;> decide
  | comment => cases d <;> decide

namespace Nesting

variable {p : Profile} {s : Nesting} {c x a : Char} {rest : List Char} {role role' : CharRole}

/-- The state as if this had been the last character. -/
def withLast (s : Nesting) (last : Char × CharRole) : Nesting :=
  { s with last := some last }

theorem withLast_of_last {last : Char × CharRole} (h : s.last = some last) :
    s.withLast last = s := by
  rw [withLast, ← h]

@[simp] theorem lastChar?_withLast (s : Nesting) (last : Char × CharRole) :
    (s.withLast last).lastChar? = some last.1 := rfl

@[simp] theorem wordMayStart_withLast (s : Nesting) (last : Char × CharRole) :
    (s.withLast last).wordMayStart =
      (isSpace last.1 || last.1 ∈ [';', '&', '|', '(', ')']) := rfl

theorem announceHereDoc_withLast (s : Nesting) (last : Char × CharRole) (text : List Char) :
    (s.withLast last).announceHereDoc text = (s.announceHereDoc text).withLast last := by
  have harithmetic : (s.withLast last).inArithmetic = s.inArithmetic := rfl
  have hline : (s.withLast last).line = s.line := rfl
  rw [announceHereDoc, announceHereDoc, harithmetic, hline]
  split
  · rfl
  · split <;> rfl

theorem endCodeLine_withLast (s : Nesting) (last : Char × CharRole) :
    (s.withLast last).endCodeLine = s.endCodeLine.withLast last := by
  have hdocs : (s.withLast last).hereDocs = s.hereDocs := rfl
  rw [endCodeLine, endCodeLine, hdocs]
  split <;> rfl

theorem closeGroup_withLast (s : Nesting) (last : Char × CharRole) (b : Bracket) :
    (s.withLast last).closeGroup b = (s.closeGroup b).withLast last := by
  have hgroups : (s.withLast last).groups = s.groups := rfl
  rw [closeGroup, closeGroup, hgroups]
  split
  · rfl
  · split
    · split <;> rfl
    · rfl

/-! ### What code asks for -/

/-- Two reactions that differ in the last character at most. -/
def EqButLast (r r' : Nesting × CharRole) : Prop :=
  r.2 = r'.2 ∧ ∀ last, r.1.withLast last = r'.1.withLast last

theorem EqButLast.ite {P : Prop} [Decidable P] {q q' r r' : Nesting × CharRole}
    (pos : P → EqButLast q q') (neg : ¬ P → EqButLast r r') :
    EqButLast (if P then q else r) (if P then q' else r') := by
  split
  · next h => exact pos h
  · next h => exact neg h

/-- Characters that code reads together with none are alike to it, two angle brackets in a row
apart. -/
theorem inCode_withLast (s : Nesting) (rest : List Char) (hx : ¬ ReadTogether p x c)
    (ha : ¬ ReadTogether p a c)
    (shift : c = '<' → p.hereDocs = true → (x = '<' ↔ a = '<')) :
    EqButLast (inCode p (s.withLast (x, role)) c rest)
      (inCode p (s.withLast (a, role')) c rest) := by
  have hstring {y : Char} {r : CharRole} (hy : ¬ ReadTogether p y c) :
      ¬ ((c = '\'' ∨ c = '"') ∧ p.hereStrings ∧ (s.withLast (y, r)).lastChar? = some '@') := by
    rintro ⟨hquote, hstrings, hat⟩
    obtain rfl : y = '@' := Option.some.inj hat
    exact hy (.hereString hstrings hquote)
  have hansi {y : Char} {r : CharRole} (hy : ¬ ReadTogether p y c) (hc : c = '\'') :
      ¬ (p.ansiQuotes ∧ (s.withLast (y, r)).lastChar? = some '$') := by
    rintro ⟨hquotes, hdollar⟩
    obtain rfl : y = '$' := Option.some.inj hdollar
    subst hc
    exact hy (.ansiQuote hquotes)
  have hcomment {y : Char} {r : CharRole} (hy : ¬ ReadTogether p y c) :
      ¬ (c = p.comment ∧ (s.withLast (y, r)).wordMayStart) := by
    rintro ⟨rfl, hword⟩
    rw [wordMayStart_withLast, Bool.or_eq_true, decide_eq_true_eq] at hword
    exact hy (.comment hword)
  have hdoc : (c = '<' ∧ p.hereDocs ∧ (s.withLast (x, role)).lastChar? ≠ some '<') ↔
      (c = '<' ∧ p.hereDocs ∧ (s.withLast (a, role')).lastChar? ≠ some '<') := by
    refine and_congr_right fun hc ↦ and_congr_right fun hdocs ↦ ?_
    rw [lastChar?_withLast, lastChar?_withLast, ne_eq, ne_eq, Option.some.injEq,
      Option.some.injEq, shift hc hdocs]
  unfold inCode
  simp only [hstring hx, hstring ha, hcomment hx, hcomment ha, hdoc, if_false]
  refine .ite (fun _ ↦ ⟨rfl, fun _ ↦ rfl⟩) fun _ ↦ .ite (fun _ ↦ ⟨rfl, fun _ ↦ rfl⟩) fun _ ↦
    .ite (fun hc ↦ ⟨rfl, fun _ ↦ ?_⟩) fun _ ↦ .ite (fun _ ↦ ⟨rfl, fun _ ↦ rfl⟩) fun _ ↦
    .ite (fun _ ↦ ⟨rfl, fun _ ↦ rfl⟩) fun _ ↦ .ite (fun _ ↦ ⟨rfl, fun _ ↦ ?_⟩) fun _ ↦
    .ite (fun _ ↦ ⟨rfl, fun _ ↦ ?_⟩) fun _ ↦ ?_
  · rw [if_neg (hansi hx hc), if_neg (hansi ha hc)]
    rfl
  · rw [announceHereDoc_withLast, announceHereDoc_withLast]
    rfl
  · rw [endCodeLine_withLast, endCodeLine_withLast]
    rfl
  · split
    · exact ⟨rfl, fun _ ↦ rfl⟩
    · refine ⟨rfl, fun _ ↦ ?_⟩
      rw [closeGroup_withLast, closeGroup_withLast]
      rfl
    · exact ⟨rfl, fun _ ↦ rfl⟩

/-! ### What a reaction asks for -/

theorem inQuotes_withLast (escape : Option Char) (quote c : Char) (last last' : Char × CharRole) :
    EqButLast (inQuotes escape quote (s.withLast last) c)
      (inQuotes escape quote (s.withLast last') c) :=
  .ite (fun _ ↦ ⟨rfl, fun _ ↦ rfl⟩) fun _ ↦ .ite (fun _ ↦ ⟨rfl, fun _ ↦ rfl⟩) fun _ ↦
    ⟨rfl, fun _ ↦ rfl⟩

/-- Only a quoted dollar sign counts inside double quotes. -/
theorem inDoubleQuotes_withLast (c : Char) (hx : (x, role) ≠ ('$', .quoted))
    (ha : (a, role') ≠ ('$', .quoted)) :
    EqButLast (inDoubleQuotes p (s.withLast (x, role)) c)
      (inDoubleQuotes p (s.withLast (a, role')) c) := by
  have hdollar {last : Char × CharRole} (h : last ≠ ('$', .quoted)) :
      ¬ (c = '(' ∧ (s.withLast last).last = some ('$', .quoted)) :=
    fun hc ↦ h (Option.some.inj hc.2)
  rw [inDoubleQuotes, inDoubleQuotes, if_neg (hdollar hx), if_neg (hdollar ha)]
  exact .ite (fun _ ↦ ⟨rfl, fun _ ↦ rfl⟩) fun _ ↦ inQuotes_withLast ..

/-- Characters that are read together with none are alike. -/
theorem react_withLast (s : Nesting) (rest : List Char) (hx : (x, role) ≠ ('$', .quoted))
    (ha : (a, role') ≠ ('$', .quoted))
    (code : s.mode = .code → ¬ ReadTogether p x c ∧ ¬ ReadTogether p a c ∧
      (c = '<' → p.hereDocs = true → (x = '<' ↔ a = '<'))) :
    EqButLast ((s.withLast (x, role)).react p c rest) ((s.withLast (a, role')).react p c rest) := by
  refine .ite (fun _ ↦ ⟨rfl, fun _ ↦ rfl⟩) fun _ ↦ ?_
  have hmode (last : Char × CharRole) : (s.withLast last).mode = s.mode := rfl
  rw [hmode, hmode]
  cases h : s.mode with
  | code =>
    obtain ⟨hx, ha, hshift⟩ := code h
    exact inCode_withLast s rest hx ha hshift
  | single | ansi | backquote => exact inQuotes_withLast ..
  | double => exact inDoubleQuotes_withLast c hx ha
  | comment =>
    refine .ite (fun _ ↦ ⟨rfl, fun last ↦ ?_⟩) fun _ ↦ ⟨rfl, fun _ ↦ rfl⟩
    have hcode (l : Char × CharRole) : ({ s.withLast l with mode := .code } : Nesting) =
        ({ s with mode := .code } : Nesting).withLast l := rfl
    rw [hcode, hcode, endCodeLine_withLast, endCodeLine_withLast]
    rfl
  | blockComment progress =>
    cases progress with
    | opening => exact ⟨rfl, fun _ ↦ rfl⟩
    | inside closing => exact .ite (fun _ ↦ ⟨rfl, fun _ ↦ rfl⟩) fun _ ↦ ⟨rfl, fun _ ↦ rfl⟩
  | hereDoc => exact .ite (fun _ ↦ ⟨rfl, fun _ ↦ rfl⟩) fun _ ↦ ⟨rfl, fun _ ↦ rfl⟩
  | hereString quote => exact .ite (fun _ ↦ ⟨rfl, fun _ ↦ rfl⟩) fun _ ↦ ⟨rfl, fun _ ↦ rfl⟩

/-- Behind characters that are read together with none, the next step is the same. -/
theorem step_withLast (s : Nesting) (c : Char) (rest : List Char)
    (hx : (x, role) ≠ ('$', .quoted)) (ha : (a, role') ≠ ('$', .quoted))
    (code : s.mode = .code → ¬ ReadTogether p x c ∧ ¬ ReadTogether p a c ∧
      (c = '<' → p.hereDocs = true → (x = '<' ↔ a = '<'))) :
    (s.withLast (x, role)).step p c rest = (s.withLast (a, role')).step p c rest := by
  obtain ⟨hrole, hstate⟩ := react_withLast s rest hx ha code
  have hstep (t : Nesting) : t.step p c rest =
      ({ (t.react p c rest).1.withLast (c, (t.react p c rest).2) with
          line := if c = '\n' then t.line + 1 else t.line }, (t.react p c rest).2) := rfl
  rw [hstep, hstep, hrole, hstate]
  rfl

/-! ### Behind an escaped character -/

/-- Behind an escaped character no escape waits. -/
theorem escaping_of_escaped (reached : Reached p rest s) (behind : s.last = some (x, .escaped)) :
    s.escaping = false := by
  cases reached with
  | start => exact absurd behind (by simp [start])
  | @step s c rest _ =>
    obtain ⟨t, role, hreaction, hstep⟩ := exists_reaction p s c rest
    rw [hstep] at behind ⊢
    obtain rfl : role = .escaped := (Prod.mk.inj (Option.some.inj behind)).2
    cases hreaction
    rfl

/-- A letter is read together with nothing. -/
theorem not_readTogether_of_isWordChar (letter : isWordChar a = true) :
    ¬ ReadTogether p a c := by
  obtain ⟨hspace, hspecial⟩ := isOrdinary_iff.1 (isOrdinary_of_isWordChar letter)
  intro h
  cases h with
  | ansiQuote => exact absurd letter (by decide)
  | hereString => exact absurd letter (by decide)
  | comment h =>
    rcases h with h | h
    · rw [hspace] at h
      exact Bool.noConfusion h
    · refine hspecial ?_
      simp only [List.mem_cons, List.not_mem_nil, or_false] at h
      rcases h with rfl | rfl | rfl | rfl | rfl <;> decide

section Escaped

variable {d : Dialect}

/-- What a quote opens in code. -/
theorem step_quote {quote : Char} (rest : List Char) (code : s.mode = .code)
    (ready : s.escaping = false) (hquote : quote = '\'' ∨ quote = '"') :
    (s.step d.profile quote rest).2 = .quoteDelim ∧
      (s.step d.profile quote rest).1.mode =
        (if d.profile.hereStrings ∧ s.lastChar? = some '@' then .hereString quote
        else if quote = '\'' then
          if d.profile.ansiQuotes ∧ s.lastChar? = some '$' then .ansi else .single
        else .double) ∧
      (s.step d.profile quote rest).1.hereDocs = s.hereDocs := by
  have hescape : quote ≠ d.profile.escape := by rcases hquote with rfl | rfl <;> cases d <;> decide
  have hopener : quote ≠ '<' := by rcases hquote with rfl | rfl <;> decide
  have hcode : inCode d.profile s quote rest =
      if d.profile.hereStrings ∧ s.lastChar? = some '@' then
        ({ s.enter (.hereString quote) with lineSoFar := [] }, .quoteDelim)
      else if quote = '\'' then
        (s.enter (if d.profile.ansiQuotes ∧ s.lastChar? = some '$' then .ansi else .single),
          .quoteDelim)
      else (s.enter .double, .quoteDelim) := by
    rw [inCode, if_neg hescape, if_neg fun h ↦ hopener h.2.1]
    rcases hquote with rfl | rfl <;> simp
  have hreact : s.react d.profile quote rest = inCode d.profile s quote rest := by
    simp [react, ready, code]
  show (s.react d.profile quote rest).2 = _ ∧ (s.react d.profile quote rest).1.mode = _ ∧
    (s.react d.profile quote rest).1.hereDocs = _
  rw [hreact, hcode]
  split
  · exact ⟨rfl, rfl, rfl⟩
  · split
    · exact ⟨rfl, rfl, rfl⟩
    · exact ⟨rfl, rfl, rfl⟩

/-- Inside a word a hash is code. -/
theorem step_hash_of_inside (rest : List Char) (code : s.mode = .code)
    (ready : s.escaping = false) (inside : s.wordMayStart = false) :
    s.step d.profile '#' rest = ({ s with last := some ('#', .code) }, .code) := by
  have hescape : '#' ≠ d.profile.escape := by cases d <;> decide
  simp [step, react, inCode, code, ready, hescape, inside, Bracket.ofOpener?, Bracket.ofCloser?]

/-- What is read together is read differently behind a letter: a different quote begins, or no
comment does. -/
theorem step_of_readTogether (rest : List Char) (code : s.mode = .code)
    (ready : s.escaping = false) (pair : ReadTogether d.profile x c)
    (letter : isWordChar a = true) (role role' : CharRole) :
    (((s.withLast (x, role)).step d.profile c rest).2 =
        ((s.withLast (a, role')).step d.profile c rest).2 →
      ((s.withLast (x, role)).step d.profile c rest).1.mode ≠
        ((s.withLast (a, role')).step d.profile c rest).1.mode) ∧
      ((s.withLast (x, role)).step d.profile c rest).1.hereDocs =
        ((s.withLast (a, role')).step d.profile c rest).1.hereDocs := by
  have hdollar : a ≠ '$' := by rintro rfl; exact absurd letter (by decide)
  have hat : a ≠ '@' := by rintro rfl; exact absurd letter (by decide)
  -- What quotes open, whatever the last character.
  have hquotes {quote : Char} (hquote : quote = '\'' ∨ quote = '"') (last : Char × CharRole) :=
    step_quote (s := s.withLast last) (d := d) rest code ready hquote
  cases pair with
  | ansiQuote ansi =>
    obtain ⟨-, hmode, hdocs⟩ := hquotes (.inl rfl) ('$', role)
    obtain ⟨-, hmode', hdocs'⟩ := hquotes (.inl rfl) (a, role')
    refine ⟨fun _ ↦ ?_, hdocs.trans hdocs'.symm⟩
    rw [hmode, hmode']
    simp [ansi, hdollar, hat]
  | hereString strings hquote =>
    obtain ⟨-, hmode, hdocs⟩ := hquotes hquote ('@', role)
    obtain ⟨-, hmode', hdocs'⟩ := hquotes hquote (a, role')
    refine ⟨fun _ ↦ ?_, hdocs.trans hdocs'.symm⟩
    rw [hmode, hmode']
    rcases hquote with rfl | rfl <;> simp [strings, hdollar, hat]
  | comment starts =>
    have hhash : d.profile.comment = '#' := by cases d <;> rfl
    have hword : ¬ (isSpace a = true ∨ a ∈ [';', '&', '|', '(', ')']) := fun h ↦
      not_readTogether_of_isWordChar letter (ReadTogether.comment h : ReadTogether d.profile a _)
    have hinside : (s.withLast (a, role')).wordMayStart = false := by
      rw [wordMayStart_withLast, ← Bool.not_eq_true, Bool.or_eq_true, decide_eq_true_eq]
      exact hword
    have hcomment := step_hash (d := d) (s := s.withLast (x, role)) rest code ready
      (by simpa [wordMayStart_withLast] using starts)
    have hplain := step_hash_of_inside (d := d) (s := s.withLast (a, role')) rest code ready hinside
    rw [hhash, hcomment, hplain]
    exact ⟨CharRole.noConfusion, rfl⟩

/-- An angle bracket announces a here-document unless one stands in front of it. -/
theorem react_angle (rest : List Char) (code : s.mode = .code) (ready : s.escaping = false)
    (docs : d.profile.hereDocs = true) :
    s.react d.profile '<' rest =
      (if s.lastChar? = some '<' then s else s.announceHereDoc ('<' :: rest), .code) := by
  have hprofile : '<' ≠ d.profile.escape ∧ '<' ≠ d.profile.comment ∧
      d.profile.blockComments = false := by
    cases d with
    | pwsh => exact absurd docs (by decide)
    | bash | zsh | sh => decide
  obtain ⟨hescape, hcomment, hblock⟩ := hprofile
  by_cases hlast : s.lastChar? = some '<'
  · simp [react, ready, code, inCode, hescape, hcomment, hblock, docs, hlast, Bracket.ofOpener?,
      Bracket.ofCloser?]
  · simp [react, ready, code, inCode, hescape, hcomment, hblock, docs, hlast]

/-- Behind an escaped angle bracket an announcement goes unseen, and nothing else does. -/
theorem step_behind_angle (rest : List Char) (code : s.mode = .code) (ready : s.escaping = false)
    (docs : d.profile.hereDocs = true) (other : a ≠ '<') (role role' : CharRole) :
    ((s.withLast ('<', role)).step d.profile '<' rest).2 =
        ((s.withLast (a, role')).step d.profile '<' rest).2 ∧
      ((s.withLast ('<', role)).step d.profile '<' rest).1.mode =
        ((s.withLast (a, role')).step d.profile '<' rest).1.mode ∧
      ((s.withLast ('<', role)).step d.profile '<' rest).1.groups =
        ((s.withLast (a, role')).step d.profile '<' rest).1.groups ∧
      ((s.withLast ('<', role)).step d.profile '<' rest).1.hereDocs = s.hereDocs ∧
      ((s.withLast (a, role')).step d.profile '<' rest).1.hereDocs =
        (s.announceHereDoc ('<' :: rest)).hereDocs := by
  have hreact (last : Char × CharRole) := react_angle (s := s.withLast last) rest code ready docs
  simp only [step, hreact, lastChar?_withLast, if_true, Option.some.injEq, other, if_false,
    announceHereDoc_withLast]
  exact ⟨trivial, (mode_announceHereDoc s _).symm, (groups_announceHereDoc s _).symm, rfl, rfl⟩

/-- The character behind an escaped one is read as if a letter stood in front of it, unless code
reads the two together or announces a here-document with the first `<` behind an escaped one. -/
theorem step_behind_escaped (reached : Reached d.profile (c :: rest) s)
    (behind : s.last = some (x, .escaped)) (letter : isWordChar a = true) (role : CharRole) :
    (((s.step d.profile c rest).2 = ((s.withLast (a, role)).step d.profile c rest).2 ∧
        (s.step d.profile c rest).1.mode = ((s.withLast (a, role)).step d.profile c rest).1.mode ∧
        (s.step d.profile c rest).1.groups =
          ((s.withLast (a, role)).step d.profile c rest).1.groups) ↔
      ¬ (s.mode = .code ∧ ReadTogether d.profile x c)) ∧
    ((s.step d.profile c rest).1.hereDocs =
        ((s.withLast (a, role)).step d.profile c rest).1.hereDocs ↔
      ¬ (s.mode = .code ∧ d.profile.hereDocs = true ∧ x = '<' ∧ c = '<' ∧
        (s.announceHereDoc (c :: rest)).hereDocs ≠ s.hereDocs)) := by
  have hready := escaping_of_escaped reached behind
  have hs : s.withLast (x, .escaped) = s := withLast_of_last behind
  have hletter (c : Char) : ¬ ReadTogether d.profile a c := not_readTogether_of_isWordChar letter
  have hangle : a ≠ '<' := by rintro rfl; exact absurd letter (by decide)
  have hdollar : (a, role) ≠ ('$', .quoted) := by
    rintro ⟨⟩
    exact absurd letter (by decide)
  by_cases hpair : s.mode = .code ∧ ReadTogether d.profile x c
  · obtain ⟨hdiffers, hdocs⟩ :=
      step_of_readTogether rest hpair.1 hready hpair.2 letter .escaped role
    rw [hs] at hdiffers hdocs
    exact ⟨iff_of_false (fun h ↦ hdiffers h.1 h.2.1) (not_not_intro hpair),
      iff_of_true hdocs fun h ↦ hpair.2.ne_angle h.2.2.2.1⟩
  by_cases hshift : s.mode = .code ∧ d.profile.hereDocs = true ∧ x = '<' ∧ c = '<'
  · obtain ⟨hcode, hdocs, rfl, rfl⟩ := hshift
    obtain ⟨hrole, hmode, hgroups, hqueue, hqueue'⟩ :=
      step_behind_angle rest hcode hready hdocs hangle .escaped role
    rw [hs] at hrole hmode hgroups hqueue
    refine ⟨iff_of_true ⟨hrole, hmode, hgroups⟩ hpair, ?_⟩
    rw [hqueue, hqueue']
    simp [hcode, hdocs, eq_comm]
  · have heq : s.step d.profile c rest = (s.withLast (a, role)).step d.profile c rest := by
      have hescaped : (x, CharRole.escaped) ≠ ('$', .quoted) := by simp
      have hstep := step_withLast (p := d.profile) s c rest hescaped hdollar fun hcode ↦
        ⟨fun h ↦ hpair ⟨hcode, h⟩, hletter c, fun hc hdocs ↦
          iff_of_false (fun hx ↦ hshift ⟨hcode, hdocs, hx, hc⟩) hangle⟩
      rwa [hs] at hstep
    rw [heq]
    exact ⟨iff_of_true ⟨rfl, rfl, rfl⟩ hpair,
      iff_of_true rfl fun h ↦ hshift ⟨h.1, h.2.1, h.2.2.1, h.2.2.2.1⟩⟩

/-- A hash behind an escaped blank begins a comment, which behind a letter it does not. -/
theorem step_behind_escaped_blank :
    let s := (start 1).afterText Dialect.bash.profile "alias a=\\ ".toList ['#']
    ¬ ((s.step Dialect.bash.profile '#' []).2 =
        ((s.withLast ('b', .code)).step Dialect.bash.profile '#' []).2 ∧
      (s.step Dialect.bash.profile '#' []).1.mode =
        ((s.withLast ('b', .code)).step Dialect.bash.profile '#' []).1.mode ∧
      (s.step Dialect.bash.profile '#' []).1.groups =
        ((s.withLast ('b', .code)).step Dialect.bash.profile '#' []).1.groups) := by
  intro s same
  have reached : Reached Dialect.bash.profile ['#'] s := reached_iff.2 ⟨1, _, rfl⟩
  have behind : s.last = some (' ', .escaped) := by decide
  have pair : s.mode = .code ∧ ReadTogether Dialect.bash.profile ' ' '#' :=
    ⟨by decide, .comment (.inl (by decide))⟩
  exact (step_behind_escaped reached behind (by decide) .code).1.1 same pair

end Escaped

end Nesting

end ShellCatalog
