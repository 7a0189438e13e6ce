import ShellCatalog.Proofs.BodyMate
import ShellCatalog.Proofs.BodyQueue
import ShellCatalog.Proofs.ClosedStatements
import ShellCatalog.Statement.PatternGrammar

/-!
# What is read as a case pattern

The reader of case patterns knows no more than its place in an alternative, and the grammar knows
nothing of a reader. They agree all the same: a statement has a case pattern exactly if some
beginning of it is one, and there is at most one such beginning
(`casePattern_found_iff`).

**Between the two stands the rest of a pattern** (`Completes`): what may follow at each place. The
reader accepts it mark by mark (`casePatternFrom_eq_some_iff`). The grammar is put together from the
other side: at each place, what has been read of the alternative and the rest of a pattern make a
pattern (`Completes.isClosedPattern`).
-/

namespace ShellCatalog

/-- The marks are the rest of a case pattern, at this place in an alternative. -/
inductive Completes : PatternPlace → List Mark → Prop
  | word {place : PatternPlace} {m : Mark} {ms : List Mark} : place ≠ .after →
      m.isInPatternWord → Completes .inWord ms → Completes place (m :: ms)
  | lead {m : Mark} {ms : List Mark} : m.isCodeSpace → Completes .before ms →
      Completes .before (m :: ms)
  | trail {place : PatternPlace} {m : Mark} {ms : List Mark} : place ≠ .before →
      m.isCodeSpace → Completes .after ms → Completes place (m :: ms)
  | bar {place : PatternPlace} {m : Mark} {ms : List Mark} : place ≠ .before →
      m.isCode '|' → Completes .before ms → Completes place (m :: ms)
  | closing {place : PatternPlace} {m : Mark} : place ≠ .before → m.isCode ')' → m.depth = 0 →
      Completes place [m]

/-- What has been read of an alternative at this place in it. -/
def PatternPlace.HasRead : PatternPlace → List Mark → Prop
  | .before, front => ∀ m ∈ front, m.isCodeSpace
  | .inWord, front => ∃ lead word, front = lead ++ word ∧ word ≠ [] ∧
      (∀ m ∈ lead, m.isCodeSpace) ∧ ∀ m ∈ word, m.isInPatternWord
  | .after, front => IsAlternative front

/-- The first `k` characters of the statement are a case pattern. -/
def IsPatternFront (p : Profile) (statement : List Char) (k : Nat) : Prop :=
  k ≤ statement.length ∧ IsCasePattern ((marks p statement).take k)

variable {place : PatternPlace} {m : Mark} {front ms : List Mark} {statement : List Char} {k : Nat}

/-! ### The reader accepts what completes a pattern -/

theorem Completes.casePatternFrom_append (h : Completes place front) (rest : List Mark) :
    casePatternFrom place (front ++ rest) = some front.length := by
  induction h with
  | word hafter hm _ ih =>
    rw [List.cons_append, casePatternFrom_inWord _ hafter hm.1 hm.2, ih]
    rfl
  | lead hm _ ih =>
    rw [List.cons_append, casePatternFrom_space _ hm.1 hm.2, if_pos rfl, ih]
    rfl
  | trail hbefore hm _ ih =>
    rw [List.cons_append, casePatternFrom_space _ hm.1 hm.2, if_neg hbefore, ih]
    rfl
  | bar hbefore hm _ ih =>
    rw [List.cons_append, casePatternFrom_bar _ hbefore hm.1 hm.2, ih]
    rfl
  | closing hbefore hm hdepth => exact casePatternFrom_closing _ hbefore hm.1 hm.2 hdepth

/-- What the reader accepts completes a pattern. -/
theorem exists_completes (h : casePatternFrom place ms = some k) :
    ∃ front rest, ms = front ++ rest ∧ front.length = k ∧ Completes place front := by
  induction ms generalizing place k with
  | nil => simp [casePatternFrom] at h
  | cons m ms ih =>
    have hcontinue {next : PatternPlace}
        (add : ∀ {ms}, Completes next ms → Completes place (m :: ms))
        (h : (casePatternFrom next ms).map (· + 1) = some k) :
        ∃ front rest, m :: ms = front ++ rest ∧ front.length = k ∧ Completes place front := by
      obtain ⟨n, hn, rfl⟩ := Option.map_eq_some_iff.1 h
      obtain ⟨front, rest, rfl, rfl, hfront⟩ := ih hn
      exact ⟨m :: front, rest, rfl, rfl, add hfront⟩
    rw [casePatternFrom] at h
    split at h
    · simp at h
    next hvisible =>
    split at h
    · next hcode =>
      split at h
      · simp at h
      · next hafter => exact hcontinue (.word hafter ⟨hvisible, fun hrole ↦ absurd hrole hcode⟩) h
    next hcode =>
    replace hcode : m.role = .code := not_not.1 hcode
    split at h
    · next hclose =>
      split at h
      · simp at h
      · next hbefore =>
        obtain rfl := Option.some.inj h
        exact ⟨[m], ms, rfl, rfl, .closing hbefore ⟨hcode, hclose.1⟩ hclose.2⟩
    split at h
    · next hbar => exact hcontinue (.bar hbar.2 ⟨hcode, hbar.1⟩) h
    split at h
    · next hspace =>
      split at h
      · next hbefore =>
        subst hbefore
        exact hcontinue (.lead ⟨hcode, hspace⟩) h
      · next hbefore => exact hcontinue (.trail hbefore ⟨hcode, hspace⟩) h
    next hspace =>
    split at h
    · simp at h
    next hspecial =>
    split at h
    · simp at h
    · next hafter =>
      exact hcontinue (.word hafter ⟨hvisible, fun _ ↦ ⟨by simpa using hspace, hspecial⟩⟩) h

/-- The reader accepts exactly what completes a pattern. -/
theorem casePatternFrom_eq_some_iff :
    casePatternFrom place ms = some k ↔ k ≤ ms.length ∧ Completes place (ms.take k) := by
  constructor
  · intro h
    obtain ⟨front, rest, rfl, rfl, hfront⟩ := exists_completes h
    exact ⟨by simp, by rwa [List.take_left]⟩
  · rintro ⟨hk, h⟩
    have haccept := h.casePatternFrom_append (ms.drop k)
    rwa [List.take_append_drop, List.length_take_of_le hk] at haccept

/-! ### What completes a pattern, in the grammar -/

theorem PatternPlace.HasRead.isAlternative (h : place.HasRead front) (hbefore : place ≠ .before) :
    IsAlternative front := by
  cases place with
  | before => exact absurd rfl hbefore
  | inWord =>
    obtain ⟨lead, word, rfl, hfull, hlead, hword⟩ := h
    exact ⟨lead, word, [], by simp, hfull, hlead, hword, by simp⟩
  | after => exact h

theorem PatternPlace.HasRead.word (h : place.HasRead front) (hafter : place ≠ .after)
    (hm : m.isInPatternWord) : PatternPlace.HasRead .inWord (front ++ [m]) := by
  cases place with
  | before => exact ⟨front, [m], rfl, by simp, h, by simpa using hm⟩
  | inWord =>
    obtain ⟨lead, word, rfl, -, hlead, hword⟩ := h
    refine ⟨lead, word ++ [m], by simp, by simp, hlead, ?_⟩
    simpa [or_imp, forall_and] using ⟨hword, hm⟩
  | after => exact absurd rfl hafter

theorem PatternPlace.HasRead.lead (h : PatternPlace.HasRead .before front)
    (hm : m.isCodeSpace) : PatternPlace.HasRead .before (front ++ [m]) := by
  simp only [HasRead, List.mem_append, List.mem_singleton]
  rintro n (hn | rfl)
  · exact h n hn
  · exact hm

theorem PatternPlace.HasRead.trail (h : place.HasRead front) (hbefore : place ≠ .before)
    (hm : m.isCodeSpace) : PatternPlace.HasRead .after (front ++ [m]) := by
  obtain ⟨lead, word, trail, rfl, hfull, hlead, hword, htrail⟩ := h.isAlternative hbefore
  refine ⟨lead, word, trail ++ [m], by simp, hfull, hlead, hword, ?_⟩
  simpa [or_imp, forall_and] using ⟨htrail, hm⟩

/-- What has been read of an alternative and what completes the pattern make a pattern. -/
theorem Completes.isClosedPattern (h : Completes place ms) (hread : place.HasRead front) :
    IsClosedPattern (front ++ ms) := by
  induction h generalizing front with
  | word hafter hm _ ih => simpa using ih (hread.word hafter hm)
  | lead hm _ ih => simpa using ih (hread.lead hm)
  | trail hbefore hm _ ih => simpa using ih (hread.trail hbefore hm)
  | bar hbefore hm _ ih =>
    -- The next alternative begins, and nothing of it has been read.
    obtain ⟨others, closing, hothers, hall, hclosing⟩ := @ih [] (by simp [PatternPlace.HasRead])
    rw [List.nil_append] at hothers
    exact ⟨_, closing, by simp [hothers], .more (hread.isAlternative hbefore) hm hall, hclosing⟩
  | closing hbefore hm hdepth =>
    exact ⟨front, _, rfl, .one (hread.isAlternative hbefore), hm, hdepth⟩

theorem completes_lead (hfront : ∀ m ∈ front, m.isCodeSpace) (h : Completes .before ms) :
    Completes .before (front ++ ms) := by
  induction front with
  | nil => exact h
  | cons m front ih =>
    rw [List.forall_mem_cons] at hfront
    exact .lead hfront.1 (ih hfront.2)

theorem completes_word (full : front ≠ []) (hafter : place ≠ .after)
    (hfront : ∀ m ∈ front, m.isInPatternWord) (h : Completes .inWord ms) :
    Completes place (front ++ ms) := by
  induction front generalizing place with
  | nil => exact absurd rfl full
  | cons m front ih =>
    rw [List.forall_mem_cons] at hfront
    refine .word hafter hfront.1 ?_
    cases front with
    | nil => exact h
    | cons n front => exact ih (by simp) (by decide) hfront.2

theorem completes_trail (hfront : ∀ m ∈ front, m.isCodeSpace)
    (h : ∀ place, place ≠ .before → Completes place ms) (hbefore : place ≠ .before) :
    Completes place (front ++ ms) := by
  induction front generalizing place with
  | nil => exact h place hbefore
  | cons m front ih =>
    rw [List.forall_mem_cons] at hfront
    exact .trail hbefore hfront.1 (ih hfront.2 (by decide))

theorem IsAlternative.completes (halternative : IsAlternative front)
    (h : ∀ place, place ≠ .before → Completes place ms) : Completes .before (front ++ ms) := by
  obtain ⟨lead, word, trail, rfl, hfull, hlead, hword, htrail⟩ := halternative
  rw [List.append_assoc, List.append_assoc]
  exact completes_lead hlead
    (completes_word hfull (by decide) hword (completes_trail htrail h (by decide)))

theorem IsAlternatives.completes (hfront : IsAlternatives front)
    (h : ∀ place, place ≠ .before → Completes place ms) : Completes .before (front ++ ms) := by
  induction hfront with
  | one halternative => exact halternative.completes h
  | more halternative hbar _ ih =>
    rw [List.append_assoc]
    exact halternative.completes fun place hbefore ↦ .bar hbefore hbar ih

/-- Where nothing has been read, what completes a pattern is a pattern. -/
theorem completes_before_iff : Completes .before ms ↔ IsClosedPattern ms := by
  constructor
  · intro h
    exact @Completes.isClosedPattern _ [] _ h (by simp [PatternPlace.HasRead])
  · rintro ⟨alternatives, closing, rfl, halternatives, hclosing, hdepth⟩
    exact halternatives.completes fun place hbefore ↦ .closing hbefore hclosing hdepth

/-! ### The parenthesis in front -/

theorem isCasePattern_cons_of_isCode (hm : m.isCode '(') :
    IsCasePattern (m :: ms) ↔ IsClosedPattern ms := by
  constructor
  · rintro (hclosed | ⟨opening, rest, heq, -, hclosed⟩)
    -- No alternative begins with a parenthesis of code.
    · cases completes_before_iff.2 hclosed with
      | word _ hword => exact absurd (hword.2 hm.1).2 (by rw [hm.2]; decide)
      | lead hspace => exact absurd hspace.2 (by rw [hm.2]; decide)
      | _ => contradiction
    · rwa [(List.cons.inj heq).2]
  · exact fun hclosed ↦ .inr ⟨m, ms, rfl, hm, hclosed⟩

theorem isCasePattern_cons_of_ne (hm : m.char ≠ '(') :
    IsCasePattern (m :: ms) ↔ IsClosedPattern (m :: ms) := by
  refine ⟨?_, .inl⟩
  rintro (hclosed | ⟨opening, rest, heq, hopening, -⟩)
  · exact hclosed
  · exact absurd ((List.cons.inj heq).1 ▸ hopening.2) hm

theorem casePatternLength?_ne_zero (p : Profile) : casePatternLength? p statement ≠ some 0 := by
  intro h
  unfold casePatternLength? at h
  split at h
  · simp at h
  · exact absurd (casePatternFrom_pos h) (Nat.lt_irrefl 0)

/-- A case pattern of `k` characters is found exactly if the first `k` characters are one. -/
theorem casePatternLength?_eq_some_iff {d : Dialect} :
    casePatternLength? d.profile statement = some k ↔ IsPatternFront d.profile statement k := by
  unfold IsPatternFront
  cases k with
  | zero =>
    have hnone : ¬ IsCasePattern [] := fun h ↦ h.ne_nil rfl
    simp [casePatternLength?_ne_zero, hnone]
  | succ k =>
    cases statement with
    | nil => simp [casePatternLength?, marks, casePatternFrom]
    | cons c rest =>
      by_cases hc : c = '('
      · subst hc
        obtain ⟨opening, hmarks, hopening, -⟩ := exists_marks_opening d .paren rest
        replace hmarks : marks d.profile ('(' :: rest) =
          opening :: marksFrom d.profile opening.after 1 rest := hmarks
        have hlength := congrArg List.length hmarks
        rw [length_marks, List.length_cons, List.length_cons, Nat.succ_inj] at hlength
        rw [casePatternLength?, hmarks, List.tail_cons, Option.map_eq_some_iff, List.take_succ_cons,
          isCasePattern_cons_of_isCode hopening, ← completes_before_iff, List.length_cons,
          Nat.succ_le_succ_iff, hlength, ← casePatternFrom_eq_some_iff]
        simp
      · rw [casePatternLength?_of_ne hc, casePatternFrom_eq_some_iff, length_marks, marks,
          marksFrom_cons, List.take_succ_cons, isCasePattern_cons_of_ne hc, completes_before_iff]

/-! ### No body in a pattern -/

theorem Dialect.hereStrings_eq_false {d : Dialect} (sh : d ≠ .pwsh) :
    d.profile.hereStrings = false := by
  cases d
  case pwsh => exact absurd rfl sh
  all_goals rfl

namespace Nesting

variable {p : Profile} {s : Nesting} {c : Char}

/-- No body is read, and none has been announced. -/
structure HasNoBody (s : Nesting) : Prop where
  hereDocs : s.hereDocs = []
  mode : s.mode.IsOutsideBodies

/-- A body comes from nothing but an angle bracket of code, if there are no here-strings. -/
theorem HasNoBody.step {ahead : List Char} (strings : p.hereStrings = false) (h : s.HasNoBody)
    (hc : (s.step p c ahead).2 = .code → c ≠ '<') :
    (s.step p c ahead).1.HasNoBody ∧ (s.step p c ahead).2 ≠ .hereBody := by
  refine ⟨⟨?_, mode_step_ne_hereDoc h.mode.1 fun _ _ ↦ h.hereDocs,
    mode_step_ne_hereString strings h.mode.2⟩, fun hbody ↦ ?_⟩
  · by_contra queued
    obtain ⟨-, hcode, hangle⟩ := angle_of_hereDocs_step h.hereDocs queued
    exact hc hcode hangle
  · rcases mode_of_hereBody hbody with hmode | ⟨quote, hmode⟩
    · exact h.mode.1 hmode
    · exact h.mode.2 quote hmode

theorem HasNoBody.role_ne_of_mem (strings : p.hereStrings = false) (h : s.HasNoBody)
    {offset : Nat} {text : List Char} {front behind : List Mark}
    (hmarks : marksFrom p s offset text = front ++ behind)
    (hfront : ∀ m ∈ front, ¬ m.isCode '<') : ∀ m ∈ front, m.role ≠ .hereBody := by
  induction front generalizing s offset text with
  | nil => simp
  | cons m front ih =>
    cases text with
    | nil => simp at hmarks
    | cons c rest =>
      rw [marksFrom_cons, List.cons_append] at hmarks
      obtain ⟨rfl, hrest⟩ := List.cons.inj hmarks
      rw [List.forall_mem_cons] at hfront ⊢
      obtain ⟨hafter, hrole⟩ :
          (s.step p c rest).1.HasNoBody ∧ (s.step p c rest).2 ≠ .hereBody :=
        h.step strings fun hcode hc ↦ hfront.1 ⟨hcode, hc⟩
      exact ⟨hrole, ih hafter hrest hfront.2⟩

end Nesting

theorem Completes.not_isCode_angle (h : Completes place ms) : ∀ m ∈ ms, ¬ m.isCode '<' := by
  have hother {n : Mark} {c : Char} (hn : n.isCode c) (hc : c ≠ '<') : ¬ n.isCode '<' :=
    fun hangle ↦ hc (hn.2.symm.trans hangle.2)
  have hspace {n : Mark} (hn : n.isCodeSpace) : ¬ n.isCode '<' :=
    fun hangle ↦ absurd hn.2 (by rw [hangle.2]; decide)
  induction h with
  | word _ hm _ ih =>
    refine List.forall_mem_cons.2 ⟨fun hangle ↦ ?_, ih⟩
    exact absurd (hm.2 hangle.1).2 (by rw [hangle.2]; decide)
  | lead hm _ ih | trail _ hm _ ih => exact List.forall_mem_cons.2 ⟨hspace hm, ih⟩
  | bar _ hm _ ih => exact List.forall_mem_cons.2 ⟨hother hm (by decide), ih⟩
  | closing _ hm => simpa using hother hm (by decide)

theorem IsCasePattern.not_isCode_angle (h : IsCasePattern ms) : ∀ m ∈ ms, ¬ m.isCode '<' := by
  rcases h with hclosed | ⟨opening, rest, rfl, hopening, hclosed⟩
  · exact (completes_before_iff.2 hclosed).not_isCode_angle
  · rw [List.forall_mem_cons]
    refine ⟨fun hangle ↦ ?_, (completes_before_iff.2 hclosed).not_isCode_angle⟩
    exact absurd (hopening.2.symm.trans hangle.2) (by decide)

/-! ### The parenthesis behind -/

theorem IsCasePattern.exists_closing (h : IsCasePattern ms) :
    ∃ front closing, ms = front ++ [closing] ∧ closing.isCode ')' := by
  rcases h with ⟨front, closing, rfl, -, hclosing, -⟩ |
    ⟨opening, rest, rfl, -, front, closing, rfl, -, hclosing, -⟩
  · exact ⟨front, closing, rfl, hclosing⟩
  · exact ⟨opening :: front, closing, rfl, hclosing⟩

/-- A pattern ends with the byte of its closing parenthesis. -/
theorem IsPatternFront.byteLength_eq {p : Profile} (h : IsPatternFront p statement k) :
    ∃ closing, ((marks p statement).take k).getLast? = some closing ∧
      byteLength (statement.take k) = closing.offset + 1 := by
  obtain ⟨front, closing, hfront, hclosing⟩ := h.2.exists_closing
  refine ⟨closing, by simp [hfront], ?_⟩
  have hmarks : marks p statement = front ++ closing :: (marks p statement).drop k := by
    rw [List.append_cons, ← hfront, List.take_append_drop]
  obtain ⟨-, -, hbehind⟩ := marksFrom_eq_append hmarks
  have hcons : Mark.text (closing :: (marks p statement).drop k) =
      closing.char :: Mark.text ((marks p statement).drop k) := rfl
  rw [hcons, marksFrom_cons, List.cons.injEq] at hbehind
  have hoffset : closing.offset = byteLength (Mark.text front) := by
    rw [hbehind.1]
    simp
  have htext : statement.take k = Mark.text front ++ [')'] := by
    have htake := congrArg Mark.text hfront
    rw [Mark.text, List.map_take, ← Mark.text, text_marks] at htake
    rw [htake, Mark.text_append]
    simp [Mark.text, hclosing.2]
  rw [htext, byteLength_append, hoffset]
  rfl

/-- A case pattern is found exactly where the first characters of the statement are one, and no two
beginnings of a statement are. The pattern holds no part of a body, and ends with its closing
parenthesis. -/
theorem casePattern_found_iff {d : Dialect} (sh : d ≠ .pwsh) (statement : List Char) :
    (∀ k, casePatternLength? d.profile statement = some k ↔
      IsPatternFront d.profile statement k) ∧
    (∀ k l, IsPatternFront d.profile statement k → IsPatternFront d.profile statement l → k = l) ∧
    (casePatternLength? d.profile statement = none ↔
      ∀ k, ¬ IsPatternFront d.profile statement k) ∧
    ∀ k, IsPatternFront d.profile statement k →
      (∀ m ∈ (marks d.profile statement).take k, m.role ≠ .hereBody) ∧
      ∃ closing, ((marks d.profile statement).take k).getLast? = some closing ∧
        byteLength (statement.take k) = closing.offset + 1 := by
  have hiff (k : Nat) := @casePatternLength?_eq_some_iff statement k d
  refine ⟨hiff, fun k l hk hl ↦ ?_, ?_, fun k hk ↦ ⟨?_, hk.byteLength_eq⟩⟩
  · exact Option.some.inj (((hiff k).2 hk).symm.trans ((hiff l).2 hl))
  · simp [Option.eq_none_iff_forall_ne_some, hiff]
  · have fresh : (Nesting.start 1).HasNoBody :=
      ⟨rfl, by simp [Mode.IsOutsideBodies, Nesting.start]⟩
    exact fresh.role_ne_of_mem (Dialect.hereStrings_eq_false sh) (List.take_append_drop k _).symm
      hk.2.not_isCode_angle

/-- A quoted blank and a quoted bar are characters of a word; the blanks around the bar of code are
not. -/
theorem casePattern_found_iff_of_quoted :
    let statement := "(a' |'b | c* ) x".toList
    casePatternLength? Dialect.bash.profile statement = some 14 ∧
      IsPatternFront Dialect.bash.profile statement 14 ∧
      ∀ k, IsPatternFront Dialect.bash.profile statement k → k = 14 := by
  intro statement
  obtain ⟨hiff, hunique, -⟩ := @casePattern_found_iff .bash (by decide) statement
  have hlength : casePatternLength? Dialect.bash.profile statement = some 14 := by decide +kernel
  have hfront := (hiff 14).1 hlength
  exact ⟨hlength, hfront, fun k hk ↦ hunique k 14 hk hfront⟩

end ShellCatalog
