import ShellCatalog.Proofs.FreshReading
import ShellCatalog.Proofs.Lookahead

/-!
# Rewriting the bodies of here-documents

`Rewritten` relates two texts that differ in lines of the bodies of here-documents, and only of
those that were announced outside every group. It walks the first text as reading does and takes
every character over, except that a line of such a body may be exchanged for another line. Neither
line may be the one that ends the body.

**Both texts are read in lockstep** (`Rewritten.step_eq`, `Rewritten.afterText_eq`). A rewritten
line leaves the state that the original line leaves, and between the lines the texts are the same as
far as reading looks ahead.
-/

namespace ShellCatalog

namespace Nesting

/-- Whether each of the announced documents was announced outside every group, behind a step from
`s` to `t`; `outer` says it of the documents in `s`. -/
def outerAfter (s : Nesting) (outer : List Bool) (t : Nesting) : List Bool :=
  if s.hereDocs.length < t.hereDocs.length then outer ++ [s.groups.isEmpty]
  else if t.hereDocs.length < s.hereDocs.length then outer.tail
  else outer

/-- The same behind a text, read from `s` with `ahead` behind it. -/
def outerAfterText (p : Profile) (s : Nesting) (outer : List Bool) :
    List Char → List Char → List Bool
  | [], _ => outer
  | c :: rest, ahead =>
    let t := (s.step p c (rest ++ ahead)).1
    t.outerAfterText p (s.outerAfter outer t) rest ahead

/-- The document of whose body a line begins here, if it was announced outside every group. -/
def outerBody? (s : Nesting) (outer : List Bool) : Option HereDoc :=
  if s.mode = .hereDoc ∧ s.escaping = false ∧ s.lineSoFar = [] ∧ s.lastChar? = some '\n' ∧
      outer.head? = some true then s.hereDocs.head?
  else none

/-- The state behind a line of a body that does not end it. -/
def behindBodyLine (s : Nesting) : Nesting :=
  { s with line := s.line + 1, last := some ('\n', .hereBody), lineSoFar := [] }

end Nesting

/-- The second text is the first with lines exchanged in the bodies of here-documents that were
announced outside every group. Reading begins in state `s`. -/
inductive Rewritten (p : Profile) : Nesting → List Bool → List Char → List Char → Prop
  | nil (s : Nesting) (outer : List Bool) : Rewritten p s outer [] []
  | keep {s : Nesting} {outer : List Bool} {c : Char} {rest rest' : List Char} :
      Rewritten p (s.step p c rest).1 (s.outerAfter outer (s.step p c rest).1) rest rest' →
      Rewritten p s outer (c :: rest) (c :: rest')
  | line {s : Nesting} {outer : List Bool} {doc : HereDoc} {line line' rest rest' : List Char} :
      s.outerBody? outer = some doc → '\n' ∉ line → '\n' ∉ line' →
      doc.isEndedBy line = false → doc.isEndedBy line' = false →
      Rewritten p s.behindBodyLine outer rest rest' →
      Rewritten p s outer (line ++ '\n' :: rest) (line' ++ '\n' :: rest')

/-- Behind a text without opening brackets, every document was announced outside every group. -/
theorem Nesting.outerAfterText_eq_true {p : Profile} {s : Nesting} {outer : List Bool}
    {text : List Char} (ahead : List Char) (outside : s.groups = [])
    (flat : ∀ c ∈ text, c ≠ '(' ∧ c ≠ '{') (top : ∀ b ∈ outer, b = true) :
    ∀ b ∈ s.outerAfterText p outer text ahead, b = true := by
  induction text generalizing s outer with
  | nil => exact top
  | cons c rest ih =>
    refine ih (groups_step_of_ne _ outside (flat c List.mem_cons_self))
      (fun d hd ↦ flat d (List.mem_cons_of_mem _ hd)) ?_
    unfold outerAfter
    split
    · simpa [outside, or_imp, forall_and] using top
    · split
      · exact fun b hb ↦ top b (List.mem_of_mem_tail hb)
      · exact top

namespace Rewritten

variable {p : Profile} {s : Nesting} {outer : List Bool} {text text' : List Char}

/-- Nothing need be exchanged. -/
theorem refl (p : Profile) (s : Nesting) (outer : List Bool) (text : List Char) :
    Rewritten p s outer text text := by
  induction text generalizing s outer with
  | nil => exact .nil s outer
  | cons c rest ih => exact .keep (ih _ _)

/-- A text that is kept may stand in front of both. -/
theorem append {kept : List Char} (h : Rewritten p (s.afterText p kept text)
    (s.outerAfterText p outer kept text) text text') :
    Rewritten p s outer (kept ++ text) (kept ++ text') := by
  induction kept generalizing s outer with
  | nil => exact h
  | cons c kept ih =>
    rw [Nesting.afterText_cons] at h
    exact .keep (ih h)

end Rewritten

/-! ### A line of a body -/

namespace Nesting

variable {p : Profile} {s : Nesting} {outer : List Bool} {doc : HereDoc} {line : List Char}

theorem outerBody?_eq_some (h : s.outerBody? outer = some doc) :
    s.mode = .hereDoc ∧ s.escaping = false ∧ s.lineSoFar = [] ∧ s.lastChar? = some '\n' ∧
      outer.head? = some true ∧ s.hereDocs.head? = some doc := by
  unfold outerBody? at h
  split at h
  · next hs => exact ⟨hs.1, hs.2.1, hs.2.2.1, hs.2.2.2.1, hs.2.2.2.2, h⟩
  · exact absurd h (by simp)

theorem hereDocs_ne_nil_of_outerBody? (h : s.outerBody? outer = some doc) : s.hereDocs ≠ [] := by
  intro hnil
  have hfirst := (outerBody?_eq_some h).2.2.2.2.2
  simp [hnil] at hfirst

/-- A character of a body goes to its line. -/
theorem step_bodyChar {c : Char} (rest : List Char) (inside : s.mode = .hereDoc)
    (ready : s.escaping = false) (hc : c ≠ '\n') :
    s.step p c rest =
      ({ s with lineSoFar := s.lineSoFar ++ [c], last := some (c, .hereBody) }, .hereBody) := by
  simp [step, react, inHereDoc, inside, ready, hc]

/-- A newline that does not end a body begins its next line. -/
theorem step_bodyNewline (rest : List Char) (inside : s.mode = .hereDoc)
    (ready : s.escaping = false) (waiting : s.hereDocs ≠ []) (goes_on : s.atHereDocEnd = false) :
    s.step p '\n' rest = (s.behindBodyLine, .hereBody) := by
  obtain ⟨line, mode, openedOn, escaping, last, groups, docs, lineSoFar⟩ := s
  cases docs with
  | nil => exact absurd rfl waiting
  | cons doc docs =>
    dsimp only at inside ready
    subst inside ready
    simp [step, react, inHereDoc, goes_on, behindBodyLine]

end Nesting

/-- The mark stands in a body and leaves the documents as they are. -/
structure Mark.IsInBody (docs : List HereDoc) (m : Mark) : Prop where
  role : m.role = .hereBody
  before : m.before.hereDocs = docs
  after : m.after.hereDocs = docs

namespace Nesting

variable {p : Profile} {s : Nesting} {outer : List Bool} {doc : HereDoc} {line : List Char}

/-- Text within a line of a body goes to the line, and changes nothing else. -/
theorem marksAhead_bodyText {text : List Char} (ahead : List Char) (offset : Nat)
    (inside : s.mode = .hereDoc) (ready : s.escaping = false) (single : '\n' ∉ text) :
    (∀ m ∈ marksAhead p ahead s offset text, m.IsInBody s.hereDocs) ∧
      s.afterText p text ahead =
        { s with
          lineSoFar := s.lineSoFar ++ text
          last := (text.getLast?.map fun c ↦ (c, CharRole.hereBody)).or s.last } := by
  induction text generalizing s offset with
  | nil => simp [marksAhead]
  | cons c text ih =>
    rw [List.mem_cons, not_or] at single
    have hstep := step_bodyChar (p := p) (text ++ ahead) inside ready (Ne.symm single.1)
    obtain ⟨hmarks, hafter⟩ := ih (offset + c.utf8Size)
      (s := { s with lineSoFar := s.lineSoFar ++ [c], last := some (c, .hereBody) })
      inside ready single.2
    rw [marksAhead_cons, afterText_cons, hstep]
    refine ⟨fun m hm ↦ ?_, hafter.trans ?_⟩
    · rcases List.mem_cons.1 hm with rfl | hm
      · exact ⟨rfl, rfl, rfl⟩
      · exact hmarks m hm
    · rw [List.append_assoc, List.singleton_append, List.getLast?_cons]
      cases text.getLast? <;> rfl

/-- A line that does not end its body is read up to its newline, and changes nothing else. -/
theorem marksAhead_bodyLine (ahead : List Char) (offset : Nat)
    (hdoc : s.outerBody? outer = some doc) (single : '\n' ∉ line)
    (goes_on : doc.isEndedBy line = false) :
    (∀ m ∈ marksAhead p ahead s offset (line ++ ['\n']), m.IsInBody s.hereDocs) ∧
      s.afterText p (line ++ ['\n']) ahead = s.behindBodyLine := by
  obtain ⟨hmode, hready, hfresh, -, -, hfirst⟩ := outerBody?_eq_some hdoc
  obtain ⟨others, hdocs⟩ := List.head?_eq_some_iff.1 hfirst
  obtain ⟨hmarks, hafter⟩ :=
    marksAhead_bodyText (p := p) (['\n'] ++ ahead) offset hmode hready single
  set t := s.afterText p line (['\n'] ++ ahead) with ht
  have hend : t.atHereDocEnd = false := by
    rw [hafter, hfresh, atHereDocEnd]
    simp only [hdocs, List.nil_append, goes_on]
  have hstep : t.step p '\n' ([] ++ ahead) = (t.behindBodyLine, .hereBody) :=
    step_bodyNewline ([] ++ ahead) (by rw [hafter]; exact hmode) (by rw [hafter]; exact hready)
      (by rw [hafter]; simp [hdocs]) hend
  have hbehind : t.behindBodyLine = s.behindBodyLine := by rw [hafter]; rfl
  rw [marksAhead_append, afterText_append, afterMarks_marksAhead, ← ht, marksAhead_cons,
    afterText_cons, hstep, hbehind]
  refine ⟨fun m hm ↦ ?_, rfl⟩
  rcases List.mem_append.1 hm with hm | hm
  · exact hmarks m hm
  · obtain rfl := List.mem_singleton.1 hm
    exact ⟨rfl, by rw [hafter], rfl⟩

theorem afterText_bodyLine {rest : List Char} (ahead : List Char)
    (hdoc : s.outerBody? outer = some doc) (single : '\n' ∉ line)
    (goes_on : doc.isEndedBy line = false) :
    s.afterText p (line ++ '\n' :: rest) ahead = s.behindBodyLine.afterText p rest ahead := by
  rw [List.append_cons, afterText_append,
    (marksAhead_bodyLine (rest ++ ahead) 0 hdoc single goes_on).2]

/-- The marks of such a line, and the marks of the text behind it. -/
theorem exists_marksFrom_bodyLine (rest : List Char) (offset : Nat)
    (hdoc : s.outerBody? outer = some doc) (single : '\n' ∉ line)
    (goes_on : doc.isEndedBy line = false) :
    ∃ run offset', marksFrom p s offset (line ++ '\n' :: rest) =
        run ++ marksFrom p s.behindBodyLine offset' rest ∧
      Mark.text run = line ++ ['\n'] ∧ ∀ m ∈ run, m.IsInBody s.hereDocs := by
  obtain ⟨hmarks, hafter⟩ := marksAhead_bodyLine (p := p) rest offset hdoc single goes_on
  refine ⟨_, offset + byteLength (line ++ ['\n']), ?_, text_marksAhead .., hmarks⟩
  rw [List.append_cons, marksFrom_append, afterMarks_marksAhead, hafter]

end Nesting

/-! ### Reading both texts -/

namespace Rewritten

variable {p : Profile} {s : Nesting} {outer : List Bool} {text text' : List Char}

/-- Both texts have the same first line, unless a line of a body begins here. -/
theorem exists_firstLine (h : Rewritten p s outer text text') (hlast : s.lastChar? ≠ some '\n') :
    text = text' ∨
      ∃ line rest rest', text = line ++ '\n' :: rest ∧ text' = line ++ '\n' :: rest' := by
  induction h with
  | nil => exact .inl rfl
  | @keep s outer c rest rest' _ ih =>
    by_cases hc : c = '\n'
    · exact .inr ⟨[], rest, rest', by rw [hc]; rfl, by rw [hc]; rfl⟩
    · have hnext : (s.step p c rest).1.lastChar? ≠ some '\n' := by
        simpa [Nesting.lastChar?] using hc
      rcases ih hnext with rfl | ⟨line, more, more', rfl, rfl⟩
      · exact .inl rfl
      · exact .inr ⟨c :: line, more, more', rfl, rfl⟩
  | line hdoc => exact absurd (Nesting.outerBody?_eq_some hdoc).2.2.2.1 hlast

/-- The first character of a text is kept where no line of a body begins. -/
theorem head?_eq (h : Rewritten p s outer text text') (hlast : s.lastChar? ≠ some '\n') :
    text.head? = text'.head? := by
  cases h with
  | nil => rfl
  | keep => rfl
  | line hdoc => exact absurd (Nesting.outerBody?_eq_some hdoc).2.2.2.1 hlast

/-- A character that is kept is read alike in both texts, unless a document waits for ever. -/
theorem step_eq {c : Char} (h : Rewritten p (s.step p c text).1 outer text text')
    (hline : '\n' ∉ s.lineSoFar)
    (done : ¬ ((s.step p c text).1.afterText p text []).Waits) :
    s.step p c text = s.step p c text' := by
  by_cases hc : c = '\n'
  · exact Nesting.step_of_ne p s text text' (by rw [hc]; decide)
  have hlast : (s.step p c text).1.lastChar? ≠ some '\n' := by
    simpa [Nesting.lastChar?] using hc
  rcases h.exists_firstLine hlast with rfl | ⟨line, rest, rest', rfl, rfl⟩
  · rfl
  · have stop : AtLineEnd ('\n' :: rest') := fun d hd ↦ (Option.some.inj hd).symm
    refine (Nesting.step_ahead p s c line rest stop).resolve_left fun hwaits ↦ done ?_
    exact Nesting.waits_afterText (Nesting.newline_not_mem_lineSoFar_step hline) hwaits

/-- Both texts leave the same state. -/
theorem afterText_eq (h : Rewritten p s outer text text') (hline : '\n' ∉ s.lineSoFar)
    (done : ¬ (s.afterText p text []).Waits) : s.afterText p text [] = s.afterText p text' [] := by
  induction h with
  | nil => rfl
  | keep h ih =>
    rw [Nesting.afterText_cons, List.append_nil] at done
    rw [Nesting.afterText_cons, Nesting.afterText_cons, List.append_nil, List.append_nil,
      ← h.step_eq hline done]
    exact ih (Nesting.newline_not_mem_lineSoFar_step hline) done
  | @line s outer doc line line' rest rest' hdoc single single' goes_on goes_on' _ ih =>
    rw [Nesting.afterText_bodyLine [] hdoc single goes_on] at done ⊢
    rw [Nesting.afterText_bodyLine [] hdoc single' goes_on']
    exact ih List.not_mem_nil done

end Rewritten

end ShellCatalog
