import ShellCatalog.Proofs.RewrittenLines
import ShellCatalog.Statement.Basic
import ShellCatalog.Text.Split

/-!
# Statements of rewritten texts

A line of a body ends no statement either. So it belongs to the statement that stands open where its
body begins, whichever statement announced the document. What stands in front of it in its statement
is a **front** (`frontsFrom`). It may hold earlier lines of the same body, and it is blank where a
separator ends the line in front of the body.

The statements of a text and of its rewriting correspond. Two that correspond have the same text, or
they share a front and may differ behind it (`Rewritten.exists_pieces_statements`). The proof is by
induction on the rewriting: a character that is kept goes to the first statement of both or ends it
in both, and a line of a body goes to the first statement of both, where its front is listed
(`mem_frontsFrom`).

`ShareFront` says that two runs correspond in this way. It speaks of characters and physical lines
only (`Mark.place`), since the offsets behind an exchanged line differ.
-/

namespace ShellCatalog

/-- The texts that stand, in a statement, in front of a line that a rewriting may exchange; `front`
is what has been read of the first statement. -/
def frontsFrom (outer : List Bool) (front : List Char) : List Mark → List (List Char)
  | [] => []
  | m :: rest =>
    let here :=
      match m.before.outerBody? outer with
      | some doc =>
        if doc.isEndedBy ((Mark.text (m :: rest)).takeWhile (· != '\n')) then [] else [front]
      | none => []
    here ++ frontsFrom (m.before.outerAfter outer m.after)
      (if m.separatesStatements rest.head? then [] else front ++ [m.char]) rest

/-- The fronts of a logical line that is read on its own. -/
def LogicalLine.fronts (p : Profile) (l : LogicalLine) : List (List Char) :=
  frontsFrom [] [] (marks p l.text l.line)

/-! ### Lines of bodies in statements -/

/-- No statement ends in a body. -/
theorem Mark.IsInBody.isUnbroken {docs : List HereDoc} {m : Mark} (h : m.IsInBody docs)
    (waiting : docs ≠ []) : m.IsUnbroken := by
  intro next
  have hcomment : m.isTopComment = false := by simp [isTopComment, h.role]
  rw [separatesStatements, hcomment, h.endsLine waiting]
  split <;> simp [h.role]

theorem Mark.IsInBody.outerAfter {docs : List HereDoc} {m : Mark} (h : m.IsInBody docs)
    (outer : List Bool) : m.before.outerAfter outer m.after = outer := by
  simp [Nesting.outerAfter, h.before, h.after]

/-- Whether a statement ends at a mark does not depend on where the text begins, and only an
ampersand looks at the next character. -/
theorem Mark.separatesStatements_congr {offset offset' : Nat} {c : Char} {role : CharRole}
    {s t : Nesting} {next next' : Option Mark}
    (hnext : c = '&' → next.map Mark.char = next'.map Mark.char) :
    (⟨offset, c, role, s, t⟩ : Mark).separatesStatements next =
      (⟨offset', c, role, s, t⟩ : Mark).separatesStatements next' := by
  by_cases hc : c = '&'
  · subst hc
    rw [separatesStatements, separatesStatements, hnext rfl]
    rfl
  · unfold separatesStatements
    dsimp only
    split
    · rfl
    · rfl
    · exact absurd rfl hc
    · rfl
    · rfl

section Fronts

variable {p : Profile} {s : Nesting} {outer : List Bool} {front : List Char}

/-- Where a line of a body begins that does not end it, the front is listed. -/
theorem mem_frontsFrom {doc : HereDoc} {line : List Char} (rest : List Char) (offset : Nat)
    (hdoc : s.outerBody? outer = some doc) (single : '\n' ∉ line)
    (goes_on : doc.isEndedBy line = false) :
    front ∈ frontsFrom outer front (marksFrom p s offset (line ++ '\n' :: rest)) := by
  have hline : (line ++ '\n' :: rest).takeWhile (· != '\n') = line :=
    congrArg Prod.fst (cutWhile_append (fun c hc ↦ by
      have hne : c ≠ '\n' := fun h ↦ single (h ▸ hc)
      simpa using hne) (by simp))
  cases htext : line ++ '\n' :: rest with
  | nil => simp at htext
  | cons c text =>
    have hmarks := text_marksFrom p s offset (c :: text)
    rw [htext] at hline
    rw [marksFrom_cons] at hmarks ⊢
    simp [frontsFrom, hdoc, hmarks, hline, goes_on]

/-- The fronts behind a line of a body. -/
theorem frontsFrom_append {docs : List HereDoc} {body : List Mark} (rest : List Mark)
    (inside : ∀ m ∈ body, m.IsInBody docs) (waiting : docs ≠ []) :
    ∀ f ∈ frontsFrom outer (front ++ Mark.text body) rest,
      f ∈ frontsFrom outer front (body ++ rest) := by
  induction body generalizing front with
  | nil => simp [Mark.text]
  | cons m body ih =>
    intro f hf
    have hm := inside m List.mem_cons_self
    rw [List.cons_append, frontsFrom, hm.outerAfter, if_neg (by simp [hm.isUnbroken waiting _])]
    refine List.mem_append_right _ (ih (fun n hn ↦ inside n (List.mem_cons_of_mem _ hn)) f ?_)
    rwa [List.append_assoc, List.singleton_append]

end Fronts

/-! ### Statements that correspond -/

/-- What a statement takes from a mark. -/
def Mark.place (m : Mark) : Char × Nat :=
  (m.char, m.line)

/-- Runs of marks that are the same statement, or that share a front for which `P` holds; `front`
stands in front of both. -/
def ShareFront (P : List Char → Prop) (front : List Char) (run run' : List Mark) : Prop :=
  run.map Mark.place = run'.map Mark.place ∨
    ∃ head head' rest rest', run = head ++ rest ∧ run' = head' ++ rest' ∧
      head.map Mark.place = head'.map Mark.place ∧ P (front ++ Mark.text head)

theorem ShareFront.cons {P : List Char → Prop} {front : List Char} {run run' : List Mark}
    {m m' : Mark} (hplace : m.place = m'.place) (h : ShareFront P (front ++ [m.char]) run run') :
    ShareFront P front (m :: run) (m' :: run') := by
  rcases h with h | ⟨head, head', rest, rest', rfl, rfl, hhead, hP⟩
  · exact .inl (by rw [List.map_cons, List.map_cons, hplace, h])
  · refine .inr ⟨m :: head, m' :: head', rest, rest', rfl, rfl, ?_, ?_⟩
    · rw [List.map_cons, List.map_cons, hplace, hhead]
    · rwa [List.append_assoc, List.singleton_append] at hP

theorem head?_marksFrom (p : Profile) (s : Nesting) (offset : Nat) (text : List Char) :
    (marksFrom p s offset text).head?.map Mark.char = text.head? := by
  cases text <;> rfl

/-- The statements of a text and of its rewriting correspond. -/
theorem Rewritten.exists_pieces_statements {p : Profile} {s : Nesting} {outer : List Bool}
    {text text' : List Char} {P : List Char → Prop} {front : List Char}
    (h : Rewritten p s outer text text') (hline : '\n' ∉ s.lineSoFar)
    (done : ¬ (s.afterText p text []).Waits) (offset offset' : Nat)
    (fronts : ∀ f ∈ frontsFrom outer front (marksFrom p s offset text), P f) :
    ∃ run runs run' runs',
      pieces Mark.separatesStatements (marksFrom p s offset text) = run :: runs ∧
      pieces Mark.separatesStatements (marksFrom p s offset' text') = run' :: runs' ∧
      ShareFront P front run run' ∧ List.Forall₂ (ShareFront P []) runs runs' := by
  induction h generalizing front offset offset' with
  | nil s outer => exact ⟨[], [], [], [], rfl, rfl, .inl rfl, .nil⟩
  | @keep s outer c rest rest' h ih =>
    rw [Nesting.afterText_cons, List.append_nil] at done
    have hnext : '\n' ∉ (s.step p c rest).1.lineSoFar :=
      Nesting.newline_not_mem_lineSoFar_step hline
    have hstep := h.step_eq hline done
    rw [marksFrom_cons] at fronts
    rw [marksFrom_cons, marksFrom_cons, ← hstep]
    set t := (s.step p c rest).1 with ht
    have hsep : (⟨offset, c, (s.step p c rest).2, s, t⟩ : Mark).separatesStatements
          (marksFrom p t (offset + c.utf8Size) rest).head? =
        (⟨offset', c, (s.step p c rest).2, s, t⟩ : Mark).separatesStatements
          (marksFrom p t (offset' + c.utf8Size) rest').head? := by
      refine Mark.separatesStatements_congr fun hc ↦ ?_
      have hlast : t.lastChar? ≠ some '\n' := by simp [ht, hc, Nesting.lastChar?]
      rw [head?_marksFrom, head?_marksFrom, h.head?_eq hlast]
    have hfronts : ∀ f ∈ frontsFrom (s.outerAfter outer t)
        (if (⟨offset, c, (s.step p c rest).2, s, t⟩ : Mark).separatesStatements
          (marksFrom p t (offset + c.utf8Size) rest).head? then [] else front ++ [c])
        (marksFrom p t (offset + c.utf8Size) rest), P f :=
      fun f hf ↦ fronts f (List.mem_append_right _ hf)
    obtain ⟨run, runs, run', runs', hruns, hruns', hrun, hothers⟩ :=
      ih hnext done (offset + c.utf8Size) (offset' + c.utf8Size) hfronts
    cases hends : (⟨offset, c, (s.step p c rest).2, s, t⟩ : Mark).separatesStatements
        (marksFrom p t (offset + c.utf8Size) rest).head? with
    | true =>
      rw [hends] at hsep hrun
      rw [pieces, if_pos hends, hruns, pieces, if_pos hsep.symm, hruns']
      exact ⟨_, _, _, _, rfl, rfl, .inl rfl, .cons hrun hothers⟩
    | false =>
      rw [hends] at hsep hrun
      rw [pieces, if_neg (by simp [hends]), hruns, pieces, if_neg (by simp [← hsep]), hruns']
      exact ⟨_, _, _, _, rfl, rfl, hrun.cons rfl, hothers⟩
  | @line s outer doc line line' rest rest' hdoc single single' goes_on goes_on' _ ih =>
    have waiting := Nesting.hereDocs_ne_nil_of_outerBody? hdoc
    have hfront : P front := fronts front (mem_frontsFrom rest offset hdoc single goes_on)
    rw [Nesting.afterText_bodyLine [] hdoc single goes_on] at done
    obtain ⟨body, behind, hmarks, hbody, hinside⟩ :=
      Nesting.exists_marksFrom_bodyLine (p := p) rest offset hdoc single goes_on
    obtain ⟨body', behind', hmarks', hbody', hinside'⟩ :=
      Nesting.exists_marksFrom_bodyLine (p := p) rest' offset' hdoc single' goes_on'
    rw [hmarks] at fronts
    obtain ⟨run, runs, run', runs', hruns, hruns', -, hothers⟩ :=
      ih List.not_mem_nil done behind behind' fun f hf ↦
        fronts f (frontsFrom_append _ hinside waiting f hf)
    rw [hmarks, hmarks', pieces_append (fun m hm ↦ (hinside m hm).isUnbroken waiting) hruns,
      pieces_append (fun m hm ↦ (hinside' m hm).isUnbroken waiting) hruns']
    refine ⟨_, _, _, _, rfl, rfl, .inr ⟨[], [], _, _, rfl, rfl, rfl, ?_⟩, hothers⟩
    rwa [Mark.text, List.map_nil, List.append_nil]

end ShellCatalog
