import ShellCatalog.Mark

/-!
# States that reading can reach

A rule about `Nesting.step` speaks of states that occur. `Reached` says which do, and with what text
still to come, since a step looks at that text. It is an inductive relation, so what holds at the
start of a text and is kept by every step holds wherever reading gets to; `reached_iff` says that
these are the states that texts leave behind.

Two lemmas carry what one step does over to a text. What every step keeps holds behind the text
(`afterText_invariant`), and each mark of the text is a step from the state that the text in front
of the mark leaves (`exists_of_mem_marksAhead`).
-/

namespace ShellCatalog.Nesting

/-- The state after `text`, read from `s` with `ahead` behind it. -/
def afterText (p : Profile) (s : Nesting) (text ahead : List Char) : Nesting :=
  s.afterMarks (marksAhead p ahead s 0 text)

/-- Reading can come to state `s` with `ahead` still to be read. -/
inductive Reached (p : Profile) : List Char → Nesting → Prop
  | start (line : Nat) (ahead : List Char) : Reached p ahead (.start line)
  | step {s : Nesting} {c : Char} {rest : List Char} : Reached p (c :: rest) s →
      Reached p rest (s.step p c rest).1

/-- Reading `text` from `s` with `ahead` behind it closes none of the groups that are open in
`s`. -/
def StaysWithin (p : Profile) (s : Nesting) (text ahead : List Char) : Prop :=
  ∀ m ∈ marksAhead p ahead s 0 text, s.depth ≤ m.depth

/-! ### The state after a text -/

/-- Offsets do not matter to states. -/
theorem afterMarks_marksAhead (p : Profile) (ahead : List Char) (s : Nesting) (offset : Nat)
    (text : List Char) :
    s.afterMarks (marksAhead p ahead s offset text) = s.afterText p text ahead := by
  suffices h : ∀ o₁ o₂, s.afterMarks (marksAhead p ahead s o₁ text) =
      s.afterMarks (marksAhead p ahead s o₂ text) from h _ _
  intro o₁ o₂
  induction text generalizing s o₁ o₂ with
  | nil => rfl
  | cons c rest ih =>
    simp only [marksAhead, afterMarks_cons]
    exact ih _ _ _

@[simp] theorem afterText_nil (p : Profile) (s : Nesting) (ahead : List Char) :
    s.afterText p [] ahead = s := rfl

theorem afterText_cons (p : Profile) (s : Nesting) (c : Char) (rest ahead : List Char) :
    s.afterText p (c :: rest) ahead = (s.step p c (rest ++ ahead)).1.afterText p rest ahead := by
  rw [afterText, marksAhead, afterMarks_cons]
  exact afterMarks_marksAhead ..

theorem afterText_append (p : Profile) (s : Nesting) (text more ahead : List Char) :
    s.afterText p (text ++ more) ahead =
      (s.afterText p text (more ++ ahead)).afterText p more ahead := by
  induction text generalizing s with
  | nil => rfl
  | cons c rest ih => rw [List.cons_append, afterText_cons, afterText_cons, ih, List.append_assoc]

/-- What holds of a state and is kept by every step holds behind every text. -/
theorem afterText_invariant {p : Profile} {motive : Nesting → Prop}
    (step : ∀ {s : Nesting} (c : Char) (rest : List Char), motive s → motive (s.step p c rest).1)
    {s : Nesting} (start : motive s) (text ahead : List Char) :
    motive (s.afterText p text ahead) := by
  induction text generalizing s with
  | nil => exact start
  | cons c rest ih =>
    rw [afterText_cons]
    exact ih (step c _ start)

/-- A mark of a text is a step, made behind the part of the text that stands in front of it. -/
theorem exists_of_mem_marksAhead {p : Profile} {ahead : List Char} {s : Nesting} {offset : Nat}
    {text : List Char} {m : Mark} (hm : m ∈ marksAhead p ahead s offset text) :
    ∃ front behind, text = front ++ m.char :: behind ∧
      m.before = s.afterText p front (m.char :: (behind ++ ahead)) ∧
      m.before.step p m.char (behind ++ ahead) = (m.after, m.role) := by
  induction text generalizing s offset with
  | nil => simp [marksAhead] at hm
  | cons c rest ih =>
    rw [marksAhead_cons] at hm
    rcases List.mem_cons.1 hm with rfl | hm
    · exact ⟨[], rest, rfl, rfl, rfl⟩
    · obtain ⟨front, behind, htext, hbefore, hstep⟩ := ih hm
      refine ⟨c :: front, behind, by rw [htext, List.cons_append], ?_, hstep⟩
      rw [hbefore, afterText_cons, htext, List.append_assoc, List.cons_append]

/-- The states that reading reaches are those that texts leave behind. -/
theorem reached_iff {p : Profile} {ahead : List Char} {s : Nesting} :
    Reached p ahead s ↔ ∃ line text, s = (start line).afterText p text ahead := by
  constructor
  · intro h
    induction h with
    | start line ahead => exact ⟨line, [], rfl⟩
    | @step s c rest _ ih =>
      obtain ⟨line, text, rfl⟩ := ih
      exact ⟨line, text ++ [c], by rw [afterText_append]; rfl⟩
  · rintro ⟨line, text, rfl⟩
    have key : ∀ s, Reached p (text ++ ahead) s → Reached p ahead (s.afterText p text ahead) := by
      induction text with
      | nil => exact fun _ h ↦ h
      | cons c rest ih =>
        intro s h
        rw [afterText_cons]
        exact ih _ h.step
    exact key _ (.start ..)

end ShellCatalog.Nesting
