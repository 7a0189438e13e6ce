import ShellCatalog.Proofs.FunctionHeader
import ShellCatalog.Proofs.InsideGroup
import ShellCatalog.Proofs.LineReading

/-!
# Groups read by counting

A text stays inside the group in front of it when reading it never closes that group and comes back
to it, in code and with no escape waiting (`Nesting.StaysInside`). Whatever stands in such a text,
be it quotes, comments or further groups, the bracket that is written behind it closes the group.

In a dialect without here-documents this says all there is to know. Only the second character of a
block comment's opening is looked ahead for (`Nesting.step_congr_of_noHereDocs`), so the text is
read alike in front of everything but a hash, and reading can be put together from its parts. And
**a group is read as one block** (`marksAhead_group`): no statement and no line ends in it, and
nothing is open behind it.
-/

namespace ShellCatalog

/-- The character that opens a group. -/
def Bracket.opening : Bracket → Char
  | .brace => '{'
  | .paren => '('

/-- The character that closes a group. -/
def Bracket.closing : Bracket → Char
  | .brace => '}'
  | .paren => ')'

theorem Bracket.ofOpener?_opening (b : Bracket) : ofOpener? b.opening = some b := by
  cases b <;> rfl

theorem Bracket.ofCloser?_closing (b : Bracket) : ofCloser? b.closing = some b := by
  cases b <;> rfl

theorem Bracket.mem_of_bracket (b : Bracket) :
    b.opening ∈ ['(', ')', '{', '}', '\n'] ∧ b.closing ∈ ['(', ')', '{', '}', '\n'] := by
  cases b <;> decide

namespace Nesting

variable {p : Profile} {s t : Nesting}

/-- Reading the text from `s` stays within the groups that are open there, and comes back to the
innermost of them, in code and with no escape waiting. -/
structure StaysInside (p : Profile) (s : Nesting) (text : List Char) : Prop where
  within : s.StaysWithin p text []
  code : (s.afterText p text []).mode = .code
  depth : (s.afterText p text []).depth = s.depth
  ready : (s.afterText p text []).escaping = false

/-- The groups behind such a text are those in front of it. -/
theorem StaysInside.groups {text : List Char} (h : s.StaysInside p text) :
    (s.afterText p text []).groups = s.groups := by
  obtain ⟨inner, hinner⟩ := exists_groups_afterText h.within
  have hdepth : (s.afterText p text []).groups.length = s.groups.length := h.depth
  rw [hinner, List.length_append] at hdepth
  rw [hinner, List.length_eq_zero_iff.1 (by omega : inner.length = 0), List.nil_append]

/-- A text stays inside in every state that is alike. -/
theorem StaysInside.of_like {text : List Char} (h : s.StaysInside p text) (alike : s.Like t) :
    t.StaysInside p text := by
  have hafter := alike.afterText text [] (p := p)
  refine ⟨?_, hafter.mode ▸ h.code, ?_, hafter.escaping ▸ h.ready⟩
  · have hmarks := forall₂_marksFrom (fun h c rest ↦ h.step c rest) alike 0 0 text (p := p)
    have hwithin := h.within
    rw [StaysWithin, marksAhead_nil] at hwithin ⊢
    refine forall_of_forall₂ hmarks (fun {m n} hmn hm ↦ ?_) hwithin
    rwa [Mark.depth, ← hmn.after.depth, ← alike.depth]
  · rw [← hafter.depth, h.depth, alike.depth]

/-! ### Without here-documents -/

section Plain

variable (docs : p.hereDocs = false)

include docs

/-- Only a hash behind the character counts. -/
theorem step_congr_of_noHereDocs (s : Nesting) (c : Char) {rest rest' : List Char}
    (hash : rest'.head? = some '#' ↔ rest.head? = some '#') :
    s.step p c rest' = s.step p c rest := by
  have hcode : inCode p s c rest' = inCode p s c rest := by
    rcases inCode_eq_or_announces p s c rest with heq | ⟨-, hdocs, -⟩
    · exact heq rest' hash
    · rw [docs] at hdocs
      exact absurd hdocs (by decide)
  have hreact : s.react p c rest' = s.react p c rest := by
    unfold react
    rw [hcode]
  rw [step, hreact, step]

/-- Nothing is announced. -/
theorem hereDocs_step_of_noHereDocs (c : Char) (rest : List Char) (none : s.hereDocs = []) :
    (s.step p c rest).1.hereDocs = [] := by
  by_contra queued
  rw [(angle_of_hereDocs_step none queued).1] at docs
  exact absurd docs (by decide)

theorem hereDocs_afterText_of_noHereDocs {text ahead : List Char} (none : s.hereDocs = []) :
    (s.afterText p text ahead).hereDocs = [] := by
  induction text generalizing s with
  | nil => exact none
  | cons c rest ih =>
    rw [afterText_cons]
    exact ih (hereDocs_step_of_noHereDocs docs c _ none)

/-- A text is read alike in front of everything but a hash. -/
theorem marksAhead_of_noHereDocs {text ahead : List Char} (offset : Nat)
    (hash : ahead.head? ≠ some '#') :
    marksAhead p ahead s offset text = marksAhead p [] s offset text := by
  induction text generalizing s offset with
  | nil => rfl
  | cons c rest ih =>
    have hsame : (rest ++ ahead).head? = some '#' ↔ (rest ++ []).head? = some '#' := by
      cases rest with
      | nil => simp [hash]
      | cons d rest => rfl
    rw [marksAhead_cons, marksAhead_cons, step_congr_of_noHereDocs docs s c hsame, ih]

theorem afterText_of_noHereDocs {text ahead : List Char} (hash : ahead.head? ≠ some '#') :
    s.afterText p text ahead = s.afterText p text [] := by
  rw [afterText, marksAhead_of_noHereDocs docs 0 hash, afterText]

theorem afterText_append_of_noHereDocs {text more ahead : List Char}
    (hash : (more ++ ahead).head? ≠ some '#') :
    s.afterText p (text ++ more) ahead = (s.afterText p text []).afterText p more ahead := by
  rw [afterText_append, afterText_of_noHereDocs docs hash]

/-- What holds of the marks of two texts holds of those of both together. -/
theorem forall_marksAhead_append {P : Mark → Prop} {text more ahead : List Char}
    (hash : (more ++ ahead).head? ≠ some '#')
    (first : ∀ offset, ∀ m ∈ marksAhead p [] s offset text, P m)
    (second : ∀ offset, ∀ m ∈ marksAhead p ahead (s.afterText p text []) offset more, P m)
    (offset : Nat) : ∀ m ∈ marksAhead p ahead s offset (text ++ more), P m := by
  intro m hm
  rw [marksAhead_append, afterMarks_marksAhead, marksAhead_of_noHereDocs docs offset hash,
    afterText_of_noHereDocs docs hash] at hm
  exact (List.mem_append.1 hm).elim (first offset m) (second _ m)

end Plain

end Nesting

/-! ### Groups -/

section Group

variable {d : Dialect} {s t : Nesting} {b : Bracket} {text : List Char}

/-- The state behind the bracket that opens a group. -/
theorem step_opening (b : Bracket) (balanced : s.isBalanced = true) (rest : List Char) :
    s.step d.profile b.opening rest =
      ({ s.openGroup b with last := some (b.opening, .code) }, .code) := by
  obtain ⟨hmode, -, -, hready⟩ := Nesting.isBalanced_iff.1 balanced
  have hspecial := d.escape_ne_of_mem b.mem_of_bracket.1
  exact Nesting.step_opener rest hmode hready b.ofOpener?_opening hspecial.1 hspecial.2

/-- Groups opened with nothing else open are alike. -/
theorem like_step_opening (hs : s.isBalanced = true) (ht : t.isBalanced = true) (b : Bracket) :
    (s.step d.profile b.opening []).1.Like (t.step d.profile b.opening []).1 := by
  obtain ⟨hmode, hgroups, hdocs, hready⟩ := Nesting.isBalanced_iff.1 hs
  obtain ⟨hmode', hgroups', hdocs', hready'⟩ := Nesting.isBalanced_iff.1 ht
  have hcode : s.mode.IsOutsideBodies := hmode ▸ ⟨Mode.noConfusion, fun _ ↦ Mode.noConfusion⟩
  rw [step_opening b hs, step_opening b ht]
  exact
    { mode := hmode.trans hmode'.symm
      escaping := hready.trans hready'.symm
      groups := by simp [Nesting.openGroup, hgroups, hgroups', Group.shape]
      hereDocs := by simp [Nesting.openGroup, hdocs, hdocs']
      lineSoFar := .inl hcode
      last := .inl rfl }

/-- A text that stays inside a group stands between its brackets: all marks in front of the closing
bracket are inside, and nothing is open behind it. -/
theorem marksAhead_group (docs : d.profile.hereDocs = false) (balanced : s.isBalanced = true)
    (inside : (s.step d.profile b.opening []).1.StaysInside d.profile text) (ahead : List Char)
    (offset : Nat) :
    ∃ run closing,
      marksAhead d.profile ahead s offset (b.opening :: (text ++ [b.closing])) = run ++ [closing] ∧
      Mark.text run = b.opening :: text ∧ (∀ m ∈ run, m.depth ≠ 0) ∧
      closing.char = b.closing ∧ closing.role = .code ∧ closing.after.isBalanced = true := by
  obtain ⟨-, hgroups, hdocs, -⟩ := Nesting.isBalanced_iff.1 balanced
  have hspecial := d.escape_ne_of_mem b.mem_of_bracket.2
  have hash : (b.closing :: ahead).head? ≠ some '#' := by cases b <;> simp [Bracket.closing]
  have hcode := inside.code
  have hready := inside.ready
  have hinner := inside.groups
  rw [step_opening b balanced] at inside hcode hready hinner
  set t : Nesting := { s.openGroup b with last := some (b.opening, .code) } with ht
  have hnone : (t.afterText d.profile text []).hereDocs = [] :=
    Nesting.hereDocs_afterText_of_noHereDocs docs hdocs
  have hclosing (offset : Nat) :
      marksAhead d.profile ahead (t.afterText d.profile text []) offset [b.closing] =
        [⟨offset, b.closing, .code, t.afterText d.profile text [],
          { t.afterText d.profile text [] with
            groups := s.groups, last := some (b.closing, .code) }⟩] := by
    rw [marksAhead_cons, Nesting.step_closer _ hcode hready b.ofCloser?_closing hinner hspecial.1
      hspecial.2]
    rfl
  have hmarks : marksAhead d.profile ahead s offset (b.opening :: (text ++ [b.closing])) =
      (⟨offset, b.opening, .code, s, t⟩ ::
        marksAhead d.profile [] t (offset + b.opening.utf8Size) text) ++
      [⟨offset + b.opening.utf8Size + byteLength text, b.closing, .code,
        t.afterText d.profile text [],
        { t.afterText d.profile text [] with
          groups := s.groups, last := some (b.closing, .code) }⟩] := by
    rw [marksAhead_cons, step_opening b balanced, marksAhead_append, List.singleton_append,
      Nesting.afterMarks_marksAhead, Nesting.marksAhead_of_noHereDocs docs _ hash,
      Nesting.afterText_of_noHereDocs docs hash, hclosing]
    rfl
  refine ⟨_, _, hmarks, ?_, ?_, rfl, rfl, ?_⟩
  · exact congrArg (b.opening :: ·) (text_marksAhead ..)
  · intro m hm
    rcases List.mem_cons.1 hm with rfl | hm
    · simp [Mark.depth, Nesting.depth, ht, Nesting.openGroup]
    · obtain ⟨n, hn, -, -, -, hafter⟩ := exists_mem_marksAhead 0 hm
      have hdepth : t.depth ≤ n.depth := inside.within n hn
      have hone : t.depth = s.groups.length + 1 := rfl
      rw [Mark.depth, hafter, hone] at hdepth
      rw [Mark.depth]
      omega
  · exact Nesting.isBalanced_iff.2 ⟨hcode, hgroups, hnone, hready⟩

/-- No statement ends in a group, and nothing is open behind it. -/
theorem isUnbroken_group (docs : d.profile.hereDocs = false) (balanced : s.isBalanced = true)
    (inside : (s.step d.profile b.opening []).1.StaysInside d.profile text) (ahead : List Char) :
    (∀ offset, ∀ m ∈ marksAhead d.profile ahead s offset (b.opening :: (text ++ [b.closing])),
        m.IsUnbroken) ∧
      (s.afterText d.profile (b.opening :: (text ++ [b.closing])) ahead).isBalanced = true := by
  refine ⟨fun offset m hm ↦ ?_, ?_⟩
  · obtain ⟨run, closing, hmarks, -, hrun, hchar, hrole, -⟩ :=
      marksAhead_group docs balanced inside ahead offset
    rw [hmarks] at hm
    rcases List.mem_append.1 hm with hm | hm
    · exact Mark.isUnbroken_of_depth (hrun m hm)
    · rw [List.mem_singleton.1 hm]
      refine Mark.isUnbroken_of_code hrole ?_
      rw [hchar]
      cases b <;> decide
  · obtain ⟨run, closing, hmarks, -, -, -, -, hclosed⟩ :=
      marksAhead_group docs balanced inside ahead 0
    rw [Nesting.afterText, hmarks, Nesting.afterMarks_append]
    exact hclosed

/-- A brace group at the start of a text is a block. -/
theorem Body.ofText_group (docs : d.profile.hereDocs = false)
    (inside : ((Nesting.start 1).step d.profile '{' []).1.StaysInside d.profile text) :
    Body.ofText d.profile ('{' :: (text ++ ['}'])) = .block text 1 := by
  obtain ⟨run, closing, hmarks, htext, hrun, -, -, hbalanced⟩ :=
    marksAhead_group (b := .brace) docs rfl inside [] 0
  exact Body.ofText_of_marks hmarks hrun hbalanced htext

end Group

end ShellCatalog
