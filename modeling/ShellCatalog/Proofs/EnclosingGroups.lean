import ShellCatalog.Proofs.InsideGroup

/-!
# Reading does not depend on the enclosing groups

A text of whole lines that leaves nothing open on its own is read in the same way inside any groups:
every character has its class, and the groups are open all the time. Two rules of code look at the
groups in front, and the text must stay clear of both. A closing bracket without a group of its own
may close one of them. And the two innermost groups may be parentheses, as in arithmetic, where `<<`
is a shift and announces nothing.

**The second rule is the only exception** (`marks_inside_groups`): a text that closes none of the
groups is read as on its own if and only if it announces nothing where, counted with them, the two
innermost groups are parentheses.
-/

namespace ShellCatalog

/-- The second mark is the first, so many groups deeper. -/
structure Mark.SameDeeper (groups : Nat) (m n : Mark) : Prop where
  char : n.char = m.char
  role : n.role = m.role
  depth : n.depth = m.depth + groups
  waiting : n.after.hereDocs.length = m.after.hereDocs.length

namespace Nesting

variable {s t : Nesting} {outer : List Group}

theorem SameOpen.under (h : s.SameOpen t) (outer : List Group) :
    (s.under outer).SameOpen (t.under outer) :=
  { h with
    groups := by rw [Nesting.under, Nesting.under, List.map_append, List.map_append, h.groups] }

/-- Without its groups a state of code is one in which a word may begin. -/
theorem exists_eq_under (code : s.mode = .code) (ready : s.escaping = false)
    (quiet : s.hereDocs = []) (blank : s.AtBlank) :
    ∃ t : Nesting, t.AtWord ∧ s = t.under s.groups :=
  ⟨{ s with groups := [] }, ⟨isBalanced_iff.2 ⟨code, rfl, quiet, ready⟩, blank⟩, rfl⟩

end Nesting

section Texts

variable {d : Dialect} {s : Nesting} {outer : List Group} {text ahead : List Char}

theorem Mark.Related.announcesFreely_iff {bytes : Nat} {m n : Mark}
    (h : Mark.Related Nesting.Like bytes m n) :
    m.AnnouncesFreely outer ↔ n.AnnouncesFreely outer := by
  rw [AnnouncesFreely, AnnouncesFreely, Announces, Announces, h.before.length_hereDocs,
    h.after.length_hereDocs, (h.before.toSameOpen.under outer).inArithmetic]

theorem Mark.Related.closesNone {bytes : Nat} {m n : Mark}
    (h : Mark.Related Nesting.Like bytes m n) (hm : m.ClosesNone outer) : n.ClosesNone outer := by
  intro hrole hgroups
  have hnone : m.before.groups = [] := by
    have hshapes := h.before.groups
    rwa [hgroups, List.map_nil, List.map_eq_nil_iff] at hshapes
  rw [← h.char]
  exact hm (h.role.trans hrole) hnone

/-- A document that is announced where further groups make arithmetic is not announced under them,
so as many documents wait under them only if there is none. -/
theorem announcesFreely_of_waiting {offset : Nat}
    (none_closed : ∀ m ∈ marksAhead d.profile ahead s offset text, m.ClosesNone outer)
    (waiting : List.Forall₂ (fun m n : Mark ↦ n.after.hereDocs.length = m.after.hereDocs.length)
      (marksAhead d.profile ahead s offset text)
      (marksAhead d.profile ahead (s.under outer) offset text)) :
    ∀ m ∈ marksAhead d.profile ahead s offset text, m.AnnouncesFreely outer := by
  induction text generalizing s offset with
  | nil => simp [marksAhead]
  | cons c rest ih =>
    rw [marksAhead_cons] at none_closed waiting ⊢
    rw [marksAhead_cons] at waiting
    obtain ⟨hsame, hrest⟩ := List.forall₂_cons.1 waiting
    have hfree : (s.hereDocs.length < (s.step d.profile c (rest ++ ahead)).1.hereDocs.length) →
        (s.under outer).inArithmetic = false := fun announces ↦
      Nesting.inArithmetic_of_length_hereDocs (announces.trans_eq hsame.symm)
    rw [Nesting.step_under (none_closed _ List.mem_cons_self) hfree] at hrest
    exact List.forall_mem_cons.2
      ⟨hfree, ih (fun m hm ↦ none_closed m (List.mem_cons_of_mem _ hm)) hrest⟩

/-- Two readings that both stay side by side with a third stay side by side with each other. -/
theorem forall₂_of_common {α β γ : Type} {R : α → β → Prop} {S : α → γ → Prop} {T : β → γ → Prop}
    {l : List α} {l₁ : List β} {l₂ : List γ} (h : List.Forall₂ R l l₁) (h' : List.Forall₂ S l l₂)
    (step : ∀ {a b c}, R a b → S a c → T b c) : List.Forall₂ T l₁ l₂ := by
  induction h generalizing l₂ with
  | nil =>
    cases h'
    exact .nil
  | cons hab _ ih =>
    cases h' with
    | cons hac hrest => exact .cons (step hab hac) (ih hrest)

/-- A text of whole lines that is balanced on its own is read alike whatever follows it. -/
theorem marks_of_balanced {line : Nat} (ends : text.getLast? = some '\n')
    (balanced : ((Nesting.start line).afterText d.profile text []).isBalanced = true)
    (ahead : List Char) :
    marks d.profile text line = marksAhead d.profile ahead (.start line) 0 text ∧
      (Nesting.start line).afterText d.profile text [] =
        (Nesting.start line).afterText d.profile text ahead := by
  obtain ⟨front, rfl⟩ := List.getLast?_eq_some_iff.1 ends
  obtain ⟨-, -, hdocs, -⟩ := Nesting.isBalanced_iff.1 balanced
  have done : ¬ ((Nesting.start line).afterText d.profile (front ++ ['\n']) []).Waits := by
    rintro ⟨doc, hdoc, -⟩
    rw [hdocs] at hdoc
    exact absurd hdoc List.not_mem_nil
  have hmarks := Nesting.marksAhead_lines_congr 0 [] ahead List.not_mem_nil done
  refine ⟨(marksAhead_nil ..).symm.trans hmarks, ?_⟩
  rw [Nesting.afterText, hmarks, Nesting.afterText]

/-- Under further groups a state in which a word may begin reads as a fresh one, if and only if
nothing is announced where they make arithmetic. -/
theorem marksAhead_under_iff {t : Nesting} {line : Nat} (offset : Nat) (ahead : List Char)
    (ht : t.AtWord)
    (ends : text.getLast? = some '\n')
    (balanced : ((Nesting.start line).afterText d.profile text []).isBalanced = true)
    (none_closed : ∀ m ∈ marks d.profile text line, m.ClosesNone outer) :
    (List.Forall₂ (Mark.SameDeeper outer.length) (marks d.profile text line)
        (marksAhead d.profile ahead (t.under outer) offset text) ∧
      ∃ u : Nesting, (t.under outer).afterText d.profile text ahead = u.under outer ∧
        u.isBalanced = true) ↔
    ∀ m ∈ marks d.profile text line, m.AnnouncesFreely outer := by
  obtain ⟨hmarks, hafter⟩ := marks_of_balanced ends balanced ahead
  have alike : (Nesting.start line).Like t := (Nesting.atWord_start line).like ht
  -- The reading without the groups stands between the two.
  have hrelated (offset : Nat) : List.Forall₂ (Mark.Related Nesting.Like offset)
      (marks d.profile text line) (marksAhead d.profile ahead t offset text) := by
    have h := forall₂_marksAhead (p := d.profile) (fun h c rest ↦ h.step c rest) alike 0 offset
      text ahead
    rwa [Nat.zero_add, ← hmarks] at h
  have hclosed (offset : Nat) :
      ∀ n ∈ marksAhead d.profile ahead t offset text, n.ClosesNone outer :=
    forall_of_forall₂ (hrelated offset) (fun h hm ↦ h.closesNone hm) none_closed
  constructor
  · rintro ⟨hsame, -⟩
    have hwaiting := forall₂_of_common (hrelated offset) hsame
      (T := fun n n' ↦ n'.after.hereDocs.length = n.after.hereDocs.length)
      fun hrel hdeeper ↦ hdeeper.waiting.trans hrel.after.length_hereDocs
    exact forall_of_forall₂ (hrelated offset).flip (fun h hn ↦ h.announcesFreely_iff.2 hn)
      (announcesFreely_of_waiting (hclosed offset) hwaiting)
  · intro hfree
    have hunder (offset : Nat) : marksAhead d.profile ahead (t.under outer) offset text =
        (marksAhead d.profile ahead t offset text).map (Mark.under outer) :=
      marksAhead_under (hclosed offset) (forall_of_forall₂ (hrelated offset)
        (fun h hm ↦ h.announcesFreely_iff.1 hm) hfree)
    refine ⟨?_, _, afterText_of_marksAhead_under (hunder 0), ?_⟩
    · rw [hunder, List.forall₂_map_right_iff]
      refine (hrelated offset).imp fun m n h ↦ ⟨h.char.symm, h.role.symm, ?_, ?_⟩
      · have hdepth : n.depth = m.depth := h.after.depth.symm
        show (n.after.groups ++ outer).length = _
        rw [List.length_append, ← hdepth]
        rfl
      · exact h.after.length_hereDocs.symm
    · rw [← (alike.afterText text ahead).isBalanced, ← hafter]
      exact balanced

/-- Inside open groups a text that is balanced on its own, and closes none of them, is read as on
its own, so many groups deeper, if and only if it announces nothing where the groups make
arithmetic. -/
theorem marks_inside_groups (line offset : Nat) (ahead : List Char) (code : s.mode = .code)
    (ready : s.escaping = false) (quiet : s.hereDocs = []) (blank : s.AtBlank)
    (ends : text.getLast? = some '\n')
    (balanced : ((Nesting.start line).afterText d.profile text []).isBalanced = true)
    (none_closed : ∀ m ∈ marks d.profile text line, m.ClosesNone s.groups) :
    (List.Forall₂ (Mark.SameDeeper s.depth) (marks d.profile text line)
        (marksAhead d.profile ahead s offset text) ∧
      (s.afterText d.profile text ahead).mode = .code ∧
      (s.afterText d.profile text ahead).escaping = false ∧
      (s.afterText d.profile text ahead).groups = s.groups ∧
      (s.afterText d.profile text ahead).hereDocs = []) ↔
    ∀ m ∈ marks d.profile text line, m.AnnouncesFreely s.groups := by
  obtain ⟨t, ht, hs⟩ := Nesting.exists_eq_under code ready quiet blank
  rw [← marksAhead_under_iff offset ahead ht ends balanced none_closed, ← hs, Nesting.depth]
  refine and_congr_right fun _ ↦ ?_
  constructor
  · rintro ⟨hmode, hready, hgroups, hdocs⟩
    obtain ⟨u, hu, hunder⟩ :
        ∃ u : Nesting, u.groups = [] ∧ s.afterText d.profile text ahead = u.under s.groups :=
      ⟨{ s.afterText d.profile text ahead with groups := [] }, rfl, by
        rw [Nesting.under, List.nil_append, ← hgroups]⟩
    rw [hunder] at hmode hready hdocs
    exact ⟨u, hunder, Nesting.isBalanced_iff.2 ⟨hmode, hu, hdocs, hready⟩⟩
  · rintro ⟨u, hu, hbalanced⟩
    obtain ⟨hmode, hgroups, hdocs, hready⟩ := Nesting.isBalanced_iff.1 hbalanced
    rw [hu]
    exact ⟨hmode, hready, by rw [Nesting.under, hgroups, List.nil_append], hdocs⟩

end Texts

/-- A subshell with a here-document, inside a brace group inside a subshell. -/
theorem marks_inside_groups_of_subshell :
    let s := (Nesting.start 1).afterText Dialect.bash.profile "( \x7b\n".toList []
    let text := "( cat <<E )\n'\nE\n".toList
    List.Forall₂ (Mark.SameDeeper 2) (marks Dialect.bash.profile text)
        (marksAhead Dialect.bash.profile [] s 4 text) ∧
      (s.afterText Dialect.bash.profile text []).mode = .code ∧
      (s.afterText Dialect.bash.profile text []).escaping = false ∧
      (s.afterText Dialect.bash.profile text []).groups = s.groups ∧
      (s.afterText Dialect.bash.profile text []).hereDocs = [] := by
  intro s text
  have hgroups : s.groups = [⟨.brace, 1, none⟩, ⟨.paren, 1, none⟩] := by decide +kernel
  have hblank : s.AtBlank := by
    intro c hc
    have hlast : s.lastChar? = some '\n' := by decide +kernel
    obtain rfl : '\n' = c := Option.some_inj.1 (hlast.symm.trans hc)
    decide
  have hclosed : ∀ m ∈ marks Dialect.bash.profile text, m.ClosesNone s.groups := by
    rw [hgroups]
    decide +kernel
  have hfree : ∀ m ∈ marks Dialect.bash.profile text, m.AnnouncesFreely s.groups := by
    rw [hgroups]
    decide +kernel
  have hreads := (marks_inside_groups 1 4 [] (by decide +kernel) (by decide +kernel)
    (by decide +kernel) hblank (by decide +kernel) (by decide +kernel) hclosed).2 hfree
  rwa [Nesting.depth, hgroups] at hreads

/-- Inside arithmetic a shift is not read as the here-document that it would announce on its own. -/
theorem marks_inside_arithmetic_ne :
    let s := (Nesting.start 1).afterText Dialect.bash.profile "$((\n".toList "a <<b\nb\n".toList
    let text := "a <<b\nb\n".toList
    (Nesting.Reached Dialect.bash.profile text s ∧ s.mode = .code ∧ s.escaping = false ∧
      s.hereDocs = [] ∧ s.lastChar? = some '\n' ∧ text.getLast? = some '\n' ∧
      ((Nesting.start 1).afterText Dialect.bash.profile text []).isBalanced = true ∧
      ∀ m ∈ marks Dialect.bash.profile text, Bracket.ofCloser? m.char = none) ∧
    (marksAhead Dialect.bash.profile [] s 4 text).map Mark.role ≠
      (marks Dialect.bash.profile text).map Mark.role := by
  intro s text
  exact ⟨⟨Nesting.reached_iff.2 ⟨1, _, rfl⟩, by decide +kernel, by decide +kernel,
    by decide +kernel, by decide +kernel, by decide +kernel, by decide +kernel, by decide +kernel⟩,
    by decide +kernel⟩

end ShellCatalog
