import ShellCatalog.Proofs.ParameterBinding

/-!
# Positional words among parameters

A name and a value may be given by parameters, by positional words, or one by either. Arguments are
read from left to right: a positional word is the name as long as none has been given, and only then
the value.

**What is read of a list of complete arguments** is the name that a parameter gives last, or else
the first word; and the value that a parameter gives last, or else the first word met with a name at
hand (`ParameterForm.Binding.foldl_give_words`).

**A word in front of the parameter for the name is lost.** It is taken for the name, and the
parameter puts its own in its place. So arguments that fill the name and the value exactly propose
the same alias in every order that keeps the words in theirs, but for the orders with such a word,
which propose none (`ParameterForm.proposal?_reordered`).
-/

namespace ShellCatalog

namespace Argument

/-- The word of a positional argument. -/
def word? : Argument → Option (List Char)
  | positional word => some word
  | switch _ | pair .. => none

end Argument

/-- The positional words, in order. -/
def positionalWords (args : List Argument) : List (List Char) :=
  args.filterMap Argument.word?

namespace ParameterForm

section Words

variable {spec : ParameterForm} {args args' : List Argument}

/-- What parameters of a role give, in order. -/
def givenTo (spec : ParameterForm) (role : ParamRole) (args : List Argument) : List (List Char) :=
  args.filterMap (Argument.given? spec role)

/-- The argument gives the name, as a parameter or as a word. -/
def namesAny (spec : ParameterForm) (a : Argument) : Bool :=
  ((a.given? spec .name).or a.word?).isSome

/-- The words that are met when a name has been given. -/
def wordsBehindName (spec : ParameterForm) (args : List Argument) : List (List Char) :=
  positionalWords (args.dropWhile fun a ↦ !spec.namesAny a).tail

/-- A positional word stands in front of the parameter that gives the name. -/
def LosesWord (spec : ParameterForm) (args : List Argument) : Prop :=
  spec.givenTo .name args ≠ [] ∧
    positionalWords (args.takeWhile fun a ↦ (a.given? spec .name).isNone) ≠ []

instance (spec : ParameterForm) (args : List Argument) : Decidable (spec.LosesWord args) :=
  inferInstanceAs (Decidable (_ ∧ _))

/-- The arguments are complete, no two parameters give the same, and there are as many positional
words as parameters leave to be given of the name and the value. -/
structure FillsExactly (spec : ParameterForm) (args : List Argument) : Prop where
  complete : ∀ a ∈ args, a.IsComplete spec
  names : (spec.givenTo .name args).length ≤ 1
  values : (spec.givenTo .value args).length ≤ 1
  words : (positionalWords args).length + (spec.givenTo .name args).length +
    (spec.givenTo .value args).length = 2

/-! ### What is read -/

theorem givenTo_cons_or (role : ParamRole) (a : Argument) (args : List Argument)
    (o : Option (List Char)) :
    (spec.givenTo role (a :: args)).getLast?.or o =
      (spec.givenTo role args).getLast?.or ((a.given? spec role).or o) :=
  getLast?_filterMap_cons_or ..

theorem word?_eq_none {a : Argument} (named : a.IsNamed) : a.word? = none := by
  cases a with
  | positional => exact absurd named id
  | _ => rfl

theorem positionalWords_cons_of_isNamed {a : Argument} (named : a.IsNamed) :
    positionalWords (a :: args) = positionalWords args :=
  List.filterMap_cons_none (word?_eq_none named)

theorem wordsBehindName_cons (a : Argument) (args : List Argument) :
    spec.wordsBehindName (a :: args) =
      if spec.namesAny a then positionalWords args else spec.wordsBehindName args := by
  rw [wordsBehindName, List.dropWhile_cons, wordsBehindName]
  cases spec.namesAny a <;> rfl

/-- The name is the last that a parameter gives, or else the first positional word. The value is the
last that a parameter gives, or else the first positional word that is met with a name at hand. -/
theorem Binding.foldl_give_words (b : Binding) :
    args.foldl (give spec) b =
      ⟨(spec.givenTo .name args).getLast?.or (b.name.or (positionalWords args).head?),
        (spec.givenTo .value args).getLast?.or (b.value.or
          (if b.name.isSome then positionalWords args
            else spec.wordsBehindName args).head?)⟩ := by
  induction args generalizing b with
  | nil => cases b; simp [givenTo, positionalWords, wordsBehindName]
  | cons a args ih =>
    rw [List.foldl_cons, ih, givenTo_cons_or, givenTo_cons_or, wordsBehindName_cons]
    by_cases hnamed : a.IsNamed
    · rw [give_eq hnamed, positionalWords_cons_of_isNamed hnamed, namesAny, word?_eq_none hnamed,
        Option.or_none]
      cases a.given? spec .name <;> cases b.name <;> simp [Option.or_assoc]
    · cases a with
      | positional word =>
        obtain ⟨name, value⟩ := b
        cases name <;> cases value <;>
          simp [give, positional, positionalWords, namesAny, Argument.given?, Argument.word?]
      | _ => exact absurd trivial hnamed

/-! ### Words in front of the parameter for the name -/

/-- Only when no positional word stands in front of the parameter that gives the name are all of
them met with a name at hand; the first of them is the name otherwise. -/
theorem wordsBehindName_eq (spec : ParameterForm) (args : List Argument) :
    spec.wordsBehindName args =
      if spec.givenTo .name args ≠ [] ∧ ¬spec.LosesWord args then positionalWords args
      else (positionalWords args).tail := by
  induction args with
  | nil => rfl
  | cons a args ih =>
    rw [wordsBehindName_cons]
    by_cases hnamed : a.IsNamed
    · have hwords := @positionalWords_cons_of_isNamed args a hnamed
      cases hgiven : a.given? spec .name with
      | none =>
        have hname : spec.givenTo .name (a :: args) = spec.givenTo .name args :=
          List.filterMap_cons_none hgiven
        have hloses : spec.LosesWord (a :: args) ↔ spec.LosesWord args := by
          rw [LosesWord, LosesWord, hname, List.takeWhile_cons, hgiven,
            if_pos Option.isNone_none, positionalWords_cons_of_isNamed hnamed]
        simp only [namesAny, hgiven, word?_eq_none hnamed, hname, hloses, hwords, ih]
        rfl
      | some name =>
        have hloses : ¬spec.LosesWord (a :: args) := by
          rw [LosesWord, List.takeWhile_cons, hgiven]
          exact fun h ↦ h.2 rfl
        have hname : spec.givenTo .name (a :: args) ≠ [] := by
          rw [givenTo, List.filterMap_cons_some hgiven]
          exact List.cons_ne_nil _ _
        rw [if_pos (by simp [namesAny, hgiven]), if_pos ⟨hname, hloses⟩, hwords]
    · cases a with
      | positional word =>
        have hloses : spec.givenTo .name (.positional word :: args) ≠ [] →
            spec.LosesWord (.positional word :: args) :=
          fun hname ↦ ⟨hname, List.cons_ne_nil word _⟩
        have hnames : spec.namesAny (.positional word) = true := rfl
        rw [if_pos hnames, if_neg fun h ↦ h.2 (hloses h.1)]
        rfl
      | _ => exact absurd trivial hnamed

/-- There is no word to lose without positional words, and none without a parameter that gives the
name. -/
theorem not_losesWord (h : spec.givenTo .name args = [] ∨ positionalWords args = []) :
    ¬spec.LosesWord args := by
  rintro ⟨hname, hfront⟩
  refine hfront (List.filterMap_eq_nil_iff.2 fun a ha ↦ ?_)
  exact List.filterMap_eq_nil_iff.1 (h.resolve_left hname) a
    ((List.takeWhile_prefix _).subset ha)

/-! ### Arguments in another order -/

/-- Each of the name and the value is given by a parameter or is left to a positional word. -/
theorem FillsExactly.givers (fills : spec.FillsExactly args) :
    ((∃ name, spec.givenTo .name args = [name]) ∧ (∃ value, spec.givenTo .value args = [value]) ∧
        positionalWords args = []) ∨
      ((∃ name, spec.givenTo .name args = [name]) ∧ spec.givenTo .value args = [] ∧
        ∃ word, positionalWords args = [word]) ∨
      (spec.givenTo .name args = [] ∧ (∃ value, spec.givenTo .value args = [value]) ∧
        ∃ word, positionalWords args = [word]) ∨
      spec.givenTo .name args = [] ∧ spec.givenTo .value args = [] ∧
        ∃ word word', positionalWords args = [word, word'] := by
  have hnames := fills.names
  have hvalues := fills.values
  have hwords := fills.words
  simp only [← List.length_eq_one_iff, ← List.length_eq_two, ← List.length_eq_zero_iff]
  omega

/-- Arguments that fill the name and the value exactly propose the alias, unless a positional word
stands in front of the parameter that gives the name. -/
theorem FillsExactly.exists_proposal? (p : Profile) (fills : spec.FillsExactly args) :
    ∃ name value,
      spec.givenTo .name args ++ positionalWords args ++ spec.givenTo .value args =
        [name, value] ∧
      spec.proposal? p (args.flatMap Argument.words) =
        if spec.LosesWord args then none else some ⟨unquote p name, unquote p value⟩ := by
  have hloses := @not_losesWord spec args
  have hbind : spec.bind ⟨none, none⟩ (args.flatMap Argument.words) =
      ⟨(spec.givenTo .name args).getLast?.or (positionalWords args).head?,
        (spec.givenTo .value args).getLast?.or (spec.wordsBehindName args).head?⟩ := by
    rw [bind_flatMap_words fills.complete, Binding.foldl_give_words]
    rfl
  rw [proposal?, hbind, wordsBehindName_eq]
  rcases fills.givers with ⟨⟨name, hname⟩, ⟨value, hvalue⟩, hwords⟩ |
    ⟨⟨name, hname⟩, hvalue, value, hwords⟩ | ⟨hname, ⟨value, hvalue⟩, name, hwords⟩ |
    ⟨hname, hvalue, name, value, hwords⟩ <;>
    refine ⟨name, value, by rw [hname, hvalue, hwords]; rfl, ?_⟩
  · rw [if_neg (hloses (.inr hwords)), hname, hvalue]
    rfl
  · -- The word is the value if it has not been taken for the name.
    by_cases hlost : spec.LosesWord args <;> simp [hname, hvalue, hwords, hlost]
  · rw [if_neg (hloses (.inl hname)), hname, hvalue, hwords]
    rfl
  · rw [if_neg (hloses (.inl hname)), hname, hvalue, hwords]
    rfl

/-- The same arguments in another order fill the name and the value as well. -/
theorem FillsExactly.of_perm (fills : spec.FillsExactly args) (perm : args'.Perm args)
    (order : positionalWords args' = positionalWords args) :
    spec.FillsExactly args' ∧ ∀ role ∈ [.name, .value],
      spec.givenTo role args' = spec.givenTo role args := by
  have hgiven (role : ParamRole) (once : (spec.givenTo role args).length ≤ 1) :
      spec.givenTo role args' = spec.givenTo role args := by
    have hperm : (spec.givenTo role args').Perm (spec.givenTo role args) := perm.filterMap _
    rcases Nat.le_one_iff_eq_zero_or_eq_one.1 once with hnone | hone
    · rw [List.length_eq_zero_iff.1 hnone] at hperm ⊢
      exact hperm.eq_nil
    · obtain ⟨text, htext⟩ := List.length_eq_one_iff.1 hone
      rw [htext] at hperm ⊢
      exact List.perm_singleton.1 hperm
  have hname := hgiven .name fills.names
  have hvalue := hgiven .value fills.values
  refine ⟨⟨fun a ha ↦ fills.complete a (perm.subset ha), ?_, ?_, ?_⟩, ?_⟩
  · rw [hname]
    exact fills.names
  · rw [hvalue]
    exact fills.values
  · rw [hname, hvalue, order]
    exact fills.words
  · simp [hname, hvalue]

/-- Arguments that fill the name and the value exactly propose one alias in every order that keeps
their positional words in order: what parameters give, and the words for what is left of the name
and the value. Only the orders in which a positional word stands in front of the parameter for the
name propose none. -/
theorem proposal?_reordered (p : Profile) (fills : spec.FillsExactly args) :
    ∃ name value,
      spec.givenTo .name args ++ positionalWords args ++ spec.givenTo .value args =
        [name, value] ∧
      ∀ args' : List Argument, args'.Perm args → positionalWords args' = positionalWords args →
        spec.proposal? p (args'.flatMap Argument.words) =
          if spec.LosesWord args' then none else some ⟨unquote p name, unquote p value⟩ := by
  obtain ⟨name, value, hslots, -⟩ := fills.exists_proposal? p
  refine ⟨name, value, hslots, fun args' perm order ↦ ?_⟩
  obtain ⟨hfills, hgiven⟩ := fills.of_perm perm order
  obtain ⟨name', value', hslots', hproposal⟩ := hfills.exists_proposal? p
  rw [hgiven .name (by simp), hgiven .value (by simp), order, hslots] at hslots'
  obtain ⟨rfl, hvalue⟩ := List.cons.inj hslots'
  obtain ⟨rfl, -⟩ := List.cons.inj hvalue
  exact hproposal

end Words

/-- A word behind the parameter for the name is the value, and in front of it the word is lost. -/
theorem proposal?_of_lostWord :
    ∃ spec, Dialect.pwsh.profile.aliasForm = .parameters spec ∧
      spec.proposal? Dialect.pwsh.profile
          ["-n:ll".toList, "-Force".toList, "'ls -l'".toList, "-sco".toList, "-x".toList] =
        some ⟨"ll".toList, "ls -l".toList⟩ ∧
      spec.proposal? Dialect.pwsh.profile
          ["-sco".toList, "-x".toList, "'ls -l'".toList, "-n:ll".toList, "-Force".toList] =
        none := by
  let spec : ParameterForm :=
    ⟨["Set-Alias", "New-Alias", "sal", "nal"], "-Name", "-Value",
      ["-Scope", "-Option", "-Description"]⟩
  let forName : Argument := .pair "-n".toList "ll".toList true
  let force : Argument := .switch "-Force".toList
  let word : Argument := .positional "'ls -l'".toList
  let scope : Argument := .pair "-sco".toList "-x".toList false
  have fills : spec.FillsExactly [forName, force, word, scope] := by
    refine ⟨fun a ha ↦ ?_, by decide, by decide, by decide⟩
    simp only [List.mem_cons, List.not_mem_nil, or_false] at ha
    rcases ha with rfl | rfl | rfl | rfl
    · exact ⟨'n', [], by decide⟩
    · exact ⟨⟨'F', "orce".toList, by decide⟩, by decide⟩
    · exact (rfl : splitParam? "'ls -l'".toList = none)
    · exact ⟨⟨'s', "co".toList, by decide⟩, by decide⟩
  obtain ⟨name, value, hslots, hreordered⟩ := proposal?_reordered Dialect.pwsh.profile fills
  have hgiven : ["ll".toList, "'ls -l'".toList] = [name, value] :=
    Eq.trans (by decide) hslots
  obtain ⟨rfl, hvalue⟩ := List.cons.inj hgiven
  obtain ⟨rfl, -⟩ := List.cons.inj hvalue
  refine ⟨spec, rfl, ?_, ?_⟩
  · refine (hreordered [forName, force, word, scope] (.refl _) rfl).trans ?_
    decide
  · refine (hreordered [scope, word, forName, force] (List.isPerm_iff.1 (by decide)) rfl).trans ?_
    decide

end ParameterForm

end ShellCatalog
