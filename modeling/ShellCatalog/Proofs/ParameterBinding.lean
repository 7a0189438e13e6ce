import Mathlib.Data.List.Basic
import ShellCatalog.AliasCommand.Written
import ShellCatalog.Proofs.GoodName

/-!
# What parameters bind

The arguments of a command are read word by word, but a parameter and what it takes belong together.

**A complete argument is read as a whole** (`ParameterForm.bind_words`): it takes nothing from what
stands behind it and leaves nothing there. So a list of complete arguments is read in one step per
argument (`ParameterForm.bind_flatMap_words`).

**Parameters bind independently of their order.** Without positional words, what a step gives to the
name and to the value depends on its argument alone, and the last gift counts
(`Binding.foldl_give`). A list in which one argument gives the name and one the value therefore
proposes the same alias in every order (`ParameterForm.proposal?_of_perm`).
-/

namespace ShellCatalog

/-! ### Words that begin a parameter -/

/-- The word begins the parameter, in any case. -/
def BeginsParam (word : List Char) (param : String) : Prop :=
  ∃ front, front <+: param.toList ∧ sameWord front word = true

theorem length_of_sameWord {s t : List Char} (h : sameWord s t = true) : s.length = t.length := by
  rw [sameWord, beq_iff_eq] at h
  simpa using congrArg List.length h

theorem beginsParam_iff {word : List Char} {param : String} :
    BeginsParam word param ↔
      word.length ≤ param.length ∧ sameWord (param.toList.take word.length) word = true := by
  constructor
  · rintro ⟨front, hfront, hsame⟩
    have hlength := length_of_sameWord hsame
    refine ⟨?_, ?_⟩
    · rw [← hlength, ← String.length_toList]
      exact hfront.length_le
    · rwa [← hlength, ← List.prefix_iff_eq_take.1 hfront]
  · rintro ⟨-, hsame⟩
    exact ⟨_, List.take_prefix .., hsame⟩

instance (word : List Char) (param : String) : Decidable (BeginsParam word param) :=
  decidable_of_iff _ beginsParam_iff.symm

/-- A word of at least two characters abbreviates the parameters that it begins. -/
theorem abbreviates_iff {word : List Char} {param : String} :
    abbreviates word param = true ↔ 2 ≤ word.length ∧ BeginsParam word param := by
  rw [beginsParam_iff]
  simp [abbreviates, and_assoc]

/-- Parameters that one word begins agree as far as the word goes. -/
theorem BeginsParam.sameWord_take {word : List Char} {param param' : String} {n : Nat}
    (h : BeginsParam word param) (h' : BeginsParam word param') (hn : n ≤ word.length) :
    sameWord (param.toList.take n) (param'.toList.take n) = true := by
  have hsame := (beginsParam_iff.1 h).2
  have hsame' := (beginsParam_iff.1 h').2
  rw [sameWord, beq_iff_eq] at hsame hsame' ⊢
  have htake := congrArg (List.take n) (hsame.trans hsame'.symm)
  simpa [← List.map_take, List.take_take, Nat.min_eq_left hn] using htake

/-! ### Arguments that are complete -/

/-- The text is a parameter: a hyphen and at least one more character, none of which is a colon. -/
def IsParam (text : List Char) : Prop :=
  ∃ c rest, text = '-' :: c :: rest ∧ ':' ∉ c :: rest

/-- A parameter with two characters or more that is begun by a word of two characters or more makes
the word a parameter. -/
theorem BeginsParam.isParam {word : List Char} {param : String} (h : BeginsParam word param)
    (long : 2 ≤ word.length) (hyphen : param.toList.head? = some '-')
    (colon : ':' ∉ param.toList) : IsParam word := by
  obtain ⟨front, hfront, hsame⟩ := h
  match word, long with
  | d :: c :: rest, _ =>
    have hd : d = '-' := by
      cases front with
      | nil => simp [sameWord] at hsame
      | cons e front =>
        obtain ⟨more, hmore⟩ := hfront
        rw [← hmore, List.cons_append, List.head?_cons, Option.some_inj] at hyphen
        subst hyphen
        simp only [sameWord, List.map_cons, beq_iff_eq, List.cons.injEq] at hsame
        exact eq_of_lowerAscii (by decide) hsame.1.symm
    refine ⟨c, rest, by rw [hd], fun hmem ↦ colon (hfront.subset ?_)⟩
    exact mem_of_sameWord (by decide) (by decide) hsame (List.mem_cons_of_mem d hmem)

namespace ParameterForm

variable {spec : ParameterForm}

/-- The parameters that a command knows. -/
def params (spec : ParameterForm) : List String :=
  spec.forName :: spec.forValue :: spec.valued

theorem splitParam?_of_isParam {param : List Char} (h : IsParam param) :
    splitParam? param = some (param, none) := by
  obtain ⟨c, rest, rfl, hcolon⟩ := h
  have hnone : splitAt? ':' ('-' :: c :: rest) = none := by
    by_contra hsome
    obtain ⟨⟨left, right⟩, hsplit⟩ := Option.ne_none_iff_exists'.1 hsome
    obtain ⟨htext, -⟩ := splitAt?_eq_some_iff.1 hsplit
    have hmem : ':' ∈ '-' :: c :: rest := by
      rw [htext]
      simp
    rcases List.mem_cons.1 hmem with hmem | hmem
    · exact absurd hmem (by decide)
    · exact hcolon hmem
  simp [splitParam?, hnone]

theorem splitParam?_colon {param : List Char} (arg : List Char) (h : IsParam param) :
    splitParam? (param ++ ':' :: arg) = some (param, some arg) := by
  obtain ⟨c, rest, rfl, hcolon⟩ := h
  have hsplit : splitAt? ':' ('-' :: c :: rest ++ ':' :: arg) = some ('-' :: c :: rest, arg) :=
    splitAt?_eq_some_iff.2 ⟨rfl, List.not_mem_cons_of_ne_of_not_mem (by decide) hcolon⟩
  simp only [List.cons_append] at hsplit
  simp [splitParam?, hsplit]

end ParameterForm

/-- The argument takes nothing from what stands behind it, and leaves nothing there. -/
def Argument.IsComplete (spec : ParameterForm) : Argument → Prop
  | positional word => ParameterForm.splitParam? word = none
  | switch param => IsParam param ∧ spec.role param = .switch
  | pair param _ true => IsParam param
  | pair param _ false => IsParam param ∧ spec.role param ≠ .switch

namespace ParameterForm

variable {spec : ParameterForm} {args : List Argument}

/-- The binding with what an argument gives. -/
def Binding.give (spec : ParameterForm) (b : Binding) : Argument → Binding
  | .positional word => b.positional word
  | .switch _ => b
  | .pair param arg _ =>
    match spec.role param with
    | .name => { b with name := some arg }
    | .value => { b with value := some arg }
    | .valued | .switch => b

/-- A complete argument is read as a whole. -/
theorem bind_words {a : Argument} (complete : a.IsComplete spec) (b : Binding)
    (rest : List (List Char)) : spec.bind b (a.words ++ rest) = spec.bind (b.give spec a) rest := by
  cases a with
  | positional word =>
    have hsplit : splitParam? word = none := complete
    simp [Argument.words, bind, hsplit, Binding.give]
  | switch param =>
    obtain ⟨hparam, hrole⟩ := complete
    simp [Argument.words, bind, splitParam?_of_isParam hparam, hrole, Binding.give]
  | pair param arg colon =>
    cases colon with
    | true =>
      have hsplit := splitParam?_colon arg complete
      rw [Argument.words, List.singleton_append, bind, hsplit]
      cases hrole : spec.role param <;> simp [hrole, Binding.give]
    | false =>
      obtain ⟨hparam, hswitch⟩ := complete
      rw [Argument.words, List.cons_append, List.singleton_append, bind,
        splitParam?_of_isParam hparam]
      cases hrole : spec.role param with
      | switch => exact absurd hrole hswitch
      | _ => simp [hrole, Binding.give]

/-- Complete arguments are read one by one. -/
theorem bind_flatMap_words (complete : ∀ a ∈ args, a.IsComplete spec) (b : Binding) :
    spec.bind b (args.flatMap Argument.words) = args.foldl (Binding.give spec) b := by
  induction args generalizing b with
  | nil => rw [List.flatMap_nil, bind, List.foldl_nil]
  | cons a args ih =>
    rw [List.flatMap_cons, bind_words (complete a List.mem_cons_self),
      ih fun a ha ↦ complete a (List.mem_cons_of_mem _ ha), List.foldl_cons]

end ParameterForm

/-! ### What parameters are for -/

namespace ParameterForm

/-- The parameters of a form can be told apart: they begin with a hyphen, hold ordinary characters
and no colon, and no two of them begin with the same two characters. -/
structure IsRegular (spec : ParameterForm) : Prop where
  hyphen : ∀ known ∈ spec.params, known.toList.head? = some '-'
  colon : ∀ known ∈ spec.params, ':' ∉ known.toList
  ordinary : ∀ known ∈ spec.params, ∀ c ∈ known.toList, isOrdinary (lowerAscii c) = true
  distinct : spec.params.Pairwise fun known known' ↦
    sameWord (known.toList.take 2) (known'.toList.take 2) = false

variable {spec : ParameterForm} {word : List Char} {known : String}

/-- A word abbreviates one parameter at most. -/
theorem IsRegular.not_abbreviates (regular : spec.IsRegular) {earlier later : List String}
    {other : String} (hparams : spec.params = earlier ++ known :: later) (hother : other ∈ earlier)
    (h : abbreviates word known = true) : abbreviates word other = false := by
  have hdistinct := regular.distinct
  rw [hparams, List.pairwise_append] at hdistinct
  have hfalse := hdistinct.2.2 other hother known List.mem_cons_self
  rw [← Bool.not_eq_true]
  intro h'
  obtain ⟨hlong, hbegins⟩ := abbreviates_iff.1 h
  rw [(abbreviates_iff.1 h').2.sameWord_take hbegins hlong] at hfalse
  exact Bool.noConfusion hfalse

theorem role_of_abbreviates_forName (h : abbreviates word spec.forName = true) :
    spec.role word = .name := by
  rw [role, if_pos h]

theorem IsRegular.role_of_abbreviates_forValue (regular : spec.IsRegular)
    (h : abbreviates word spec.forValue = true) : spec.role word = .value := by
  have hparams : spec.params = [spec.forName] ++ spec.forValue :: spec.valued := rfl
  have hname := regular.not_abbreviates hparams List.mem_cons_self h
  simp [role, hname, h]

theorem IsRegular.role_of_abbreviates_valued (regular : spec.IsRegular)
    (hknown : known ∈ spec.valued) (h : abbreviates word known = true) :
    spec.role word = .valued := by
  obtain ⟨earlier, later, hvalued⟩ := List.append_of_mem hknown
  have hparams : spec.params = (spec.forName :: spec.forValue :: earlier) ++ known :: later := by
    rw [params, hvalued]
    rfl
  have hname := regular.not_abbreviates hparams List.mem_cons_self h
  have hvalue := regular.not_abbreviates hparams (List.mem_cons_of_mem _ List.mem_cons_self) h
  have hany : spec.valued.any (abbreviates word) = true := List.any_eq_true.2 ⟨known, hknown, h⟩
  simp [role, hname, hvalue, hany]

theorem role_of_not_beginsParam (h : ∀ known ∈ spec.params, ¬ BeginsParam word known) :
    spec.role word = .switch := by
  have hnone : ∀ known ∈ spec.params, abbreviates word known = false := by
    intro known hknown
    rw [← Bool.not_eq_true, abbreviates_iff]
    exact fun habbreviates ↦ h known hknown habbreviates.2
  have hany : spec.valued.any (abbreviates word) = false :=
    List.any_eq_false.2 fun known hknown ↦ by simp [hnone known (by simp [params, hknown])]
  simp [role, hnone spec.forName (by simp [params]), hnone spec.forValue (by simp [params]), hany]

/-- A word that abbreviates a parameter is one, and its characters are ordinary. -/
theorem IsRegular.isParam (regular : spec.IsRegular) (hknown : known ∈ spec.params)
    (h : abbreviates word known = true) : IsParam word ∧ ∀ c ∈ word, isOrdinary c = true := by
  obtain ⟨hlong, hbegins⟩ := abbreviates_iff.1 h
  refine ⟨hbegins.isParam hlong (regular.hyphen known hknown) (regular.colon known hknown), ?_⟩
  obtain ⟨front, hfront, hsame⟩ := hbegins
  exact isOrdinary_of_sameWord hsame fun c hc ↦
    regular.ordinary known hknown c (hfront.subset hc)

end ParameterForm

/-! ### What is given by parameters -/

namespace Argument

/-- What the argument gives to parameters of a role. -/
def given? (spec : ParameterForm) (role : ParamRole) : Argument → Option (List Char)
  | pair param arg _ => if spec.role param = role then some arg else none
  | positional _ | switch _ => none

/-- The argument begins with a parameter. -/
def IsNamed : Argument → Prop
  | positional _ => False
  | switch _ | pair .. => True

end Argument

namespace ParameterForm

variable {spec : ParameterForm} {args : List Argument}

/-- What a parameter gives counts instead of what was given before. -/
theorem Binding.give_eq {a : Argument} (named : a.IsNamed) (b : Binding) :
    b.give spec a = ⟨(a.given? spec .name).or b.name, (a.given? spec .value).or b.value⟩ := by
  cases a with
  | positional word => exact absurd named id
  | switch param => rfl
  | pair param arg colon => cases hrole : spec.role param <;> simp [give, Argument.given?, hrole]

/-- The last of what is found in a list is what is found in its head only if its tail has none. -/
theorem getLast?_filterMap_cons_or {α β : Type} (find? : α → Option β) (a : α) (l : List α)
    (o : Option β) :
    ((a :: l).filterMap find?).getLast?.or o =
      (l.filterMap find?).getLast?.or ((find? a).or o) := by
  cases ha : find? a with
  | none => rw [List.filterMap_cons_none ha, Option.none_or]
  | some b =>
    rw [List.filterMap_cons_some ha, List.getLast?_cons]
    cases (l.filterMap find?).getLast? <;> rfl

/-- Of all that parameters give, the last counts. -/
theorem Binding.foldl_give (named : ∀ a ∈ args, a.IsNamed) (b : Binding) :
    args.foldl (give spec) b =
      ⟨(args.filterMap (Argument.given? spec .name)).getLast?.or b.name,
        (args.filterMap (Argument.given? spec .value)).getLast?.or b.value⟩ := by
  induction args generalizing b with
  | nil => rfl
  | cons a args ih =>
    rw [List.foldl_cons, give_eq (named a List.mem_cons_self),
      ih fun a ha ↦ named a (List.mem_cons_of_mem _ ha), getLast?_filterMap_cons_or,
      getLast?_filterMap_cons_or]

/-- Whatever the order of its arguments, a command proposes the name and the value that one of them
each gives. -/
theorem proposal?_of_perm (p : Profile) {forName forValue : Argument} {extras : List Argument}
    {name value : List Char} (perm : args.Perm (forName :: forValue :: extras))
    (complete : ∀ a ∈ args, a.IsComplete spec) (named : ∀ a ∈ args, a.IsNamed)
    (givesName : forName.given? spec .name = some name ∧ forName.given? spec .value = none)
    (givesValue : forValue.given? spec .name = none ∧ forValue.given? spec .value = some value)
    (others : ∀ a ∈ extras, a.given? spec .name = none ∧ a.given? spec .value = none) :
    spec.proposal? p (args.flatMap Argument.words) = some ⟨unquote p name, unquote p value⟩ := by
  have hextras : extras.filterMap (Argument.given? spec .name) = [] ∧
      extras.filterMap (Argument.given? spec .value) = [] :=
    ⟨List.filterMap_eq_nil_iff.2 fun a ha ↦ (others a ha).1,
      List.filterMap_eq_nil_iff.2 fun a ha ↦ (others a ha).2⟩
  have hname : args.filterMap (Argument.given? spec .name) = [name] := by
    refine List.perm_singleton.1 ((perm.filterMap _).trans (.of_eq ?_))
    rw [List.filterMap_cons_some givesName.1, List.filterMap_cons_none givesValue.1, hextras.1]
  have hvalue : args.filterMap (Argument.given? spec .value) = [value] := by
    refine List.perm_singleton.1 ((perm.filterMap _).trans (.of_eq ?_))
    rw [List.filterMap_cons_none givesName.2, List.filterMap_cons_some givesValue.2, hextras.2]
  rw [proposal?, bind_flatMap_words complete, Binding.foldl_give named, hname, hvalue]
  rfl

end ParameterForm

end ShellCatalog
