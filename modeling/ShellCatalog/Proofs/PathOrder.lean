import Mathlib.Data.List.Nodup
import ShellCatalog.Scan.Basic

/-!
# The order of paths

Files may be merged in the order of their paths. Paths are compared component by component, names by
the code points of their characters, so the order looks at what a path means and not at how it is
spelled.

**The order is linear on components** (`Path.le_isLinear`): any two paths compare, and two that
compare both ways have the same components. So files are put in order in one way only, up to those
whose paths are spellings of one another; these keep the order in which they were given
(`IsSortedByPath`). Where no two paths have the same components, the order in which the files were
given leaves no trace (`arrange_byPath_of_perm`).
-/

namespace ShellCatalog

/-! ### Linear orders by a test -/

/-- The test decides a linear order. -/
structure IsLinear {α : Type} (le : α → α → Bool) : Prop where
  total : ∀ a b, le a b = true ∨ le b a = true
  trans : ∀ {a b c}, le a b = true → le b c = true → le a c = true
  antisymm : ∀ {a b}, le a b = true → le b a = true → a = b

theorem IsLinear.refl {α : Type} {le : α → α → Bool} (h : IsLinear le) (a : α) :
    le a a = true :=
  (h.total a a).elim id id

namespace Path

section Dictionary

variable {α : Type} [DecidableEq α] {test : α → α → Bool}

theorem dictionaryLe_total (h : IsLinear test) (as bs : List α) :
    dictionaryLe test as bs = true ∨ dictionaryLe test bs as = true := by
  induction as generalizing bs with
  | nil => exact .inl rfl
  | cons a as ih =>
    cases bs with
    | nil => exact .inr rfl
    | cons b bs =>
      by_cases hab : a = b
      · subst hab
        simpa [dictionaryLe] using ih bs
      · simpa [dictionaryLe, hab, Ne.symm hab] using h.total a b

theorem dictionaryLe_antisymm (h : IsLinear test) {as bs : List α}
    (hab : dictionaryLe test as bs = true) (hba : dictionaryLe test bs as = true) : as = bs := by
  induction as generalizing bs with
  | nil =>
    cases bs with
    | nil => rfl
    | cons b bs => simp [dictionaryLe] at hba
  | cons a as ih =>
    cases bs with
    | nil => simp [dictionaryLe] at hab
    | cons b bs =>
      by_cases heq : a = b
      · subst heq
        simp only [dictionaryLe, if_true] at hab hba
        rw [ih hab hba]
      · simp only [dictionaryLe, heq, Ne.symm heq, if_false] at hab hba
        exact absurd (h.antisymm hab hba) heq

theorem dictionaryLe_trans (h : IsLinear test) {as bs cs : List α}
    (hab : dictionaryLe test as bs = true) (hbc : dictionaryLe test bs cs = true) :
    dictionaryLe test as cs = true := by
  induction as generalizing bs cs with
  | nil => rfl
  | cons a as ih =>
    cases bs with
    | nil => simp [dictionaryLe] at hab
    | cons b bs =>
      cases cs with
      | nil => simp [dictionaryLe] at hbc
      | cons c cs =>
        rw [dictionaryLe] at hab hbc ⊢
        by_cases heq : a = b
        · subst heq
          rw [if_pos rfl] at hab
          split at hbc
          · next hac => rw [if_pos hac, ih hab hbc]
          · next hac => rw [if_neg hac, hbc]
        · rw [if_neg heq] at hab
          split at hbc
          · next hbc' => rw [if_neg (hbc' ▸ heq), ← hbc', hab]
          · -- Were the first and the last the same, the two first places would compare both ways.
            have hac : a ≠ c := by
              rintro rfl
              exact heq (h.antisymm hab hbc)
            rw [if_neg hac, h.trans hab hbc]

/-- The order of a dictionary is linear when the order of its letters is. -/
theorem dictionaryLe_isLinear (h : IsLinear test) : IsLinear (dictionaryLe test) where
  total := dictionaryLe_total h
  trans := dictionaryLe_trans h
  antisymm := dictionaryLe_antisymm h

end Dictionary

/-! ### Components and paths -/

namespace Component

/-- Characters by their code points. -/
def charLe (c d : Char) : Bool :=
  c.toNat ≤ d.toNat

theorem charLe_isLinear : IsLinear charLe where
  total c d := by simpa [charLe] using Nat.le_total _ _
  trans hcd hde := by
    simp only [charLe, decide_eq_true_eq] at hcd hde ⊢
    exact Nat.le_trans hcd hde
  antisymm hcd hdc := by
    simp only [charLe, decide_eq_true_eq] at hcd hdc
    exact Char.toNat_inj.1 (Nat.le_antisymm hcd hdc)

/-- The characters of a name; the other components have none. -/
def letters : Component → List Char
  | name text => text
  | root | here | up => []

/-- A component is known by its kind and its characters. -/
theorem eq_of_rank_of_letters {a b : Component} (rank : a.rank = b.rank)
    (letters : a.letters = b.letters) : a = b := by
  cases a <;> cases b <;> simp_all [Component.rank, Component.letters]

/-- Kinds are compared first, and the characters where the kind is the same. -/
theorem le_iff {a b : Component} :
    a.le b = true ↔
      a.rank < b.rank ∨ a.rank = b.rank ∧ dictionaryLe charLe a.letters b.letters = true := by
  cases a <;> cases b <;> simp [le, rank, letters, dictionaryLe]
  rfl

theorem le_isLinear : IsLinear le where
  total a b := by
    rw [le_iff, le_iff]
    have := dictionaryLe_total charLe_isLinear a.letters b.letters
    rcases Nat.lt_trichotomy a.rank b.rank with hlt | heq | hgt
    · exact .inl (.inl hlt)
    · exact this.imp (fun h ↦ .inr ⟨heq, h⟩) fun h ↦ .inr ⟨heq.symm, h⟩
    · exact .inr (.inl hgt)
  trans {a b c} hab hbc := by
    rw [le_iff] at hab hbc ⊢
    rcases hab with hab | ⟨hab, hletters⟩
    · exact .inl (by omega)
    · rcases hbc with hbc | ⟨hbc, hletters'⟩
      · exact .inl (by omega)
      · exact .inr ⟨hab.trans hbc, dictionaryLe_trans charLe_isLinear hletters hletters'⟩
  antisymm {a b} hab hba := by
    rw [le_iff] at hab hba
    rcases hab with hab | ⟨hab, hletters⟩
    · omega
    · rcases hba with hba | ⟨-, hletters'⟩
      · omega
      · exact eq_of_rank_of_letters hab (dictionaryLe_antisymm charLe_isLinear hletters hletters')

end Component

/-- The order of paths is a linear order of their components. -/
theorem le_isLinear : IsLinear (dictionaryLe Component.le) :=
  dictionaryLe_isLinear Component.le_isLinear

theorem le_total (p q : Path) : (p.le q || q.le p) = true :=
  Bool.or_eq_true_iff.2 (le_isLinear.total _ _)

theorem le_trans {p q r : Path} (hpq : p.le q = true) (hqr : q.le r = true) : p.le r = true :=
  le_isLinear.trans hpq hqr

theorem le_of_components_eq {p q : Path} (h : p.components = q.components) : p.le q = true := by
  rw [le, h]
  exact le_isLinear.refl _

/-- Paths that compare both ways are spellings of one another. -/
theorem components_eq_of_le_of_le {p q : Path} (hpq : p.le q = true) (hqp : q.le p = true) :
    p.components = q.components :=
  le_isLinear.antisymm hpq hqp

end Path

/-! ### Files in the order of their paths -/

section Sorted

variable {α : Type} {path : α → Path} {files files' : List α}

/-- The same files in the order of their paths, where files whose paths are spellings of one another
keep the order in which they were given. -/
structure IsSortedByPath (path : α → Path) (files sorted : List α) : Prop where
  perm : sorted.Perm files
  pairwise : sorted.Pairwise fun a b ↦ (path a).le (path b) = true
  stable : ∀ components, sorted.filter (fun a ↦ (path a).components = components) =
    files.filter fun a ↦ (path a).components = components

/-- `arranged` holds the files in the order in which they are merged. -/
def MergeOrder.Arranges (order : MergeOrder) (path : α → Path) (files arranged : List α) : Prop :=
  match order with
  | .given => arranged = files
  | .byPath => IsSortedByPath path files arranged

theorem perm_arrange (order : MergeOrder) (path : α → Path) (files : List α) :
    (order.arrange path files).Perm files := by
  cases order with
  | given => exact .refl _
  | byPath => exact List.mergeSort_perm _ _

theorem path_le_trans (path : α → Path) (a b c : α) (hab : (path a).le (path b) = true)
    (hbc : (path b).le (path c) = true) : (path a).le (path c) = true :=
  Path.le_trans hab hbc

theorem path_le_total (path : α → Path) (a b : α) :
    ((path a).le (path b) || (path b).le (path a)) = true :=
  Path.le_total _ _

theorem arrange_byPath (path : α → Path) (files : List α) :
    MergeOrder.byPath.arrange path files = files.mergeSort fun a b ↦ (path a).le (path b) := rfl

theorem isSortedByPath_arrange (path : α → Path) (files : List α) :
    IsSortedByPath path files (MergeOrder.byPath.arrange path files) where
  perm := perm_arrange .byPath path files
  pairwise := by
    rw [arrange_byPath]
    exact List.pairwise_mergeSort (path_le_trans path) (path_le_total path) files
  stable components := by
    have hpairwise : (files.filter fun a ↦ (path a).components = components).Pairwise
        fun a b ↦ (path a).le (path b) = true := by
      refine List.Pairwise.imp_of_mem (R := fun _ _ ↦ True) (fun ha hb _ ↦ ?_)
        (List.pairwise_of_forall fun _ _ ↦ trivial)
      have ha := (List.mem_filter.1 ha).2
      have hb := (List.mem_filter.1 hb).2
      simp only [decide_eq_true_eq] at ha hb
      exact Path.le_of_components_eq (ha.trans hb.symm)
    -- Files of the same components are in order as they stand, so sorting leaves them in order.
    have hsublist := List.sublist_mergeSort (path_le_trans path) (path_le_total path) hpairwise
      List.filter_sublist
    have hfilter := hsublist.filter fun a ↦ (path a).components = components
    rw [← arrange_byPath, List.filter_filter] at hfilter
    simp only [Bool.and_self] at hfilter
    exact (hfilter.eq_of_length ((perm_arrange .byPath path files).filter _).length_eq.symm).symm

theorem arranges_arrange (order : MergeOrder) (path : α → Path) (files : List α) :
    order.Arranges path files (order.arrange path files) := by
  cases order with
  | given => rfl
  | byPath => exact isSortedByPath_arrange path files

/-- Putting files in order looks at their paths alone. -/
theorem map_arrange {β : Type} {path' : β → Path} (order : MergeOrder) (f : α → β)
    (same : ∀ a ∈ files, path' (f a) = path a) :
    (order.arrange path files).map f = order.arrange path' (files.map f) := by
  cases order with
  | given => rfl
  | byPath =>
    refine List.map_mergeSort fun a ha b hb ↦ ?_
    rw [same a ha, same b hb]

/-- There is one way only to put files in order no two of which have the same components. -/
theorem eq_of_perm_of_pairwise_le (perm : files.Perm files')
    (distinct : (files.map fun a ↦ (path a).components).Nodup)
    (sorted : files.Pairwise fun a b ↦ (path a).le (path b) = true)
    (sorted' : files'.Pairwise fun a b ↦ (path a).le (path b) = true) : files = files' :=
  List.Perm.eq_of_pairwise (fun _ _ ha hb hab hba ↦
    List.inj_on_of_nodup_map distinct ha (perm.symm.subset hb)
      (Path.components_eq_of_le_of_le hab hba)) sorted sorted' perm

/-- So they are put in the same order, however they were given. -/
theorem arrange_byPath_of_perm (perm : files.Perm files')
    (distinct : (files.map fun a ↦ (path a).components).Nodup) :
    MergeOrder.byPath.arrange path files = MergeOrder.byPath.arrange path files' := by
  have hsorted := isSortedByPath_arrange path files
  have hsorted' := isSortedByPath_arrange path files'
  refine eq_of_perm_of_pairwise_le (hsorted.perm.trans (perm.trans hsorted'.perm.symm)) ?_
    hsorted.pairwise hsorted'.pairwise
  exact (hsorted.perm.map _).nodup_iff.2 distinct

end Sorted

end ShellCatalog
