import Mathlib.Data.List.Perm.Basic
import ShellCatalog.Inventory.History

/-!
# What an inventory holds

Definitions come into an inventory one by one or several at a time. What it holds in the end is said
of their sequence alone: of every name the definitions in order, the last of them live, and the
names in the order in which they first occur.

**Everything is read off the histories** (`map_history_ofList`): the names, what is found under a
name, and the lists that are shown. That a name is found at all is the work of the index, which
agrees with the entries (`indexed_ofList`).
-/

namespace ShellCatalog

theorem name_of_mem_definitionsOf {name : String} {ds : List Definition} {d : Definition}
    (h : d ∈ definitionsOf name ds) : d.name = name := by
  simpa using (List.mem_filter.1 h).2

theorem definitionsOf_eq_nil_iff {name : String} {ds : List Definition} :
    definitionsOf name ds = [] ↔ name ∉ firstNames ds := by
  simp [definitionsOf, mem_firstNames]

/-- Put together by name, definitions are the same definitions in another order. -/
theorem perm_flatMap_definitionsOf {names : List String} {ds : List Definition}
    (distinct : names.Nodup) (named : ∀ d ∈ ds, d.name ∈ names) :
    (names.flatMap fun name ↦ definitionsOf name ds).Perm ds := by
  induction names generalizing ds with
  | nil =>
    have hnil : ds = [] := List.eq_nil_iff_forall_not_mem.2 fun d hd ↦ by simpa using named d hd
    rw [hnil]
    exact .nil
  | cons name names ih =>
    obtain ⟨hfirst, hothers⟩ := List.nodup_cons.1 distinct
    -- The definitions of the first name stand apart, and the other names see only the others.
    set others := ds.filter fun d ↦ !decide (d.name = name) with hsplit
    have hrest : (names.flatMap fun other ↦ definitionsOf other others).Perm others := by
      refine ih hothers fun d hd ↦ ?_
      obtain ⟨hd, hne⟩ := List.mem_filter.1 hd
      exact (List.mem_cons.1 (named d hd)).resolve_left (by simpa using hne)
    have hsame : (names.flatMap fun other ↦ definitionsOf other others) =
        names.flatMap fun other ↦ definitionsOf other ds := by
      rw [List.flatMap_def, List.flatMap_def]
      refine congrArg _ (List.map_congr_left fun other hother ↦ ?_)
      have hne : other ≠ name := fun heq ↦ hfirst (heq ▸ hother)
      rw [definitionsOf, hsplit, List.filter_filter]
      refine List.filter_congr fun d _ ↦ ?_
      by_cases hd : d.name = other <;> simp [hd, hne]
    rw [List.flatMap_cons, ← hsame]
    exact (hrest.append_left _).trans (List.filter_append_perm _ ds)

namespace Inventory

theorem foldl_add (inv : Inventory) (adds : List Addition) :
    adds.foldl add inv = inv.extend (adds.flatMap Addition.definitions) := by
  induction adds generalizing inv with
  | nil => rfl
  | cons a adds ih =>
    rw [List.foldl_cons, ih, List.flatMap_cons, extend_append]
    cases a <;> rfl

@[simp] theorem getLast?_history (e : Entry) : e.history.getLast? = some e.live := by
  simp [Entry.history]

@[simp] theorem dropLast_history (e : Entry) : e.history.dropLast = e.shadowed := by
  simp [Entry.history]

/-! ### The entries of a sequence of definitions -/

variable (ds : List Definition)

/-- The history of an entry holds the definitions of its name. -/
theorem history_of_mem_entries {e : Entry} (h : e ∈ (ofList ds).entries) :
    e.history = definitionsOf e.name ds := by
  have hmem : e.history ∈ (ofList ds).entries.map Entry.history := List.mem_map_of_mem h
  rw [map_history_ofList] at hmem
  obtain ⟨name, -, hname⟩ := List.mem_map.1 hmem
  have hlive : e.live ∈ definitionsOf name ds := by
    rw [hname]
    exact List.mem_of_getLast? (getLast?_history e)
  rw [Entry.name, name_of_mem_definitionsOf hlive, hname]

/-- The names stand in the order in which they first occur. -/
theorem names_ofList : (ofList ds).names = firstNames ds := by
  refine List.map_injective_iff.2 (fun _ _ ↦ Option.some.inj) ?_
  have hlast := congrArg (List.map fun ds ↦ ds.getLast?.map Definition.name) (map_history_ofList ds)
  rw [List.map_map, List.map_map] at hlast
  calc (ofList ds).names.map some
      = (ofList ds).entries.map
          ((fun ds ↦ ds.getLast?.map Definition.name) ∘ Entry.history) := by
        rw [names, List.map_map]
        exact List.map_congr_left fun e _ ↦ by simp [Entry.name]
    _ = (firstNames ds).map
          ((fun ds ↦ ds.getLast?.map Definition.name) ∘ (definitionsOf · ds)) := hlast
    _ = (firstNames ds).map some := by
        refine List.map_congr_left fun name hname ↦ ?_
        have hne : definitionsOf name ds ≠ [] := mt definitionsOf_eq_nil_iff.1 (not_not_intro hname)
        have hlast := List.getLast?_eq_some_getLast hne
        simp [hlast, name_of_mem_definitionsOf (List.getLast_mem hne)]

/-- The entries are the names, each with the definitions of it. -/
theorem map_name_history_ofList :
    (ofList ds).entries.map (fun e ↦ (e.name, e.history)) =
      (firstNames ds).map fun name ↦ (name, definitionsOf name ds) := by
  rw [← names_ofList, names, List.map_map]
  exact List.map_congr_left fun e he ↦ congrArg (e.name, ·) (history_of_mem_entries ds he)

/-- What is found under a name is the history of the name; nothing is found under a name that no
definition has. -/
theorem elim_history_find? (name : String) :
    ((ofList ds).find? name).elim [] Entry.history = definitionsOf name ds := by
  have indexed := indexed_ofList ds
  rw [find?]
  cases hposition : (ofList ds).position? name with
  | none =>
    have hnew := indexed.position?_eq_none_iff.1 hposition
    rw [names_ofList] at hnew
    exact (definitionsOf_eq_nil_iff.2 hnew).symm
  | some i =>
    have hname := (indexed name i).1 hposition
    rw [names, List.getElem?_map, Option.map_eq_some_iff] at hname
    obtain ⟨e, he, rfl⟩ := hname
    rw [Option.bind_some, he]
    exact history_of_mem_entries ds (List.mem_of_getElem? he)

theorem map_live_find? (name : String) :
    ((ofList ds).find? name).map Entry.live = (definitionsOf name ds).getLast? := by
  rw [← elim_history_find?]
  cases (ofList ds).find? name <;> simp

theorem shadowed_ofList (name : String) :
    (ofList ds).shadowed name = (definitionsOf name ds).dropLast := by
  rw [← elim_history_find?, shadowed]
  cases (ofList ds).find? name <;> simp

theorem live_ofList :
    (ofList ds).live = (firstNames ds).filterMap fun name ↦ (definitionsOf name ds).getLast? := by
  have hlast := congrArg (List.filterMap List.getLast?) (map_history_ofList ds)
  rw [List.filterMap_map, List.filterMap_map] at hlast
  refine Eq.trans ?_ hlast
  rw [live, ← List.filterMap_eq_map]
  exact List.filterMap_congr fun e _ ↦ (getLast?_history e).symm

theorem map_history_redefined :
    (ofList ds).redefined.map Entry.history =
      ((firstNames ds).map (definitionsOf · ds)).filter fun history ↦ 1 < history.length := by
  rw [← map_history_ofList, List.filter_map, redefined]
  refine congrArg _ (List.filter_congr fun e _ ↦ ?_)
  cases hshadowed : e.shadowed <;> simp [Entry.history, hshadowed]

/-- Live and shadowed definitions together are the definitions that were added, none lost and none
twice. -/
theorem perm_entries_ofList :
    ((ofList ds).entries.flatMap fun e ↦ e.live :: e.shadowed).Perm ds := by
  have hhistories : (ofList ds).entries.flatMap Entry.history =
      (firstNames ds).flatMap fun name ↦ definitionsOf name ds := by
    rw [List.flatMap_def, List.flatMap_def, map_history_ofList]
  have hentry (e : Entry) : (e.live :: e.shadowed).Perm e.history :=
    (List.perm_append_singleton e.live e.shadowed).symm
  refine (List.Perm.flatMap_left _ fun e _ ↦ hentry e).trans ?_
  rw [hhistories]
  exact perm_flatMap_definitionsOf (nodup_firstNames ds)
    fun d hd ↦ mem_firstNames.2 ⟨d, hd, rfl⟩

/-- What an inventory holds after any additions, by the definitions that were added: the entries are
the names in the order in which they first occur, each with its definitions in order, the last one
live; the index places exactly these names, each where its entry stands; no definition is lost and
none is there twice; a look-up answers the last definition of a name, if it has the kind, and those
before it; and the live definitions, the records and the redefined names are listed in the order of
the entries. -/
theorem contents_of_additions (adds : List Addition) :
    let inv := adds.foldl add empty
    let ds := adds.flatMap Addition.definitions
    inv.entries.map (fun e ↦ (e.name, e.shadowed ++ [e.live])) =
        (firstNames ds).map (fun name ↦ (name, definitionsOf name ds)) ∧
      (∀ name i, inv.index.lookup name = some i ↔ inv.names[i]? = some name) ∧
      (inv.entries.flatMap fun e ↦ e.live :: e.shadowed).Perm ds ∧
      (∀ kind name d, inv.get? kind name = some d ↔
        (definitionsOf name ds).getLast? = some d ∧ d.kind = kind) ∧
      (∀ name, inv.shadowed name = (definitionsOf name ds).dropLast) ∧
      inv.live = (firstNames ds).filterMap (fun name ↦ (definitionsOf name ds).getLast?) ∧
      inv.records.map (fun r ↦ (r.name, r.shadows ++ [r.toDefinition])) =
        (firstNames ds).map (fun name ↦ (name, definitionsOf name ds)) ∧
      inv.redefined.map (fun e ↦ e.shadowed ++ [e.live]) =
        ((firstNames ds).map (definitionsOf · ds)).filter fun history ↦ 1 < history.length := by
  intro inv ds
  have hinv : inv = ofList ds := foldl_add empty adds
  clear_value ds inv
  subst hinv
  refine ⟨map_name_history_ofList ds, indexed_ofList ds, perm_entries_ofList ds,
    fun kind name d ↦ ?_, shadowed_ofList ds, live_ofList ds, ?_, map_history_redefined ds⟩
  · rw [get?, map_live_find?, Option.filter_eq_some_iff, beq_iff_eq]
  · rw [records, List.map_map]
    exact map_name_history_ofList ds

end Inventory

end ShellCatalog
