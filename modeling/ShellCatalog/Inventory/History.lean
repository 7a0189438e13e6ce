import ShellCatalog.Inventory.Basic

/-!
# The history of every name

What an inventory holds, said without building one. A sequence of definitions has an order of names,
each where it occurs first (`firstNames`), and for every name the definitions of that name in order
(`definitionsOf`). The inventory of the sequence has one entry for each of these names, in that
order, and the entry's history is that list (`map_history_ofList`).

The same holds where definitions are added to an inventory (`map_history_extend`): the history of
each known name goes on with the definitions of that name, and new names follow in their order
(`newNames`). The proof is by induction on what is added, one definition at a time; a definition of
a known name leaves the order of names alone, and a definition of a new one ends it.
-/

namespace ShellCatalog

/-- The names that some definitions define, each at the place where it occurs first. -/
def firstNames : List Definition → List String
  | [] => []
  | d :: ds => d.name :: (firstNames ds).filter fun name ↦ name ≠ d.name

/-- The definitions of a name among others. -/
def definitionsOf (name : String) (ds : List Definition) : List Definition :=
  ds.filter fun d ↦ d.name = name

/-! ### Names -/

theorem mem_firstNames {name : String} {ds : List Definition} :
    name ∈ firstNames ds ↔ ∃ d ∈ ds, d.name = name := by
  induction ds with
  | nil => simp [firstNames]
  | cons d ds ih =>
    by_cases h : name = d.name
    · simp [firstNames, h]
    · simp [firstNames, ih, h, Ne.symm h]

theorem nodup_firstNames (ds : List Definition) : (firstNames ds).Nodup := by
  induction ds with
  | nil => exact List.nodup_nil
  | cons d ds ih => exact List.nodup_cons.2 ⟨by simp, ih.filter _⟩

theorem definitionsOf_cons_self (d : Definition) (ds : List Definition) :
    definitionsOf d.name (d :: ds) = d :: definitionsOf d.name ds := by
  simp [definitionsOf]

theorem definitionsOf_cons_of_ne {name : String} {d : Definition} (h : name ≠ d.name)
    (ds : List Definition) : definitionsOf name (d :: ds) = definitionsOf name ds := by
  simp [definitionsOf, Ne.symm h]

/-- The names that some definitions add to names that are known, in the order in which they first
occur. -/
def newNames (known : List String) (ds : List Definition) : List String :=
  (firstNames ds).filter fun name ↦ name ∉ known

@[simp] theorem newNames_nil_left (ds : List Definition) : newNames [] ds = firstNames ds :=
  List.filter_eq_self.2 fun _ _ ↦ by simp

theorem not_mem_of_mem_newNames {known : List String} {ds : List Definition} {name : String}
    (h : name ∈ newNames known ds) : name ∉ known := by
  simpa using (List.mem_filter.1 h).2

theorem newNames_cons_of_mem {known : List String} {d : Definition} (h : d.name ∈ known)
    (ds : List Definition) : newNames known (d :: ds) = newNames known ds := by
  simp only [newNames, firstNames, List.filter_cons, List.filter_filter]
  rw [if_neg (by simpa using h)]
  refine List.filter_congr fun name _ ↦ ?_
  by_cases hn : name = d.name <;> simp [hn, h]

theorem newNames_cons_of_not_mem {known : List String} {d : Definition} (h : d.name ∉ known)
    (ds : List Definition) :
    newNames known (d :: ds) = d.name :: newNames (known ++ [d.name]) ds := by
  simp only [newNames, firstNames, List.filter_cons, List.filter_filter]
  rw [if_pos (by simpa using h)]
  refine congrArg _ (List.filter_congr fun name _ ↦ ?_)
  by_cases hn : name = d.name <;> simp [hn]

/-! ### Entries -/

namespace Inventory

@[simp] theorem history_redefine (e : Entry) (d : Definition) :
    (e.redefine d).history = e.history ++ [d] := rfl

/-- The histories that `ds` adds to those of an inventory: each known name's goes on, and the new
names follow. -/
theorem map_history_extend {inv : Inventory} (h : inv.Indexed) (ds : List Definition) :
    (inv.extend ds).entries.map Entry.history =
      inv.entries.map (fun e ↦ e.history ++ definitionsOf e.name ds) ++
        (newNames inv.names ds).map fun name ↦ definitionsOf name ds := by
  induction ds generalizing inv with
  | nil => simp [definitionsOf, newNames, firstNames]
  | cons d ds ih =>
    rw [extend_cons, ih (h.insert d), h.names_insert]
    split
    · next known =>
      rw [h.insert_of_mem known, List.map_map, newNames_cons_of_mem known]
      congr 1
      · refine List.map_congr_left fun e _ ↦ ?_
        by_cases he : e.name = d.name
        · simp [he, definitionsOf]
        · simp [he, definitionsOf_cons_of_ne he]
      · refine List.map_congr_left fun name hname ↦ ?_
        have hne : name ≠ d.name := fun heq ↦ not_mem_of_mem_newNames hname (heq ▸ known)
        rw [definitionsOf_cons_of_ne hne]
    · next new =>
      rw [h.insert_of_not_mem new, newNames_cons_of_not_mem new]
      have hold : inv.entries.map (fun e ↦ e.history ++ definitionsOf e.name (d :: ds)) =
          inv.entries.map fun e ↦ e.history ++ definitionsOf e.name ds :=
        List.map_congr_left fun e he ↦ by
          have hne : e.name ≠ d.name := fun heq ↦ new (heq ▸ List.mem_map_of_mem he)
          rw [definitionsOf_cons_of_ne hne]
      have hnew : (newNames (inv.names ++ [d.name]) ds).map
            (fun name ↦ definitionsOf name (d :: ds)) =
          (newNames (inv.names ++ [d.name]) ds).map fun name ↦ definitionsOf name ds :=
        List.map_congr_left fun name hname ↦ by
          have hne : name ≠ d.name := fun heq ↦ not_mem_of_mem_newNames hname (by simp [heq])
          rw [definitionsOf_cons_of_ne hne]
      rw [hold, List.map_cons, hnew, definitionsOf_cons_self]
      simp [Entry.history, Entry.name]

/-- The entries of an inventory are the histories of the names, in the order of the names. -/
theorem map_history_ofList (ds : List Definition) :
    (ofList ds).entries.map Entry.history =
      (firstNames ds).map fun name ↦ definitionsOf name ds := by
  simpa [ofList, empty, names] using map_history_extend indexed_empty ds

end Inventory

end ShellCatalog
