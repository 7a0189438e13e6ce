import ShellCatalog.Definition.Basic

/-!
# The inventory

All definitions by name, as a shell would end up with them after reading the files in order: of the
definitions of one name the last is live and the earlier ones are shadowed, whatever their kinds.

Entries stand in the order in which their names first appeared, and an entry never moves or goes
away. Beside them stands an index, in which a name is looked up to find the place of its entry
(`Inventory.position?`). **Entries and index are brought up to date apart**: a definition of a known
name changes one entry and leaves the index alone, and a definition of a new name adds to both.
`Inventory.Indexed` says that they agree, and every addition keeps it (`Inventory.Indexed.insert`).
-/

namespace ShellCatalog

/-- The definitions of one name. -/
structure Entry where
  live : Definition
  /-- The earlier definitions, oldest first. -/
  shadowed : List Definition
  deriving DecidableEq, Repr

namespace Entry

/-- The name that all definitions of the entry define. -/
def name (e : Entry) : String :=
  e.live.name

/-- The entry after a further definition of its name. -/
def redefine (e : Entry) (d : Definition) : Entry :=
  ⟨d, e.shadowed ++ [e.live]⟩

/-- All definitions of the name, oldest first. -/
def history (e : Entry) : List Definition :=
  e.shadowed ++ [e.live]

/-- Both entries hold the same definitions. -/
def same (a b : Entry) : Bool :=
  a.live.same b.live && a.shadowed.length == b.shadowed.length &&
    (a.shadowed.zip b.shadowed).all fun pair ↦ pair.1.same pair.2

end Entry

/-- A live definition as it is listed, with the definitions that it shadows, oldest first. -/
structure Record extends Definition where
  shadows : List Definition
  deriving DecidableEq, Repr

/-- The record of an entry. -/
def Entry.record (e : Entry) : Record :=
  ⟨e.live, e.shadowed⟩

/-- The definitions by name, in the order in which the names first appeared. -/
structure Inventory where
  entries : List Entry
  /-- The place of every name's entry among the entries. -/
  index : List (String × Nat)
  deriving DecidableEq, Repr

namespace Inventory

/-- The inventory of no definitions. -/
def empty : Inventory :=
  ⟨[], []⟩

/-- The place of a name among the entries, as the index has it. -/
def position? (inv : Inventory) (name : String) : Option Nat :=
  inv.index.lookup name

/-- The inventory after one further definition: it goes to the entry of its name, or makes a new
last entry. -/
def insert (inv : Inventory) (d : Definition) : Inventory :=
  match inv.position? d.name with
  | some i => { inv with entries := inv.entries.modify i (·.redefine d) }
  | none => ⟨inv.entries ++ [⟨d, []⟩], (d.name, inv.entries.length) :: inv.index⟩

/-- The inventory after further definitions, one after the other. -/
def extend (inv : Inventory) (ds : List Definition) : Inventory :=
  ds.foldl insert inv

/-- The inventory of a sequence of definitions. -/
def ofList (ds : List Definition) : Inventory :=
  empty.extend ds

/-- A way to add definitions to an inventory. -/
inductive Addition
  | one (d : Definition)
  | several (ds : List Definition)
  deriving DecidableEq, Repr

/-- The definitions that are added, in order. -/
def Addition.definitions : Addition → List Definition
  | one d => [d]
  | several ds => ds

/-- The inventory after an addition. -/
def add (inv : Inventory) : Addition → Inventory
  | .one d => inv.insert d
  | .several ds => inv.extend ds

/-- The number of names. -/
def size (inv : Inventory) : Nat :=
  inv.entries.length

/-- There is no name. -/
def isEmpty (inv : Inventory) : Bool :=
  inv.entries.isEmpty

/-- The names in the order in which they first appeared. -/
def names (inv : Inventory) : List String :=
  inv.entries.map Entry.name

/-- The entry of a name, at the place that the index gives. -/
def find? (inv : Inventory) (name : String) : Option Entry :=
  (inv.position? name).bind (inv.entries[·]?)

/-- The live definitions. -/
def live (inv : Inventory) : List Definition :=
  inv.entries.map Entry.live

/-- The live definitions with what they shadow. -/
def records (inv : Inventory) : List Record :=
  inv.entries.map Entry.record

/-- The live definition of a name, when it is of the given kind. -/
def get? (inv : Inventory) (kind : Kind) (name : String) : Option Definition :=
  ((inv.find? name).map Entry.live).filter fun d ↦ d.kind == kind

/-- The shadowed definitions of a name, oldest first. -/
def shadowed (inv : Inventory) (name : String) : List Definition :=
  ((inv.find? name).map Entry.shadowed).getD []

/-- The entries of the names that were defined more than once. -/
def redefined (inv : Inventory) : List Entry :=
  inv.entries.filter fun e ↦ !e.shadowed.isEmpty

/-- Both indices have the same names, and give each the same place. -/
def sameIndex (a b : Inventory) : Bool :=
  a.index.length == b.index.length &&
    a.index.all fun place ↦ b.position? place.1 == some place.2

/-- Both inventories hold the same definitions in the same places, and find them there. -/
def same (a b : Inventory) : Bool :=
  a.size == b.size && ((a.entries.zip b.entries).all fun pair ↦ pair.1.same pair.2) &&
    a.sameIndex b

/-! ### One definition more -/

@[simp] theorem extend_nil (inv : Inventory) : inv.extend [] = inv := rfl

@[simp] theorem extend_cons (inv : Inventory) (d : Definition) (ds : List Definition) :
    inv.extend (d :: ds) = (inv.insert d).extend ds := rfl

theorem extend_append (inv : Inventory) (ds es : List Definition) :
    inv.extend (ds ++ es) = (inv.extend ds).extend es :=
  List.foldl_append

@[simp] theorem name_redefine (e : Entry) (d : Definition) : (e.redefine d).name = d.name := rfl

/-! ### Entries and index agree -/

/-- The index holds exactly the names of the entries, each with the place of its entry. -/
def Indexed (inv : Inventory) : Prop :=
  ∀ name i, inv.position? name = some i ↔ inv.names[i]? = some name

theorem indexed_empty : empty.Indexed := by
  simp [Indexed, position?, names, empty]

namespace Indexed

variable {inv : Inventory} {d : Definition}

/-- No two entries have one name. -/
theorem nodup (h : inv.Indexed) : inv.names.Nodup := by
  refine List.pairwise_iff_getElem.2 fun i j hi hj hlt heq ↦ ?_
  have hfirst := (h _ i).2 (List.getElem?_eq_getElem hi)
  have hsecond := (h _ j).2 (List.getElem?_eq_getElem hj)
  rw [heq, hsecond] at hfirst
  exact absurd (Option.some.inj hfirst) (Nat.ne_of_gt hlt)

theorem position?_eq_none_iff (h : inv.Indexed) {name : String} :
    inv.position? name = none ↔ name ∉ inv.names := by
  rw [Option.eq_none_iff_forall_ne_some, List.mem_iff_getElem?, not_exists]
  exact forall_congr' fun i ↦ not_congr (h name i)

/-- A definition of a name that has an entry changes that entry and nothing else. -/
theorem insert_of_mem (h : inv.Indexed) (known : d.name ∈ inv.names) :
    inv.insert d =
      { inv with
        entries := inv.entries.map fun e ↦ if e.name = d.name then e.redefine d else e } := by
  cases hposition : inv.position? d.name with
  | none => exact absurd known (h.position?_eq_none_iff.1 hposition)
  | some i =>
    rw [Inventory.insert, hposition]
    refine congrArg (fun es ↦ (⟨es, inv.index⟩ : Inventory)) (List.ext_getElem? fun j ↦ ?_)
    rw [List.getElem?_modify, List.getElem?_map]
    cases hj : inv.entries[j]? with
    | none => rfl
    | some e =>
      have hname : inv.names[j]? = some e.name := by rw [names, List.getElem?_map, hj]; rfl
      -- The entry has the name of the definition exactly if it stands where the index says.
      have hplace : i = j ↔ e.name = d.name := by
        constructor
        · rintro rfl
          exact Option.some.inj (hname.symm.trans ((h _ _).1 hposition))
        · intro heq
          have hj := (h _ _).2 (heq ▸ hname)
          exact Option.some.inj (hposition.symm.trans hj)
      simp [hplace]

/-- A definition of a name that has no entry makes a new last one. -/
theorem insert_of_not_mem (h : inv.Indexed) (new : d.name ∉ inv.names) :
    inv.insert d = ⟨inv.entries ++ [⟨d, []⟩], (d.name, inv.entries.length) :: inv.index⟩ := by
  rw [Inventory.insert, h.position?_eq_none_iff.2 new]

/-- The names after a definition: a new name comes last. -/
theorem names_insert (h : inv.Indexed) (d : Definition) :
    (inv.insert d).names = if d.name ∈ inv.names then inv.names else inv.names ++ [d.name] := by
  split
  · next known =>
    rw [h.insert_of_mem known, names, names, List.map_map]
    refine List.map_congr_left fun e _ ↦ ?_
    by_cases he : e.name = d.name <;> simp [he]
  · next new =>
    rw [h.insert_of_not_mem new, names, List.map_append]
    rfl

/-- Every addition keeps entries and index in agreement. -/
theorem insert (h : inv.Indexed) (d : Definition) : (inv.insert d).Indexed := by
  intro name i
  rw [h.names_insert]
  split
  · next known =>
    rw [h.insert_of_mem known]
    exact h name i
  · next new =>
    have hlength : inv.names.length = inv.entries.length := List.length_map ..
    rw [h.insert_of_not_mem new, position?, List.lookup_cons]
    by_cases hname : name = d.name
    · subst hname
      have habsent : ∀ j : Nat, inv.names[j]? ≠ some d.name :=
        fun j hj ↦ new (List.mem_of_getElem? hj)
      rw [beq_self_eq_true, Option.some_inj, ← hlength]
      constructor
      · rintro rfl
        simp
      · intro hi
        rcases Nat.lt_trichotomy i inv.names.length with hlt | heq | hgt
        · rw [List.getElem?_append_left hlt] at hi
          exact absurd hi (habsent i)
        · exact heq.symm
        · rw [List.getElem?_eq_none (by simp; omega)] at hi
          exact absurd hi (by simp)
    · rw [show (name == d.name) = false from beq_false_of_ne hname]
      refine (h name i).trans ?_
      rw [List.getElem?_append]
      split
      · rfl
      · next hge =>
        rw [List.getElem?_eq_none (by omega), List.getElem?_singleton]
        split <;> simp [Ne.symm hname]

theorem extend (h : inv.Indexed) (ds : List Definition) : (inv.extend ds).Indexed := by
  induction ds generalizing inv with
  | nil => exact h
  | cons d ds ih => exact ih (h.insert d)

end Indexed

theorem indexed_ofList (ds : List Definition) : (ofList ds).Indexed :=
  indexed_empty.extend ds

end Inventory

end ShellCatalog
