import Mathlib.Data.List.Forall2
import ShellCatalog.Proofs.InventoryContents

/-!
# When two inventories are the same

Two sequences of definitions make the same inventory exactly if their names first occur in the same
order and every name has the same history in both. How the definitions of different names are
interleaved leaves no trace beyond that: it shows neither in the entries nor in the index.

**The histories can be read back** from the entries (`map_history_ofList`), and they settle the
entries. **The index holds the names of the entries and nothing else** (`index_ofList`), so it tells
no two inventories apart that have the same entries.

Definitions that stand next to each other and have different names may therefore change places
without consequence, unless both are the first of their names.
-/

namespace ShellCatalog

/-! ### The same definitions -/

theorem Definition.same_refl (d : Definition) : d.same d = true := by
  simp [Definition.same, Path.same]

theorem Definition.name_eq_of_same {d e : Definition} (h : d.same e = true) : d.name = e.name := by
  simp only [Definition.same, Bool.and_eq_true, beq_iff_eq] at h
  exact h.1.1.1.1

/-- The definitions of one sequence and of the other say the same, one by one. -/
def SameSequence (ds es : List Definition) : Prop :=
  List.Forall₂ (fun d e ↦ d.same e = true) ds es

theorem SameSequence.refl (ds : List Definition) : SameSequence ds ds :=
  List.forall₂_same.2 fun d _ ↦ d.same_refl

theorem sameSequence_concat {ds es : List Definition} {d e : Definition} :
    SameSequence (ds ++ [d]) (es ++ [e]) ↔ SameSequence ds es ∧ d.same e = true := by
  rw [SameSequence, ← List.forall₂_reverse_iff, List.reverse_concat, List.reverse_concat,
    List.forall₂_cons, List.forall₂_reverse_iff, and_comm, SameSequence]

/-- Two lists agree by a test if they are of one length and the test says so of every pair. -/
theorem forall₂_iff_all_zip {α : Type} {test : α → α → Bool} {as bs : List α} :
    List.Forall₂ (fun a b ↦ test a b = true) as bs ↔
      (as.length == bs.length && (as.zip bs).all fun pair ↦ test pair.1 pair.2) = true := by
  rw [List.forall₂_iff_zip, Bool.and_eq_true, beq_iff_eq, List.all_eq_true, Prod.forall]

/-- Entries are the same if their histories are. -/
theorem Entry.same_iff {a b : Entry} : a.same b = true ↔ SameSequence a.history b.history := by
  rw [Entry.history, Entry.history, sameSequence_concat, SameSequence, forall₂_iff_all_zip,
    Entry.same, Bool.and_assoc, Bool.and_eq_true, and_comm]

theorem Entry.name_eq_of_same {a b : Entry} (h : a.same b = true) : a.name = b.name := by
  rw [Entry.same_iff, Entry.history, Entry.history, sameSequence_concat] at h
  exact Definition.name_eq_of_same h.2

namespace Inventory

/-! ### The index -/

/-- Every addition keeps the index a list of the names with their places, the last name first. -/
theorem index_insert {inv : Inventory} (h : inv.Indexed)
    (listed : inv.index = inv.names.zipIdx.reverse) (d : Definition) :
    (inv.insert d).index = (inv.insert d).names.zipIdx.reverse := by
  rw [h.names_insert]
  split
  · next known => rw [h.insert_of_mem known, listed]
  · next new =>
    have hlength : inv.names.length = inv.entries.length := List.length_map ..
    rw [h.insert_of_not_mem new, List.zipIdx_append, List.reverse_append, ← listed, hlength,
      Nat.zero_add]
    rfl

theorem index_extend {inv : Inventory} (h : inv.Indexed)
    (listed : inv.index = inv.names.zipIdx.reverse) (ds : List Definition) :
    (inv.extend ds).index = (inv.extend ds).names.zipIdx.reverse := by
  induction ds generalizing inv with
  | nil => exact listed
  | cons d ds ih => exact ih (h.insert d) (index_insert h listed d)

/-- The index is settled by the order of the names. -/
theorem index_ofList (ds : List Definition) :
    (ofList ds).index = (firstNames ds).zipIdx.reverse := by
  rw [← names_ofList]
  exact index_extend indexed_empty rfl ds

/-- Where the names are the same, so are the indices. -/
theorem sameIndex_of_firstNames {ds es : List Definition} (names : firstNames ds = firstNames es) :
    (ofList ds).sameIndex (ofList es) = true := by
  have hindex : (ofList ds).index = (ofList es).index := by
    rw [index_ofList, index_ofList, names]
  rw [sameIndex, hindex, Bool.and_eq_true, List.all_eq_true]
  refine ⟨beq_self_eq_true _, fun ⟨name, i⟩ hplace ↦ ?_⟩
  rw [index_ofList, List.mem_reverse, List.mem_zipIdx_iff_getElem?, ← names_ofList] at hplace
  exact beq_iff_eq.2 ((indexed_ofList es name i).2 hplace)

/-! ### The entries -/

theorem same_iff {a b : Inventory} :
    a.same b = true ↔
      List.Forall₂ (fun e f ↦ e.same f = true) a.entries b.entries ∧ a.sameIndex b = true := by
  rw [forall₂_iff_all_zip, same, Bool.and_eq_true, size, size]

theorem names_eq_of_forall₂ {a b : Inventory}
    (h : List.Forall₂ (fun e f ↦ e.same f = true) a.entries b.entries) : a.names = b.names := by
  rw [names, names, ← List.forall₂_eq_eq_eq, List.forall₂_map_left_iff, List.forall₂_map_right_iff]
  exact h.imp fun _ _ ↦ Entry.name_eq_of_same

/-- Entries are the same exactly if they have the same names, in order, and every name has the same
history. -/
theorem forall₂_entries_iff {ds es : List Definition} :
    List.Forall₂ (fun e f ↦ e.same f = true) (ofList ds).entries (ofList es).entries ↔
      firstNames ds = firstNames es ∧
        ∀ name, SameSequence (definitionsOf name ds) (definitionsOf name es) := by
  have hhistories :
      List.Forall₂ (fun e f ↦ e.same f = true) (ofList ds).entries (ofList es).entries ↔
        List.Forall₂ SameSequence ((firstNames ds).map (definitionsOf · ds))
          ((firstNames es).map (definitionsOf · es)) := by
    rw [← map_history_ofList, ← map_history_ofList, List.forall₂_map_left_iff,
      List.forall₂_map_right_iff]
    simp only [Entry.same_iff]
  constructor
  · intro h
    have hnames := names_eq_of_forall₂ h
    rw [names_ofList, names_ofList] at hnames
    rw [hhistories, hnames, List.forall₂_map_left_iff, List.forall₂_map_right_iff,
      List.forall₂_same] at h
    refine ⟨hnames, fun name ↦ ?_⟩
    by_cases hname : name ∈ firstNames es
    · exact h name hname
    · rw [definitionsOf_eq_nil_iff.2 (hnames ▸ hname), definitionsOf_eq_nil_iff.2 hname]
      exact .nil
  · rintro ⟨hnames, h⟩
    rw [hhistories, hnames, List.forall₂_map_left_iff, List.forall₂_map_right_iff,
      List.forall₂_same]
    exact fun name _ ↦ h name

/-- Inventories are the same exactly if the names first occur in the same order and every name has
the same history. -/
theorem same_ofList_iff {ds es : List Definition} :
    (ofList ds).same (ofList es) = true ↔
      firstNames ds = firstNames es ∧
        ∀ name, SameSequence (definitionsOf name ds) (definitionsOf name es) := by
  rw [same_iff, forall₂_entries_iff, and_iff_left_of_imp]
  exact fun h ↦ sameIndex_of_firstNames h.1

/-! ### Neighbours that change places -/

theorem firstNames_append (ds es : List Definition) :
    firstNames (ds ++ es) = firstNames ds ++ newNames (firstNames ds) es := by
  induction ds with
  | nil => simp [firstNames]
  | cons d ds ih =>
    simp only [List.cons_append, firstNames, ih, List.filter_append, newNames, List.filter_filter]
    refine congrArg _ (congrArg _ (List.filter_congr fun name _ ↦ ?_))
    by_cases hname : name = d.name <;> simp [hname]

/-- A name that is known is not new behind another either. -/
theorem newNames_cons_cons_of_mem {known : List String} {d : Definition} (h : d.name ∈ known)
    (e : Definition) (ds : List Definition) :
    newNames known (e :: d :: ds) = newNames known (e :: ds) := by
  by_cases he : e.name ∈ known
  · rw [newNames_cons_of_mem he, newNames_cons_of_mem he, newNames_cons_of_mem h]
  · rw [newNames_cons_of_not_mem he, newNames_cons_of_not_mem he,
      newNames_cons_of_mem (List.mem_append_left _ h)]

/-- The order in which two different names are added shows exactly if both are new. -/
theorem newNames_swap_iff {known : List String} {d e : Definition} (different : d.name ≠ e.name)
    (ds : List Definition) :
    newNames known (d :: e :: ds) = newNames known (e :: d :: ds) ↔
      d.name ∈ known ∨ e.name ∈ known := by
  by_cases hd : d.name ∈ known
  · rw [newNames_cons_of_mem hd, newNames_cons_cons_of_mem hd]
    exact iff_of_true rfl (.inl hd)
  by_cases he : e.name ∈ known
  · rw [newNames_cons_of_mem he, newNames_cons_cons_of_mem he]
    exact iff_of_true rfl (.inr he)
  rw [newNames_cons_of_not_mem hd, newNames_cons_of_not_mem he, List.cons.injEq]
  exact iff_of_false (fun h ↦ different h.1) (not_or.2 ⟨hd, he⟩)

/-- The histories do not tell in which order definitions of different names stand. -/
theorem definitionsOf_swap {d e : Definition} (different : d.name ≠ e.name) (name : String)
    (before after : List Definition) :
    definitionsOf name (before ++ d :: e :: after) =
      definitionsOf name (before ++ e :: d :: after) := by
  have hpair : definitionsOf name (d :: e :: after) = definitionsOf name (e :: d :: after) := by
    by_cases hd : d.name = name
    · have he : e.name ≠ name := fun he ↦ different (hd.trans he.symm)
      simp [definitionsOf, hd, he]
    · simp [definitionsOf, List.filter_cons, hd]
  rw [definitionsOf, List.filter_append, definitionsOf, List.filter_append]
  exact congrArg _ hpair

/-- Two sequences of definitions make the same inventory exactly if their names first occur in the
same order and every name has the same history in both. So two definitions of different names that
stand next to each other make another inventory when they change places exactly if both are the
first of their names. -/
theorem same_iff_histories :
    (∀ ds es : List Definition, (ofList ds).same (ofList es) = true ↔
        firstNames ds = firstNames es ∧
          ∀ name, List.Forall₂ (fun d e ↦ d.same e = true) (definitionsOf name ds)
            (definitionsOf name es)) ∧
      ∀ (before after : List Definition) (d e : Definition), d.name ≠ e.name →
        ((ofList (before ++ d :: e :: after)).same (ofList (before ++ e :: d :: after)) = false ↔
          d.name ∉ firstNames before ∧ e.name ∉ firstNames before) := by
  refine ⟨fun ds es ↦ same_ofList_iff, fun before after d e different ↦ ?_⟩
  have hhistories (name : String) : SameSequence (definitionsOf name (before ++ d :: e :: after))
      (definitionsOf name (before ++ e :: d :: after)) := by
    rw [definitionsOf_swap different]
    exact .refl _
  rw [← Bool.not_eq_true, same_ofList_iff, and_iff_left hhistories, firstNames_append,
    firstNames_append, List.append_cancel_left_eq, newNames_swap_iff different, not_or]

/-- An alias and a function in either order, and behind an earlier alias of the first name. -/
theorem same_iff_histories_of_neighbours :
    let x : Definition := ⟨"x", .alias, "1", ⟨".bashrc"⟩, 1⟩
    let y : Definition := ⟨"y", .function, ":;", ⟨"./.bashrc"⟩, 2⟩
    x.name ≠ y.name ∧ (ofList [x, y]).same (ofList [y, x]) = false ∧
      (ofList [x, x, y]).same (ofList [x, y, x]) ≠ false := by
  intro x y
  have different : x.name ≠ y.name := by decide
  have swap := same_iff_histories.2
  refine ⟨different, (swap [] [] x y different).2 ⟨by decide, by decide⟩, fun changed ↦ ?_⟩
  exact absurd ((swap [x] [] x y different).1 changed).1 (by decide)

end Inventory

end ShellCatalog
