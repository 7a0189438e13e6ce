import ShellCatalog.CommandLine.Run

/-!
# The width of the table

The widths of the columns follow from the width of the terminal. On a terminal of forty-two
characters or more the table is as wide as the terminal, and on a narrower one it is forty-two wide;
only a limit to the body column makes it narrower (`columns_fit`).

**A cell is cut to its column and then padded to it**, so a row of cells is as wide as its columns,
whatever it shows: names, places and bodies of any length, or the mark of a shadowed definition.
Headings are padded alone. They fit into the columns of kinds, names and places, which are never
narrower than their headings, but a body column of less than four characters is too narrow for its
own (`length_rows_listing`).
-/

namespace ShellCatalog.Listing

/-- The width of a row: its four columns, and seven characters for the frame and the gaps between
columns. -/
def Columns.rowWidth (c : Columns) : Nat :=
  c.kind + c.name + c.location + c.body + 7

theorem Columns.inner_eq (c : Columns) : c.inner + 4 = c.rowWidth := by
  simp only [inner, rowWidth]
  omega

/-! ### The widths of the columns -/

theorem le_clamp (low high n : Nat) : low ≤ clamp low high n :=
  Nat.le_max_left _ _

theorem clamp_le {low high : Nat} (h : low ≤ high) (n : Nat) : clamp low high n ≤ high :=
  Nat.max_le.2 ⟨h, Nat.min_le_left _ _⟩

/-- A number is brought up to the lower limit or left as it is, or made smaller. -/
theorem clamp_le_max (low high n : Nat) : clamp low high n ≤ max low n :=
  Nat.max_le.2 ⟨Nat.le_max_left _ _, Nat.le_trans (Nat.min_le_right _ _) (Nat.le_max_right _ _)⟩

section Widths

variable (width maxBody : Nat)

theorem body_unlimited :
    (columns width 0).body =
      max 10 (width - (7 + 5) - ((columns width 0).name + (columns width 0).location)) :=
  rfl

theorem body_limited :
    (columns width maxBody).body =
      if maxBody = 0 then (columns width 0).body else min (columns width 0).body maxBody :=
  rfl

theorem ten_le_body : 10 ≤ (columns width 0).body :=
  Nat.le_max_left _ _

variable {width}

/-- Names and places leave ten characters for the body. -/
theorem name_add_location_le (wide : 42 ≤ width) :
    (columns width maxBody).name + (columns width maxBody).location + 10 ≤ width - (7 + 5) := by
  have hname : (columns width maxBody).name ≤ max 8 ((width - (7 + 5)) * 20 / 100) :=
    clamp_le_max ..
  have hlocation : (columns width maxBody).location ≤ max 12 ((width - (7 + 5)) * 30 / 100) :=
    clamp_le_max ..
  omega

/-- On a wide terminal the body column gets what the others leave. -/
theorem rowWidth_of_wide (wide : 42 ≤ width) : (columns width 0).rowWidth = width := by
  have hroom := name_add_location_le 0 wide
  have hkind : (columns width 0).kind = 5 := rfl
  rw [Columns.rowWidth, body_unlimited, hkind]
  omega

/-- On a narrow terminal every column has its least width. -/
theorem rowWidth_of_narrow (narrow : width < 42) : (columns width 0).rowWidth = 42 := by
  have hkind : (columns width 0).kind = 5 := rfl
  have hname : (columns width 0).name = 8 := by
    refine Nat.le_antisymm (Nat.le_trans (clamp_le_max ..) ?_) (le_clamp ..)
    omega
  have hlocation : (columns width 0).location = 12 := by
    refine Nat.le_antisymm (Nat.le_trans (clamp_le_max ..) ?_) (le_clamp ..)
    omega
  rw [Columns.rowWidth, body_unlimited, hkind, hname, hlocation]
  omega

variable (width)

theorem rowWidth_unlimited : (columns width 0).rowWidth = max width 42 := by
  rcases Nat.lt_or_ge width 42 with narrow | wide
  · rw [rowWidth_of_narrow narrow]
    omega
  · rw [rowWidth_of_wide wide]
    omega

/-- A limit makes a row narrower by what it takes from the body. -/
theorem rowWidth_limited :
    (columns width maxBody).rowWidth + (columns width 0).body =
      max width 42 + (columns width maxBody).body := by
  have hname : (columns width maxBody).name = (columns width 0).name := rfl
  have hlocation : (columns width maxBody).location = (columns width 0).location := rfl
  have hkind : (columns width maxBody).kind = (columns width 0).kind := rfl
  rw [← rowWidth_unlimited, Columns.rowWidth, Columns.rowWidth, hname, hlocation, hkind]
  omega

end Widths

/-- The table fits the terminal. It is no wider than the terminal, or than forty-two characters on a
narrower one, and it is as wide exactly if the body column is not limited to less than it would
have. Names get between eight and twenty-four characters and places between twelve and forty; a body
gets ten or more, or at least one and no more than its limit. On a terminal of forty-two characters
what is taken away for the frame and the kinds, and then for names and places, is never more than
there is. -/
theorem columns_fit (width maxBody : Nat) :
    (columns width maxBody).rowWidth ≤ max width 42 ∧
      ((columns width maxBody).rowWidth = max width 42 ↔
        maxBody = 0 ∨ (columns width 0).body ≤ maxBody) ∧
      (8 ≤ (columns width maxBody).name ∧ (columns width maxBody).name ≤ 24) ∧
      (12 ≤ (columns width maxBody).location ∧ (columns width maxBody).location ≤ 40) ∧
      (if maxBody = 0 then 10 ≤ (columns width maxBody).body
        else 1 ≤ (columns width maxBody).body ∧ (columns width maxBody).body ≤ maxBody) ∧
      (42 ≤ width → 7 + 5 ≤ width ∧
        (columns width maxBody).name + (columns width maxBody).location ≤ width - (7 + 5)) := by
  have hrow := rowWidth_limited width maxBody
  have hbody := body_limited width maxBody
  have hleast := ten_le_body width
  refine ⟨?_, ?_, ⟨le_clamp .., clamp_le (by decide) _⟩, ⟨le_clamp .., clamp_le (by decide) _⟩,
    ?_, fun wide ↦ ?_⟩
  · split at hbody <;> omega
  · split at hbody <;> omega
  · split at hbody
    · next unlimited => rw [if_pos unlimited]; omega
    · next limited => rw [if_neg limited]; omega
  · have hroom := name_add_location_le maxBody wide
    omega

/-- A wide terminal and a limited body. -/
theorem columns_fit_of_limit :
    42 ≤ 120 ∧ (columns 120 30).rowWidth ≤ max 120 42 ∧ (columns 120 30).body ≤ 30 ∧
      (columns 120 30).name + (columns 120 30).location ≤ 120 - (7 + 5) := by
  have wide : 42 ≤ 120 := by decide
  obtain ⟨hfits, -, -, -, hbody, hroom⟩ := columns_fit 120 30
  rw [if_neg (by decide)] at hbody
  exact ⟨wide, hfits, hbody.2, (hroom wide).2⟩

/-! ### The widths of the rows -/

theorem length_row (kind name location body : List Char) :
    (row kind name location body).length =
      kind.length + name.length + location.length + body.length + 7 := by
  simp only [row, List.length_append, List.length_cons, List.length_nil]
  omega

/-- A cell fills its column, whatever text it is made of. -/
theorem length_cell (style : Style) (width : Nat) (text : List Char) :
    (cell false style width text).length = width := by
  rw [cell, Style.paint_without_colors, length_pad (length_cutTo_le width text)]

theorem length_rule (width : Nat) : (rule false width).length = width := by
  rw [rule, Style.paint_without_colors, length_pad_eq_max, List.length_replicate, Nat.zero_max]

theorem length_label_le (kind : Kind) : kind.label.toList.length ≤ 5 := by
  cases kind <;> decide

section Rows

variable {c : Columns}

/-- A row of a kind and three cells is as wide as its columns, where the column of kinds has room
for both of them. -/
theorem length_row_cells (roomy : 5 ≤ c.kind) (kind : Kind) (name location body : List Char)
    (s₁ s₂ s₃ s₄ : Style) :
    (row (s₁.paint false kind.label.toList c.kind) (cell false s₂ c.name name)
      (cell false s₃ c.location location) (cell false s₄ c.body body)).length = c.rowWidth := by
  rw [length_row, Style.paint_without_colors,
    length_pad (Nat.le_trans (length_label_le kind) roomy), length_cell, length_cell, length_cell,
    Columns.rowWidth]

/-- So are the rows of live and of shadowed definitions. -/
theorem length_of_mem_recordRows (roomy : 5 ≤ c.kind) {home : Path} {r : Record}
    {line : List Char} (h : line ∈ recordRows home false c r) : line.length = c.rowWidth := by
  rcases List.mem_cons.1 h with rfl | h
  · exact length_row_cells roomy ..
  · obtain ⟨d, -, rfl⟩ := List.mem_map.1 h
    exact length_row_cells roomy ..

theorem length_ruleRow (c : Columns) : (ruleRow false c).length = c.rowWidth := by
  rw [← Columns.inner_eq, ruleRow]
  simp only [List.length_append, length_rule, List.length_cons, List.length_nil]
  omega

theorem length_bottomRow (c : Columns) : (bottomRow false c).length = c.rowWidth := by
  rw [← Columns.inner_eq, bottomRow]
  simp only [List.length_append, length_rule, List.length_cons, List.length_nil]
  omega

/-- Headings are not cut, so a column is never narrower than its own. -/
theorem length_headingRow (c : Columns) :
    (headingRow false c).length =
      max c.kind 4 + max c.name 4 + max c.location 8 + max c.body 4 + 7 := by
  rw [headingRow, length_row]
  simp only [Style.paint_without_colors, length_pad_eq_max]
  rfl

end Rows

/-- The rows of the table from the line under the headings down to the lower edge. -/
def rowsBelow (home : Path) (c : Columns) (records : List Record) : List (List Char) :=
  ruleRow false c :: records.flatMap (recordRows home false c) ++ [bottomRow false c]

theorem length_of_mem_rowsBelow {home : Path} {c : Columns} (roomy : 5 ≤ c.kind)
    {records : List Record} {line : List Char} (h : line ∈ rowsBelow home c records) :
    line.length = c.rowWidth := by
  rw [rowsBelow, List.mem_append, List.mem_cons, List.mem_singleton, List.mem_flatMap] at h
  rcases h with (rfl | ⟨r, -, hr⟩) | rfl
  · exact length_ruleRow c
  · exact length_of_mem_recordRows roomy hr
  · exact length_bottomRow c

/-! ### The rows of a listing -/

theorem exists_listing_eq {p : Plan} {r : Report} (uncolored : p.colors = false)
    (table : p.json = false) (shown : p.visible r.inventory ≠ []) (home : Path) (width : Nat) :
    ∃ title hints, p.listing home width r =
        title :: headingRow false (columns width p.maxBodyWidth) ::
          rowsBelow home (columns width p.maxBodyWidth) (p.visible r.inventory) ++ hints ∧
      hints.length ≤ 1 := by
  have hrecords : (p.visible r.inventory).isEmpty = false := by simpa using shown
  rw [Plan.listing, if_neg (by simp [table]), tableLines, if_neg (by simp [hrecords])]
  simp only [uncolored]
  refine ⟨_, if 0 < r.inventory.redefined.length ∧ ¬p.showShadowed then [_] else [], rfl, ?_⟩
  split <;> simp

/-- The listing of a table has a title, the headings, the rows below them and at most one line more.
Without colours every row below the headings is as wide as its columns: the line under the headings,
the rows of live and of shadowed definitions, and the lower edge. The row of the headings is wider
by what the body column lacks of four characters, so all rows are equally wide exactly if bodies are
not limited to less than that. -/
theorem length_rows_listing {p : Plan} {r : Report} (uncolored : p.colors = false)
    (table : p.json = false) (shown : p.visible r.inventory ≠ []) (home : Path) (width : Nat) :
    let c := columns width p.maxBodyWidth
    let rows := rowsBelow home c (p.visible r.inventory)
    (∃ title hints, p.listing home width r = title :: headingRow false c :: rows ++ hints ∧
        hints.length ≤ 1) ∧
      (∀ line ∈ rows, line.length = c.rowWidth) ∧
      (headingRow false c).length = c.rowWidth + (4 - c.body) ∧
      ((∀ line ∈ headingRow false c :: rows, line.length = c.rowWidth) ↔
        p.maxBodyWidth = 0 ∨ 4 ≤ p.maxBodyWidth) := by
  intro c rows
  have hrows : ∀ line ∈ rows, line.length = c.rowWidth :=
    fun line hline ↦ length_of_mem_rowsBelow (Nat.le_refl 5) hline
  have hkind : c.kind = 5 := rfl
  have hname : 8 ≤ c.name := le_clamp ..
  have hlocation : 12 ≤ c.location := le_clamp ..
  have hheading : (headingRow false c).length = c.rowWidth + (4 - c.body) := by
    rw [length_headingRow, Columns.rowWidth]
    omega
  have hleast := ten_le_body width
  have hbody : c.body = _ := body_limited width p.maxBodyWidth
  refine ⟨exists_listing_eq uncolored table shown home width, hrows, hheading, ?_⟩
  rw [List.forall_mem_cons, and_iff_left hrows, hheading]
  split at hbody <;> omega

/-- A function that shadows an alias, and bodies limited to two characters: the headings make a row
of thirty-six characters over rows of thirty-four. -/
theorem length_rows_listing_of_narrow :
    let p : Plan := ⟨[], ⟨none, .given, false⟩, ⟨none, none⟩, true, false, false, false, 2⟩
    let r : Report :=
      ⟨.ofList [⟨"x", .alias, "ls", ⟨".bashrc"⟩, 1⟩, ⟨"x", .function, ":;", ⟨".bashrc"⟩, 2⟩], [],
        1, 1, false⟩
    p.colors = false ∧ p.json = false ∧ p.visible r.inventory ≠ [] ∧
      (headingRow false (columns 40 2)).length = 36 ∧
      ∀ line ∈ rowsBelow ⟨"home"⟩ (columns 40 2) (p.visible r.inventory), line.length = 34 := by
  intro p r
  have shown : p.visible r.inventory ≠ [] := by decide
  obtain ⟨-, hrows, hheading, -⟩ :=
    length_rows_listing (p := p) (r := r) rfl rfl shown ⟨"home"⟩ 40
  exact ⟨rfl, rfl, shown, hheading, hrows⟩

end ShellCatalog.Listing
