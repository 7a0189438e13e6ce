import Mathlib.Data.List.Forall2
import ShellCatalog.Proofs.WordRow

/-!
# Texts with escaped characters

Outside PowerShell a backslash takes the next character literally, so such a text is made of units:
characters, and pairs of a backslash and a character. A reader that keeps to the units never takes
the second half of a pair for something else.

**An escaped newline is the only unit that ends a word** (`map_text_pieces_units`). The escape and
the newline both separate, and whatever quotes stand around them, since nothing but the depth is
asked of them. So a text that is read unit by unit has as its words its parts between the escaped
newlines (`words_of_units`).
-/

namespace ShellCatalog

/-! ### Units -/

/-- A character, with the backslash that escapes it if there is one. -/
inductive CharUnit
  | plain (c : Char)
  | escaped (c : Char)
  deriving DecidableEq, Repr

/-- The characters of a unit. -/
def CharUnit.chars : CharUnit → List Char
  | plain c => [c]
  | escaped c => ['\\', c]

/-- The text that is made of units. -/
def unitText (units : List CharUnit) : List Char :=
  units.flatMap CharUnit.chars

@[simp] theorem unitText_nil : unitText [] = [] := rfl

@[simp] theorem unitText_cons (u : CharUnit) (units : List CharUnit) :
    unitText (u :: units) = u.chars ++ unitText units := rfl

@[simp] theorem unitText_append (units more : List CharUnit) :
    unitText (units ++ more) = unitText units ++ unitText more :=
  List.flatMap_append

@[simp] theorem unitText_map_plain (text : List Char) : unitText (text.map .plain) = text := by
  induction text with
  | nil => rfl
  | cons c text ih => rw [List.map_cons, unitText_cons, ih, CharUnit.chars, List.singleton_append]

/-- The parts of a text between its escaped newlines. -/
def continuedParts (units : List CharUnit) : List (List CharUnit) :=
  units.splitOn (.escaped '\n')

/-- A unit is read as marks of a word: a plain character belongs to the word, and an escape makes
the character behind it literal. -/
inductive CharUnit.IsReadAs : CharUnit → List Mark → Prop
  | plain {c : Char} {m : Mark} (char : m.char = c) (solid : m.IsSolid) : IsReadAs (.plain c) [m]
  | escaped {c : Char} {m n : Mark} (backslash : m.char = '\\') (char : n.char = c)
      (escape : m.role = .escape ∧ m.depth = 0) (literal : n.role = .escaped ∧ n.depth = 0) :
      IsReadAs (.escaped c) [m, n]

namespace CharUnit.IsReadAs

variable {u : CharUnit} {units : List CharUnit} {ms : List Mark} {runs : List (List Mark)}

theorem text_eq (h : u.IsReadAs ms) : Mark.text ms = u.chars := by
  cases h with
  | plain char solid => simp [Mark.text, CharUnit.chars, char]
  | escaped backslash char escape literal => simp [Mark.text, CharUnit.chars, backslash, char]

/-- No statement ends at a unit, not even at an escaped newline. -/
theorem isUnbroken (h : u.IsReadAs ms) : ∀ m ∈ ms, m.IsUnbroken := by
  cases h with
  | plain char solid => simpa using solid.1
  | escaped backslash char escape literal =>
    intro k hk next
    rcases List.mem_cons.1 hk with rfl | hk
    · simp [Mark.separatesStatements, Mark.isTopComment, escape.1, backslash]
    · obtain rfl := List.mem_singleton.1 hk
      have hends : k.endsLine = false := by simp [Mark.endsLine, literal.1]
      simp only [Mark.separatesStatements, Mark.isTopComment, literal.1, hends]
      split <;> simp

theorem isUnbroken_flatten (h : List.Forall₂ IsReadAs units runs) :
    ∀ m ∈ runs.flatten, m.IsUnbroken := by
  induction h with
  | nil => simp
  | cons hu _ ih =>
    intro m hm
    rw [List.flatten_cons, List.mem_append] at hm
    exact hm.elim (hu.isUnbroken m) (ih m)

/-- Solid marks are read as plain characters. -/
theorem forall₂_plain (h : ∀ m ∈ ms, m.IsSolid) :
    List.Forall₂ IsReadAs ((Mark.text ms).map .plain) (ms.map fun m ↦ [m]) := by
  induction ms with
  | nil => exact .nil
  | cons m ms ih =>
    exact .cons (.plain rfl (h m List.mem_cons_self))
      (ih fun n hn ↦ h n (List.mem_cons_of_mem _ hn))

end CharUnit.IsReadAs

/-! ### Cutting at escaped newlines -/

section Cutting

variable {units : List CharUnit} {runs : List (List Mark)}

theorem continuedParts_ne_nil (units : List CharUnit) : continuedParts units ≠ [] :=
  List.splitOn_ne_nil _ _

theorem continuedParts_newline (units : List CharUnit) :
    continuedParts (.escaped '\n' :: units) = [] :: continuedParts units := by
  simp only [continuedParts, List.splitOn]
  rw [List.splitOnP_cons_eq_if_modifyHead, if_pos (by simp)]

theorem continuedParts_cons {u : CharUnit} (hu : u ≠ .escaped '\n') {part : List CharUnit}
    {parts : List (List CharUnit)} (h : continuedParts units = part :: parts) :
    continuedParts (u :: units) = (u :: part) :: parts := by
  simp only [continuedParts, List.splitOn] at h ⊢
  rw [List.splitOnP_cons_eq_if_modifyHead, if_neg (by simpa using hu), h, List.modifyHead_cons]

theorem continuedParts_of_not_mem (h : .escaped '\n' ∉ units) : continuedParts units = [units] :=
  List.splitOn_eq_singleton h

/-- The first part ends at the first escaped newline. -/
theorem continuedParts_append {first : List CharUnit} (h : .escaped '\n' ∉ first)
    (rest : List CharUnit) :
    continuedParts (first ++ .escaped '\n' :: rest) = first :: continuedParts rest := by
  rw [continuedParts, List.splitOn, List.splitOnP_append_cons _ _ (by simp), ← List.splitOn,
    List.splitOn_eq_singleton h]
  rfl

/-- The last part ends with the last unit. -/
theorem exists_continuedParts_concat {u : CharUnit} (hu : u ≠ .escaped '\n')
    (units : List CharUnit) :
    ∃ before part, continuedParts (units ++ [u]) = before ++ [part ++ [u]] := by
  induction units with
  | nil => exact ⟨[], [], continuedParts_of_not_mem (by simpa using hu.symm)⟩
  | cons v units ih =>
    obtain ⟨before, part, hparts⟩ := ih
    rw [List.cons_append]
    by_cases hv : v = .escaped '\n'
    · exact ⟨[] :: before, part, by rw [hv, continuedParts_newline, hparts, List.cons_append]⟩
    · cases before with
      | nil => exact ⟨[], v :: part, continuedParts_cons hv hparts⟩
      | cons first before => exact ⟨(v :: first) :: before, part, continuedParts_cons hv hparts⟩

/-- Units that are read one by one are cut where a newline is escaped, in front of the newline and
behind it. -/
theorem map_text_pieces_units (h : List.Forall₂ CharUnit.IsReadAs units runs) :
    [] :: (pieces Mark.separatesWords runs.flatten).map Mark.text =
      (continuedParts units).flatMap fun part ↦ [[], unitText part] := by
  induction h with
  | nil => rfl
  | @cons u ms units runs hu _ ih =>
    obtain ⟨part, parts, hparts⟩ := List.exists_cons_of_ne_nil (continuedParts_ne_nil units)
    obtain ⟨piece, others, hpieces⟩ := List.exists_cons_of_ne_nil
      (pieces_ne_nil Mark.separatesWords runs.flatten)
    rw [hparts, hpieces] at ih
    simp only [List.map_cons, List.flatMap_cons, List.cons_append, List.nil_append,
      List.cons.injEq, true_and] at ih
    obtain ⟨hpiece, hothers⟩ := ih
    have kept (hu' : u ≠ .escaped '\n')
        (hcut : pieces Mark.separatesWords (ms ++ runs.flatten) = (ms ++ piece) :: others) :
        [] :: (pieces Mark.separatesWords (ms ++ runs.flatten)).map Mark.text =
          (continuedParts (u :: units)).flatMap fun part ↦ [[], unitText part] := by
      rw [hcut, continuedParts_cons hu' hparts]
      simp [hu.text_eq, hpiece, hothers]
    rw [List.flatten_cons]
    cases hu with
    | plain char solid =>
      exact kept (by simp) (pieces_append (by simpa using solid.2) hpieces)
    | @escaped c m n backslash char escape literal =>
      by_cases hn : c = '\n'
      · rw [hn, continuedParts_newline, hparts, List.cons_append, List.singleton_append, pieces,
          if_pos (by simp [Mark.separatesWords, escape, char, hn]), pieces,
          if_pos (by simp [Mark.separatesWords, literal, char, hn]), hpieces]
        simp [hpiece, hothers]
        rfl
      · refine kept (by simpa using hn) ?_
        rw [List.cons_append, List.singleton_append, pieces,
          if_neg (by simp [Mark.separatesWords, Mark.isTopCode, escape, char, hn]), pieces,
          if_neg (by simp [Mark.separatesWords, Mark.isTopCode, literal, char, hn]), hpieces]
        rfl

/-- Without the empty parts that stand inside the escaped newlines, the parts that are cut off are
those between them. -/
theorem filter_map_text_pieces_units (h : List.Forall₂ CharUnit.IsReadAs units runs) :
    ((pieces Mark.separatesWords runs.flatten).map Mark.text).filter (fun w ↦ !w.isEmpty) =
      ((continuedParts units).map unitText).filter fun w ↦ !w.isEmpty := by
  have hunits := congrArg (List.filter fun w : List Char ↦ !w.isEmpty) (map_text_pieces_units h)
  rw [List.filter_cons_of_neg (by simp), List.filter_flatMap] at hunits
  rw [hunits]
  generalize continuedParts units = parts
  induction parts with
  | nil => rfl
  | cons part parts ih =>
    rw [List.flatMap_cons, ih, List.map_cons, List.filter_cons_of_neg (by simp)]
    by_cases hpart : unitText part = [] <;> simp [hpart]

/-- What is cut off last ends with the last unit. -/
theorem exists_map_text_pieces_concat {c : Char}
    (h : List.Forall₂ CharUnit.IsReadAs (units ++ [.plain c]) runs) :
    ∃ ws w, (pieces Mark.separatesWords runs.flatten).map Mark.text = ws ++ [w ++ [c]] := by
  have hunits := map_text_pieces_units h
  obtain ⟨before, part, hparts⟩ :=
    exists_continuedParts_concat (show CharUnit.plain c ≠ .escaped '\n' by simp) units
  rw [hparts, List.flatMap_append] at hunits
  cases before with
  | nil => exact ⟨[], unitText part, by simpa [CharUnit.chars] using hunits⟩
  | cons first before =>
    refine ⟨unitText first :: (before.flatMap fun part ↦ [[], unitText part]) ++ [[]],
      unitText part, ?_⟩
    simpa [CharUnit.chars] using hunits

/-- The words of a text that is a word, a blank and units read one by one. -/
theorem words_of_units {p : Profile} {text : List Char} {front : List Mark} {blank : Mark}
    {c : Char} (hmarks : marks p text = front ++ blank :: runs.flatten) (full : front ≠ [])
    (solid : ∀ m ∈ front, m.IsSolid) (separates : ∀ next, blank.separatesWords next = true)
    (h : List.Forall₂ CharUnit.IsReadAs (units ++ [.plain c]) runs) (visible : isSpace c = false) :
    words p text = Mark.text front ::
      ((continuedParts (units ++ [.plain c])).map unitText).filter fun w ↦ !w.isEmpty := by
  have hcomments : ∀ m ∈ marks p text, m.isTopComment = false := by
    intro m hm
    rw [hmarks] at hm
    rcases List.mem_append.1 hm with hm | hm
    · exact (solid m hm).1.isTopComment
    · rcases List.mem_cons.1 hm with rfl | hm
      · exact Mark.isTopComment_of_separatesWords (separates none)
      · exact (CharUnit.IsReadAs.isUnbroken_flatten h m hm).isTopComment
  obtain ⟨ws, w, hws⟩ := exists_map_text_pieces_concat h
  have hcut : (pieces Mark.separatesWords (marks p text)).map Mark.text =
      (Mark.text front :: ws) ++ [w ++ [c]] := by
    rw [hmarks, pieces_append_cons (fun m hm ↦ (solid m hm).2) (separates _), List.map_cons, hws,
      List.cons_append]
  have hfront : Mark.text front ≠ [] := fun h ↦ full (List.map_eq_nil_iff.1 h)
  rw [words_eq_filter_of_pieces hcomments hcut (by simp) (trimEnd_concat _ visible),
    List.cons_append, ← hws, List.filter_cons_of_pos (by simpa using hfront),
    filter_map_text_pieces_units h]

end Cutting

end ShellCatalog
