import Mathlib.Data.List.Infix
import ShellCatalog.Body

/-!
# Dedenting undoes indenting

The indentation that all visible lines of a body share is found by comparing the runs of spaces and
tabs in front of them. It is the longest one that begins all of them (`isPrefix_sharedIndent_iff`):
comparing two texts leaves the longest text that begins both (`isPrefix_sharedStart_iff`), and
comparing one after the other leaves the longest that begins all of them.

Lines that are indented by one and the same text share that text and what they shared before
(`sharedIndent_map_append`). So lines that shared nothing, and had no blanks at their ends, are
given back by dedenting (`Body.dedent_indented`). Indenting makes no blank line visible, so blank
lines may be indented with the others. That they shared nothing is no restriction on the program:
what they shared would be taken away with the rest.
-/

namespace ShellCatalog

/-! ### What texts have in common at their start -/

theorem sharedStart_append (w s t : List Char) :
    sharedStart (w ++ s) (w ++ t) = w ++ sharedStart s t := by
  induction w with
  | nil => rfl
  | cons c w ih => rw [List.cons_append, List.cons_append, sharedStart, if_pos rfl, ih,
      List.cons_append]

/-- What two texts have in common at their start is the longest text that begins both. -/
theorem isPrefix_sharedStart_iff {w s t : List Char} :
    w <+: sharedStart s t ↔ w <+: s ∧ w <+: t := by
  induction w generalizing s t with
  | nil => simp
  | cons c w ih =>
    cases s with
    | nil => simp [sharedStart]
    | cons d s =>
      cases t with
      | nil => simp [sharedStart]
      | cons e t =>
        rw [sharedStart]
        split
        · next h =>
          subst h
          rw [List.cons_prefix_cons, List.cons_prefix_cons, List.cons_prefix_cons, ih]
          tauto
        · next h =>
          simp only [List.prefix_nil, reduceCtorEq, List.cons_prefix_cons, false_iff]
          rintro ⟨⟨rfl, -⟩, rfl, -⟩
          exact h rfl

/-- What is left after comparing a text with others is the longest text that begins all of them. -/
theorem isPrefix_foldl_sharedStart_iff {w first : List Char} {others : List (List Char)} :
    w <+: others.foldl sharedStart first ↔ ∀ s ∈ first :: others, w <+: s := by
  induction others generalizing first with
  | nil => simp
  | cons t others ih =>
    rw [List.foldl_cons, ih]
    simp only [List.forall_mem_cons, isPrefix_sharedStart_iff, and_assoc]

theorem foldl_sharedStart_append (w first : List Char) (others : List (List Char)) :
    (others.map (w ++ ·)).foldl sharedStart (w ++ first) = w ++ others.foldl sharedStart first := by
  induction others generalizing first with
  | nil => rfl
  | cons s others ih => rw [List.map_cons, List.foldl_cons, List.foldl_cons, sharedStart_append, ih]

/-! ### The indentation of lines -/

theorem isSpace_of_isIndent {c : Char} (h : isIndent c = true) : isSpace c = true := by
  simp only [isIndent, Bool.or_eq_true, beq_iff_eq] at h
  rcases h with rfl | rfl <;> decide

/-- Indenting a line does not make it visible. -/
theorem isBlank_append_of_isIndent {w : List Char} (hw : ∀ c ∈ w, isIndent c = true)
    (line : List Char) : isBlank (w ++ line) = isBlank line := by
  have hblank : w.all isSpace = true := List.all_eq_true.2 fun c hc ↦ isSpace_of_isIndent (hw c hc)
  rw [isBlank, List.all_append, hblank, Bool.true_and, isBlank]

/-- Lines that are all indented by `w` share `w` and what they shared before. -/
theorem sharedIndent_map_append {w : List Char} {lines : List (List Char)}
    (hw : ∀ c ∈ w, isIndent c = true) (visible : ∃ line ∈ lines, isBlank line = false) :
    sharedIndent (lines.map (w ++ ·)) = w ++ sharedIndent lines := by
  have hfilter : (lines.map (w ++ ·)).filter (fun line ↦ !isBlank line) =
      (lines.filter fun line ↦ !isBlank line).map (w ++ ·) := by
    rw [List.filter_map]
    congr 1
    exact List.filter_congr fun line _ ↦ congrArg (!·) (isBlank_append_of_isIndent hw line)
  have hindents : ((lines.filter fun line ↦ !isBlank line).map (w ++ ·)).map
      (·.takeWhile isIndent) =
        ((lines.filter fun line ↦ !isBlank line).map (·.takeWhile isIndent)).map (w ++ ·) := by
    rw [List.map_map, List.map_map]
    exact List.map_congr_left fun line _ ↦ List.takeWhile_append_of_pos hw
  obtain ⟨line, hline, hvisible⟩ := visible
  have hmem : line.takeWhile isIndent ∈
      (lines.filter fun line ↦ !isBlank line).map (·.takeWhile isIndent) :=
    List.mem_map_of_mem (List.mem_filter.2 ⟨hline, by simp [hvisible]⟩)
  rw [sharedIndent, sharedIndent, hfilter, hindents]
  cases h : (lines.filter fun line ↦ !isBlank line).map (·.takeWhile isIndent) with
  | nil => rw [h] at hmem; exact absurd hmem List.not_mem_nil
  | cons first others =>
    rw [List.map_cons]
    exact foldl_sharedStart_append w first others

theorem isPrefix_takeWhile_iff {α : Type} {test : α → Bool} {w l : List α} :
    w <+: l.takeWhile test ↔ (∀ a ∈ w, test a = true) ∧ w <+: l := by
  constructor
  · intro h
    exact ⟨fun a ha ↦ List.all_eq_true.1 List.all_takeWhile a (h.subset ha),
      h.trans (List.takeWhile_prefix test)⟩
  · rintro ⟨hw, rest, rfl⟩
    rw [List.takeWhile_append_of_pos hw]
    exact List.prefix_append ..

/-- The indentation of lines is the longest run of spaces and tabs that begins all visible ones. -/
theorem isPrefix_sharedIndent_iff {w : List Char} {lines : List (List Char)}
    (visible : ∃ line ∈ lines, isBlank line = false) :
    w <+: sharedIndent lines ↔
      (∀ c ∈ w, isIndent c = true) ∧ ∀ line ∈ lines, isBlank line = false → w <+: line := by
  obtain ⟨line, hline, hvisible⟩ := visible
  have hmem (line : List Char) :
      line ∈ lines.filter (fun line ↦ !isBlank line) ↔ line ∈ lines ∧ isBlank line = false := by
    simp
  rw [sharedIndent]
  cases h : (lines.filter fun line ↦ !isBlank line).map (·.takeWhile isIndent) with
  | nil =>
    rw [List.map_eq_nil_iff] at h
    exact absurd (h ▸ (hmem line).2 ⟨hline, hvisible⟩) List.not_mem_nil
  | cons first others =>
    dsimp only
    rw [isPrefix_foldl_sharedStart_iff, ← h]
    simp only [List.forall_mem_map, hmem, isPrefix_takeWhile_iff, and_imp]
    exact ⟨fun hw ↦ ⟨(hw line hline hvisible).1, fun l hl hshown ↦ (hw l hl hshown).2⟩,
      fun hw l hl hshown ↦ ⟨hw.1, hw.2 l hl hshown⟩⟩

/-- Lines share no indentation when none of its characters begins all visible ones. -/
theorem sharedIndent_eq_nil {lines : List (List Char)}
    (flush : ∀ c, isIndent c = true → ∃ line ∈ lines, isBlank line = false ∧
      line.head? ≠ some c) : sharedIndent lines = [] := by
  obtain ⟨line, hline, hvisible, -⟩ := flush ' ' (by decide)
  cases hshared : sharedIndent lines with
  | nil => rfl
  | cons c rest =>
    have hc : [c] <+: sharedIndent lines := ⟨rest, hshared.symm⟩
    rw [isPrefix_sharedIndent_iff ⟨line, hline, hvisible⟩] at hc
    obtain ⟨l, hl, hshown, hhead⟩ := flush c (hc.1 c List.mem_cons_self)
    obtain ⟨more, rfl⟩ := hc.2 l hl hshown
    exact absurd rfl hhead

/-! ### Bodies on several lines -/

theorem splitOn_lines {lines : List (List Char)} (single : ∀ line ∈ lines, '\n' ∉ line) :
    splitOn '\n' (lines.flatMap (· ++ ['\n'])) = lines ++ [[]] := by
  induction lines with
  | nil => rfl
  | cons line lines ih =>
    have htext : (line :: lines).flatMap (· ++ ['\n']) =
        line ++ '\n' :: lines.flatMap (· ++ ['\n']) := by simp
    rw [htext, splitOn_append_cons (single line List.mem_cons_self),
      ih fun l hl ↦ single l (List.mem_cons_of_mem _ hl), List.cons_append]

/-- The remainders of the lines that hold the brackets go. -/
theorem dropBlankEnds_nil_nil (lines : List (List Char)) :
    dropBlankEnds ([] :: lines ++ [[]]) = lines := by
  simp [dropBlankEnds, isBlank]

/-- Lines that share no indentation and have no blanks at their ends are given back from a body in
which all of them, the empty ones included, are indented by the same blanks. -/
theorem Body.dedent_indented {w : List Char} {lines : List (List Char)}
    (hw : ∀ c ∈ w, isIndent c = true) (single : ∀ line ∈ lines, '\n' ∉ line)
    (kept : ∀ line ∈ lines, trimEnd line = line)
    (flush : ∀ c, isIndent c = true → ∃ line ∈ lines, isBlank line = false ∧
      line.head? ≠ some c) :
    dedent ('\n' :: lines.flatMap (w ++ · ++ ['\n'])) = lines.flatMap (· ++ ['\n']) := by
  have hnewline : '\n' ∉ w := fun h ↦ absurd (hw _ h) (by decide)
  have hlines : dropBlankEnds (splitOn '\n' ('\n' :: lines.flatMap (w ++ · ++ ['\n']))) =
      lines.map (w ++ ·) := by
    have hsingle : ∀ line ∈ lines.map (w ++ ·), '\n' ∉ line := by
      intro line hline
      obtain ⟨l, hl, rfl⟩ := List.mem_map.1 hline
      simp [hnewline, single l hl]
    have htext : lines.flatMap (w ++ · ++ ['\n']) = (lines.map (w ++ ·)).flatMap (· ++ ['\n']) := by
      rw [List.flatMap_map]
    rw [splitOn, if_pos rfl, htext, splitOn_lines hsingle, ← List.cons_append,
      dropBlankEnds_nil_nil]
  have hindent : sharedIndent (lines.map (w ++ ·)) = w := by
    obtain ⟨line, hline, hvisible, -⟩ := flush ' ' (by decide)
    rw [sharedIndent_map_append hw ⟨line, hline, hvisible⟩, sharedIndent_eq_nil flush,
      List.append_nil]
  rw [dedent, if_neg (by simp)]
  simp only [hlines, hindent, List.flatMap_map]
  refine List.flatMap_congr fun line hline ↦ ?_
  rw [isBlank_append_of_isIndent hw]
  split
  · next hblank =>
    have hempty : line = [] := by
      rw [← kept line hline, trimEnd_eq_nil_iff]
      exact hblank
    rw [hempty]
  · rw [List.drop_left, kept line hline]

end ShellCatalog
