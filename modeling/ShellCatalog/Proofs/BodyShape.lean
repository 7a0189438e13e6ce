import Mathlib.Data.List.TakeWhile
import ShellCatalog.Proofs.Dedent

/-!
# The shape of a dedented body

A body on several lines is reported with its visible lines flush and without blanks at their ends.
Blank lines hold nothing and take no part in the indentation, so it does not matter to the visible
lines that a blank first and a blank last line are dropped (`filter_dropBlankEnds`).

**Only one blank line goes at the end.** Every other one keeps its newline, so a body ends with one
newline, as it is meant to, exactly if no two blank lines stand below its last visible one
(`Body.isShaped_dedent`).
-/

namespace ShellCatalog

/-- The visible lines of a text. -/
def shownLines (text : List Char) : List (List Char) :=
  (splitOn '\n' text).filter fun line ↦ !isBlank line

/-- The number of blank lines below the last visible line of a text. -/
def blankBelow (text : List Char) : Nat :=
  ((splitOn '\n' text).reverse.takeWhile isBlank).length

/-- The shape of a body on several lines that stands between its brackets as `inner`. -/
structure Body.IsShaped (inner body : List Char) : Prop where
  /-- No line ends with a blank. -/
  trimmed : ∀ line ∈ splitOn '\n' body, ∀ c ∈ line.getLast?, isSpace c = false
  /-- The visible lines share no indentation. -/
  flush : ∀ w, (∀ c ∈ w, isIndent c = true) → (∀ line ∈ shownLines body, w <+: line) → w = []
  /-- The visible lines are those of the inside, each without the same indentation and without the
  blanks at its end. -/
  kept : ∃ w, (∀ c ∈ w, isIndent c = true) ∧ (∀ line ∈ shownLines inner, w <+: line) ∧
    shownLines body = (shownLines inner).map fun line ↦ trimEnd (line.drop w.length)
  /-- As many newlines end the body as blank lines stand below the last visible one, but at least
  one. -/
  ends : ∃ text c, isSpace c = false ∧
    body = text ++ c :: List.replicate (max 1 (blankBelow inner)) '\n'

/-! ### Dropping blank lines -/

section Lines

variable {lines : List (List Char)}

theorem mem_shown_iff {line : List Char} :
    line ∈ lines.filter (fun line ↦ !isBlank line) ↔ line ∈ lines ∧ isBlank line = false := by
  simp

/-- Below the last visible line there are blank lines only. -/
theorem exists_last_visible (visible : ∃ line ∈ lines, isBlank line = false) :
    ∃ before line after, lines = before ++ line :: after ∧ isBlank line = false ∧
      (∀ l ∈ after, isBlank l = true) ∧
      after.length = (lines.reverse.takeWhile isBlank).length := by
  have hsplit := List.takeWhile_append_dropWhile (p := isBlank) (l := lines.reverse)
  cases h : lines.reverse.dropWhile isBlank with
  | nil =>
    obtain ⟨line, hline, hvisible⟩ := visible
    have hblank := List.dropWhile_eq_nil_iff.1 h line (List.mem_reverse.2 hline)
    rw [hvisible] at hblank
    exact absurd hblank Bool.false_ne_true
  | cons line rest =>
    have hline := List.head?_dropWhile_not isBlank lines.reverse
    rw [h] at hline hsplit
    have hlines := congrArg List.reverse hsplit
    rw [List.reverse_append, List.reverse_cons, List.reverse_reverse, List.append_assoc] at hlines
    refine ⟨rest.reverse, line, _, hlines.symm, hline, fun l hl ↦ ?_, List.length_reverse⟩
    exact List.all_eq_true.1 List.all_takeWhile l (List.mem_reverse.1 hl)

/-- A blank first line and a blank last line go, and nothing else. -/
theorem exists_dropBlankEnds {line : List Char} (before : List (List Char))
    {after : List (List Char)} (visible : isBlank line = false)
    (blank : ∀ l ∈ after, isBlank l = true) :
    ∃ front, dropBlankEnds (before ++ line :: after) = front ++ line :: after.dropLast ∧
      (front = before ∨ ∃ first, isBlank first = true ∧ before = first :: front) := by
  have hlast (front : List (List Char)) :
      (if ((front ++ line :: after).getLast?.map isBlank).getD false then
        (front ++ line :: after).dropLast else front ++ line :: after) =
          front ++ line :: after.dropLast := by
    rcases List.eq_nil_or_concat' after with rfl | ⟨init, l, rfl⟩
    · simp [visible]
    · have hl : isBlank l = true := blank l (by simp)
      have hassoc : front ++ line :: (init ++ [l]) = (front ++ line :: init) ++ [l] := by simp
      rw [hassoc, List.getLast?_concat, Option.map_some, Option.getD_some, if_pos hl,
        List.dropLast_concat, List.dropLast_concat]
  rw [dropBlankEnds]
  cases before with
  | nil => exact ⟨[], by simpa [visible] using hlast [], .inl rfl⟩
  | cons first before =>
    by_cases hfirst : isBlank first = true
    · exact ⟨before, by simpa [hfirst] using hlast before, .inr ⟨first, hfirst, rfl⟩⟩
    · exact ⟨first :: before, by simpa [hfirst] using hlast (first :: before), .inl rfl⟩

theorem dropBlankEnds_sublist (lines : List (List Char)) : (dropBlankEnds lines).Sublist lines := by
  have hfirst : (if (lines.head?.map isBlank).getD false then lines.tail else lines).Sublist
      lines := by
    split
    · exact List.tail_sublist lines
    · exact List.Sublist.refl lines
  have hlast (ls : List (List Char)) :
      (if (ls.getLast?.map isBlank).getD false then ls.dropLast else ls).Sublist ls := by
    split
    · exact List.dropLast_sublist ls
    · exact List.Sublist.refl ls
  exact (hlast _).trans hfirst

/-- No visible line goes. -/
theorem filter_dropBlankEnds (visible : ∃ line ∈ lines, isBlank line = false) :
    (dropBlankEnds lines).filter (fun line ↦ !isBlank line) =
      lines.filter fun line ↦ !isBlank line := by
  obtain ⟨before, line, after, rfl, hline, hafter, -⟩ := exists_last_visible visible
  obtain ⟨front, hdrop, hfront⟩ := exists_dropBlankEnds before hline hafter
  have hnone {ls : List (List Char)} (h : ∀ l ∈ ls, isBlank l = true) :
      ls.filter (fun line ↦ !isBlank line) = [] :=
    List.filter_eq_nil_iff.2 fun l hl ↦ by simp [h l hl]
  have hbefore : front.filter (fun line ↦ !isBlank line) =
      before.filter fun line ↦ !isBlank line := by
    rcases hfront with rfl | ⟨first, hfirst, rfl⟩
    · rfl
    · rw [List.filter_cons_of_neg (by simp [hfirst])]
  rw [hdrop, List.filter_append, List.filter_append, hbefore,
    List.filter_cons_of_pos (by simp [hline]), List.filter_cons_of_pos (by simp [hline]),
    hnone hafter, hnone fun l hl ↦ hafter l (List.dropLast_subset after hl)]

end Lines

/-! ### The lines of a body -/

/-- A line without the indentation `w` and without blanks at its end; nothing is left of a blank
line. -/
def dedentLine (w line : List Char) : List Char :=
  if isBlank line then [] else trimEnd (line.drop w.length)

namespace Body

variable {inner : List Char}

/-- The indentation of a body. -/
def indent (inner : List Char) : List Char :=
  sharedIndent (splitOn '\n' inner)

theorem exists_visible (visible : shownLines inner ≠ []) :
    ∃ line ∈ splitOn '\n' inner, isBlank line = false := by
  obtain ⟨line, hline⟩ := List.exists_mem_of_ne_nil _ visible
  exact ⟨line, mem_shown_iff.1 hline⟩

/-- The indentation of a body is the longest run of spaces and tabs that begins its visible
lines. -/
theorem isPrefix_indent_iff {w : List Char} (visible : shownLines inner ≠ []) :
    w <+: indent inner ↔
      (∀ c ∈ w, isIndent c = true) ∧ ∀ line ∈ shownLines inner, w <+: line := by
  rw [indent, isPrefix_sharedIndent_iff (exists_visible visible)]
  simp only [shownLines, mem_shown_iff, and_imp]

/-- A body is made of the lines of the inside, one by one. -/
theorem dedent_eq (several : '\n' ∈ inner) (visible : shownLines inner ≠ []) :
    dedent inner = ((dropBlankEnds (splitOn '\n' inner)).map
      (dedentLine (indent inner))).flatMap (· ++ ['\n']) := by
  have hindent : sharedIndent (dropBlankEnds (splitOn '\n' inner)) = indent inner := by
    rw [indent, sharedIndent, sharedIndent, filter_dropBlankEnds (exists_visible visible)]
  rw [dedent, if_neg (by simpa using several), List.flatMap_map]
  dsimp only
  rw [hindent]
  rfl

theorem splitOn_dedent (several : '\n' ∈ inner) (visible : shownLines inner ≠ []) :
    splitOn '\n' (dedent inner) =
      (dropBlankEnds (splitOn '\n' inner)).map (dedentLine (indent inner)) ++ [[]] := by
  rw [dedent_eq several visible]
  refine splitOn_lines fun line hline hmem ↦ ?_
  obtain ⟨l, hl, rfl⟩ := List.mem_map.1 hline
  rw [dedentLine] at hmem
  split at hmem
  · exact List.not_mem_nil hmem
  · have hsub := (trimEnd_isPrefix (l.drop (indent inner).length)).sublist.trans
      (List.drop_sublist _ l)
    exact not_mem_of_mem_splitOn ((dropBlankEnds_sublist _).subset hl) (hsub.subset hmem)

/-- A visible line stays visible without the indentation. -/
theorem exists_of_mem_shownLines {line : List Char} (hline : line ∈ shownLines inner) :
    ∃ rest, line = indent inner ++ rest ∧ isBlank rest = false ∧
      dedentLine (indent inner) line = trimEnd rest := by
  have hvisible : shownLines inner ≠ [] := List.ne_nil_of_mem hline
  obtain ⟨hindent, hbegins⟩ := (isPrefix_indent_iff hvisible).1 (List.prefix_refl _)
  obtain ⟨rest, rfl⟩ := hbegins line hline
  have hshown := (mem_shown_iff.1 hline).2
  refine ⟨rest, rfl, ?_, ?_⟩
  · rwa [isBlank_append_of_isIndent hindent] at hshown
  · rw [dedentLine, if_neg (by simp [hshown]), List.drop_left]

/-- The visible lines of a body are those of the inside, dedented. -/
theorem shownLines_dedent (several : '\n' ∈ inner) (visible : shownLines inner ≠ []) :
    shownLines (dedent inner) =
      (shownLines inner).map fun line ↦ trimEnd (line.drop (indent inner).length) := by
  have hkeeps : ∀ line ∈ dropBlankEnds (splitOn '\n' inner),
      isBlank (dedentLine (indent inner) line) = isBlank line := by
    intro line hline
    cases hblank : isBlank line with
    | true => rw [dedentLine, if_pos hblank]; rfl
    | false =>
      obtain ⟨rest, -, hrest, hdedent⟩ := exists_of_mem_shownLines
        (mem_shown_iff.2 ⟨(dropBlankEnds_sublist _).subset hline, hblank⟩)
      rw [hdedent, isBlank_trimEnd, hrest]
  have hnil : [([] : List Char)].filter (fun line ↦ !isBlank line) = [] := rfl
  rw [shownLines, splitOn_dedent several visible, List.filter_append, hnil, List.append_nil,
    List.filter_map]
  calc ((dropBlankEnds (splitOn '\n' inner)).filter
        ((fun line ↦ !isBlank line) ∘ dedentLine (indent inner))).map (dedentLine (indent inner))
      = ((dropBlankEnds (splitOn '\n' inner)).filter fun line ↦ !isBlank line).map
          (dedentLine (indent inner)) :=
        congrArg _ (List.filter_congr fun line hline ↦ congrArg (!·) (hkeeps line hline))
    _ = (shownLines inner).map (dedentLine (indent inner)) := by
        rw [filter_dropBlankEnds (exists_visible visible), shownLines]
    _ = _ := by
        refine List.map_congr_left fun line hline ↦ ?_
        rw [dedentLine, if_neg (by simp [(mem_shown_iff.1 hline).2])]

/-- A body ends with its last visible character and the newlines of the lines from there on, one
blank line left out. -/
theorem exists_dedent_eq (several : '\n' ∈ inner) (visible : shownLines inner ≠ []) :
    ∃ text c, isSpace c = false ∧
      dedent inner = text ++ c :: List.replicate (max 1 (blankBelow inner)) '\n' := by
  obtain ⟨before, line, after, hlines, hline, hafter, hlength⟩ :=
    exists_last_visible (exists_visible visible)
  obtain ⟨front, hdrop, -⟩ := exists_dropBlankEnds before hline hafter
  obtain ⟨rest, -, hrest, hdedent⟩ := exists_of_mem_shownLines
    (mem_shown_iff.2 ⟨by rw [hlines]; simp, hline⟩)
  have hfull : trimEnd rest ≠ [] := by
    rw [ne_eq, trimEnd_eq_nil_iff, hrest]
    exact Bool.false_ne_true
  obtain ⟨init, c, hlast⟩ := (List.eq_nil_or_concat' (trimEnd rest)).resolve_left hfull
  have hvisible : isSpace c = false := getLast?_trimEnd (by rw [hlast, List.getLast?_concat])
  -- Of the blank lines below only their newlines are left.
  have hbelow : (after.dropLast.map (dedentLine (indent inner))).flatMap (· ++ ['\n']) =
      List.replicate (after.length - 1) '\n' := by
    have hempty : after.dropLast.map (dedentLine (indent inner)) =
        after.dropLast.map fun _ ↦ [] :=
      List.map_congr_left fun l hl ↦ if_pos (hafter l (List.dropLast_subset after hl))
    rw [hempty, List.map_const', List.length_dropLast]
    generalize after.length - 1 = n
    induction n with
    | zero => rfl
    | succ n ih => rw [List.replicate_succ, List.flatMap_cons, ih]; rfl
  have hcount : max 1 (blankBelow inner) = after.length - 1 + 1 := by
    rw [blankBelow, ← hlength]
    omega
  refine ⟨(front.map (dedentLine (indent inner))).flatMap (· ++ ['\n']) ++ init, c, hvisible, ?_⟩
  rw [dedent_eq several visible, hlines, hdrop, List.map_append, List.map_cons, List.flatMap_append,
    List.flatMap_cons, hbelow, hdedent, hlast, hcount, List.replicate_succ]
  simp

end Body

/-- A text ends with exactly one newline if there is one behind its last other character. -/
theorem exists_eq_append_newline_iff {text : List Char} {c : Char} {n : Nat} (hc : c ≠ '\n') :
    (∃ front d, d ≠ '\n' ∧ text ++ c :: List.replicate (n + 1) '\n' = front ++ [d, '\n']) ↔
      n = 0 := by
  constructor
  · rintro ⟨front, d, hd, heq⟩
    cases n with
    | zero => rfl
    | succ n =>
      have hsplit : text ++ c :: List.replicate (n + 1 + 1) '\n' =
          (text ++ c :: List.replicate n '\n') ++ ['\n', '\n'] := by
        rw [List.append_assoc, List.cons_append, show ['\n', '\n'] = List.replicate 2 '\n' from rfl,
          List.replicate_append_replicate]
      rw [hsplit] at heq
      have hlast := (List.append_inj' heq rfl).2
      exact absurd (List.cons.inj hlast).1.symm hd
  · rintro rfl
    exact ⟨text, c, hc, rfl⟩

/-- A body on several lines with a visible one is fully dedented. It ends with exactly one newline
exactly if no two blank lines stand below its last visible one. -/
theorem Body.isShaped_dedent {inner : List Char} (several : '\n' ∈ inner)
    (visible : shownLines inner ≠ []) :
    IsShaped inner (dedent inner) ∧
      ((∃ text c, c ≠ '\n' ∧ dedent inner = text ++ [c, '\n']) ↔ blankBelow inner ≤ 1) := by
  obtain ⟨text, c, hc, hends⟩ := exists_dedent_eq several visible
  have hindent := (isPrefix_indent_iff visible).1 (List.prefix_refl (indent inner))
  refine ⟨⟨fun line hline ↦ ?_, fun w hw hbegins ↦ ?_,
    ⟨indent inner, hindent.1, hindent.2, shownLines_dedent several visible⟩,
    ⟨text, c, hc, hends⟩⟩, ?_⟩
  · rw [splitOn_dedent several visible, List.mem_append, List.mem_singleton] at hline
    rcases hline with hline | rfl
    · obtain ⟨l, -, rfl⟩ := List.mem_map.1 hline
      rw [dedentLine]
      split
      · simp
      · exact fun c ↦ getLast?_trimEnd
    · simp
  · -- With a shared indentation in it, the indentation of the inside would be longer than it is.
    have hlonger : indent inner ++ w <+: indent inner := by
      refine (isPrefix_indent_iff visible).2 ⟨fun c hc ↦ ?_, fun line hline ↦ ?_⟩
      · exact (List.mem_append.1 hc).elim (hindent.1 c) (hw c)
      · obtain ⟨rest, hrest, -, -⟩ := exists_of_mem_shownLines hline
        have hmem : trimEnd rest ∈ shownLines (dedent inner) := by
          rw [shownLines_dedent several visible]
          exact List.mem_map.2 ⟨line, hline, by rw [hrest, List.drop_left]⟩
        rw [hrest]
        exact List.prefix_append_right_inj _ |>.2
          ((hbegins _ hmem).trans (trimEnd_isPrefix rest))
    have hlength := hlonger.length_le
    rw [List.length_append] at hlength
    exact List.length_eq_zero_iff.1 (by omega)
  · have hnewline : c ≠ '\n' := by
      rintro rfl
      exact absurd hc (by decide)
    have hcount : max 1 (blankBelow inner) = blankBelow inner - 1 + 1 := by omega
    rw [hends, hcount, exists_eq_append_newline_iff hnewline]
    omega

/-- Three blank lines stand below the last visible one, and two of them keep their newlines. -/
theorem Body.isShaped_dedent_of_blankLines :
    IsShaped "\n\t a \n\t\n\t  b\n\n \n".toList (dedent "\n\t a \n\t\n\t  b\n\n \n".toList) ∧
      ¬ ∃ text c, c ≠ '\n' ∧
        dedent "\n\t a \n\t\n\t  b\n\n \n".toList = text ++ [c, '\n'] := by
  obtain ⟨hshaped, hone⟩ :=
    @isShaped_dedent "\n\t a \n\t\n\t  b\n\n \n".toList (by decide) (by decide)
  exact ⟨hshaped, fun h ↦ absurd (hone.1 h) (by decide)⟩

example : Body.dedent "\n\t a \n\t\n\t  b\n\n \n".toList = "a\n\n b\n\n\n".toList := by decide

end ShellCatalog
