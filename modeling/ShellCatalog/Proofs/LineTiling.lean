import ShellCatalog.Proofs.JoinedLines

/-!
# Logical lines tile a file

The logical lines that a stream answers are the physical lines of its text, some of them taken
together and the blank ones between them left out. Nothing visible is lost, nothing is read twice,
and what is said about the end of the text is said by the last line.

**A line is where it says it is** (`physicalLines_of_place`): a logical line ends in front of a
newline or at the end of the text, and begins behind one or at the start, so its text is made of
whole physical lines, and they are counted by the newlines in front.

**Every visible character is on a line** (`exists_line_of_mark`): it does not end a line itself, so
it belongs to one of the runs that are cut out of the text, and a run that holds it is not blank.

**A blank text opens nothing**, so what is left behind the last end of a line is a line only if it
is visible, whatever the end of the text leaves open (`visible_of_mem_logicalLines`).
-/

namespace ShellCatalog

/-! ### Physical lines -/

/-- The physical lines of a text from `first` to `last`, counted from 1. -/
def physicalLines (text : List Char) (first last : Nat) : List (List Char) :=
  ((splitOn '\n' text).drop (first - 1)).take (last + 1 - first)

/-- The lines of a part of a text that begins behind a newline and ends in front of one. -/
theorem physicalLines_of_place {front middle behind : List Char}
    (front_ends : ∀ c ∈ front.getLast?, c = '\n') (behind_ends : ∀ c ∈ behind.head?, c = '\n') :
    physicalLines (front ++ middle ++ behind) (lineAfter 1 front)
      (lineAfter (lineAfter 1 front) middle) = splitOn '\n' middle := by
  obtain ⟨parts, hlength, -, hparts⟩ := exists_splitOn_append front_ends
  have htake : (splitOn '\n' (middle ++ behind)).take (middle.count '\n' + 1) =
      splitOn '\n' middle := by
    have hmiddle := length_splitOn '\n' middle
    cases behind with
    | nil => rw [List.append_nil, ← hmiddle, List.take_length]
    | cons c behind =>
      obtain rfl := behind_ends c rfl
      rw [splitOn_append, ← hmiddle, List.take_left]
  have hfirst : lineAfter 1 front - 1 = front.count '\n' := Nat.add_sub_cancel_left ..
  have hcount : lineAfter (lineAfter 1 front) middle + 1 - lineAfter 1 front =
      middle.count '\n' + 1 := by
    simp only [lineAfter]
    omega
  rw [physicalLines, hfirst, hcount, List.append_assoc, hparts, List.drop_left' hlength, htake]

/-- A logical line is made of the physical lines from its first to its last. -/
theorem LogicalLine.StandsAt.text_eq_physicalLines {p : Profile} {text : List Char}
    {l : LogicalLine} {front run behind : List Mark} (h : l.StandsAt p text front run behind) :
    0 < l.line ∧ l.lastLine ≤ (splitOn '\n' text).length ∧
      l.text = ['\n'].intercalate (physicalLines text l.line l.lastLine) := by
  have htext := h.append_eq
  have hfront := eq_newline_of_endsLine h.front_ends
  have hbehind := h.eq_newline_of_behind
  have hlast : l.lastLine = lineAfter (lineAfter 1 (Mark.text front)) l.text := by
    rw [lastLine, h.line_eq]
  refine ⟨?_, ?_, ?_⟩
  · rw [h.line_eq, lineAfter]
    omega
  · rw [hlast, length_splitOn, htext, List.count_append, List.count_append, lineAfter, lineAfter]
    omega
  · rw [hlast, h.line_eq, htext, physicalLines_of_place hfront hbehind, intercalate_splitOn]

/-- When the text is read from its start, the state in front of a logical line is on the first line
of it, and the state behind it on the last. -/
theorem LogicalLine.StandsAt.exists_states {p : Profile} {text : List Char} {l : LogicalLine}
    {front run behind : List Mark} (h : l.StandsAt p text front run behind) :
    ∃ before rest, text = before ++ (l.text ++ rest) ∧ (∀ c ∈ rest.head?, c = '\n') ∧
      ((Nesting.start 1).afterText p before (l.text ++ rest)).line = l.line ∧
      ((Nesting.start 1).afterText p (before ++ l.text) rest).line = l.lastLine := by
  refine ⟨Mark.text front, Mark.text behind, ?_, h.eq_newline_of_behind, ?_, ?_⟩
  · rw [h.append_eq, List.append_assoc]
  · rw [Nesting.line_afterText, h.line_eq]
    rfl
  · rw [Nesting.line_afterText, lineAfter_append, lastLine, h.line_eq]
    rfl

/-! ### Where a mark stands -/

/-- A character of a text has a mark, on the line that is counted in front of it. -/
theorem exists_mark_of_char (p : Profile) (front behind : List Char) (c : Char) :
    ∃ m ∈ marks p (front ++ c :: behind), m.char = c ∧ m.line = lineAfter 1 front := by
  rw [marks, marksFrom_append, Nesting.afterMarks_marksAhead, marksFrom_cons]
  refine ⟨_, List.mem_append_right _ List.mem_cons_self, rfl, ?_⟩
  exact Nesting.line_afterText ..

/-- Every visible character of a text is on a logical line. -/
theorem exists_line_of_mark {p : Profile} {text : List Char} {m : Mark} (hm : m ∈ marks p text)
    (visible : isSpace m.char = false) :
    ∃ l ∈ logicalLines p text, l.line ≤ m.line ∧ m.line ≤ l.lastLine := by
  have hinside : m.endsLine = false := by
    by_contra hends
    rw [Bool.not_eq_false, Mark.endsLine_iff] at hends
    rw [hends.1] at visible
    exact absurd visible (by decide)
  obtain ⟨run, hrun, hmem⟩ := exists_mem_pieces hm hinside
  have hshown : isBlank (Mark.text run) = false := by
    by_contra hblank
    rw [Bool.not_eq_false, isBlank_iff] at hblank
    exact absurd (hblank m.char (List.mem_map_of_mem hmem)) (by simp [visible])
  -- The run is read from the line on which it begins, and all its marks are on lines of its text.
  have hplace (leftOpen : Option OpenConstruct) :
      (LogicalLine.ofMarks 1 leftOpen run).line ≤ m.line ∧
        m.line ≤ (LogicalLine.ofMarks 1 leftOpen run).lastLine := by
    obtain ⟨before, after, hpieces⟩ := List.append_of_mem hrun
    obtain ⟨front, behind, hmarks, hfront, -⟩ := exists_of_pieces_endsLine hpieces
    obtain ⟨s, offset, -, -, -, hread, -⟩ := exists_start_of_marks hmarks hfront
    have hfull : Mark.text run ≠ [] := fun hnil ↦ absurd (hnil ▸ hshown) (by decide)
    rw [hread] at hmem
    rw [hread, LogicalLine.ofMarks_marksAhead 1 leftOpen _ _ hfull]
    exact Nesting.line_of_mem_marksAhead hmem
  have hne := pieces_ne_nil (fun m _ ↦ m.endsLine) (marks p text)
  rw [← List.dropLast_append_getLast hne, List.mem_append, List.mem_singleton] at hrun
  rcases hrun with hrun | rfl
  · refine ⟨_, List.mem_append_left _ (List.mem_map_of_mem ?_), hplace none⟩
    exact List.mem_filter.2 ⟨hrun, by rw [hshown, Bool.not_false]⟩
  · refine ⟨_, List.mem_append_right _ (List.mem_map_of_mem ?_), hplace _⟩
    refine List.mem_filter.2 ⟨?_, by rw [hshown, Bool.not_false, Bool.true_or]⟩
    rw [List.getLast?_eq_some_getLast hne, Option.toList_some]
    exact List.mem_singleton_self _

/-- A physical line that is on no logical line is blank. -/
theorem isBlank_of_not_covered {p : Profile} {text part : List Char} {i : Nat}
    (hpart : (splitOn '\n' text)[i]? = some part)
    (h : ∀ l ∈ logicalLines p text, ¬ (l.line ≤ i + 1 ∧ i + 1 ≤ l.lastLine)) :
    isBlank part = true := by
  by_contra hvisible
  rw [Bool.not_eq_true, isBlank, List.all_eq_false] at hvisible
  obtain ⟨c, hc, hshown⟩ := hvisible
  obtain ⟨front, behind, rfl, hcount⟩ := exists_of_mem_getElem?_splitOn hpart hc
  obtain ⟨m, hm, rfl, hline⟩ := exists_mark_of_char p front behind c
  obtain ⟨l, hl, hplace⟩ := exists_line_of_mark hm (by simpa using hshown)
  rw [hline, lineAfter, hcount, Nat.add_comm] at hplace
  exact h l hl hplace

/-! ### The last line -/

/-- Only what follows the last end of a line can be left open, and what the end of the text leaves
open is left open there. -/
theorem exists_logicalLines_eq (p : Profile) (text : List Char) :
    ∃ complete rest, logicalLines p text = complete ++ rest ∧
      (∀ l ∈ complete, l.leftOpen = none) ∧ rest.length ≤ 1 ∧
      (∀ l ∈ rest, l.leftOpen = ((Nesting.start 1).afterText p text []).outermostOpen?) ∧
      (rest = [] → ((Nesting.start 1).afterText p text []).outermostOpen? = none) := by
  have hne := pieces_ne_nil (fun m _ ↦ m.endsLine) (marks p text)
  refine ⟨_, _, rfl, fun l hl ↦ ?_, ?_, fun l hl ↦ ?_, fun hnil ↦ ?_⟩
  · obtain ⟨run, -, rfl⟩ := List.mem_map.1 hl
    rfl
  · rw [List.length_map, List.getLast?_eq_some_getLast hne]
    exact List.length_filter_le ..
  · obtain ⟨run, -, rfl⟩ := List.mem_map.1 hl
    exact outermostOpen?_afterMarks p text
  · rw [List.map_eq_nil_iff, List.filter_eq_nil_iff, List.getLast?_eq_some_getLast hne] at hnil
    have hrest := hnil _ (List.mem_singleton_self _)
    rw [Bool.not_eq_true, Bool.or_eq_false_iff, Option.isSome_eq_false_iff,
      Option.isNone_iff_eq_none, outermostOpen?_afterMarks] at hrest
    exact hrest.2

/-- The lines of a text that leaves nothing open are complete. -/
theorem complete_of_outermostOpen? {p : Profile} {text : List Char}
    (h : ((Nesting.start 1).afterText p text []).outermostOpen? = none) :
    ∀ l ∈ logicalLines p text, l.leftOpen = none := by
  obtain ⟨complete, rest, hlines, hcomplete, -, hrest, -⟩ := exists_logicalLines_eq p text
  intro l hl
  rw [hlines] at hl
  rcases List.mem_append.1 hl with hl | hl
  · exact hcomplete l hl
  · exact (hrest l hl).trans h

/-- What a line leaves open is what the end of the text does if no line follows, and nothing
otherwise. -/
theorem leftOpen_getElem? {p : Profile} {text : List Char} {n : Nat} {l : LogicalLine}
    (h : (logicalLines p text)[n]? = some l) :
    l.leftOpen = if (logicalLines p text)[n + 1]?.isSome then none
      else ((Nesting.start 1).afterText p text []).outermostOpen? := by
  obtain ⟨complete, rest, hlines, hcomplete, hone, hrest, hclosed⟩ := exists_logicalLines_eq p text
  have hn := (List.getElem?_eq_some_iff.1 h).1
  rw [hlines, List.length_append] at hn
  rw [hlines] at h ⊢
  rcases Nat.lt_or_ge n complete.length with hfirst | hlast
  · rw [List.getElem?_append_left hfirst] at h
    rw [hcomplete l (List.mem_of_getElem? h)]
    split
    · rfl
    · next hnone =>
      -- No line follows the last complete one, so nothing is left open.
      rw [Bool.not_eq_true, Option.isSome_eq_false_iff, Option.isNone_iff_eq_none,
        List.getElem?_eq_none_iff, List.length_append] at hnone
      exact (hclosed (List.length_eq_zero_iff.1 (by omega))).symm
  · have hnone : (complete ++ rest)[n + 1]? = none := by
      rw [List.getElem?_eq_none_iff, List.length_append]
      omega
    rw [List.getElem?_append_right hlast] at h
    rw [hnone, Option.isSome_none, if_neg Bool.false_ne_true]
    exact hrest l (List.mem_of_getElem? h)

/-- Behind a line that is left open, and behind the last line, there is no line. -/
theorem getElem?_eq_none_of_isOpen {p : Profile} {text : List Char} {m n : Nat} (hmn : m < n)
    (h : ∀ l ∈ (logicalLines p text)[m]?, l.isOpen = true) : (logicalLines p text)[n]? = none := by
  by_contra hfurther
  have hn : n < (logicalLines p text).length := by
    by_contra hn
    exact hfurther (List.getElem?_eq_none (Nat.le_of_not_lt hn))
  have hm := List.getElem?_eq_getElem (Nat.lt_trans hmn hn)
  have hopen := h _ hm
  rw [LogicalLine.isOpen, leftOpen_getElem? hm,
    List.getElem?_eq_getElem (Nat.lt_of_le_of_lt hmn hn), Option.isSome_some, if_pos rfl] at hopen
  exact absurd hopen (by decide)

/-- A logical line is never blank. -/
theorem visible_of_mem_logicalLines {d : Dialect} {text : List Char} {l : LogicalLine}
    (h : l ∈ logicalLines d.profile text) : isBlank l.text = false := by
  by_contra hblank
  rw [Bool.not_eq_false] at hblank
  simp only [logicalLines, List.mem_append, List.mem_map, List.mem_filter, Option.mem_toList] at h
  rcases h with ⟨run, ⟨-, hvisible⟩, rfl⟩ | ⟨run, ⟨hrun, hcounts⟩, rfl⟩
  · rw [show isBlank (Mark.text run) = true from hblank] at hvisible
    exact absurd hvisible (by decide)
  · have hempty : isBlank (Mark.text run) = true := hblank
    rw [hempty, Bool.not_true, Bool.false_or, outermostOpen?_afterMarks] at hcounts
    obtain ⟨before, hpieces⟩ := List.getLast?_eq_some_iff.1 hrun
    obtain ⟨front, behind, hmarks, hfront, -, hnil⟩ := exists_of_pieces_endsLine hpieces
    obtain rfl := hnil.2 rfl
    obtain ⟨s, offset, hs, -, -, -, -, hafter⟩ := exists_start_of_marks hmarks hfront
    -- In front of the blank rest nothing is open, and blanks open nothing.
    have hclosed : ((Nesting.start 1).afterText d.profile text []).outermostOpen? = none := by
      rw [hafter, show Mark.text [] = [] from rfl, Nesting.afterText_nil]
      exact Nesting.outermostOpen?_of_isBalanced
        (Nesting.isBalanced_afterText_blank hs.balanced hempty)
    rw [hclosed] at hcounts
    exact absurd hcounts (by decide)

/-! ### Streams -/

namespace LineStream

/-- The stream behind `n` further lines. -/
def skip (r : LineStream) : Nat → LineStream
  | 0 => r
  | n + 1 => (r.skip n).next.2

/-- What a stream answers when `n` lines have been asked for before. -/
def answer? (r : LineStream) (n : Nat) : Option LogicalLine :=
  (r.skip n).next.1

theorem remaining_skip (r : LineStream) (n : Nat) :
    (r.skip n).remaining = r.remaining.drop n := by
  induction n with
  | zero => rfl
  | succ n ih => rw [skip, next, ih, List.tail_drop]

/-- A stream answers one line after the other. -/
theorem answer?_ofText (p : Profile) (text : List Char) (n : Nat) :
    (ofText p text).answer? n = (logicalLines p text)[n]? := by
  rw [answer?, next, remaining_skip, List.head?_drop]
  rfl

/-- The lines of a stream tile its text. -/
structure Tiles (r : LineStream) : Prop where
  /-- A line is made of the physical lines from its first to its last. -/
  joined : ∀ n l, r.answer? n = some l →
    0 < l.line ∧ l.lastLine ≤ (splitOn '\n' r.text).length ∧
      l.text = ['\n'].intercalate (physicalLines r.text l.line l.lastLine)
  /-- The text is on the first physical line of a line when it has been read up to there, and on the
  last when it has been read to the end of the line. The newlines of the line lead from one to the
  other. -/
  counted : ∀ n l, r.answer? n = some l →
    l.lastLine = l.line + l.text.count '\n' ∧
      ∃ front behind, r.text = front ++ (l.text ++ behind) ∧ (∀ c ∈ behind.head?, c = '\n') ∧
        ((Nesting.start 1).afterText r.profile front (l.text ++ behind)).line = l.line ∧
        ((Nesting.start 1).afterText r.profile (front ++ l.text) behind).line = l.lastLine
  visible : ∀ n l, r.answer? n = some l → isBlank l.text = false
  /-- A line begins below the ends of those before it. -/
  downwards : ∀ m n k l, m < n → r.answer? m = some k → r.answer? n = some l →
    k.lastLine < l.line
  /-- A physical line that is on no line is blank. -/
  covered : ∀ i part, (splitOn '\n' r.text)[i]? = some part →
    (∀ n l, r.answer? n = some l → ¬ (l.line ≤ i + 1 ∧ i + 1 ≤ l.lastLine)) → isBlank part = true
  /-- Only the last line is left open, by what the end of the text leaves open. -/
  leftOpen : ∀ n l, r.answer? n = some l →
    l.leftOpen = if (r.answer? (n + 1)).isSome then none
      else ((Nesting.start 1).afterText r.profile r.text []).outermostOpen?
  /-- What the end of the text leaves open is reported. -/
  reported : ((Nesting.start 1).afterText r.profile r.text []).outermostOpen? ≠ none →
    ∃ n l, r.answer? n = some l ∧ l.isOpen = true
  /-- Behind a line that is left open, and behind the last line, nothing is answered any more. -/
  ended : ∀ m n, m < n → (∀ l ∈ r.answer? m, l.isOpen = true) → r.answer? n = none
  finite : ∃ n, r.answer? n = none

end LineStream

/-- The logical lines of a text tile it. -/
theorem tiles_ofText (d : Dialect) (text : List Char) :
    (LineStream.ofText d.profile text).Tiles := by
  set ls := logicalLines d.profile text with hls
  have hanswer : ∀ n, (LineStream.ofText d.profile text).answer? n = ls[n]? :=
    LineStream.answer?_ofText d.profile text
  have hmem {n : Nat} {l : LogicalLine}
      (h : (LineStream.ofText d.profile text).answer? n = some l) : l ∈ ls :=
    List.mem_of_getElem? ((hanswer n).symm.trans h)
  refine ⟨fun n l h ↦ ?_, fun n l h ↦ ⟨rfl, ?_⟩, fun n l h ↦ visible_of_mem_logicalLines (hmem h),
    fun m n k l hmn hk hl ↦ ?_, fun i part hpart hnone ↦ ?_, fun n l h ↦ ?_, fun hreport ↦ ?_,
    fun m n hmn hlast ↦ ?_, ⟨ls.length, ?_⟩⟩
  · obtain ⟨front, run, behind, hstands⟩ := exists_standsAt (hmem h)
    exact hstands.text_eq_physicalLines
  · obtain ⟨front, run, behind, hstands⟩ := exists_standsAt (hmem h)
    exact hstands.exists_states
  · rw [hanswer] at hk hl
    obtain ⟨hm, rfl⟩ := List.getElem?_eq_some_iff.1 hk
    obtain ⟨hn, rfl⟩ := List.getElem?_eq_some_iff.1 hl
    exact List.pairwise_iff_getElem.1 (pairwise_logicalLines d.profile text) m n hm hn hmn
  · refine isBlank_of_not_covered (p := d.profile) hpart fun l hl ↦ ?_
    obtain ⟨n, hn⟩ := List.mem_iff_getElem?.1 hl
    exact hnone n l ((hanswer n).trans hn)
  · rw [hanswer] at h ⊢
    exact leftOpen_getElem? h
  · obtain ⟨complete, rest, hlines, -, -, hrest, hclosed⟩ := exists_logicalLines_eq d.profile text
    obtain ⟨l, hl⟩ := List.exists_mem_of_ne_nil rest fun hnil ↦ hreport (hclosed hnil)
    obtain ⟨n, hn⟩ := List.mem_iff_getElem?.1 (hls ▸ hlines ▸ List.mem_append_right complete hl)
    refine ⟨n, l, (hanswer n).trans hn, ?_⟩
    rw [LogicalLine.isOpen, hrest l hl]
    exact Option.isSome_iff_ne_none.2 hreport
  · rw [hanswer] at hlast ⊢
    exact getElem?_eq_none_of_isOpen hmn hlast
  · rw [hanswer, List.getElem?_eq_none_iff]

-- The blank line is passed over, and the open quote takes the rest of the text.
example : (LineStream.ofText Dialect.bash.profile "a\n\n'b\n".toList).answer? 1 =
    some ⟨"'b\n".toList, 3, some ⟨.singleQuote, 3⟩⟩ := by decide +kernel

end ShellCatalog
