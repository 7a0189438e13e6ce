import ShellCatalog.Proofs.LineTiling

/-!
# A file that ends inside a construct

The last logical line of a file may be cut short by the end of the file. What stands in front of it
is a file of its own, and the whole file defines what that file defines. One report is added, and it
names the construct that is left open.

**What stands in front is read as if nothing followed** (`logicalLines_eq_concat`): it goes as far
as the end of a line, and text of this kind does not look at what is behind it. A header that
dangles at its end is not joined, since a line that is cut short is never taken for a body.

**Complete lines report bad names only** (`Extraction.isUnterminated_ofText`), so the report is the
only one of its kind.
-/

namespace ShellCatalog

/-- The finding is about the end of a file inside a construct. -/
def Diagnostic.isUnterminated : Diagnostic → Bool
  | .unterminated _ _ => true
  | _ => false

/-! ### Reports on complete lines -/

theorem isUnterminated_define {p : Profile} {file : Path} {line : Nat} {kind : Kind}
    {name body : List Char} :
    ∀ c ∈ (define p file line kind name body).diagnostics, c.isUnterminated = false := by
  intro c hc
  rw [define] at hc
  split at hc
  · simp at hc
  · rw [List.mem_singleton.1 hc]
    rfl

namespace Extraction

variable {p : Profile} {file : Path}

theorem isUnterminated_ofCommand {s : Statement} {isLast : Bool} :
    ∀ c ∈ (ofCommand p file s isLast).diagnostics, c.isUnterminated = false := by
  intro c hc
  rw [ofCommand] at hc
  split at hc
  · rw [diagnostics_concat, List.mem_flatMap] at hc
    obtain ⟨e, he, hc⟩ := hc
    obtain ⟨a, -, rfl⟩ := List.mem_map.1 he
    exact isUnterminated_define c hc
  · split at hc
    · rw [ofFunction] at hc
      split at hc
      · exact isUnterminated_define c hc
      · simp at hc
      · simp [empty] at hc
    · simp [empty] at hc

/-- A text reports bad names only, however deep its groups are. -/
theorem isUnterminated_ofText {text : List Char} {line : Nat} :
    ∀ c ∈ (ofText p file text line).diagnostics, c.isUnterminated = false := by
  induction hlength : text.length using Nat.strong_induction_on generalizing text line with
  | _ length ih =>
    intro c hc
    rw [ofText_eq, diagnostics_concat, List.mem_flatMap] at hc
    obtain ⟨e, he, hc⟩ := hc
    obtain ⟨s, hs, rfl⟩ := List.mem_map.1 he
    rw [ofStatement] at hc
    split at hc
    · next inner hgroup => exact ih _ (hlength ▸ length_lt_of_group hs hgroup) rfl c hc
    · exact isUnterminated_ofCommand c hc

end Extraction

/-- Complete lines stay complete behind a header, and report bad names only. -/
theorem Findings.isUnterminated_ofLines {p : Profile} {file : Path}
    {dangling : Option LogicalLine} {ls : List LogicalLine}
    (complete : ∀ l ∈ ls, l.leftOpen = none) :
    ∀ c ∈ (ofLines p file dangling ls).diagnostics, c.isUnterminated = false := by
  induction ls generalizing dangling with
  | nil => simp [ofLines]
  | cons l ls ih =>
    intro c hc
    rcases List.mem_append.1 hc with hc | hc
    · have hbehind : (l.behind p dangling).leftOpen = none := by
        rcases l.behind_cases p dangling with h | ⟨_, -, -, -, h⟩ <;> rw [h]
        exact complete l List.mem_cons_self
      rw [Extraction.ofLine, hbehind] at hc
      exact Extraction.isUnterminated_ofText c hc
    · exact ih (fun k hk ↦ complete k (List.mem_cons_of_mem _ hk)) c hc

/-! ### What stands in front of the last line -/

/-- A run of marks in which no line ends is one line, or none. -/
theorem linesOfMarks_of_forall {line : Nat} {s : Nesting} {run : List Mark}
    (h : ∀ m ∈ run, m.endsLine = false) :
    linesOfMarks line s run =
      if !isBlank (Mark.text run) || (s.afterMarks run).outermostOpen?.isSome then
        [.ofMarks line (s.afterMarks run).outermostOpen? run]
      else [] := by
  rw [linesOfMarks, pieces_of_forall fun m hm _ ↦ h m hm]
  simp only [List.dropLast_singleton, List.filter_nil, List.map_nil, List.nil_append,
    List.getLast?_singleton, Option.toList_some, List.filter_singleton, cond_eq_ite]
  split <;> rfl

/-- In front of a line that is left open stands a text that goes as far as the end of a line, or
nothing, and its lines are the lines in front. -/
theorem logicalLines_eq_concat {p : Profile} {text : List Char} {l : LogicalLine}
    (last : (logicalLines p text).getLast? = some l) (isOpen : l.leftOpen ≠ none) :
    ∃ start, text = start ++ l.text ∧ l.line = lineAfter 1 start ∧
      (∀ m ∈ (marks p start).getLast?, m.endsLine = true) ∧
      logicalLines p text = logicalLines p start ++ [l] := by
  have hne := pieces_ne_nil (fun m _ ↦ m.endsLine) (marks p text)
  have hsplit := List.dropLast_append_getLast hne
  set run := (pieces (fun m _ ↦ m.endsLine) (marks p text)).getLast hne with hrun
  obtain ⟨front, behind, hmarks, hfront, -, hnil⟩ := exists_of_pieces_endsLine hsplit.symm
  obtain rfl := hnil.2 rfl
  rw [List.append_nil] at hmarks
  have hinside : ∀ m ∈ run, m.endsLine = false :=
    fun m hm ↦ eq_false_of_mem_piece (List.getLast_mem hne) hm
  obtain ⟨htext, -⟩ := marksFrom_eq_append hmarks
  have hown : front = marks p (Mark.text front) := eq_marks_of_ends hmarks hfront
  have hlines : logicalLines p text = logicalLines p (Mark.text front) ++
      linesOfMarks 1 ((Nesting.start 1).afterMarks front) run := by
    rw [logicalLines_eq_linesOfMarks, hmarks,
      linesOfMarks_append run (Nesting.isBalanced_start 1) hfront, logicalLines_eq_linesOfMarks,
      ← hown]
  have hclosed : ((Nesting.start 1).afterText p (Mark.text front) []).outermostOpen? = none := by
    rw [← afterMarks_marks, ← hown]
    exact Nesting.outermostOpen?_of_isBalanced
      (Nesting.isBalanced_afterMarks (Nesting.isBalanced_start 1) hfront)
  rw [linesOfMarks_of_forall hinside] at hlines
  split at hlines
  · next hcounts =>
    rw [hlines, List.getLast?_concat] at last
    obtain rfl := Option.some_inj.1 last
    have hfull : run ≠ [] := by
      refine ne_nil_of_counts (Nesting.isBalanced_start 1) (List.getLast?_eq_some_getLast hne) ?_
      rwa [hmarks, Nesting.afterMarks_append]
    have hplace : marks p text = front ++ run ++ [] := by rw [List.append_nil, hmarks]
    exact ⟨Mark.text front, htext, line_ofMarks hplace hfront hfull, hown ▸ hfront, hlines⟩
  · -- Without a line of its own the rest leaves nothing open, and neither does any other line.
    rw [hlines, List.append_nil] at last
    exact absurd (complete_of_outermostOpen? hclosed l (List.mem_of_getLast? last)) isOpen

/-- A file whose last line is left open defines what stands in front of this line, and reports what
that reports and then the construct that is left open. A file without such a line reports no
construct. -/
theorem findings_truncated (d : Dialect) (path : Path) (text : List Char) :
    ∃ f, (⟨path, text⟩ : Source).findings (some d) = .ok f ∧
      ((∀ l ∈ logicalLines d.profile text, l.leftOpen = none) →
        ∀ c ∈ f.diagnostics, c.isUnterminated = false) ∧
      ∀ l t, (logicalLines d.profile text).getLast? = some l → l.leftOpen = some t →
        ∃ start g, text = start ++ l.text ∧ l.line = lineAfter 1 start ∧
          (⟨path, start⟩ : Source).findings (some d) = .ok g ∧
          f = ⟨g.definitions, g.diagnostics ++ [.unterminated path t]⟩ ∧
          ∀ c ∈ g.diagnostics, c.isUnterminated = false := by
  refine ⟨_, rfl, Findings.isUnterminated_ofLines, fun l t last isOpen ↦ ?_⟩
  obtain ⟨start, htext, hline, cut, hlines⟩ := logicalLines_eq_concat last (by simp [isOpen])
  refine ⟨start, _, htext, hline, rfl, ?_, ?_⟩
  · show Findings.ofLines d.profile path none (logicalLines d.profile text) = _
    rw [hlines, Findings.ofLines_append]
    simp only [Findings.ofLines, LogicalLine.behind_of_leftOpen d.profile _ isOpen,
      Extraction.ofLine, isOpen, Findings.append, List.append_nil]
    rfl
  · have hclosed : ((Nesting.start 1).afterText d.profile start []).outermostOpen? = none :=
      Nesting.outermostOpen?_of_isBalanced (atWord_of_cut cut).balanced
    exact Findings.isUnterminated_ofLines (complete_of_outermostOpen? hclosed)

/-- A header that dangles in front of the line that is left open stays without a body. -/
theorem findings_truncated_of_danglingHeader :
    (⟨⟨"rc"⟩, "alias a=1\nf()\n\n\x7b alias b='x\n".toList⟩ : Source).findings (some .bash) =
      .ok ⟨[⟨"a", .alias, "1", ⟨"rc"⟩, 1⟩], [.unterminated ⟨"rc"⟩ ⟨.brace, 4⟩]⟩ := by
  have hlast : (logicalLines Dialect.bash.profile
      "alias a=1\nf()\n\n\x7b alias b='x\n".toList).getLast? =
        some ⟨"\x7b alias b='x\n".toList, 4, some ⟨.brace, 4⟩⟩ := by decide +kernel
  obtain ⟨f, hf, -, htruncated⟩ :=
    findings_truncated .bash ⟨"rc"⟩ "alias a=1\nf()\n\n\x7b alias b='x\n".toList
  obtain ⟨start, g, htext, -, hg, rfl, -⟩ := htruncated _ _ hlast rfl
  have hstart : start = "alias a=1\nf()\n\n".toList := by
    refine List.append_cancel_right (htext.symm.trans ?_)
    decide
  have hfirst : (⟨⟨"rc"⟩, "alias a=1\nf()\n\n".toList⟩ : Source).findings (some .bash) =
      .ok ⟨[⟨"a", .alias, "1", ⟨"rc"⟩, 1⟩], []⟩ := by decide +kernel
  rw [hstart, hfirst] at hg
  cases hg
  exact hf

end ShellCatalog
