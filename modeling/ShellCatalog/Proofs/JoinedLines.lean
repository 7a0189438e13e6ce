import ShellCatalog.Proofs.NestedCommands

/-!
# Lines behind a joined header

A logical line that opens a body is joined to the header that dangles in front of it, by one blank.
Whatever stood between the two is gone, and with it at least one newline. The joined text is read
from the line of the header on, so every statement behind the header is reported above the place
where it stands: by the newlines that are gone, and by nothing else.

The missing lines add up when the header was joined itself. What carries the count through a file is
that a dangling header ends on a line that has been read (`lastLine_danglingAfter_lt`), while the
logical lines of a text follow each other downwards (`pairwise_logicalLines`).
-/

namespace ShellCatalog

/-! ### Where a dangling header ends -/

/-- The inside of a brace group is a part of the group. -/
theorem sublist_of_braceGroup? {p : Profile} {statement inner : List Char}
    (h : braceGroup? p statement = some inner) : inner.Sublist statement := by
  obtain ⟨closing, rest, rfl, -⟩ := exists_of_braceGroup? h
  exact (List.sublist_append_left inner _).cons '{'

namespace Extraction

variable {p : Profile} {file : Path}

theorem dangling_concat_eq_none_iff {es : List Extraction} :
    (concat es).dangling = none ↔ ∀ e ∈ es, e.dangling = none := by
  induction es with
  | nil => simp [concat, empty]
  | cons e es ih =>
    have hcons : (concat (e :: es)).dangling = (concat es).dangling.or e.dangling := rfl
    rw [hcons, Option.or_eq_none_iff, ih, List.forall_mem_cons, and_comm]

/-- The header that dangles behind a sequence of texts is that of the last text which leaves one. -/
theorem dangling_concat_eq_some_iff {es : List Extraction} {h : LogicalLine} :
    (concat es).dangling = some h ↔ ∃ front e behind, es = front ++ e :: behind ∧
      e.dangling = some h ∧ ∀ e ∈ behind, e.dangling = none := by
  constructor
  · intro hh
    induction es with
    | nil => simp [concat, empty] at hh
    | cons e es ih =>
      rcases Option.or_eq_some_iff.1 hh with hh | ⟨hnone, hh⟩
      · obtain ⟨front, f, behind, rfl, hf, hbehind⟩ := ih hh
        exact ⟨e :: front, f, behind, rfl, hf, hbehind⟩
      · refine ⟨[], e, es, rfl, hh, ?_⟩
        rwa [← dangling_concat_eq_none_iff]
  · rintro ⟨front, e, behind, rfl, he, hbehind⟩
    have hcons : concat (e :: behind) = e.append (concat behind) := rfl
    rw [concat_append, hcons]
    simp [append, dangling_concat_eq_none_iff.2 hbehind, he]

theorem exists_of_mem_dangling_concat {es : List Extraction} {h : LogicalLine}
    (hh : h ∈ (concat es).dangling) : ∃ e ∈ es, h ∈ e.dangling := by
  obtain ⟨front, e, behind, rfl, he, -⟩ := dangling_concat_eq_some_iff.1 hh
  exact ⟨e, by simp, he⟩

/-- A header dangles as the whole of its command, and only if no statement follows. -/
theorem of_dangling_ofCommand {s : Statement} {isLast : Bool} {h : LogicalLine}
    (hh : (ofCommand p file s isLast).dangling = some h) :
    isLast = true ∧ h = ⟨s.text, s.line, none⟩ ∧ ∃ header, p.header? s.text = some header := by
  rcases ofCommand_cases p file s isLast with ⟨proposed, heq⟩ | ⟨hlast, heq, hheader⟩
  · rw [heq] at hh
    obtain ⟨e, he, hh⟩ := exists_of_mem_dangling_concat hh
    obtain ⟨a, -, rfl⟩ := List.mem_map.1 he
    rcases define_cases p file s.line a.1 a.2.1 a.2.2 with h | h <;> simp [h] at hh
  · rw [heq] at hh
    exact ⟨hlast, (Option.some_inj.1 hh).symm, hheader⟩

/-- A dangling header ends within its text. -/
theorem lastLine_of_dangling_ofText {text : List Char} {line : Nat} {h : LogicalLine}
    (hh : h ∈ (ofText p file text line).dangling) : h.lastLine ≤ lineAfter line text := by
  rw [ofText_eq_commands] at hh
  obtain ⟨e, he, hh⟩ := exists_of_mem_dangling_concat hh
  obtain ⟨c, hc, rfl⟩ := List.mem_map.1 he
  obtain ⟨front, behind, hstands, -⟩ := exists_of_mem_commands hc
  obtain ⟨-, rfl, -⟩ := of_dangling_ofCommand hh
  rw [LogicalLine.lastLine, hstands.line_eq, ← lineAfter_append, hstands.text_eq]
  exact lineAfter_mono (List.sublist_append_left _ _)

theorem lastLine_of_dangling_ofLine {l h : LogicalLine}
    (hh : h ∈ (ofLine p file l).dangling) : h.lastLine ≤ l.lastLine := by
  rcases ofLine_cases p file l with heq | ⟨t, -, heq⟩ <;> rw [heq] at hh
  · exact lastLine_of_dangling_ofText hh
  · simp at hh

end Extraction

/-! ### Logical lines follow each other downwards -/

/-- Every mark of the second run stands on a later line than the end of the first. -/
def Mark.Below (run below : List Mark) : Prop :=
  ∀ k ∈ run.head?, ∀ m ∈ below, lineAfter k.line (Mark.text run) < m.line

/-- The marks behind the first end of a line stand below what is in front of it, and so on. -/
theorem exists_pieces_below (p : Profile) (s : Nesting) (offset : Nat) (text : List Char) :
    ∃ run runs, pieces (fun m _ ↦ m.endsLine) (marksFrom p s offset text) = run :: runs ∧
      (∀ k ∈ run.head?, k.line = s.line) ∧
      (∀ below ∈ runs, ∀ m ∈ below, lineAfter s.line (Mark.text run) < m.line) ∧
      (run :: runs).Pairwise Mark.Below := by
  induction text generalizing s offset with
  | nil => exact ⟨[], [], rfl, by simp, by simp, by simp⟩
  | cons c rest ih =>
    set t := (s.step p c rest).1 with ht
    obtain ⟨run, runs, hruns, -, hbelow, hpairs⟩ := ih t (offset + c.utf8Size)
    have hline : t.line = lineAfter s.line [c] := Nesting.line_afterText p s [c] rest
    rw [marksFrom_cons, pieces]
    split
    · next hends =>
      obtain rfl : c = '\n' := (Mark.endsLine_iff.1 hends).1
      refine ⟨[], _, rfl, by simp, fun below hmem m hm ↦ ?_, .cons (by simp [Mark.Below]) ?_⟩
      · have hm := (sublist_of_mem_pieces hmem).subset hm
        rw [← ht, ← marksAhead_nil] at hm
        have hfrom := (Nesting.line_of_mem_marksAhead hm).1
        rwa [hline] at hfrom
      · rwa [← ht, hruns]
    · rw [← ht, hruns]
      have hnext : ∀ below ∈ runs, ∀ m ∈ below, lineAfter s.line (c :: Mark.text run) < m.line := by
        intro below hmem m hm
        have hm := hbelow below hmem m hm
        rwa [hline, ← lineAfter_append] at hm
      refine ⟨_, _, rfl, fun k hk ↦ ?_, hnext, .cons (fun below hmem k hk ↦ ?_) hpairs.of_cons⟩
      · obtain rfl := Option.some_inj.1 hk
        rfl
      · obtain rfl := Option.some_inj.1 hk
        exact hnext below hmem

theorem LogicalLine.lastLine_ofMarks_lt {line line' : Nat}
    {leftOpen leftOpen' : Option OpenConstruct} {run below : List Mark}
    (h : Mark.Below run below) (full : run ≠ []) (full' : below ≠ []) :
    (ofMarks line leftOpen run).lastLine < (ofMarks line' leftOpen' below).line := by
  cases run with
  | nil => exact absurd rfl full
  | cons k run =>
    cases below with
    | nil => exact absurd rfl full'
    | cons m below => exact h k rfl m List.mem_cons_self

/-- Each logical line of a text starts below the end of those in front of it. -/
theorem pairwise_logicalLines (p : Profile) (text : List Char) :
    (logicalLines p text).Pairwise fun k l ↦ k.lastLine < l.line := by
  obtain ⟨run, runs, hruns, -, -, hpairs⟩ := exists_pieces_below p (.start 1) 0 text
  rw [← hruns, ← marks] at hpairs
  have hne := pieces_ne_nil (fun m _ ↦ m.endsLine) (marks p text)
  have hsplit := List.dropLast_append_getLast hne
  rw [← hsplit, List.pairwise_append] at hpairs
  obtain ⟨hinner, -, hlast⟩ := hpairs
  refine List.pairwise_append.2 ⟨?_, ?_, ?_⟩
  · refine List.pairwise_map.2 (List.Pairwise.imp_of_mem ?_ (hinner.filter _))
    intro k l hk hl hbelow
    exact LogicalLine.lastLine_ofMarks_lt hbelow (ne_nil_of_visible (List.mem_filter.1 hk).2)
      (ne_nil_of_visible (List.mem_filter.1 hl).2)
  · rw [List.getLast?_eq_some_getLast hne, Option.toList_some]
    exact List.pairwise_map.2 ((List.pairwise_singleton _ _).filter _)
  · intro k hk l hl
    obtain ⟨run, hrun, rfl⟩ := List.mem_map.1 hk
    obtain ⟨below, hbelow, rfl⟩ := List.mem_map.1 hl
    rw [List.mem_filter] at hrun
    rw [List.mem_filter, Option.mem_toList] at hbelow
    obtain rfl := Option.some_inj.1 ((List.getLast?_eq_some_getLast hne).symm.trans hbelow.1)
    exact LogicalLine.lastLine_ofMarks_lt (hlast run hrun.1 _ (by simp)) (ne_nil_of_visible hrun.2)
      (ne_nil_of_counts (Nesting.isBalanced_start 1) hbelow.1 hbelow.2)

/-! ### The lines that a join drops -/

/-- Behind a header that ends above it, a line ends where it ended or further up. -/
theorem LogicalLine.lastLine_behind_le {p : Profile} {dangling : Option LogicalLine}
    {l : LogicalLine} (above : ∀ h ∈ dangling, h.lastLine < l.line) :
    (l.behind p dangling).lastLine ≤ l.lastLine := by
  rcases l.behind_cases p dangling with halone | ⟨h, hh, -, -, hjoined⟩
  · rw [halone]
  · have habove := above h hh
    have hblank : (' ' == '\n') = false := by decide
    rw [hjoined]
    simp only [lastLine, lineAfter, List.count_append, List.count_cons, hblank] at habove ⊢
    simp only [Bool.false_eq_true, if_false]
    omega

/-- A header that dangles in front of a logical line ends above it, however many lines were joined
to give it. -/
theorem lastLine_danglingAfter_lt {p : Profile} {file : Path} {dangling : Option LogicalLine}
    {ls : List LogicalLine} {l h : LogicalLine}
    (downwards : (ls ++ [l]).Pairwise fun k l ↦ k.lastLine < l.line)
    (above : ∀ h ∈ dangling, ∀ k ∈ ls ++ [l], h.lastLine < k.line)
    (hh : h ∈ Findings.danglingAfter p file dangling ls) : h.lastLine < l.line := by
  induction ls generalizing dangling with
  | nil => exact above h hh l List.mem_cons_self
  | cons k ls ih =>
    rw [List.cons_append, List.pairwise_cons] at downwards
    refine ih downwards.2 (fun j hj i hi ↦ ?_) hh
    calc j.lastLine
        ≤ (k.behind p dangling).lastLine := Extraction.lastLine_of_dangling_ofLine hj
      _ ≤ k.lastLine := LogicalLine.lastLine_behind_le fun h hh ↦ above h hh k List.mem_cons_self
      _ < i.line := downwards.1 i hi

/-- A statement that starts behind the first of two joined texts and the blank between them stands
in the second. -/
theorem exists_of_mem_statements_joined {p : Profile} {text more : List Char} {line : Nat}
    {s : Statement} (h : s ∈ statements p (text ++ ' ' :: more) line)
    (behind : byteLength text < s.offset) :
    ∃ front rest, more = front ++ s.text ++ rest ∧
      s.offset = byteLength text + 1 + byteLength front ∧
      s.line = lineAfter (lineAfter line text) front := by
  obtain ⟨front, rest, htext, hoffset, hline⟩ := exists_of_mem_statements h
  rw [List.append_assoc, List.append_eq_append_iff] at htext
  rcases htext with ⟨between, rfl, hmore⟩ | ⟨between, rfl, -⟩
  · cases between with
    | nil => simp [hoffset] at behind
    | cons c front =>
      rw [List.cons_append, List.cons.injEq] at hmore
      obtain ⟨rfl, hmore⟩ := hmore
      refine ⟨front, rest, by rw [hmore, List.append_assoc], ?_, ?_⟩
      · rw [hoffset, byteLength_append, byteLength_cons, show ' '.utf8Size = 1 from rfl,
          Nat.add_assoc]
      · rw [hline, lineAfter_append]
        simp [lineAfter]
  · rw [hoffset, byteLength_append] at behind
    omega

/-- A line that is joined to a dangling header is read as standing further up, and so is everything
that its statements behind the header define or report: by the lines that are dropped between the
header and the line, of which there is at least one. -/
theorem lines_of_joined {p : Profile} {path : Path} {text : List Char}
    {before after : List LogicalLine} {l h : LogicalLine}
    (lines : logicalLines p text = before ++ l :: after)
    (dangling : h ∈ Findings.danglingAfter p path none before)
    (complete : l.isOpen = false) (body : l.beginsBody p = true) :
    ∃ start behind dropped, text = start ++ l.text ++ behind ∧ l.line = lineAfter 1 start ∧
      l.line = h.lastLine + dropped ∧ 0 < dropped ∧
      ∀ s ∈ statements p (l.behind p (some h)).text (l.behind p (some h)).line,
        byteLength h.text < s.offset →
          ∃ front rest, l.text = front ++ s.text ++ rest ∧
            s.offset = byteLength h.text + 1 + byteLength front ∧
            lineAfter 1 (start ++ front) = s.line + dropped ∧
            ∀ isLast,
              Extraction.ofStatement p path { s with line := lineAfter 1 (start ++ front) } isLast =
                (Extraction.ofStatement p path s isLast).later dropped := by
  have hl : l ∈ logicalLines p text := lines ▸ List.mem_append_right before List.mem_cons_self
  obtain ⟨front, run, behind, hstands⟩ := exists_standsAt hl
  have htext := hstands.append_eq
  have habove : h.lastLine < l.line := by
    have hpairs := pairwise_logicalLines p text
    rw [lines, ← List.singleton_append, ← List.append_assoc] at hpairs
    exact lastLine_danglingAfter_lt (List.pairwise_append.1 hpairs).1 (by simp) dangling
  -- Dropped are the lines between the place where the header is read to end and the joined line.
  obtain ⟨dropped, hdropped⟩ := Nat.exists_eq_add_of_lt habove
  refine ⟨Mark.text front, Mark.text behind, dropped + 1, htext, hstands.line_eq, by omega,
    by omega, ?_⟩
  have hjoined : l.behind p (some h) = ⟨h.text ++ ' ' :: l.text, h.line, none⟩ := by
    simp [LogicalLine.behind, complete, body]
  rw [hjoined]
  intro s hs hbehind
  obtain ⟨first, rest, hfirst, hoffset, hline⟩ := exists_of_mem_statements_joined hs hbehind
  have hplace : lineAfter 1 (Mark.text front ++ first) = s.line + (dropped + 1) := by
    rw [lineAfter_append, ← hstands.line_eq, hdropped, hline]
    simp only [LogicalLine.lastLine, lineAfter]
    omega
  refine ⟨first, rest, hfirst, hoffset, hplace, fun isLast ↦ ?_⟩
  rw [hplace]
  exact Extraction.ofStatement_later isLast

/-- An alias on the second line of a file is found on the first, where the header stands. -/
theorem lines_of_joined_of_alias :
    Findings.ofSource .bash ⟨⟨".bashrc"⟩, "f()\n\x7b :; \x7d; alias a=1\n".toList⟩ =
        ⟨[⟨"f", .function, ":;", ⟨".bashrc"⟩, 1⟩, ⟨"a", .alias, "1", ⟨".bashrc"⟩, 1⟩], []⟩ ∧
      ∃ start behind front rest,
        "f()\n\x7b :; \x7d; alias a=1\n".toList =
            start ++ "\x7b :; \x7d; alias a=1".toList ++ behind ∧
          "\x7b :; \x7d; alias a=1".toList = front ++ "alias a=1".toList ++ rest ∧
          lineAfter 1 (start ++ front) = 2 := by
  refine ⟨by decide +kernel, ?_⟩
  obtain ⟨start, behind, dropped, htext, -, hdropped, -, hplaces⟩ :=
    @lines_of_joined .bash ⟨".bashrc"⟩ "f()\n\x7b :; \x7d; alias a=1\n".toList
      [⟨"f()".toList, 1, none⟩] [] ⟨"\x7b :; \x7d; alias a=1".toList, 2, none⟩
      ⟨"f()".toList, 1, none⟩
      (by decide +kernel) (by decide +kernel) rfl (by decide)
  obtain ⟨front, rest, hfront, -, hplace, -⟩ :=
    hplaces ⟨12, 1, "alias a=1".toList⟩ (by decide +kernel) (by decide)
  refine ⟨start, behind, front, rest, htext, hfront, ?_⟩
  have hone : 2 = 1 + dropped := hdropped
  rw [hplace, hone]

end ShellCatalog
