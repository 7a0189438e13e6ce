import ShellCatalog.Proofs.ClosedHeaders
import ShellCatalog.Proofs.Fillers
import ShellCatalog.Proofs.NeutralLines
import ShellCatalog.Proofs.TruncatedFile

/-!
# Fillers in the lines of a file

A filler stands on one physical line, so it does not change where a logical line ends: the lines in
front of it and behind it stay, and only the text of its own line is another
(`exists_logicalLines_filler`). So what may be exchanged in a text may be exchanged in a file
(`Findings.ofSource_filler`), but for one thing that a line hands on.

**A header may dangle in front of the line.** If the line begins with a body, the two are read as
one text, in which the filler stands as it does in the line, since such a header leaves nothing
open. But whether the line begins with a body, and whether there is a line at all, can depend on the
filler, unless something visible stands in front of it.
-/

namespace ShellCatalog

/-! ### The first line of a text -/

/-- The line is one of the lines of its text: it holds something, or the text ends inside of it. -/
def LogicalLine.counts (l : LogicalLine) : Bool :=
  !isBlank l.text || l.isOpen

theorem LogicalLine.counts_of_mem {l : LogicalLine} {c : Char} (hc : c ∈ l.text)
    (visible : isSpace c = false) : l.counts = true := by
  have hshown : isBlank l.text = false :=
    Bool.eq_false_iff.2 fun hblank ↦ by simp [isBlank_iff.1 hblank c hc] at visible
  rw [counts, hshown]
  rfl

theorem LogicalLine.filter_later (n : Nat) (l : LogicalLine) :
    ([l].filter counts).map (later n) = [l.later n].filter counts := by
  have hcounts : (l.later n).counts = l.counts := by simp [counts, isOpen, later]
  rw [List.filter_singleton, List.filter_singleton, hcounts]
  cases l.counts <;> rfl

/-- A run of marks that goes as far as its only end of a line is one line, or none. -/
theorem linesOfMarks_concat {line : Nat} {s : Nesting} {run : List Mark} {m : Mark}
    (inside : ∀ k ∈ run, k.endsLine = false) (ends : m.endsLine = true) :
    linesOfMarks line s (run ++ [m]) =
      if !isBlank (Mark.text run) then [.ofMarks line none run] else [] := by
  have hpieces : pieces (fun m _ ↦ m.endsLine) (run ++ [m]) = [run, []] :=
    pieces_append_cons (fun k hk _ ↦ inside k hk) ends
  have hclosed : (s.afterMarks (run ++ [m])).outermostOpen? = none := by
    rw [Nesting.afterMarks, List.getLast?_concat]
    exact Nesting.outermostOpen?_of_isBalanced (Mark.endsLine_iff.1 ends).2.2
  have hempty : isBlank (Mark.text []) = true := rfl
  cases hblank : isBlank (Mark.text run) <;> simp [linesOfMarks, hpieces, hclosed, hempty, hblank]

/-- The marks in front of the first end of a line are the first line, if it counts. -/
theorem logicalLines_eq_append {p : Profile} {text : List Char} {run behind : List Mark}
    (h : marks p text = run ++ behind) (inside : ∀ m ∈ run, m.endsLine = false)
    (ends : ∀ m ∈ behind.head?, m.endsLine = true) (full : run ≠ []) :
    logicalLines p text =
      [⟨Mark.text run, 1, if behind = [] then
          ((Nesting.start 1).afterText p text []).outermostOpen? else none⟩].filter
            LogicalLine.counts ++
        (logicalLines p (Mark.text behind.tail)).map
          (LogicalLine.later ((Mark.text run).count '\n' + 1)) := by
  have hline (leftOpen : Option OpenConstruct) :
      LogicalLine.ofMarks 1 leftOpen run = ⟨Mark.text run, 1, leftOpen⟩ := by
    have hplace : marks p text = [] ++ run ++ behind := h
    have hstart : (LogicalLine.ofMarks 1 leftOpen run).line = lineAfter 1 (Mark.text []) :=
      line_ofMarks hplace (by simp) full
    rw [LogicalLine.ofMarks, LogicalLine.mk.injEq]
    exact ⟨rfl, hstart, rfl⟩
  cases behind with
  | nil =>
    have hwhole : marks p text = run := by rw [h, List.append_nil]
    have hempty : logicalLines p (Mark.text (List.tail ([] : List Mark))) = [] := rfl
    rw [logicalLines_eq_linesOfMarks, hwhole, linesOfMarks_of_forall inside, hline, ← hwhole,
      afterMarks_marks, hwhole, hempty, if_pos rfl, List.map_nil, List.append_nil,
      List.filter_singleton, cond_eq_ite]
    rfl
  | cons m more =>
    have hm : m.endsLine = true := ends m rfl
    have hchar := (Mark.endsLine_iff.1 hm).1
    have hwhole : marks p text = (run ++ [m]) ++ more := by rw [h, List.append_assoc]; rfl
    have hlast : ∀ k ∈ (run ++ [m]).getLast?, k.endsLine = true := by simpa using hm
    have hown := eq_marks_of_ends hwhole hlast
    have hfirst : logicalLines p (Mark.text (run ++ [m])) =
        [⟨Mark.text run, 1, none⟩].filter LogicalLine.counts := by
      rw [logicalLines_eq_linesOfMarks, ← hown, linesOfMarks_concat inside hm, hline,
        List.filter_singleton, cond_eq_ite]
      simp [LogicalLine.counts, LogicalLine.isOpen]
    rw [(marksFrom_eq_append hwhole).1, logicalLines_append (hown ▸ hlast), hfirst,
      if_neg (List.cons_ne_nil m more), List.tail_cons, Mark.text_append, List.count_append]
    simp [Mark.text, hchar]

/-- A line that does not count holds nothing. -/
theorem Findings.ofLines_filter {p : Profile} {file : Path} {dangling : Option LogicalLine}
    {l : LogicalLine} (h : l.counts = true ∨ dangling = none) (ls : List LogicalLine) :
    ofLines p file dangling ([l].filter LogicalLine.counts ++ ls) =
      ofLines p file dangling (l :: ls) := by
  cases hcounts : l.counts with
  | true => rw [List.filter_singleton, hcounts]; rfl
  | false =>
    obtain rfl := h.resolve_left (by simp [hcounts])
    obtain ⟨hblank, hclosed⟩ : isBlank l.text = true ∧ l.leftOpen = none := by
      simpa [LogicalLine.counts, LogicalLine.isOpen] using hcounts
    have hnone : statements p l.text l.line = [] := by
      refine List.filterMap_eq_nil_iff.2 fun run hrun ↦ Statement.ofMarks?_of_isBlank ?_
      have hmarks := (sublist_of_mem_pieces hrun).map Mark.char
      rw [← Mark.text, ← Mark.text, text_marks] at hmarks
      exact isBlank_iff.2 fun c hc ↦ isBlank_iff.1 hblank c (hmarks.subset hc)
    have hempty : Extraction.ofLine p file l = .empty := by
      rw [Extraction.ofLine, hclosed]
      show Extraction.ofText p file l.text l.line = .empty
      rw [Extraction.ofText_eq, hnone]
      rfl
    have hbehind : l.behind p none = l := rfl
    rw [List.filter_singleton, hcounts, ofLines, hbehind, hempty]
    rfl

/-- The marks in front of the first end of a line are read alike on their own. -/
theorem exists_marks_eq_append {d : Dialect} (docs : d.profile.hereDocs = false)
    (text : List Char) (line : Nat) :
    ∃ run others, marks d.profile text line = run ++ others ∧
      (∀ m ∈ run, m.endsLine = false) ∧ (∀ m ∈ others.head?, m.endsLine = true) ∧
      Mark.firstPart (marks d.profile (Mark.text run)) = Mark.firstPart (marks d.profile text) := by
  obtain ⟨run, runs, hpieces⟩ := List.exists_cons_of_ne_nil
    (pieces_ne_nil (fun m _ ↦ m.endsLine) (marks d.profile text line))
  obtain ⟨front, others, hmarks, hfront, -, hnil, hends⟩ :=
    @exists_of_pieces_eq (fun m _ ↦ m.endsLine) _ run [] runs hpieces
  obtain rfl := hfront rfl
  rw [List.nil_append] at hmarks
  have hothers : ∀ m ∈ others.head?, m.endsLine = true := by
    intro m hm
    by_cases hruns : runs = []
    · rw [hnil hruns] at hm
      exact absurd hm (by simp)
    · obtain ⟨n, hn, -, hends⟩ := hends hruns
      rwa [Option.mem_unique hm hn]
  have hash : (Mark.text others).head? ≠ some '#' := by
    rw [Mark.text, List.head?_map, ne_eq, Option.map_eq_some_iff]
    rintro ⟨m, hm, hchar⟩
    exact absurd (hchar.symm.trans (Mark.endsLine_iff.1 (hothers m hm)).1) (by decide)
  obtain ⟨-, hown, -⟩ := marksFrom_eq_append hmarks
  rw [Nesting.marksAhead_of_noHereDocs docs 0 hash, marksAhead_nil, ← marks] at hown
  refine ⟨run, others, hmarks, fun m hm ↦ ?_, hothers, ?_⟩
  · exact eq_false_of_mem_piece (hpieces ▸ List.mem_cons_self) hm
  · rw [(Mark.parts_marks _ _ 1 line).1, ← hown, ← Mark.firstPart_of_pieces hpieces,
      (Mark.parts_marks _ _ _ 1).1]

/-! ### The last line of a text -/

/-- What stands in a text behind the last end of a line. -/
def unendedLine (p : Profile) (text : List Char) : List Char :=
  Mark.text ((pieces (fun m _ ↦ m.endsLine) (marks p text)).getLastD [])

/-- What stands behind the last end of a line is read as it is on its own. -/
theorem exists_eq_append_unendedLine (p : Profile) (text : List Char) :
    ∃ start, text = start ++ unendedLine p text ∧
      (∀ m ∈ (marks p start).getLast?, m.endsLine = true) ∧
      (∀ m ∈ marks p (unendedLine p text), m.endsLine = false) ∧
      Mark.lastPart (marks p (unendedLine p text)) = Mark.lastPart (marks p text) ∧ ∀ line,
        ((Nesting.start 1).afterText p text []).Like
          ((Nesting.start line).afterText p (unendedLine p text) []) := by
  obtain ⟨runs, run, hpieces⟩ : ∃ runs run, pieces (fun m _ ↦ m.endsLine) (marks p text) =
      runs ++ [run] :=
    ⟨_, _, (List.dropLast_append_getLast (pieces_ne_nil (fun m _ ↦ m.endsLine) _)).symm⟩
  have hline : unendedLine p text = Mark.text run := by
    rw [unendedLine, hpieces, List.getLastD_concat]
  obtain ⟨front, behind, hmarks, hfront, -, hnil⟩ := exists_of_pieces_endsLine hpieces
  obtain rfl := hnil.2 rfl
  rw [List.append_nil] at hmarks
  obtain ⟨htext, hstart, hread⟩ := marksFrom_eq_append hmarks
  have hinside : ∀ m ∈ run, m.endsLine = false :=
    fun m hm ↦ eq_false_of_mem_piece (hpieces ▸ List.mem_append_right _ List.mem_cons_self) hm
  have hword := Nesting.atWord_afterText (Nesting.atWord_start 1) (hstart ▸ hfront)
  have hsame := forall₂_marksFrom (p := p) (fun h c rest ↦ h.step c rest)
    ((Nesting.atWord_start 1).like hword) 0 (0 + byteLength (Mark.text front)) (Mark.text run)
  rw [Nat.zero_add, ← hread, ← marks] at hsame
  rw [hline]
  refine ⟨_, htext, eq_marks_of_ends hmarks hfront ▸ hfront, ?_, ?_, fun line ↦ ?_⟩
  · exact forall_of_forall₂ hsame.flip (fun h hm ↦ (h.endsLine id).trans hm) hinside
  · have hparts := Mark.parts_congr Mark.Related.char
      (fun h hnext ↦ h.separatesStatements id hnext) hsame
    rw [Mark.lastPart_of_pieces hpieces, hparts.2]
  · rw [htext, Nesting.afterText_append, List.append_nil]
    exact (hword.like (Nesting.atWord_start line)).afterText _ _

/-! ### A filler in a line -/

/-- The last part of two runs is that of the second, or the second has no other. -/
theorem Mark.lastPart_append {ms ns : List Mark}
    (blind : ∀ m ∈ ms.getLast?, m.separatesStatements ns.head? = m.separatesStatements none) :
    lastPart (ms ++ ns) = lastPart ns ∨ lastPart ns = Mark.text ns := by
  obtain ⟨init, last, first, rest, -, hns, happend⟩ := exists_pieces_append blind
  cases rest with
  | cons piece rest =>
    refine .inl ?_
    simp [lastPart, happend, hns, List.getLastD_eq_getLast?,
      List.getLast?_eq_some_getLast (List.cons_ne_nil piece rest)]
  | nil =>
    obtain ⟨front, behind, hwhole, hfront, -, hbehind, -⟩ :=
      @exists_of_pieces_eq Mark.separatesStatements ns first [] [] hns
    rw [hfront rfl, hbehind rfl, List.nil_append, List.append_nil] at hwhole
    refine .inr ?_
    rw [lastPart, hns, hwhole]
    rfl

theorem Nesting.Like.atWord {s t : Nesting} (h : s.Like t) (hs : s.AtWord) : t.AtWord := by
  refine ⟨h.isBalanced ▸ hs.balanced, ?_⟩
  rcases h.last with heq | ⟨-, -, ht⟩
  · have hblank := hs.blank
    rwa [Nesting.AtBlank, Nesting.lastChar?, heq] at hblank
  · exact ht

theorem LogicalLine.beginsBody_append {p : Profile} {front behind : List Char} {line : Nat}
    {leftOpen : Option OpenConstruct} (visible : isBlank front = false) :
    (⟨front ++ behind, line, leftOpen⟩ : LogicalLine).beginsBody p =
      (trimStart front).head?.any p.beginsBody := by
  rw [beginsBody, trimStart_append _ visible,
    List.head?_append_of_ne_nil _ (trimStart_ne_nil_iff.2 visible)]

section Line

variable {d : Dialect} {front filler filler' behind : List Char} {line : Nat}

/-- A divider begins no body. -/
theorem IsDivider.beginsBody_eq_false (h : IsDivider d.profile filler)
    (blank : isBlank front = true) (leftOpen : Option OpenConstruct) :
    (⟨front ++ (filler ++ behind), line, leftOpen⟩ : LogicalLine).beginsBody d.profile = false := by
  obtain ⟨c, rest, rfl⟩ := List.exists_cons_of_ne_nil h.full
  have htrim : trimStart (front ++ (c :: rest ++ behind)) = c :: (rest ++ behind) := by
    rw [trimStart, List.dropWhile_append_of_pos fun c hc ↦ isBlank_iff.1 blank c hc,
      List.cons_append, ← trimStart, trimStart_cons _ (h.visible c rfl)]
  rw [LogicalLine.beginsBody, htrim]
  simpa using h.bodiless c rfl

/-- Behind a header that leaves nothing open, a text is read as it is on its own. -/
theorem LogicalLine.LeavesNothing.read_behind {header : LogicalLine}
    (h : header.LeavesNothing d.profile)
    (word : ((Nesting.start line).afterText d.profile front []).AtWord) :
    ((Nesting.start header.line).afterText d.profile (header.text ++ ' ' :: front) []).AtWord ∧
      (isBlank front = false → isBlank (Mark.lastPart (marks d.profile front)) = true →
        isBlank (Mark.lastPart (marks d.profile (header.text ++ ' ' :: front))) = true) := by
  have alike := (Nesting.atWord_start line).like (h front)
  rw [List.append_cons]
  constructor
  · rw [Nesting.afterText_append, List.append_nil]
    exact (alike.afterText front []).atWord word
  · intro visible blank
    rw [(Mark.parts_marks _ _ 1 line).2] at blank
    rw [(Mark.parts_marks _ _ 1 header.line).2]
    obtain ⟨-, hlast⟩ := Mark.parts_congr Mark.Related.char
      (fun h hnext ↦ h.separatesStatements id hnext)
      (forall₂_marksFrom (p := d.profile) (fun h c rest ↦ h.step c rest) alike 0
        (0 + byteLength (header.text ++ [' '])) front)
    rw [Nat.zero_add, ← marks] at hlast
    rw [marks, marksFrom_append, Nesting.afterMarks_marksAhead]
    rcases Mark.lastPart_append ((h front).blind 0 _) with heq | heq
    · rwa [heq, ← hlast]
    · rw [← hlast, text_marksFrom] at heq
      rw [heq, visible] at blank
      exact absurd blank (by decide)

/-- Two fillers may be exchanged in a line, also behind a dangling header. -/
theorem Extraction.ofLine_filler (docs : d.profile.hereDocs = false)
    (h : IsFiller d.profile filler) (h' : IsFiller d.profile filler')
    (word : ((Nesting.start line).afterText d.profile front []).AtWord)
    (blank : ∀ c ∈ behind.head?, isSpace c = true)
    (between : IsDivider d.profile filler ∧ IsDivider d.profile filler' ∨
      IsGap d.profile front behind)
    {dangling : Option LogicalLine} (settled : ∀ h ∈ dangling, h.LeavesNothing d.profile)
    (shown : IsDivider d.profile filler ∧ IsDivider d.profile filler' ∨ isBlank front = false ∨
      dangling = none)
    (leftOpen : Option OpenConstruct) (file : Path) :
    ofLine d.profile file
        ((⟨front ++ (filler ++ behind), line, leftOpen⟩ : LogicalLine).behind d.profile dangling) =
      ofLine d.profile file
        ((⟨front ++ (filler' ++ behind), line, leftOpen⟩ : LogicalLine).behind d.profile
          dangling) := by
  have hline := ofText_filler docs h h' word blank between file
  cases leftOpen with
  | some t => cases dangling <;> simp [LogicalLine.behind, LogicalLine.isOpen, ofLine]
  | none =>
    cases dangling with
    | none => exact hline
    | some header =>
      replace shown := shown.imp_right (·.resolve_right (by simp))
      cases hfront : isBlank front with
      | true =>
        obtain ⟨hdivider, hdivider'⟩ := shown.resolve_right (by simp [hfront])
        simp only [LogicalLine.behind, hdivider.beginsBody_eq_false hfront,
          hdivider'.beginsBody_eq_false hfront, Bool.and_false, Bool.false_eq_true, if_false]
        exact hline
      | false =>
        obtain ⟨hword, hlast⟩ := (settled header rfl).read_behind word
        have hjoint := ofText_filler docs h h' hword blank
          (between.imp_right (·.imp_left (hlast hfront))) file
        rw [List.append_assoc, List.append_assoc, List.cons_append, List.cons_append] at hjoint
        simp only [LogicalLine.behind, LogicalLine.beginsBody_append hfront]
        cases (trimStart front).head?.any d.profile.beginsBody with
        | true => exact hjoint
        | false => exact hline

end Line

/-! ### A filler in a file -/

/-- Where two runs are cut alike, the first line ends at the same place. -/
theorem Mark.CutAlike.exists_append {run others ns : List Mark}
    (h : List.Forall₂ Mark.CutAlike (run ++ others) ns) (inside : ∀ m ∈ run, m.endsLine = false)
    (ends : ∀ m ∈ others.head?, m.endsLine = true) :
    ∃ run' others', ns = run' ++ others' ∧ Mark.text run' = Mark.text run ∧
      (∀ m ∈ run', m.endsLine = false) ∧ (∀ m ∈ others'.head?, m.endsLine = true) ∧
      (others' = [] ↔ others = []) ∧ Mark.text others'.tail = Mark.text others.tail := by
  have hrun := (List.forall₂_take_append ns run others h.flip).flip
  have hothers := (List.forall₂_drop_append ns run others h.flip).flip
  refine ⟨_, _, (List.take_append_drop run.length ns).symm,
    (text_eq_of_forall₂ Mark.CutAlike.char hrun).symm,
    forall_of_forall₂ hrun (fun hcut hm ↦ hcut.endsLine ▸ hm) inside, ?_⟩
  generalize ns.drop run.length = others' at hothers
  cases hothers with
  | nil => simp
  | cons hcut hmore =>
    refine ⟨fun m hm ↦ ?_, by simp, (text_eq_of_forall₂ Mark.CutAlike.char hmore).symm⟩
    rw [← Option.some_inj.1 hm, ← hcut.endsLine]
    exact ends _ rfl

section File

variable {d : Dialect} {front filler filler' behind : List Char}

/-- The line in which a filler stands goes as far as the line without it. -/
theorem IsFiller.exists_firstLine (docs : d.profile.hereDocs = false)
    (h : IsFiller d.profile filler)
    (word : ((Nesting.start 1).afterText d.profile front []).AtWord)
    (inside : ∀ m ∈ marks d.profile front, m.endsLine = false)
    (blank : ∀ c ∈ behind.head?, isSpace c = true) {run others : List Mark}
    (divided : marks d.profile behind (lineAfter 1 front) = run ++ others)
    (unended : ∀ m ∈ run, m.endsLine = false) (ends : ∀ m ∈ others.head?, m.endsLine = true) :
    ∃ run' others', marks d.profile (front ++ (filler ++ behind)) = run' ++ others' ∧
      run' ≠ [] ∧ Mark.text run' = front ++ (filler ++ Mark.text run) ∧
      (∀ m ∈ run', m.endsLine = false) ∧ (∀ m ∈ others'.head?, m.endsLine = true) ∧
      (others' = [] ↔ others = []) ∧ Mark.text others'.tail = Mark.text others.tail := by
  obtain ⟨ms, ns, hwhole, hfiller, -, -, hcut, -⟩ := h.exists_marks docs word blank
  rw [divided] at hcut
  obtain ⟨run', others', rfl, htext, hinside, hends⟩ :=
    Mark.CutAlike.exists_append hcut unended ends
  refine ⟨marks d.profile front ++ (ms ++ run'), others', ?_, ?_, ?_, fun m hm ↦ ?_, hends⟩
  · rw [hwhole, List.append_assoc, List.append_assoc]
  · have hfull : ms ≠ [] := by
      rintro rfl
      exact h.full hfiller.symm
    simp [hfull]
  · rw [Mark.text_append, Mark.text_append, text_marks, hfiller, htext]
  · rw [List.mem_append, List.mem_append] at hm
    rcases hm with hm | hm | hm
    · exact inside m hm
    · refine Bool.eq_false_iff.2 fun hends ↦ h.single ?_
      rw [← (Mark.endsLine_iff.1 hends).1, ← hfiller]
      exact List.mem_map_of_mem hm
    · exact hinside m hm

/-- Whatever filler stands in the first line of a text, the line goes as far, and the same lines
follow. -/
theorem exists_logicalLines_filler (docs : d.profile.hereDocs = false)
    (word : ((Nesting.start 1).afterText d.profile front []).AtWord)
    (inside : ∀ m ∈ marks d.profile front, m.endsLine = false)
    (blank : ∀ c ∈ behind.head?, isSpace c = true) :
    ∃ (more : List Char) (leftOpen : Option OpenConstruct) (others : List LogicalLine),
      (∀ c ∈ more.head?, isSpace c = true) ∧
      Mark.firstPart (marks d.profile more) = Mark.firstPart (marks d.profile behind) ∧
      ∀ filler, IsFiller d.profile filler →
        logicalLines d.profile (front ++ (filler ++ behind)) =
          [⟨front ++ (filler ++ more), 1, leftOpen⟩].filter LogicalLine.counts ++ others := by
  obtain ⟨run, others, hmarks, hrun, hothers, hfirst⟩ :=
    exists_marks_eq_append docs behind (lineAfter 1 front)
  have htext := (marksFrom_eq_append hmarks).1
  refine ⟨Mark.text run,
    if others = [] then
      ((Nesting.start (lineAfter 1 front)).afterText d.profile behind []).outermostOpen?
    else none,
    (logicalLines d.profile (Mark.text others.tail)).map
      (LogicalLine.later ((front ++ Mark.text run).count '\n' + 1)),
    fun c hc ↦ blank c ?_, hfirst, fun filler h ↦ ?_⟩
  · rw [htext, List.head?_append, Option.mem_def.1 hc]
    rfl
  · obtain ⟨-, -, -, -, -, -, -, hopen⟩ := h.exists_marks docs word blank
    obtain ⟨run', others', hwhole, hfull, hline, hinside, hends, hnil, htail⟩ :=
      h.exists_firstLine docs word inside blank hmarks hrun hothers
    have hcount : (front ++ (filler ++ Mark.text run)).count '\n' =
        (front ++ Mark.text run).count '\n' := by
      simp [List.count_append, List.count_eq_zero.2 h.single]
    rw [logicalLines_eq_append hwhole hinside hends hfull, hline, htail, hcount]
    simp only [hnil, hopen]

theorem LogicalLine.counts_of_filler {p : Profile} {front filler behind : List Char} {line : Nat}
    {leftOpen : Option OpenConstruct} (shown : IsDivider p filler ∨ isBlank front = false) :
    (⟨front ++ (filler ++ behind), line, leftOpen⟩ : LogicalLine).counts = true := by
  rcases shown with hdivider | hfront
  · obtain ⟨c, rest, rfl⟩ := List.exists_cons_of_ne_nil hdivider.full
    exact counts_of_mem (c := c) (by simp) (hdivider.visible c rfl)
  · obtain ⟨c, hc, hvisible⟩ := List.all_eq_false.1 hfront
    exact counts_of_mem (c := c) (by simp [hc]) (by simpa using hvisible)

/-- Two fillers may be exchanged in a file: between statements; and in the middle of one as well, if
both divide. A header that dangles in front of the line must not see the difference. -/
theorem Findings.ofSource_filler {path : Path} (h : IsFiller Dialect.pwsh.profile filler)
    (h' : IsFiller Dialect.pwsh.profile filler')
    (word : ((Nesting.start 1).afterText Dialect.pwsh.profile front []).AtWord)
    (blank : ∀ c ∈ behind.head?, isSpace c = true)
    (between : IsDivider Dialect.pwsh.profile filler ∧ IsDivider Dialect.pwsh.profile filler' ∨
      IsGap Dialect.pwsh.profile front behind)
    (shown : IsDivider Dialect.pwsh.profile filler ∧ IsDivider Dialect.pwsh.profile filler' ∨
      isBlank (unendedLine Dialect.pwsh.profile front) = false ∨
      danglingAfter Dialect.pwsh.profile path none
        (logicalLines Dialect.pwsh.profile front) = none) :
    ofSource Dialect.pwsh.profile ⟨path, front ++ (filler ++ behind)⟩ =
      ofSource Dialect.pwsh.profile ⟨path, front ++ (filler' ++ behind)⟩ := by
  set p := Dialect.pwsh.profile
  have docs : p.hereDocs = false := rfl
  obtain ⟨start, hfront, hcut, hinside, hlast, hlike⟩ := exists_eq_append_unendedLine p front
  set x := unendedLine p front
  set n := start.count '\n'
  set dangling := danglingAfter p path none (logicalLines p start)
  have settled : ∀ h ∈ dangling, h.LeavesNothing p := leavesNothing_of_logicalLines
    (Nesting.outermostOpen?_of_isBalanced (atWord_of_cut hcut).balanced)
  obtain ⟨more, leftOpen, others, hblank, hfirst, hlines⟩ :=
    exists_logicalLines_filler docs ((hlike 1).atWord word) hinside blank
  replace shown : IsDivider p filler ∧ IsDivider p filler' ∨ isBlank x = false ∨
      dangling = none := by
    refine shown.imp_right fun shown ↦ ?_
    cases hx : isBlank x with
    | false => exact .inl rfl
    | true =>
      have hnone : logicalLines p x = [] := logicalLines_of_isBlank hx
      have hquiet := shown.resolve_left (by simp [hx])
      rw [hfront, logicalLines_append hcut, hnone, List.map_nil, List.append_nil] at hquiet
      exact .inr hquiet
  have found (filler : List Char) (h : IsFiller p filler)
      (counts : IsDivider p filler ∨ isBlank x = false ∨ dangling = none) :
      ofSource p ⟨path, front ++ (filler ++ behind)⟩ = (ofSource p ⟨path, start⟩).append
        (ofLines p path dangling
          (⟨x ++ (filler ++ more), 1 + n, leftOpen.map (OpenConstruct.later n)⟩ ::
            others.map (LogicalLine.later n))) := by
    rw [hfront, List.append_assoc, ofSource_append hcut, hlines filler h, List.map_append,
      LogicalLine.filter_later]
    exact congrArg _
      (ofLines_filter ((or_assoc.2 counts).imp_left LogicalLine.counts_of_filler) _)
  have hgap : IsGap p front behind → IsGap p x more := by
    rw [IsGap, IsGap, hlast, hfirst]
    exact id
  rw [found filler h (shown.imp_left And.left), found filler' h' (shown.imp_left And.right),
    ofLines, ofLines, Extraction.ofLine_filler docs h h' ((hlike (1 + n)).atWord word) hblank
      (between.imp_right hgap) settled shown (leftOpen.map (OpenConstruct.later n)) path]

end File

end ShellCatalog
