import ShellCatalog.Findings
import ShellCatalog.Proofs.LaterLines

/-!
# A file in two parts

A file may be cut where a line ends a complete statement. Each part is then read as a file of its
own, and the two lists of findings stand one behind the other.

**The second part is read later** than it is on its own, and so everything that it defines or
reports is moved by the lines of the first part (`Findings.later`). Apart from that, a line is a
line wherever it stands (`Extraction.ofLine_later`).

**Nothing passes the cut**: no open construct, since the cut ends a statement, and no look-ahead,
since a delimiter that runs past the cut leaves its document open. The one thing that can be handed
on is a header without its body, and a cut behind one is no cut (`Findings.danglingAfter`).
-/

namespace ShellCatalog

/-! ### Findings on later lines -/

/-- The logical line, `n` physical lines later. -/
def LogicalLine.later (n : Nat) (l : LogicalLine) : LogicalLine :=
  { l with line := l.line + n, leftOpen := l.leftOpen.map (OpenConstruct.later n) }

/-- The definition, found `n` lines later. -/
def Definition.later (n : Nat) (d : Definition) : Definition :=
  { d with line := d.line + n }

/-- The finding, made `n` lines later; a file that is not read has no lines. -/
def Diagnostic.later (n : Nat) : Diagnostic → Diagnostic
  | .unreadable path cause => .unreadable path cause
  | .unknownDialect path => .unknownDialect path
  | .unterminated path t => .unterminated path (t.later n)
  | .badName path line kind name => .badName path (line + n) kind name

/-- Everything found, `n` lines later. -/
def Extraction.later (n : Nat) (e : Extraction) : Extraction :=
  ⟨e.definitions.map (Definition.later n), e.diagnostics.map (Diagnostic.later n),
    e.dangling.map (LogicalLine.later n)⟩

namespace Findings

/-- Everything found, `n` lines later. -/
def later (n : Nat) (f : Findings) : Findings :=
  ⟨f.definitions.map (Definition.later n), f.diagnostics.map (Diagnostic.later n)⟩

/-- The findings of two parts of a file, one behind the other. -/
def append (f g : Findings) : Findings :=
  ⟨f.definitions ++ g.definitions, f.diagnostics ++ g.diagnostics⟩

/-- The header that is still without its body behind a sequence of logical lines, the first of which
follows `dangling`. -/
def danglingAfter (p : Profile) (file : Path) (dangling : Option LogicalLine)
    (ls : List LogicalLine) : Option LogicalLine :=
  ls.foldl (fun dangling l ↦ (Extraction.ofLine p file (l.behind p dangling)).dangling) dangling

/-- Lines are read one by one, and only a dangling header is handed on. -/
theorem ofLines_append (p : Profile) (file : Path) (dangling : Option LogicalLine)
    (ls ks : List LogicalLine) :
    ofLines p file dangling (ls ++ ks) =
      (ofLines p file dangling ls).append
        (ofLines p file (danglingAfter p file dangling ls) ks) := by
  induction ls generalizing dangling with
  | nil => rfl
  | cons l ls ih =>
    rw [List.cons_append, ofLines, ofLines, ih]
    simp [append, danglingAfter]

end Findings

/-! ### What later text defines -/

namespace Extraction

theorem append_later (n : Nat) (a b : Extraction) :
    (a.append b).later n = (a.later n).append (b.later n) := by
  cases hb : b.dangling <;> simp [append, later, hb]

theorem concat_later (n : Nat) (es : List Extraction) :
    (concat es).later n = concat (es.map (later n)) := by
  induction es with
  | nil => rfl
  | cons e es ih =>
    rw [List.map_cons, concat, List.foldr_cons, append_later]
    exact congrArg _ ih

end Extraction

theorem define_later (p : Profile) (file : Path) (line n : Nat) (kind : Kind)
    (name body : List Char) :
    define p file (line + n) kind name body = (define p file line kind name body).later n := by
  unfold define
  split <;> rfl

theorem Statement.command_later (p : Profile) (n : Nat) (s : Statement) :
    (s.later n).command p = (s.command p).later n := by
  simp [command, later, lineAfter, Nat.add_right_comm]

theorem Statement.later_injective {n : Nat} {s t : Statement} (h : s.later n = t.later n) :
    s = t := by
  cases s
  cases t
  simp_all [later]

namespace Extraction

variable {p : Profile} {file : Path} {n : Nat} {s : Statement}

theorem ofFunction_later (isLast : Bool) (h : Header) :
    ofFunction p file (s.later n) isLast h = (ofFunction p file s isLast h).later n := by
  unfold ofFunction
  cases Body.ofText p h.rest with
  | block inner offset => exact define_later ..
  | absent => cases isLast <;> rfl
  | other => rfl

theorem ofCommand_later (isLast : Bool) :
    ofCommand p file (s.later n) isLast = (ofCommand p file s isLast).later n := by
  have htext : (s.later n).text = s.text := rfl
  unfold ofCommand
  rw [htext]
  cases proposedAliases? p (words p s.text) with
  | some proposed =>
    dsimp only
    rw [concat_later, List.map_map]
    exact congrArg _ (List.map_congr_left fun a _ ↦ define_later ..)
  | none =>
    cases p.header? s.text with
    | some h => exact ofFunction_later isLast h
    | none => rfl

theorem ofStatement_later_of_group (isLast : Bool)
    (group : ∀ inner, braceGroup? p (s.command p).text = some inner → ∀ line,
      ofText p file inner (line + n) = (ofText p file inner line).later n) :
    ofStatement p file (s.later n) isLast = (ofStatement p file s isLast).later n := by
  have htext : ((s.command p).later n).text = (s.command p).text := rfl
  unfold ofStatement
  rw [Statement.command_later, htext]
  cases hgroup : braceGroup? p (s.command p).text with
  | some inner => exact group inner hgroup _
  | none => exact ofCommand_later isLast

/-- The inside of a brace group is shorter than the text that the group is cut from. -/
theorem length_lt_of_group {text inner : List Char} {line : Nat} (hs : s ∈ statements p text line)
    (group : braceGroup? p (s.command p).text = some inner) : inner.length < text.length := by
  calc inner.length
      < (s.command p).text.length := length_lt_of_braceGroup? group
    _ ≤ s.text.length := length_dropLeading_le p s.text
    _ ≤ text.length := length_le_of_mem_statements hs

/-- A text that begins later defines the same, so many lines later. -/
theorem ofText_later (p : Profile) (file : Path) (text : List Char) (line n : Nat) :
    ofText p file text (line + n) = (ofText p file text line).later n := by
  induction hlength : text.length using Nat.strong_induction_on generalizing text line with
  | _ length ih =>
    rw [ofText_eq, ofText_eq, statements_later, concat_later, List.map_map, List.map_map]
    refine congrArg _ (List.map_congr_left fun s hs ↦ ?_)
    have hlast : ((statements p text line).map (Statement.later n)).getLast? = some (s.later n) ↔
        (statements p text line).getLast? = some s := by
      rw [List.getLast?_map, Option.map_eq_some_iff]
      exact ⟨fun ⟨k, hk, heq⟩ ↦ Statement.later_injective heq ▸ hk, fun h ↦ ⟨s, h, rfl⟩⟩
    dsimp only [Function.comp_apply]
    rw [decide_eq_decide.2 hlast]
    exact ofStatement_later_of_group _ fun inner hinner line ↦
      ih inner.length (hlength ▸ length_lt_of_group hs hinner) inner line rfl

/-- A statement that stands later defines the same, so many lines later. -/
theorem ofStatement_later (isLast : Bool) :
    ofStatement p file (s.later n) isLast = (ofStatement p file s isLast).later n :=
  ofStatement_later_of_group isLast fun inner _ line ↦ ofText_later p file inner line n

theorem ofLine_later (l : LogicalLine) :
    ofLine p file (l.later n) = (ofLine p file l).later n := by
  cases hopen : l.leftOpen with
  | some t => simp [ofLine, LogicalLine.later, hopen, later, Diagnostic.later]
  | none =>
    simp only [ofLine, LogicalLine.later, hopen, Option.map_none]
    exact ofText_later ..

end Extraction

/-- A header and its body stay together when both stand later. -/
theorem LogicalLine.behind_later (p : Profile) (n : Nat) (dangling : Option LogicalLine)
    (l : LogicalLine) :
    (l.later n).behind p (dangling.map (later n)) = (l.behind p dangling).later n := by
  cases dangling with
  | none => rfl
  | some h =>
    have hopen : (l.later n).isOpen = l.isOpen := by simp [later, isOpen]
    have hbegins : (l.later n).beginsBody p = l.beginsBody p := rfl
    simp only [behind, Option.map_some, hopen, hbegins]
    split <;> rfl

namespace Findings

variable {p : Profile} {file : Path}

/-- Lines that stand later hold the same findings, so many lines later. -/
theorem ofLines_later (n : Nat) (dangling : Option LogicalLine) (ls : List LogicalLine) :
    ofLines p file (dangling.map (LogicalLine.later n)) (ls.map (LogicalLine.later n)) =
      (ofLines p file dangling ls).later n := by
  induction ls generalizing dangling with
  | nil => rfl
  | cons l ls ih =>
    rw [List.map_cons, ofLines, ofLines, LogicalLine.behind_later, Extraction.ofLine_later]
    have hrest := ih (Extraction.ofLine p file (l.behind p dangling)).dangling
    rw [Extraction.later, hrest]
    simp [later]

end Findings

/-! ### The lines of both parts -/

/-- The logical lines of a run of marks that is read from `s`; a line without marks is on `line`. -/
def linesOfMarks (line : Nat) (s : Nesting) (ms : List Mark) : List LogicalLine :=
  let runs := pieces (fun m _ ↦ m.endsLine) ms
  let open? := (s.afterMarks ms).outermostOpen?
  (runs.dropLast.filter fun run ↦ !isBlank (Mark.text run)).map (.ofMarks line none) ++
    (runs.getLast?.toList.filter fun run ↦ !isBlank (Mark.text run) || open?.isSome).map
      (.ofMarks line open?)

theorem logicalLines_eq_linesOfMarks (p : Profile) (text : List Char) :
    logicalLines p text = linesOfMarks 1 (.start 1) (marks p text) := rfl

/-- A run of marks that goes as far as the end of a line holds its lines, whatever follows. -/
theorem linesOfMarks_append {line : Nat} {s : Nesting} {front : List Mark} (behind : List Mark)
    (balanced : s.isBalanced = true) (ends : ∀ m ∈ front.getLast?, m.endsLine = true) :
    linesOfMarks line s (front ++ behind) =
      linesOfMarks line s front ++ linesOfMarks line (s.afterMarks front) behind := by
  have hclosed := Nesting.outermostOpen?_of_isBalanced
    (Nesting.isBalanced_afterMarks balanced ends)
  have hblank : isBlank [] = true := rfl
  have htext : Mark.text [] = [] := rfl
  rcases List.eq_nil_or_concat front with rfl | ⟨front, m, rfl⟩
  · simp [linesOfMarks, pieces, htext, hblank, show s.outermostOpen? = none from hclosed]
  · have hm : m.endsLine = true := ends m (by simp)
    have hne := pieces_ne_nil (fun m _ ↦ m.endsLine) behind
    have hfirst := pieces_append_separator front [] hm
    have hwhole : pieces (fun m _ ↦ m.endsLine) (front ++ [m] ++ behind) =
        pieces (fun m _ ↦ m.endsLine) front ++ pieces (fun m _ ↦ m.endsLine) behind := by
      rw [List.append_assoc]
      exact pieces_append_separator front behind hm
    rw [List.concat_eq_append] at hclosed ⊢
    simp only [linesOfMarks, Nesting.afterMarks_append s (front ++ [m]), hclosed, hwhole, hfirst,
      List.dropLast_append_of_ne_nil hne, List.getLast?_append, List.getLast?_eq_some_getLast hne]
    simp [pieces, htext, hblank]

theorem LogicalLine.ofMarks_congr {run : List Mark} (line line' : Nat)
    (leftOpen : Option OpenConstruct) (full : run ≠ []) :
    LogicalLine.ofMarks line leftOpen run = LogicalLine.ofMarks line' leftOpen run := by
  cases run with
  | nil => exact absurd rfl full
  | cons m run => rfl

/-- Every line that counts has a mark. -/
theorem linesOfMarks_congr {s : Nesting} (line line' : Nat) (ms : List Mark)
    (balanced : s.isBalanced = true) : linesOfMarks line s ms = linesOfMarks line' s ms := by
  refine congrArg₂ (· ++ ·) (List.map_congr_left fun run hrun ↦ ?_)
    (List.map_congr_left fun run hrun ↦ ?_)
  · exact LogicalLine.ofMarks_congr line line' none (ne_nil_of_visible (List.mem_filter.1 hrun).2)
  · rw [List.mem_filter, Option.mem_toList] at hrun
    exact LogicalLine.ofMarks_congr line line' _ (ne_nil_of_counts balanced hrun.1 hrun.2)

/-! ### Later lines -/

theorem LogicalLine.ofMarks_later {n bytes line : Nat} {leftOpen : Option OpenConstruct}
    {run run' : List Mark} (h : List.Forall₂ (Mark.Related (Nesting.LaterBy n) bytes) run run') :
    LogicalLine.ofMarks (line + n) (leftOpen.map (OpenConstruct.later n)) run' =
      (LogicalLine.ofMarks line leftOpen run).later n := by
  have htext := text_eq_of_forall₂ Mark.Related.char h
  cases h with
  | nil => rfl
  | cons hm _ => simp [ofMarks, later, htext, Mark.line, hm.before.line]

theorem forall₂_dropLast {α β : Type} {R : α → β → Prop} {l : List α} {l' : List β}
    (h : List.Forall₂ R l l') : List.Forall₂ R l.dropLast l'.dropLast := by
  rw [List.dropLast_eq_take, List.dropLast_eq_take, h.length_eq]
  exact List.forall₂_take _ h

theorem forall₂_getLast? {α β : Type} {R : α → β → Prop} {l : List α} {l' : List β}
    (h : List.Forall₂ R l l') : List.Forall₂ R l.getLast?.toList l'.getLast?.toList := by
  induction h with
  | nil => exact .nil
  | cons hab hrest ih =>
    cases hrest with
    | nil => exact .cons hab .nil
    | cons _ _ => simpa only [List.getLast?_cons_cons] using ih

theorem linesOfMarks_later {n bytes line : Nat} {s t : Nesting} {ms ns : List Mark}
    (h : List.Forall₂ (Mark.Related (Nesting.LaterBy n) bytes) ms ns)
    (hafter : (s.afterMarks ms).LaterBy n (t.afterMarks ns)) :
    linesOfMarks (line + n) t ns = (linesOfMarks line s ms).map (LogicalLine.later n) := by
  have hpieces := @forall₂_pieces _ (fun m _ ↦ m.endsLine)
    (fun h _ ↦ h.endsLine Nesting.LaterBy.toLike) _ _ h
  -- The filter keeps the same runs on both sides, and each of them becomes the same line.
  have hkept {leftOpen : Option OpenConstruct} {keep : Bool} {runs runs' : List (List Mark)}
      (hruns : List.Forall₂ (List.Forall₂ (Mark.Related (Nesting.LaterBy n) bytes)) runs runs') :
      (runs'.filter fun run ↦ !isBlank (Mark.text run) || keep).map
          (.ofMarks (line + n) (leftOpen.map (OpenConstruct.later n))) =
        ((runs.filter fun run ↦ !isBlank (Mark.text run) || keep).map
          (.ofMarks line leftOpen)).map (LogicalLine.later n) := by
    induction hruns with
    | nil => rfl
    | cons hrun _ ih =>
      rw [List.filter_cons, List.filter_cons, text_eq_of_forall₂ Mark.Related.char hrun]
      split
      · simp only [List.map_cons, LogicalLine.ofMarks_later hrun, ih]
      · exact ih
  have hcomplete := @hkept none false _ _ (forall₂_dropLast hpieces)
  simp only [Bool.or_false, Option.map_none] at hcomplete
  rw [linesOfMarks, linesOfMarks, List.map_append, hcomplete, hafter.outermostOpen?,
    Option.isSome_map]
  exact congrArg _ (hkept (forall₂_getLast? hpieces))

theorem afterMarks_of_forall₂ {R : Nesting → Nesting → Prop} {bytes : Nat} {s t : Nesting}
    {ms ns : List Mark} (h : List.Forall₂ (Mark.Related R bytes) ms ns) (start : R s t) :
    R (s.afterMarks ms) (t.afterMarks ns) := by
  induction h generalizing s t with
  | nil => exact start
  | cons hm _ ih =>
    rw [Nesting.afterMarks_cons, Nesting.afterMarks_cons]
    exact ih hm.after

/-! ### The cut -/

section Cut

variable {p : Profile} {text : List Char}

theorem afterMarks_marks (p : Profile) (text : List Char) :
    (Nesting.start 1).afterMarks (marks p text) = (Nesting.start 1).afterText p text [] := by
  rw [Nesting.afterText, marksAhead_nil, marks]

theorem atWord_of_cut (cut : ∀ m ∈ (marks p text).getLast?, m.endsLine = true) :
    ((Nesting.start 1).afterText p text []).AtWord := by
  refine Nesting.atWord_afterText (Nesting.atWord_start 1) ?_
  rwa [marksAhead_nil]

/-- A text that is read as going as far as the end of a line is read alike whatever follows. -/
theorem marksAhead_congr_of_ends {ahead : List Char}
    (ends : ∀ m ∈ (marksAhead p ahead (.start 1) 0 text).getLast?, m.endsLine = true)
    (more : List Char) :
    marksAhead p ahead (.start 1) 0 text = marksAhead p more (.start 1) 0 text := by
  have hword := Nesting.atWord_afterText (Nesting.atWord_start 1) ends
  have hdone : ¬ ((Nesting.start 1).afterText p text ahead).Waits := by
    rintro ⟨doc, hdoc, -⟩
    simp [(Nesting.isBalanced_iff.1 hword.balanced).2.2.1] at hdoc
  rcases List.eq_nil_or_concat text with rfl | ⟨lines, c, rfl⟩
  · rfl
  · rw [List.concat_eq_append] at ends hdone ⊢
    have hlast := congrArg List.getLast? (text_marksAhead p ahead (.start 1) 0 (lines ++ [c]))
    rw [Mark.text, List.getLast?_map, List.getLast?_concat, Option.map_eq_some_iff] at hlast
    obtain ⟨m, hm, hchar⟩ := hlast
    obtain rfl : c = '\n' := hchar.symm.trans (Mark.endsLine_iff.1 (ends m hm)).1
    exact Nesting.marksAhead_lines_congr 0 ahead more List.not_mem_nil hdone

/-- A part of the marks of a text that goes as far as the end of a line is read alike on its own. -/
theorem eq_marks_of_ends {front behind : List Mark} (h : marks p text = front ++ behind)
    (ends : ∀ m ∈ front.getLast?, m.endsLine = true) : front = marks p (Mark.text front) := by
  obtain ⟨-, hread, -⟩ := marksFrom_eq_append h
  rw [hread] at ends
  rw [marks, ← marksAhead_nil, ← marksAhead_congr_of_ends ends []]
  exact hread

/-- In front of a cut, the text is read as it is on its own. -/
theorem marksAhead_of_cut (cut : ∀ m ∈ (marks p text).getLast?, m.endsLine = true)
    (more : List Char) : marksAhead p more (.start 1) 0 text = marks p text := by
  rw [marks, ← marksAhead_nil] at cut ⊢
  exact (marksAhead_congr_of_ends cut more).symm

/-- A text behind a cut holds the logical lines that it holds on its own, so many lines later. -/
theorem logicalLines_append (cut : ∀ m ∈ (marks p text).getLast?, m.endsLine = true)
    (more : List Char) :
    logicalLines p (text ++ more) =
      logicalLines p text ++ (logicalLines p more).map (LogicalLine.later (text.count '\n')) := by
  have hword := atWord_of_cut cut
  have hlater : (Nesting.start 1).LaterBy (text.count '\n')
      ((Nesting.start 1).afterText p text []) :=
    (Nesting.atWord_start 1).laterBy hword (Nesting.line_afterText ..)
  have hmarks := forall₂_marksFrom (fun h c rest ↦ h.step c rest) hlater 0 (byteLength text) more
    (p := p)
  have hwhole := marksFrom_append p (.start 1) 0 text more
  rw [marksAhead_of_cut cut, afterMarks_marks] at hwhole
  rw [logicalLines_eq_linesOfMarks, marks, hwhole, linesOfMarks_append _ rfl cut, afterMarks_marks,
    linesOfMarks_congr 1 (1 + text.count '\n') _ hword.balanced]
  exact congrArg _ (linesOfMarks_later hmarks (afterMarks_of_forall₂ hmarks hlater))

end Cut

/-- The findings in a file of two parts, the first of which goes as far as a line that ends a
statement and leaves no header dangling, are those of the first part and then those of the second,
so many lines later. -/
theorem findings_append {d : Dialect} {path : Path} {text : List Char}
    (cut : ∀ m ∈ (marks d.profile text).getLast?, m.endsLine = true)
    (settled : Findings.danglingAfter d.profile path none (logicalLines d.profile text) = none)
    (more : List Char) :
    ∃ f g, (⟨path, text⟩ : Source).findings (some d) = .ok f ∧
      (⟨path, more⟩ : Source).findings (some d) = .ok g ∧
      (⟨path, text ++ more⟩ : Source).findings (some d) =
        .ok (f.append (g.later (text.count '\n'))) := by
  refine ⟨_, _, rfl, rfl, ?_⟩
  show Except.ok (Findings.ofSource d.profile ⟨path, text ++ more⟩) = _
  rw [Findings.ofSource, logicalLines_append cut, Findings.ofLines_append, settled]
  have hlater := @Findings.ofLines_later d.profile path (text.count '\n') none
    (logicalLines d.profile more)
  rw [Option.map_none] at hlater
  rw [hlater]
  rfl

/-- A function is found below a comment, and a quote that is left open is reported where it is. -/
theorem findings_append_of_openQuote :
    (⟨⟨"rc"⟩, "alias a=1\n# x\n".toList ++ "g() \x7b :; \x7d\nalias b='".toList⟩ : Source).findings
        (some .bash) =
      .ok ⟨[⟨"a", .alias, "1", ⟨"rc"⟩, 1⟩, ⟨"g", .function, ":;", ⟨"rc"⟩, 3⟩],
        [.unterminated ⟨"rc"⟩ ⟨.singleQuote, 4⟩]⟩ := by
  have hfirst : (⟨⟨"rc"⟩, "alias a=1\n# x\n".toList⟩ : Source).findings (some .bash) =
      .ok ⟨[⟨"a", .alias, "1", ⟨"rc"⟩, 1⟩], []⟩ := by decide +kernel
  have hsecond : (⟨⟨"rc"⟩, "g() \x7b :; \x7d\nalias b='".toList⟩ : Source).findings (some .bash) =
      .ok ⟨[⟨"g", .function, ":;", ⟨"rc"⟩, 1⟩], [.unterminated ⟨"rc"⟩ ⟨.singleQuote, 2⟩]⟩ := by
    decide +kernel
  obtain ⟨f, g, hf, hg, hwhole⟩ := @findings_append .bash ⟨"rc"⟩
    "alias a=1\n# x\n".toList (by decide +kernel) (by decide +kernel)
    "g() \x7b :; \x7d\nalias b='".toList
  rw [hfirst] at hf
  rw [hsecond] at hg
  cases hf
  cases hg
  exact hwhole

end ShellCatalog
