import ShellCatalog.Proofs.LineTiling

/-!
# Blank lines and comments between statements

A line may be put between two parts of a file. If it is blank, or a comment as a whole, it defines
nothing, and the question is what becomes of the parts.

**A blank line is no logical line**, so both parts are read as before, and everything behind the
line is found one line later (`Findings.contents_ofLines_later`). A header that dangles in front of
it keeps its body.

**A comment is a logical line without a statement** (`Extraction.ofLine_comment`). It begins no
body, so a header that dangles in front of it is given up, and the lines behind it are read as a
file of their own. What they define changes only if the first of them is the body of this header:
then the function is lost, and a body between braces is read as a group.
-/

namespace ShellCatalog

/-! ### Contents -/

/-- A definition without the place where it stands. -/
def Definition.content (d : Definition) : Kind × String × String :=
  (d.kind, d.name, d.body)

/-- What a file defines, wherever it stands there. -/
def Findings.contents (f : Findings) : List (Kind × String × String) :=
  f.definitions.map Definition.content

/-- The first of the lines is a body for a header in front of them. -/
def opensBody (p : Profile) (ls : List LogicalLine) : Bool :=
  ls.head?.any fun l ↦ !l.isOpen && l.beginsBody p

@[simp] theorem Findings.contents_later (n : Nat) (f : Findings) :
    (f.later n).contents = f.contents := by
  simp only [contents, later, List.map_map]
  rfl

@[simp] theorem Findings.contents_append (f g : Findings) :
    (f.append g).contents = f.contents ++ g.contents :=
  List.map_append

theorem LogicalLine.later_later (m n : Nat) (l : LogicalLine) :
    (l.later m).later n = l.later (m + n) := by
  cases hopen : l.leftOpen <;> simp [later, OpenConstruct.later, hopen, Nat.add_assoc]

theorem opensBody_later (p : Profile) (n : Nat) (ls : List LogicalLine) :
    opensBody p (ls.map (LogicalLine.later n)) = opensBody p ls := by
  cases ls with
  | nil => rfl
  | cons l ls => simp [opensBody, LogicalLine.later, LogicalLine.isOpen, LogicalLine.beginsBody]

/-- Behind a header, a later line is joined to it as before, or stays a later line. -/
theorem LogicalLine.behind_later_eq (p : Profile) (n : Nat) (dangling : Option LogicalLine)
    (l : LogicalLine) :
    (l.later n).behind p dangling = l.behind p dangling ∨
      (l.later n).behind p dangling = (l.behind p dangling).later n := by
  cases dangling with
  | none => exact .inr rfl
  | some h =>
    have hopen : (l.later n).isOpen = l.isOpen := by simp [later, isOpen]
    have hbegins : (l.later n).beginsBody p = l.beginsBody p := rfl
    simp only [behind, hopen, hbegins]
    split
    · exact .inl rfl
    · exact .inr rfl

/-- A line that is no body stays as it is behind a header. -/
theorem LogicalLine.behind_of_not_opensBody {p : Profile} {dangling : Option LogicalLine}
    {l : LogicalLine} {ls : List LogicalLine}
    (h : dangling = none ∨ opensBody p (l :: ls) = false) : l.behind p dangling = l := by
  rcases h with rfl | h
  · rfl
  · cases dangling with
    | none => rfl
    | some header => exact if_neg (by simpa [opensBody] using h)

namespace Findings

variable {p : Profile} {file : Path}

theorem contents_ofLines_cons (dangling : Option LogicalLine) (l : LogicalLine)
    (ls : List LogicalLine) :
    (ofLines p file dangling (l :: ls)).contents =
      (Extraction.ofLine p file (l.behind p dangling)).definitions.map Definition.content ++
        (ofLines p file (Extraction.ofLine p file (l.behind p dangling)).dangling ls).contents :=
  List.map_append

/-- Lines that move away from a header in front of them define the same. -/
theorem contents_ofLines_later (n : Nat) (dangling : Option LogicalLine) (ls : List LogicalLine) :
    (ofLines p file dangling (ls.map (LogicalLine.later n))).contents =
      (ofLines p file dangling ls).contents := by
  induction ls generalizing dangling with
  | nil => rfl
  | cons l ls ih =>
    rw [List.map_cons, contents_ofLines_cons, contents_ofLines_cons]
    rcases LogicalLine.behind_later_eq p n dangling l with hbehind | hbehind
    · rw [hbehind, ih]
    · -- From here on everything is later, the header that dangles next as well.
      rw [hbehind, Extraction.ofLine_later]
      simp only [Extraction.later, ofLines_later, contents_later, List.map_map]
      rfl

/-- If the first line is no body for it, a header in front of the lines does not matter. -/
theorem ofLines_of_not_opensBody {dangling : Option LogicalLine} {ls : List LogicalLine}
    (h : dangling = none ∨ opensBody p ls = false) :
    ofLines p file dangling ls = ofLines p file none ls := by
  cases ls with
  | nil => rfl
  | cons l ls =>
    rw [ofLines, LogicalLine.behind_of_not_opensBody h]
    rfl

end Findings

/-! ### The line between -/

section Line

variable {d : Dialect} {line : List Char}

/-- A newline that leaves nothing open is a cut. -/
theorem endsLine_of_newline {p : Profile} {text : List Char} {t : Nesting} {role : CharRole}
    (ends : ((Nesting.start 1).afterText p text ['\n']).step p '\n' [] = (t, role))
    (balanced : t.isBalanced = true) (literal : role ≠ .escaped) :
    ∀ m ∈ (marks p (text ++ ['\n'])).getLast?, m.endsLine = true := by
  intro m hm
  rw [marks, marksFrom_append, Nesting.afterMarks_marksAhead, marksFrom_cons, ends, marksFrom_nil,
    List.getLast?_concat] at hm
  obtain rfl := Option.some_inj.1 hm
  exact Mark.endsLine_iff.2 ⟨rfl, literal, balanced⟩

/-- A blank text holds no logical line. -/
theorem logicalLines_of_isBlank {text : List Char} (blank : isBlank text = true) :
    logicalLines d.profile text = [] := by
  refine List.eq_nil_iff_forall_not_mem.2 fun l hl ↦ ?_
  have hvisible := visible_of_mem_logicalLines hl
  obtain ⟨front, run, behind, hstands⟩ := exists_standsAt hl
  have htext := hstands.append_eq
  rw [htext, isBlank, List.all_append, List.all_append] at blank
  simp only [Bool.and_eq_true] at blank
  exact absurd (blank.1.2.symm.trans hvisible) (by decide)

/-- A blank line ends as it begins, with nothing open. -/
theorem endsLine_of_isBlank (blank : isBlank line = true) :
    ∀ m ∈ (marks d.profile (line ++ ['\n'])).getLast?, m.endsLine = true := by
  have hbalanced : ((Nesting.start 1).afterText d.profile line ['\n']).isBalanced = true :=
    Nesting.isBalanced_afterText_blank rfl blank
  exact endsLine_of_newline (Nesting.step_blank [] hbalanced (by decide))
    (Nesting.isBalanced_iff.2 (Nesting.isBalanced_iff.1 hbalanced)) (by decide)

/-- Every character of a comment that fills its line is comment. -/
theorem mem_marks_comment {number : Nat} (hash : line.head? = some '#') (single : '\n' ∉ line)
    {ahead : List Char} {m : Mark}
    (hm : m ∈ marksAhead d.profile ahead (.start number) 0 line) :
    m.isTopComment = true ∧ m.char ∈ line := by
  obtain ⟨rest, rfl⟩ := List.head?_eq_some_iff.1 hash
  rw [List.mem_cons, not_or] at single
  rw [marksAhead_cons, Nesting.step_hash _ rfl rfl rfl] at hm
  rcases List.mem_cons.1 hm with rfl | hm
  · exact ⟨rfl, List.mem_cons_self⟩
  · obtain ⟨hrole, hchar, hgroups⟩ := Nesting.mem_marksAhead_comment rfl rfl single.2 hm
    refine ⟨?_, List.mem_cons_of_mem _ hchar⟩
    simp [Mark.isTopComment, Mark.depth, Nesting.depth, Nesting.start, hrole, hgroups]

/-- The line of a comment ends with nothing open. -/
theorem exists_step_comment (hash : line.head? = some '#') (single : '\n' ∉ line) :
    ∃ t : Nesting, ((Nesting.start 1).afterText d.profile line ['\n']).step d.profile '\n' [] =
      (t, .code) ∧ t.isBalanced = true := by
  obtain ⟨rest, rfl⟩ := List.head?_eq_some_iff.1 hash
  rw [List.mem_cons, not_or] at single
  rw [Nesting.afterText_cons, Nesting.step_hash _ rfl rfl rfl,
    Nesting.afterText_comment _ rfl rfl single.2, Nesting.step_commentEnd _ rfl rfl rfl]
  exact ⟨_, rfl, rfl⟩

/-- A comment is a logical line. -/
theorem logicalLines_comment (hash : line.head? = some '#') (single : '\n' ∉ line) :
    logicalLines d.profile (line ++ ['\n']) = [⟨line, 1, none⟩] := by
  obtain ⟨t, hstep, hbalanced⟩ := exists_step_comment hash single
  refine logicalLines_of_line ?_ (fun m hm ↦ ?_) hstep hbalanced (by decide)
  · obtain ⟨rest, rfl⟩ := List.head?_eq_some_iff.1 hash
    rfl
  · by_contra hends
    rw [Bool.not_eq_false] at hends
    exact single ((Mark.endsLine_iff.1 hends).1 ▸ (mem_marks_comment hash single hm).2)

/-- Between marks that all separate stands nothing. -/
theorem eq_nil_of_mem_pieces {separates : Mark → Option Mark → Bool} {ms run : List Mark}
    (h : ∀ m ∈ ms, ∀ next, separates m next = true) (hrun : run ∈ pieces separates ms) :
    run = [] := by
  induction ms with
  | nil => exact List.mem_singleton.1 hrun
  | cons m rest ih =>
    rw [pieces, if_pos (h m List.mem_cons_self _)] at hrun
    rcases List.mem_cons.1 hrun with rfl | hrun
    · rfl
    · exact ih (fun n hn ↦ h n (List.mem_cons_of_mem _ hn)) hrun

/-- A comment holds no statement, so it defines nothing and leaves no header dangling. -/
theorem Extraction.ofLine_comment (file : Path) (number : Nat) (hash : line.head? = some '#')
    (single : '\n' ∉ line) : ofLine d.profile file ⟨line, number, none⟩ = empty := by
  have hnone : statements d.profile line number = [] := by
    rw [statements, List.filterMap_eq_nil_iff]
    intro run hrun
    rw [eq_nil_of_mem_pieces (fun m hm next ↦ ?_) hrun]
    · rfl
    · rw [marks, ← marksAhead_nil] at hm
      rw [Mark.separatesStatements, (mem_marks_comment hash single hm).1, Bool.true_or]
  show ofText d.profile file line number = empty
  rw [ofText_eq, hnone]
  rfl

/-- A comment gives a header up that dangles in front of it. -/
theorem Findings.ofLines_comment (file : Path) (number : Nat) (dangling : Option LogicalLine)
    (ls : List LogicalLine) (hash : line.head? = some '#') (single : '\n' ∉ line) :
    ofLines d.profile file dangling (⟨line, number, none⟩ :: ls) =
      ofLines d.profile file none ls := by
  have hnobody : opensBody d.profile (⟨line, number, none⟩ :: ls) = false := by
    obtain ⟨rest, rfl⟩ := List.head?_eq_some_iff.1 hash
    cases d <;> rfl
  rw [ofLines_of_not_opensBody (.inr hnobody)]
  show (⟨_, _⟩ : Findings) = _
  simp only [LogicalLine.behind, Extraction.ofLine_comment file number hash single,
    Extraction.empty, List.nil_append]

end Line

/-! ### The two parts -/

section Parts

variable {d : Dialect} {path : Path} {text line : List Char}

/-- Behind a cut, a header that dangles is handed on to the second part. -/
theorem Findings.ofSource_append (cut : ∀ m ∈ (marks d.profile text).getLast?, m.endsLine = true)
    (more : List Char) :
    ofSource d.profile ⟨path, text ++ more⟩ =
      (ofSource d.profile ⟨path, text⟩).append
        (ofLines d.profile path (danglingAfter d.profile path none (logicalLines d.profile text))
          ((logicalLines d.profile more).map (LogicalLine.later (text.count '\n')))) := by
  rw [ofSource, logicalLines_append cut, ofLines_append]
  rfl

/-- The logical lines of a text that begins with a line of its own. -/
theorem logicalLines_line_append (single : '\n' ∉ line)
    (cut : ∀ m ∈ (marks d.profile (line ++ ['\n'])).getLast?, m.endsLine = true)
    (more : List Char) :
    logicalLines d.profile (line ++ '\n' :: more) =
      logicalLines d.profile (line ++ ['\n']) ++
        (logicalLines d.profile more).map (LogicalLine.later 1) := by
  have hcount : (line ++ ['\n']).count '\n' = 1 := by
    rw [List.count_append, List.count_eq_zero.2 single]
    rfl
  have hsplit : line ++ '\n' :: more = (line ++ ['\n']) ++ more := List.append_cons ..
  rw [hsplit, logicalLines_append cut, hcount]

/-- A blank line in front of a text only moves its lines. -/
theorem logicalLines_blank_append (single : '\n' ∉ line) (blank : isBlank line = true)
    (more : List Char) :
    logicalLines d.profile (line ++ '\n' :: more) =
      (logicalLines d.profile more).map (LogicalLine.later 1) := by
  have hnone : logicalLines d.profile (line ++ ['\n']) = [] := by
    refine logicalLines_of_isBlank ?_
    rw [isBlank, List.all_append]
    exact Bool.and_eq_true_iff.2 ⟨blank, rfl⟩
  rw [logicalLines_line_append single (endsLine_of_isBlank blank), hnone, List.nil_append]

/-- Behind a blank line, the second part follows the first. -/
theorem Findings.contents_insertBlank
    (cut : ∀ m ∈ (marks d.profile text).getLast?, m.endsLine = true) (single : '\n' ∉ line)
    (blank : isBlank line = true) (more : List Char) :
    (ofSource d.profile ⟨path, text ++ (line ++ '\n' :: more)⟩).contents =
      (ofSource d.profile ⟨path, text ++ more⟩).contents := by
  rw [ofSource_append cut, ofSource_append cut, logicalLines_blank_append single blank,
    contents_append, contents_append, contents_ofLines_later, contents_ofLines_later,
    contents_ofLines_later]

/-- Behind a comment, the second part is read as a file of its own. -/
theorem Findings.ofSource_insertComment
    (cut : ∀ m ∈ (marks d.profile text).getLast?, m.endsLine = true) (single : '\n' ∉ line)
    (hash : line.head? = some '#') (more : List Char) :
    ofSource d.profile ⟨path, text ++ (line ++ '\n' :: more)⟩ =
      (ofSource d.profile ⟨path, text⟩).append
        ((ofSource d.profile ⟨path, more⟩).later (text.count '\n' + 1)) := by
  obtain ⟨t, hstep, hbalanced⟩ := exists_step_comment (d := d) hash single
  have hends := endsLine_of_newline hstep hbalanced (by decide)
  set n := text.count '\n'
  have hlater : ((logicalLines d.profile more).map (LogicalLine.later 1)).map
      (LogicalLine.later n) = (logicalLines d.profile more).map (LogicalLine.later (n + 1)) := by
    rw [List.map_map, Nat.add_comm]
    exact List.map_congr_left fun l _ ↦ LogicalLine.later_later 1 n l
  rw [ofSource_append cut, logicalLines_line_append single hends, logicalLines_comment hash single,
    List.map_append, hlater]
  refine congrArg _ ((ofLines_comment path (1 + n) _ _ hash single).trans ?_)
  exact ofLines_later (n + 1) none (logicalLines d.profile more)

/-- A blank line between two parts of a file changes nothing but lines, and nor does a comment,
unless a header dangles in front of it and its body follows. Behind a comment, the second part is
read as a file of its own. -/
theorem findings_insertLine
    (cut : ∀ m ∈ (marks d.profile text).getLast?, m.endsLine = true) (single : '\n' ∉ line)
    (neutral : isBlank line = true ∨ line.head? = some '#') (more : List Char) :
    ∃ f g first second,
      (⟨path, text ++ more⟩ : Source).findings (some d) = .ok f ∧
      (⟨path, text ++ (line ++ '\n' :: more)⟩ : Source).findings (some d) = .ok g ∧
      (⟨path, text⟩ : Source).findings (some d) = .ok first ∧
      (⟨path, more⟩ : Source).findings (some d) = .ok second ∧
      (isBlank line = true → g.contents = f.contents) ∧
      (Findings.danglingAfter d.profile path none (logicalLines d.profile text) = none ∨
          opensBody d.profile (logicalLines d.profile more) = false →
        g.contents = f.contents) ∧
      (line.head? = some '#' → g = first.append (second.later (text.count '\n' + 1))) := by
  refine ⟨_, _, _, _, rfl, rfl, rfl, rfl, fun blank ↦ ?_, fun settled ↦ ?_, fun hash ↦ ?_⟩
  · exact Findings.contents_insertBlank cut single blank more
  · rcases neutral with blank | hash
    · exact Findings.contents_insertBlank cut single blank more
    · rw [Findings.ofSource_insertComment cut single hash, Findings.ofSource_append cut,
        Findings.ofLines_of_not_opensBody (by rwa [opensBody_later]), Findings.contents_append,
        Findings.contents_append, Findings.contents_later, Findings.contents_ofLines_later]
      rfl
  · exact Findings.ofSource_insertComment cut single hash more

/-- Between a header and its body, a blank line changes no content, but a comment loses the
function, and what the body would run is found instead. -/
theorem findings_insertLine_of_header :
    (∃ g, (⟨⟨"rc"⟩, "f()\n".toList ++ (" ".toList ++ '\n' :: "\x7b alias a=1; \x7d\n".toList)⟩ :
          Source).findings (some .bash) = .ok g ∧
        g.contents = [(.function, "f", "alias a=1;")]) ∧
      (⟨⟨"rc"⟩, "f()\n".toList ++ ("# c".toList ++ '\n' :: "\x7b alias a=1; \x7d\n".toList)⟩ :
          Source).findings (some .bash) =
        .ok ⟨[⟨"a", .alias, "1", ⟨"rc"⟩, 3⟩], []⟩ := by
  constructor
  · have hwhole : (⟨⟨"rc"⟩, "f()\n".toList ++ "\x7b alias a=1; \x7d\n".toList⟩ : Source).findings
        (some .bash) = .ok ⟨[⟨"f", .function, "alias a=1;", ⟨"rc"⟩, 1⟩], []⟩ := by
      decide +kernel
    obtain ⟨f, g, -, -, hf, hg, -, -, hblank, -⟩ :=
      @findings_insertLine .bash ⟨"rc"⟩ "f()\n".toList " ".toList (by decide +kernel) (by decide)
        (.inl (by decide)) "\x7b alias a=1; \x7d\n".toList
    rw [hwhole] at hf
    cases hf
    exact ⟨g, hg, hblank (by decide)⟩
  · have hfirst : (⟨⟨"rc"⟩, "f()\n".toList⟩ : Source).findings (some .bash) = .ok ⟨[], []⟩ := by
      decide +kernel
    have hsecond : (⟨⟨"rc"⟩, "\x7b alias a=1; \x7d\n".toList⟩ : Source).findings (some .bash) =
        .ok ⟨[⟨"a", .alias, "1", ⟨"rc"⟩, 1⟩], []⟩ := by
      decide +kernel
    obtain ⟨f, g, first, second, -, hg, hf, hs, -, -, hcomment⟩ :=
      @findings_insertLine .bash ⟨"rc"⟩ "f()\n".toList "# c".toList (by decide +kernel) (by decide)
        (.inr rfl) "\x7b alias a=1; \x7d\n".toList
    rw [hfirst] at hf
    rw [hsecond] at hs
    cases hf
    cases hs
    rw [hcomment rfl] at hg
    exact hg

end Parts

end ShellCatalog
