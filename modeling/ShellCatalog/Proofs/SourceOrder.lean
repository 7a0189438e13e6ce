import ShellCatalog.Proofs.DefinitionPlaces

/-!
# Definitions in the order of the file

The commands of a line stand in order, the logical lines of a file do, and what is found carries the
line of its command. So definitions come in the order of their lines, except where a line is joined
to a header: it is then read from the line of the header on.

**A header dangles if no statement follows it in the text that holds it.** Outside every group this
text is its logical line, and only blanks, comments and separators stand behind the header there
(`exists_behind_last`). In a brace group it is the inside of the group, so the rest of the line may
define something, which is then found before the header has its body (`Join`).

**The joins decide** (`inOrder_ofSource_iff`): what a line defines up to its header stands above
everything that follows from the joined line on (`Join.line_le_or_mem_behind`), and what it defines
behind a header in a group is all that can be out of order.
-/

namespace ShellCatalog

/-! ### Commands in order -/

/-- The definitions stand in the order of their lines. -/
def Definition.InOrder (ds : List Definition) : Prop :=
  ds.Pairwise fun a b ↦ a.line ≤ b.line

section Commands

variable {p : Profile} {file : Path} {text : List Char} {line : Nat} {c : Command}

/-- Of two beginnings of a text, that with fewer bytes begins the other. -/
theorem isPrefix_of_byteLength_le {s t : List Char} (hs : s <+: text) (ht : t <+: text)
    (h : byteLength s ≤ byteLength t) : s <+: t := by
  rcases List.prefix_or_prefix_of_prefix hs ht with hst | ⟨more, rfl⟩
  · exact hst
  · cases more with
    | nil => simp
    | cons c more =>
      have hsize := c.utf8Size_pos
      simp only [byteLength_append, byteLength_cons] at h
      omega

theorem pairwise_line_commands (p : Profile) (text : List Char) (line : Nat) :
    (commands p text line).Pairwise fun b c ↦ b.statement.line ≤ c.statement.line := by
  refine (pairwise_commands p text line).imp_of_mem fun {b c} hb hc hapart ↦ ?_
  obtain ⟨front, behind, hb, -⟩ := exists_of_mem_commands hb
  obtain ⟨front', behind', hc, -⟩ := exists_of_mem_commands hc
  have hprefix : front <+: front' := by
    refine @isPrefix_of_byteLength_le text front front' ?_ ?_ ?_
    · exact ⟨_, by rw [hb.text_eq, List.append_assoc]⟩
    · exact ⟨_, by rw [hc.text_eq, List.append_assoc]⟩
    · rw [← hb.offset_eq, ← hc.offset_eq]
      omega
  rw [hb.line_eq, hc.line_eq]
  exact lineAfter_mono hprefix.sublist

/-- What the commands of a text define is in order. -/
theorem inOrder_commands {cs : List Command}
    (h : cs.Pairwise fun b c ↦ b.statement.line ≤ c.statement.line) :
    Definition.InOrder (cs.flatMap fun c ↦ (c.extraction p file).definitions) := by
  have hline (c : Command) : ∀ d ∈ (c.extraction p file).definitions, d.line = c.statement.line :=
    (Extraction.line_of_ofCommand c.statement c.isLast).1
  refine List.pairwise_flatMap.2 ⟨fun c _ ↦ ?_, h.imp fun hbc a ha b hb ↦ ?_⟩
  · exact List.pairwise_of_forall_mem_list fun a ha b hb ↦ by rw [hline c a ha, hline c b hb]
  · rwa [hline _ a ha, hline _ b hb]

/-- The last command outside every group is the last command. -/
theorem commands_of_isLast (hc : c ∈ commands p text line) (top : c.groups = 0)
    (last : c.isLast = true) :
    ∃ s front, (statements p text line).getLast? = some s ∧ c.statement = s.command p ∧
      commands p text line = front ++ [c] := by
  rw [commands_eq, List.mem_flatMap] at hc
  obtain ⟨s, hs, hc⟩ := hc
  rcases Statement.mem_commands_iff.1 hc with ⟨hnone, rfl⟩ | ⟨inner, -, b, -, rfl⟩
  · have hlast : (statements p text line).getLast? = some s := of_decide_eq_true last
    obtain ⟨others, hothers⟩ := List.getLast?_eq_some_iff.1 hlast
    have hcommands : s.commands p ((statements p text line).getLast? = some s) =
        [⟨s.command p, (statements p text line).getLast? = some s, 0⟩] := by
      rw [Statement.commands, hnone]
    let ofStatement (t : Statement) : List Command :=
      t.commands p ((statements p text line).getLast? = some t)
    refine ⟨s, others.flatMap ofStatement, hlast, rfl, ?_⟩
    calc commands p text line
        = (statements p text line).flatMap ofStatement := commands_eq p text line
      _ = (others ++ [s]).flatMap ofStatement := congrArg (·.flatMap ofStatement) hothers
      _ = others.flatMap ofStatement ++ ofStatement s := by simp
      _ = _ := by rw [show ofStatement s = _ from hcommands]
  · exact absurd top (Nat.succ_ne_zero _)

/-- Behind the last statement of a text stand blanks, comments and separators. -/
theorem exists_behind_last {s : Statement} (hs : (statements p text line).getLast? = some s) :
    ∃ front behind, (s.command p).StandsBetween text line front (Mark.text behind) ∧
      behind <:+ marks p text line ∧ ∀ m ∈ behind, m.isBetweenStatements = true := by
  have hmem := List.mem_of_getLast? hs
  obtain ⟨front, body, behind, hstands⟩ := s.exists_standsAt hmem
  obtain ⟨leading, -, hcommand⟩ := hstands.standsBetween.command (p := p)
  refine ⟨_, behind, hcommand, ⟨front ++ body, by rw [hstands.marks_eq, List.append_assoc]⟩,
    fun m hm ↦ ?_⟩
  obtain ⟨before, after, rfl⟩ := List.append_of_mem hm
  have hmarks : marks p text line = (front ++ body ++ before) ++ m :: after := by
    rw [hstands.marks_eq]
    simp
  have hoffset := offset_eq_of_marksFrom hmarks
  refine (tile_statements p text line).covered m (hmarks ▸ by simp) fun t ht hcovers ↦ ?_
  -- Every statement ends where the last one does, or in front of it.
  have hend : t.offset + byteLength t.text ≤ s.offset + byteLength s.text := by
    have hapart := pairwise_statements p text line
    obtain ⟨others, hothers⟩ := List.getLast?_eq_some_iff.1 hs
    rw [hothers, List.pairwise_append] at hapart
    rw [hothers, List.mem_append, List.mem_singleton] at ht
    rcases ht with ht | rfl
    · have hbefore := hapart.2.2 t ht s (by simp)
      omega
    · exact Nat.le_refl _
  have hlength := hcovers.2
  rw [Mark.text_append, Mark.text_append, byteLength_append, byteLength_append,
    ← hstands.offset_eq, ← hstands.text_eq] at hoffset
  omega

end Commands

/-! ### Between two logical lines -/

/-- A logical line ends where one of two neighbours ends, or above it, or begins where the other
begins, or below it. -/
theorem le_of_mem_logicalLines {p : Profile} {text : List Char} {before after : List LogicalLine}
    {k l m : LogicalLine} (lines : logicalLines p text = before ++ k :: l :: after)
    (hm : m ∈ logicalLines p text) : m.lastLine ≤ k.lastLine ∨ l.line ≤ m.line := by
  have hpairs := pairwise_logicalLines p text
  rw [lines, List.pairwise_append, List.pairwise_cons, List.pairwise_cons] at hpairs
  obtain ⟨-, ⟨-, hafter, -⟩, hbefore⟩ := hpairs
  rw [lines, List.mem_append, List.mem_cons, List.mem_cons] at hm
  rcases hm with hm | rfl | rfl | hm
  · have hline := hbefore m hm k (by simp)
    exact .inl (hline.le.trans (Nat.le_add_right ..))
  · exact .inl (Nat.le_refl _)
  · exact .inr (Nat.le_refl _)
  · exact .inr ((Nat.le_add_right ..).trans (hafter m hm).le)

/-- A part of a text is blank that begins and ends with a newline, if the physical lines between the
two are on no logical line. -/
theorem isBlank_of_uncovered {p : Profile} {front gap behind : List Char}
    (begins : ∀ c ∈ gap.head?, c = '\n') (ends : ∀ c ∈ gap.getLast?, c = '\n')
    (uncovered : ∀ l ∈ logicalLines p (front ++ gap ++ behind),
      l.lastLine ≤ lineAfter 1 front ∨ lineAfter 1 (front ++ gap) ≤ l.line) :
    isBlank gap = true := by
  by_contra hvisible
  rw [Bool.not_eq_true, isBlank, List.all_eq_false] at hvisible
  obtain ⟨c, hc, hshown⟩ := hvisible
  obtain ⟨first, more, rfl⟩ := List.append_of_mem hc
  have hnewline : c ≠ '\n' := fun h ↦ hshown (h ▸ by decide)
  have hfirst : 0 < first.count '\n' := by
    cases first with
    | nil => exact absurd (begins c rfl) hnewline
    | cons b first =>
      rw [begins b rfl]
      simp
  have hmore : 0 < more.count '\n' := by
    rcases List.eq_nil_or_concat' more with rfl | ⟨more, b, rfl⟩
    · exact absurd (ends c (by simp)) hnewline
    · rw [ends b (by rw [← List.cons_append, ← List.append_assoc, List.getLast?_concat]; rfl)]
      simp
  obtain ⟨m, hm, rfl, hline⟩ := exists_mark_of_char p (front ++ first) (more ++ behind) c
  have htext : front ++ first ++ m.char :: (more ++ behind) =
      front ++ (first ++ m.char :: more) ++ behind := by simp
  rw [htext] at hm
  obtain ⟨l, hl, habove, hbelow⟩ := exists_line_of_mark hm (by simpa using hshown)
  have hplaces := uncovered l hl
  simp only [lineAfter, List.count_append, List.count_cons] at hplaces hline
  omega

/-- Only blanks stand between two logical lines of which one follows the other. -/
theorem exists_gap_of_logicalLines {p : Profile} {text : List Char}
    {before after : List LogicalLine} {k l : LogicalLine}
    (lines : logicalLines p text = before ++ k :: l :: after) :
    ∃ start gap rest, text = start ++ k.text ++ gap ++ l.text ++ rest ∧
      k.line = lineAfter 1 start ∧ isBlank gap = true := by
  have hpairs := pairwise_logicalLines p text
  have hk : k ∈ logicalLines p text := by rw [lines]; simp
  have hl : l ∈ logicalLines p text := by rw [lines]; simp
  have hbelow : k.lastLine < l.line := by
    rw [lines] at hpairs
    exact (List.pairwise_cons.1 (List.pairwise_append.1 hpairs).2.1).1 l (by simp)
  obtain ⟨front, run, behind, hk⟩ := exists_standsAt hk
  obtain ⟨front', run', behind', hl⟩ := exists_standsAt hl
  have htext := hk.append_eq
  have htext' := hl.append_eq
  have hlast : k.lastLine = lineAfter 1 (Mark.text front ++ k.text) := by
    rw [LogicalLine.lastLine, hk.line_eq, lineAfter_append]
  obtain ⟨gap, hgap⟩ : Mark.text front ++ k.text <+: Mark.text front' := by
    have hfront : Mark.text front ++ k.text <+: text := ⟨_, htext.symm⟩
    have hfront' : Mark.text front' <+: text := ⟨_, by rw [htext', List.append_assoc]⟩
    refine (List.prefix_or_prefix_of_prefix hfront hfront').resolve_right fun hprefix ↦ ?_
    have hle := @lineAfter_mono 1 _ _ hprefix.sublist
    rw [← hl.line_eq, ← hlast] at hle
    omega
  have hplace : text = Mark.text front ++ k.text ++ gap ++ (l.text ++ Mark.text behind') := by
    rw [htext', ← hgap]
    simp
  have hbehind : Mark.text behind = gap ++ (l.text ++ Mark.text behind') := by
    rw [htext] at hplace
    simpa only [List.append_assoc, List.append_cancel_left_eq] using hplace
  refine ⟨Mark.text front, gap, Mark.text behind', by rw [htext', ← hgap], hk.line_eq, ?_⟩
  refine @isBlank_of_uncovered p (Mark.text front ++ k.text) gap (l.text ++ Mark.text behind')
    (fun c hc ↦ ?_) (fun c hc ↦ ?_) fun m hm ↦ ?_
  · refine hk.eq_newline_of_behind c ?_
    rw [hbehind, List.head?_append, hc]
    rfl
  · refine eq_newline_of_endsLine hl.front_ends c ?_
    rw [← hgap, List.getLast?_append, hc]
    rfl
  · rw [← hlast, hgap, ← hl.line_eq]
    exact le_of_mem_logicalLines lines (hplace ▸ hm)

/-! ### What lines define -/

namespace Findings

variable {p : Profile} {file : Path}

/-- What a logical line defines is in order. -/
theorem inOrder_ofLine (p : Profile) (file : Path) (l : LogicalLine) :
    Definition.InOrder (Extraction.ofLine p file l).definitions := by
  rcases Extraction.ofLine_cases p file l with h | ⟨t, -, h⟩ <;> rw [h]
  · rw [Extraction.ofText_eq_commands, Extraction.definitions_concat, List.flatMap_map]
    exact inOrder_commands (pairwise_line_commands p l.text l.line)
  · exact .nil

/-- What lines define does not stand above all of them and of the header in front. -/
theorem le_line_of_mem_ofLines {first : Nat} {dangling : Option LogicalLine}
    {ls : List LogicalLine} (header : ∀ h ∈ dangling, first ≤ h.line)
    (lines : ∀ l ∈ ls, first ≤ l.line) :
    ∀ d ∈ (ofLines p file dangling ls).definitions, first ≤ d.line := by
  induction ls generalizing dangling with
  | nil => simp [ofLines]
  | cons l ls ih =>
    have hread : first ≤ (l.behind p dangling).line := by
      rcases l.behind_cases p dangling with h | ⟨k, hk, -, -, h⟩ <;> rw [h]
      · exact lines l List.mem_cons_self
      · exact header k hk
    have hplaced := isPlaced_ofLine p file (l.behind p dangling)
    have hothers := ih (fun h hh ↦ hread.trans (hplaced.dangling h hh)) fun k hk ↦
      lines k (List.mem_cons_of_mem _ hk)
    intro d hd
    rcases List.mem_append.1 hd with hd | hd
    · exact hread.trans (hplaced.definitions d hd).first_le
    · exact hothers d hd

/-- A line that is not joined is read as if no header dangled. -/
theorem ofLines_of_behind_eq {dangling : Option LogicalLine} {l : LogicalLine}
    {ls : List LogicalLine} (alone : l.behind p dangling = l) :
    ofLines p file dangling (l :: ls) = ofLines p file none (l :: ls) := by
  have hnone : l.behind p none = l := rfl
  rw [ofLines, ofLines, alone, hnone]

/-- What dangles behind some lines is what the last of them leaves. -/
theorem danglingAfter_concat (p : Profile) (file : Path) (before : List LogicalLine)
    (l : LogicalLine) :
    danglingAfter p file none (before ++ [l]) =
      (Extraction.ofLine p file (l.behind p (danglingAfter p file none before))).dangling := by
  simp [danglingAfter]

end Findings

/-! ### Joins -/

/-- A join in a file: a header that dangles behind a logical line, and the next line, which begins
with a body. -/
structure Join (p : Profile) (s : Source) where
  /-- The logical lines in front of the line that holds the header. -/
  before : List LogicalLine
  /-- The line that holds the header. -/
  line : LogicalLine
  /-- The line that is joined to the header. -/
  next : LogicalLine
  after : List LogicalLine
  /-- The commands in front of the header, in the text that is read for its line. -/
  earlier : List Command
  header : Command
  /-- The commands behind the header. -/
  later : List Command
  lines_eq : logicalLines p s.text = before ++ line :: next :: after
  commands_eq :
    let l := line.behind p (Findings.danglingAfter p s.path none before)
    commands p l.text l.line = earlier ++ header :: later
  dangles : (header.extraction p s.path).dangling ≠ none
  settled : ∀ c ∈ later, (c.extraction p s.path).dangling = none
  complete : next.isOpen = false
  beginsBody : next.beginsBody p = true

namespace Join

variable {p : Profile} {s : Source}

/-- The line that holds the header, as it is read. -/
def read (j : Join p s) : LogicalLine :=
  j.line.behind p (Findings.danglingAfter p s.path none j.before)

/-- The header as it is handed on. -/
def handedOn (j : Join p s) : LogicalLine :=
  ⟨j.header.statement.text, j.header.statement.line, none⟩

/-- What the commands behind the header define. -/
def definitionsBehind (j : Join p s) : List Definition :=
  j.later.flatMap fun c ↦ (c.extraction p s.path).definitions

/-- What the file defines from the joined line on. -/
def definitionsFrom (j : Join p s) : List Definition :=
  (Findings.ofLines p s.path (some j.handedOn) (j.next :: j.after)).definitions

/-- The header dangles as the whole of its command, the last of its text. -/
theorem dangling_header (j : Join p s) :
    j.header.isLast = true ∧ (j.header.extraction p s.path).dangling = some j.handedOn := by
  obtain ⟨h, hh⟩ := Option.ne_none_iff_exists'.1 j.dangles
  obtain ⟨hlast, rfl, -⟩ := Extraction.of_dangling_ofCommand hh
  exact ⟨hlast, hh⟩

/-- A line that another one follows is complete, and so is what is read for it. -/
theorem leftOpen_read (j : Join p s) : j.read.leftOpen = none := by
  have hline : (logicalLines p s.text)[j.before.length]? = some j.line := by
    rw [j.lines_eq, List.getElem?_append_right (Nat.le_refl _), Nat.sub_self]
    rfl
  have hnext : (logicalLines p s.text)[j.before.length + 1]? = some j.next := by
    rw [j.lines_eq, List.getElem?_append_right (Nat.le_add_right ..), Nat.add_sub_cancel_left]
    rfl
  have hopen := leftOpen_getElem? hline
  rw [hnext] at hopen
  rw [read]
  rcases LogicalLine.behind_cases p (Findings.danglingAfter p s.path none j.before) j.line with
    h | ⟨k, -, -, -, h⟩ <;> rw [h]
  exact hopen

theorem commands_read (j : Join p s) :
    commands p j.read.text j.read.line = j.earlier ++ j.header :: j.later :=
  j.commands_eq

theorem ofLine_read (j : Join p s) :
    Extraction.ofLine p s.path j.read =
      .concat ((j.earlier ++ j.header :: j.later).map (Command.extraction p s.path)) := by
  rw [Extraction.ofLine, j.leftOpen_read]
  dsimp only
  rw [Extraction.ofText_eq_commands, commands_read]

theorem dangling_read (j : Join p s) :
    (Extraction.ofLine p s.path j.read).dangling = some j.handedOn := by
  rw [ofLine_read, Extraction.dangling_concat_eq_some_iff, List.map_append, List.map_cons]
  refine ⟨_, _, _, rfl, j.dangling_header.2, fun e he ↦ ?_⟩
  obtain ⟨c, hc, rfl⟩ := List.mem_map.1 he
  exact j.settled c hc

/-- What a file defines, divided at a join. -/
theorem definitions_ofSource (j : Join p s) :
    (Findings.ofSource p s).definitions =
      (Findings.ofLines p s.path none j.before).definitions ++
        ((j.earlier ++ [j.header]).flatMap fun c ↦ (c.extraction p s.path).definitions) ++
        j.definitionsBehind ++ j.definitionsFrom := by
  have hread : (Extraction.ofLine p s.path j.read).definitions =
      ((j.earlier ++ [j.header]).flatMap fun c ↦ (c.extraction p s.path).definitions) ++
        j.definitionsBehind := by
    rw [ofLine_read, Extraction.definitions_concat, List.flatMap_map, definitionsBehind,
      ← List.flatMap_append, List.append_assoc, List.singleton_append]
  have hlines : Findings.ofLines p s.path (Findings.danglingAfter p s.path none j.before)
      (j.line :: j.next :: j.after) = (⟨(Extraction.ofLine p s.path j.read).definitions,
        (Extraction.ofLine p s.path j.read).diagnostics⟩ : Findings).append
          (Findings.ofLines p s.path (some j.handedOn) (j.next :: j.after)) := by
    rw [← j.dangling_read]
    rfl
  rw [Findings.ofSource, j.lines_eq, Findings.ofLines_append, hlines]
  simp only [Findings.append, hread, definitionsFrom, List.append_assoc]

/-- What the line of the header defines stands above the header or on its line, or it stands behind
the header. -/
theorem line_le_or_mem_behind (j : Join p s) {a : Definition}
    (ha : a ∈ (Extraction.ofLine p s.path j.read).definitions) :
    a.line ≤ j.handedOn.line ∨ a ∈ j.definitionsBehind := by
  have hpairs := pairwise_line_commands p j.read.text j.read.line
  rw [commands_read] at hpairs
  rw [ofLine_read, Extraction.definitions_concat, List.flatMap_map, List.mem_flatMap] at ha
  obtain ⟨c, hc, ha⟩ := ha
  have hline : a.line = c.statement.line :=
    (Extraction.line_of_ofCommand c.statement c.isLast).1 a ha
  rw [hline]
  rcases List.mem_append.1 hc with hc | hc
  · exact .inl ((List.pairwise_append.1 hpairs).2.2 c hc j.header List.mem_cons_self)
  · rcases List.mem_cons.1 hc with rfl | hc
    · exact .inl (Nat.le_refl _)
    · exact .inr (List.mem_flatMap.2 ⟨c, hc, ha⟩)

/-- Nothing is defined above the header from the joined line on. -/
theorem le_line_of_mem_definitionsFrom (j : Join p s) :
    ∀ b ∈ j.definitionsFrom, j.handedOn.line ≤ b.line := by
  have hpairs := pairwise_logicalLines p s.text
  have hlines : j.before ++ j.line :: j.next :: j.after =
      (j.before ++ [j.line] ++ [j.next]) ++ j.after := by simp
  rw [j.lines_eq, hlines, List.pairwise_append] at hpairs
  obtain ⟨hbefore, -, hafter⟩ := hpairs
  have hdangling : j.handedOn ∈ Findings.danglingAfter p s.path none (j.before ++ [j.line]) := by
    rw [Findings.danglingAfter_concat]
    exact j.dangling_read
  have habove := lastLine_danglingAfter_lt hbefore (by simp) hdangling
  have hheader : j.handedOn.line ≤ j.handedOn.lastLine := Nat.le_add_right ..
  refine Findings.le_line_of_mem_ofLines (by simp) fun l hl ↦ ?_
  rcases List.mem_cons.1 hl with rfl | hl
  · omega
  · have hbelow := hafter j.next (by simp) l hl
    have hnext : j.next.line ≤ j.next.lastLine := Nat.le_add_right ..
    omega

/-- A header outside every group is the last command of its line. -/
theorem later_eq_nil (j : Join p s) (top : j.header.groups = 0) : j.later = [] := by
  have hmem : j.header ∈ commands p j.read.text j.read.line := by
    rw [commands_read]
    simp
  obtain ⟨-, front, -, -, hcommands⟩ := commands_of_isLast hmem top j.dangling_header.1
  rw [commands_read] at hcommands
  rcases List.eq_nil_or_concat' j.later with hnil | ⟨more, c, hmore⟩
  · exact hnil
  · -- The last command would be the header again, and what follows the header does not dangle.
    have hlast := congrArg List.getLast? hcommands
    rw [hmore, ← List.cons_append, ← List.append_assoc, List.getLast?_concat,
      List.getLast?_concat] at hlast
    obtain rfl := Option.some_inj.1 hlast
    exact absurd (j.settled _ (by simp [hmore])) j.dangles

/-- A header that dangles in front of a line which begins with a body is joined. -/
theorem exists_of_dangling {before after : List LogicalLine} {line next h : LogicalLine}
    (lines : logicalLines p s.text = before ++ line :: next :: after)
    (dangling : h ∈ Findings.danglingAfter p s.path none (before ++ [line]))
    (complete : next.isOpen = false) (beginsBody : next.beginsBody p = true) :
    ∃ j : Join p s, j.before = before ∧ j.line = line ∧ j.next = next ∧ j.after = after ∧
      j.handedOn = h := by
  rw [Findings.danglingAfter_concat, Option.mem_def, Extraction.ofLine] at dangling
  split at dangling
  · simp at dangling
  · rw [Extraction.ofText_eq_commands, Extraction.dangling_concat_eq_some_iff] at dangling
    obtain ⟨front, e, behind, hmap, he, hbehind⟩ := dangling
    obtain ⟨earlier, rest, hcommands, -, hrest⟩ := List.map_eq_append_iff.1 hmap
    obtain ⟨header, later, rfl, rfl, rfl⟩ := List.map_eq_cons_iff.1 hrest
    obtain ⟨-, rfl, -⟩ := Extraction.of_dangling_ofCommand he
    exact ⟨⟨before, line, next, after, earlier, header, later, lines, hcommands, by simp [he],
      fun c hc ↦ hbehind _ (List.mem_map_of_mem hc), complete, beginsBody⟩, rfl, rfl, rfl, rfl, rfl⟩

end Join

/-! ### Definitions in order -/

namespace Findings

variable {p : Profile} {s : Source}

/-- What a line defines does not stand below what the rest of the file defines, unless it stands
behind a header that is joined. -/
theorem le_line_of_mem_ofLine {before after : List LogicalLine} {l : LogicalLine}
    (joins : ∀ j : Join p s, ∀ a ∈ j.definitionsBehind, ∀ b ∈ j.definitionsFrom, a.line ≤ b.line)
    (lines : logicalLines p s.text = before ++ l :: after) {a b : Definition}
    (ha : a ∈ (Extraction.ofLine p s.path
      (l.behind p (danglingAfter p s.path none before))).definitions)
    (hb : b ∈ (ofLines p s.path (danglingAfter p s.path none (before ++ [l])) after).definitions) :
    a.line ≤ b.line := by
  cases after with
  | nil => simp [ofLines] at hb
  | cons next after =>
    have hpairs := pairwise_logicalLines p s.text
    rw [lines, ← List.singleton_append, ← List.append_assoc, List.pairwise_append] at hpairs
    obtain ⟨hbefore, hafter, hbelow⟩ := hpairs
    by_cases alone : next.behind p (danglingAfter p s.path none (before ++ [l])) = next
    · rw [ofLines_of_behind_eq alone] at hb
      have hnext : ∀ k ∈ next :: after, next.line ≤ k.line := fun k hk ↦ by
        rcases List.mem_cons.1 hk with rfl | hk
        · exact Nat.le_refl _
        · exact (Nat.le_add_right ..).trans ((List.pairwise_cons.1 hafter).1 k hk).le
      calc a.line
          ≤ (l.behind p (danglingAfter p s.path none before)).lastVisibleLine :=
            ((isPlaced_ofLine p s.path _).definitions a ha).le_last
        _ ≤ (l.behind p (danglingAfter p s.path none before)).lastLine :=
            lineAfter_mono (trimEnd_isPrefix _).sublist
        _ ≤ l.lastLine := LogicalLine.lastLine_behind_le fun h hh ↦
            lastLine_danglingAfter_lt hbefore (by simp) hh
        _ ≤ next.line := (hbelow l (by simp) next List.mem_cons_self).le
        _ ≤ b.line := le_line_of_mem_ofLines (by simp) hnext b hb
    · obtain ⟨h, hh, hcomplete, hbegins, -⟩ := (next.behind_cases p _).resolve_left alone
      obtain ⟨j, rfl, rfl, rfl, rfl, rfl⟩ := Join.exists_of_dangling lines hh hcomplete hbegins
      have hfrom : b ∈ j.definitionsFrom := by rwa [hh] at hb
      rcases j.line_le_or_mem_behind ha with habove | hbehind
      · exact habove.trans (j.le_line_of_mem_definitionsFrom b hfrom)
      · exact joins j a hbehind b hfrom

/-- The lines of a file define in order what they define, if no join prevents it. -/
theorem inOrder_ofLines {before ls : List LogicalLine}
    (joins : ∀ j : Join p s, ∀ a ∈ j.definitionsBehind, ∀ b ∈ j.definitionsFrom, a.line ≤ b.line)
    (lines : logicalLines p s.text = before ++ ls) :
    Definition.InOrder (ofLines p s.path (danglingAfter p s.path none before) ls).definitions := by
  induction ls generalizing before with
  | nil => exact .nil
  | cons l ls ih =>
    have hothers := @ih (before ++ [l]) (by rw [lines, List.append_assoc]; rfl)
    have hcross := @le_line_of_mem_ofLine p s before ls l joins lines
    rw [danglingAfter_concat] at hothers hcross
    exact List.pairwise_append.2
      ⟨inOrder_ofLine p s.path _, hothers, fun a ha b hb ↦ hcross ha hb⟩

end Findings

/-- What stands in a file between the header of a join and the line that is joined to it. -/
structure Join.IsPlaced {p : Profile} {s : Source} (j : Join p s) : Prop where
  /-- Blanks stand between the line that holds the header and the joined line. -/
  between : ∃ start gap rest, s.text = start ++ j.line.text ++ gap ++ j.next.text ++ rest ∧
    isBlank gap = true
  /-- What is read for the line ends with the line. -/
  read : j.line.text <:+ j.read.text
  /-- Outside every group, only blanks, comments and separators stand behind the header on its line;
  in a group, a brace that closes the group does. -/
  header : ∃ front behind, j.header.statement.StandsBetween j.read.text j.read.line front behind ∧
    (j.header.groups = 0 → j.later = [] ∧ ∃ ms, ms <:+ marks p j.read.text j.read.line ∧
      Mark.text ms = behind ∧ ∀ m ∈ ms, m.isBetweenStatements = true) ∧
    (0 < j.header.groups → '}' ∈ behind)

theorem Join.isPlaced {d : Dialect} {s : Source} (j : Join d.profile s) : j.IsPlaced where
  between := by
    obtain ⟨start, gap, rest, htext, -, hgap⟩ := exists_gap_of_logicalLines j.lines_eq
    exact ⟨start, gap, rest, htext, hgap⟩
  read := by
    rw [Join.read]
    rcases LogicalLine.behind_cases d.profile
      (Findings.danglingAfter d.profile s.path none j.before) j.line with
        h | ⟨k, -, -, -, h⟩ <;> rw [h]
    exact ⟨_, (List.append_cons _ _ _).symm⟩
  header := by
    have hmem : j.header ∈ commands d.profile j.read.text j.read.line := by
      rw [j.commands_read]
      simp
    by_cases top : j.header.groups = 0
    · obtain ⟨t, -, hlast, hheader, -⟩ := commands_of_isLast hmem top j.dangling_header.1
      obtain ⟨front, behind, hstands, hmarks, hbetween⟩ := exists_behind_last hlast
      refine ⟨front, Mark.text behind, hheader ▸ hstands,
        fun _ ↦ ⟨j.later_eq_nil top, behind, hmarks, rfl, hbetween⟩, fun h ↦ ?_⟩
      exact absurd top (Nat.pos_iff_ne_zero.1 h)
    · obtain ⟨front, behind, hstands, hclosing⟩ := exists_of_mem_commands hmem
      exact ⟨front, behind, hstands, fun h ↦ absurd h top, hclosing d rfl⟩

/-- **Definitions are in the order of the file, unless a header is joined that was found in a brace
group** and something that is defined behind it on its line stands below something that the file
defines from the joined line on. What stands between a header and the line that is joined to it is
said for every join. -/
theorem inOrder_ofSource_iff (d : Dialect) (s : Source) :
    (Definition.InOrder (Findings.ofSource d.profile s).definitions ↔
      ∀ j : Join d.profile s, 0 < j.header.groups →
        ∀ a ∈ j.definitionsBehind, ∀ b ∈ j.definitionsFrom, a.line ≤ b.line) ∧
    ∀ j : Join d.profile s, j.IsPlaced := by
  refine ⟨⟨fun h j _ a ha b hb ↦ ?_, fun h ↦ ?_⟩, fun j ↦ j.isPlaced⟩
  · rw [j.definitions_ofSource] at h
    exact (List.pairwise_append.1 h).2.2 a (List.mem_append_right _ ha) b hb
  · refine @Findings.inOrder_ofLines d.profile s [] (logicalLines d.profile s.text)
      (fun j a ha b hb ↦ ?_) rfl
    rcases Nat.eq_zero_or_pos j.header.groups with top | inside
    · simp [Join.definitionsBehind, j.later_eq_nil top] at ha
    · exact h j inside a ha b hb

-- The header stands in a group, and the alias behind the group is found first.
example : (Findings.ofSource .bash ⟨⟨"rc"⟩,
      "\x7b f()\n\x7d; alias x=1\n\x7b :; \x7d\n".toList⟩).definitions =
    [⟨"x", .alias, "1", ⟨"rc"⟩, 2⟩, ⟨"f", .function, ":;", ⟨"rc"⟩, 1⟩] := by decide +kernel

end ShellCatalog
