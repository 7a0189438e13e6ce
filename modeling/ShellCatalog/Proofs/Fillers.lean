import ShellCatalog.Proofs.EnclosingGroups
import ShellCatalog.Proofs.GroupReading
import ShellCatalog.Proofs.HereDocBodies
import ShellCatalog.Proofs.LineByLine

/-!
# What may stand between statements

A filler is a text that holds no statement of its own, as a blank or a semicolon does, and leaves
nothing open. A divider is a filler that ends the statement in front of it. Put into a text where
a word may begin and with a blank behind it, a filler adds no statement, and the question is what
becomes of the statements on its two sides.

**They stay as they are if nothing goes on over the place** (`IsFiller.forall₂_statements`): the
statement in front has not begun or the one behind has no visible character left, or the filler is a
divider. So two fillers may be exchanged there (`Extraction.ofText_filler`), and two dividers
anywhere.

What stands behind the filler is read from another state than without it. Both states have nothing
open, and the blank behind the filler is all that a rule of reading can look back to. So the two
readings are cut at the same places (`forall₂_cutAlike_of_blank`).
-/

namespace ShellCatalog

/-! ### Two runs put together -/

/-- The statement with which a run of marks begins, as far as the run goes. -/
def Mark.firstPart (ms : List Mark) : List Char :=
  Mark.text ((pieces Mark.separatesStatements ms).headD [])

/-- The statement with which a run of marks ends, as far as the run goes. -/
def Mark.lastPart (ms : List Mark) : List Char :=
  Mark.text ((pieces Mark.separatesStatements ms).getLastD [])

/-- Blank marks in front of a run do not change its statement. -/
theorem Statement.ofMarks?_blank_append {lead : List Mark} (blank : isBlank (Mark.text lead) = true)
    (run : List Mark) : ofMarks? (lead ++ run) = ofMarks? run := by
  have hskip : ((lead ++ run).dropWhile fun m ↦ isSpace m.char) =
      run.dropWhile fun m ↦ isSpace m.char :=
    List.dropWhile_append_of_pos fun m hm ↦ isBlank_iff.1 blank _ (List.mem_map_of_mem hm)
  rw [ofMarks?, hskip, ← ofMarks?]

/-- Nor do blank marks behind it. -/
theorem Statement.ofMarks?_append_blank (run : List Mark) {trail : List Mark}
    (blank : isBlank (Mark.text trail) = true) : ofMarks? (run ++ trail) = ofMarks? run := by
  cases hrun : isBlank (Mark.text run) with
  | true =>
    have hwhole : isBlank (Mark.text (run ++ trail)) = true := by
      rw [Mark.text_append, isBlank, List.all_append, Bool.and_eq_true]
      exact ⟨hrun, blank⟩
    rw [ofMarks?_of_isBlank hwhole, ofMarks?_of_isBlank hrun]
  | false =>
    obtain ⟨m, more, -, hof⟩ := ofMarks?_of_visible hrun
    have hwhole := hof []
    rw [List.append_nil] at hwhole
    rw [hof trail, hwhole, trimEnd_append_of_isBlank _ blank]
    simp [Mark.text]

/-- The statements of two runs put together, if the place where they meet is not inside of one. -/
theorem filterMap_ofMarks?_append {ms ns : List Mark}
    (blind : ∀ m ∈ ms.getLast?, m.separatesStatements ns.head? = m.separatesStatements none)
    (edge : isBlank (Mark.lastPart ms) = true ∨ isBlank (Mark.firstPart ns) = true) :
    (pieces Mark.separatesStatements (ms ++ ns)).filterMap Statement.ofMarks? =
      (pieces Mark.separatesStatements ms).filterMap Statement.ofMarks? ++
        (pieces Mark.separatesStatements ns).filterMap Statement.ofMarks? := by
  obtain ⟨init, last, first, rest, hms, hns, happend⟩ := exists_pieces_append blind
  have hlast : Mark.lastPart ms = Mark.text last := by simp [Mark.lastPart, hms]
  have hfirst : Mark.firstPart ns = Mark.text first := by simp [Mark.firstPart, hns]
  rw [hlast, hfirst] at edge
  rw [happend, hms, hns]
  rcases edge with hblank | hblank
  · simp only [List.filterMap_append, List.filterMap_cons,
      Statement.ofMarks?_blank_append hblank first, Statement.ofMarks?_of_isBlank hblank]
    simp
  · simp only [List.filterMap_append, List.filterMap_cons,
      Statement.ofMarks?_append_blank last hblank, Statement.ofMarks?_of_isBlank hblank]
    cases Statement.ofMarks? last <;> simp

/-! ### Runs that are cut alike -/

/-- Two marks at which lines and statements are cut alike. -/
structure Mark.CutAlike (m n : Mark) : Prop where
  place : m.place = n.place
  endsLine : m.endsLine = n.endsLine
  separates : ∀ {next next' : Option Mark}, next.map Mark.char = next'.map Mark.char →
    m.separatesStatements next = n.separatesStatements next'

namespace Mark.CutAlike

theorem char {m n : Mark} (h : CutAlike m n) : m.char = n.char :=
  congrArg Prod.fst h.place

/-- Marks that differ in their offset and in the blank in front of them are cut alike. -/
theorem of_related {bytes : Nat} {m n : Mark} (h : Related (Nesting.LaterBy 0) bytes m n) :
    CutAlike m n where
  place := by rw [Mark.place, Mark.place, h.char, Mark.line, Mark.line, h.before.line, Nat.add_zero]
  endsLine := h.endsLine Nesting.LaterBy.toLike
  separates := h.separatesStatements_of_char Nesting.LaterBy.toLike

theorem map_char {next next' : Option Mark} (h : Option.Rel CutAlike next next') :
    next.map Mark.char = next'.map Mark.char := by
  cases h with
  | none => rfl
  | some h => exact congrArg some h.char

end Mark.CutAlike

/-- Only an ampersand looks at what stands beside it. -/
theorem Mark.separatesStatements_congr_next {m : Mark} (hc : m.char ≠ '&')
    (next next' : Option Mark) : m.separatesStatements next = m.separatesStatements next' := by
  unfold separatesStatements
  split <;> first | rfl | exact absurd ‹_› hc

/-- A blank that is no comment stands between statements only where a line ends. -/
theorem Mark.separatesStatements_of_blank {m : Mark} {next : Option Mark}
    (blank : isSpace m.char = true) (role : m.role = .code) (top : m.after.groups = []) :
    m.separatesStatements next = m.endsLine := by
  have visible : ∀ v, isSpace v = false → m.char ≠ v := by
    rintro v hv rfl
    exact absurd (hv.symm.trans blank) (by simp)
  have hdepth : m.depth = 0 := by simp [depth, Nesting.depth, top]
  have hcomment : m.isTopComment = false := by simp [isTopComment, role]
  rw [separatesStatements, hcomment, Bool.false_or, decide_eq_true hdepth, Bool.true_and]
  split
  · next heq => exact absurd heq (visible ';' (by decide))
  · next heq => exact absurd heq (visible '|' (by decide))
  · next heq => exact absurd heq (visible '&' (by decide))
  · rfl
  · next hline => simp [endsLine, show m.char ≠ '\n' from hline]

/-- A blank of code behind which nothing is open is cut alike wherever it stands. -/
theorem Mark.CutAlike.of_blank {m n : Mark} (place : m.place = n.place)
    (blank : isSpace m.char = true) (hm : m.role = .code ∧ m.after.isBalanced = true)
    (hn : n.role = .code ∧ n.after.isBalanced = true) : CutAlike m n := by
  have hchar : m.char = n.char := congrArg Prod.fst place
  have hends : m.endsLine = n.endsLine := by
    simp only [Mark.endsLine, hchar, hm.1, hm.2, hn.1, hn.2]
  refine ⟨place, hends, fun _ ↦ ?_⟩
  rw [separatesStatements_of_blank blank hm.1 (Nesting.isBalanced_iff.1 hm.2).2.1,
    separatesStatements_of_blank (hchar ▸ blank) hn.1 (Nesting.isBalanced_iff.1 hn.2).2.1, hends]

/-- Where nothing is open, two readings that begin with a blank are cut alike, whatever stands in
front of the blank. -/
theorem forall₂_cutAlike_of_blank {d : Dialect} {s t : Nesting} (hs : s.isBalanced = true)
    (ht : t.isBalanced = true) (line : t.line = s.line) (offset bytes : Nat) {text : List Char}
    (blank : ∀ c ∈ text.head?, isSpace c = true) (ahead : List Char) :
    List.Forall₂ Mark.CutAlike (marksAhead d.profile ahead s offset text)
        (marksAhead d.profile ahead t (offset + bytes) text) ∧
      (s.afterText d.profile text ahead).outermostOpen? =
        (t.afterText d.profile text ahead).outermostOpen? := by
  cases text with
  | nil =>
    refine ⟨.nil, ?_⟩
    rw [Nesting.afterText_nil, Nesting.afterText_nil, Nesting.outermostOpen?_of_isBalanced hs,
      Nesting.outermostOpen?_of_isBalanced ht]
  | cons c rest =>
    have hc := blank c rfl
    have hword {u : Nesting} (hu : u.isBalanced = true) :
        (u.step d.profile c (rest ++ ahead)).2 = .code ∧
          (u.step d.profile c (rest ++ ahead)).1.AtWord := by
      rw [Nesting.step_blank _ hu hc]
      exact ⟨rfl, hu, by simpa [Nesting.AtBlank, Nesting.lastChar?] using hc⟩
    obtain ⟨hrole, hnext⟩ := hword hs
    obtain ⟨hrole', hnext'⟩ := hword ht
    have hlater := hnext.laterBy (n := 0) hnext' (by
      rw [Nesting.line_step, Nesting.line_step, line]
      rfl)
    have hrest := forall₂_marksAhead (p := d.profile) (fun h c rest ↦ h.step c rest) hlater
      (offset + c.utf8Size) bytes rest ahead
    have hafter := afterMarks_of_forall₂ hrest hlater
    rw [Nesting.afterMarks_marksAhead, Nesting.afterMarks_marksAhead] at hafter
    rw [marksAhead_cons, marksAhead_cons, Nesting.afterText_cons, Nesting.afterText_cons,
      Nat.add_right_comm]
    refine ⟨.cons (.of_blank ?_ hc ⟨hrole, hnext.balanced⟩ ⟨hrole', hnext'.balanced⟩)
      (hrest.imp fun _ _ ↦ .of_related), ?_⟩
    · rw [Mark.place, Mark.place, Mark.line, Mark.line, line]
    · rw [hafter.outermostOpen?]
      cases Nesting.outermostOpen? _ <;> rfl

/-! ### First and last parts -/

/-- Runs whose marks are cut alike have the same parts. -/
theorem Mark.parts_congr {R : Mark → Mark → Prop} (char : ∀ {m n}, R m n → m.char = n.char)
    (same : ∀ {m n next next'}, R m n → Option.Rel R next next' →
      m.separatesStatements next = n.separatesStatements next')
    {ms ns : List Mark} (h : List.Forall₂ R ms ns) :
    firstPart ms = firstPart ns ∧ lastPart ms = lastPart ns := by
  have htexts : (pieces Mark.separatesStatements ms).map Mark.text =
      (pieces Mark.separatesStatements ns).map Mark.text := by
    have hpieces := @forall₂_pieces _ Mark.separatesStatements same _ _ h
    generalize pieces Mark.separatesStatements ms = runs,
      pieces Mark.separatesStatements ns = runs' at hpieces
    induction hpieces with
    | nil => rfl
    | cons hrun _ ih => exact congrArg₂ List.cons (text_eq_of_forall₂ char hrun) ih
  have hfirst (ms : List Mark) : firstPart ms =
      ((pieces Mark.separatesStatements ms).map Mark.text).headD [] := by
    cases hms : pieces Mark.separatesStatements ms <;> simp [firstPart, hms, Mark.text]
  have hlast (ms : List Mark) : lastPart ms =
      ((pieces Mark.separatesStatements ms).map Mark.text).getLastD [] := by
    rw [lastPart, List.getLastD_eq_getLast?, List.getLastD_eq_getLast?, List.getLast?_map]
    cases (pieces Mark.separatesStatements ms).getLast? <;> rfl
  rw [hfirst, hfirst, hlast, hlast, htexts]
  exact ⟨rfl, rfl⟩

/-- Where a text begins does not matter to the statements with which it begins and ends. -/
theorem Mark.parts_marks (p : Profile) (text : List Char) (line line' : Nat) :
    firstPart (marks p text line) = firstPart (marks p text line') ∧
      lastPart (marks p text line) = lastPart (marks p text line') := by
  have hzero (n : Nat) := parts_congr Mark.Related.char
    (fun h hnext ↦ h.separatesStatements Nesting.LaterBy.toLike hnext) (marks_later p text 0 n)
  simp only [Nat.zero_add] at hzero
  exact ⟨(hzero line).1.symm.trans (hzero line').1, (hzero line).2.symm.trans (hzero line').2⟩

theorem Mark.firstPart_of_pieces {ms run : List Mark} {runs : List (List Mark)}
    (h : pieces (fun m _ ↦ m.endsLine) ms = run :: runs) : firstPart ms = firstPart run := by
  obtain ⟨first, rest, hfirst⟩ :=
    List.exists_cons_of_ne_nil (pieces_ne_nil Mark.separatesStatements run)
  simp [firstPart, pieces_separatesStatements_eq_flatMap ms, h, hfirst]

theorem Mark.lastPart_of_pieces {ms run : List Mark} {runs : List (List Mark)}
    (h : pieces (fun m _ ↦ m.endsLine) ms = runs ++ [run]) : lastPart ms = lastPart run := by
  have hlast := List.getLast?_eq_some_getLast (pieces_ne_nil Mark.separatesStatements run)
  simp [lastPart, pieces_separatesStatements_eq_flatMap ms, h, List.getLastD_eq_getLast?, hlast]

/-- No statement goes on from the first text to the second. -/
def IsGap (p : Profile) (front behind : List Char) : Prop :=
  isBlank (Mark.lastPart (marks p front)) = true ∨ isBlank (Mark.firstPart (marks p behind)) = true

/-- Cut alike, two runs hold statements that mean the same. -/
theorem Mark.CutAlike.forall₂_statements {p : Profile} (file : Path) {ms ns : List Mark}
    (h : List.Forall₂ Mark.CutAlike ms ns) :
    List.Forall₂ (SameMeaning p file)
      ((pieces Mark.separatesStatements ms).filterMap Statement.ofMarks?)
      ((pieces Mark.separatesStatements ns).filterMap Statement.ofMarks?) := by
  have hpieces := @forall₂_pieces _ Mark.separatesStatements
    (fun h hnext ↦ h.separates (Mark.CutAlike.map_char hnext)) _ _ h
  refine List.rel_filterMap (fun run run' hrun ↦ ?_) hpieces
  have hplace : run.map Mark.place = run'.map Mark.place := by
    induction hrun with
    | nil => rfl
    | cons hmn _ ih => exact congrArg₂ List.cons hmn.place ih
  exact ShareFront.rel_ofMarks? file (.inl hplace)

/-! ### What may stand between statements -/

/-- The mark separates statements whatever follows, or it is a blank in none of them. -/
def Mark.IsBetween (m : Mark) : Prop :=
  (∀ next, m.separatesStatements next = true) ∨
    isSpace m.char = true ∧ ∀ next, m.separatesStatements next = false

theorem filterMap_ofMarks?_between {ms ns : List Mark} (h : ∀ m ∈ ms, m.IsBetween) :
    (pieces Mark.separatesStatements (ms ++ ns)).filterMap Statement.ofMarks? =
      (pieces Mark.separatesStatements ns).filterMap Statement.ofMarks? := by
  induction ms with
  | nil => rfl
  | cons m ms ih =>
    have hrest := ih fun n hn ↦ h n (List.mem_cons_of_mem _ hn)
    rw [← hrest, List.cons_append, pieces]
    rcases h m List.mem_cons_self with hseparates | ⟨hblank, hinside⟩
    · rw [if_pos (hseparates _)]
      rfl
    · obtain ⟨first, rest, hpieces⟩ :=
        List.exists_cons_of_ne_nil (pieces_ne_nil Mark.separatesStatements (ms ++ ns))
      have hm : isBlank (Mark.text [m]) = true := by simpa [isBlank, Mark.text] using hblank
      have hfirst : Statement.ofMarks? (m :: first) = Statement.ofMarks? first :=
        Statement.ofMarks?_blank_append hm first
      rw [if_neg (by simp [hinside]), hpieces, List.filterMap_cons, List.filterMap_cons, hfirst]

theorem Mark.isBlank_firstPart_between {ms ns : List Mark} (h : ∀ m ∈ ms, m.IsBetween)
    (blank : isBlank (firstPart ns) = true) : isBlank (firstPart (ms ++ ns)) = true := by
  induction ms with
  | nil => exact blank
  | cons m ms ih =>
    have hrest := ih fun n hn ↦ h n (List.mem_cons_of_mem _ hn)
    obtain ⟨first, rest, hpieces⟩ :=
      List.exists_cons_of_ne_nil (pieces_ne_nil Mark.separatesStatements (ms ++ ns))
    rw [firstPart, hpieces] at hrest
    rw [firstPart, List.cons_append, pieces]
    rcases h m List.mem_cons_self with hseparates | ⟨hblank, hinside⟩
    · rw [if_pos (hseparates _)]
      rfl
    · rw [if_neg (by simp [hinside]), hpieces]
      rw [isBlank_iff] at hrest ⊢
      intro c hc
      rcases List.mem_cons.1 hc with rfl | hc
      · exact hblank
      · exact hrest c hc

/-- No statement begins with a mark that separates. -/
theorem Mark.firstPart_of_separates {m : Mark} {ms : List Mark}
    (h : ∀ next, m.separatesStatements next = true) : firstPart (m :: ms) = [] := by
  rw [firstPart, pieces, if_pos (h _)]
  rfl

/-- A text that may stand between statements, in front of anything: it begins and ends with nothing
open, on one line, and holds no statement. -/
structure IsFiller (p : Profile) (filler : List Char) : Prop where
  full : filler ≠ []
  hash : filler.head? ≠ some '#'
  single : '\n' ∉ filler
  between : ∀ {s : Nesting} {ahead : List Char} {offset : Nat}, s.AtWord →
    ∀ m ∈ marksAhead p ahead s offset filler, m.IsBetween
  balanced : ∀ {s : Nesting} {ahead : List Char}, s.AtWord →
    (s.afterText p filler ahead).isBalanced = true

/-- A filler at whose beginning a statement ends. -/
structure IsDivider (p : Profile) (filler : List Char) : Prop extends IsFiller p filler where
  divides : ∀ {s : Nesting} {ahead : List Char} {offset : Nat}, s.AtWord →
    ∀ m ∈ (marksAhead p ahead s offset filler).head?, ∀ next, m.separatesStatements next = true
  visible : ∀ c ∈ filler.head?, isSpace c = false
  bodiless : ∀ c ∈ filler.head?, p.beginsBody c = false

/-! ### A filler in a text -/

section Filler

variable {d : Dialect} {front filler behind : List Char} {line : Nat}

/-- Where a word may begin, the last character is no ampersand, so it does not look ahead. -/
theorem Nesting.AtWord.blind {p : Profile} {s : Nesting} {text ahead : List Char}
    (h : (s.afterText p text ahead).AtWord) (offset : Nat) (next : Option Mark) :
    ∀ m ∈ (marksAhead p ahead s offset text).getLast?,
      m.separatesStatements next = m.separatesStatements none := by
  intro m hm
  have hlast : (s.afterText p text ahead).lastChar? = some m.char := by
    rw [← Nesting.afterMarks_marksAhead p ahead s offset text, afterMarks, Option.mem_def.1 hm,
      lastChar?, Option.map_some, Option.getD_some,
      last_of_mem_marksAhead (List.mem_of_getLast? hm), Option.map_some]
  refine Mark.separatesStatements_congr_next (fun hand ↦ ?_) next none
  have hspace := h.blank m.char hlast
  rw [hand] at hspace
  exact absurd hspace (by decide)

/-- The marks of a text with a filler in it are those of its parts. -/
theorem IsFiller.exists_marks (docs : d.profile.hereDocs = false) (h : IsFiller d.profile filler)
    (word : ((Nesting.start line).afterText d.profile front []).AtWord)
    (blank : ∀ c ∈ behind.head?, isSpace c = true) :
    ∃ ms ns, marks d.profile (front ++ (filler ++ behind)) line =
        marks d.profile front line ++ (ms ++ ns) ∧ Mark.text ms = filler ∧
      (∀ m ∈ ms, m.IsBetween) ∧
      (IsDivider d.profile filler → ∀ m ∈ ms.head?, ∀ next, m.separatesStatements next = true) ∧
      List.Forall₂ Mark.CutAlike (marks d.profile behind (lineAfter line front)) ns ∧
      ((Nesting.start (lineAfter line front)).afterText d.profile behind []).outermostOpen? =
        ((Nesting.start line).afterText d.profile (front ++ (filler ++ behind))
          []).outermostOpen? := by
  have hash : (filler ++ behind).head? ≠ some '#' := by
    rw [List.head?_append_of_ne_nil _ h.full]
    exact h.hash
  set s := (Nesting.start line).afterText d.profile front [] with hs
  set t := s.afterText d.profile filler behind with ht
  have hline : t.line = lineAfter line front := by
    rw [ht, Nesting.line_afterText, hs, Nesting.line_afterText, lineAfter,
      List.count_eq_zero.2 h.single]
    rfl
  have hbalanced : t.isBalanced = true := h.balanced word
  obtain ⟨hcut, hopen⟩ := forall₂_cutAlike_of_blank (d := d)
    (Nesting.isBalanced_start (lineAfter line front)) hbalanced hline 0
    (byteLength front + byteLength filler) blank []
  rw [marksAhead_nil, marksAhead_nil, ← Nat.add_assoc] at hcut
  refine ⟨marksAhead d.profile behind s (0 + byteLength front) filler, _, ?_, text_marksAhead ..,
    h.between word, fun hdivider ↦ hdivider.divides word, hcut, ?_⟩
  · rw [marks, marksFrom_append, Nesting.afterMarks_marksAhead,
      Nesting.marksAhead_of_noHereDocs docs 0 hash, Nesting.afterText_of_noHereDocs docs hash,
      marksAhead_nil, marksFrom_append, Nesting.afterMarks_marksAhead]
    rfl
  · rw [hopen, Nesting.afterText_append, List.append_nil, Nesting.afterText_of_noHereDocs docs hash,
      Nesting.afterText_append, List.append_nil]

/-- Two texts keep their statements with a filler between them, if no statement goes on there, or if
the filler divides. -/
theorem IsFiller.forall₂_statements (docs : d.profile.hereDocs = false)
    (h : IsFiller d.profile filler)
    (word : ((Nesting.start line).afterText d.profile front []).AtWord)
    (blank : ∀ c ∈ behind.head?, isSpace c = true)
    (between : IsDivider d.profile filler ∨ IsGap d.profile front behind) (file : Path) :
    List.Forall₂ (SameMeaning d.profile file)
      (statements d.profile front line ++ statements d.profile behind (lineAfter line front))
      (statements d.profile (front ++ (filler ++ behind)) line) := by
  obtain ⟨ms, ns, hmarks, htext, hbetween, hdivides, hcut, -⟩ := h.exists_marks docs word blank
  have hjoint : statements d.profile (front ++ (filler ++ behind)) line =
      statements d.profile front line ++
        (pieces Mark.separatesStatements ns).filterMap Statement.ofMarks? := by
    rw [statements, hmarks, filterMap_ofMarks?_append, filterMap_ofMarks?_between hbetween,
      statements]
    · rw [marks, ← marksAhead_nil]
      exact word.blind 0 _
    · rcases between with hdivider | hfront | hbehind
      · obtain ⟨m, more, rfl⟩ : ∃ m more, ms = m :: more :=
          List.exists_cons_of_ne_nil fun hnil ↦ h.full (by rw [← htext, hnil]; rfl)
        rw [List.cons_append, Mark.firstPart_of_separates (hdivides hdivider m rfl)]
        exact .inr rfl
      · rw [(Mark.parts_marks _ _ line 1).2]
        exact .inl hfront
      · refine .inr (Mark.isBlank_firstPart_between hbetween ?_)
        have hsame := (Mark.parts_congr Mark.CutAlike.char
          (fun h hnext ↦ h.separates (Mark.CutAlike.map_char hnext)) hcut).1
        rwa [← hsame, (Mark.parts_marks _ _ _ 1).1]
  rw [hjoint]
  exact List.rel_append (List.forall₂_same.2 fun s _ isLast ↦ rfl)
    (Mark.CutAlike.forall₂_statements file hcut)

/-- Two fillers may be exchanged in a text. -/
theorem Extraction.ofText_filler {filler' : List Char} (docs : d.profile.hereDocs = false)
    (h : IsFiller d.profile filler) (h' : IsFiller d.profile filler')
    (word : ((Nesting.start line).afterText d.profile front []).AtWord)
    (blank : ∀ c ∈ behind.head?, isSpace c = true)
    (between : IsDivider d.profile filler ∧ IsDivider d.profile filler' ∨
      IsGap d.profile front behind) (file : Path) :
    ofText d.profile file (front ++ (filler ++ behind)) line =
      ofText d.profile file (front ++ (filler' ++ behind)) line := by
  have hfirst := h.forall₂_statements docs word blank (between.imp_left And.left) file
  have hsecond := h'.forall₂_statements docs word blank (between.imp_left And.right) file
  exact ofText_congr (forall₂_of_common hfirst hsecond fun hb hc isLast ↦
    (hb isLast).symm.trans (hc isLast))

end Filler

end ShellCatalog
