import ShellCatalog.Proofs.LineReading
import ShellCatalog.Statement.Basic

/-!
# Statements tile a text

Cutting a text into statements loses nothing and doubles nothing. The statements stand in the text
in order and apart, each of them as it is written there, and what is left outside all of them is
what keeps statements apart: blanks, comments, and the separators of code outside every group.

**A statement is its run without the blanks at its ends** (`Statement.exists_of_ofMarks?`), so it
can be found again in the text (`Statement.StandsAt`), and a mark belongs to it exactly if its byte
does (`Statement.StandsAt.covers_iff`). **A mark that does not separate is in a run**
(`exists_mem_pieces_append`), and if it is visible its run holds a statement that keeps it.
-/

namespace ShellCatalog

/-! ### Where a mark stands -/

section Offsets

variable {p : Profile} {s : Nesting} {offset : Nat} {text : List Char}

/-- The offset of a mark is the length of what stands in front of it. -/
theorem offset_eq_of_marksFrom {front behind : List Mark} {m : Mark}
    (h : marksFrom p s offset text = front ++ m :: behind) :
    m.offset = offset + byteLength (Mark.text front) := by
  obtain ⟨-, -, hrest⟩ := marksFrom_eq_append h
  have hcons : Mark.text (m :: behind) = m.char :: Mark.text behind := rfl
  rw [hcons, marksFrom_cons, List.cons.injEq] at hrest
  rw [hrest.1]

theorem offset_le_of_mem_marksFrom {m : Mark} (h : m ∈ marksFrom p s offset text) :
    offset ≤ m.offset := by
  obtain ⟨front, behind, hmarks⟩ := List.append_of_mem h
  rw [offset_eq_of_marksFrom hmarks]
  exact Nat.le_add_right ..

/-- A mark ends where the next one begins, or in front of it. -/
theorem pairwise_offset_marksFrom (p : Profile) (s : Nesting) (offset : Nat) (text : List Char) :
    (marksFrom p s offset text).Pairwise fun m n ↦ m.offset + m.char.utf8Size ≤ n.offset := by
  induction text generalizing s offset with
  | nil => exact .nil
  | cons c rest ih =>
    rw [marksFrom_cons]
    exact .cons (fun m hm ↦ offset_le_of_mem_marksFrom hm) (ih _ _)

/-- The bytes of a part of a text are those of its marks. -/
theorem offset_mem_iff {front body behind : List Mark} {m : Mark}
    (h : marksFrom p s offset text = front ++ (body ++ behind))
    (hm : m ∈ marksFrom p s offset text) :
    offset + byteLength (Mark.text front) ≤ m.offset ∧
        m.offset < offset + byteLength (Mark.text front) + byteLength (Mark.text body) ↔
      m ∈ body := by
  have hsize := m.char.utf8Size_pos
  constructor
  · rintro ⟨hfirst, hlast⟩
    rw [h, List.mem_append, List.mem_append] at hm
    rcases hm with hm | hm | hm
    · obtain ⟨before, after, rfl⟩ := List.append_of_mem hm
      have hoffset := @offset_eq_of_marksFrom p s offset text before (after ++ (body ++ behind)) m
        (by rw [h]; simp)
      have hlength : byteLength (Mark.text (before ++ m :: after)) =
          byteLength (Mark.text before) + (m.char.utf8Size + byteLength (Mark.text after)) := by
        simp [Mark.text]
      omega
    · exact hm
    · obtain ⟨before, after, rfl⟩ := List.append_of_mem hm
      have hoffset := @offset_eq_of_marksFrom p s offset text (front ++ body ++ before) after m
        (by rw [h]; simp)
      rw [Mark.text_append, Mark.text_append, byteLength_append, byteLength_append] at hoffset
      omega
  · intro hbody
    obtain ⟨before, after, rfl⟩ := List.append_of_mem hbody
    have hoffset := @offset_eq_of_marksFrom p s offset text (front ++ before) (after ++ behind) m
      (by rw [h]; simp)
    have hlength : byteLength (Mark.text (before ++ m :: after)) =
        byteLength (Mark.text before) + (m.char.utf8Size + byteLength (Mark.text after)) := by
      simp [Mark.text]
    rw [Mark.text_append, byteLength_append] at hoffset
    omega

end Offsets

/-- The pieces of a run, put together, are a part of it. -/
theorem flatten_pieces_sublist (separates : Mark → Option Mark → Bool) (ms : List Mark) :
    (pieces separates ms).flatten.Sublist ms := by
  induction ms with
  | nil => simp [pieces]
  | cons m rest ih =>
    rw [pieces]
    split
    · exact ih.cons m
    · split
      · exact (List.nil_sublist rest).cons_cons m
      · next heq =>
        rw [heq] at ih
        exact ih.cons_cons m

/-! ### Where a statement stands -/

/-- The statement stands in a text between the marks `front` and `behind`, without blanks at its
ends and with no mark that separates. -/
structure Statement.StandsAt (p : Profile) (text : List Char) (line : Nat) (s : Statement)
    (front body behind : List Mark) : Prop where
  marks_eq : marks p text line = front ++ (body ++ behind)
  offset_eq : s.offset = byteLength (Mark.text front)
  line_eq : s.line = lineAfter line (Mark.text front)
  text_eq : s.text = Mark.text body
  begins : ∃ m rest, body = m :: rest ∧ isSpace m.char = false
  ends : ∀ c ∈ s.text.getLast?, isSpace c = false
  whole : ∀ m ∈ body, ∃ next, m.separatesStatements next = false

section Statements

variable {p : Profile} {text : List Char} {line : Nat} {s : Statement}

/-- The statement of a run stands in the text of the run and takes all its visible marks. -/
theorem Statement.exists_standsAt_of_run {run : List Mark}
    (hrun : run ∈ pieces Mark.separatesStatements (marks p text line))
    (hs : ofMarks? run = some s) :
    ∃ front body behind, s.StandsAt p text line front body behind ∧ (∀ m ∈ body, m ∈ run) ∧
      ∀ m ∈ run, isSpace m.char = false → m ∈ body := by
  obtain ⟨before, after, hpieces⟩ := List.append_of_mem hrun
  obtain ⟨front, behind, hmarks, -⟩ := exists_of_pieces_eq hpieces
  obtain ⟨lead, m, rest, trail, rfl, hlead, htrail, rfl, hvisible, hends⟩ := exists_of_ofMarks? hs
  have hplace : marks p text line = (front ++ lead) ++ m :: (rest ++ (trail ++ behind)) := by
    rw [hmarks]
    simp
  obtain ⟨htext, -, hrest⟩ := marksFrom_eq_append hplace
  have hcons : Mark.text (m :: (rest ++ (trail ++ behind))) =
    m.char :: Mark.text (rest ++ (trail ++ behind)) := rfl
  rw [hcons, marksFrom_cons, List.cons.injEq] at hrest
  have hbody : ∀ n ∈ m :: rest, n ∈ lead ++ (m :: rest ++ trail) := fun n hn ↦
    List.mem_append_right _ (List.mem_append_left _ hn)
  refine ⟨front ++ lead, m :: rest, trail ++ behind, ⟨hplace, ?_, ?_, rfl, ⟨m, rest, rfl, hvisible⟩,
    hends, fun n hn ↦ exists_eq_false_of_mem_piece hrun (hbody n hn)⟩, hbody, fun n hn hshown ↦ ?_⟩
  · dsimp only
    rw [offset_eq_of_marksFrom hplace, Nat.zero_add]
  · dsimp only
    rw [Mark.line, hrest.1, Nesting.line_afterText]
    rfl
  · rw [isBlank_iff] at hlead htrail
    rcases List.mem_append.1 hn with hn | hn
    · rw [hlead _ (List.mem_map_of_mem hn)] at hshown
      exact Bool.noConfusion hshown
    · rcases List.mem_append.1 hn with hn | hn
      · exact hn
      · rw [htrail _ (List.mem_map_of_mem hn)] at hshown
        exact Bool.noConfusion hshown

theorem Statement.exists_standsAt (hs : s ∈ statements p text line) :
    ∃ front body behind, s.StandsAt p text line front body behind := by
  obtain ⟨run, hrun, hs⟩ := List.mem_filterMap.1 hs
  obtain ⟨front, body, behind, hstands, -⟩ := exists_standsAt_of_run hrun hs
  exact ⟨front, body, behind, hstands⟩

theorem Statement.StandsAt.append_eq {front body behind : List Mark}
    (h : s.StandsAt p text line front body behind) :
    text = Mark.text front ++ s.text ++ Mark.text behind := by
  have htext := congrArg Mark.text h.marks_eq
  rwa [text_marks, Mark.text_append, Mark.text_append, ← h.text_eq, ← List.append_assoc] at htext

/-- A statement is a part of its text, and knows where it starts. -/
theorem exists_of_mem_statements (hs : s ∈ statements p text line) :
    ∃ front behind, text = front ++ s.text ++ behind ∧ s.offset = byteLength front ∧
      s.line = lineAfter line front := by
  obtain ⟨front, body, behind, hstands⟩ := Statement.exists_standsAt hs
  exact ⟨_, _, hstands.append_eq, hstands.offset_eq, hstands.line_eq⟩

/-- A statement is no longer than its run, so the statements of two runs keep apart. -/
theorem pairwise_statements (p : Profile) (text : List Char) (line : Nat) :
    (statements p text line).Pairwise fun s t ↦ s.offset + byteLength s.text ≤ t.offset := by
  have hmarks := (pairwise_offset_marksFrom p (.start line) 0 text).sublist
    (flatten_pieces_sublist Mark.separatesStatements _)
  have hruns := (List.pairwise_flatten.1 hmarks).2
  refine List.pairwise_filterMap.2
    (hruns.imp_of_mem fun {run run'} hrun hrun' hapart s hs t ht ↦ ?_)
  obtain ⟨front, body, behind, hstands, hbody, -⟩ := Statement.exists_standsAt_of_run hrun hs
  obtain ⟨front', body', behind', hstands', hbody', -⟩ := Statement.exists_standsAt_of_run hrun' ht
  obtain ⟨first, rest', rfl, -⟩ := hstands'.begins
  have hfull : body ≠ [] := by
    obtain ⟨m, rest, rfl, -⟩ := hstands.begins
    exact List.cons_ne_nil m rest
  obtain ⟨rest, last, rfl⟩ := (List.eq_nil_or_concat' body).resolve_left hfull
  have hlast := @offset_eq_of_marksFrom p (.start line) 0 text (front ++ rest) behind last
    (by rw [← marks, hstands.marks_eq]; simp)
  have hfirst := offset_eq_of_marksFrom hstands'.marks_eq
  have hle := hapart last (hbody last (by simp)) first (hbody' first List.mem_cons_self)
  have hlength : byteLength (Mark.text (rest ++ [last])) =
      byteLength (Mark.text rest) + last.char.utf8Size := by
    simp [Mark.text]
  rw [Mark.text_append, byteLength_append] at hlast
  rw [hstands.offset_eq, hstands'.offset_eq, hstands.text_eq, hlength]
  omega

/-- No statement is empty, so they begin one after the other. -/
theorem pairwise_offset_statements (p : Profile) (text : List Char) (line : Nat) :
    (statements p text line).Pairwise fun s t ↦ s.offset < t.offset := by
  refine (pairwise_statements p text line).imp_of_mem fun {s t} hs _ hapart ↦ ?_
  obtain ⟨front, body, behind, hstands⟩ := Statement.exists_standsAt hs
  obtain ⟨m, rest, rfl, -⟩ := hstands.begins
  have hsize := m.char.utf8Size_pos
  have hlength : byteLength s.text = m.char.utf8Size + byteLength (Mark.text rest) := by
    rw [hstands.text_eq]
    rfl
  omega

end Statements

/-! ### Statements tile a text -/

/-- The byte belongs to the statement. -/
def Statement.Covers (s : Statement) (offset : Nat) : Prop :=
  s.offset ≤ offset ∧ offset < s.offset + byteLength s.text

/-- A character that may stand outside every statement: a blank, or a character of a comment or one
of the three separators outside every group. -/
def Mark.isBetweenStatements (m : Mark) : Bool :=
  isSpace m.char || m.isTopComment || m.isTopCode && m.char ∈ [';', '|', '&']

/-- Statements that tile a text: they stand in it one behind the other, and nothing of interest
stands between them. -/
structure Statement.Tile (p : Profile) (text : List Char) (line : Nat) (ss : List Statement) :
    Prop where
  increasing : ss.Pairwise fun s t ↦ s.offset < t.offset
  apart : ss.Pairwise fun s t ↦ s.offset + byteLength s.text ≤ t.offset
  sliced : ∀ s ∈ ss, ∃ front behind, text = front ++ s.text ++ behind ∧
    s.offset = byteLength front ∧ s.line = lineAfter line front
  begins : ∀ s ∈ ss, ∃ c rest, s.text = c :: rest ∧ isSpace c = false
  ends : ∀ s ∈ ss, ∀ c ∈ s.text.getLast?, isSpace c = false
  covered : ∀ m ∈ marks p text line, (∀ s ∈ ss, ¬ s.Covers m.offset) → m.isBetweenStatements = true
  /-- No statement goes on over a comment, the end of a line or a separator. -/
  whole : ∀ s ∈ ss, ∀ m ∈ marks p text line, s.Covers m.offset →
    m.isTopComment = false ∧ m.endsLine = false ∧ (m.isTopCode = true → m.char ∉ [';', '|'])

section Tile

variable {p : Profile} {text : List Char} {line : Nat} {s : Statement} {m : Mark}

theorem Statement.StandsAt.covers_iff {front body behind : List Mark}
    (h : s.StandsAt p text line front body behind) (hm : m ∈ marks p text line) :
    s.Covers m.offset ↔ m ∈ body := by
  have hbytes := offset_mem_iff h.marks_eq hm
  rw [Nat.zero_add] at hbytes
  rw [Covers, h.offset_eq, h.text_eq]
  exact hbytes

/-- Only what may stand outside the statements separates them. -/
theorem Mark.isBetweenStatements_of_separates {next : Option Mark}
    (h : m.separatesStatements next = true) : m.isBetweenStatements = true := by
  rw [separatesStatements, Bool.or_eq_true, Bool.and_eq_true, decide_eq_true_eq] at h
  rw [isBetweenStatements, Bool.or_eq_true, Bool.or_eq_true]
  rcases h with hcomment | ⟨hdepth, hchar⟩
  · exact .inl (.inr hcomment)
  · split at hchar
    · next heq => exact .inr (by simp_all [isTopCode])
    · next heq => exact .inr (by simp_all [isTopCode])
    · next heq => exact .inr (by simp_all [isTopCode])
    · next heq => exact .inl (.inl (by rw [heq]; decide))
    · exact absurd hchar Bool.false_ne_true

/-- A character that cannot stand outside the statements belongs to one. -/
theorem exists_covers (hm : m ∈ marks p text line) (h : m.isBetweenStatements = false) :
    ∃ s ∈ statements p text line, s.Covers m.offset := by
  have hshown : isSpace m.char = false := by
    rw [Mark.isBetweenStatements, Bool.or_eq_false_iff, Bool.or_eq_false_iff] at h
    exact h.1.1
  obtain ⟨front, behind, hmarks⟩ := List.append_of_mem hm
  have hinside : m.separatesStatements behind.head? = false := by
    by_contra hseparates
    rw [Mark.isBetweenStatements_of_separates (by simpa using hseparates)] at h
    exact Bool.noConfusion h
  obtain ⟨run, hrun, hmem⟩ := exists_mem_pieces_append front hinside
  rw [← hmarks] at hrun
  have hvisible : isBlank (Mark.text run) = false := by
    by_contra hblank
    rw [Bool.not_eq_false, isBlank_iff] at hblank
    rw [hblank _ (List.mem_map_of_mem hmem)] at hshown
    exact Bool.noConfusion hshown
  obtain ⟨first, -, -, hs⟩ := Statement.exists_ofMarks?_of_visible hvisible
  obtain ⟨front', body, behind', hstands, -, hbody⟩ := Statement.exists_standsAt_of_run hrun hs
  exact ⟨_, List.mem_filterMap.2 ⟨run, hrun, hs⟩, (hstands.covers_iff hm).2 (hbody m hmem hshown)⟩

end Tile

/-- The statements of a text tile it. -/
theorem tile_statements (p : Profile) (text : List Char) (line : Nat) :
    Statement.Tile p text line (statements p text line) where
  increasing := pairwise_offset_statements p text line
  apart := pairwise_statements p text line
  sliced _ hs := exists_of_mem_statements hs
  begins s hs := by
    obtain ⟨front, body, behind, hstands⟩ := Statement.exists_standsAt hs
    obtain ⟨m, rest, rfl, hvisible⟩ := hstands.begins
    exact ⟨m.char, Mark.text rest, hstands.text_eq, hvisible⟩
  ends s hs := by
    obtain ⟨front, body, behind, hstands⟩ := Statement.exists_standsAt hs
    exact hstands.ends
  covered m hm houtside := by
    by_contra hinside
    obtain ⟨s, hs, hcovers⟩ := exists_covers hm (by simpa using hinside)
    exact houtside s hs hcovers
  whole s hs m hm hcovers := by
    obtain ⟨front, body, behind, hstands⟩ := Statement.exists_standsAt hs
    obtain ⟨next, hnext⟩ := hstands.whole m ((hstands.covers_iff hm).1 hcovers)
    exact Mark.of_separatesStatements_eq_false hnext

-- The ampersand of a redirection stays in its statement, and the comment goes.
example : statements Dialect.bash.profile "a; b 2>&1 # c\n&d".toList =
    [⟨0, 1, "a".toList⟩, ⟨3, 1, "b 2>&1".toList⟩, ⟨15, 2, "d".toList⟩] := by decide +kernel

end ShellCatalog
