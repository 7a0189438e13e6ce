import Mathlib.Data.List.TakeWhile
import ShellCatalog.LogicalLine
import ShellCatalog.Proofs.PlainText
import ShellCatalog.Statement.Basic
import ShellCatalog.Word

/-!
# Rows of words

A word is **solid** when nothing in it separates, wherever a word may begin, and nothing is open
behind it. Solid words with single spaces between them are a row, and a row is cut by every reader
where it was put together: it is one statement, its words are the words, and rows on lines of their
own are the logical lines of the text.

**Every reader starts anew.** The lines of a file are cut in one reading of the file, statements in
one reading of the line and words in one reading of the statement. So what is asked of a solid word
is asked in every state in which a word may begin, not only in the first state of a text.
-/

namespace ShellCatalog

/-! ### Marks at which nothing ends -/

namespace Mark

/-- No statement ends at the mark, whatever follows. -/
def IsUnbroken (m : Mark) : Prop :=
  ∀ next, m.separatesStatements next = false

/-- The mark belongs to a word: neither a word nor a statement ends at it, whatever follows. -/
def IsSolid (m : Mark) : Prop :=
  m.IsUnbroken ∧ ∀ next, m.separatesWords next = false

theorem IsUnbroken.isTopComment {m : Mark} (h : m.IsUnbroken) : m.isTopComment = false :=
  (of_separatesStatements_eq_false (h none)).1

/-- No logical line ends where no statement does. -/
theorem IsUnbroken.endsLine {m : Mark} (h : m.IsUnbroken) : m.endsLine = false :=
  (of_separatesStatements_eq_false (h none)).2.1

/-- Nothing ends inside a group. -/
theorem isUnbroken_of_depth {m : Mark} (h : m.depth ≠ 0) : m.IsUnbroken := by
  intro next
  simp [separatesStatements, isTopComment, h]

/-- No statement ends at a mark of code that is no separator and no newline. -/
theorem isUnbroken_of_code {m : Mark} (role : m.role = .code)
    (hchar : m.char ∉ [';', '|', '&', '\n']) : m.IsUnbroken := by
  intro next
  simp only [List.mem_cons, List.not_mem_nil, or_false, not_or] at hchar
  obtain ⟨hsemicolon, hbar, hampersand, hnewline⟩ := hchar
  have hcomment : m.isTopComment = false := by simp [isTopComment, role]
  rw [separatesStatements, hcomment]
  split <;> simp_all

/-- A mark of code is solid unless its character separates. -/
theorem isSolid_of_code {m : Mark} (role : m.role = .code)
    (hchar : isSpace m.char = false ∧ m.char ∉ [';', '|', '&']) : m.IsSolid := by
  have hnewline : m.char ≠ '\n' := by
    intro h
    rw [h] at hchar
    exact absurd hchar.1 (by decide)
  obtain ⟨hspace, hseparator⟩ := hchar
  simp only [List.mem_cons, List.not_mem_nil, or_false, not_or] at hseparator
  refine ⟨isUnbroken_of_code role (by simp [hseparator, hnewline]), fun next ↦ ?_⟩
  simp [separatesWords, isTopCode, role, hspace]

/-- A quoted mark or a quote is solid, unless it is a newline that leaves nothing open. -/
theorem isSolid_of_quoted {m : Mark} (role : m.role = .quoted ∨ m.role = .quoteDelim)
    (hline : m.char = '\n' → m.after.isBalanced = false) : m.IsSolid := by
  have hends : m.endsLine = false := by
    by_cases h : m.char = '\n'
    · simp [endsLine, hline h]
    · simp [endsLine, h]
  refine ⟨fun next ↦ ?_, fun next ↦ ?_⟩
  · rcases role with role | role
    all_goals
      simp only [separatesStatements, isTopComment, role, hends]
      split <;> simp
  · rcases role with role | role <;> simp [separatesWords, isTopCode, role]

end Mark

/-! ### Solid words -/

/-- A blank or nothing stands in front. -/
def Nesting.AtBlank (s : Nesting) : Prop :=
  ∀ c, s.lastChar? = some c → isSpace c = true

theorem Nesting.AtBlank.lastChar?_ne {s : Nesting} {c : Char} (hs : s.AtBlank)
    (hc : isSpace c = false) : s.lastChar? ≠ some c := by
  intro h
  rw [hs c h] at hc
  exact Bool.noConfusion hc

/-- A word may begin here: nothing is open, and a blank or nothing stands in front. -/
structure Nesting.AtWord (s : Nesting) : Prop where
  balanced : s.isBalanced = true
  blank : s.AtBlank

theorem Nesting.atWord_start (line : Nat) : (start line).AtWord :=
  ⟨rfl, by simp [AtBlank, start, lastChar?]⟩

/-- A text that is one word wherever a word may begin. -/
structure SolidWord (p : Profile) (word : List Char) : Prop where
  /-- It begins with a visible character. -/
  visible : ∃ c rest, word = c :: rest ∧ isSpace c = false
  /-- It ends with a visible character. -/
  kept : trimEnd word = word
  solid : ∀ {s : Nesting} {ahead : List Char} {offset : Nat}, s.AtWord →
    ∀ m ∈ marksAhead p ahead s offset word, m.IsSolid
  balanced : ∀ {s : Nesting} {ahead : List Char}, s.AtWord →
    (s.afterText p word ahead).isBalanced = true

theorem SolidWord.ne_nil {p : Profile} {word : List Char} (h : SolidWord p word) : word ≠ [] := by
  obtain ⟨c, rest, rfl, -⟩ := h.visible
  exact List.cons_ne_nil _ _

/-! ### Words of bare characters and of quoted text -/

/-- A plain character that separates neither words nor statements. -/
def Profile.isBare (p : Profile) (c : Char) : Bool :=
  p.isPlain c && !isSpace c && c ∉ [';', '|', '&']

theorem Profile.isBare_iff {p : Profile} {c : Char} :
    p.isBare c = true ↔ p.isPlain c = true ∧ isSpace c = false ∧ c ∉ [';', '|', '&'] := by
  simp [isBare, and_assoc]

section Solid

variable {p : Profile} {s : Nesting} {text ahead : List Char} {offset : Nat} {m : Mark}

theorem isSolid_of_mem_bare (code : s.mode = .code) (ready : s.escaping = false)
    (bare : ∀ c ∈ text, p.isBare c = true) (hm : m ∈ marksAhead p ahead s offset text) :
    m.IsSolid := by
  have plain : ∀ c ∈ text, p.isPlain c = true := fun c hc ↦ (Profile.isBare_iff.1 (bare c hc)).1
  obtain ⟨hrole, hchar, -⟩ := Nesting.mem_marksAhead_plain code ready plain hm
  exact Mark.isSolid_of_code hrole (Profile.isBare_iff.1 (bare _ hchar)).2

/-- Between single quotes everything belongs to one word. -/
theorem isSolid_of_mem_singleQuoted (code : s.mode = .code) (ready : s.escaping = false)
    (escape : p.escape ≠ '\'') (dollar : s.lastChar? ≠ some '$') (at_sign : s.lastChar? ≠ some '@')
    (unquoted : '\'' ∉ text) (hm : m ∈ marksAhead p ahead s offset ('\'' :: (text ++ ['\'']))) :
    m.IsSolid := by
  obtain ⟨opening, inner, closing, hmarks, -, hinner, hopening, hclosing⟩ :=
    Nesting.marksAhead_singleQuoted ahead offset code ready escape dollar at_sign unquoted
  rw [hmarks] at hm
  rcases List.mem_cons.1 hm with rfl | hm
  · obtain ⟨-, hchar, hrole, -⟩ := hopening
    exact Mark.isSolid_of_quoted (.inr hrole) (by simp [hchar])
  · rcases List.mem_append.1 hm with hm | hm
    · obtain ⟨hrole, hmode, -⟩ := hinner m hm
      exact Mark.isSolid_of_quoted (.inl hrole) fun _ ↦ by simp [Nesting.isBalanced, hmode]
    · obtain ⟨-, hchar, hrole, -⟩ := List.mem_singleton.1 hm ▸ hclosing
      exact Mark.isSolid_of_quoted (.inr hrole) (by simp [hchar])

/-- A text of bare characters is a solid word. -/
theorem solidWord_bare (full : text ≠ []) (bare : ∀ c ∈ text, p.isBare c = true) :
    SolidWord p text where
  visible := by
    cases text with
    | nil => exact absurd rfl full
    | cons c rest => exact ⟨c, rest, rfl, (Profile.isBare_iff.1 (bare c List.mem_cons_self)).2.1⟩
  kept := by
    have hlast := bare _ (List.getLast_mem full)
    rw [← List.dropLast_append_getLast full]
    exact trimEnd_concat _ (Profile.isBare_iff.1 hlast).2.1
  solid hs m hm := by
    obtain ⟨hmode, -, -, hescape⟩ := Nesting.isBalanced_iff.1 hs.balanced
    exact isSolid_of_mem_bare hmode hescape bare hm
  balanced hs := by
    obtain ⟨hmode, hgroups, hdocs, hescape⟩ := Nesting.isBalanced_iff.1 hs.balanced
    rw [Nesting.afterText_plain _ hmode hescape fun c hc ↦ (Profile.isBare_iff.1 (bare c hc)).1]
    exact Nesting.isBalanced_iff.2 ⟨hmode, hgroups, hdocs, hescape⟩

/-- A text between single quotes is a solid word. -/
theorem solidWord_singleQuoted (escape : p.escape ≠ '\'') (unquoted : '\'' ∉ text) :
    SolidWord p ('\'' :: (text ++ ['\''])) where
  visible := ⟨_, _, rfl, by decide⟩
  kept := trimEnd_concat ('\'' :: text) (by decide)
  solid hs m hm := by
    obtain ⟨hmode, -, -, hescape⟩ := Nesting.isBalanced_iff.1 hs.balanced
    exact isSolid_of_mem_singleQuoted hmode hescape escape (hs.blank.lastChar?_ne (by decide))
      (hs.blank.lastChar?_ne (by decide)) unquoted hm
  balanced hs := by
    obtain ⟨hmode, hgroups, hdocs, hescape⟩ := Nesting.isBalanced_iff.1 hs.balanced
    rw [Nesting.afterText_singleQuoted _ hmode hescape escape (hs.blank.lastChar?_ne (by decide))
      (hs.blank.lastChar?_ne (by decide)) unquoted]
    exact Nesting.isBalanced_iff.2 ⟨hmode, hgroups, hdocs, hescape⟩

/-- Bare characters and then a text between single quotes are a solid word, when the quote does not
belong to the character in front of it. -/
theorem solidWord_bare_singleQuoted {lead : List Char} {c : Char} (escape : p.escape ≠ '\'')
    (bare : ∀ d ∈ lead ++ [c], p.isBare d = true) (dollar : c ≠ '$') (at_sign : c ≠ '@')
    (unquoted : '\'' ∉ text) : SolidWord p ((lead ++ [c]) ++ '\'' :: (text ++ ['\''])) := by
  have plain : ∀ d ∈ lead ++ [c], p.isPlain d = true :=
    fun d hd ↦ (Profile.isBare_iff.1 (bare d hd)).1
  have hbare : SolidWord p (lead ++ [c]) := solidWord_bare (by simp) bare
  refine ⟨?_, ?_, fun {s ahead offset} hs m hm ↦ ?_, fun {s ahead} hs ↦ ?_⟩
  · obtain ⟨d, rest, heq, hd⟩ := hbare.visible
    exact ⟨d, _, by rw [heq, List.cons_append], hd⟩
  · rw [← List.cons_append, ← List.append_assoc]
    exact trimEnd_concat _ (by decide)
  · obtain ⟨hmode, -, -, hescape⟩ := Nesting.isBalanced_iff.1 hs.balanced
    rw [marksAhead_append, Nesting.afterMarks_marksAhead,
      Nesting.afterText_plain _ hmode hescape plain] at hm
    rcases List.mem_append.1 hm with hm | hm
    · exact isSolid_of_mem_bare hmode hescape bare hm
    · exact isSolid_of_mem_singleQuoted (by exact hmode) (by exact hescape) escape
        (by simpa [Nesting.lastChar?] using dollar) (by simpa [Nesting.lastChar?] using at_sign)
        unquoted hm
  · obtain ⟨hmode, hgroups, hdocs, hescape⟩ := Nesting.isBalanced_iff.1 hs.balanced
    rw [Nesting.afterText_append, Nesting.afterText_plain _ hmode hescape plain,
      Nesting.afterText_singleQuoted _ (by exact hmode) (by exact hescape) escape
        (by simpa [Nesting.lastChar?] using dollar) (by simpa [Nesting.lastChar?] using at_sign)
        unquoted]
    exact Nesting.isBalanced_iff.2 ⟨hmode, hgroups, hdocs, hescape⟩

end Solid

/-! ### Rows -/

/-- Words with single spaces between them. -/
def row (first : List Char) (others : List (List Char)) : List Char :=
  first ++ others.flatMap (' ' :: ·)

@[simp] theorem row_nil (first : List Char) : row first [] = first := by
  simp [row]

theorem row_cons (first word : List Char) (others : List (List Char)) :
    row first (word :: others) = first ++ ' ' :: row word others := by
  simp [row]

theorem Dialect.isPlain_space (d : Dialect) : d.profile.isPlain ' ' = true := by
  cases d <;> decide

/-! ### The marks of a row -/

section Row

variable {p : Profile} {first : List Char} {others : List (List Char)}

/-- A row with more than one word is the first word, a space that ends it, and a row that begins
where a word may begin. -/
theorem marksAhead_row_cons {word : List Char} {s : Nesting} (ahead : List Char) (offset : Nat)
    (gap : p.isPlain ' ' = true) (solid : SolidWord p first) (hs : s.AtWord) :
    ∃ space t,
      marksAhead p ahead s offset (row first (word :: others)) =
        marksAhead p (' ' :: row word others ++ ahead) s offset first ++
          space :: marksAhead p ahead t (offset + byteLength first + 1) (row word others) ∧
      s.afterText p (row first (word :: others)) ahead = t.afterText p (row word others) ahead ∧
      space.IsUnbroken ∧ (∀ next, space.separatesWords next = true) ∧ t.AtWord := by
  set u := s.afterText p first (' ' :: row word others ++ ahead) with hu
  have hbalanced : u.isBalanced = true := solid.balanced hs
  obtain ⟨hmode, hgroups, hdocs, hescape⟩ := Nesting.isBalanced_iff.1 hbalanced
  have hspace := Nesting.step_plain (row word others ++ ahead) hmode hescape gap
  set t : Nesting := { u with last := some (' ', .code) } with ht
  refine ⟨⟨offset + byteLength first, ' ', .code, u, t⟩, t, ?_, ?_, ?_, ?_, ?_⟩
  · rw [row_cons, marksAhead_append, Nesting.afterMarks_marksAhead, ← hu, marksAhead_cons, hspace]
    rfl
  · rw [row_cons, Nesting.afterText_append, ← hu, Nesting.afterText_cons, hspace]
  · intro next
    simp [Mark.separatesStatements, Mark.isTopComment]
  · intro next
    have hcode : isSpace ' ' = true := by decide
    simp [Mark.separatesWords, Mark.isTopCode, Mark.depth, Nesting.depth, ht, hgroups, hcode]
  · refine ⟨?_, fun c hc ↦ ?_⟩
    · rw [Nesting.isBalanced_iff]
      exact ⟨hmode, hgroups, hdocs, hescape⟩
    · cases hc
      decide

/-- No statement ends within a row, and whether a word does is not decided by what follows. -/
theorem breaks_of_mem_row {s : Nesting} {ahead : List Char} {offset : Nat} {m : Mark}
    (gap : p.isPlain ' ' = true) (solid : ∀ w ∈ first :: others, SolidWord p w) (hs : s.AtWord)
    (hm : m ∈ marksAhead p ahead s offset (row first others)) :
    m.IsUnbroken ∧ ∀ next next', m.separatesWords next = m.separatesWords next' := by
  have hword {m : Mark} (h : m.IsSolid) :
      m.IsUnbroken ∧ ∀ next next', m.separatesWords next = m.separatesWords next' :=
    ⟨h.1, fun next next' ↦ (h.2 next).trans (h.2 next').symm⟩
  induction others generalizing first s offset with
  | nil =>
    rw [row_nil] at hm
    exact hword ((solid _ List.mem_cons_self).solid hs m hm)
  | cons word others ih =>
    have hfirst := solid _ List.mem_cons_self
    obtain ⟨space, t, hmarks, -, hspace, hends, ht⟩ :=
      marksAhead_row_cons ahead offset gap hfirst hs
    rw [hmarks] at hm
    rcases List.mem_append.1 hm with hm | hm
    · exact hword (hfirst.solid hs m hm)
    · rcases List.mem_cons.1 hm with rfl | hm
      · exact ⟨hspace, fun next next' ↦ (hends next).trans (hends next').symm⟩
      · exact ih (fun w hw ↦ solid w (List.mem_cons_of_mem _ hw)) ht hm

theorem isUnbroken_of_mem_row {s : Nesting} {ahead : List Char} {offset : Nat} {m : Mark}
    (gap : p.isPlain ' ' = true) (solid : ∀ w ∈ first :: others, SolidWord p w) (hs : s.AtWord)
    (hm : m ∈ marksAhead p ahead s offset (row first others)) : m.IsUnbroken :=
  (breaks_of_mem_row gap solid hs hm).1

theorem isBalanced_afterText_row {s : Nesting} {ahead : List Char} (gap : p.isPlain ' ' = true)
    (solid : ∀ w ∈ first :: others, SolidWord p w) (hs : s.AtWord) :
    (s.afterText p (row first others) ahead).isBalanced = true := by
  induction others generalizing first s with
  | nil =>
    rw [row_nil]
    exact (solid _ List.mem_cons_self).balanced hs
  | cons word others ih =>
    obtain ⟨-, t, -, hafter, -, -, ht⟩ :=
      marksAhead_row_cons ahead 0 gap (solid _ List.mem_cons_self) hs
    rw [hafter]
    exact ih (fun w hw ↦ solid w (List.mem_cons_of_mem _ hw)) ht

/-- Between its spaces a row is cut into its words. -/
theorem pieces_row {s : Nesting} {ahead : List Char} {offset : Nat} (gap : p.isPlain ' ' = true)
    (solid : ∀ w ∈ first :: others, SolidWord p w) (hs : s.AtWord) :
    (pieces Mark.separatesWords (marksAhead p ahead s offset (row first others))).map Mark.text =
      first :: others := by
  induction others generalizing first s offset with
  | nil =>
    have hfirst := solid _ List.mem_cons_self
    rw [row_nil, pieces_of_forall fun m hm ↦ (hfirst.solid hs m hm).2]
    simp
  | cons word others ih =>
    have hfirst := solid _ List.mem_cons_self
    obtain ⟨space, t, hmarks, -, -, hspace, ht⟩ :=
      marksAhead_row_cons ahead offset gap hfirst hs
    rw [hmarks, pieces_append_cons (fun m hm ↦ (hfirst.solid hs m hm).2) (hspace _), List.map_cons,
      text_marksAhead, ih (fun w hw ↦ solid w (List.mem_cons_of_mem _ hw)) ht]

theorem trimEnd_row (solid : ∀ w ∈ first :: others, SolidWord p w) :
    trimEnd (row first others) = row first others := by
  induction others generalizing first with
  | nil =>
    rw [row_nil]
    exact (solid _ List.mem_cons_self).kept
  | cons word others ih =>
    have hrow := ih fun w hw ↦ solid w (List.mem_cons_of_mem _ hw)
    have hword : row word others ≠ [] := by
      simp [row, (solid word (by simp)).ne_nil]
    rw [row_cons, List.append_cons, trimEnd_append (by rwa [hrow]), hrow]

end Row

/-! ### Cutting a text that does not break -/

/-- The words of a text without comments are the parts into which it is cut, but for the empty ones,
when the last part ends with a visible character. -/
theorem words_eq_filter_of_pieces {p : Profile} {text last : List Char} {ws : List (List Char)}
    (comments : ∀ m ∈ marks p text, m.isTopComment = false)
    (cut : (pieces Mark.separatesWords (marks p text)).map Mark.text = ws ++ [last])
    (full : last ≠ []) (kept : trimEnd last = last) :
    words p text = (ws ++ [last]).filter fun w ↦ !w.isEmpty := by
  have htop : (marks p text).takeWhile (fun m ↦ !m.isTopComment) = marks p text :=
    List.takeWhile_eq_self_iff.2 fun m hm ↦ by simp [comments m hm]
  have hbehind : (marks p text).dropWhile (fun m ↦ !m.isTopComment) = [] :=
    List.dropWhile_eq_nil_iff.2 fun m hm ↦ by simp [comments m hm]
  obtain ⟨runs, run, hruns⟩ :
      ∃ runs run, pieces Mark.separatesWords (marks p text) = runs ++ [run] :=
    ⟨_, _, (List.dropLast_append_getLast (pieces_ne_nil _ _)).symm⟩
  rw [hruns, List.map_append, List.map_singleton] at cut
  obtain ⟨hws, hlast⟩ := List.append_inj' cut rfl
  obtain rfl : Mark.text run = last := List.singleton_inj.1 hlast
  have hne : run ≠ [] := by
    rintro rfl
    exact full rfl
  simp only [words, htop, hbehind, hruns, List.append_nil, List.dropLast_concat,
    List.getLast?_concat, Option.toList_some]
  rw [List.filter_cons_of_pos (by simpa using hne), List.filter_nil, List.map_singleton, kept, hws]

/-- A text without comments, cut into words none of which is empty, consists of these words. -/
theorem words_eq_of_pieces {p : Profile} {text : List Char} {ws : List (List Char)}
    (comments : ∀ m ∈ marks p text, m.isTopComment = false)
    (cut : (pieces Mark.separatesWords (marks p text)).map Mark.text = ws)
    (full : ∀ w ∈ ws, w ≠ []) (kept : ∀ w ∈ ws, trimEnd w = w) : words p text = ws := by
  obtain ⟨before, last, rfl⟩ := (List.eq_nil_or_concat' ws).resolve_left fun h ↦
    pieces_ne_nil _ _ (List.map_eq_nil_iff.1 (cut.trans h))
  have hlast : last ∈ before ++ [last] := by simp
  rw [words_eq_filter_of_pieces comments cut (full _ hlast) (kept _ hlast), List.filter_eq_self]
  intro w hw
  simpa using full w hw

/-- Only code and escapes separate words. -/
theorem Mark.isTopComment_of_separatesWords {m : Mark} {next : Option Mark}
    (h : m.separatesWords next = true) : m.isTopComment = false := by
  by_contra hcomment
  rw [Bool.not_eq_false] at hcomment
  simp only [isTopComment, decide_eq_true_eq] at hcomment
  simp [separatesWords, isTopCode, hcomment.1] at h

/-- The first word of a text ends at the first mark that separates words. -/
theorem exists_words_eq_cons {p : Profile} {text : List Char} {run rest : List Mark} {m : Mark}
    (cut : marks p text = run ++ m :: rest) (full : run ≠ []) (solid : ∀ n ∈ run, n.IsSolid)
    (hm : ∀ next, m.separatesWords next = true) :
    ∃ others, words p text = Mark.text run :: others := by
  have hrun : ∀ n ∈ run, (!n.isTopComment) = true := by
    intro n hn
    rw [(solid n hn).1.isTopComment]
    rfl
  have htop : (marks p text).takeWhile (fun m ↦ !m.isTopComment) =
      run ++ m :: rest.takeWhile (fun m ↦ !m.isTopComment) := by
    rw [cut, List.takeWhile_append_of_pos hrun, List.takeWhile_cons_of_pos]
    rw [Mark.isTopComment_of_separatesWords (hm none)]
    rfl
  have hfull : Mark.text run ≠ [] := fun h ↦ full (List.map_eq_nil_iff.1 h)
  obtain ⟨piece, others, hpieces⟩ := List.exists_cons_of_ne_nil
    (pieces_ne_nil Mark.separatesWords (rest.takeWhile fun m ↦ !m.isTopComment))
  simp only [words, htop]
  rw [pieces_append_cons (fun n hn ↦ (solid n hn).2) (hm _), hpieces,
    List.dropLast_cons_of_ne_nil (by simp), List.map_cons, List.cons_append,
    List.filter_cons_of_pos (by simpa using hfull)]
  exact ⟨_, rfl⟩

/-- The first word of a text that begins with a solid word and a space is that word. -/
theorem exists_words_solidWord {p : Profile} {word : List Char} (more : List Char)
    (gap : p.isPlain ' ' = true) (solid : SolidWord p word) :
    ∃ others, words p (word ++ ' ' :: more) = word :: others := by
  have hstart := Nesting.atWord_start 1
  have hbalanced : ((Nesting.start 1).afterText p word (' ' :: more)).isBalanced = true :=
    solid.balanced hstart
  obtain ⟨hmode, hgroups, -, hescape⟩ := Nesting.isBalanced_iff.1 hbalanced
  set u := (Nesting.start 1).afterText p word (' ' :: more)
  have hmarks : marks p (word ++ ' ' :: more) =
      marksAhead p (' ' :: more) (.start 1) 0 word ++
        ⟨0 + byteLength word, ' ', .code, u, { u with last := some (' ', .code) }⟩ ::
          marksFrom p { u with last := some (' ', .code) }
            (0 + byteLength word + ' '.utf8Size) more := by
    rw [marks, marksFrom_append, Nesting.afterMarks_marksAhead, marksFrom_cons,
      Nesting.step_plain _ hmode hescape gap]
  have hne : marksAhead p (' ' :: more) (.start 1) 0 word ≠ [] := by
    intro h
    have htext := congrArg Mark.text h
    rw [text_marksAhead] at htext
    exact solid.ne_nil htext
  have hblank : isSpace ' ' = true := by decide
  obtain ⟨others, hwords⟩ := exists_words_eq_cons hmarks hne (fun m hm ↦ solid.solid hstart m hm)
    fun next ↦ by
      simp [Mark.separatesWords, Mark.isTopCode, Mark.depth, Nesting.depth, hgroups, hblank]
  rw [text_marksAhead] at hwords
  exact ⟨others, hwords⟩

/-- A text in which nothing separates statements is one statement, without the blanks at its end. -/
theorem statements_eq_trimEnd {p : Profile} {c : Char} {rest : List Char} {line : Nat}
    (unbroken : ∀ m ∈ marks p (c :: rest) line, m.IsUnbroken) (visible : isSpace c = false) :
    statements p (c :: rest) line = [⟨0, line, trimEnd (c :: rest)⟩] := by
  rw [statements, pieces_of_forall fun m hm ↦ unbroken m hm]
  have htext := text_marks p (c :: rest) line
  rw [marks, marksFrom_cons] at htext ⊢
  simp only [List.filterMap_cons, List.filterMap_nil, Statement.ofMarks?, List.dropWhile_cons,
    visible, Bool.false_eq_true, if_false, htext]
  rfl

/-- A text in which nothing separates statements, without blanks at its ends, is one statement. -/
theorem statements_of_isUnbroken {p : Profile} {c : Char} {rest : List Char} {line : Nat}
    (unbroken : ∀ m ∈ marks p (c :: rest) line, m.IsUnbroken) (visible : isSpace c = false)
    (kept : trimEnd (c :: rest) = c :: rest) :
    statements p (c :: rest) line = [⟨0, line, c :: rest⟩] := by
  rw [statements_eq_trimEnd unbroken visible, kept]

section Row

variable {p : Profile} {first : List Char} {others : List (List Char)}

/-- The words of a row are the words it was put together from. -/
theorem words_row (gap : p.isPlain ' ' = true) (solid : ∀ w ∈ first :: others, SolidWord p w) :
    words p (row first others) = first :: others := by
  refine words_eq_of_pieces (fun m hm ↦ ?_) ?_ (fun w hw ↦ (solid w hw).ne_nil)
    fun w hw ↦ (solid w hw).kept
  · rw [marks, ← marksAhead_nil] at hm
    exact (isUnbroken_of_mem_row gap solid (Nesting.atWord_start 1) hm).isTopComment
  · rw [marks, ← marksAhead_nil]
    exact pieces_row gap solid (Nesting.atWord_start 1)

/-- A row with a word on the line below holds no comment, and its pieces are the words. -/
theorem pieces_row_line {last : List Char} (gap : p.isPlain ' ' = true) (escape : p.escape ≠ '\n')
    (comment : p.comment ≠ '\n') (solid : ∀ w ∈ first :: others, SolidWord p w)
    (solid' : SolidWord p last) :
    (∀ m ∈ marks p (row first others ++ '\n' :: last), m.isTopComment = false) ∧
      (pieces Mark.separatesWords (marks p (row first others ++ '\n' :: last))).map Mark.text =
        first :: others ++ [last] := by
  have hstart := Nesting.atWord_start 1
  set u := (Nesting.start 1).afterText p (row first others) ('\n' :: last) with hu
  have hbalanced : u.isBalanced = true := isBalanced_afterText_row gap solid hstart
  obtain ⟨hmode, hgroups, hdocs, hready⟩ := Nesting.isBalanced_iff.1 hbalanced
  set t : Nesting := { u with line := u.line + 1, last := some ('\n', .code) } with ht
  have hword : t.AtWord :=
    ⟨Nesting.isBalanced_iff.2 ⟨hmode, hgroups, hdocs, hready⟩, fun c hc ↦ by cases hc; decide⟩
  set front := marksAhead p ('\n' :: last) (.start 1) 0 (row first others) with hfront
  set newline : Mark := ⟨0 + byteLength (row first others), '\n', .code, u, t⟩ with hnewline
  set behind := marksFrom p t (0 + byteLength (row first others) + '\n'.utf8Size) last with hbehind
  have hmarks : marks p (row first others ++ '\n' :: last) = front ++ newline :: behind := by
    rw [marks, marksFrom_append, Nesting.afterMarks_marksAhead, marksFrom_cons,
      Nesting.step_newline last hmode hready hdocs escape comment]
  have hlast : ∀ m ∈ behind, m.IsSolid := by
    rw [hbehind, ← marksAhead_nil]
    exact solid'.solid hword
  have hrow (m : Mark) (hm : m ∈ front) := breaks_of_mem_row gap solid hstart hm
  have hends (next : Option Mark) : newline.separatesWords next = true := by
    have hblank : isSpace '\n' = true := by decide
    simp [hnewline, Mark.separatesWords, Mark.isTopCode, Mark.depth, Nesting.depth, ht, hgroups,
      hblank]
  constructor
  · intro m hm
    rw [hmarks, List.mem_append, List.mem_cons] at hm
    rcases hm with hm | rfl | hm
    · exact (hrow m hm).1.isTopComment
    · rfl
    · exact (hlast m hm).1.isTopComment
  have hblind : ∀ m ∈ front.getLast?,
      m.separatesWords (newline :: behind).head? = m.separatesWords none :=
    fun m hm ↦ (hrow m (List.mem_of_getLast? hm)).2 ..
  -- The newline closes the last word of the row and begins an empty piece of its own.
  obtain ⟨init, piece, first', rest', hinit, hpiece, hpieces⟩ := exists_pieces_append hblind
  rw [pieces, if_pos (hends _), pieces_of_forall fun m hm ↦ (hlast m hm).2] at hpiece
  obtain ⟨rfl, rfl⟩ := List.cons.inj hpiece
  have htext : Mark.text behind = last := text_marksFrom ..
  rw [hmarks, hpieces, List.append_nil, List.append_cons, ← hinit, List.map_append, hfront,
    pieces_row gap solid hstart, List.map_singleton, htext]

/-- A word on the line below a row is one word more. -/
theorem words_row_line {last : List Char} (gap : p.isPlain ' ' = true) (escape : p.escape ≠ '\n')
    (comment : p.comment ≠ '\n') (solid : ∀ w ∈ first :: others, SolidWord p w)
    (solid' : SolidWord p last) :
    words p (row first others ++ '\n' :: last) = first :: others ++ [last] := by
  obtain ⟨plain, hcut⟩ := pieces_row_line gap escape comment solid solid'
  refine words_eq_of_pieces plain hcut ?_ ?_
  · simpa [or_imp, forall_and] using ⟨(solid _ List.mem_cons_self).ne_nil,
      fun w hw ↦ (solid w (List.mem_cons_of_mem _ hw)).ne_nil, solid'.ne_nil⟩
  · simpa [or_imp, forall_and] using ⟨(solid _ List.mem_cons_self).kept,
      fun w hw ↦ (solid w (List.mem_cons_of_mem _ hw)).kept, solid'.kept⟩

/-- A row is one statement. -/
theorem statements_row {line : Nat} (gap : p.isPlain ' ' = true)
    (solid : ∀ w ∈ first :: others, SolidWord p w) :
    statements p (row first others) line = [⟨0, line, row first others⟩] := by
  obtain ⟨c, rest, hfirst, visible⟩ := (solid first List.mem_cons_self).visible
  have hrow : row first others = c :: (rest ++ others.flatMap (' ' :: ·)) := by
    rw [row, hfirst, List.cons_append]
  have hkept := trimEnd_row solid
  rw [hrow] at hkept ⊢
  refine statements_of_isUnbroken (fun m hm ↦ ?_) visible hkept
  rw [marks, ← marksAhead_nil, ← hrow] at hm
  exact isUnbroken_of_mem_row gap solid (Nesting.atWord_start line) hm

end Row

/-! ### Texts that are lines -/

/-- A text that is one logical line wherever a word may begin. -/
structure SolidLine (p : Profile) (text : List Char) : Prop where
  visible : isBlank text = false
  unbroken : ∀ {s : Nesting} {ahead : List Char} {offset : Nat}, s.AtWord →
    ∀ m ∈ marksAhead p ahead s offset text, m.endsLine = false
  balanced : ∀ {s : Nesting} {ahead : List Char}, s.AtWord →
    (s.afterText p text ahead).isBalanced = true

/-- A row is one logical line. -/
theorem solidLine_row {p : Profile} {first : List Char} {others : List (List Char)}
    (gap : p.isPlain ' ' = true) (solid : ∀ w ∈ first :: others, SolidWord p w) :
    SolidLine p (row first others) where
  visible := by
    obtain ⟨c, rest, hfirst, visible⟩ := (solid first List.mem_cons_self).visible
    simp [row, hfirst, isBlank, visible]
  unbroken hs m hm := (isUnbroken_of_mem_row gap solid hs hm).endsLine
  balanced hs := isBalanced_afterText_row gap solid hs

/-- The logical lines that begin on `line` when each of the texts is one and ends with a newline. -/
def numberedFrom (line : Nat) : List (List Char) → List LogicalLine
  | [] => []
  | text :: others => ⟨text, line, none⟩ :: numberedFrom (lineAfter line text + 1) others

theorem LogicalLine.ofMarks_marksAhead {p : Profile} {s : Nesting} {text : List Char} (line : Nat)
    (leftOpen : Option OpenConstruct) (ahead : List Char) (offset : Nat) (h : text ≠ []) :
    ofMarks line leftOpen (marksAhead p ahead s offset text) = ⟨text, s.line, leftOpen⟩ := by
  rw [ofMarks, text_marksAhead]
  cases text with
  | nil => exact absurd rfl h
  | cons c rest => rfl

theorem text_mem_of_mem_numberedFrom {line : Nat} {texts : List (List Char)} {l : LogicalLine}
    (h : l ∈ numberedFrom line texts) : l.text ∈ texts := by
  induction texts generalizing line with
  | nil => simp [numberedFrom] at h
  | cons text texts ih =>
    rcases List.mem_cons.1 h with rfl | h
    · exact List.mem_cons_self
    · exact List.mem_cons_of_mem _ (ih h)

/-- A text that does not break before its end, with a newline behind it that leaves nothing open, is
one logical line. -/
theorem logicalLines_of_line {p : Profile} {text : List Char} {t : Nesting} {role : CharRole}
    (visible : isBlank text = false)
    (unbroken : ∀ m ∈ marksAhead p ['\n'] (.start 1) 0 text, m.endsLine = false)
    (ends : ((Nesting.start 1).afterText p text ['\n']).step p '\n' [] = (t, role))
    (balanced : t.isBalanced = true) (literal : role ≠ .escaped) :
    logicalLines p (text ++ ['\n']) = [⟨text, 1, none⟩] := by
  set u := (Nesting.start 1).afterText p text ['\n'] with hu
  have hmarks : marks p (text ++ ['\n']) =
      marksAhead p ['\n'] (.start 1) 0 text ++ [⟨0 + byteLength text, '\n', role, u, t⟩] := by
    rw [marks, marksFrom_append, Nesting.afterMarks_marksAhead, ← hu, marksFrom_cons, ends,
      marksFrom_nil]
  have hpieces : pieces (fun m _ ↦ m.endsLine) (marks p (text ++ ['\n'])) =
      [marksAhead p ['\n'] (.start 1) 0 text, []] := by
    rw [hmarks, pieces_append_cons (fun m hm _ ↦ unbroken m hm)
      (by simp [Mark.endsLine, balanced, literal])]
    rfl
  have hopen : ((Nesting.start 1).afterMarks (marks p (text ++ ['\n']))).outermostOpen? = none := by
    rw [hmarks, Nesting.afterMarks_append, Nesting.afterMarks_cons]
    exact Nesting.outermostOpen?_of_isBalanced balanced
  have hne : text ≠ [] := by
    rintro rfl
    exact absurd visible (by decide)
  have hrun : LogicalLine.ofMarks 1 none (marksAhead p ['\n'] (.start 1) 0 text) =
      ⟨text, 1, none⟩ :=
    LogicalLine.ofMarks_marksAhead 1 none ['\n'] 0 hne
  have hvisible : isBlank (Mark.text (marksAhead p ['\n'] (.start 1) 0 text)) = false := by
    rwa [text_marksAhead]
  have hempty : isBlank (Mark.text []) = true := rfl
  simp [logicalLines, hpieces, hopen, -text_marksAhead, hvisible, hempty, hrun]

/-- A text that does not break and leaves nothing open is one logical line. -/
theorem logicalLines_of_isBalanced {d : Dialect} {text : List Char} (visible : isBlank text = false)
    (unbroken : ∀ m ∈ marksAhead d.profile ['\n'] (.start 1) 0 text, m.IsUnbroken)
    (balanced : ((Nesting.start 1).afterText d.profile text ['\n']).isBalanced = true) :
    logicalLines d.profile (text ++ ['\n']) = [⟨text, 1, none⟩] :=
  logicalLines_of_line visible (fun m hm ↦ (unbroken m hm).endsLine)
    (Nesting.step_blank [] balanced (by decide))
    (Nesting.isBalanced_iff.2 (Nesting.isBalanced_iff.1 balanced)) (by decide)

/-- Texts that are lines, each ended by a newline, are cut at these newlines. -/
theorem pieces_lines {p : Profile} {texts : List (List Char)} {s : Nesting} (offset : Nat)
    (escape : p.escape ≠ '\n') (comment : p.comment ≠ '\n')
    (solid : ∀ text ∈ texts, SolidLine p text) (hs : s.AtWord) :
    ∃ runs,
      pieces (fun m _ ↦ m.endsLine) (marksFrom p s offset (texts.flatMap (· ++ ['\n']))) =
        runs ++ [[]] ∧
      runs.map (LogicalLine.ofMarks 1 none) = numberedFrom s.line texts ∧
      (s.afterMarks (marksFrom p s offset (texts.flatMap (· ++ ['\n'])))).isBalanced = true := by
  induction texts generalizing s offset with
  | nil => exact ⟨[], rfl, rfl, hs.balanced⟩
  | cons text texts ih =>
    have htext := solid text List.mem_cons_self
    set more := texts.flatMap (· ++ ['\n']) with hmore
    have hsplit : (text :: texts).flatMap (· ++ ['\n']) = text ++ '\n' :: more := by
      simp [hmore]
    set u := s.afterText p text ('\n' :: more) with hu
    have hbalanced : u.isBalanced = true := htext.balanced hs
    obtain ⟨hmode, -, hdocs, hescape⟩ := Nesting.isBalanced_iff.1 hbalanced
    have hstep := Nesting.step_newline more hmode hescape hdocs escape comment
    set t : Nesting := { u with line := u.line + 1, last := some ('\n', .code) } with ht
    have hword : t.AtWord := by
      refine ⟨by rwa [Nesting.isBalanced_iff] at hbalanced ⊢, fun c hc ↦ ?_⟩
      cases hc
      decide
    have hends : (⟨offset + byteLength text, '\n', .code, u, t⟩ : Mark).endsLine = true := by
      simp [Mark.endsLine, hword.balanced]
    have hmarks : marksFrom p s offset (text ++ '\n' :: more) =
        marksAhead p ('\n' :: more) s offset text ++
          ⟨offset + byteLength text, '\n', .code, u, t⟩ ::
            marksFrom p t (offset + byteLength text + '\n'.utf8Size) more := by
      rw [marksFrom_append, Nesting.afterMarks_marksAhead, ← hu, marksFrom_cons, hstep]
    obtain ⟨runs, hpieces, hruns, hafter⟩ :=
      ih (offset + byteLength text + '\n'.utf8Size)
        (fun w hw ↦ solid w (List.mem_cons_of_mem _ hw)) hword
    refine ⟨marksAhead p ('\n' :: more) s offset text :: runs, ?_, ?_, ?_⟩
    · rw [hsplit, hmarks, pieces_append_cons (fun m hm _ ↦ htext.unbroken hs m hm) hends, hpieces,
        List.cons_append]
    · have hline : t.line = lineAfter s.line text + 1 := by
        rw [ht, hu, Nesting.line_afterText]
      rw [List.map_cons, hruns, hline, numberedFrom]
      rw [LogicalLine.ofMarks_marksAhead]
      rintro rfl
      exact absurd htext.visible (by decide)
    · rw [hsplit, hmarks, Nesting.afterMarks_append, Nesting.afterMarks_cons]
      exact hafter

/-- A file made of lines that end with newlines has these logical lines. -/
theorem logicalLines_lines {p : Profile} {texts : List (List Char)}
    (escape : p.escape ≠ '\n') (comment : p.comment ≠ '\n')
    (solid : ∀ text ∈ texts, SolidLine p text) :
    logicalLines p (texts.flatMap (· ++ ['\n'])) = numberedFrom 1 texts := by
  obtain ⟨runs, hpieces, hruns, hafter⟩ :=
    pieces_lines 0 escape comment solid (Nesting.atWord_start 1)
  have hopen := Nesting.outermostOpen?_of_isBalanced hafter
  have hvisible : ∀ run ∈ runs, isBlank (Mark.text run) = false := by
    intro run hrun
    have hmem : LogicalLine.ofMarks 1 none run ∈ numberedFrom 1 texts :=
      hruns ▸ List.mem_map_of_mem hrun
    exact (solid _ (text_mem_of_mem_numberedFrom hmem)).visible
  simp only [logicalLines, marks, hpieces, hopen, List.dropLast_concat, List.getLast?_concat]
  rw [List.filter_eq_self.2 fun run hrun ↦ by simp [hvisible run hrun]]
  rw [show (Nesting.start 1).line = 1 from rfl] at hruns
  simpa [isBlank, Mark.text] using hruns

end ShellCatalog
