import Mathlib.Data.List.Basic
import ShellCatalog.Nesting.Reached

/-!
# Reading plain text and quoted text

Most characters mean nothing to the reader: in code they are code, and all that they change is the
last character. A single quote opens a run of text in which every character but the next single
quote means nothing. These two facts are what a text has to be made of to be read without looking
at its characters one by one.

**The state behind the text is given in full**, as the state in front of it with the fields that
have changed. So two runs can be joined, and whatever a rule asks of the state can be read off.

Plain text, the text of a comment and the text between single quotes differ only in what their
characters are read as. `ReadsAs` says of a character that it leaves the state alone in this way;
what a whole text of such characters does is proved once from it, by induction on the text.
-/

namespace ShellCatalog

/-- A character that is only code wherever code stands: it neither escapes, quotes, comments, groups
or redirects, nor does it end a line. -/
def Profile.isPlain (p : Profile) (c : Char) : Bool :=
  c != p.escape && c != p.comment &&
    c ∉ ['\'', '"', '\x60', '<', '\n', '{', '}', '(', ')']

theorem Profile.ne_newline_of_isPlain {p : Profile} {c : Char} (plain : p.isPlain c = true) :
    c ≠ '\n' := by
  rintro rfl
  simp [Profile.isPlain] at plain

namespace Nesting

/-- The line behind a text is counted from the newlines in it, whatever it is read as. -/
theorem line_afterText (p : Profile) (s : Nesting) (text ahead : List Char) :
    (s.afterText p text ahead).line = lineAfter s.line text := by
  induction text generalizing s with
  | nil => rfl
  | cons c rest ih => rw [afterText_cons, ih, line_step, lineAfter_cons]

/-- A mark of a text stands on one of the lines of the text. -/
theorem line_of_mem_marksAhead {p : Profile} {ahead : List Char} {s : Nesting} {offset : Nat}
    {text : List Char} {m : Mark} (hm : m ∈ marksAhead p ahead s offset text) :
    s.line ≤ m.line ∧ m.line ≤ lineAfter s.line text := by
  obtain ⟨front, behind, htext, hbefore, -⟩ := exists_of_mem_marksAhead hm
  have hline : m.line = lineAfter s.line front := by rw [Mark.line, hbefore, line_afterText]
  rw [hline, htext]
  exact ⟨Nat.le_add_right .., lineAfter_mono (List.sublist_append_left ..)⟩

theorem line_eq_of_mem_marksAhead {p : Profile} {ahead : List Char} {s : Nesting} {offset : Nat}
    {text : List Char} {m : Mark} (single : '\n' ∉ text)
    (hm : m ∈ marksAhead p ahead s offset text) : m.line = s.line := by
  obtain ⟨habove, hbelow⟩ := line_of_mem_marksAhead hm
  rw [lineAfter_of_not_mem s.line single] at hbelow
  exact Nat.le_antisymm hbelow habove

/-! ### Text that leaves the state alone -/

/-- On whatever line and behind whatever character, `c` is read in `s` as `role`, and nothing
changes but the place. -/
def ReadsAs (p : Profile) (s : Nesting) (role : CharRole) (c : Char) : Prop :=
  ∀ line last rest, step p { s with line := line, last := last } c rest =
    ({ s with line := if c = '\n' then line + 1 else line, last := some (c, role) }, role)

theorem afterText_of_readsAs {p : Profile} {s : Nesting} {role : CharRole} {text : List Char}
    (ahead : List Char) (reads : ∀ c ∈ text, s.ReadsAs p role c) :
    s.afterText p text ahead =
      { s with
        line := lineAfter s.line text
        last := (text.getLast?.map fun c ↦ (c, role)).or s.last } := by
  suffices h : ∀ line last, afterText p { s with line := line, last := last } text ahead =
      { s with
        line := lineAfter line text
        last := (text.getLast?.map fun c ↦ (c, role)).or last } from h s.line s.last
  induction text with
  | nil => simp
  | cons c rest ih =>
    intro line last
    rw [afterText_cons, reads c List.mem_cons_self,
      ih (fun d hd ↦ reads d (List.mem_cons_of_mem _ hd)), lineAfter_cons, List.getLast?_cons]
    cases rest.getLast? <;> rfl

theorem mem_marksAhead_of_readsAs {p : Profile} {s : Nesting} {role : CharRole}
    {text ahead : List Char} {offset : Nat} (reads : ∀ c ∈ text, s.ReadsAs p role c) {m : Mark}
    (hm : m ∈ marksAhead p ahead s offset text) :
    m.role = role ∧ m.char ∈ text ∧
      ∃ line last, m.after = { s with line := line, last := last } := by
  suffices h : ∀ line last offset,
      m ∈ marksAhead p ahead { s with line := line, last := last } offset text →
      m.role = role ∧ m.char ∈ text ∧ ∃ line last, m.after = { s with line := line, last := last }
    from h s.line s.last offset hm
  clear hm
  induction text with
  | nil => simp [marksAhead]
  | cons c rest ih =>
    intro line last offset hm
    rw [marksAhead_cons, reads c List.mem_cons_self] at hm
    rcases List.mem_cons.1 hm with rfl | hm
    · exact ⟨rfl, List.mem_cons_self, _, _, rfl⟩
    · obtain ⟨hrole, hchar, hafter⟩ :=
        ih (fun d hd ↦ reads d (List.mem_cons_of_mem _ hd)) _ _ _ hm
      exact ⟨hrole, List.mem_cons_of_mem _ hchar, hafter⟩

/-! ### Plain text -/

/-- A plain character in code is code, and changes nothing but the last character. -/
theorem step_plain {p : Profile} {s : Nesting} {c : Char} (rest : List Char)
    (code : s.mode = .code) (ready : s.escaping = false) (plain : p.isPlain c = true) :
    s.step p c rest = ({ s with last := some (c, .code) }, .code) := by
  simp only [Profile.isPlain, bne_iff_ne, Bool.and_eq_true, decide_eq_true_eq, List.mem_cons,
    List.not_mem_nil, or_false, not_or, ne_eq] at plain
  obtain ⟨⟨hescape, hcomment⟩, hspecial⟩ := plain
  simp [step, react, inCode, code, ready, hescape, hcomment, hspecial, Bracket.ofOpener?,
    Bracket.ofCloser?]

theorem readsAs_plain {p : Profile} {s : Nesting} {c : Char} (code : s.mode = .code)
    (ready : s.escaping = false) (plain : p.isPlain c = true) : s.ReadsAs p .code c := by
  intro line last rest
  rw [step_plain rest (by exact code) (by exact ready) plain,
    if_neg (Profile.ne_newline_of_isPlain plain)]

/-- Plain text in code changes nothing but the last character. -/
theorem afterText_plain {p : Profile} {s : Nesting} {text : List Char} (ahead : List Char)
    (code : s.mode = .code) (ready : s.escaping = false)
    (plain : ∀ c ∈ text, p.isPlain c = true) :
    s.afterText p text ahead =
      { s with last := (text.getLast?.map fun c ↦ (c, CharRole.code)).or s.last } := by
  have single : '\n' ∉ text := fun h ↦ Profile.ne_newline_of_isPlain (plain _ h) rfl
  rw [afterText_of_readsAs ahead fun c hc ↦ readsAs_plain code ready (plain c hc),
    lineAfter_of_not_mem s.line single]

/-- The marks of plain text are code, and no group opens or closes. -/
theorem mem_marksAhead_plain {p : Profile} {s : Nesting} {text ahead : List Char} {offset : Nat}
    (code : s.mode = .code) (ready : s.escaping = false)
    (plain : ∀ c ∈ text, p.isPlain c = true) {m : Mark}
    (hm : m ∈ marksAhead p ahead s offset text) :
    m.role = .code ∧ m.char ∈ text ∧ m.after.groups = s.groups := by
  obtain ⟨hrole, hchar, line, last, hafter⟩ :=
    mem_marksAhead_of_readsAs (fun c hc ↦ readsAs_plain code ready (plain c hc)) hm
  exact ⟨hrole, hchar, by rw [hafter]⟩

/-! ### Brackets and line ends -/

/-- An opening bracket in code opens a group. -/
theorem step_opener {p : Profile} {s : Nesting} {c : Char} {b : Bracket} (rest : List Char)
    (code : s.mode = .code) (ready : s.escaping = false) (hc : Bracket.ofOpener? c = some b)
    (escape : p.escape ≠ c) (comment : p.comment ≠ c) :
    s.step p c rest =
      ({ s with groups := ⟨b, s.line, none⟩ :: s.groups, last := some (c, .code) }, .code) := by
  rcases Bracket.eq_of_ofOpener? hc with rfl | rfl <;>
    simp [step, react, inCode, code, ready, hc, openGroup, escape.symm, comment.symm]

/-- A closing bracket in code closes the group that its bracket opened. -/
theorem step_closer {p : Profile} {s : Nesting} {c : Char} {b : Bracket} {line : Nat}
    {outer : List Group} (rest : List Char) (code : s.mode = .code) (ready : s.escaping = false)
    (hc : Bracket.ofCloser? c = some b) (inside : s.groups = ⟨b, line, none⟩ :: outer)
    (escape : p.escape ≠ c) (comment : p.comment ≠ c) :
    s.step p c rest = ({ s with groups := outer, last := some (c, .code) }, .code) := by
  rcases Bracket.eq_of_ofCloser? hc with rfl | rfl <;>
    simp [step, react, inCode, code, ready, hc, closeGroup, inside, escape.symm, comment.symm,
      Bracket.ofOpener?]

/-- A closing bracket in code changes nothing where no group is open. -/
theorem step_strayCloser {p : Profile} {s : Nesting} {c : Char} {b : Bracket}
    (rest : List Char) (code : s.mode = .code) (ready : s.escaping = false)
    (hc : Bracket.ofCloser? c = some b) (top : s.groups = []) (escape : p.escape ≠ c)
    (comment : p.comment ≠ c) :
    s.step p c rest = ({ s with last := some (c, .code) }, .code) := by
  rcases Bracket.eq_of_ofCloser? hc with rfl | rfl <;>
    simp [step, react, inCode, code, ready, hc, closeGroup, top, escape.symm, comment.symm,
      Bracket.ofOpener?]

/-- The end of a line of code is code when no here-document waits. -/
theorem step_newline {p : Profile} {s : Nesting} (rest : List Char) (code : s.mode = .code)
    (ready : s.escaping = false) (docs : s.hereDocs = []) (escape : p.escape ≠ '\n')
    (comment : p.comment ≠ '\n') :
    s.step p '\n' rest =
      ({ s with line := s.line + 1, last := some ('\n', .code) }, .code) := by
  simp [step, react, inCode, endCodeLine, code, ready, docs, escape.symm, comment.symm]

/-! ### Blank text -/

end Nesting

/-- A blank is plain in every dialect, unless it ends a line. -/
theorem Dialect.isPlain_of_isSpace {c : Char} (d : Dialect) (blank : isSpace c = true)
    (hline : c ≠ '\n') : d.profile.isPlain c = true := by
  have visible : ∀ v, isSpace v = false → c ≠ v := by
    rintro v hv rfl
    exact absurd (hv.symm.trans blank) (by simp)
  have special : ∀ v ∈ ['#', '\\', '\'', '"', '\x60', '<', '{', '}', '(', ')'],
      isSpace v = false := by simp [isSpace]
  cases d <;>
    simp [Profile.isPlain, Dialect.profile, Profile.bash, Profile.zsh, Profile.sh, Profile.pwsh,
      hline, visible, special]

namespace Nesting

/-- Where nothing is open, a blank is code and changes nothing but the place. -/
theorem step_blank {d : Dialect} {s : Nesting} {c : Char} (rest : List Char)
    (balanced : s.isBalanced = true) (blank : isSpace c = true) :
    s.step d.profile c rest =
      ({ s with line := if c = '\n' then s.line + 1 else s.line, last := some (c, .code) },
        .code) := by
  obtain ⟨hmode, -, hdocs, hready⟩ := isBalanced_iff.1 balanced
  by_cases hc : c = '\n'
  · subst hc
    have hspecial : d.profile.escape ≠ '\n' ∧ d.profile.comment ≠ '\n' := by
      cases d <;> decide
    rw [step_newline rest hmode hready hdocs hspecial.1 hspecial.2, if_pos rfl]
  · rw [step_plain rest hmode hready (d.isPlain_of_isSpace blank hc), if_neg hc]

/-- Blank text leaves nothing open. -/
theorem isBalanced_afterText_blank {d : Dialect} {s : Nesting} {text ahead : List Char}
    (balanced : s.isBalanced = true) (blank : isBlank text = true) :
    (s.afterText d.profile text ahead).isBalanced = true := by
  have reads : ∀ c ∈ text, s.ReadsAs d.profile .code c := fun c hc line last rest ↦
    step_blank rest (isBalanced_iff.2 (isBalanced_iff.1 balanced)) (isBlank_iff.1 blank c hc)
  rw [afterText_of_readsAs ahead reads]
  exact isBalanced_iff.2 (isBalanced_iff.1 balanced)

/-! ### Comments -/

/-- Where a word may begin, a hash begins a comment. -/
theorem step_hash {d : Dialect} {s : Nesting} (rest : List Char) (code : s.mode = .code)
    (ready : s.escaping = false) (free : s.wordMayStart = true) :
    s.step d.profile '#' rest =
      ({ s with mode := .comment, last := some ('#', .comment) }, .comment) := by
  cases d <;> simp [step, react, inCode, code, ready, free, Dialect.profile, Profile.bash,
    Profile.zsh, Profile.sh, Profile.pwsh]

/-- In a comment every character but the end of the line is comment. -/
theorem step_comment {p : Profile} {s : Nesting} {c : Char} (rest : List Char)
    (comment : s.mode = .comment) (ready : s.escaping = false) (hc : c ≠ '\n') :
    s.step p c rest = ({ s with last := some (c, .comment) }, .comment) := by
  simp [step, react, comment, ready, hc]

/-- The end of its line ends a comment. -/
theorem step_commentEnd {p : Profile} {s : Nesting} (rest : List Char)
    (comment : s.mode = .comment) (ready : s.escaping = false) (docs : s.hereDocs = []) :
    s.step p '\n' rest =
      ({ s with mode := .code, line := s.line + 1, last := some ('\n', .code) }, .code) := by
  simp [step, react, endCodeLine, comment, ready, docs]

theorem readsAs_comment {p : Profile} {s : Nesting} {c : Char} (comment : s.mode = .comment)
    (ready : s.escaping = false) (hc : c ≠ '\n') : s.ReadsAs p .comment c := by
  intro line last rest
  rw [step_comment rest (by exact comment) (by exact ready) hc, if_neg hc]

/-- The rest of a line stays comment, and no group opens or closes in it. -/
theorem mem_marksAhead_comment {p : Profile} {s : Nesting} {text ahead : List Char} {offset : Nat}
    (comment : s.mode = .comment) (ready : s.escaping = false) (single : '\n' ∉ text) {m : Mark}
    (hm : m ∈ marksAhead p ahead s offset text) :
    m.role = .comment ∧ m.char ∈ text ∧ m.after.groups = s.groups := by
  obtain ⟨hrole, hchar, line, last, hafter⟩ := mem_marksAhead_of_readsAs
    (fun c hc ↦ readsAs_comment comment ready (ne_of_mem_of_not_mem hc single)) hm
  exact ⟨hrole, hchar, by rw [hafter]⟩

theorem afterText_comment {p : Profile} {s : Nesting} {text : List Char} (ahead : List Char)
    (comment : s.mode = .comment) (ready : s.escaping = false) (single : '\n' ∉ text) :
    s.afterText p text ahead =
      { s with last := (text.getLast?.map fun c ↦ (c, CharRole.comment)).or s.last } := by
  rw [afterText_of_readsAs ahead fun c hc ↦
      readsAs_comment comment ready (ne_of_mem_of_not_mem hc single),
    lineAfter_of_not_mem s.line single]

/-! ### Single quotes -/

/-- A single quote in code opens a single-quoted text, unless it belongs to the character in front
of it. -/
theorem step_openSingle {p : Profile} {s : Nesting} (rest : List Char) (code : s.mode = .code)
    (ready : s.escaping = false) (escape : p.escape ≠ '\'') (dollar : s.lastChar? ≠ some '$')
    (at_sign : s.lastChar? ≠ some '@') :
    s.step p '\'' rest =
      ({ s with mode := .single, openedOn := s.line, last := some ('\'', .quoteDelim) },
        .quoteDelim) := by
  simp [step, react, inCode, enter, code, ready, Ne.symm escape, dollar, at_sign]

/-- Between single quotes every other character is quoted. -/
theorem step_single {p : Profile} {s : Nesting} {c : Char} (rest : List Char)
    (single : s.mode = .single) (ready : s.escaping = false) (hc : c ≠ '\'') :
    s.step p c rest =
      ({ s with line := if c = '\n' then s.line + 1 else s.line, last := some (c, .quoted) },
        .quoted) := by
  simp [step, react, inQuotes, single, ready, hc]

theorem readsAs_single {p : Profile} {s : Nesting} {c : Char} (single : s.mode = .single)
    (ready : s.escaping = false) (hc : c ≠ '\'') : s.ReadsAs p .quoted c :=
  fun _ _ rest ↦ step_single rest (by exact single) (by exact ready) hc

theorem step_closeSingle {p : Profile} {s : Nesting} (rest : List Char)
    (single : s.mode = .single) (ready : s.escaping = false) :
    s.step p '\'' rest =
      ({ s with mode := .code, last := some ('\'', .quoteDelim) }, .quoteDelim) := by
  simp [step, react, inQuotes, single, ready]

/-- The state inside a single-quoted text stays what it is, but for its line and last character. -/
theorem afterText_single {p : Profile} {s : Nesting} {text : List Char} (ahead : List Char)
    (single : s.mode = .single) (ready : s.escaping = false) (unquoted : '\'' ∉ text) :
    s.afterText p text ahead =
      { s with
        line := lineAfter s.line text
        last := (text.getLast?.map fun c ↦ (c, CharRole.quoted)).or s.last } :=
  afterText_of_readsAs ahead fun _ hc ↦
    readsAs_single single ready (ne_of_mem_of_not_mem hc unquoted)

theorem mem_marksAhead_single {p : Profile} {s : Nesting} {text ahead : List Char} {offset : Nat}
    (single : s.mode = .single) (ready : s.escaping = false) (unquoted : '\'' ∉ text) {m : Mark}
    (hm : m ∈ marksAhead p ahead s offset text) :
    m.role = .quoted ∧ m.after.mode = .single ∧ m.after.groups = s.groups := by
  obtain ⟨hrole, -, line, last, hafter⟩ := mem_marksAhead_of_readsAs
    (fun c hc ↦ readsAs_single single ready (ne_of_mem_of_not_mem hc unquoted)) hm
  exact ⟨hrole, by rw [hafter, single], by rw [hafter]⟩

/-- A text between single quotes is read from one code state to the next. -/
theorem afterText_singleQuoted {p : Profile} {s : Nesting} {text : List Char} (ahead : List Char)
    (code : s.mode = .code) (ready : s.escaping = false) (escape : p.escape ≠ '\'')
    (dollar : s.lastChar? ≠ some '$') (at_sign : s.lastChar? ≠ some '@')
    (unquoted : '\'' ∉ text) :
    s.afterText p ('\'' :: (text ++ ['\''])) ahead =
      { s with
        line := lineAfter s.line text
        openedOn := s.line
        last := some ('\'', .quoteDelim) } := by
  rw [afterText_cons, step_openSingle _ code ready escape dollar at_sign, afterText_append,
    afterText_single _ rfl (by exact ready) unquoted, afterText_cons,
    step_closeSingle _ rfl (by exact ready), afterText_nil]
  simp [code]

/-- The marks of a text between single quotes: a delimiter, quoted characters in a state that is
inside the quotes, and a delimiter. -/
theorem marksAhead_singleQuoted {p : Profile} {s : Nesting} {text : List Char}
    (ahead : List Char) (offset : Nat)
    (code : s.mode = .code) (ready : s.escaping = false) (escape : p.escape ≠ '\'')
    (dollar : s.lastChar? ≠ some '$') (at_sign : s.lastChar? ≠ some '@')
    (unquoted : '\'' ∉ text) :
    ∃ opening inner closing,
      marksAhead p ahead s offset ('\'' :: (text ++ ['\''])) = opening :: (inner ++ [closing]) ∧
      Mark.text inner = text ∧
      (∀ m ∈ inner, m.role = .quoted ∧ m.after.mode = .single ∧ m.after.groups = s.groups) ∧
      (opening.offset = offset ∧ opening.char = '\'' ∧ opening.role = .quoteDelim ∧
        opening.after.groups = s.groups) ∧
      closing.offset = offset + 1 + byteLength text ∧ closing.char = '\'' ∧
        closing.role = .quoteDelim ∧ closing.after.groups = s.groups := by
  rw [marksAhead_cons, step_openSingle _ code ready escape dollar at_sign, marksAhead_append]
  set inside : Nesting :=
    { s with mode := .single, openedOn := s.line, last := some ('\'', .quoteDelim) } with hinside
  have hafter := afterMarks_marksAhead p (['\''] ++ ahead) inside (offset + '\''.utf8Size) text
  rw [afterText_single _ rfl (by exact ready) unquoted] at hafter
  rw [hafter, marksAhead_cons, step_closeSingle _ rfl (by exact ready)]
  refine ⟨_, _, _, rfl, text_marksAhead .., fun m hm ↦ ?_, ⟨rfl, rfl, rfl, rfl⟩, rfl, rfl, rfl, rfl⟩
  exact mem_marksAhead_single (s := inside) rfl ready unquoted hm

end Nesting

end ShellCatalog
