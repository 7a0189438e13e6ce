import ShellCatalog.Proofs.FillerLines

/-!
# Block comments

A block comment of PowerShell stands between two blanks, outside quotes and groups, on one line.
All of it is comment (`read_blockComment`): from the opening pair on, reading only looks for the
pair that ends it, and a hash is remembered for one character.

**A block comment counts as a semicolon** (`findings_blockComment`), since comment separates
statements wherever no group is open. A semicolon and a blank are not the same inside of a command:
there the comment cuts the command in two, and an alias command loses its words behind it.

**It counts as a blank where no command goes on over it**, unless it comes first on a line behind a
dangling header. There the comment hides the body from the header, as a blank does not.
-/

namespace ShellCatalog

/-- The block comment of PowerShell that holds `comment`. -/
def blockComment (comment : List Char) : List Char :=
  '<' :: '#' :: (comment ++ ['#', '>'])

namespace Nesting

/-- The next character belongs to a block comment that stands outside every group. -/
structure InBlock (progress : BlockComment) (s : Nesting) : Prop where
  mode : s.mode = .blockComment progress
  top : s.groups = []
  quiet : s.hereDocs = []
  ready : s.escaping = false

variable {p : Profile} {s : Nesting} {c : Char} {closing : Bool}

/-- Where nothing is open, the first character of the opening pair begins a comment. -/
theorem inBlock_step_opening (h : s.isBalanced = true) (rest : List Char) :
    (s.step Dialect.pwsh.profile '<' ('#' :: rest)).2 = .comment ∧
      (s.step Dialect.pwsh.profile '<' ('#' :: rest)).1.InBlock .opening := by
  obtain ⟨hmode, hgroups, hdocs, hready⟩ := isBalanced_iff.1 h
  have hreact : s.react Dialect.pwsh.profile '<' ('#' :: rest) =
      (s.enter (.blockComment .opening), .comment) := by
    simp [react, hmode, hready, inCode, Dialect.profile, Profile.pwsh]
  rw [Nesting.step, hreact]
  exact ⟨rfl, rfl, hgroups, hdocs, hready⟩

/-- The second character of the opening pair does not count for the end of the comment. -/
theorem InBlock.step_opened (h : s.InBlock .opening) (c : Char) (rest : List Char) :
    (s.step p c rest).2 = .comment ∧ (s.step p c rest).1.InBlock (.inside false) := by
  rw [step_blockComment rest h.mode h.ready]
  exact ⟨rfl, rfl, h.top, h.quiet, h.ready⟩

/-- Unless its end is complete, a block comment goes on. -/
theorem InBlock.step (h : s.InBlock (.inside closing)) (unended : ¬ (closing = true ∧ c = '>'))
    (rest : List Char) :
    (s.step p c rest).2 = .comment ∧ (s.step p c rest).1.InBlock (.inside (c = '#')) := by
  rw [step_blockComment rest h.mode h.ready, inBlockComment, if_neg unended]
  exact ⟨rfl, rfl, h.top, h.quiet, h.ready⟩

theorem InBlock.step_end (h : s.InBlock (.inside true)) (rest : List Char) :
    (s.step p '>' rest).2 = .comment ∧ (s.step p '>' rest).1.isBalanced = true := by
  rw [step_blockComment rest h.mode h.ready]
  exact ⟨rfl, isBalanced_iff.2 ⟨rfl, h.top, h.quiet, h.ready⟩⟩

end Nesting

section Block

variable {p : Profile} {s : Nesting} {closing : Bool} {comment ahead : List Char} {offset : Nat}

theorem Mark.isTopComment_of_groups {m : Mark} (role : m.role = .comment)
    (top : m.after.groups = []) : m.isTopComment = true := by
  simp [isTopComment, role, depth, Nesting.depth, top]

/-- A block comment goes as far as its end, and outside groups all of it is comment. -/
theorem Nesting.InBlock.read (h : s.InBlock (.inside closing))
    (unended : ¬ ['#', '>'] <:+: (if closing then '#' :: comment else comment)) :
    (∀ m ∈ marksAhead p ahead s offset (comment ++ ['#', '>']), m.isTopComment = true) ∧
      (s.afterText p (comment ++ ['#', '>']) ahead).isBalanced = true := by
  -- The flag that is carried along says that the character in front was a hash.
  induction comment generalizing s closing offset with
  | nil =>
    obtain ⟨hrole, hnext⟩ := h.step (p := p) (c := '#') (by simp) ('>' :: ahead)
    obtain ⟨hrole', hend⟩ := hnext.step_end (p := p) ahead
    have htop := (isBalanced_iff.1 hend).2.1
    simp only [List.nil_append, marksAhead_cons, afterText_cons, marksAhead, List.mem_cons]
    refine ⟨?_, hend⟩
    rintro m (rfl | rfl | hm)
    · exact Mark.isTopComment_of_groups hrole hnext.top
    · exact Mark.isTopComment_of_groups hrole' htop
    · exact absurd hm List.not_mem_nil
  | cons c rest ih =>
    have hgoes : ¬ (closing = true ∧ c = '>') := by
      rintro ⟨rfl, rfl⟩
      exact unended ⟨[], rest, rfl⟩
    obtain ⟨hrole, hnext⟩ := h.step (p := p) hgoes (rest ++ ['#', '>'] ++ ahead)
    have hrest : ¬ ['#', '>'] <:+: (if decide (c = '#') then '#' :: rest else rest) := by
      have hwhole : (c :: rest) <:+: (if closing then '#' :: c :: rest else c :: rest) := by
        split
        · exact (List.suffix_cons _ _).isInfix
        · exact List.infix_refl _
      refine fun hend ↦ unended ((hend.trans ?_).trans hwhole)
      simp only [decide_eq_true_eq]
      split
      · next hc => exact hc ▸ List.infix_refl _
      · exact (List.suffix_cons _ _).isInfix
    obtain ⟨hmarks, hafter⟩ := @ih _ _ (offset + c.utf8Size) hnext hrest
    rw [List.cons_append, marksAhead_cons, afterText_cons]
    exact ⟨List.forall_mem_cons.2 ⟨Mark.isTopComment_of_groups hrole hnext.top, hmarks⟩, hafter⟩

/-- Where nothing is open, a block comment is comment as a whole and leaves nothing open. -/
theorem read_blockComment (offset : Nat) (balanced : s.isBalanced = true)
    (whole : ¬ ['#', '>'] <:+: comment) :
    (∀ m ∈ marksAhead Dialect.pwsh.profile ahead s offset (blockComment comment),
        m.isTopComment = true) ∧
      (s.afterText Dialect.pwsh.profile (blockComment comment) ahead).isBalanced = true := by
  obtain ⟨hrole, hopening⟩ :=
    Nesting.inBlock_step_opening balanced (comment ++ ['#', '>'] ++ ahead)
  obtain ⟨hrole', hopened⟩ := hopening.step_opened (p := Dialect.pwsh.profile) '#'
    (comment ++ ['#', '>'] ++ ahead)
  obtain ⟨hmarks, hafter⟩ := @Nesting.InBlock.read Dialect.pwsh.profile _ false comment ahead
    (offset + '<'.utf8Size + '#'.utf8Size) hopened whole
  rw [blockComment, marksAhead_cons, Nesting.afterText_cons, marksAhead_cons,
    Nesting.afterText_cons]
  exact ⟨List.forall_mem_cons.2 ⟨Mark.isTopComment_of_groups hrole hopening.top,
    List.forall_mem_cons.2 ⟨Mark.isTopComment_of_groups hrole' hopened.top, hmarks⟩⟩, hafter⟩

end Block

/-! ### Dividers and fillers of PowerShell -/

/-- A block comment divides statements. -/
theorem isDivider_blockComment {comment : List Char} (single : '\n' ∉ comment)
    (whole : ¬ ['#', '>'] <:+: comment) :
    IsDivider Dialect.pwsh.profile (blockComment comment) where
  full := List.cons_ne_nil _ _
  hash := by simp [blockComment]
  single := by simp [blockComment, single]
  between hs m hm := .inl fun next ↦ by
    rw [Mark.separatesStatements, (read_blockComment _ hs.balanced whole).1 m hm, Bool.true_or]
  balanced hs := (read_blockComment 0 hs.balanced whole).2
  divides hs m hm next := by
    rw [Mark.separatesStatements,
      (read_blockComment _ hs.balanced whole).1 m (List.mem_of_head? hm), Bool.true_or]
  visible := by simp [blockComment, isSpace]
  bodiless c hc := by
    obtain rfl : '<' = c := Option.some_inj.1 hc
    decide

/-- A semicolon divides statements. -/
theorem isDivider_semicolon : IsDivider Dialect.pwsh.profile [';'] := by
  have hstep {s : Nesting} (hs : s.AtWord) (rest : List Char) :
      s.step Dialect.pwsh.profile ';' rest = ({ s with last := some (';', .code) }, .code) := by
    obtain ⟨hmode, -, -, hready⟩ := Nesting.isBalanced_iff.1 hs.balanced
    exact Nesting.step_plain rest hmode hready (by decide)
  have hdivides {s : Nesting} (hs : s.AtWord) {ahead : List Char} {offset : Nat} :
      ∀ m ∈ marksAhead Dialect.pwsh.profile ahead s offset [';'], ∀ next,
        m.separatesStatements next = true := by
    intro m hm next
    rw [marksAhead_cons, hstep hs, marksAhead, List.mem_singleton] at hm
    rw [hm]
    simp [Mark.separatesStatements, Mark.depth, Nesting.depth,
      (Nesting.isBalanced_iff.1 hs.balanced).2.1]
  exact {
    full := List.cons_ne_nil _ _
    hash := by decide
    single := by decide
    between := fun hs m hm ↦ .inl (hdivides hs m hm)
    balanced := fun hs ↦ by
      rw [Nesting.afterText_cons, hstep hs, Nesting.afterText_nil]
      exact hs.balanced
    divides := fun hs m hm ↦ hdivides hs m (List.mem_of_head? hm)
    visible := by simp [isSpace]
    bodiless := fun c hc ↦ by
      obtain rfl : ';' = c := Option.some_inj.1 hc
      decide }

/-- A blank holds no statement and ends none. -/
theorem isFiller_blank : IsFiller Dialect.pwsh.profile [' '] := by
  have hblank : isSpace ' ' = true := by decide
  exact {
    full := List.cons_ne_nil _ _
    hash := by decide
    single := by decide
    between := fun {s ahead offset} hs m hm ↦ by
      rw [marksAhead_cons, Nesting.step_blank _ hs.balanced hblank, marksAhead,
        List.mem_singleton] at hm
      rw [hm]
      refine .inr ⟨hblank, fun next ↦ ?_⟩
      rw [Mark.separatesStatements_of_blank hblank rfl (Nesting.isBalanced_iff.1 hs.balanced).2.1]
      simp [Mark.endsLine]
    balanced := fun hs ↦ by
      rw [Nesting.afterText_cons, Nesting.step_blank _ hs.balanced hblank, Nesting.afterText_nil]
      exact hs.balanced }

/-! ### A block comment in a file -/

/-- A word may begin behind a text that leaves nothing open and ends with a blank. -/
theorem Nesting.atWord_of_blank {p : Profile} {text : List Char} {line : Nat}
    (balanced : ((Nesting.start line).afterText p text []).isBalanced = true)
    (blank : ∀ c ∈ text.getLast?, isSpace c = true) :
    ((Nesting.start line).afterText p text []).AtWord := by
  refine ⟨balanced, fun c hc ↦ ?_⟩
  rcases List.eq_nil_or_concat text with rfl | ⟨front, last, rfl⟩
  · exact (Nesting.atWord_start line).blank c hc
  · rw [List.concat_eq_append] at hc blank
    rw [Nesting.lastChar?_afterText_concat, Option.some_inj] at hc
    exact blank c (by rw [List.getLast?_concat, hc]; rfl)

/-- Between blanks and outside quotes and groups, a block comment of one line counts as a semicolon.
It counts as a blank where a command ends in front of it, or none goes on behind it, unless a header
dangles in front of a line that begins with it. -/
theorem findings_blockComment {path : Path} {front comment behind : List Char}
    (code : ((Nesting.start 1).afterText Dialect.pwsh.profile front []).mode = .code)
    (top : ((Nesting.start 1).afterText Dialect.pwsh.profile front []).depth = 0)
    (ready : ((Nesting.start 1).afterText Dialect.pwsh.profile front []).escaping = false)
    (blank : ∀ c ∈ front.getLast?, isSpace c = true) (single : '\n' ∉ comment)
    (whole : ¬ ['#', '>'] <:+: comment) (blank' : ∀ c ∈ behind.head?, isSpace c = true) :
    ∃ f g h,
      (⟨path, front ++ (blockComment comment ++ behind)⟩ : Source).findings (some .pwsh) = .ok f ∧
      (⟨path, front ++ ';' :: behind⟩ : Source).findings (some .pwsh) = .ok g ∧
      (⟨path, front ++ ' ' :: behind⟩ : Source).findings (some .pwsh) = .ok h ∧
      f = g ∧
      (IsGap Dialect.pwsh.profile front behind →
        isBlank (unendedLine Dialect.pwsh.profile front) = false ∨
          Findings.danglingAfter Dialect.pwsh.profile path none
            (logicalLines Dialect.pwsh.profile front) = none →
        f = h) := by
  have hquiet : ((Nesting.start 1).afterText Dialect.pwsh.profile front []).hereDocs = [] :=
    Nesting.hereDocs_afterText_of_noHereDocs rfl rfl
  have hword := Nesting.atWord_of_blank
    (Nesting.isBalanced_iff.2 ⟨code, List.length_eq_zero_iff.1 top, hquiet, ready⟩) blank
  have hcomment := isDivider_blockComment single whole
  refine ⟨_, _, _, rfl, rfl, rfl, ?_, fun gap shown ↦ ?_⟩
  · exact Findings.ofSource_filler hcomment.toIsFiller isDivider_semicolon.toIsFiller hword blank'
      (.inl ⟨hcomment, isDivider_semicolon⟩) (.inl ⟨hcomment, isDivider_semicolon⟩)
  · exact Findings.ofSource_filler hcomment.toIsFiller isFiller_blank hword blank' (.inr gap)
      (.inr shown)

/-- Behind the first word of a command, a comment loses the alias, as a blank does not; behind the
last word it does not either. -/
theorem findings_blockComment_of_alias :
    (⟨⟨"p.ps1"⟩, "Set-Alias ".toList ++
        (blockComment " c ".toList ++ " ll Get-ChildItem\n".toList)⟩ : Source).findings
          (some .pwsh) = .ok ⟨[], []⟩ ∧
      (⟨⟨"p.ps1"⟩, "Set-Alias ".toList ++ ' ' :: " ll Get-ChildItem\n".toList⟩ :
        Source).findings (some .pwsh) =
          .ok ⟨[⟨"ll", .alias, "Get-ChildItem", ⟨"p.ps1"⟩, 1⟩], []⟩ ∧
      (⟨⟨"p.ps1"⟩, "Set-Alias ll Get-ChildItem ".toList ++
        (blockComment " c ".toList ++ "\n".toList)⟩ : Source).findings (some .pwsh) =
          .ok ⟨[⟨"ll", .alias, "Get-ChildItem", ⟨"p.ps1"⟩, 1⟩], []⟩ := by
  refine ⟨?_, by decide +kernel, ?_⟩
  · have hdivided : (⟨⟨"p.ps1"⟩, "Set-Alias ".toList ++ ';' :: " ll Get-ChildItem\n".toList⟩ :
        Source).findings (some .pwsh) = .ok ⟨[], []⟩ := by decide +kernel
    obtain ⟨f, g, h, hf, hg, -, rfl, -⟩ := @findings_blockComment ⟨"p.ps1"⟩ "Set-Alias ".toList
      " c ".toList " ll Get-ChildItem\n".toList (by decide +kernel) (by decide +kernel)
      (by decide +kernel) ((Option.all_eq_true _ _).1 (by decide)) (by decide) (by decide)
      ((Option.all_eq_true _ _).1 (by decide))
    exact hf.trans (hg.symm.trans hdivided)
  · have hblank : (⟨⟨"p.ps1"⟩, "Set-Alias ll Get-ChildItem ".toList ++ ' ' :: "\n".toList⟩ :
        Source).findings (some .pwsh) =
          .ok ⟨[⟨"ll", .alias, "Get-ChildItem", ⟨"p.ps1"⟩, 1⟩], []⟩ := by decide +kernel
    obtain ⟨f, g, h, hf, -, hh, -, hsame⟩ := @findings_blockComment ⟨"p.ps1"⟩
      "Set-Alias ll Get-ChildItem ".toList " c ".toList "\n".toList (by decide +kernel)
      (by decide +kernel) (by decide +kernel) ((Option.all_eq_true _ _).1 (by decide))
      (by decide) (by decide) ((Option.all_eq_true _ _).1 (by decide))
    obtain rfl := hsame (.inr (by decide +kernel)) (.inl (by decide +kernel))
    exact hf.trans (hh.symm.trans hblank)

end ShellCatalog
