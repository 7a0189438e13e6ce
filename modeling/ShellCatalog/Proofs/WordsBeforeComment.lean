import ShellCatalog.Proofs.ClosedStatements
import ShellCatalog.Proofs.LaterLines
import ShellCatalog.Word

/-!
# Words in front of a comment

The list of words ends at the first comment outside every group. **A word that is open there takes
the comment with it**, to the end of the text; only behind a blank, behind an escaped newline or at
the start of the text does a comment leave the words alone (`words_beforeComment_iff`).

The words are compared with those of the text in front of the comment, which is a text of its own
and is read without the comment in sight. Reading looks ahead for here-documents, and what is
announced may reach into the comment. **Then the readings differ in the documents that wait and in
nothing else** (`Nesting.readAlike_marksAhead`): a body that began in front of the comment would be
read to its end there, or never.
-/

namespace ShellCatalog

namespace Nesting

variable {p : Profile} {s t : Nesting} {c : Char} {rest rest' text behind : List Char}

/-! ### States that differ in the documents that wait -/

/-- The state as if no document waited. -/
def withoutDocs (s : Nesting) : Nesting :=
  { s with hereDocs := [] }

theorem withoutDocs_announceHereDoc (s : Nesting) (text : List Char) :
    (s.announceHereDoc text).withoutDocs = s.withoutDocs := by
  rcases announceHereDoc_cases s text with h | ⟨doc, -, -, h⟩ <;> rw [h]
  rfl

theorem withoutDocs_closeGroup (s : Nesting) (b : Bracket) :
    (s.withoutDocs.closeGroup b).withoutDocs = (s.closeGroup b).withoutDocs := by
  have hgroups : s.withoutDocs.groups = s.groups := rfl
  rw [closeGroup, closeGroup, hgroups]
  split
  · rfl
  · split
    · split <;> rfl
    · rfl

/-- Two readings of a character that give it the same class and, unless it ends a line of code,
lead to states that differ at most in the documents that wait. -/
def EqButDocs (c : Char) (r r' : Nesting × CharRole) : Prop :=
  r.2 = r'.2 ∧ (¬ (c = '\n' ∧ r.2 = .code) → r.1.withoutDocs = r'.1.withoutDocs)

theorem EqButDocs.of_eq {r r' : Nesting × CharRole} (role : r.2 = r'.2)
    (state : r.1.withoutDocs = r'.1.withoutDocs) : EqButDocs c r r' :=
  ⟨role, fun _ ↦ state⟩

theorem EqButDocs.symm {r r' : Nesting × CharRole} (h : EqButDocs c r r') : EqButDocs c r' r :=
  ⟨h.1.symm, fun line ↦ (h.2 (h.1 ▸ line)).symm⟩

theorem EqButDocs.trans {q r r' : Nesting × CharRole} (h : EqButDocs c q r)
    (h' : EqButDocs c r r') : EqButDocs c q r' :=
  ⟨h.1.trans h'.1, fun line ↦ (h.2 line).trans (h'.2 (h.1 ▸ line))⟩

theorem EqButDocs.ite {P : Prop} [Decidable P] {q q' r r' : Nesting × CharRole}
    (pos : P → EqButDocs c q q') (neg : ¬ P → EqButDocs c r r') :
    EqButDocs c (if P then q else r) (if P then q' else r') := by
  split
  · next h => exact pos h
  · next h => exact neg h

/-- Within a line, code asks for no document, whatever it announces. -/
theorem inCode_withoutDocs (s : Nesting) (rest rest' : List Char)
    (blocks : p.blockComments = false) :
    EqButDocs c (inCode p s.withoutDocs c rest') (inCode p s c rest) := by
  have hlast : s.withoutDocs.lastChar? = s.lastChar? := rfl
  have hword : s.withoutDocs.wordMayStart = s.wordMayStart := rfl
  unfold inCode
  simp only [blocks, hlast, hword, Bool.false_eq_true, false_and, if_false]
  refine .ite (fun _ ↦ .of_eq rfl rfl) fun _ ↦ .ite (fun _ ↦ .of_eq rfl rfl) fun _ ↦
    .ite (fun _ ↦ .of_eq rfl rfl) fun _ ↦ .ite (fun _ ↦ .of_eq rfl rfl) fun _ ↦
    .ite (fun _ ↦ .of_eq rfl rfl) fun _ ↦ .ite (fun _ ↦ .of_eq rfl rfl) fun _ ↦
    .ite (fun _ ↦ .of_eq rfl ?_) fun _ ↦ .ite (fun hc ↦ ⟨rfl, fun line ↦ ?_⟩) fun _ ↦ ?_
  · rw [withoutDocs_announceHereDoc, withoutDocs_announceHereDoc]
    rfl
  · exact absurd ⟨hc, rfl⟩ line
  · split
    · exact .of_eq rfl rfl
    · exact .of_eq rfl (withoutDocs_closeGroup s _)
    · exact .of_eq rfl rfl

/-- Outside the bodies of documents a character is read in the same way whatever documents wait. -/
theorem react_withoutDocs (s : Nesting) (rest rest' : List Char) (blocks : p.blockComments = false)
    (outside : s.mode ≠ .hereDoc) :
    EqButDocs c (s.withoutDocs.react p c rest') (s.react p c rest) := by
  have hescaping : s.withoutDocs.escaping = s.escaping := rfl
  have hmode : s.withoutDocs.mode = s.mode := rfl
  rw [react, react, hescaping, hmode]
  refine .ite (fun _ ↦ .of_eq rfl rfl) fun _ ↦ ?_
  cases hmode : s.mode with
  | code => exact inCode_withoutDocs s rest rest' blocks
  | comment => exact .ite (fun hc ↦ ⟨rfl, fun line ↦ absurd ⟨hc, rfl⟩ line⟩) fun _ ↦ .of_eq rfl rfl
  | hereDoc => exact absurd hmode outside
  | double =>
    exact .ite (fun _ ↦ .of_eq rfl rfl) fun _ ↦ .ite (fun _ ↦ .of_eq rfl rfl) fun _ ↦
      .ite (fun _ ↦ .of_eq rfl rfl) fun _ ↦ .ite (fun _ ↦ .of_eq rfl rfl) fun _ ↦ .of_eq rfl rfl
  | single | ansi | backquote =>
    exact .ite (fun _ ↦ .of_eq rfl rfl) fun _ ↦ .ite (fun _ ↦ .of_eq rfl rfl) fun _ ↦ .of_eq rfl rfl
  | blockComment progress =>
    cases progress with
    | opening => exact .of_eq rfl rfl
    | inside closing => exact .ite (fun _ ↦ .of_eq rfl rfl) fun _ ↦ .of_eq rfl rfl
  | hereString quote => exact .ite (fun _ ↦ .of_eq rfl rfl) fun _ ↦ .of_eq rfl rfl

/-- States that differ at most in the documents that wait read a character in the same way, whatever
follows it. -/
theorem step_eqButDocs (c : Char) (rest rest' : List Char) (blocks : p.blockComments = false)
    (same : s.withoutDocs = t.withoutDocs) (outside : s.mode ≠ .hereDoc) :
    EqButDocs c (s.step p c rest) (t.step p c rest') := by
  have houtside : t.mode ≠ .hereDoc := by
    have hmode : s.withoutDocs.mode = t.withoutDocs.mode := by rw [same]
    exact fun h ↦ outside (hmode.trans h)
  have hline : s.withoutDocs.line = t.withoutDocs.line := by rw [same]
  have hs := react_withoutDocs s rest rest' blocks outside (c := c)
  have ht := react_withoutDocs t rest' rest' blocks houtside (c := c)
  obtain ⟨hrole, hstate⟩ := hs.symm.trans (same ▸ ht)
  refine ⟨hrole, fun line ↦ ?_⟩
  have hstep (t : Nesting) (rest : List Char) : (t.step p c rest).1.withoutDocs =
      { (t.react p c rest).1.withoutDocs with
        line := if c = '\n' then t.line + 1 else t.line
        last := some (c, (t.react p c rest).2) } := rfl
  rw [hstep, hstep, ← hrole, hstate line]
  exact congrArg (fun line : Nat ↦ ({ (t.react p c rest').1.withoutDocs with
    line := if c = '\n' then line + 1 else line
    last := some (c, (s.react p c rest).2) } : Nesting)) hline

/-! ### A document that waits for ever -/

/-- The end of a line of code leads into the bodies of the documents that wait. -/
theorem mode_step_of_waits (waits : s.Waits) (role : (s.step p '\n' rest).2 = .code) :
    (s.step p '\n' rest).1.mode = .hereDoc ∧ (s.step p '\n' rest).1.escaping = false := by
  obtain ⟨doc, hdoc, -⟩ := waits
  have hdocs : s.hereDocs.isEmpty = false := List.isEmpty_eq_false_iff.2 (List.ne_nil_of_mem hdoc)
  obtain ⟨t, role', hreaction, hstep⟩ := exists_reaction p s '\n' rest
  rw [hstep] at role ⊢
  replace role : role' = .code := role
  show t.mode = .hereDoc ∧ t.escaping = false
  cases hreaction with
  | endLine hready => exact ⟨by simp [endCodeLine, hdocs], by simp [endCodeLine, hdocs, hready]⟩
  | announce _ _ hc | interruptQuote _ _ hc => exact absurd hc (by decide)
  | openGroup b _ _ hb => exact absurd hb (by simp [Bracket.ofOpener?])
  | closeGroup b _ _ hb => exact absurd hb (by simp [Bracket.ofCloser?])
  | code _ _ hc => exact absurd rfl hc
  | _ => simp at role

/-- The body of a document that waits for ever does not end. -/
theorem mode_afterText_of_waits (inside : s.mode = .hereDoc) (ready : s.escaping = false)
    (hline : '\n' ∉ s.lineSoFar) (waits : s.Waits) :
    (s.afterText p text behind).mode = .hereDoc := by
  induction text generalizing s with
  | nil => exact inside
  | cons c rest ih =>
    rw [afterText_cons]
    have hnext : (s.step p c (rest ++ behind)).1.Waits := waits_step hline waits
    have hreact : s.react p c (rest ++ behind) = inHereDoc s c := by
      rw [react, if_neg (by simp [ready]), inside]
    have hstep : (s.step p c (rest ++ behind)).1.mode = .hereDoc ∧
        (s.step p c (rest ++ behind)).1.escaping = false := by
      obtain ⟨doc, hdoc, -⟩ := hnext
      simp only [step, hreact] at hdoc ⊢
      by_cases hc : c = '\n'
      · simp only [inHereDoc, hc, if_true] at hdoc ⊢
        rw [List.isEmpty_eq_false_iff.2 (List.ne_nil_of_mem hdoc)]
        exact ⟨rfl, ready⟩
      · simp only [inHereDoc, hc, if_false]
        exact ⟨inside, ready⟩
    exact ih hstep.1 hstep.2 (newline_not_mem_lineSoFar_step hline) hnext

/-- Before the end of a text that does not stand in a body, no line of code ends while a document
waits for ever. -/
theorem not_endsCodeLine_of_waits (hline : '\n' ∉ s.lineSoFar) (waits : s.Waits)
    (outside : (s.afterText p text behind).mode ≠ .hereDoc) (offset : Nat) :
    ∀ m ∈ marksAhead p behind s offset text, ¬ (m.char = '\n' ∧ m.role = .code) := by
  induction text generalizing s offset with
  | nil => simp [marksAhead]
  | cons c rest ih =>
    rw [afterText_cons] at outside
    have hnext := @waits_step p s c (rest ++ behind) hline waits
    have hnextLine := @newline_not_mem_lineSoFar_step p s c (rest ++ behind) hline
    rw [marksAhead_cons]
    refine List.forall_mem_cons.2 ⟨?_, ih hnextLine hnext outside _⟩
    rintro ⟨rfl, hrole⟩
    obtain ⟨hinside, hready⟩ := mode_step_of_waits waits hrole
    exact outside (mode_afterText_of_waits hinside hready hnextLine hnext)

/-! ### Reading in front of what is cut off -/

/-- Where a character is not read alike in front of two texts, it announces a document; and if a
line ends behind it, one that waits for ever. -/
theorem of_step_ne (differs : s.step p c (text ++ behind) ≠ s.step p c text) :
    s.mode = .code ∧ c = '<' ∧ ('\n' ∈ text → (s.step p c (text ++ behind)).1.Waits) := by
  have hcode : s.mode = .code := by
    by_contra hmode
    have hreact : s.react p c (text ++ behind) = s.react p c text := by
      unfold react
      cases h : s.mode <;> simp_all
    exact differs (by rw [step, step, hreact])
  have hc : c = '<' := by
    by_contra hc
    exact differs (step_of_ne p s _ _ hc)
  refine ⟨hcode, hc, fun hline ↦ ?_⟩
  obtain ⟨front, more, rfl⟩ := List.append_of_mem hline
  rw [List.append_assoc, List.cons_append] at differs ⊢
  exact (step_ahead p s c front _ (atLineEnd_newline more)).resolve_right differs

end Nesting

/-- The marks stand for the same character, of the same class and behind the same number of open
groups. -/
structure Mark.ReadAlike (m n : Mark) : Prop where
  char : m.char = n.char
  role : m.role = n.role
  depth : m.depth = n.depth

namespace Nesting

variable {p : Profile} {s t : Nesting} {text behind : List Char}

/-- In front of the end of a text that does not stand in a body, every character is read as without
the text that follows. -/
theorem readAlike_marksAhead (blocks : p.blockComments = false) (offset : Nat)
    (same : s.withoutDocs = t.withoutDocs) (hline : '\n' ∉ s.lineSoFar)
    (outside : (s.afterText p text behind).mode ≠ .hereDoc)
    (settled : s = t ∨ s.mode ≠ .hereDoc ∧
      ∀ m ∈ marksAhead p behind s offset text, ¬ (m.char = '\n' ∧ m.role = .code)) :
    List.Forall₂ Mark.ReadAlike (marksAhead p behind s offset text)
      (marksAhead p [] t offset text) := by
  induction text generalizing s t offset with
  | nil => exact .nil
  | cons c rest ih =>
    rw [afterText_cons] at outside
    rw [marksAhead_cons, marksAhead_cons, List.append_nil]
    have hnextLine := @newline_not_mem_lineSoFar_step p s c (rest ++ behind) hline
    have hdepth {s t : Nesting} (h : s.withoutDocs = t.withoutDocs) : s.depth = t.depth :=
      (congrArg Nesting.depth h : s.withoutDocs.depth = t.withoutDocs.depth)
    rcases settled with rfl | ⟨hmode, hlines⟩
    · by_cases hsame : s.step p c (rest ++ behind) = s.step p c rest
      · rw [hsame] at outside hnextLine ⊢
        exact .cons ⟨rfl, rfl, rfl⟩ (ih _ rfl hnextLine outside (.inl rfl))
      · -- The character announces a document, and no line of code ends behind it.
        obtain ⟨hcode, rfl, hwaits⟩ := of_step_ne hsame
        have hmode : s.mode ≠ .hereDoc := by simp [hcode]
        obtain ⟨hrole, hstate⟩ := step_eqButDocs '<' (rest ++ behind) rest blocks rfl hmode
        replace hstate := hstate (by simp)
        refine .cons ⟨rfl, hrole, hdepth hstate⟩ (ih _ hstate hnextLine outside (.inr ⟨?_, ?_⟩))
        · exact mode_step_ne_hereDoc hmode (by simp)
        · by_cases hnewline : '\n' ∈ rest
          · exact not_endsCodeLine_of_waits hnextLine (hwaits hnewline) outside _
          · refine fun m hm hends ↦ hnewline ?_
            rw [← text_marksAhead p behind (s.step p '<' (rest ++ behind)).1 (offset + '<'.utf8Size)
              rest, ← hends.1]
            exact List.mem_map_of_mem hm
    · rw [marksAhead_cons] at hlines
      obtain ⟨hfirst, hothers⟩ := List.forall_mem_cons.1 hlines
      obtain ⟨hrole, hstate⟩ := step_eqButDocs c (rest ++ behind) rest blocks same hmode
      replace hstate := hstate hfirst
      refine .cons ⟨rfl, hrole, hdepth hstate⟩ (ih _ hstate hnextLine outside (.inr ⟨?_, hothers⟩))
      exact mode_step_ne_hereDoc hmode fun hc hcode ↦ absurd ⟨hc, hcode⟩ hfirst

/-- Without here-documents only the beginning of a block comment depends on the text behind its
character. -/
theorem step_of_mode_ne (docs : p.hereDocs = false) {c : Char} {rest : List Char}
    (closed : (s.step p c rest).1.mode ≠ .blockComment .opening) :
    s.step p c rest = s.step p c [] := by
  by_cases hash : rest.head? = some '#'
  · have hreact : s.react p c rest = s.react p c [] := by
      replace closed : (s.react p c rest).1.mode ≠ .blockComment .opening := closed
      unfold react at closed ⊢
      split
      · rfl
      · next hready =>
        rw [if_neg hready] at closed
        cases hmode : s.mode with
        | code =>
          simp only [hmode] at closed
          by_cases hescape : c = p.escape
          · simp [inCode, hescape]
          by_cases hblock : p.blockComments = true ∧ c = '<'
          · obtain ⟨hblocks, rfl⟩ := hblock
            exact absurd (by simp [inCode, hescape, hblocks, hash, enter]) closed
          · simp [inCode, ← and_assoc, hblock, docs]
        | _ => rfl
    rw [step, step, hreact]
  · exact step_congr_of_noHereDocs docs s c (by simp [hash])

/-- Without here-documents a text that does not end in front of the second character of a block
comment is read alike whatever follows. -/
theorem marksAhead_of_mode_ne (docs : p.hereDocs = false) (offset : Nat)
    (closed : (s.afterText p text behind).mode ≠ .blockComment .opening) :
    marksAhead p behind s offset text = marksAhead p [] s offset text := by
  induction text generalizing s offset with
  | nil => rfl
  | cons c rest ih =>
    rw [afterText_cons] at closed
    have hstep : s.step p c (rest ++ behind) = s.step p c rest := by
      cases rest with
      | nil => exact step_of_mode_ne docs closed
      | cons d rest => exact step_congr_of_noHereDocs docs s c Iff.rfl
    rw [hstep] at closed
    rw [marksAhead_cons, marksAhead_cons, List.append_nil, hstep, ih _ closed]

end Nesting

/-! ### The text in front of the first comment -/

/-- The marks in front of the first comment outside every group. -/
def marksBeforeComment (p : Profile) (text : List Char) : List Mark :=
  (marks p text).takeWhile fun m ↦ !m.isTopComment

/-- The text in front of the first comment outside every group. -/
def beforeComment (p : Profile) (text : List Char) : List Char :=
  Mark.text (marksBeforeComment p text)

/-- The text from the first comment outside every group on. -/
def fromComment (p : Profile) (text : List Char) : List Char :=
  Mark.text ((marks p text).dropWhile fun m ↦ !m.isTopComment)

section Text

variable {p : Profile} {text : List Char}

theorem beforeComment_append (p : Profile) (text : List Char) :
    beforeComment p text ++ fromComment p text = text := by
  rw [beforeComment, fromComment, marksBeforeComment, ← Mark.text_append,
    List.takeWhile_append_dropWhile, text_marks]

/-- The marks in front of the comment are a reading of the text in front of it. -/
theorem marksBeforeComment_eq (p : Profile) (text : List Char) :
    marksBeforeComment p text =
      marksAhead p (fromComment p text) (.start 1) 0 (beforeComment p text) :=
  (marksFrom_eq_append (List.takeWhile_append_dropWhile).symm).2.1

/-- The first character of the comment is read as comment, outside every group. -/
theorem role_fromComment {c : Char} {rest : List Char} (comment : fromComment p text = c :: rest) :
    let s := (Nesting.start 1).afterText p (beforeComment p text) (c :: rest)
    (s.step p c rest).2 = .comment ∧ (s.step p c rest).1.groups = [] := by
  have hbehind := (marksFrom_eq_append
    (List.takeWhile_append_dropWhile (l := marks p text) (p := fun m ↦ !m.isTopComment)).symm).2.2
  have hhead := List.head?_dropWhile_not (fun m : Mark ↦ !m.isTopComment) (marks p text)
  rw [hbehind, ← fromComment, comment, marksFrom_cons] at hhead
  simp only [List.head?_cons, Bool.not_eq_eq_eq_not, Bool.not_false, Mark.isTopComment,
    decide_eq_true_eq] at hhead
  exact ⟨hhead.1, List.length_eq_zero_iff.1 hhead.2⟩

/-- A comment outside every group is met where no group and no quote is open. -/
theorem isOutside_beforeComment (commented : fromComment p text ≠ []) :
    ((Nesting.start 1).afterText p (beforeComment p text) (fromComment p text)).IsOutside := by
  obtain ⟨c, rest, hfrom⟩ := List.exists_cons_of_ne_nil commented
  obtain ⟨hrole, htop⟩ := role_fromComment hfrom
  rw [hfrom]
  exact Nesting.isOutside_of_role (.inl hrole) htop

theorem isTopComment_of_mem_marksBeforeComment {m : Mark} (h : m ∈ marksBeforeComment p text) :
    m.isTopComment = false := by
  simpa using List.all_eq_true.1 List.all_takeWhile m h

/-- The first comment does not begin inside a comment. -/
theorem not_inComment_beforeComment (commented : fromComment p text ≠ []) :
    ¬ ((Nesting.start 1).afterText p (beforeComment p text) (fromComment p text)).InComment := by
  intro inside
  have houtside := (isOutside_beforeComment commented).1
  have hmarks := marksBeforeComment_eq p text
  rcases List.eq_nil_or_concat (beforeComment p text) with hnil | ⟨front, c, hfront⟩
  · rw [hnil, Nesting.afterText_nil] at inside
    exact inside.mode_not_mem (by simp [Nesting.start])
  · rw [List.concat_eq_append] at hfront
    rw [hfront, Nesting.afterText_append, Nesting.afterText_cons, Nesting.afterText_nil]
      at inside houtside
    rw [hfront, marksAhead_append, Nesting.afterMarks_marksAhead, marksAhead_cons] at hmarks
    have hrole := Nesting.role_of_inComment
      (Nesting.not_inComment_of_escaping (by simp [Nesting.start]) front _) inside
    have hlast := @isTopComment_of_mem_marksBeforeComment p text _ (by
      rw [hmarks]
      exact List.mem_append_right _ List.mem_cons_self)
    exact of_decide_eq_false hlast ⟨hrole, List.length_eq_zero_iff.2 houtside⟩

/-- A comment is not blank. -/
theorem isBlank_fromComment {d : Dialect} (commented : fromComment d.profile text ≠ []) :
    isBlank (fromComment d.profile text) = false := by
  have houtside := not_inComment_beforeComment commented
  obtain ⟨c, rest, hfrom⟩ := List.exists_cons_of_ne_nil commented
  rw [hfrom] at houtside ⊢
  simp [isBlank, Nesting.isSpace_of_entersComment houtside (role_fromComment hfrom).1]

/-- The text in front of the first comment is read alike with the comment behind it and without. -/
theorem readAlike_beforeComment (d : Dialect) (text : List Char) :
    List.Forall₂ Mark.ReadAlike (marksBeforeComment d.profile text)
      (marks d.profile (beforeComment d.profile text)) := by
  have hrefl (ms : List Mark) : List.Forall₂ Mark.ReadAlike ms ms :=
    List.forall₂_same.2 fun _ _ ↦ ⟨rfl, rfl, rfl⟩
  rw [marksBeforeComment_eq, marks, ← marksAhead_nil]
  by_cases commented : fromComment d.profile text = []
  · rw [commented]
    exact hrefl _
  have houtside := isOutside_beforeComment commented
  cases docs : d.profile.hereDocs with
  | false =>
    have hclosed := not_inComment_beforeComment commented
    rw [Nesting.marksAhead_of_mode_ne docs 0 fun h ↦ hclosed (.inr ⟨_, h⟩)]
    exact hrefl _
  | true =>
    obtain ⟨-, -, -, blocks⟩ := Dialect.of_hereDocs docs
    refine Nesting.readAlike_marksAhead blocks 0 rfl (by simp [Nesting.start]) ?_ (.inl rfl)
    rcases houtside.2 with hmode | hmode | ⟨progress, hmode⟩ <;> simp [hmode]

/-! ### Words -/

/-- The word that is still open where the first comment begins, empty if none is. -/
def openWord (p : Profile) (text : List Char) : List Char :=
  Mark.text ((pieces Mark.separatesWords (marksBeforeComment p text)).getLastD [])

/-- What the open word makes with the text that follows it: no word at all if nothing is open, and
otherwise one word to the end of the text. -/
def closeWord (open_ rest : List Char) : List (List Char) :=
  if open_ = [] then [] else [trimEnd (open_ ++ rest)].filter fun word ↦ !word.isEmpty

/-- A run ends with an empty piece exactly if it is empty or its last mark separates. -/
theorem getLastD_pieces_eq_nil_iff {separates : Mark → Option Mark → Bool} {ms : List Mark} :
    (pieces separates ms).getLastD [] = [] ↔ ∀ m ∈ ms.getLast?, separates m none = true := by
  induction ms with
  | nil => simp [pieces]
  | cons m rest ih =>
    cases rest with
    | nil => by_cases h : separates m none = true <;> simp [pieces, h]
    | cons n rest =>
      rw [List.getLast?_cons_cons, ← ih, pieces.eq_def separates (m :: n :: rest)]
      dsimp only
      cases hpieces : pieces separates (n :: rest) with
      | nil => exact absurd hpieces (pieces_ne_nil _ _)
      | cons piece others =>
        split
        · rfl
        cases others with
        | cons other others => rfl
        | nil =>
          -- A single piece is the whole run.
          obtain ⟨front, behind, hrun, hfront, -, hbehind, -⟩ := exists_of_pieces_eq
            (hpieces.trans (List.nil_append [piece]).symm)
          rw [hfront rfl, hbehind rfl, List.nil_append, List.append_nil] at hrun
          simp [← hrun]

/-- The words of a text are the complete words in front of the first comment, and what the open word
makes with the comment. -/
theorem words_eq_append (p : Profile) (text : List Char) :
    words p text =
      (((pieces Mark.separatesWords (marksBeforeComment p text)).map Mark.text).dropLast.filter
        fun word ↦ !word.isEmpty) ++ closeWord (openWord p text) (fromComment p text) := by
  obtain ⟨runs, run, hruns⟩ : ∃ runs run,
      pieces Mark.separatesWords (marksBeforeComment p text) = runs ++ [run] :=
    ⟨_, _, (List.dropLast_append_getLast (pieces_ne_nil _ _)).symm⟩
  have hopen : openWord p text = Mark.text run := by
    rw [openWord, hruns, List.getLastD_concat]
  rw [hopen, hruns, closeWord, fromComment]
  rw [marksBeforeComment] at hruns
  by_cases hrun : run = [] <;> simp [words, hruns, hrun, Mark.text]

theorem Mark.ReadAlike.isTopComment {m n : Mark} (h : m.ReadAlike n) :
    m.isTopComment = n.isTopComment := by
  rw [Mark.isTopComment, Mark.isTopComment, h.role, h.depth]

theorem Mark.ReadAlike.separatesWords {m n : Mark} {next next' : Option Mark} (h : m.ReadAlike n)
    (hnext : Option.Rel Mark.ReadAlike next next') :
    m.separatesWords next = n.separatesWords next' := by
  have hchar : next.map Mark.char = next'.map Mark.char := by
    cases hnext with
    | none => rfl
    | some h => exact congrArg some h.char
  simp only [Mark.separatesWords, Mark.isTopCode, h.char, h.role, h.depth, hchar]

/-- The text in front of the first comment holds no comment. -/
theorem marksBeforeComment_beforeComment (d : Dialect) (text : List Char) :
    marksBeforeComment d.profile (beforeComment d.profile text) =
      marks d.profile (beforeComment d.profile text) := by
  have hnone : ∀ m ∈ marks d.profile (beforeComment d.profile text), m.isTopComment = false :=
    forall_of_forall₂ (readAlike_beforeComment d text) (fun h hm ↦ h.isTopComment.symm.trans hm)
      fun _ ↦ isTopComment_of_mem_marksBeforeComment
  exact List.takeWhile_eq_self_iff.2 fun m hm ↦ by simp [hnone m hm]

theorem fromComment_beforeComment (d : Dialect) (text : List Char) :
    fromComment d.profile (beforeComment d.profile text) = [] := by
  have h := beforeComment_append d.profile (beforeComment d.profile text)
  rw [beforeComment, marksBeforeComment_beforeComment, text_marks] at h
  exact List.append_right_eq_self.1 h

/-- The text in front of the first comment is cut where the whole text is. -/
theorem map_text_pieces_beforeComment (d : Dialect) (text : List Char) :
    (pieces Mark.separatesWords
        (marksBeforeComment d.profile (beforeComment d.profile text))).map Mark.text =
      (pieces Mark.separatesWords (marksBeforeComment d.profile text)).map Mark.text := by
  have hpieces := @forall₂_pieces _ Mark.separatesWords Mark.ReadAlike.separatesWords _ _
    (readAlike_beforeComment d text)
  rw [marksBeforeComment_beforeComment]
  generalize pieces Mark.separatesWords (marksBeforeComment d.profile text) = runs,
    pieces Mark.separatesWords (marks d.profile (beforeComment d.profile text)) = runs' at hpieces
  induction hpieces with
  | nil => rfl
  | cons hrun _ ih =>
    exact congrArg₂ List.cons (text_eq_of_forall₂ Mark.ReadAlike.char hrun).symm ih

theorem openWord_eq_getLastD (p : Profile) (text : List Char) :
    openWord p text =
      ((pieces Mark.separatesWords (marksBeforeComment p text)).map Mark.text).getLastD [] := by
  rw [openWord, List.getLastD_eq_getLast?, List.getLastD_eq_getLast?, List.getLast?_map]
  cases (pieces Mark.separatesWords (marksBeforeComment p text)).getLast? <;> rfl

/-- The open word has another end when the text in front of the comment is read alone. -/
theorem words_beforeComment (d : Dialect) (text : List Char) :
    words d.profile (beforeComment d.profile text) =
      (((pieces Mark.separatesWords (marksBeforeComment d.profile text)).map
        Mark.text).dropLast.filter fun word ↦ !word.isEmpty) ++
          closeWord (openWord d.profile text) [] := by
  rw [words_eq_append, map_text_pieces_beforeComment, fromComment_beforeComment,
    openWord_eq_getLastD, map_text_pieces_beforeComment, ← openWord_eq_getLastD]

/-- An open word that takes something visible along is longer than without it. -/
theorem closeWord_eq_iff {open_ rest : List Char} (visible : isBlank rest = false) :
    closeWord open_ rest = closeWord open_ [] ↔ open_ = [] := by
  constructor
  · intro h
    by_contra hopen
    have htrim : trimEnd rest ≠ [] := fun hrest ↦
      absurd (trimEnd_eq_nil_iff.1 hrest) (by simp [visible])
    rw [closeWord, closeWord, if_neg hopen, if_neg hopen, trimEnd_append htrim,
      List.append_nil] at h
    have hword : open_ ++ trimEnd rest = trimEnd open_ := by
      have hmem : open_ ++ trimEnd rest ∈ [trimEnd open_].filter fun word ↦ !word.isEmpty := by
        simp [← h, hopen]
      exact List.mem_singleton.1 (List.mem_filter.1 hmem).1
    have hlength := (trimEnd_isPrefix open_).length_le
    rw [← hword, List.length_append] at hlength
    exact htrim (List.length_eq_zero_iff.1 (by omega))
  · rintro rfl
    rfl

/-- **The words of a text are those in front of its first comment exactly if the comment stands
behind a character that separates words**, at the start of the text or nowhere. Otherwise the word
in front of the comment takes all of it along; the words before that one are the same. -/
theorem words_beforeComment_iff (d : Dialect) (text : List Char) :
    (words d.profile text = words d.profile (beforeComment d.profile text) ↔
      fromComment d.profile text = [] ∨
        ∀ m ∈ (marksBeforeComment d.profile text).getLast?, m.separatesWords none = true) ∧
    ∃ complete,
      words d.profile (beforeComment d.profile text) =
        complete ++ closeWord (openWord d.profile text) [] ∧
      words d.profile text =
        complete ++ closeWord (openWord d.profile text) (fromComment d.profile text) := by
  refine ⟨?_, _, words_beforeComment d text, words_eq_append d.profile text⟩
  have hopen : openWord d.profile text = [] ↔
      ∀ m ∈ (marksBeforeComment d.profile text).getLast?, m.separatesWords none = true := by
    rw [← getLastD_pieces_eq_nil_iff, openWord, Mark.text, List.map_eq_nil_iff]
  rw [words_beforeComment, words_eq_append, List.append_right_inj, ← hopen]
  by_cases commented : fromComment d.profile text = []
  · simp [commented]
  · rw [closeWord_eq_iff (isBlank_fromComment commented)]
    simp [commented]

-- A comment may follow a separator directly, and then the word goes on.
example : words Dialect.bash.profile "a;#b".toList = ["a;#b".toList] ∧
    beforeComment Dialect.bash.profile "a;#b".toList = "a;".toList := by decide

end Text

end ShellCatalog
