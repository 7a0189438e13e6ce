import ShellCatalog.Proofs.GroupReading

/-!
# The mate of the bracket that opens a body

A body runs from its bracket to the first character at which no group is open any more. What that
character is, nobody asks. It is the mate of the bracket all the same (`Body.ofText_mate`).

**The outermost group is the one of the first bracket**, from the bracket to its mate
(`mated_of_marksFrom`). Groups are opened and closed at the inner end of the stack, and a closing
bracket that does not match changes nothing, whatever quotes it stands between. So the last group to
be closed is the first that was opened, and only its own bracket closes it, in code.
-/

namespace ShellCatalog

/-- A bracket, the marks inside it and its mate: the bracket opens the group `g`, which stays open
outside all others, and the mate closes it. -/
structure IsMated (g : Group) (opening : Mark) (inside : List Mark) (closing : Mark) : Prop where
  opener : opening.role = .code ∧ opening.char = g.bracket.opening
  opens : opening.before.groups = [] ∧ opening.after.groups = [g]
  stays : ∀ m ∈ inside, 1 ≤ m.depth ∧ m.after.groups.getLast? = some g
  closer : closing.role = .code ∧ closing.char = g.bracket.closing
  closes : closing.before.groups = [g] ∧ closing.after.groups = []

namespace Body

/-- The text is blanks, a bracket that may begin a body, an inside from byte `offset` on, the mate
of the bracket and a rest. -/
structure IsBlock (p : Profile) (text lead : List Char) (b : Bracket) (inner rest : List Char)
    (offset : Nat) : Prop where
  text_eq : text = lead ++ b.opening :: (inner ++ b.closing :: rest)
  blank : isBlank lead = true
  allowed : b = .brace ∨ p.subshellBodies = true
  /-- The inside begins behind the blanks and the bracket. -/
  offset_eq : offset = byteLength (lead ++ [b.opening])
  mated : ∃ opening inside closing behind,
    marks p (b.opening :: (inner ++ b.closing :: rest)) = opening :: (inside ++ closing :: behind) ∧
      Mark.text inside = inner ∧ IsMated ⟨b, 1, none⟩ opening inside closing

/-- Behind its blanks the text begins with a bracket that may begin a body, and read from there it
comes back to where no group is open. -/
def Returns (p : Profile) (text : List Char) : Prop :=
  ∃ (b : Bracket) (rest : List Char), trimStart text = b.opening :: rest ∧
    (b = .brace ∨ p.subshellBodies = true) ∧ ∃ m ∈ marks p (trimStart text), m.depth = 0

end Body

/-! ### Brackets -/

theorem Bracket.eq_closing {c : Char} {b : Bracket} (h : Bracket.ofCloser? c = some b) :
    c = b.closing := by
  cases b <;> rcases Bracket.eq_of_ofCloser? h with rfl | rfl <;>
    simp_all [Bracket.ofCloser?, Bracket.closing]

theorem Bracket.isSpace_opening (b : Bracket) : isSpace b.opening = false := by
  cases b <;> decide

/-- The characters that may begin a body are brackets. -/
theorem Profile.beginsBody_iff {p : Profile} {c : Char} :
    p.beginsBody c = true ↔
      ∃ b : Bracket, c = b.opening ∧ (b = .brace ∨ p.subshellBodies = true) := by
  simp only [Profile.beginsBody, Bool.or_eq_true, Bool.and_eq_true, beq_iff_eq]
  constructor
  · rintro (rfl | ⟨hbodies, rfl⟩)
    · exact ⟨.brace, rfl, .inl rfl⟩
    · exact ⟨.paren, rfl, .inr hbodies⟩
  · rintro ⟨b, rfl, rfl | hbodies⟩
    · exact .inl rfl
    · cases b with
      | brace => exact .inl rfl
      | paren => exact .inr ⟨hbodies, rfl⟩

/-! ### The outermost group -/

/-- Read on from inside a group, the first mark behind which no group is open closes the outermost
one, which was the outermost all the time. -/
theorem mated_of_marksFrom {p : Profile} {s : Nesting} {offset : Nat} {text : List Char} {g : Group}
    {inside behind : List Mark} {closing : Mark}
    (hmarks : marksFrom p s offset text = inside ++ closing :: behind)
    (outer : s.groups.getLast? = some g) (hinside : ∀ m ∈ inside, m.depth ≠ 0)
    (hclosing : closing.depth = 0) :
    (∀ m ∈ inside, m.after.groups.getLast? = some g) ∧
      (closing.role = .code ∧ Bracket.ofCloser? closing.char = some g.bracket) ∧
      closing.before.groups = [g] ∧ closing.after.groups = [] := by
  induction inside generalizing s offset text with
  | nil =>
    cases text with
    | nil => simp at hmarks
    | cons c rest =>
      rw [marksFrom_cons, List.nil_append] at hmarks
      obtain ⟨rfl, -⟩ := List.cons.inj hmarks
      rcases Nesting.getLast?_groups_step p c rest outer with hopen |
        ⟨hbefore, hafter, hrole, hcloser, -⟩
      · have hnil : (s.step p c rest).1.groups = [] := List.length_eq_zero_iff.1 hclosing
        simp [hnil] at hopen
      · exact ⟨by simp, ⟨hrole, hcloser⟩, hbefore, hafter⟩
  | cons m inside ih =>
    cases text with
    | nil => simp at hmarks
    | cons c rest =>
      rw [marksFrom_cons, List.cons_append] at hmarks
      obtain ⟨rfl, hrest⟩ := List.cons.inj hmarks
      rw [List.forall_mem_cons] at hinside ⊢
      rcases Nesting.getLast?_groups_step p c rest outer with hopen | ⟨-, hafter, -⟩
      · obtain ⟨hmarks, hmate⟩ := ih hrest hopen hinside.2
        exact ⟨⟨hopen, hmarks⟩, hmate⟩
      · exact absurd (congrArg List.length hafter) hinside.1

/-- A bracket at the start of a text opens a group. -/
theorem exists_marks_opening (d : Dialect) (b : Bracket) (rest : List Char) :
    ∃ opening : Mark,
      marks d.profile (b.opening :: rest) = opening :: marksFrom d.profile opening.after 1 rest ∧
      (opening.role = .code ∧ opening.char = b.opening) ∧
      opening.before.groups = [] ∧ opening.after.groups = [⟨b, 1, none⟩] := by
  have hsize : 0 + b.opening.utf8Size = 1 := by cases b <;> rfl
  have hstep := step_opening (d := d) b (Nesting.isBalanced_start 1) rest
  refine ⟨_, by rw [marks, marksFrom_cons, hsize], ⟨congrArg Prod.snd hstep, rfl⟩, rfl, ?_⟩
  exact congrArg (fun r ↦ r.1.groups) hstep

namespace Body

variable {p : Profile} {d : Dialect} {text lead inner : List Char} {offset : Nat}

/-- A bracket is mated to the first mark behind it at which no group is open. -/
theorem isMated_of_marks {b : Bracket} {rest : List Char} {opening closing : Mark}
    {inside behind : List Mark}
    (hmarks : marks d.profile (b.opening :: rest) = opening :: (inside ++ closing :: behind))
    (hinside : ∀ m ∈ inside, m.depth ≠ 0) (hclosing : closing.depth = 0) :
    IsMated ⟨b, 1, none⟩ opening inside closing := by
  obtain ⟨first, hfirst, hrole, hbefore, hafter⟩ := exists_marks_opening d b rest
  obtain ⟨rfl, hrest⟩ := List.cons.inj (hfirst.symm.trans hmarks)
  obtain ⟨houter, ⟨hrole', hcloser⟩, hcloses⟩ :=
    mated_of_marksFrom hrest (by rw [hafter]; rfl) hinside hclosing
  exact ⟨hrole, ⟨hbefore, hafter⟩,
    fun m hm ↦ ⟨Nat.one_le_iff_ne_zero.2 (hinside m hm), houter m hm⟩,
    ⟨hrole', Bracket.eq_closing hcloser⟩, hcloses⟩

/-! ### What stands where a body is expected -/

theorem byteLength_opening (b : Bracket) (lead : List Char) :
    byteLength (lead ++ [b.opening]) = byteLength lead + 1 := by
  cases b <;> simp [Bracket.opening, byteLength_append] <;> rfl

theorem cutWhile_blank {c : Char} (rest : List Char) (blank : isBlank lead = true)
    (visible : isSpace c = false) : cutWhile isSpace (lead ++ c :: rest) = (lead, c :: rest) :=
  cutWhile_append (isBlank_iff.1 blank) (by simp [visible])

theorem ofText_eq_absent_iff : ofText p text = .absent ↔ isBlank text = true := by
  rw [← trimStart_eq_nil_iff]
  unfold ofText
  split
  · next htrim => simp [htrim]
  · next c rest htrim =>
    rw [htrim]
    split
    · split <;> simp
    · simp

/-- A block is read up to the first mark at which no group is open. -/
theorem ofText_of_cut {b : Bracket} {rest : List Char} {opening closing : Mark}
    {inside behind : List Mark} (hlead : isBlank lead = true)
    (allowed : b = .brace ∨ p.subshellBodies = true)
    (hmarks : marks p (b.opening :: rest) = opening :: (inside ++ closing :: behind))
    (hinside : ∀ m ∈ inside, m.depth ≠ 0) (hclosing : closing.depth = 0) :
    ofText p (lead ++ b.opening :: rest) =
      .block (Mark.text inside) (byteLength (lead ++ [b.opening])) := by
  have hcut := cutWhile_blank rest hlead b.isSpace_opening
  have htrim : trimStart (lead ++ b.opening :: rest) = b.opening :: rest := congrArg Prod.snd hcut
  have hlength : byteLength ((lead ++ b.opening :: rest).takeWhile isSpace) = byteLength lead :=
    congrArg (byteLength ∘ Prod.fst) hcut
  exact ofText_eq_block_iff.2 ⟨by rw [byteLength_opening, hlength], _, _, htrim,
    Profile.beginsBody_iff.2 ⟨b, rfl, allowed⟩, opening, inside, closing, behind, hmarks, rfl,
    hinside, hclosing⟩

/-- What is read as a block stands behind the blanks, between a bracket and its mate. -/
theorem exists_isBlock (h : ofText d.profile text = .block inner offset) :
    ∃ lead b rest, IsBlock d.profile text lead b inner rest offset := by
  obtain ⟨hoffset, c, more, htrim, hbegins, opening, inside, closing, behind, hmarks, rfl, hinside,
    hclosing⟩ := ofText_eq_block_iff.1 h
  obtain ⟨b, rfl, hallowed⟩ := Profile.beginsBody_iff.1 hbegins
  have hmated := isMated_of_marks hmarks hinside hclosing
  have hmore : b.opening :: more =
      b.opening :: (Mark.text inside ++ b.closing :: Mark.text behind) := by
    have htext := congrArg Mark.text hmarks
    rw [text_marks] at htext
    rw [htext, ← hmated.opener.2, ← hmated.closer.2]
    simp [Mark.text]
  refine ⟨text.takeWhile isSpace, b, Mark.text behind, ?_, ?_, hallowed, ?_, opening, inside,
    closing, behind, ?_, rfl, hmated⟩
  · rw [← hmore, ← htrim]
    exact List.takeWhile_append_dropWhile.symm
  · rw [isBlank]
    exact List.all_takeWhile
  · rw [hoffset, byteLength_opening]
  · rw [← hmore, hmarks]

theorem IsBlock.ofText_eq {b : Bracket} {rest : List Char}
    (h : IsBlock d.profile text lead b inner rest offset) :
    ofText d.profile text = .block inner offset := by
  obtain ⟨opening, inside, closing, behind, hmarks, rfl, hmated⟩ := h.mated
  rw [h.text_eq, h.offset_eq]
  refine ofText_of_cut h.blank h.allowed hmarks (fun m hm ↦ ?_) ?_
  · exact Nat.one_le_iff_ne_zero.1 (hmated.stays m hm).1
  · exact congrArg List.length hmated.closes.2

/-- There is a block exactly where reading comes back from the bracket. -/
theorem exists_block_iff :
    (∃ inner offset, ofText d.profile text = .block inner offset) ↔ Returns d.profile text := by
  constructor
  · rintro ⟨inner, offset, h⟩
    obtain ⟨lead, b, rest, hblock⟩ := exists_isBlock h
    obtain ⟨opening, inside, closing, behind, hmarks, -, hmated⟩ := hblock.mated
    have htrim : trimStart text = b.opening :: (inner ++ b.closing :: rest) := by
      rw [hblock.text_eq]
      exact congrArg Prod.snd (cutWhile_blank _ hblock.blank b.isSpace_opening)
    refine ⟨b, _, htrim, hblock.allowed, closing, ?_, congrArg List.length hmated.closes.2⟩
    rw [htrim, hmarks]
    simp
  · rintro ⟨b, rest, htrim, hallowed, m, hm, hdepth⟩
    obtain ⟨opening, hmarks, -, -, hopens⟩ := exists_marks_opening d b rest
    rw [htrim, hmarks, List.mem_cons] at hm
    have hbehind := hm.resolve_left (by
      rintro rfl
      simp [Mark.depth, Nesting.depth, hopens] at hdepth)
    -- The first mark at which no group is open is the mate.
    obtain ⟨closing, hfound⟩ := Option.isSome_iff_exists.1 <|
      List.find?_isSome (p := fun m : Mark ↦ m.depth == 0).2 ⟨m, hbehind, by simpa using hdepth⟩
    obtain ⟨hclosing, inside, behind, htail, hinside⟩ := List.find?_eq_some_iff_append.1 hfound
    have hlead : isBlank (text.takeWhile isSpace) = true := List.all_takeWhile
    have htext : text = text.takeWhile isSpace ++ b.opening :: rest := by
      rw [← htrim]
      exact List.takeWhile_append_dropWhile.symm
    rw [htail] at hmarks
    rw [htext]
    exact ⟨_, _, ofText_of_cut hlead hallowed hmarks (fun m hm ↦ by simpa using hinside m hm)
      (by simpa using hclosing)⟩

/-- What is found where a body is expected: nothing exactly if only blanks stand there, and a block
exactly if a bracket that may begin one stands there and reading comes back from it. A block is the
text between the bracket and its mate, with the byte offset at which this text begins. -/
theorem ofText_mate (d : Dialect) (text : List Char) :
    (ofText d.profile text = .absent ↔ isBlank text = true) ∧
    ((∃ inner offset, ofText d.profile text = .block inner offset) ↔ Returns d.profile text) ∧
    (ofText d.profile text = .other ↔ isBlank text = false ∧ ¬ Returns d.profile text) ∧
    ∀ inner offset, ofText d.profile text = .block inner offset ↔
      ∃ lead b rest, IsBlock d.profile text lead b inner rest offset := by
  refine ⟨ofText_eq_absent_iff, exists_block_iff, ?_, fun inner offset ↦
    ⟨exists_isBlock, fun ⟨lead, b, rest, h⟩ ↦ h.ofText_eq⟩⟩
  rw [← exists_block_iff, ← Bool.not_eq_true, ← ofText_eq_absent_iff (p := d.profile)]
  cases ofText d.profile text <;> simp

end Body

end ShellCatalog
