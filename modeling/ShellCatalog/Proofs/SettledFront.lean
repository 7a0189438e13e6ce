import ShellCatalog.Extraction
import ShellCatalog.Proofs.BodyFronts
import ShellCatalog.Proofs.FunctionHeader

/-!
# Fronts that settle their statement

A statement that holds a line of a body is read anew from its own first character, and reading it
anew forgets the documents that were announced in front of it. So the line may be taken for code.
This does no harm if the statement is **settled** by its front (`Settled`): whatever follows the
front, the statement defines the same.

* `ShareFront.rel_ofMarks?`: two runs that share a settled front hold statements with the same
  meaning. A statement begins at its first visible character, which is in the front, so both begin
  at the same place and on the same line; the rest is the condition itself.
* `settled_of_twoWords`: a front settles if it begins with an ordinary word that opens nothing and a
  second word. Such a statement defines nothing (`Extraction.ofStatement_twoWords`): nothing is
  dropped in front of the word, it is no brace group and no alias command, and the second word is
  not the parenthesis of a function header.

Words that make more of a statement are listed in `openingWords`.
-/

namespace ShellCatalog

/-- Whatever follows the front in its statement, the statement defines the same. -/
structure Settled (p : Profile) (front : List Char) : Prop where
  /-- The statement begins within the front. -/
  visible : isBlank front = false
  decided : ∀ (file : Path) (line : Nat) (isLast : Bool) (more more' : List Char),
    Extraction.ofStatement p file ⟨0, line, trimEnd (trimStart front ++ more)⟩ isLast =
      Extraction.ofStatement p file ⟨0, line, trimEnd (trimStart front ++ more')⟩ isLast

/-- A front settles its statement if what the statement defines can be said without what follows. -/
theorem Settled.of_forall {p : Profile} {front : List Char} {e : Path → Nat → Bool → Extraction}
    (visible : isBlank front = false)
    (h : ∀ file line isLast more, Extraction.ofStatement p file
      ⟨0, line, trimEnd (trimStart front ++ more)⟩ isLast = e file line isLast) :
    Settled p front where
  visible := visible
  decided file line isLast more more' := (h file line isLast more).trans (h file line isLast more').symm

/-- Two statements define the same, whether or not they are the last of their texts. -/
def SameMeaning (p : Profile) (file : Path) (s s' : Statement) : Prop :=
  ∀ isLast, Extraction.ofStatement p file s isLast = Extraction.ofStatement p file s' isLast

/-! ### The statements of two runs -/

/-- Two runs that share a visible front begin their statements on the same line and with this
front. -/
theorem Statement.exists_ofMarks?_append {head head' : List Mark} (rest rest' : List Mark)
    (hplace : head.map Mark.place = head'.map Mark.place)
    (visible : isBlank (Mark.text head) = false) :
    ∃ offset offset' line,
      ofMarks? (head ++ rest) =
        some ⟨offset, line, trimEnd (trimStart (Mark.text head) ++ Mark.text rest)⟩ ∧
      ofMarks? (head' ++ rest') =
        some ⟨offset', line, trimEnd (trimStart (Mark.text head) ++ Mark.text rest')⟩ := by
  have htext : Mark.text head = Mark.text head' := by
    have h := congrArg (List.map Prod.fst) hplace
    rwa [List.map_map, List.map_map] at h
  obtain ⟨m, more, hm, hof⟩ := ofMarks?_of_visible visible
  obtain ⟨m', more', hm', hof'⟩ := ofMarks?_of_visible (htext ▸ visible)
  have hfirst : (head.map Mark.place).dropWhile (fun q ↦ isSpace q.1) =
      (head'.map Mark.place).dropWhile fun q ↦ isSpace q.1 := by rw [hplace]
  rw [List.dropWhile_map, List.dropWhile_map] at hfirst
  change (head.dropWhile fun m ↦ isSpace m.char).map Mark.place =
    (head'.dropWhile fun m ↦ isSpace m.char).map Mark.place at hfirst
  rw [hm, hm', List.map_cons, List.map_cons, List.cons.injEq] at hfirst
  have hline : m.line = m'.line := congrArg Prod.snd hfirst.1
  refine ⟨m.offset, m'.offset, m.line, hof rest, ?_⟩
  rw [htext, hline]
  exact hof' rest'

/-- Runs that share a settled front hold statements with the same meaning, or none. -/
theorem ShareFront.rel_ofMarks? {p : Profile} {run run' : List Mark} (file : Path)
    (h : ShareFront (Settled p) [] run run') :
    Option.Rel (SameMeaning p file) (Statement.ofMarks? run) (Statement.ofMarks? run') := by
  rcases h with hplace | ⟨head, head', rest, rest', rfl, rfl, hplace, hsettled⟩
  · have htext : Mark.text run = Mark.text run' := by
      have h := congrArg (List.map Prod.fst) hplace
      rwa [List.map_map, List.map_map] at h
    cases hblank : isBlank (Mark.text run) with
    | true =>
      rw [Statement.ofMarks?_of_isBlank hblank, Statement.ofMarks?_of_isBlank (htext ▸ hblank)]
      exact .none
    | false =>
      obtain ⟨offset, offset', line, h, h'⟩ :=
        Statement.exists_ofMarks?_append [] [] hplace hblank
      rw [List.append_nil] at h h'
      rw [h, h']
      exact .some fun isLast ↦ rfl
  · rw [List.nil_append] at hsettled
    obtain ⟨offset, offset', line, h, h'⟩ :=
      Statement.exists_ofMarks?_append rest rest' hplace hsettled.visible
    rw [h, h']
    exact .some fun isLast ↦ hsettled.decided file line isLast _ _

/-! ### Two words settle a statement -/

/-- The words that make more of a statement than a command and its arguments. -/
def openingWords : List (List Char) :=
  ["then".toList, "else".toList, "do".toList, "case".toList, "alias".toList, "function".toList]

/-- An ordinary word and a second one are no function header. -/
theorem header?_twoWords {d : Dialect} {word : List Char} {c : Char} (rest : List Char)
    (sh : d ≠ .pwsh) (ordinary : ∀ c ∈ word, isOrdinary c = true) (other : word ≠ "function".toList)
    (hc : isSpace c = false ∧ c ≠ '(') :
    d.profile.header? (word ++ ' ' :: c :: rest) = none := by
  have hvisible : ∀ c ∈ word, isSpace c = false := fun c hc ↦ (isOrdinary_iff.1 (ordinary c hc)).1
  have hspace : isSpace ' ' = true := by decide
  have hkeyword : FunctionKeyword.function.read? (word ++ ' ' :: c :: rest) = none := by
    show (after? "function".toList (word ++ ' ' :: c :: rest)).bind
      (fun text ↦ (skipSpaces? text).bind (nameAndOptional emptyParens?)) = none
    rw [← Option.bind_assoc, bind_skipSpaces?_after? (by decide) hvisible fun h ↦
      absurd h.symm other]
    rfl
  have hparens : readParensHeader? (word ++ ' ' :: c :: rest) = none := by
    have hcut : cutWhile (fun c ↦ isHeaderNameChar c && c != '=') (word ++ ' ' :: c :: rest) =
        (word, ' ' :: c :: rest) :=
      cutWhile_append (fun c hc ↦ by simp [isHeaderNameChar_of_isOrdinary (ordinary c hc)])
        (by simp [show isHeaderNameChar ' ' = false by decide])
    have htrim : trimStart (' ' :: c :: rest) = c :: rest := by
      rw [trimStart, List.dropWhile_cons_of_pos hspace, ← trimStart, trimStart_cons rest hc.1]
    have hnone : emptyParens? (c :: rest) = none := by
      unfold emptyParens?
      split
      · next heq => exact absurd (List.cons.inj heq).1 hc.2
      · rfl
    unfold readParensHeader?
    rw [hcut]
    split
    · rfl
    · next heq =>
      cases heq
      rw [htrim, hnone]
      rfl
  cases d with
  | pwsh => exact absurd rfl sh
  | bash | zsh =>
    show ((FunctionKeyword.function.read? _).or (readParensHeader? _)).map _ = none
    rw [hkeyword, hparens]
    rfl
  | sh =>
    show (readParensHeader? _).map _ = none
    rw [hparens]
    rfl

/-- An ordinary word that opens nothing and a second one define nothing, whatever follows. -/
theorem Extraction.ofStatement_twoWords {d : Dialect} {word : List Char} {c : Char} (file : Path)
    (line : Nat) (rest : List Char) (isLast : Bool) (sh : d ≠ .pwsh) (full : word ≠ [])
    (ordinary : ∀ c ∈ word, isOrdinary c = true) (other : word ∉ openingWords)
    (hc : isSpace c = false ∧ c ∉ ['(', ')', '|']) :
    ofStatement d.profile file ⟨0, line, word ++ ' ' :: c :: rest⟩ isLast = .empty := by
  simp only [openingWords, List.mem_cons, List.not_mem_nil, or_false, not_or] at other hc
  obtain ⟨hthen, helse, hdo, hcase, halias, hfunction⟩ := other
  obtain ⟨hvisible, hopen, hclose, hbar⟩ := hc
  have hleading : afterLeading? d.profile (word ++ ' ' :: c :: rest) = none :=
    afterLeading?_twoWords d rest full ordinary (by simpa using ⟨hthen, helse, hdo, hcase⟩)
      ⟨hvisible, hclose, hbar⟩
  have hgroup : braceGroup? d.profile (word ++ ' ' :: c :: rest) = none := by
    refine if_neg fun h ↦ ?_
    cases word with
    | nil => exact full rfl
    | cons e word =>
      obtain rfl : e = '{' := Option.some.inj h.2
      exact absurd (ordinary _ List.mem_cons_self) (by decide)
  obtain ⟨others, hwords⟩ := exists_words_solidWord (c :: rest) d.isPlain_space
    (solidWord_bare full fun e he ↦ d.isBare_of_isOrdinary (ordinary e he))
  have haliases : proposedAliases? d.profile (word :: others) = none := by
    cases d with
    | pwsh => exact absurd rfl sh
    | bash | zsh | sh =>
      have hnot : ¬ Profile.bash.isKeyword word "alias" = true := by
        show ¬ (word == "alias".toList) = true
        rwa [beq_iff_eq]
      exact if_neg hnot
  have hheader := header?_twoWords rest sh ordinary hfunction ⟨hvisible, hopen⟩
  have hcommand : (⟨0, line, word ++ ' ' :: c :: rest⟩ : Statement).command d.profile =
      ⟨0, line, word ++ ' ' :: c :: rest⟩ := Statement.command_of_none hleading
  rw [ofStatement, hcommand]
  simp only [hgroup, ofCommand, hwords, haliases, hheader]

/-- A front that begins with an ordinary word that opens nothing and a second word settles its
statement. -/
theorem settled_of_twoWords {d : Dialect} {front word rest : List Char} {c : Char} (sh : d ≠ .pwsh)
    (hfront : trimStart front = word ++ ' ' :: c :: rest) (full : word ≠ [])
    (ordinary : ∀ c ∈ word, isOrdinary c = true) (other : word ∉ openingWords)
    (hc : isSpace c = false ∧ c ∉ ['(', ')', '|']) : Settled d.profile front := by
  refine .of_forall (trimStart_ne_nil_iff.1 (by simp [hfront])) fun file line isLast more ↦
    show _ = Extraction.empty from ?_
  have hcut : trimEnd (c :: (rest ++ more)) = c :: trimEnd (rest ++ more) :=
    trimEnd_cons_of_visible _ hc.1
  have htext : trimEnd (trimStart front ++ more) = word ++ ' ' :: c :: trimEnd (rest ++ more) := by
    have hsplit : trimStart front ++ more = (word ++ [' ']) ++ c :: (rest ++ more) := by
      simp [hfront]
    rw [hsplit, trimEnd_append (by simp [hcut]), hcut, List.append_assoc]
    rfl
  rw [htext]
  exact Extraction.ofStatement_twoWords file line _ isLast sh full ordinary other hc

-- The second word is needed: the line behind a single word can make a header of it.
example : (Extraction.ofStatement Dialect.bash.profile ⟨"rc"⟩
    ⟨0, 1, "f\n() \x7b :; \x7d".toList⟩ true).definitions =
      [⟨"f", .function, ":;", ⟨"rc"⟩, 1⟩] := by decide +kernel

end ShellCatalog
