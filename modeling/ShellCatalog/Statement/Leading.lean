import ShellCatalog.Dialect.Header
import ShellCatalog.Statement.Basic
import ShellCatalog.Statement.CasePattern

/-!
# What may stand in front of a command

A statement cut from a conditional or from a case command can begin with keywords, with the head of
the case command and with the pattern of an arm. They are dropped, as often as one is found, until
the command itself stands first (`dropLeading`).

* `afterKeyword?` takes off a keyword of a conditional or a loop, which ends at a blank or a
  semicolon.
* `afterCase?` takes off the head of a case command or the pattern of an arm.
* `afterLeading?` takes off either. It leaves a shorter text (`length_afterLeading?_lt`), which is
  why dropping ends, and a suffix (`afterLeading?_suffix`), so the command is the end of its
  statement.

The command may start on a later line than its statement. `Statement.command` counts what was
dropped (`Statement.exists_leading`), and a definition is placed by the command. A statement from
which nothing is dropped is its own command (`Statement.command_of_none`).
-/

namespace ShellCatalog

/-- The text behind a leading keyword, which ends at a blank or a semicolon. -/
def afterKeyword? (p : Profile) (text : List Char) : Option (List Char) :=
  match cutWhile (fun c ↦ !isSpace c && c != ';') text with
  | ([], _) => none
  | (word, rest) => if p.clauseWords.any (p.isKeyword word) then some rest else none

/-- The text behind the head of a case command, or behind the pattern of one of its arms. -/
def afterCase? (p : Profile) (text : List Char) : Option (List Char) :=
  if p.casePatterns then
    (caseHead? text).or ((casePatternLength? p text).map fun n ↦ text.drop n)
  else none

/-- The text behind one of the parts that may stand in front of a command. -/
def afterLeading? (p : Profile) (text : List Char) : Option (List Char) :=
  (afterKeyword? p text).or (afterCase? p text)

/-! ### Each part has at least one character -/

theorem length_afterKeyword?_lt {p : Profile} {text rest : List Char}
    (h : afterKeyword? p text = some rest) : rest.length < text.length := by
  unfold afterKeyword? at h
  split at h
  · simp at h
  · next word rest' hne hspan =>
    split at h
    · cases h
      have hlen := length_of_cutWhile hspan
      have hpos : 0 < word.length := List.length_pos_iff.2 hne
      omega
    · simp at h

theorem casePatternFrom_pos {place : PatternPlace} {ms : List Mark} {n : Nat}
    (h : casePatternFrom place ms = some n) : 0 < n := by
  cases ms with
  | nil => simp [casePatternFrom] at h
  | cons m rest =>
    have key (next : PatternPlace) (h : (casePatternFrom next rest).map (· + 1) = some n) :
        0 < n := by
      obtain ⟨k, -, rfl⟩ := Option.map_eq_some_iff.1 h
      exact Nat.succ_pos k
    rw [casePatternFrom] at h
    grind

theorem casePatternLength?_pos {p : Profile} {text : List Char} {n : Nat}
    (h : casePatternLength? p text = some n) : 0 < n := by
  unfold casePatternLength? at h
  split at h
  · obtain ⟨k, -, rfl⟩ := Option.map_eq_some_iff.1 h
    omega
  · exact casePatternFrom_pos h

theorem length_of_after? {word text rest : List Char} (h : after? word text = some rest) :
    rest.length + word.length = text.length := by
  rw [after?_eq_some_iff.1 h, List.length_append, Nat.add_comm]

/-- Every way to write the subject of a case command leaves a suffix. -/
theorem length_le_of_mem_caseSubjects {text rest : List Char} (h : rest ∈ caseSubjects text) :
    rest.length ≤ text.length := by
  rcases List.mem_append.1 h with h | h
  · split at h
    · split at h
      · next c text _ =>
        obtain ⟨⟨left, right⟩, hsplit, rfl⟩ := Option.map_eq_some_iff.1 (Option.mem_toList.1 h)
        unfold splitAt? at hsplit
        split at hsplit
        · simp at hsplit
        · next heq =>
          cases hsplit
          have hlen := length_of_cutWhile heq
          simp only [List.length_cons] at hlen ⊢
          omega
      · simp at h
    · simp at h
  · split at h
    · simp at h
    · next heq =>
      rw [List.mem_singleton.1 h]
      have hlen := length_of_cutWhile heq
      omega

theorem length_afterIn?_lt {text rest : List Char} (h : afterIn? text = some rest) :
    rest.length < text.length := by
  have key : ∀ {r}, (skipSpaces? text).bind (after? "in".toList) = some r →
      r.length < text.length := by
    intro r hr
    obtain ⟨r₁, h₁, h₂⟩ := Option.bind_eq_some_iff.1 hr
    have l₁ := length_skipSpaces?_lt h₁
    have l₂ := length_of_after? h₂
    omega
  unfold afterIn? at h
  split at h
  · next heq => cases h; exact key heq
  · next heq => exact Nat.lt_trans (length_skipSpaces?_lt h) (key heq)
  · simp at h

theorem length_caseHead?_lt {text rest : List Char} (h : caseHead? text = some rest) :
    rest.length < text.length := by
  simp only [caseHead?, Option.bind_eq_some_iff] at h
  obtain ⟨r₂, ⟨r₁, h₁, h₂⟩, h₃⟩ := h
  obtain ⟨r₃, hmem, h₄⟩ := List.exists_of_findSome?_eq_some h₃
  have hle := length_le_of_mem_caseSubjects hmem
  have l₁ := length_of_after? h₁
  have l₂ := length_skipSpaces?_lt h₂
  have l₄ := length_afterIn?_lt h₄
  omega

/-- A leading part has at least one character. -/
theorem length_afterLeading?_lt {p : Profile} {text rest : List Char}
    (h : afterLeading? p text = some rest) : rest.length < text.length := by
  rcases Option.or_eq_some_iff.1 h with h | ⟨-, h⟩
  · exact length_afterKeyword?_lt h
  · unfold afterCase? at h
    split at h
    · rcases Option.or_eq_some_iff.1 h with h | ⟨-, h⟩
      · exact length_caseHead?_lt h
      · obtain ⟨n, hn, rfl⟩ := Option.map_eq_some_iff.1 h
        have hpos := casePatternLength?_pos hn
        have hne : text ≠ [] := by
          rintro rfl
          simp [casePatternLength?, marks, casePatternFrom] at hn
        have := List.length_pos_iff.2 hne
        rw [List.length_drop]
        omega
    · simp at h

/-! ### Dropping them all -/

/-- The text from the command on. -/
def dropLeading (p : Profile) (text : List Char) : List Char :=
  match _h : afterLeading? p text with
  | some rest => dropLeading p (trimStart rest)
  | none => text
termination_by text.length
decreasing_by
  exact Nat.lt_of_le_of_lt (length_trimStart_le rest) (length_afterLeading?_lt _h)

/-- The statement from its command on, which may start on a later line. -/
def Statement.command (p : Profile) (s : Statement) : Statement :=
  let rest := dropLeading p s.text
  let leading := s.text.take (s.text.length - rest.length)
  ⟨s.offset + byteLength leading, lineAfter s.line leading, rest⟩

theorem dropLeading_of_none {p : Profile} {text : List Char} (h : afterLeading? p text = none) :
    dropLeading p text = text := by
  rw [dropLeading]
  split
  · next heq => simp [h] at heq
  · rfl

/-- A text with a part in front is the text behind the part. -/
theorem dropLeading_of_some {p : Profile} {text rest : List Char}
    (h : afterLeading? p text = some rest) :
    dropLeading p text = dropLeading p (trimStart rest) := by
  rw [dropLeading]
  split
  · next heq =>
    rw [h] at heq
    cases heq
    rfl
  · next heq => simp [h] at heq

/-- A statement with nothing in front of its command is its command. -/
theorem Statement.command_of_none {p : Profile} {s : Statement}
    (h : afterLeading? p s.text = none) : s.command p = s := by
  simp [command, dropLeading_of_none h]

theorem length_dropLeading_le (p : Profile) (text : List Char) :
    (dropLeading p text).length ≤ text.length := by
  fun_induction dropLeading p text with
  | case1 text rest hrest ih =>
    have h₁ := length_trimStart_le rest
    have h₂ := length_afterLeading?_lt hrest
    omega
  | case2 => exact Nat.le_refl _

/-! ### What is dropped stands in front -/

theorem suffix_of_cutWhile {test : Char → Bool} {text run rest : List Char}
    (h : cutWhile test text = (run, rest)) : rest <:+ text :=
  ⟨run, append_of_cutWhile h⟩

theorem skipSpaces?_suffix {text rest : List Char} (h : skipSpaces? text = some rest) :
    rest <:+ text := by
  cases text with
  | nil => simp [skipSpaces?] at h
  | cons c text =>
    rw [skipSpaces?] at h
    split at h
    · cases h
      exact (trimStart_suffix text).trans (List.suffix_cons c text)
    · simp at h

theorem after?_suffix {word text rest : List Char} (h : after? word text = some rest) :
    rest <:+ text :=
  ⟨word, (after?_eq_some_iff.1 h).symm⟩

theorem suffix_of_mem_caseSubjects {text rest : List Char} (h : rest ∈ caseSubjects text) :
    rest <:+ text := by
  rcases List.mem_append.1 h with h | h
  · split at h
    · next c text _ =>
      split at h
      · obtain ⟨⟨left, right⟩, hsplit, rfl⟩ := Option.map_eq_some_iff.1 (Option.mem_toList.1 h)
        exact ⟨c :: (left ++ [c]), by simp [(splitAt?_eq_some_iff.1 hsplit).1]⟩
      · simp at h
    · simp at h
  · split at h
    · simp at h
    · next hcut =>
      rw [List.mem_singleton.1 h]
      exact suffix_of_cutWhile hcut

theorem afterIn?_suffix {text rest : List Char} (h : afterIn? text = some rest) :
    rest <:+ text := by
  have key : ∀ {r}, (skipSpaces? text).bind (after? "in".toList) = some r → r <:+ text := by
    intro r hr
    obtain ⟨r₁, h₁, h₂⟩ := Option.bind_eq_some_iff.1 hr
    exact (after?_suffix h₂).trans (skipSpaces?_suffix h₁)
  unfold afterIn? at h
  split at h
  · next heq => cases h; exact key heq
  · next heq => exact (skipSpaces?_suffix h).trans (key heq)
  · simp at h

theorem caseHead?_suffix {text rest : List Char} (h : caseHead? text = some rest) :
    rest <:+ text := by
  simp only [caseHead?, Option.bind_eq_some_iff] at h
  obtain ⟨r₂, ⟨r₁, h₁, h₂⟩, h₃⟩ := h
  obtain ⟨r₃, hmem, h₄⟩ := List.exists_of_findSome?_eq_some h₃
  exact (afterIn?_suffix h₄).trans ((suffix_of_mem_caseSubjects hmem).trans
    ((skipSpaces?_suffix h₂).trans (after?_suffix h₁)))

theorem afterLeading?_suffix {p : Profile} {text rest : List Char}
    (h : afterLeading? p text = some rest) : rest <:+ text := by
  rcases Option.or_eq_some_iff.1 h with h | ⟨-, h⟩
  · unfold afterKeyword? at h
    split at h
    · simp at h
    · next hcut =>
      split at h
      · cases h
        exact suffix_of_cutWhile hcut
      · simp at h
  · unfold afterCase? at h
    split at h
    · rcases Option.or_eq_some_iff.1 h with h | ⟨-, h⟩
      · exact caseHead?_suffix h
      · obtain ⟨n, -, rfl⟩ := Option.map_eq_some_iff.1 h
        exact List.drop_suffix n text
    · simp at h

theorem dropLeading_suffix (p : Profile) (text : List Char) : dropLeading p text <:+ text := by
  fun_induction dropLeading p text with
  | case1 text rest hrest ih =>
    exact ih.trans ((trimStart_suffix rest).trans (afterLeading?_suffix hrest))
  | case2 => exact List.suffix_rfl

/-- The command ends its statement, and knows where it starts. -/
theorem Statement.exists_leading (p : Profile) (s : Statement) :
    ∃ leading, s.text = leading ++ (s.command p).text ∧
      (s.command p).offset = s.offset + byteLength leading ∧
      (s.command p).line = lineAfter s.line leading := by
  obtain ⟨leading, h⟩ := dropLeading_suffix p s.text
  have hlength := congrArg List.length h
  rw [List.length_append] at hlength
  have htake : s.text.take (s.text.length - (dropLeading p s.text).length) = leading := by
    rw [← hlength, Nat.add_sub_cancel]
    exact List.prefix_iff_eq_take.1 ⟨_, h⟩ |>.symm
  exact ⟨leading, h.symm, by simp only [command, htake], by simp only [command, htake]⟩

end ShellCatalog
