import ShellCatalog.Dialect.Profile
import ShellCatalog.Proofs.WordRow

/-!
# Ordinary characters and the names made of them

A character is **ordinary** when it is visible and means nothing to any dialect outside quotes.
Ordinary characters are bare in every dialect (`Dialect.isBare_of_isOrdinary`), so a text of them is
read as one word wherever it stands, and so is such a text with the sign that assigns to it
(`Dialect.isBare_of_mem_assigned`).

**The names of functions are ordinary** (`isOrdinary_of_acceptsRest`). Two of the rules list what a
name may hold and one what it may not; the former rest on word characters being neither blank nor
special, which is read off the table of word characters. The names of aliases are ordinary outside
PowerShell (`Dialect.isOrdinary_aliasName`).

Case does not matter to this: a word of ordinary characters is one in every case
(`isOrdinary_of_sameWord`).
-/

namespace ShellCatalog

/-- The code points of the blanks. -/
def spaceCodes : List Nat :=
  [9, 10, 11, 12, 13, 32, 0x85, 0xA0, 0x1680, 0x2000, 0x2001, 0x2002, 0x2003, 0x2004, 0x2005,
    0x2006, 0x2007, 0x2008, 0x2009, 0x200A, 0x2028, 0x2029, 0x202F, 0x205F, 0x3000]

theorem toNat_mem_spaceCodes {c : Char} (h : isSpace c = true) : c.toNat ∈ spaceCodes := by
  simp only [isSpace, Bool.or_eq_true, Bool.and_eq_true, decide_eq_true_eq, beq_iff_eq] at h
  simp only [spaceCodes, List.mem_cons, List.not_mem_nil, or_false]
  omega

/-- No blank is a word character. -/
theorem isSpace_of_isWordChar {c : Char} (h : isWordChar c = true) : isSpace c = false := by
  have hcodes : spaceCodes.all (fun n ↦ !isWordChar (Char.ofNat n)) = true := by decide +kernel
  by_contra hspace
  rw [Bool.not_eq_false] at hspace
  have hnot := List.all_eq_true.1 hcodes _ (toNat_mem_spaceCodes hspace)
  rw [Char.ofNat_toNat, h] at hnot
  exact Bool.noConfusion hnot

/-- The characters that mean something in some dialect outside quotes. -/
def specialChars : List Char :=
  ['\'', '"', '\\', '\x60', '=', ';', '|', '&', '<', '>', '(', ')', '{', '}', '#']

/-- A visible character that means nothing to any dialect. -/
def isOrdinary (c : Char) : Bool :=
  !isSpace c && c ∉ specialChars

theorem isOrdinary_iff {c : Char} :
    isOrdinary c = true ↔ isSpace c = false ∧ c ∉ specialChars := by
  simp [isOrdinary]

theorem ne_of_isOrdinary {c x : Char} (h : isOrdinary c = true) (hx : isOrdinary x = false) :
    c ≠ x := by
  rintro rfl
  rw [h] at hx
  exact Bool.noConfusion hx

/-- Where an ordinary character follows, no pattern of a case command ends or goes on. -/
theorem endsNoPattern_of_isOrdinary {c : Char} (h : isOrdinary c = true) :
    isSpace c = false ∧ c ≠ ')' ∧ c ≠ '|' :=
  ⟨(isOrdinary_iff.1 h).1, ne_of_isOrdinary h (by decide), ne_of_isOrdinary h (by decide)⟩

/-- An ordinary character is bare in every dialect. -/
theorem Dialect.isBare_of_isOrdinary {c : Char} (d : Dialect) (h : isOrdinary c = true) :
    d.profile.isBare c = true := by
  obtain ⟨visible, hc⟩ := isOrdinary_iff.1 h
  have hline : c ≠ '\n' := by
    rintro rfl
    exact absurd visible (by decide)
  simp only [specialChars, List.mem_cons, List.not_mem_nil, or_false, not_or] at hc
  rw [Profile.isBare_iff]
  refine ⟨?_, visible, by simp [hc]⟩
  cases d <;>
    simp [Profile.isPlain, Dialect.profile, Profile.bash, Profile.zsh, Profile.sh, Profile.pwsh, hc,
      hline]

/-- An ordinary name with the sign that assigns to it is bare. -/
theorem Dialect.isBare_of_mem_assigned {name : List Char} (d : Dialect)
    (ordinary : ∀ c ∈ name, isOrdinary c = true) :
    ∀ c ∈ name ++ ['='], d.profile.isBare c = true := by
  intro c hc
  rcases List.mem_append.1 hc with hc | hc
  · exact d.isBare_of_isOrdinary (ordinary c hc)
  · obtain rfl := List.mem_singleton.1 hc
    cases d <;> decide

theorem isOrdinary_of_isWordChar {c : Char} (h : isWordChar c = true) : isOrdinary c = true := by
  have hspecial : specialChars.all (fun c ↦ !isWordChar c) = true := by decide +kernel
  refine isOrdinary_iff.2 ⟨isSpace_of_isWordChar h, fun hc ↦ ?_⟩
  have hnot := List.all_eq_true.1 hspecial c hc
  rw [h] at hnot
  exact Bool.noConfusion hnot

/-! ### Names of functions -/

namespace NameRule

/-- A rule for function names lets only ordinary characters follow. -/
theorem isOrdinary_of_acceptsRest {rule : NameRule} {c : Char}
    (hrule : rule ∈ [shFunction, portable, pwshFunction]) (h : rule.acceptsRest c = true) :
    isOrdinary c = true := by
  cases rule with
  | shFunction =>
    simp only [acceptsRest, acceptsFirst, Bool.and_eq_true, Bool.not_eq_true', decide_eq_true_eq,
      shSpecial, List.mem_cons, List.not_mem_nil, or_false, not_or] at h
    exact isOrdinary_iff.2 ⟨h.1, by simp [specialChars, h]⟩
  | portable =>
    simp only [acceptsRest, Bool.or_eq_true, beq_iff_eq] at h
    rcases h with h | rfl
    · exact isOrdinary_of_isWordChar (isWordChar_of_isAlphanum h)
    · decide
  | pwshFunction =>
    simp only [acceptsRest, Bool.or_eq_true, beq_iff_eq] at h
    rcases h with (h | rfl) | rfl
    · exact isOrdinary_of_isWordChar h
    · decide
    · decide
  | shAlias | pwshAlias => simp at hrule

/-- What may begin a name of a function may follow in it. -/
theorem acceptsRest_of_acceptsFirst {rule : NameRule} {c : Char}
    (h : rule.acceptsFirst c = true) : rule.acceptsRest c = true := by
  cases rule with
  | portable =>
    simp only [acceptsFirst, Bool.or_eq_true] at h
    simp only [acceptsRest, Char.isAlphanum, Bool.or_eq_true]
    exact h.imp_left .inl
  | pwshFunction =>
    simp only [acceptsFirst] at h
    simp [acceptsRest, h]
  | _ => exact h

/-- Every character of an accepted name may follow in a name. -/
theorem acceptsRest_of_mem {rule : NameRule} {name : List Char} {c : Char}
    (h : rule.accepts name = true) (hc : c ∈ name) : rule.acceptsRest c = true := by
  obtain ⟨first, rest, rfl, hfirst, hrest⟩ := accepts_iff.1 h
  rcases List.mem_cons.1 hc with rfl | hc
  · exact acceptsRest_of_acceptsFirst hfirst
  · exact hrest c hc

end NameRule

/-- The names of aliases are ordinary outside PowerShell. -/
theorem Dialect.isOrdinary_aliasName {d : Dialect} (hd : d ≠ .pwsh) {name : List Char}
    (h : d.profile.aliasNames.accepts name = true) : ∀ c ∈ name, isOrdinary c = true := by
  have hrule : d.profile.aliasNames = .shAlias := by
    cases d
    case pwsh => exact absurd rfl hd
    all_goals rfl
  intro c hc
  have hrest := NameRule.acceptsRest_of_mem (hrule ▸ h) hc
  simp only [NameRule.acceptsRest, NameRule.acceptsFirst, Bool.and_eq_true, Bool.not_eq_true',
    decide_eq_true_eq, NameRule.shSpecial, List.mem_cons, List.not_mem_nil, or_false,
    not_or] at hrest
  exact isOrdinary_iff.2 ⟨hrest.1.1, by simp [specialChars, hrest]⟩

/-- The names of functions are ordinary in every dialect. -/
theorem Dialect.isOrdinary_functionName {d : Dialect} {name : List Char}
    (h : d.profile.functionNames.accepts name = true) : ∀ c ∈ name, isOrdinary c = true :=
  fun _ hc ↦
    NameRule.isOrdinary_of_acceptsRest (by cases d <;> decide) (NameRule.acceptsRest_of_mem h hc)

/-! ### Words in any case -/

/-- Only letters change their case. -/
theorem eq_of_lowerAscii {c x : Char} (hx : x.toNat < 97) (h : lowerAscii c = x) : c = x := by
  unfold lowerAscii Char.toLower at h
  split at h
  · next hupper =>
    have hval := congrArg (fun c ↦ c.val.toNat) h
    simp only [UInt32.toNat_add] at hval
    have hlow : 65 ≤ c.val.toNat := hupper.1
    have hhigh : c.val.toNat ≤ 90 := hupper.2
    have hshift : ('a'.val - 'A'.val).toNat = 32 := by decide
    have hx' : x.val.toNat < 97 := hx
    omega
  · exact h

/-- A character that is no letter stays in every spelling of a word. -/
theorem mem_of_sameWord {s t : List Char} {x : Char} (hx : x.toNat < 97) (hlower : lowerAscii x = x)
    (h : sameWord s t = true) (ht : x ∈ t) : x ∈ s := by
  rw [sameWord, beq_iff_eq] at h
  have hmem : x ∈ s.map lowerAscii := by
    rw [h]
    exact List.mem_map.2 ⟨x, ht, hlower⟩
  obtain ⟨c, hc, heq⟩ := List.mem_map.1 hmem
  exact eq_of_lowerAscii hx heq ▸ hc

/-- Characters that are not ordinary have no case. -/
theorem lowerAscii_of_not_isOrdinary {c : Char} (h : isOrdinary c = false) : lowerAscii c = c := by
  rw [← Bool.not_eq_true, isOrdinary_iff, not_and_or, Bool.not_eq_false, not_not] at h
  rcases h with h | h
  · have hcodes : spaceCodes.all (fun n ↦ lowerAscii (Char.ofNat n) == Char.ofNat n) = true := by
      decide
    have hsame := List.all_eq_true.1 hcodes _ (toNat_mem_spaceCodes h)
    rwa [Char.ofNat_toNat, beq_iff_eq] at hsame
  · have hspecial : specialChars.all (fun c ↦ lowerAscii c == c) = true := by decide
    exact beq_iff_eq.1 (List.all_eq_true.1 hspecial c h)

/-- A word of ordinary characters is one in every case. -/
theorem isOrdinary_of_sameWord {s t : List Char} (h : sameWord s t = true)
    (ordinary : ∀ c ∈ s, isOrdinary (lowerAscii c) = true) : ∀ c ∈ t, isOrdinary c = true := by
  intro c hc
  rw [sameWord, beq_iff_eq] at h
  have hmem : lowerAscii c ∈ s.map lowerAscii := by
    rw [h]
    exact List.mem_map_of_mem hc
  obtain ⟨d, hd, heq⟩ := List.mem_map.1 hmem
  have hlower := ordinary d hd
  rw [heq] at hlower
  by_contra hnot
  rw [Bool.not_eq_true] at hnot
  rw [lowerAscii_of_not_isOrdinary hnot, hnot] at hlower
  exact Bool.noConfusion hlower

/-! ### Scope qualifiers -/

/-- A scope qualifier holds a colon, and no name of a function in PowerShell does. -/
theorem Dialect.dropScope_functionName {d : Dialect} {name : List Char}
    (h : d.profile.functionNames.accepts name = true) : d.profile.dropScope name = name := by
  have hscope : d.profile.scope? name = none := by
    cases d with
    | pwsh =>
      have hcolon : Profile.pwsh.scopes.all (·.toList.contains ':') = true := by decide
      refine List.find?_eq_none.2 fun scope hscope hfound ↦ ?_
      rw [Bool.and_eq_true] at hfound
      have hmem : ':' ∈ name.take scope.length :=
        mem_of_sameWord (by decide) (by decide) hfound.1
          (by simpa using List.all_eq_true.1 hcolon scope hscope)
      have hrest := NameRule.acceptsRest_of_mem h (List.mem_of_mem_take hmem)
      exact absurd hrest (by decide)
    | _ => rfl
  rw [Profile.dropScope, hscope]

end ShellCatalog
